import MiniKernel.Ports.PagingCalls

/-!
# Pages that a call leaves alone

`Holds pages` are the bytes in the frames of some pages, and `InTable` the bytes of the
page tables.  A call spares the pages when it keeps their words and writes to none of
their bytes, words of page tables apart: what lies in these pages is where it was and
what it was.

`map_page` does so when it does not map one of the pages and takes none of their frames
for a table (`MapSpares`), and `free_page` when it is not called with one of them.
-/

namespace MiniKernel.Ports.PagingKept

open MiniKernel.Verified.ByteMemory
open MiniKernel.Verified.PageWords
open MiniKernel.Ports.Pmm
open MiniKernel.Ports.Paging
open MiniKernel.Ports.PagingTables
open MiniKernel.Ports.PagingIdentity
open MiniKernel.Ports.PagingSparing
open MiniKernel.Ports.PagingCalls

theorem pageOf_ne {a x : Nat} (hAligned : a % 4096 = 0) (h : pageOf a ≠ pageOf x) :
    x < a ∨ a + 4096 ≤ x := by
  unfold pageOf at h
  omega

theorem aligned_ne {a b : Nat} (ha : a % 4096 = 0) (hb : b % 4096 = 0) (h : a ≠ b) :
    pageOf a ≠ pageOf b := by
  unfold pageOf
  omega

theorem page_lt {v : Nat} (h : v < 2 ^ 32) : pageOf v / 1024 < 1024 ∧ pageOf v < 2 ^ 20 := by
  unfold pageOf
  omega

/-- Tables and memory after some pages were mapped: tables are only added, and
neither other pages nor bytes outside tables change. -/
structure Grown (vm vm' : Vm) (pages : List Nat) : Prop where
  tables : ∀ d, HasTable vm d → HasTable vm' d ∧ tableOf vm' d = tableOf vm d
  words : ∀ q, q < 2 ^ 20 → q ∉ pages → entryWord vm' q = entryWord vm q
  bytes : ∀ x, (∀ d < 1024, HasTable vm' d → pageOf (tableOf vm' d) ≠ pageOf x) →
    vm'.mem x = vm.mem x

variable {vm vm' : Vm}

theorem Grown.refl (vm : Vm) : Grown vm vm [] :=
  ⟨fun _ h => ⟨h, rfl⟩, fun _ _ _ => rfl, fun _ _ => rfl⟩

theorem Grown.trans {vm₁ vm₂ vm₃ : Vm} {ps qs : List Nat} (h : Grown vm₁ vm₂ ps)
    (h' : Grown vm₂ vm₃ qs) : Grown vm₁ vm₃ (ps ++ qs) where
  tables d hd := by
    obtain ⟨hHas, hTable⟩ := h.tables d hd
    obtain ⟨hHas', hTable'⟩ := h'.tables d hHas
    exact ⟨hHas', hTable'.trans hTable⟩
  words q hq hNot := by
    rw [List.mem_append, not_or] at hNot
    rw [h'.words q hq hNot.2, h.words q hq hNot.1]
  bytes x hx := by
    rw [h'.bytes x hx, h.bytes x]
    intro d hd hHas
    obtain ⟨hHas', hTable⟩ := h'.tables d hHas
    rw [← hTable]
    exact hx d hd hHas'

/-- The translation of an address when another page was mapped. -/
theorem Grown.mapped {page x y : Nat} (h : Grown vm vm' [page]) (hRange : x < 2 ^ 32)
    (hWalk : pageWalk vm x = some y) (hne : pageOf x ≠ page) : pageWalk vm' x = some y := by
  rw [pageWalk_congr (h.words _ (by unfold pageOf; omega) (by simpa using hne))]
  exact hWalk

/-- **`map_page`** touches tables only, and adds at most one, at the frame
`allocate` returns. -/
theorem mapPage_grown {physical virtual flags : Nat} (h : Identity vm)
    (hVirtual : virtual < 2 ^ 32) (hFlags : flags < 2 ^ 32)
    (hOk : MapOk physical virtual flags vm)
    (hMap : mapPage pageWalk physical virtual flags vm = some vm') :
    Grown vm vm' [pageOf virtual] ∧ ∀ d, HasTable vm' d →
      HasTable vm d ∧ tableOf vm' d = tableOf vm d ∨
        ¬HasTable vm (pageOf virtual / 1024) ∧ tableOf vm' d = (allocate 4096 vm.pmm).1 := by
  have hWords : ∀ q, q < 2 ^ 20 → q ∉ [pageOf virtual] → entryWord vm' q = entryWord vm q :=
    fun q hq hNot => (mapPage_edits h hVirtual hFlags hOk hMap q hq).resolve_right
      fun hEq => hNot (by simp [hEq.1])
  have hDirectory := (page_lt hVirtual).1
  by_cases hTable : HasTable vm (pageOf virtual / 1024)
  · obtain ⟨vm₁, hMap₁, hSame, -, hMem, -⟩ :=
      Distinct.mapPage pageWalk h.tables.distinct physical hVirtual hFlags hTable
        fun _ hSame hMem _ hk => h.reach hDirectory hTable hSame hMem hk
    cases hMap₁.symm.trans hMap
    refine ⟨⟨fun d hd => ⟨(hSame d).1.mpr hd, (hSame d).2⟩, hWords, fun x hx => ?_⟩,
      fun d hd => Or.inl ⟨(hSame d).1.mp hd, (hSame d).2⟩⟩
    have hOutside := pageOf_ne (tableOf_mod vm' _) (hx _ hDirectory ((hSame _).1.mpr hTable))
    rw [(hSame _).2] at hOutside
    rw [hMem, store_apply_apart (by omega)]
  · by_cases hFull : (allocate 4096 vm.pmm).1 = 0
    · rw [mapPage_full hTable hFull] at hMap
      cases hMap
      exact ⟨⟨fun d hd => ⟨hd, rfl⟩, hWords, fun _ _ => rfl⟩, fun d hd => Or.inl ⟨hd, rfl⟩⟩
    · rw [MapOk, if_neg hTable] at hOk
      obtain ⟨hAligned, hFresh, hSelf⟩ := hOk hFull
      have hRange := allocate_lt 4096 vm.pmm
      obtain ⟨vm₁, hMap₁, hNew, -⟩ :=
        Distinct.mapPage_adds pageWalk h.tables.distinct physical hVirtual hFlags hTable
          rfl hFull hAligned
          hRange hFresh fun _ hOther hMem => (reach_new hAligned hRange hTable hFresh hSelf
            hOther hMem).2
      cases hMap₁.symm.trans hMap
      refine ⟨⟨fun d hd => ?_, hWords, fun x hx => ?_⟩, fun d hd => ?_⟩
      · have hne : d ≠ pageOf virtual / 1024 := fun hEq => hTable (hEq ▸ hd)
        exact ⟨(hNew.other d hne).1.mpr hd, (hNew.other d hne).2⟩
      · have hOutside := pageOf_ne (tableOf_mod vm' _) (hx _ hDirectory hNew.has)
        rw [hNew.tableOf] at hOutside
        exact hNew.outside x hOutside
      · by_cases hEq : d = pageOf virtual / 1024
        · rw [hEq, hNew.tableOf]
          exact Or.inr ⟨hTable, rfl⟩
        · exact Or.inl ⟨(hNew.other d hEq).1.mp hd, (hNew.other d hEq).2⟩

/-! ## Pages and bytes -/

section Conditions

variable (pages : List Nat)

/-- The byte is in the frame of one of the pages. -/
def Holds (vm : Vm) (x : Nat) : Prop :=
  ∃ p ∈ pages, p < 2 ^ 20 ∧ Present (entryWord vm p) ∧
    pageOf x = pageOf (frameOf (entryWord vm p))

/-- The byte is in a page table. -/
def InTable (vm : Vm) (x : Nat) : Prop :=
  ∃ d, d < 1024 ∧ HasTable vm d ∧ pageOf (tableOf vm d) = pageOf x

instance (vm : Vm) (x : Nat) : Decidable (Holds pages vm x) :=
  inferInstanceAs (Decidable (∃ _ ∈ _, _))

instance (vm : Vm) (x : Nat) : Decidable (InTable vm x) :=
  inferInstanceAs (Decidable (∃ d, d < 1024 ∧ _))

/-- Only the page of the byte counts. -/
theorem Holds.of_page {pages : List Nat} {vm : Vm} {x y : Nat} (h : Holds pages vm x)
    (hPage : pageOf y = pageOf x) : Holds pages vm y := by
  obtain ⟨p, hp, hRange, hPresent, hFrame⟩ := h
  exact ⟨p, hp, hRange, hPresent, hPage.trans hFrame⟩

/-- The pages translate as before and hold what they held, words of page tables
apart. -/
def Unchanged (vm vm' : Vm) : Prop :=
  ∀ v < 2 ^ 32, pageOf v ∈ pages →
    pageWalk vm' v = pageWalk vm v ∧
      ∀ x ∈ pageWalk vm v, ¬InTable vm x → vm'.mem x = vm.mem x

/-- `map_page` keeps the tables where the code looks for them, maps none of the
pages and takes none of their frames for a table. -/
def MapSpares (physical virtual flags : Nat) (vm : Vm) : Prop :=
  MapOk physical virtual flags vm ∧ pageOf virtual ∉ pages ∧
    (¬HasTable vm (pageOf virtual / 1024) → ¬Holds pages vm (allocate 4096 vm.pmm).1)

instance (physical virtual flags : Nat) (vm : Vm) :
    Decidable (MapSpares pages physical virtual flags vm) :=
  inferInstanceAs (Decidable (_ ∧ _))

end Conditions

variable {pages : List Nat}

/-! ## What is kept -/

/-- What a call keeps from `vm` to `vm'`. -/
structure Spared (pages : List Nat) (vm vm' : Vm) : Prop where
  identity : Identity vm'
  words : ∀ p ∈ pages, p < 2 ^ 20 → entryWord vm' p = entryWord vm p
  tables : ∀ x, Holds pages vm x → InTable vm' x → InTable vm x
  bytes : ∀ x, Holds pages vm x → ¬InTable vm x → vm'.mem x = vm.mem x

theorem Spared.holds (h : Spared pages vm vm') {x : Nat} (hx : Holds pages vm x) :
    Holds pages vm' x := by
  obtain ⟨p, hp, hRange, hPresent, hFrame⟩ := hx
  have hWord := h.words p hp hRange
  exact ⟨p, hp, hRange, by rwa [hWord], by rwa [hWord]⟩

/-- The frames are those of before. -/
theorem Spared.of_holds (h : Spared pages vm vm') {x : Nat} (hx : Holds pages vm' x) :
    Holds pages vm x := by
  obtain ⟨p, hp, hRange, hPresent, hFrame⟩ := hx
  rw [h.words p hp hRange] at hPresent hFrame
  exact ⟨p, hp, hRange, hPresent, hFrame⟩

theorem Spared.trans {vm₁ vm₂ vm₃ : Vm} (h : Spared pages vm₁ vm₂) (h' : Spared pages vm₂ vm₃) :
    Spared pages vm₁ vm₃ where
  identity := h'.identity
  words p hp hRange := (h'.words p hp hRange).trans (h.words p hp hRange)
  tables x hx hIn := h.tables x hx (h'.tables x (h.holds hx) hIn)
  bytes x hx hOut :=
    (h'.bytes x (h.holds hx) fun hIn => hOut (h.tables x hx hIn)).trans (h.bytes x hx hOut)

theorem InTable.of_same (hSame : ∀ d, SameTable vm vm' d) {x : Nat} (hx : InTable vm' x) :
    InTable vm x := by
  obtain ⟨d, hd, hHas, hTable⟩ := hx
  exact ⟨d, hd, (hSame d).1.mp hHas, by rwa [(hSame d).2] at hTable⟩

/-- The variables of the allocators do not matter. -/
theorem Spared.update (h : Identity vm) (hMem : vm'.mem = vm.mem)
    (hDirectory : vm'.pageDirectory = vm.pageDirectory) : Spared pages vm vm' where
  identity := h.update hMem hDirectory
  words p _ _ := entryWord_congr (sameTable_of_eq (by rw [hDirectory])) fun _ x _ _ => by rw [hMem]
  tables _ _ hx := hx.of_same fun d => sameTable_of_eq (by rw [hDirectory])
  bytes x _ _ := by rw [hMem]

/-- What a load keeps, with what it needs of the allocator of virtual pages. -/
structure Kept (pages : List Nat) (vm vm' : Vm) : Prop where
  spared : Spared pages vm vm'
  bounded : Bounded vm → Bounded vm'

theorem Kept.identity (h : Kept pages vm vm') : Identity vm' := h.spared.identity

theorem Kept.trans {vm₁ vm₂ vm₃ : Vm} (h : Kept pages vm₁ vm₂) (h' : Kept pages vm₂ vm₃) :
    Kept pages vm₁ vm₃ :=
  ⟨h.spared.trans h'.spared, fun hBounded => h'.bounded (h.bounded hBounded)⟩

theorem Kept.refl (h : Identity vm) : Kept pages vm vm :=
  ⟨Spared.update h rfl rfl, fun hBounded => hBounded⟩

theorem Kept.taken (h : Identity vm) (pmm : Table) : Kept pages vm { vm with pmm := pmm } :=
  ⟨Spared.update h rfl rfl, fun hBounded => hBounded.same ⟨rfl, rfl, rfl⟩⟩

theorem Holds.of_walk {v x : Nat} (hv : v < 2 ^ 32) (hPage : pageOf v ∈ pages)
    (hx : pageWalk vm v = some x) :
    Holds pages vm x ∧ pageOf x = pageOf (frameOf (entryWord vm (pageOf v))) := by
  rw [pageWalk_eq] at hx
  obtain ⟨hPresent, hx⟩ := Option.ite_none_right_eq_some.mp hx
  have hFrame : pageOf x = pageOf (frameOf (entryWord vm (pageOf v))) := by
    cases hx
    have hMod := frameOf_mod (entryWord vm (pageOf v))
    unfold pageOf at *
    omega
  exact ⟨⟨pageOf v, hPage, (page_lt hv).2, hPresent, hFrame⟩, hFrame⟩

theorem Spared.unchanged (h : Spared pages vm vm') : Unchanged pages vm vm' := by
  intro v hv hPage
  exact ⟨pageWalk_congr (h.words _ hPage (page_lt hv).2),
    fun x hx hOut => h.bytes x (Holds.of_walk hv hPage hx).1 hOut⟩

/-! ## One page -/

/-- `map_page` does not fault when the tables are in place. -/
theorem mapPage_total {physical virtual flags : Nat} (h : Identity vm)
    (hVirtual : virtual < 2 ^ 32) (hFlags : flags < 2 ^ 32)
    (hOk : MapOk physical virtual flags vm) :
    ∃ vm', mapPage pageWalk physical virtual flags vm = some vm' := by
  have hDirectory := (page_lt hVirtual).1
  by_cases hTable : HasTable vm (pageOf virtual / 1024)
  · obtain ⟨vm', hMap, -⟩ :=
      Distinct.mapPage pageWalk h.tables.distinct physical hVirtual hFlags hTable
        fun _ hSame hMem _ hk => h.reach hDirectory hTable hSame hMem hk
    exact ⟨vm', hMap⟩
  · by_cases hFull : (allocate 4096 vm.pmm).1 = 0
    · exact ⟨_, mapPage_full hTable hFull⟩
    · rw [MapOk, if_neg hTable] at hOk
      obtain ⟨hAligned, hFresh, hSelf⟩ := hOk hFull
      have hRange := allocate_lt 4096 vm.pmm
      obtain ⟨vm', hMap, -⟩ :=
        Distinct.mapPage_adds pageWalk h.tables.distinct physical hVirtual hFlags hTable
          rfl hFull hAligned
          hRange hFresh fun _ hOther hMem => (reach_new hAligned hRange hTable hFresh hSelf
            hOther hMem).2
      exact ⟨vm', hMap⟩

theorem mapPage_spares {physical virtual flags : Nat} (h : Identity vm)
    (hVirtual : virtual < 2 ^ 32) (hFlags : flags < 2 ^ 32)
    (hOk : MapSpares pages physical virtual flags vm)
    (hMap : mapPage pageWalk physical virtual flags vm = some vm') : Kept pages vm vm' := by
  obtain ⟨hMapOk, hPage, hFresh⟩ := hOk
  obtain ⟨hGrown, hTables⟩ := mapPage_grown h hVirtual hFlags hMapOk hMap
  have hOld : ∀ x, Holds pages vm x → InTable vm' x → InTable vm x := by
    rintro x ⟨p, hp, hRange, hPresent, hFrame⟩ ⟨d, hd, hHas, hTable⟩
    rcases hTables d hHas with ⟨hBefore, hSame⟩ | ⟨hNone, hNew⟩
    · exact ⟨d, hd, hBefore, by rwa [hSame] at hTable⟩
    · -- the frame of the new table holds none of the pages
      refine absurd ⟨p, hp, hRange, hPresent, ?_⟩ (hFresh hNone)
      rw [← hNew, hTable, hFrame]
  refine ⟨?_, fun hBounded => hBounded.same (mapPage_same hMap)⟩
  refine
    { identity := mapPage_identity h hVirtual hFlags hMapOk hMap
      words := fun p hp hRange => hGrown.words p hRange fun hIn => hPage ?_
      tables := hOld
      bytes := fun x hx hOut => hGrown.bytes x fun d hd hHas hTable =>
        hOut (hOld x hx ⟨d, hd, hHas, hTable⟩) }
  rwa [← List.mem_singleton.mp hIn]

/-- Words do not depend on memory outside the tables. -/
theorem entryWord_mem {m : Mem} (hAgree : ∀ x, InTable vm x → m x = vm.mem x) {p : Nat}
    (hp : p < 2 ^ 20) : entryWord { vm with mem := m } p = entryWord vm p := by
  refine entryWord_congr (sameTable_of_eq rfl) fun hHas x hLow hHigh => hAgree x ?_
  have hMod := tableOf_mod vm (p / 1024)
  refine ⟨p / 1024, by omega, hHas, ?_⟩
  unfold pageOf
  omega

/-! ## The kernel's own pages -/

theorem Spared.mono {pages' : List Nat} (h : Spared pages' vm vm') (hSub : pages ⊆ pages') :
    Spared pages vm vm' := by
  have hHolds : ∀ x, Holds pages vm x → Holds pages' vm x := by
    rintro x ⟨p, hp, hRest⟩
    exact ⟨p, hSub hp, hRest⟩
  exact
    { identity := h.identity
      words := fun p hp => h.words p (hSub hp)
      tables := fun x hx => h.tables x (hHolds x hx)
      bytes := fun x hx => h.bytes x (hHolds x hx) }

theorem Kept.mono {pages' : List Nat} (h : Kept pages' vm vm') (hSub : pages ⊆ pages') :
    Kept pages vm vm' :=
  ⟨h.spared.mono hSub, h.bounded⟩

/-- **The kernel's own pages stay in place** while they are spared. -/
theorem Spared.inPlace {layout : Layout} (h : Spared pages vm vm')
    (hOwn : ownPages layout ⊆ pages) (hPlace : InPlace layout vm) : InPlace layout vm' where
  self page hPage := by
    have hLow := ownPage_lt hPage
    rw [h.words page (hOwn (mem_ownPages.mpr hPage)) (by omega)]
    exact hPlace.self page hPage
  tables d hd hHas hPage := by
    -- a table in the frame of an own page was there before, so it is the first one
    obtain ⟨hPresent, hFrame⟩ := hPlace.self _ hPage
    have hLow := ownPage_lt hPage
    have hIn : Holds pages vm (tableOf vm' d) := by
      refine ⟨_, hOwn (mem_ownPages.mpr hPage), by omega, hPresent, ?_⟩
      rw [hFrame]
      unfold pageOf
      omega
    obtain ⟨d', hd', hHas', hEq⟩ := h.tables _ hIn ⟨d, hd, hHas, rfl⟩
    have hFirst := hPlace.tables d' hd' hHas' (by rw [hEq]; exact hPage)
    have hMod := tableOf_mod vm d'
    have hMod' := tableOf_mod vm' d
    rw [← hFirst]
    unfold pageOf at hEq
    omega

end MiniKernel.Ports.PagingKept
