import MiniKernel.Ports.Paging

/-!
# What the page tables say

`entryWord vm p` is the table word of page `p`, `0` when its directory entry
is not present.  As long as the present directory entries point to pairwise
different frames, `map_page` changes the word of one page and adds at most one
table, and `free_page` clears the word of one page.  The lemmas hold for every
meaning of table pointers that reaches the table in question.
-/

namespace MiniKernel.Ports.PagingTables

open MiniKernel.Verified.ByteMemory
open MiniKernel.Verified.PageWords
open MiniKernel.Ports.Pmm
open MiniKernel.Ports.Paging

/-- The directory entry is present. -/
def HasTable (vm : Vm) (d : Nat) : Prop := Present (vm.pageDirectory d)

instance (vm : Vm) (d : Nat) : Decidable (HasTable vm d) :=
  inferInstanceAs (Decidable (Present _))

theorem hasTable_iff {vm : Vm} {d : Nat} : HasTable vm d ↔ ¬vm.pageDirectory d &&& 1 = 0 := by
  rw [and_one_eq_zero, not_not]
  exact Iff.rfl

/-- The frame of the table a directory entry points to. -/
def tableOf (vm : Vm) (d : Nat) : Nat := frameOf (vm.pageDirectory d)

/-- The table word of a page. -/
def entryWord (vm : Vm) (p : Nat) : Nat :=
  if HasTable vm (p / 1024) then load vm.mem (tableOf vm (p / 1024) + 4 * (p % 1024)) 4
  else 0

/-- The present directory entries point to different frames other than `0`. -/
structure Tables (vm : Vm) : Prop where
  distinct : ∀ d d', d < 1024 → d' < 1024 → HasTable vm d → HasTable vm d' →
    tableOf vm d = tableOf vm d' → d = d'
  nonzero : ∀ d, d < 1024 → HasTable vm d → tableOf vm d ≠ 0

/-- The present directory entries point to different frames. -/
def Distinct (vm : Vm) : Prop :=
  ∀ d d', d < 1024 → d' < 1024 → HasTable vm d → HasTable vm d' →
    tableOf vm d = tableOf vm d' → d = d'

/-- The directory entry points to the same table in both states. -/
def SameTable (vm vm' : Vm) (d : Nat) : Prop :=
  (HasTable vm' d ↔ HasTable vm d) ∧ tableOf vm' d = tableOf vm d

theorem SameTable.refl (vm : Vm) (d : Nat) : SameTable vm vm d := ⟨Iff.rfl, rfl⟩

theorem SameTable.trans {vm₁ vm₂ vm₃ : Vm} {d : Nat} (h : SameTable vm₁ vm₂ d)
    (h' : SameTable vm₂ vm₃ d) : SameTable vm₁ vm₃ d :=
  ⟨h'.1.trans h.1, h'.2.trans h.2⟩

theorem sameTable_of_eq {vm vm' : Vm} {d : Nat}
    (h : vm'.pageDirectory d = vm.pageDirectory d) : SameTable vm vm' d := by
  unfold SameTable HasTable tableOf
  rw [h]
  exact ⟨Iff.rfl, rfl⟩

variable {ptr : Vm → Nat → Option Nat} {vm vm' : Vm}

theorem Distinct.congr (h : Distinct vm) (hSame : ∀ d, SameTable vm vm' d) : Distinct vm' := by
  intro d d' hd hd' hHas hHas' hEq
  rw [(hSame d).2, (hSame d').2] at hEq
  exact h d d' hd hd' ((hSame d).1.mp hHas) ((hSame d').1.mp hHas') hEq

theorem Tables.congr (h : Tables vm) (hSame : ∀ d, SameTable vm vm' d) : Tables vm' where
  distinct := Distinct.congr h.distinct hSame
  nonzero d hd hHas := by
    rw [(hSame d).2]
    exact h.nonzero d hd ((hSame d).1.mp hHas)

/-! ## Reading -/

theorem tableOf_mod (vm : Vm) (d : Nat) : tableOf vm d % 4096 = 0 := frameOf_mod _

theorem entryWord_present {p : Nat} (h : Present (entryWord vm p)) :
    HasTable vm (p / 1024) := by
  by_contra hNot
  unfold entryWord at h
  rw [if_neg hNot] at h
  exact absurd h (by decide)

/-- The walk of the processor, by pages. -/
theorem pageWalk_eq (vm : Vm) (v : Nat) :
    pageWalk vm v =
      if Present (entryWord vm (pageOf v)) then
        some (frameOf (entryWord vm (pageOf v)) + v % 4096)
      else none := by
  unfold pageWalk entryWord
  simp only [shift_directory, shift_table, and_mask]
  by_cases hTable : HasTable vm (pageOf v / 1024)
  · rw [if_neg (hasTable_iff.mp hTable), if_pos hTable, tableOf]
    split
    · next hNot => rw [if_neg (and_one_eq_zero.mp hNot)]
    · next hYes => rw [if_pos (not_not.mp (mt and_one_eq_zero.mpr hYes))]
  · rw [if_pos (not_not.mp (mt hasTable_iff.mpr hTable)), if_neg hTable, if_neg (by decide)]

/-- Only the word of its page decides where an address goes. -/
theorem pageWalk_congr {v : Nat} (h : entryWord vm' (pageOf v) = entryWord vm (pageOf v)) :
    pageWalk vm' v = pageWalk vm v := by
  rw [pageWalk_eq, pageWalk_eq, h]

theorem pageWalk_lt {v x : Nat} (h : pageWalk vm v = some x) : x < 2 ^ 32 := by
  have hFrame := frameOf_le (entryWord vm (pageOf v))
  rw [pageWalk_eq] at h
  split at h
  · cases h
    omega
  · cases h

theorem getPte_eq (v : Nat) (vm : Vm) :
    getPte v vm =
      if HasTable vm (pageOf v / 1024) then
        tableOf vm (pageOf v / 1024) + 4 * (pageOf v % 1024)
      else 0 := by
  unfold getPte
  simp only [shift_directory, shift_table, and_mask]
  by_cases hTable : HasTable vm (pageOf v / 1024)
  · rw [if_neg (hasTable_iff.mp hTable), if_pos hTable, tableOf]
  · rw [if_pos (not_not.mp (mt hasTable_iff.mpr hTable)), if_neg hTable]

/-- A page's word depends on its directory entry and on the word itself. -/
theorem entryWord_congr {p : Nat} (hSame : SameTable vm vm' (p / 1024))
    (hMem : HasTable vm (p / 1024) → ∀ x, tableOf vm (p / 1024) ≤ x →
      x < tableOf vm (p / 1024) + 4096 → vm'.mem x = vm.mem x) :
    entryWord vm' p = entryWord vm p := by
  unfold entryWord
  by_cases hTable : HasTable vm (p / 1024)
  · rw [if_pos hTable, if_pos (hSame.1.mpr hTable), hSame.2]
    exact load_congr fun x hLow hHigh => hMem hTable x (by omega) (by omega)
  · rw [if_neg hTable, if_neg fun h => hTable (hSame.1.mp h)]

/-! ## Writing one word -/

/-- A write to the word of a page changes this page's word only. -/
theorem Distinct.entryWord_write (hD : Distinct vm) {p word : Nat} (hp : p < 2 ^ 20)
    (hTable : HasTable vm (p / 1024)) (hWord : word < 2 ^ 32)
    (hDirectory : ∀ d, SameTable vm vm' d)
    (hMem : vm'.mem = store vm.mem (tableOf vm (p / 1024) + 4 * (p % 1024)) word 4) :
    ∀ q, q < 2 ^ 20 → entryWord vm' q = if q = p then word else entryWord vm q := by
  intro q hq
  have hSame := hDirectory (q / 1024)
  by_cases hTableQ : HasTable vm (q / 1024)
  · unfold entryWord
    rw [if_pos hTableQ, if_pos (hSame.1.mpr hTableQ), hSame.2, hMem]
    by_cases hpq : q = p
    · subst hpq
      rw [if_pos rfl, load_store_self (by omega)]
    · rw [if_neg hpq]
      apply load_store_apart
      by_cases hd : q / 1024 = p / 1024
      · rw [hd]
        omega
      · have hApart := frameOf_ne fun hEq => hd
          (hD _ _ (by omega) (by omega) hTableQ hTable hEq)
        unfold tableOf
        omega
  · unfold entryWord
    rw [if_neg hTableQ, if_neg fun h => hTableQ (hSame.1.mp h)]
    split
    · next hpq => exact absurd (hpq ▸ hTable) hTableQ
    · rfl

theorem entryWord_write (hT : Tables vm) {p word : Nat} (hp : p < 2 ^ 20)
    (hTable : HasTable vm (p / 1024)) (hWord : word < 2 ^ 32)
    (hDirectory : ∀ d, SameTable vm vm' d)
    (hMem : vm'.mem = store vm.mem (tableOf vm (p / 1024) + 4 * (p % 1024)) word 4) :
    ∀ q, q < 2 ^ 20 → entryWord vm' q = if q = p then word else entryWord vm q :=
  Distinct.entryWord_write hT.distinct hp hTable hWord hDirectory hMem

/-! ## The first table -/

section Boot

variable (layout : Layout) (pmm : Table) (mem : Mem) (freeVirtual : Nat → Nat)

theorem boot_hasTable {d : Nat} : HasTable (boot layout pmm mem freeVirtual) d ↔ d = 0 := by
  unfold HasTable boot buildFirstPage
  by_cases hd : d = 0
  · simp only [hd, if_true, iff_true]
    rw [or_mod_two]
    exact Or.inr (by decide)
  · simp only [hd, if_false, iff_false]
    decide

theorem boot_tableOf : tableOf (boot layout pmm mem freeVirtual) 0 = layout.pageTable := by
  have hAligned := layout.aligned
  have hInside := layout.inside
  have hLow := layout.low
  unfold tableOf boot buildFirstPage
  simp only [if_true]
  rw [frameOf_or _ (by decide), frameOf_aligned hAligned (by omega)]

theorem boot_entryWord {p : Nat} (hp : p < 1024) :
    entryWord (boot layout pmm mem freeVirtual) p = p * 0x1000 ||| 7 := by
  have hDirectory : p / 1024 = 0 := by omega
  have hWords : ∀ k < 1024, k * 0x1000 ||| 7 < 256 ^ 4 :=
    fun k hk => or_lt (by omega) (by decide)
  unfold entryWord
  rw [hDirectory, if_pos ((boot_hasTable ..).mpr rfl), boot_tableOf,
    Nat.mod_eq_of_lt (by omega)]
  simp only [boot, buildFirstPage, initVirtualAllocator]
  rw [load_array layout.pageTable mem hWords p hp]

/-- The first 4 MiB translate to themselves. -/
theorem boot_identity {p : Nat} (hp : p < 1024) :
    Present (entryWord (boot layout pmm mem freeVirtual) p) ∧
      frameOf (entryWord (boot layout pmm mem freeVirtual) p) = p * 4096 := by
  rw [boot_entryWord _ _ _ _ hp, or_mod_two, frameOf_or _ (by decide),
    frameOf_aligned (by omega) (by omega)]
  exact ⟨Or.inr (by decide), rfl⟩

theorem boot_tables : Tables (boot layout pmm mem freeVirtual) where
  distinct d d' _ _ hHas hHas' _ := by
    rw [(boot_hasTable ..).mp hHas, (boot_hasTable ..).mp hHas']
  nonzero d _ hHas := by
    rw [(boot_hasTable ..).mp hHas, boot_tableOf]
    exact Nat.ne_of_gt layout.positive

end Boot

/-! ## `map_page` -/

/-- The state after the directory entry got the user bit. -/
theorem sameTable_user (vm : Vm) (directory entry flags d : Nat)
    (hEntry : entry = if flags &&& pageUser ≠ 0 then
      vm.pageDirectory directory ||| pageUser else vm.pageDirectory directory) :
    SameTable vm { vm with pageDirectory := setWord vm.pageDirectory directory entry } d := by
  unfold SameTable HasTable tableOf setWord
  by_cases hd : d = directory
  · subst hd
    simp only [if_true]
    rw [hEntry]
    split
    · rw [or_mod_two, frameOf_or _ (by decide)]
      exact ⟨⟨fun h => h.resolve_right (by decide), Or.inl⟩, rfl⟩
    · exact ⟨Iff.rfl, rfl⟩
  · simp only [if_neg hd]
    exact ⟨trivial, trivial⟩

theorem mapPage_table {physical virtual flags : Nat}
    (hTable : HasTable vm (pageOf virtual / 1024)) :
    mapPage ptr physical virtual flags vm = writeEntry ptr physical virtual flags vm := by
  have hEnsure : ensureTable ptr (virtual >>> 22) flags vm = some (true, vm) := by
    rw [shift_directory]
    exact if_neg (hasTable_iff.mp hTable)
  rw [mapPage, hEnsure]
  rfl

/-- **`map_page` with the table in place** writes the word of the page. -/
theorem Distinct.mapPage (ptr : Vm → Nat → Option Nat) (hD : Distinct vm) (physical : Nat)
    {virtual flags : Nat}
    (hVirtual : virtual < 2 ^ 32) (hFlags : flags < 2 ^ 32)
    (hTable : HasTable vm (pageOf virtual / 1024))
    (hPtr : ∀ vm₁ : Vm, (∀ d, SameTable vm vm₁ d) → vm₁.mem = vm.mem →
      ∀ k, k < 1024 → ptr vm₁ (tableOf vm (pageOf virtual / 1024) + 4 * k) =
        some (tableOf vm (pageOf virtual / 1024) + 4 * k)) :
    ∃ vm', Paging.mapPage ptr physical virtual flags vm = some vm' ∧
      (∀ d, SameTable vm vm' d) ∧ vm'.pmm = vm.pmm ∧
      vm'.mem = store vm.mem
        (tableOf vm (pageOf virtual / 1024) + 4 * (pageOf virtual % 1024))
        (frameOf physical ||| flags) 4 ∧
      ∀ q, q < 2 ^ 20 → entryWord vm' q =
        if q = pageOf virtual then frameOf physical ||| flags else entryWord vm q := by
  have hPage : pageOf virtual < 2 ^ 20 := by
    unfold pageOf
    omega
  rw [mapPage_table hTable]
  unfold writeEntry
  simp only [shift_directory, shift_table, and_mask]
  generalize hEntry : (if flags &&& pageUser ≠ 0 then
    vm.pageDirectory (pageOf virtual / 1024) ||| pageUser
    else vm.pageDirectory (pageOf virtual / 1024)) = entry
  have hSame := fun d => sameTable_user vm _ entry flags d hEntry.symm
  have hFrame : frameOf entry = tableOf vm (pageOf virtual / 1024) := by
    have h := (hSame (pageOf virtual / 1024)).2
    unfold tableOf setWord at h
    simp only [if_true] at h
    exact h
  unfold writeWord
  rw [hFrame, hPtr _ hSame rfl _ (by omega), Option.map_some]
  refine ⟨_, rfl, hSame, rfl, rfl, ?_⟩
  exact hD.entryWord_write hPage hTable (or_lt (by have := frameOf_le physical; omega) hFlags)
    hSame rfl

theorem clearTable_directory {table : Nat} {ks : List Nat}
    (h : clearTable ptr table ks vm = some vm') : vm'.pageDirectory = vm.pageDirectory := by
  induction ks generalizing vm with
  | nil =>
      cases h
      rfl
  | cons k ks ih =>
      obtain ⟨vm₁, hWrite, hRest⟩ := Option.bind_eq_some_iff.mp h
      obtain ⟨p, -, rfl⟩ := Option.map_eq_some_iff.mp hWrite
      have hLater := ih hRest
      exact hLater

/-- The clearing loop, when its pointers are right. -/
theorem clearTable_spec {table : Nat} :
    ∀ {ks : List Nat} {vm : Vm},
      (∀ k ∈ ks, k < 1024) →
      (∀ vm₁ : Vm, vm₁.pageDirectory = vm.pageDirectory →
        (∀ x, x < table ∨ table + 4096 ≤ x → vm₁.mem x = vm.mem x) →
        ∀ k, k < 1024 → ptr vm₁ (table + 4 * k) = some (table + 4 * k)) →
      ∃ m, clearTable ptr table ks vm = some { vm with mem := m } ∧
        (∀ x, x < table ∨ table + 4096 ≤ x → m x = vm.mem x) ∧
        ∀ k, k < 1024 → k ∈ ks ∨ load vm.mem (table + 4 * k) 4 = 0 →
          load m (table + 4 * k) 4 = 0 := by
  intro ks
  induction ks with
  | nil =>
      intro vm _ _
      exact ⟨vm.mem, rfl, fun _ _ => rfl, fun k _ h => h.resolve_left (by simp)⟩
  | cons k₀ ks ih =>
      intro vm hRange hPtr
      have hk₀ := hRange k₀ (by simp)
      have hOutside : ∀ x, x < table ∨ table + 4096 ≤ x →
          store vm.mem (table + 4 * k₀) 0 4 x = vm.mem x :=
        fun x hx => store_apply_apart (by omega)
      obtain ⟨m, hRest, hMem, hZero⟩ :=
        @ih { vm with mem := store vm.mem (table + 4 * k₀) 0 4 }
          (fun k hk => hRange k (by simp [hk]))
          (fun vm₁ hDirectory hMem => hPtr vm₁ hDirectory fun x hx => by
            rw [hMem x hx]
            exact hOutside x hx)
      refine ⟨m, ?_, fun x hx => (hMem x hx).trans (hOutside x hx), ?_⟩
      · unfold clearTable at hRest ⊢
        rw [List.foldlM_cons, writeWord, hPtr vm rfl (fun _ _ => rfl) k₀ hk₀]
        exact hRest
      · intro k hk hCase
        apply hZero k hk
        by_cases hEq : k = k₀
        · subst hEq
          exact Or.inr (load_store_self (by decide))
        · rcases hCase with hIn | hOld
          · exact Or.inl ((List.mem_cons.mp hIn).resolve_left hEq)
          · right
            simp only
            rw [load_store_apart (by omega)]
            exact hOld

/-- **`map_page` without a table and without memory for one** does nothing. -/
theorem mapPage_full {physical virtual flags : Nat}
    (hTable : ¬HasTable vm (pageOf virtual / 1024))
    (hFull : (allocate 4096 vm.pmm).1 = 0) :
    mapPage ptr physical virtual flags vm =
      some { vm with pmm := (allocate 4096 vm.pmm).2 } := by
  have hEnsure : ensureTable ptr (virtual >>> 22) flags vm =
      some (false, { vm with pmm := (allocate 4096 vm.pmm).2 }) := by
    unfold ensureTable
    rw [shift_directory, if_pos (not_not.mp (mt hasTable_iff.mpr hTable))]
    simp only [if_pos hFull]
  rw [mapPage, hEnsure]
  rfl

/-- A table at a frame no other table uses. -/
theorem Distinct.insert (hD : Distinct vm) {directory table : Nat}
    (hFresh : ∀ d, d < 1024 → HasTable vm d → tableOf vm d ≠ table)
    (hOther : ∀ d, d ≠ directory → SameTable vm vm' d)
    (hOwn : tableOf vm' directory = table) : Distinct vm' := by
  intro d d' hd hd' hHas hHas' hEq
  by_cases h : d = directory
  · by_cases h' : d' = directory
    · rw [h, h']
    · rw [h, hOwn, (hOther d' h').2] at hEq
      exact absurd hEq.symm (hFresh d' hd' ((hOther d' h').1.mp hHas'))
  · by_cases h' : d' = directory
    · rw [h', hOwn, (hOther d h).2] at hEq
      exact absurd hEq (hFresh d hd ((hOther d h).1.mp hHas))
    · rw [(hOther d h).2, (hOther d' h').2] at hEq
      exact hD d d' hd hd' ((hOther d h).1.mp hHas) ((hOther d' h').1.mp hHas') hEq

theorem Tables.insert (hT : Tables vm) {directory table : Nat} (hNonzero : table ≠ 0)
    (hFresh : ∀ d, d < 1024 → HasTable vm d → tableOf vm d ≠ table)
    (hOther : ∀ d, d ≠ directory → SameTable vm vm' d)
    (hOwn : tableOf vm' directory = table) : Tables vm' where
  distinct := Distinct.insert hT.distinct hFresh hOther hOwn
  nonzero d hd hHas := by
    by_cases h : d = directory
    · rw [h, hOwn]
      exact hNonzero
    · rw [(hOther d h).2]
      exact hT.nonzero d hd ((hOther d h).1.mp hHas)

/-- What a call leaves behind that put a table at `table` for `directory`. -/
structure AddsTable (vm vm' : Vm) (directory table : Nat) : Prop where
  other : ∀ d, d ≠ directory → SameTable vm vm' d
  has : HasTable vm' directory
  tableOf : tableOf vm' directory = table
  pmm : vm'.pmm = (allocate 4096 vm.pmm).2
  outside : ∀ x, x < table ∨ table + 4096 ≤ x → vm'.mem x = vm.mem x
  tables : Tables vm → Tables vm'

/-- **The first half of `map_page` with a new table**: the table is at the frame
`allocate` returns and all its words are `0`. -/
theorem ensureTable_adds {flags directory table : Nat}
    (hDirectory : directory < 1024) (hTable : ¬HasTable vm directory)
    (hAlloc : (allocate 4096 vm.pmm).1 = table) (hNonzero : table ≠ 0)
    (hAligned : table % 4096 = 0) (hRange : table < 2 ^ 32)
    (hFresh : ∀ d, d < 1024 → HasTable vm d → tableOf vm d ≠ table)
    (hPtr : ∀ vm₁ : Vm, (∀ d, d ≠ directory → SameTable vm vm₁ d) →
      (∀ x, x < table ∨ table + 4096 ≤ x → vm₁.mem x = vm.mem x) →
      ∀ k, k < 1024 → ptr vm₁ (table + 4 * k) = some (table + 4 * k)) :
    ∃ vm', ensureTable ptr directory flags vm = some (true, vm') ∧
      AddsTable vm vm' directory table ∧
      ∀ q, q < 2 ^ 20 → entryWord vm' q = entryWord vm q := by
  obtain ⟨m, hClear, hOutside, hZero⟩ := @clearTable_spec ptr table (List.range 1024)
    { vm with pmm := (allocate 4096 vm.pmm).2 } (fun k hk => List.mem_range.mp hk)
    (fun vm₁ hSame hMem => hPtr vm₁ (fun d _ => sameTable_of_eq (by rw [hSame])) hMem)
  generalize hFlagBits : (if flags &&& pageUser ≠ 0 then
    pagePresent ||| pageWrite ||| pageUser else pagePresent ||| pageWrite) = bits
  have hBits : bits < 4096 ∧ Present bits := by
    rw [← hFlagBits]
    split <;> decide
  have hFrame : frameOf (table ||| bits) = table := by
    rw [frameOf_or _ hBits.1, frameOf_aligned hAligned hRange]
  have hPresent : Present (table ||| bits) := by
    rw [or_mod_two]
    exact Or.inr hBits.2
  generalize hvm' : ({ vm with
    pmm := (allocate 4096 vm.pmm).2
    mem := m
    pageDirectory := setWord vm.pageDirectory directory (table ||| bits) } : Vm) = vm'
  have hOther : ∀ d, d ≠ directory → SameTable vm vm' d := by
    intro d hd
    apply sameTable_of_eq
    rw [← hvm']
    exact if_neg hd
  have hOwn : vm'.pageDirectory directory = table ||| bits := by
    rw [← hvm']
    exact if_pos rfl
  have hHas : HasTable vm' directory := by
    unfold HasTable
    rw [hOwn]
    exact hPresent
  have hTableOf : PagingTables.tableOf vm' directory = table := by
    unfold PagingTables.tableOf
    rw [hOwn]
    exact hFrame
  have hMem : vm'.mem = m := by rw [← hvm']
  refine ⟨vm', ?_, ⟨hOther, hHas, hTableOf, ?_, ?_,
    fun hT => hT.insert hNonzero hFresh hOther hTableOf⟩, ?_⟩
  · unfold ensureTable
    rw [if_pos (not_not.mp (mt hasTable_iff.mpr hTable))]
    simp only [hAlloc, if_neg hNonzero, hClear, Option.map_some]
    rw [hFlagBits, ← hvm']
  · rw [← hvm']
  · rw [hMem]
    exact hOutside
  · intro q hq
    by_cases hd : q / 1024 = directory
    · subst hd
      unfold entryWord
      rw [if_pos hHas, if_neg hTable, hTableOf, hMem]
      exact hZero _ (by omega) (Or.inl (List.mem_range.mpr (by omega)))
    · apply entryWord_congr (hOther _ hd)
      intro hHasQ x hLow hHigh
      rw [hMem]
      apply hOutside
      have hApart := hFresh _ (by omega) hHasQ
      have hMod := tableOf_mod vm (q / 1024)
      omega

/-- **`map_page` with a new table**: the table is at the frame `allocate`
returns, its other words are `0`, and the word of the page is written. -/
theorem Distinct.mapPage_adds (ptr : Vm → Nat → Option Nat) (hD : Distinct vm) (physical : Nat)
    {virtual flags table : Nat}
    (hVirtual : virtual < 2 ^ 32) (hFlags : flags < 2 ^ 32)
    (hTable : ¬HasTable vm (pageOf virtual / 1024))
    (hAlloc : (allocate 4096 vm.pmm).1 = table) (hNonzero : table ≠ 0)
    (hAligned : table % 4096 = 0) (hRange : table < 2 ^ 32)
    (hFresh : ∀ d, d < 1024 → HasTable vm d → tableOf vm d ≠ table)
    (hPtr : ∀ vm₁ : Vm, (∀ d, d ≠ pageOf virtual / 1024 → SameTable vm vm₁ d) →
      (∀ x, x < table ∨ table + 4096 ≤ x → vm₁.mem x = vm.mem x) →
      ∀ k, k < 1024 → ptr vm₁ (table + 4 * k) = some (table + 4 * k)) :
    ∃ vm', Paging.mapPage ptr physical virtual flags vm = some vm' ∧
      AddsTable vm vm' (pageOf virtual / 1024) table ∧
      ∀ q, q < 2 ^ 20 → entryWord vm' q =
        if q = pageOf virtual then frameOf physical ||| flags else entryWord vm q := by
  have hPage : pageOf virtual < 2 ^ 20 := by
    unfold pageOf
    omega
  obtain ⟨vm₁, hEnsure, hNew, hWords⟩ := @ensureTable_adds ptr vm flags _ table (by omega)
    hTable hAlloc hNonzero hAligned hRange hFresh hPtr
  obtain ⟨vm', hMap, hSame, hPmm, hMem, hEntries⟩ :=
    Distinct.mapPage ptr (hD.insert hFresh hNew.other hNew.tableOf) physical hVirtual hFlags
      hNew.has
      (fun vm₂ hSame₂ hMem₂ k hk => by
        rw [hNew.tableOf]
        refine hPtr vm₂ (fun d hd => (hNew.other d hd).trans (hSame₂ d)) (fun x hx => ?_) k hk
        rw [hMem₂, hNew.outside x hx])
  have hOther : ∀ d, d ≠ pageOf virtual / 1024 → SameTable vm vm' d :=
    fun d hd => (hNew.other d hd).trans (hSame d)
  have hOwn := (hSame (pageOf virtual / 1024)).2.trans hNew.tableOf
  refine ⟨vm', ?_, ⟨hOther, (hSame _).1.mpr hNew.has, hOwn, hPmm.trans hNew.pmm, ?_,
    fun hT => hT.insert hNonzero hFresh hOther hOwn⟩, ?_⟩
  · -- the second half does not depend on how the table got there
    rw [← hMap, mapPage_table hNew.has, Paging.mapPage, shift_directory, hEnsure]
    rfl
  · intro x hx
    rw [hMem, hNew.tableOf, store_apply_apart (by omega), hNew.outside x hx]
  · intro q hq
    rw [hEntries q hq, hWords q hq]

/-! ## `free_page` -/

/-- **`free_page`** clears the word of the page and gives its frame back when
the page is mapped, and otherwise changes neither. -/
theorem freePage_spec (ptr : Vm → Nat → Option Nat) (hT : Tables vm) {addr : Nat}
    (hAddr : addr < 2 ^ 32)
    (hPtr : HasTable vm (pageOf addr / 1024) → ∀ vm₁ : Vm,
      vm₁.pageDirectory = vm.pageDirectory → vm₁.mem = vm.mem →
        ptr vm₁ (tableOf vm (pageOf addr / 1024) + 4 * (pageOf addr % 1024)) =
          some (tableOf vm (pageOf addr / 1024) + 4 * (pageOf addr % 1024))) :
    ∃ vm', freePage ptr addr vm = some vm' ∧ vm'.pageDirectory = vm.pageDirectory ∧
      vm'.pmm = (if Present (entryWord vm (pageOf addr)) then
        free (frameOf (entryWord vm (pageOf addr))) vm.pmm else vm.pmm) ∧
      ∀ q, q < 2 ^ 20 → entryWord vm' q =
        if q = pageOf addr ∧ Present (entryWord vm q) then 0 else entryWord vm q := by
  have hPage : pageOf addr < 2 ^ 20 := by
    unfold pageOf
    omega
  have hPushed : ∀ q, entryWord (pushFree addr vm) q = entryWord vm q :=
    fun q => entryWord_congr (sameTable_of_eq rfl) fun _ _ _ _ => rfl
  have hUnmapped : ¬Present (entryWord vm (pageOf addr)) →
      ∀ q, entryWord (pushFree addr vm) q =
        if q = pageOf addr ∧ Present (entryWord vm q) then 0 else entryWord vm q := by
    intro hNot q
    rw [hPushed, if_neg]
    rintro ⟨rfl, hPresent⟩
    exact hNot hPresent
  have hPte : getPte addr (pushFree addr vm) = getPte addr vm := rfl
  unfold freePage
  simp only [hPte, getPte_eq]
  by_cases hTable : HasTable vm (pageOf addr / 1024)
  · have hNonzero := hT.nonzero _ (by omega) hTable
    have hWord : entryWord vm (pageOf addr) = load vm.mem
        (tableOf vm (pageOf addr / 1024) + 4 * (pageOf addr % 1024)) 4 := by
      rw [entryWord, if_pos hTable]
    rw [if_pos hTable, if_neg (by omega), readWord, hPtr hTable (pushFree addr vm) rfl rfl,
      Option.map_some, Option.bind_some]
    simp only [show (pushFree addr vm).mem = vm.mem from rfl, ← hWord, and_mask]
    by_cases hPresent : Present (entryWord vm (pageOf addr))
    · rw [if_neg (mt and_one_eq_zero.mp (not_not.mpr hPresent)), writeWord, hPtr hTable,
        Option.map_some, if_pos hPresent]
      · refine ⟨_, rfl, rfl, rfl, fun q hq => ?_⟩
        refine (entryWord_write hT hPage hTable (show 0 < 2 ^ 32 by decide)
          ?_ ?_ q hq).trans ?_
        · exact fun d => sameTable_of_eq rfl
        · rfl
        · by_cases hEq : q = pageOf addr
          · subst hEq
            rw [if_pos rfl, if_pos ⟨rfl, hPresent⟩]
          · rw [if_neg hEq, if_neg fun h => hEq h.1]
      · rfl
      · rfl
    · rw [if_pos (and_one_eq_zero.mpr hPresent), if_neg hPresent]
      exact ⟨_, rfl, rfl, rfl, fun q _ => hUnmapped hPresent q⟩
  · have hNone : ¬Present (entryWord vm (pageOf addr)) := mt entryWord_present hTable
    rw [if_neg hTable, if_pos rfl, if_neg hNone]
    exact ⟨_, rfl, rfl, rfl, fun q _ => hUnmapped hNone q⟩

end MiniKernel.Ports.PagingTables
