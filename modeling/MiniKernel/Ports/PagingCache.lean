import MiniKernel.Ports.PagingIdentity

/-!
# Cached translations

The processor may go on using the translation of a page that it has used before,
until the page is named by `invlpg`.  `map_page` and `unmap_page` end with
`invlpg`; `free_page` clears a table word without it.

A cache gives pages their frames.  Calls reach the page tables through it, memory
accesses fill it, and an entry may be dropped at any time.  The accesses that a
call makes itself count as accesses before it.  Calls here are those of `Paging`
with the cache beside them, in runs that leave the memory of the kernel itself
alone.
-/

namespace MiniKernel.Ports.PagingCache

open MiniKernel.Verified.ByteMemory
open MiniKernel.Verified.PageWords
open MiniKernel.Verified.Trace
open MiniKernel.Ports.Pmm
open MiniKernel.Ports.Paging hiding mapPage unmapPage allocatePage freePage
open MiniKernel.Ports.PagingTables
open MiniKernel.Ports.PagingSparing
open MiniKernel.Ports.PagingIdentity hiding Event step

/-- The frames of the pages whose translations the processor holds. -/
abbrev Cache := Nat → Option Nat

structure State where
  vm : Vm
  cache : Cache

/-- The address the processor uses for a virtual one. -/
def translate (cache : Cache) (vm : Vm) (v : Nat) : Option Nat :=
  match cache (pageOf v) with
  | some frame => some (frame + v % 4096)
  | none => pageWalk vm v

/-- `invlpg`. -/
def invlpg (virtual : Nat) (cache : Cache) : Cache :=
  fun p => if p = pageOf virtual then none else cache p

/-- `map_page`; without a table it returns early. -/
def mapPage (physical virtual flags : Nat) (s : State) : Option State :=
  (ensureTable (translate s.cache) (virtual >>> 22) flags s.vm).bind fun r =>
    if r.1 then
      (writeEntry (translate s.cache) physical virtual flags r.2).map fun vm =>
        { vm := vm, cache := invlpg virtual s.cache }
    else some { s with vm := r.2 }

/-- `unmap_page`. -/
def unmapPage (virtual : Nat) (s : State) : Option State :=
  let pte := getPte virtual s.vm
  if pte = 0 then some s
  else
    (readWord (translate s.cache) s.vm pte).bind fun word =>
      if word &&& 1 = 0 then some s
      else
        (writeWord (translate s.cache) s.vm pte 0).map fun vm =>
          { vm := vm, cache := invlpg virtual s.cache }

/-- `allocate_page`. -/
def allocatePage (flag : Nat) (s : State) : Option (Nat × State) :=
  let r := allocate 4096 s.vm.pmm
  if r.1 = 0 then some (0, { s with vm := { s.vm with pmm := r.2 } })
  else
    let v := takeVirtual { s.vm with pmm := r.2 }
    (mapPage r.1 v.1 (defaultFlags flag) { s with vm := v.2 }).map fun s => (v.1, s)

/-- `free_page` does not touch the cache. -/
def freePage (addr : Nat) (s : State) : Option State :=
  (Paging.freePage (translate s.cache) addr s.vm).map fun vm => { s with vm := vm }

/-- A memory access: the processor keeps the translation. -/
def access (v : Nat) (s : State) : State :=
  { s with cache := fun p =>
      if p = pageOf v ∧ s.cache p = none ∧ Present (entryWord s.vm p) then
        some (frameOf (entryWord s.vm p))
      else s.cache p }

inductive Event
  | mapPage (physical virtual flags : Nat)
  | unmapPage (virtual : Nat)
  | allocatePage (flag : Nat)
  | freePage (addr : Nat)
  | load (v : Nat)
  | store (v : Nat) (byte : UInt8)
  /-- The processor drops a translation. -/
  | drop (page : Nat)
  deriving DecidableEq

/-- Addresses and flags are 32 bits wide; a store to a page that is not mapped
does not happen. -/
def step (s : State) : Event → Option State
  | .mapPage physical virtual flags =>
      if virtual < 2 ^ 32 ∧ flags < 2 ^ 32 then mapPage physical virtual flags s else none
  | .unmapPage virtual => if virtual < 2 ^ 32 then unmapPage virtual s else none
  | .allocatePage flag =>
      if flag < 2 ^ 32 then (allocatePage flag s).map Prod.snd else none
  | .freePage addr => if addr < 2 ^ 32 then freePage addr s else none
  | .load v => if v < 2 ^ 32 then some (access v s) else none
  | .store v byte =>
      if v < 2 ^ 32 then
        (translate s.cache s.vm v).map fun a =>
          { access v s with vm := { s.vm with mem := setByte s.vm.mem a byte } }
      else none
  | .drop page => some { s with cache := fun p => if p = page then none else s.cache p }

/-- Every cached translation is the one in the page tables. -/
def Coherent (s : State) : Prop :=
  ∀ p frame, s.cache p = some frame →
    Present (entryWord s.vm p) ∧ frameOf (entryWord s.vm p) = frame

/-! ## The condition -/

/-- The page is not one of the kernel's own, and the code reaches its table, if there is
one, at its own address. -/
def Reached (layout : Layout) (virtual : Nat) (vm : Vm) : Prop :=
  ¬OwnPage layout (pageOf virtual) ∧ (HasTable vm (pageOf virtual / 1024) →
    pageWalk vm (tableOf vm (pageOf virtual / 1024)) = some (tableOf vm (pageOf virtual / 1024)))

instance (layout : Layout) (virtual : Nat) (vm : Vm) : Decidable (Reached layout virtual vm) :=
  inferInstanceAs (Decidable (_ ∧ (_ → _)))

/-- So does `map_page`, also when the table is new; a new one is in no other's frame, nor
in one the kernel works in. -/
def MapReached (layout : Layout) (virtual : Nat) (vm : Vm) : Prop :=
  Reached layout virtual vm ∧
    (¬HasTable vm (pageOf virtual / 1024) → (allocate 4096 vm.pmm).1 ≠ 0 →
      (allocate 4096 vm.pmm).1 % 4096 = 0 ∧
      (∀ d < 1024, HasTable vm d → tableOf vm d ≠ (allocate 4096 vm.pmm).1) ∧
      pageWalk vm (allocate 4096 vm.pmm).1 = some (allocate 4096 vm.pmm).1 ∧
      ¬OwnFrame layout (pageOf (allocate 4096 vm.pmm).1))

instance (layout : Layout) (virtual : Nat) (vm : Vm) : Decidable (MapReached layout virtual vm) :=
  inferInstanceAs (Decidable (_ ∧ (_ → _ → _)))

/-- The page tables do not lie at the address. -/
def OutsideTables (vm : Vm) (a : Nat) : Prop :=
  ∀ d < 1024, HasTable vm d → a < tableOf vm d ∨ tableOf vm d + 4096 ≤ a

instance (vm : Vm) (a : Nat) : Decidable (OutsideTables vm a) := by
  unfold OutsideTables
  infer_instance

/-- `free_page` is called for a page whose translation is not cached. -/
def EventOk (layout : Layout) (s : State) : Event → Prop
  | .mapPage _ virtual _ => MapReached layout virtual s.vm
  | .unmapPage virtual => Reached layout virtual s.vm
  | .allocatePage _ =>
      let r := allocate 4096 s.vm.pmm
      let v := takeVirtual { s.vm with pmm := r.2 }
      r.1 ≠ 0 → MapReached layout v.1 v.2
  | .freePage addr =>
      s.cache (pageOf addr) = none ∧ Reached layout addr s.vm ∧ s.vm.freeCount < maxFreePages
  | .store v _ =>
      ∀ a, translate s.cache s.vm v = some a →
        OutsideTables s.vm a ∧ ¬OwnPage layout (pageOf a)
  | .load _ | .drop _ => True

instance (layout : Layout) (s : State) : (e : Event) → Decidable (EventOk layout s e)
  | .mapPage .. => inferInstanceAs (Decidable (MapReached ..))
  | .unmapPage _ => inferInstanceAs (Decidable (Reached ..))
  | .allocatePage _ => inferInstanceAs (Decidable (_ → MapReached ..))
  | .freePage _ => inferInstanceAs (Decidable (_ ∧ _ ∧ _))
  | .store v _ =>
      match h : translate s.cache s.vm v with
      | none => .isTrue (by simp [EventOk, h])
      | some a =>
          decidable_of_iff (OutsideTables s.vm a ∧ ¬OwnPage layout (pageOf a))
            (by simp [EventOk, h])
  | .load _ | .drop _ => .isTrue trivial

/-! ## The invariant -/

structure Inv (s : State) : Prop where
  tables : Tables s.vm
  bounded : Bounded s.vm
  range : ∀ p frame, s.cache p = some frame → p < 2 ^ 20
  coherent : Coherent s

/-- The variables of the allocators do not matter. -/
theorem Inv.update {s : State} (h : Inv s) {vm : Vm} (hMem : vm.mem = s.vm.mem)
    (hDirectory : vm.pageDirectory = s.vm.pageDirectory) (hBounded : Bounded vm) :
    Inv { s with vm := vm } := by
  have hSame : ∀ d, SameTable s.vm vm d := fun d => sameTable_of_eq (by rw [hDirectory])
  have hWord (p : Nat) : entryWord vm p = entryWord s.vm p :=
    entryWord_congr (hSame _) fun _ x _ _ => by rw [hMem]
  refine ⟨h.tables.congr hSame, hBounded, h.range, fun p frame hp => ?_⟩
  simp only [hWord]
  exact h.coherent p frame hp

/-- Words may change whose pages are not in the new cache. -/
theorem Inv.edit {s : State} (h : Inv s) {vm : Vm} {cache : Cache} (hTables : Tables vm)
    (hBounded : Bounded vm)
    (hCache : ∀ p frame, cache p = some frame →
      s.cache p = some frame ∧ entryWord vm p = entryWord s.vm p) :
    Inv { vm := vm, cache := cache } where
  tables := hTables
  bounded := hBounded
  range p frame hp := h.range p frame (hCache p frame hp).1
  coherent p frame hp := by
    obtain ⟨hOld, hWord⟩ := hCache p frame hp
    simp only [hWord]
    exact h.coherent p frame hOld

theorem invlpg_some {virtual p frame : Nat} {cache : Cache}
    (h : invlpg virtual cache p = some frame) : p ≠ pageOf virtual ∧ cache p = some frame := by
  unfold invlpg at h
  split at h
  · cases h
  · next hp => exact ⟨hp, h⟩

/-! ## Calls through the cache -/

/-- A page that translates to itself is reached there, cached or not. -/
theorem translate_self {s : State} (h : Coherent s) {vm : Vm} {t k : Nat} (hAligned : t % 4096 = 0)
    (hSelf : pageWalk s.vm t = some t)
    (hWord : entryWord vm (pageOf t) = entryWord s.vm (pageOf t)) (hk : k < 1024) :
    translate s.cache vm (t + 4 * k) = some (t + 4 * k) := by
  obtain ⟨hPresent, hFrame⟩ := (pageWalk_self_iff hAligned).mp hSelf
  have hPage : pageOf (t + 4 * k) = pageOf t := by
    unfold pageOf
    omega
  unfold translate
  rw [hPage]
  cases hCached : s.cache (pageOf t) with
  | none =>
      rw [← hWord] at hPresent hFrame
      exact pageWalk_page hPresent hAligned hFrame (by omega)
  | some frame =>
      obtain ⟨-, hSame⟩ := h _ _ hCached
      have hFrameEq : frame = t := hSame.symm.trans hFrame
      simp only [hFrameEq]
      congr 1
      omega

/-- The call of `Paging` decides, and the cache follows. -/
theorem mapPage_eq (physical virtual flags : Nat) (s : State) :
    mapPage physical virtual flags s =
      if HasTable s.vm (pageOf virtual / 1024) ∨ (allocate 4096 s.vm.pmm).1 ≠ 0 then
        (Paging.mapPage (translate s.cache) physical virtual flags s.vm).map fun vm =>
          { vm := vm, cache := invlpg virtual s.cache }
      else some { s with vm := { s.vm with pmm := (allocate 4096 s.vm.pmm).2 } } := by
  unfold mapPage Paging.mapPage ensureTable
  rw [shift_directory]
  by_cases hTable : HasTable s.vm (pageOf virtual / 1024)
  · rw [if_neg (hasTable_iff.mp hTable), if_pos (Or.inl hTable)]
    rfl
  · rw [if_pos (not_not.mp (mt hasTable_iff.mpr hTable))]
    by_cases hFull : (allocate 4096 s.vm.pmm).1 = 0
    · rw [if_neg (not_or.mpr ⟨hTable, not_not.mpr hFull⟩)]
      simp only [hFull, if_true]
      rfl
    · rw [if_pos (Or.inr hFull)]
      simp only [if_neg hFull]
      cases clearTable (translate s.cache) (allocate 4096 s.vm.pmm).1 (List.range 1024)
        { s.vm with pmm := (allocate 4096 s.vm.pmm).2 } with
      | none => rfl
      | some vm => rfl

variable {layout : Layout} {s s' : State}

/-- **`map_page`** changes the word of a page that it takes out of the cache. -/
theorem Inv.mapPage (h : Inv s) {physical virtual flags : Nat} (hVirtual : virtual < 2 ^ 32)
    (hFlags : flags < 2 ^ 32) (hOk : MapReached layout virtual s.vm)
    (hMap : PagingCache.mapPage physical virtual flags s = some s') : Inv s' := by
  have hDirectory : pageOf virtual / 1024 < 1024 := by
    unfold pageOf
    omega
  have hEdit {vm : Vm} (hTables : Tables vm) (hSame : SameVirtual s.vm vm)
      (hWords : ∀ q, q < 2 ^ 20 → entryWord vm q =
        if q = pageOf virtual then frameOf physical ||| flags else entryWord s.vm q) :
      Inv { vm := vm, cache := invlpg virtual s.cache } := by
    refine h.edit hTables (h.bounded.same hSame) fun p frame hp => ?_
    obtain ⟨hOther, hOld⟩ := invlpg_some hp
    exact ⟨hOld, by rw [hWords p (h.range p frame hOld), if_neg hOther]⟩
  rw [mapPage_eq] at hMap
  by_cases hTable : HasTable s.vm (pageOf virtual / 1024)
  · rw [if_pos (Or.inl hTable)] at hMap
    have hSelf := hOk.1.2 hTable
    obtain ⟨vm, hCall, hSame, -, -, hWords⟩ :=
      Distinct.mapPage (translate s.cache) h.tables.distinct physical hVirtual hFlags hTable
        fun vm₁ hSame hMem k hk => translate_self h.coherent (tableOf_mod _ _) hSelf
          (entryWord_congr (hSame _) fun _ x _ _ => by rw [hMem]) hk
    rw [hCall, Option.map_some] at hMap
    cases hMap
    exact hEdit (h.tables.congr hSame) (mapPage_same hCall) hWords
  · by_cases hFull : (allocate 4096 s.vm.pmm).1 = 0
    · rw [if_neg (not_or.mpr ⟨hTable, not_not.mpr hFull⟩)] at hMap
      cases hMap
      exact h.update rfl rfl (h.bounded.same ⟨rfl, rfl, rfl⟩)
    · rw [if_pos (Or.inr hFull)] at hMap
      obtain ⟨hAligned, hFresh, hSelf, -⟩ := hOk.2 hTable hFull
      have hRange := allocate_lt 4096 s.vm.pmm
      obtain ⟨vm, hCall, hNew, hWords⟩ :=
        Distinct.mapPage_adds (translate s.cache) h.tables.distinct physical
          hVirtual hFlags hTable rfl hFull hAligned
          hRange hFresh fun vm₁ hOther hMem k hk => translate_self h.coherent hAligned hSelf
            (reach_new hAligned hRange hTable hFresh hSelf hOther hMem).1 hk
      rw [hCall, Option.map_some] at hMap
      cases hMap
      exact hEdit (hNew.tables h.tables) (mapPage_same hCall) hWords

/-- The table word of a page is reached by `get_pte`. -/
theorem translate_getPte (h : Inv s) {virtual : Nat} (hReached : Reached layout virtual s.vm)
    (hTable : HasTable s.vm (pageOf virtual / 1024)) {vm : Vm}
    (hDirectory : vm.pageDirectory = s.vm.pageDirectory) (hMem : vm.mem = s.vm.mem) :
    translate s.cache vm
        (tableOf s.vm (pageOf virtual / 1024) + 4 * (pageOf virtual % 1024)) =
      some (tableOf s.vm (pageOf virtual / 1024) + 4 * (pageOf virtual % 1024)) :=
  translate_self h.coherent (tableOf_mod _ _) (hReached.2 hTable)
    (entryWord_congr (sameTable_of_eq (by rw [hDirectory])) fun _ x _ _ => by rw [hMem])
    (by omega)

/-- **`unmap_page`** likewise. -/
theorem Inv.unmapPage (h : Inv s) {virtual : Nat} (hVirtual : virtual < 2 ^ 32)
    (hOk : Reached layout virtual s.vm) (hUnmap : PagingCache.unmapPage virtual s = some s') :
    Inv s' := by
  have hPage : pageOf virtual < 2 ^ 20 := by
    unfold pageOf
    omega
  unfold PagingCache.unmapPage at hUnmap
  simp only [getPte_eq] at hUnmap
  by_cases hTable : HasTable s.vm (pageOf virtual / 1024)
  · have hNonzero := h.tables.nonzero _ (by omega) hTable
    rw [if_pos hTable, if_neg (by omega), readWord, translate_getPte h hOk hTable rfl rfl,
      Option.map_some, Option.bind_some] at hUnmap
    split at hUnmap
    · cases hUnmap
      exact h
    · rw [writeWord, translate_getPte h hOk hTable rfl rfl, Option.map_some,
        Option.map_some] at hUnmap
      cases hUnmap
      refine h.edit (h.tables.congr fun d => sameTable_of_eq rfl)
        (h.bounded.same ⟨rfl, rfl, rfl⟩) fun p frame hp => ?_
      obtain ⟨hOther, hOld⟩ := invlpg_some hp
      refine ⟨hOld, ?_⟩
      refine (entryWord_write h.tables hPage hTable (show 0 < 2 ^ 32 by decide) ?_ ?_ p
        (h.range p frame hOld)).trans (if_neg hOther)
      · exact fun d => sameTable_of_eq rfl
      · rfl
  · rw [if_neg hTable, if_pos rfl] at hUnmap
    cases hUnmap
    exact h

/-- **`free_page`** changes the word of a page that is not cached. -/
theorem Inv.freePage (h : Inv s) {addr : Nat} (hAddr : addr < 2 ^ 32)
    (hCached : s.cache (pageOf addr) = none) (hOk : Reached layout addr s.vm)
    (hFree : PagingCache.freePage addr s = some s') : Inv s' := by
  obtain ⟨vm, hCall, rfl⟩ := Option.map_eq_some_iff.mp hFree
  obtain ⟨vm', hCall', hDirectory, -, hWords⟩ :=
    freePage_spec (translate s.cache) h.tables hAddr
      fun hTable vm₁ hSame hMem => translate_getPte h hOk hTable hSame hMem
  obtain rfl : vm' = vm := Option.some.inj (hCall'.symm.trans hCall)
  refine h.edit (h.tables.congr fun d => sameTable_of_eq (by rw [hDirectory]))
    ((h.bounded.push hAddr).same (freePage_same hCall)) fun p frame hp => ⟨hp, ?_⟩
  rw [hWords p (h.range p frame hp), if_neg]
  rintro ⟨rfl, -⟩
  rw [hCached] at hp
  cases hp

/-- **`allocate_page`** is a `map_page`. -/
theorem Inv.allocatePage (h : Inv s) {flag v : Nat} (hFlag : flag < 2 ^ 32)
    (hOk : EventOk layout s (.allocatePage flag))
    (hCall : PagingCache.allocatePage flag s = some (v, s')) : Inv s' := by
  have hTaken : Bounded { s.vm with pmm := (allocate 4096 s.vm.pmm).2 } :=
    h.bounded.same ⟨rfl, rfl, rfl⟩
  unfold PagingCache.allocatePage at hCall
  simp only at hCall
  split at hCall
  · cases hCall
    exact h.update rfl rfl hTaken
  · next hSome =>
      obtain ⟨s₁, hMap, hEq⟩ := Option.map_eq_some_iff.mp hCall
      cases hEq
      obtain ⟨hVirtual, hBounded⟩ := hTaken.take
      obtain ⟨-, hMem, hDirectory, -⟩ :=
        takeVirtual_frame { s.vm with pmm := (allocate 4096 s.vm.pmm).2 }
      exact (h.update hMem hDirectory hBounded).mapPage hVirtual
        (defaultFlags_lt (by decide) hFlag) (hOk hSome) hMap

/-- An access adds a translation that is in the tables. -/
theorem Inv.access (h : Inv s) {v : Nat} (hv : v < 2 ^ 32) : Inv (access v s) := by
  refine ⟨h.tables, h.bounded, fun p frame hp => ?_, fun p frame hp => ?_⟩
  · simp only [PagingCache.access] at hp
    split at hp
    · next hNew =>
        rw [hNew.1]
        unfold pageOf
        omega
    · exact h.range p frame hp
  · simp only [PagingCache.access] at hp
    split at hp
    · next hNew => exact ⟨hNew.2.2, Option.some.inj hp⟩
    · exact h.coherent p frame hp

/-- A byte outside the tables. -/
theorem Inv.store (h : Inv s) {a : Nat} (hOk : OutsideTables s.vm a) (byte : UInt8) :
    Inv { s with vm := { s.vm with mem := setByte s.vm.mem a byte } } := by
  refine h.edit (h.tables.congr fun d => sameTable_of_eq rfl) (h.bounded.same ⟨rfl, rfl, rfl⟩)
    fun p frame hp => ⟨hp, entryWord_congr (sameTable_of_eq rfl) fun hTable x hLow hHigh => ?_⟩
  have hp := h.range p frame hp
  have hOut := hOk _ (by omega) hTable
  exact setByte_ne byte (by omega)

/-- **One step.** -/
theorem Inv.step (h : Inv s) {e : Event} (hOk : EventOk layout s e)
    (hStep : PagingCache.step s e = some s') : Inv s' := by
  cases e with
  | mapPage physical virtual flags =>
      obtain ⟨⟨hVirtual, hFlags⟩, hMap⟩ := Option.ite_none_right_eq_some.mp hStep
      exact h.mapPage hVirtual hFlags hOk hMap
  | unmapPage virtual =>
      obtain ⟨hVirtual, hUnmap⟩ := Option.ite_none_right_eq_some.mp hStep
      exact h.unmapPage hVirtual hOk hUnmap
  | allocatePage flag =>
      obtain ⟨hFlag, hStep⟩ := Option.ite_none_right_eq_some.mp hStep
      obtain ⟨⟨v, s₁⟩, hCall, rfl⟩ := Option.map_eq_some_iff.mp hStep
      exact h.allocatePage hFlag hOk hCall
  | freePage addr =>
      obtain ⟨hAddr, hFree⟩ := Option.ite_none_right_eq_some.mp hStep
      exact h.freePage hAddr hOk.1 hOk.2.1 hFree
  | load v =>
      obtain ⟨hv, hLoad⟩ := Option.ite_none_right_eq_some.mp hStep
      cases hLoad
      exact h.access hv
  | store v byte =>
      obtain ⟨hv, hStore⟩ := Option.ite_none_right_eq_some.mp hStep
      obtain ⟨a, hAt, rfl⟩ := Option.map_eq_some_iff.mp hStore
      exact (h.access hv).store (hOk a hAt).1 byte
  | drop page =>
      cases hStep
      refine h.edit h.tables h.bounded fun p frame hp => ?_
      split at hp
      · cases hp
      · exact ⟨hp, rfl⟩

/-- Paging has just been enabled, and nothing is cached. -/
def start (layout : Layout) (pmm : Table) (mem : Mem) (freeVirtual : Nat → Nat) : State where
  vm := boot layout pmm mem freeVirtual
  cache := fun _ => none

/-- A page is allocated, used, unmapped, and a page is allocated again. -/
def recycled : List Event :=
  [.allocatePage 0, .store 0x26000 1, .unmapPage 0x26000, .freePage 0x26000, .allocatePage 0,
    .load 0x26000]

end MiniKernel.Ports.PagingCache
