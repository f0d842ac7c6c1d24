import MiniKernel.Ports.PagingRecycling
import MiniKernel.Verified.StackDepth

/-!
# The depth of the stack of freed pages

`free_page` stores at `free_virtual[free_count++]` without a test.  `allocate_page`
takes a page from there when it has a frame; `allocate_pages_contig` always takes new
ones.  So pages that are allocated by ranges and freed one by one pile up.

`free_stack_bounded` says when the stack stays within its array, by the mix of the
calls alone, in the runs that leave the kernel's own memory alone.  Behind the array
lies `free_count`: a store there puts an address into it, and what the model counts
from then on is not what the kernel counts.
-/

namespace MiniKernel.Ports.FreeStack

open MiniKernel.Verified.ByteMemory
open MiniKernel.Verified.PageWords
open MiniKernel.Verified.StackDepth
open MiniKernel.Verified.Trace
open MiniKernel.Ports.Pmm
open MiniKernel.Ports.Paging
open MiniKernel.Ports.PagingTables
open MiniKernel.Ports.PagingSparing
open MiniKernel.Ports.PagingRecycling

variable (ptr : Vm → Nat → Option Nat)

/-! ## Calls and moves -/

/-- What a call does to the stack. -/
def moveOf (s : State) : Event → Move
  | .allocatePage _ => if (allocate 4096 s.vm.pmm).1 = 0 then .idle else .take
  | .allocatePagesContig .. => .idle
  | .freePage _ => .push

/-- The moves of a run, up to a call that faults. -/
def moves (s : State) : List Event → List Move
  | [] => []
  | e :: es => moveOf s e :: match step ptr s e with
      | some s' => moves s' es
      | none => []

/-- A page is freed when it was handed out, and once. -/
def FreesHeld (s : State) : Event → Prop
  | .freePage addr => pageOf addr ∈ s.held
  | _ => True

instance (s : State) : (e : Event) → Decidable (FreesHeld s e)
  | .freePage _ => inferInstanceAs (Decidable (_ ∈ _))
  | .allocatePage _ => inferInstanceAs (Decidable True)
  | .allocatePagesContig .. => inferInstanceAs (Decidable True)

/-- After every part of the run, `free_count` is at most `MAX_FREE_PAGES`, and a
`free_page` that comes next stores inside `free_virtual`. -/
def InArray (s : State) (events : List Event) : Prop :=
  ∀ before after, events = before ++ after → ∀ t, exec (step ptr) s before = some t →
    t.vm.freeCount ≤ maxFreePages ∧
      ∀ addr rest, after = .freePage addr :: rest → t.vm.freeCount < maxFreePages

variable {ptr}

/-! ## One call -/

theorem takeVirtual_freeCount (vm : Vm) : (takeVirtual vm).2.freeCount = vm.freeCount - 1 := by
  unfold takeVirtual
  split
  · rfl
  · show vm.freeCount = vm.freeCount - 1
    omega

/-- **A call moves `free_count`.** -/
theorem step_freeCount {s s' : State} {e : Event} (h : step ptr s e = some s') :
    s'.vm.freeCount = (moveOf s e).apply s.vm.freeCount := by
  cases e with
  | allocatePage flag =>
      obtain ⟨⟨v, vm⟩, hCall, rfl⟩ := Option.map_eq_some_iff.mp h
      unfold moveOf
      by_cases hFail : (allocate 4096 s.vm.pmm).1 = 0
      · rw [allocatePage, if_pos hFail] at hCall
        cases hCall
        rw [if_pos hFail]
        rfl
      · rw [allocatePage_some hFail] at hCall
        obtain ⟨vm₁, hMap, hEq⟩ := Option.map_eq_some_iff.mp hCall
        cases hEq
        rw [if_neg hFail]
        exact (mapPage_same hMap).freeCount.trans (takeVirtual_freeCount _)
  | allocatePagesContig count flag =>
      obtain ⟨⟨v, vm⟩, hCall, rfl⟩ := Option.map_eq_some_iff.mp h
      obtain ⟨⟨ok, vm₁⟩, hLoop, hEq⟩ := Option.map_eq_some_iff.mp hCall
      cases hEq
      exact (mapContig_same hLoop).freeCount
  | freePage addr =>
      simp only [step] at h
      split at h
      · obtain ⟨vm, hCall, rfl⟩ := Option.map_eq_some_iff.mp h
        exact (freePage_same hCall).freeCount
      · simp at h

/-! ## A run -/

theorem inArray_nil {s : State} : InArray ptr s [] ↔ s.vm.freeCount ≤ maxFreePages := by
  constructor
  · intro h
    exact (h [] [] rfl s rfl).1
  · intro h before after hSplit t hRun
    obtain ⟨rfl, rfl⟩ := List.append_eq_nil_iff.mp hSplit.symm
    cases hRun
    exact ⟨h, fun _ _ hNext => absurd hNext (by simp)⟩

theorem inArray_cons {s : State} {e : Event} {es : List Event} :
    InArray ptr s (e :: es) ↔ s.vm.freeCount ≤ maxFreePages ∧
      (moveOf s e).apply s.vm.freeCount ≤ maxFreePages ∧
      ∀ s', step ptr s e = some s' → InArray ptr s' es := by
  constructor
  · intro h
    have hHere := h [] (e :: es) rfl s rfl
    refine ⟨hHere.1, ?_, fun s' hStep before after hSplit t hRun => ?_⟩
    · cases e with
      | allocatePage flag =>
          have hMove : moveOf s (.allocatePage flag) ≠ .push := by
            simp only [moveOf]
            split <;> simp
          exact Nat.le_trans (Move.apply_le hMove _) hHere.1
      | allocatePagesContig count flag => exact hHere.1
      | freePage addr => exact hHere.2 addr es rfl
    · refine h (e :: before) after (congrArg (e :: ·) hSplit) t ?_
      rw [exec_cons, hStep]
      exact hRun
  · rintro ⟨hHere, hMoved, hRest⟩ before after hSplit t hRun
    cases before with
    | nil =>
        cases hRun
        refine ⟨hHere, fun addr rest hNext => ?_⟩
        obtain ⟨rfl, -⟩ := List.cons.inj (hSplit.trans hNext)
        exact hMoved
    | cons e' before =>
        obtain ⟨rfl, hTail⟩ := List.cons.inj hSplit
        obtain ⟨s', hStep, hAfter⟩ := exec_cons_some hRun
        exact hRest s' hStep before after hTail t hAfter

/-- The stack of a run is in the array while its moves keep within the bound. -/
theorem inArray_iff_within (s : State) (events : List Event) :
    InArray ptr s events ↔ Within maxFreePages s.vm.freeCount (moves ptr s events) := by
  induction events generalizing s with
  | nil => exact inArray_nil
  | cons e es ih =>
      rw [inArray_cons, moves, Within]
      refine and_congr_right fun _ => ?_
      cases hStep : step ptr s e with
      | none => simp [Within]
      | some s' =>
          rw [← step_freeCount hStep, ← ih s']
          constructor
          · rintro ⟨-, hRest⟩
            exact hRest s' rfl
          · intro h
            refine ⟨(h [] es rfl s' rfl).1, fun t hEq => ?_⟩
            cases hEq
            exact h

/-- A PC with two pages of memory from 1 MiB on. -/
def twoPages : Table := Table.ofList
  [ { base := 0, length := 0x9FC00, type := 1, acpi := 1 }
  , { base := 0x9FC00, length := 0x60400, type := 2, acpi := 1 }
  , { base := 0x100000, length := 0x2000, type := 1, acpi := 1 } ]

/-- The linked image there, with empty memory. -/
def twoPagesBoot : State where
  vm := boot image twoPages (fun _ => 0) (fun _ => 0)
  held := []

/-- A range of both pages, a range up to 4 MiB for which there is no memory, and the
frees of the first. -/
def skipDirectory : List Event :=
  [.allocatePagesContig 2 0, .allocatePagesContig 984 0, .freePage 0x26000, .freePage 0x27000]

/-- The `k`th page from 4 MiB on. -/
def pageAt (k : Nat) : Nat := 0x400000 + k * 4096

/-- A range of one page, freed at once. -/
def rangeAndFree (k : Nat) : List Event := [.allocatePagesContig 1 0, .freePage (pageAt k)]

def cyclesFrom (k : Nat) : Nat → List Event
  | 0 => []
  | n + 1 => rangeAndFree k ++ cyclesFrom (k + 1) n

/-- The map with both pages free. -/
structure BothPages (t : Table) : Prop where
  entry : t.entry = 3
  low : t.map 0 = { base := 0, length := 0x9FC00, type := 1, acpi := 1 }
  hole : t.map 1 = { base := 0x9FC00, length := 0x60400, type := 2, acpi := 1 }
  pages : t.map 2 = { base := 0x100000, length := 0x2000, type := 1, acpi := 1 }

/-- The map when the first page is handed out. -/
structure SplitPages (t : Table) : Prop where
  entry : t.entry = 4
  low : t.map 0 = { base := 0, length := 0x9FC00, type := 1, acpi := 1 }
  hole : t.map 1 = { base := 0x9FC00, length := 0x60400, type := 2, acpi := 1 }
  used : t.map 2 = { base := 0x100000, length := 0x1000, type := 2, acpi := 1 }
  rest : t.map 3 = { base := 0x101000, length := 0x1000, type := 1, acpi := 1 }

/-- The map while the second page is a page table and the first is free. -/
structure OnePage (t : Table) : Prop where
  entry : t.entry = 4
  low : t.map 0 = { base := 0, length := 0x9FC00, type := 1, acpi := 1 }
  hole : t.map 1 = { base := 0x9FC00, length := 0x60400, type := 2, acpi := 1 }
  page : t.map 2 = { base := 0x100000, length := 0x1000, type := 1, acpi := 1 }
  table : t.map 3 = { base := 0x101000, length := 0x1000, type := 2, acpi := 1 }

/-- The free page is handed out and comes back. -/
theorem OnePage.cycle {t : Table} (h : OnePage t) :
    (allocate 4096 t).1 = 0x100000 ∧ OnePage (free 0x100000 (allocate 4096 t).2) := by
  obtain ⟨hEntry, hLow, hHole, hPage, hTable⟩ := h
  have hAllocate : allocate 4096 t = (0x100000, { t with
      map := setMap t.map 2 ({ base := 0x100000, length := 0x1000, type := 2, acpi := 1 }) }) := by
    simp [allocate, hEntry, List.range_succ, scanStep, hLow, hHole, hPage, hTable]
  rw [hAllocate]
  refine ⟨rfl, ?_⟩
  simp only [free, hEntry, List.range_succ]
  simp [hLow, hHole, hTable, setMap, mergeLeft, mergeRight, MemoryMap.limit]
  constructor <;> simp [setMap, *]

/-- The first page is handed out, the second becomes a table, and the first comes back. -/
theorem BothPages.cycle {t : Table} (h : BothPages t) :
    (allocate 4096 t).1 = 0x100000 ∧ (allocate 4096 (allocate 4096 t).2).1 = 0x101000 ∧
      OnePage (free 0x100000 (allocate 4096 (allocate 4096 t).2).2) := by
  obtain ⟨hEntry, hLow, hHole, hPages⟩ := h
  have hFirst : (allocate 4096 t).1 = 0x100000 ∧ SplitPages (allocate 4096 t).2 := by
    have hScan : (List.range 3).foldl (scanStep t.map 4096) none = some 2 := by
      simp [List.range_succ, scanStep, hLow, hHole, hPages]
    simp only [allocate, hEntry, hScan, hPages]
    rw [if_pos (by decide), if_neg (by decide)]
    refine ⟨by simp [setMap, shiftUp, hPages], ?_⟩
    constructor <;> simp [shiftUp, setMap, hLow, hHole, hPages]
  generalize (allocate 4096 t).2 = t' at hFirst
  obtain ⟨hAnswer, hEntry', hLow', hHole', hUsed', hRest'⟩ := hFirst
  refine ⟨hAnswer, ?_⟩
  have hAllocate : allocate 4096 t' = (0x101000, { t' with
      map := setMap t'.map 3 ({ base := 0x101000, length := 0x1000, type := 2, acpi := 1 }) }) := by
    simp [allocate, hEntry', List.range_succ, scanStep, hLow', hHole', hUsed', hRest']
  rw [hAllocate]
  refine ⟨rfl, ?_⟩
  simp only [free, hEntry', List.range_succ]
  simp [hLow', hHole', hUsed', setMap, mergeLeft, mergeRight, MemoryMap.limit]
  constructor <;> simp [setMap, *]

/-- The first two directory entries, with the second table at the second page of memory
and that page mapped to itself. -/
structure Walked (vm : Vm) : Prop where
  tables : Tables vm
  first : HasTable vm 0
  firstTable : tableOf vm 0 = 0x22000
  second : HasTable vm 1
  secondTable : tableOf vm 1 = 0x101000
  identity : entryWord vm 0x101 = 0x101007

/-- The processor reaches the second table at its own addresses. -/
theorem walk_second {vm : Vm} (h : entryWord vm 0x101 = 0x101007) {k : Nat} (hk : k < 1024) :
    pageWalk vm (0x101000 + 4 * k) = some (0x101000 + 4 * k) := by
  have hPage : pageOf (0x101000 + 4 * k) = 0x101 := by
    unfold pageOf
    omega
  rw [pageWalk_eq, hPage, h, if_pos (by decide)]
  refine congrArg some ?_
  have hFrame : frameOf 0x101007 = 0x101000 := by decide
  rw [hFrame]
  omega

/-- The word of the second page is in the first table. -/
theorem identity_keep {vm vm₁ : Vm} (hTable : tableOf vm 0 = 0x22000)
    (hWord : entryWord vm 0x101 = 0x101007) (hSame : SameTable vm vm₁ 0)
    (hMem : ∀ x, 0x22000 ≤ x → x < 0x23000 → vm₁.mem x = vm.mem x) :
    entryWord vm₁ 0x101 = 0x101007 := by
  refine (entryWord_congr hSame fun _ x hLow hHigh => ?_).trans hWord
  change tableOf vm 0 ≤ x at hLow
  change x < tableOf vm 0 + 4096 at hHigh
  rw [hTable] at hLow hHigh
  exact hMem x hLow hHigh

theorem pageOf_pageAt (k : Nat) : pageOf (pageAt k) = 1024 + k := by
  unfold pageOf pageAt
  omega

theorem directory_pageAt {k : Nat} (hk : k < 1024) : pageOf (pageAt k) / 1024 = 1 := by
  rw [pageOf_pageAt]
  omega

theorem pageAt_lt {k : Nat} (hk : k < 1024) : pageAt k < 2 ^ 32 := by
  unfold pageAt
  omega

/-- The table word `map_page` writes. -/
theorem pageWord : frameOf 0x100000 ||| 3 = 0x100003 := by decide

/-- `map_page` maps the page at `pageAt k` to the first page of memory. -/
structure MapsPage (vm vm' : Vm) (k : Nat) : Prop where
  walked : Walked vm'
  word : entryWord vm' (pageOf (pageAt k)) = 0x100003
  same : SameVirtual vm vm'

/-- `map_page` with the second table there. -/
theorem Walked.map {vm : Vm} (h : Walked vm) {k : Nat} (hk : k < 1024) :
    ∃ vm', mapPage pageWalk 0x100000 (pageAt k) 3 vm = some vm' ∧ MapsPage vm vm' k ∧
      vm'.pmm = vm.pmm := by
  have hDirectory := directory_pageAt hk
  obtain ⟨vm', hMap, hSame, hPmm, -, hWords⟩ := Distinct.mapPage pageWalk h.tables.distinct 0x100000
    (pageAt_lt hk) (show 3 < 2 ^ 32 by decide) (by rw [hDirectory]; exact h.second)
    (fun vm₁ hSame hMem j hj => by
      rw [hDirectory, h.secondTable]
      exact walk_second (identity_keep h.firstTable h.identity (hSame 0) fun x _ _ => by
        rw [hMem]) hj)
  have hOther : ¬0x101 = pageOf (pageAt k) := by
    rw [pageOf_pageAt]
    omega
  refine ⟨vm', hMap, ⟨?_, ?_, mapPage_same hMap⟩, hPmm⟩
  · exact
      { tables := h.tables.congr hSame
        first := (hSame 0).1.mpr h.first
        firstTable := (hSame 0).2.trans h.firstTable
        second := (hSame 1).1.mpr h.second
        secondTable := (hSame 1).2.trans h.secondTable
        identity := by rw [hWords 0x101 (by decide), if_neg hOther, h.identity] }
  · rw [hWords _ (by rw [pageOf_pageAt]; omega), if_pos rfl, pageWord]

/-- Only the first directory entry, and the second page of memory mapped to itself. -/
structure OneTable (vm : Vm) : Prop where
  tables : Tables vm
  only : ∀ d, d < 1024 → (HasTable vm d ↔ d = 0)
  firstTable : tableOf vm 0 = 0x22000
  identity : entryWord vm 0x101 = 0x101007

/-- `map_page` when the second page of memory becomes the second table. -/
theorem OneTable.map {vm : Vm} (h : OneTable vm) {k : Nat} (hk : k < 1024)
    (hTable : (allocate 4096 vm.pmm).1 = 0x101000) :
    ∃ vm', mapPage pageWalk 0x100000 (pageAt k) 3 vm = some vm' ∧ MapsPage vm vm' k ∧
      vm'.pmm = (allocate 4096 vm.pmm).2 := by
  have hDirectory := directory_pageAt hk
  obtain ⟨vm', hMap, hNew, hWords⟩ := Distinct.mapPage_adds pageWalk h.tables.distinct 0x100000
    (pageAt_lt hk) (show 3 < 2 ^ 32 by decide)
    (by rw [hDirectory, h.only 1 (by decide)]; decide) hTable (by decide) (by decide) (by decide)
    (fun d hd hHas => by
      rw [(h.only d hd).mp hHas, h.firstTable]
      decide)
    (fun vm₁ hSame hMem j hj => by
      refine walk_second (identity_keep h.firstTable h.identity (hSame 0 ?_) fun x _ hx => ?_) hj
      · rw [hDirectory]
        decide
      · exact hMem x (Or.inl (by omega)))
  rw [hDirectory] at hNew
  have hOther : ¬0x101 = pageOf (pageAt k) := by
    rw [pageOf_pageAt]
    omega
  have hFirst := hNew.other 0 (by decide)
  refine ⟨vm', hMap, ⟨?_, ?_, mapPage_same hMap⟩, hNew.pmm⟩
  · exact
      { tables := hNew.tables h.tables
        first := hFirst.1.mpr ((h.only 0 (by decide)).mpr rfl)
        firstTable := hFirst.2.trans h.firstTable
        second := hNew.has
        secondTable := hNew.tableOf
        identity := by rw [hWords 0x101 (by decide), if_neg hOther, h.identity] }
  · rw [hWords _ (by rw [pageOf_pageAt]; omega), if_pos rfl, pageWord]

/-- `free_page` of the page. -/
theorem Walked.free {vm : Vm} (h : Walked vm) {k : Nat} (hk : k < 1024)
    (hWord : entryWord vm (pageOf (pageAt k)) = 0x100003) :
    ∃ vm', freePage pageWalk (pageAt k) vm = some vm' ∧ Walked vm' ∧
      vm'.pmm = Pmm.free 0x100000 vm.pmm ∧ SameVirtual (pushFree (pageAt k) vm) vm' := by
  have hDirectory := directory_pageAt hk
  obtain ⟨vm', hFree, hSame, hPmm, hWords⟩ := freePage_spec pageWalk h.tables (pageAt_lt hk)
    (fun _ vm₁ hDirectories hMem => by
      rw [hDirectory, h.secondTable]
      exact walk_second (identity_keep h.firstTable h.identity
        (sameTable_of_eq (congrFun hDirectories 0)) fun x _ _ => by rw [hMem])
        (Nat.mod_lt _ (by decide)))
  have hTables : ∀ d, SameTable vm vm' d := fun d => sameTable_of_eq (congrFun hSame d)
  have hOther : ¬(0x101 = pageOf (pageAt k) ∧ Present (entryWord vm 0x101)) := by
    rw [pageOf_pageAt]
    omega
  refine ⟨vm', hFree, ?_, ?_, freePage_same hFree⟩
  · exact
      { tables := h.tables.congr hTables
        first := (hTables 0).1.mpr h.first
        firstTable := (hTables 0).2.trans h.firstTable
        second := (hTables 1).1.mpr h.second
        secondTable := (hTables 1).2.trans h.secondTable
        identity := by rw [hWords 0x101 (by decide), if_neg hOther, h.identity] }
  · have hFrame : frameOf 0x100003 = 0x100000 := by decide
    rw [hPmm, hWord, if_pos (by decide), hFrame]

/-- The state in which `allocate_pages_contig` maps its only page. -/
def oneTaken (vm : Vm) : Vm :=
  { vm with
    pmm := (allocate 4096 vm.pmm).2
    nextVirtual := (vm.nextVirtual + 4096) % 2 ^ 32 }

/-- A range of one page. -/
theorem contig_one {vm vm' : Vm} (hRange : vm.nextVirtual < 2 ^ 32)
    (hFound : (allocate 4096 vm.pmm).1 ≠ 0)
    (hMap : mapPage pageWalk (allocate 4096 vm.pmm).1 vm.nextVirtual 3 (oneTaken vm) =
      some vm') : allocatePagesContig pageWalk 1 0 vm = some (vm.nextVirtual, vm') := by
  have hNext : (((vm.nextVirtual : Int) + 1 * 4096) % 2 ^ 32).toNat =
      (vm.nextVirtual + 4096) % 2 ^ 32 := by omega
  have hStart : (vm.nextVirtual + 0 * 4096) % 2 ^ 32 = vm.nextVirtual := by omega
  have hFlags : defaultFlags 0 = 3 := by decide
  have hOnly : List.range (1 : Int).toNat = [0] := by decide
  unfold allocatePagesContig
  simp only [hNext, hFlags, hOnly, mapContig, hStart]
  rw [if_neg hFound]
  change ((mapPage pageWalk _ _ _ (oneTaken vm)).bind _).map _ = _
  rw [hMap]
  rfl

/-- After `k` cycles: the map is as before, and the stack has grown by `k`. -/
structure Worn (k : Nat) (s : State) : Prop where
  walked : Walked s.vm
  pmm : OnePage s.vm.pmm
  next : s.vm.nextVirtual = pageAt k
  count : s.vm.freeCount = 2 + k
  held : s.held = []

/-- A cycle, whatever `map_page` had to do for it. -/
theorem cycle_run {s : State} {k : Nat} (hk : k < 1024) (hNext : s.vm.nextVirtual = pageAt k)
    (hCount : s.vm.freeCount = 2 + k) (hHeld : s.held = [])
    (hFound : (allocate 4096 s.vm.pmm).1 = 0x100000) {vm : Vm}
    (hMap : mapPage pageWalk 0x100000 (pageAt k) 3 (oneTaken s.vm) = some vm)
    (hMaps : MapsPage (oneTaken s.vm) vm k) (hPmm : OnePage (Pmm.free 0x100000 vm.pmm)) :
    ∃ s', exec (step pageWalk) s (rangeAndFree k) = some s' ∧ Worn (k + 1) s' ∧
      Meets (step pageWalk) FreesHeld s (rangeAndFree k) := by
  have hLt := pageAt_lt hk
  have hPositive : pageAt k ≠ 0 := by
    unfold pageAt
    omega
  have hRange : step pageWalk s (.allocatePagesContig 1 0) =
      some { vm := vm, held := [pageOf (pageAt k)] } := by
    have hCall := contig_one (show s.vm.nextVirtual < 2 ^ 32 by rw [hNext]; exact hLt)
      (by rw [hFound]; decide) (by rw [hFound, hNext]; exact hMap)
    have hPages : pagesFrom (pageAt k) 1 = [pageOf (pageAt k)] := by
      have hStart : (pageAt k + 0 * 4096) % 2 ^ 32 = pageAt k := by omega
      have hOnly : List.range (1 : Int).toNat = [0] := by decide
      rw [pagesFrom, hOnly, List.map_singleton, hStart]
    rw [step, hCall, Option.map_some, hNext]
    simp only [if_neg hPositive, hPages, hHeld, List.append_nil]
  obtain ⟨vm', hFree, hWalked, hPmm', hSame⟩ := hMaps.walked.free hk hMaps.word
  have hGone : step pageWalk { vm := vm, held := [pageOf (pageAt k)] } (.freePage (pageAt k)) =
      some { vm := vm', held := [] } := by
    rw [step, if_pos hLt, hFree, Option.map_some]
    simp
  refine ⟨{ vm := vm', held := [] }, ?_, ⟨hWalked, ?_, ?_, ?_, rfl⟩, ?_⟩
  · rw [rangeAndFree, exec_cons, hRange, Option.bind_some, exec_cons, hGone]
    rfl
  · show OnePage vm'.pmm
    rw [hPmm']
    exact hPmm
  · refine (hSame.nextVirtual.trans hMaps.same.nextVirtual).trans ?_
    simp only [oneTaken, hNext]
    unfold pageAt
    omega
  · refine hSame.freeCount.trans ?_
    change vm.freeCount + 1 = _
    rw [hMaps.same.freeCount]
    change s.vm.freeCount + 1 = _
    omega
  · refine ⟨trivial, fun s₁ hStep => ?_⟩
    rw [hRange] at hStep
    cases hStep
    exact ⟨List.mem_singleton.mpr rfl, fun _ _ => trivial⟩

/-- One more cycle. -/
theorem Worn.cycle {s : State} {k : Nat} (h : Worn k s) (hk : k < 1024) :
    ∃ s', exec (step pageWalk) s (rangeAndFree k) = some s' ∧ Worn (k + 1) s' ∧
      Meets (step pageWalk) FreesHeld s (rangeAndFree k) := by
  have hTaken : Walked (oneTaken s.vm) :=
    { tables := h.walked.tables.congr fun d => sameTable_of_eq rfl
      first := h.walked.first
      firstTable := h.walked.firstTable
      second := h.walked.second
      secondTable := h.walked.secondTable
      identity := h.walked.identity }
  obtain ⟨hFound, hBack⟩ := h.pmm.cycle
  obtain ⟨vm, hMap, hMaps, hPmm⟩ := hTaken.map hk
  refine cycle_run hk h.next h.count h.held hFound hMap hMaps ?_
  rw [hPmm]
  exact hBack

/-- The state before the first cycle. -/
structure Skipped (s : State) : Prop where
  oneTable : OneTable s.vm
  pmm : BothPages s.vm.pmm
  next : s.vm.nextVirtual = pageAt 0
  count : s.vm.freeCount = 2
  held : s.held = []

theorem skipDirectory_run :
    ∃ s, exec (step pageWalk) twoPagesBoot skipDirectory = some s ∧ Skipped s := by
  obtain ⟨s, hRun⟩ := Option.isSome_iff_exists.mp
    (show (exec (step pageWalk) twoPagesBoot skipDirectory).isSome by
      rw [twoPagesBoot, boot_eq]
      decide +kernel)
  have hState : ∀ s ∈ exec (step pageWalk) twoPagesBoot skipDirectory,
      (∀ d < 1024, HasTable s.vm d ↔ d = 0) ∧ tableOf s.vm 0 = 0x22000 ∧
        entryWord s.vm 0x101 = 0x101007 ∧ s.vm.pmm.entry = 3 ∧
        (∀ j < 3, s.vm.pmm.map j = twoPages.map j) ∧ s.vm.nextVirtual = pageAt 0 ∧
        s.vm.freeCount = 2 ∧ s.held = [] := by
    rw [twoPagesBoot, boot_eq]
    decide +kernel
  obtain ⟨hOnly, hTable, hIdentity, hEntry, hMap, hNext, hCount, hHeld⟩ := hState s hRun
  refine ⟨s, hRun, ⟨⟨?_, hOnly, hTable, hIdentity⟩, ?_, hNext, hCount, hHeld⟩⟩
  · constructor
    · intro d d' hd hd' hHas hHas' _
      rw [(hOnly d hd).mp hHas, (hOnly d' hd').mp hHas']
    · intro d hd hHas
      rw [(hOnly d hd).mp hHas, hTable]
      decide
  · exact ⟨hEntry, hMap 0 (by decide), hMap 1 (by decide), hMap 2 (by decide)⟩

theorem skipDirectory_frees : Meets (step pageWalk) FreesHeld twoPagesBoot skipDirectory := by
  rw [twoPagesBoot, boot_eq]
  decide +kernel

/-- The first cycle, with a new table. -/
theorem Skipped.cycle {s : State} (h : Skipped s) :
    ∃ s', exec (step pageWalk) s (rangeAndFree 0) = some s' ∧ Worn 1 s' ∧
      Meets (step pageWalk) FreesHeld s (rangeAndFree 0) := by
  have hTaken : OneTable (oneTaken s.vm) :=
    { tables := h.oneTable.tables.congr fun d => sameTable_of_eq rfl
      only := h.oneTable.only
      firstTable := h.oneTable.firstTable
      identity := h.oneTable.identity }
  obtain ⟨hFound, hTable, hBack⟩ := h.pmm.cycle
  obtain ⟨vm, hMap, hMaps, hPmm⟩ := hTaken.map (show 0 < 1024 by decide) hTable
  refine cycle_run (by decide) h.next h.count h.held hFound hMap hMaps ?_
  rw [hPmm]
  exact hBack

/-- More cycles, up to the end of the second table. -/
theorem Worn.cycles {s : State} {k : Nat} (h : Worn k s) {n : Nat} (hn : k + n ≤ 1024) :
    ∃ s', exec (step pageWalk) s (cyclesFrom k n) = some s' ∧ Worn (k + n) s' ∧
      Meets (step pageWalk) FreesHeld s (cyclesFrom k n) := by
  induction n generalizing s k with
  | zero => exact ⟨s, rfl, h, trivial⟩
  | succ n ih =>
      obtain ⟨s₁, hFirst, hWorn, hFrees⟩ := h.cycle (by omega)
      obtain ⟨s', hRest, hEnd, hLater⟩ := ih hWorn (by omega)
      refine ⟨s', ?_, ?_, hFrees.append fun s₂ hStep => ?_⟩
      · rw [cyclesFrom, exec_append, hFirst]
        exact hRest
      · rw [show k + (n + 1) = k + 1 + n by omega]
        exact hEnd
      · rw [hFirst] at hStep
        cases hStep
        exact hLater

/-- A thousand pages and more, each allocated as a range of one and freed once. -/
def rangesFreed : List Event := skipDirectory ++ (rangeAndFree 0 ++ cyclesFrom 1 1022)

theorem rangesFreed_run :
    ∃ s, exec (step pageWalk) twoPagesBoot rangesFreed = some s ∧ s.vm.freeCount = 1025 ∧
      Meets (step pageWalk) FreesHeld twoPagesBoot rangesFreed := by
  obtain ⟨s₀, hSkip, hSkipped⟩ := skipDirectory_run
  obtain ⟨s₁, hFirst, hWorn, hFrees⟩ := hSkipped.cycle
  obtain ⟨s, hRest, hEnd, hLater⟩ := hWorn.cycles (n := 1022) (by decide)
  refine ⟨s, ?_, hEnd.count, skipDirectory_frees.append fun t hStep => ?_⟩
  · rw [rangesFreed, exec_append, hSkip, Option.bind_some, exec_append, hFirst]
    exact hRest
  · rw [hSkip] at hStep
    cases hStep
    refine hFrees.append fun t hStep => ?_
    rw [hFirst] at hStep
    cases hStep
    exact hLater

theorem cyclesFrom_succ (k n : Nat) :
    cyclesFrom k (n + 1) = cyclesFrom k n ++ rangeAndFree (k + n) := by
  induction n generalizing k with
  | zero => rfl
  | succ n ih =>
      rw [cyclesFrom, ih (k + 1), ← List.append_assoc, show k + 1 + n = k + (n + 1) by omega]
      rfl

/-- The calls before the last free. -/
def beforeOverflow : List Event :=
  skipDirectory ++ (rangeAndFree 0 ++ (cyclesFrom 1 1021 ++ [.allocatePagesContig 1 0]))

theorem rangesFreed_eq : rangesFreed = beforeOverflow ++ [.freePage (pageAt 1022)] := by
  rw [rangesFreed, beforeOverflow, show cyclesFrom 1 1022 = _ from cyclesFrom_succ 1 1021]
  simp only [rangeAndFree, List.append_assoc, List.cons_append, List.nil_append]

end MiniKernel.Ports.FreeStack
