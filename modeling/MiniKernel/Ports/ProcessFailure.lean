import MiniKernel.Ports.SystemCalls
import MiniKernel.Ports.KmallocFailure
import MiniKernel.Ports.PagingDraws
import MiniKernel.Ports.PagingTables

/-!
# When `create_process` fails

`create_process` answers `NULL` when it cannot have its kernel stack or its user
stack, and gives back what it has by then.  Three of its calls leave something
behind: `allocate_pages_contig` returns with the pages it has mapped so far,
`free_page` gives back one of the four pages of a kernel stack, and `kfree` does not
find a block that `kmalloc` made up for want of a page.

`createProcess_undone_iff` says which failures leave nothing: those in front of the
first frame.
-/

namespace MiniKernel.Ports.ProcessFailure

open MiniKernel.Verified.ByteMemory
open MiniKernel.Verified.Links
open MiniKernel.Verified.PageWords
open MiniKernel.Ports.Pmm
open MiniKernel.Ports.PmmCoverage (Intact)
open MiniKernel.Ports.Paging hiding Layout
open MiniKernel.Ports.PagingTables
open MiniKernel.Ports.PagingDraws
open MiniKernel.Ports.Kmalloc
open MiniKernel.Ports.KmallocTiling
open MiniKernel.Ports.KmallocFailure
open MiniKernel.Ports.PageLending
open MiniKernel.Ports.ProcessTable
open MiniKernel.Ports.SystemCalls

universe u

/-! ## The control block -/

section Block

variable {σ : Type u} {A : Nat → σ → Option (Nat × σ)} {h h' : Heap}
  {pages listed lost : List Nat} {size flag r b page : Nat} {s s' s₁ : σ}

/-- The block that is taken stays on the list. -/
theorem layout_take (hL : Layout h pages listed lost) (hb : b ∈ listed)
    (size : Nat) :
    ∃ listed', Layout { h with mem := takeBlock h.mem b size } pages listed' lost ∧
      b ∈ listed' := by
  by_cases hRoom : size + sizeofBlock ≤ (blockAt h.mem b).size
  · obtain ⟨xs, ys, rfl⟩ := List.append_of_mem hb
    exact ⟨_, (hL.split hRoom).1, by simp⟩
  · rw [takeBlock_whole hRoom]
    exact ⟨listed, hL.retype (List.mem_append_left lost hb) (by decide), hb⟩

theorem takeBlock_type (m : Mem) (b size : Nat) : (blockAt (takeBlock m b size) b).type = 2 := by
  by_cases hRoom : size + sizeofBlock ≤ (blockAt m b).size
  · unfold takeBlock
    rw [if_pos hRoom]
    simp only
    rw [blockAt_setNext (Nat.mod_lt _ (by decide)), blockAt_setType (by decide)]
  · rw [takeBlock_whole hRoom, blockAt_setType (by decide)]

/-- A block that fits is taken from the list. -/
theorem kmalloc_found (hPos : 0 < size) (hSize : size ≤ pageSize) (hHead : h.heapHead ≠ 0)
    (hFound : bestFit h size = some b) (hb : b ≠ 0) :
    kmalloc A size flag h s =
      some (userAddr b, { h with mem := takeBlock h.mem b size }, s) := by
  have hFirst : firstPage A (flagsOf flag) h s = some (h, s) := if_neg hHead
  have hChoose : chooseBlock A (flagsOf flag) size h s = some (b, h, s) := by
    rw [chooseBlock, hFound, Option.bind_some, if_neg hb]
  unfold kmalloc
  rw [if_neg (by omega)]
  change ((firstPage A (flagsOf flag) h s).bind _) = _
  rw [hFirst, Option.bind_some]
  change Option.map _ (chooseBlock A (flagsOf flag) size h s) = _
  rw [hChoose]
  rfl

/-- A page that is there becomes a block of the list, which is taken. -/
theorem kmalloc_page (hPos : 0 < size) (hSize : size + sizeofBlock ≤ pageSize)
    (hL : Layout h pages listed lost) (hNeeds : NeedsPage h size)
    (hFresh : Fresh pages page) (hPage : A (flagsOf flag) s = some (page, s₁)) :
    ∃ h₁ listed' lost', Layout h₁ (page :: pages) listed' lost' ∧
      page ∈ listed' ∧
      kmalloc A size flag h s =
        some (userAddr page, { h₁ with mem := takeBlock h₁.mem page size }, s₁) := by
  have hSmall : ¬(pageSize < size ∨ size = 0) := by omega
  unfold kmalloc
  rw [if_neg hSmall]
  change ∃ h₁ listed' lost', _ ∧ _ ∧ ((firstPage A (flagsOf flag) h s).bind fun r =>
    (chooseBlock A (flagsOf flag) size r.1 r.2).map _) = _
  by_cases hEmpty : h.heapHead = 0
  · have hL' := hL.first hEmpty hFresh
    have hFirst : firstPage A (flagsOf flag) h s =
        some ({ mem := initPage h.mem page, heapHead := page, currentBlock := page }, s₁) := by
      rw [firstPage, if_pos hEmpty, hPage, Option.map_some]
    have hBest : bestFit { mem := initPage h.mem page, heapHead := page, currentBlock := page }
        size = some page := by
      obtain ⟨best, hBest, ⟨-, hNone⟩ | ⟨-, hIn, -⟩⟩ := bestFit_spec size hL'.linked hL'.short
      · refine absurd ?_ (hNone page List.mem_cons_self)
        rw [blockAt_initPage]
        unfold pageSize sizeofBlock at hSize
        exact ⟨rfl, by simp only; omega⟩
      · rw [hBest, List.mem_singleton.mp hIn]
    refine ⟨_, _, _, hL', List.mem_cons_self, ?_⟩
    rw [hFirst, Option.bind_some, chooseBlock, hBest, Option.bind_some, if_neg hFresh.1]
    rfl
  · have hCurrent := hL.current hEmpty
    obtain ⟨xs, ys, rfl⟩ := List.append_of_mem hCurrent
    have hFirst : firstPage A (flagsOf flag) h s = some (h, s) := if_neg hEmpty
    refine ⟨_, _, _, hL.append hFresh, by simp, ?_⟩
    rw [hFirst, Option.bind_some, chooseBlock, hNeeds.resolve_left hEmpty, Option.bind_some,
      if_pos rfl, appendPage, hPage]
    rfl

/-- A call that needs a page asks for it. -/
theorem kmalloc_needs (hPos : 0 < size) (hSize : size ≤ pageSize) (hNeeds : NeedsPage h size)
    (hRun : kmalloc A size flag h s = some (r, h', s')) :
    ∃ page s₁, A (flagsOf flag) s = some (page, s₁) := by
  unfold kmalloc at hRun
  rw [if_neg (by omega)] at hRun
  obtain ⟨⟨h₁, s₁⟩, hFirst, hRest⟩ := Option.bind_eq_some_iff.mp hRun
  change firstPage A (flagsOf flag) h s = _ at hFirst
  by_cases hEmpty : h.heapHead = 0
  · rw [firstPage, if_pos hEmpty] at hFirst
    obtain ⟨⟨page, s₂⟩, hCall, -⟩ := Option.map_eq_some_iff.mp hFirst
    exact ⟨page, s₂, hCall⟩
  · rw [firstPage, if_neg hEmpty] at hFirst
    cases hFirst
    obtain ⟨⟨best, h₂, s₂⟩, hChoose, -⟩ := Option.map_eq_some_iff.mp hRest
    rw [chooseBlock, hNeeds.resolve_left hEmpty, Option.bind_some, if_pos rfl] at hChoose
    obtain ⟨⟨page, s₃⟩, hCall, -⟩ := Option.map_eq_some_iff.mp hChoose
    exact ⟨page, s₃, hCall⟩

/-- **The block of `kmalloc` is on the list** if a page it needs is there. -/
theorem kmalloc_listed (hPos : 0 < size) (hSize : size + sizeofBlock ≤ pageSize)
    (hL : Layout h pages listed lost)
    (hPage : ∀ page s₁, NeedsPage h size → A (flagsOf flag) s = some (page, s₁) →
      Fresh pages page)
    (hRun : kmalloc A size flag h s = some (r, h', s')) :
    (¬NeedsPage h size ∧ s' = s ∨
        NeedsPage h size ∧ ∃ page, A (flagsOf flag) s = some (page, s')) ∧
      ∃ pages' listed' lost' b, Layout h' pages' listed' lost' ∧ b ∈ listed' ∧
        r = b + sizeofBlock ∧ r < 2 ^ 32 := by
  have hWhole : size ≤ pageSize := Nat.le_trans (Nat.le_add_right _ _) hSize
  by_cases hNeeds : NeedsPage h size
  · obtain ⟨page, s₁, hCall⟩ := kmalloc_needs hPos hWhole hNeeds hRun
    have hFresh := hPage page s₁ hNeeds hCall
    obtain ⟨h₁, listed₁, lost₁, hL₁, hIn, hEq⟩ := kmalloc_page hPos hSize hL hNeeds hFresh hCall
    have hAddr : page + sizeofBlock < 2 ^ 32 := by
      have hEnd := hFresh.2.1
      unfold pageSize at hEnd
      unfold sizeofBlock
      omega
    rw [hEq, userAddr, Nat.mod_eq_of_lt hAddr] at hRun
    cases hRun
    obtain ⟨listed', hL', hIn'⟩ := layout_take hL₁ hIn size
    exact ⟨Or.inr ⟨hNeeds, page, hCall⟩, _, listed', _, page, hL', hIn', rfl, hAddr⟩
  · obtain ⟨hHead, hSome⟩ := not_or.mp hNeeds
    obtain ⟨best, hBest, ⟨rfl, -⟩ | ⟨hNonzero, hIn, hFits⟩⟩ := bestFit_spec size hL.linked hL.short
    · exact absurd hBest hSome
    · have hAddr : best + sizeofBlock < 2 ^ 32 := by
        have hEnd := hL.end_le (List.mem_append_left lost hIn)
        have hLarge := hFits.2
        omega
      rw [kmalloc_found hPos hWhole hHead hBest hNonzero, userAddr, Nat.mod_eq_of_lt hAddr] at hRun
      cases hRun
      obtain ⟨listed', hL', hIn'⟩ := layout_take hL hIn size
      exact ⟨Or.inl ⟨hNeeds, rfl⟩, _, listed', _, best, hL', hIn', rfl, hAddr⟩

theorem heapHead_lt (hL : Layout h pages listed lost) : h.heapHead < 2 ^ 32 := by
  have hLinked := hL.linked
  cases listed with
  | nil =>
      rw [linked_nil.mp hLinked]
      decide
  | cons b bs =>
      have hEnd := hL.end_le (List.mem_append_left lost List.mem_cons_self)
      rw [(linked_cons.mp hLinked).1]
      unfold sizeofBlock at hEnd
      omega

/-- `kfree` marks a listed block. -/
theorem kfree_listed (hL : Layout h pages listed lost) (hb : b ∈ listed)
    (hAddr : b + sizeofBlock < 2 ^ 32) (hRun : kfree (b + sizeofBlock) h = some h') :
    (blockAt h'.mem b).type = 1 := by
  have hUser : userAddr b = b + sizeofBlock := Nat.mod_eq_of_lt hAddr
  rcases KmallocRuns.kfree_spec hL (b + sizeofBlock) with ⟨-, hNone⟩ | ⟨c, hc, hEq, hMark⟩
  · exact absurd hUser (hNone b hb)
  · have hcb : c = b := by
      have hEnd := hL.end_le (List.mem_append_left lost hc)
      unfold userAddr at hEq
      unfold sizeofBlock at *
      omega
    subst hcb
    cases hMark.symm.trans hRun
    rw [blockAt_setType (by decide)]

/-- There is no block at address 0. -/
theorem kfree_zero (hHead : h.heapHead < 2 ^ 32) (hRun : kfree sizeofBlock h = some h') :
    h' = h := by
  obtain ⟨b, hSeek, rfl⟩ := Option.map_eq_some_iff.mp hRun
  rcases seek_invariant (J := fun b => b < 2 ^ 32) (fun c _ _ => blockAt_next_lt h.mem c) hHead
    hSeek with rfl | ⟨hb, hUser⟩
  · rfl
  · have hZero : b = 0 := by
      rw [beq_iff_eq] at hUser
      unfold userAddr sizeofBlock at hUser
      omega
    rw [if_pos hZero]

/-- **A block that `kmalloc` makes up** for want of a page is taken, and `kfree` leaves
it so. -/
theorem kmalloc_made_up (hPos : 0 < size) (hSize : size ≤ pageSize) (hNeeds : NeedsPage h size)
    (hHead : h.heapHead < 2 ^ 32) (hFail : A (flagsOf flag) s = some (0, s₁))
    (hPage : ∀ page s₂, A (flagsOf flag) s₁ = some (page, s₂) → page + sizeofBlock < 2 ^ 32)
    (hRun : kmalloc A size flag h s = some (r, h', s')) :
    r ≠ 0 ∧ (blockAt h'.mem (r - sizeofBlock)).type = 2 ∧
      ∀ h'', kfree r h' = some h'' → h'' = h' := by
  have hHeader : 0 < sizeofBlock := by decide
  by_cases hEmpty : h.heapHead = 0
  · rw [kmalloc_empty hPos hSize hEmpty hFail] at hRun
    obtain ⟨⟨page, s₂⟩, hCall, hEq⟩ := Option.map_eq_some_iff.mp hRun
    cases hEq
    simp only [Nat.mod_eq_of_lt (hPage page s₂ hCall), Nat.add_sub_cancel]
    refine ⟨by omega, takeBlock_type _ _ _, fun h'' hFree => ?_⟩
    obtain ⟨b, hSeek, rfl⟩ := Option.map_eq_some_iff.mp hFree
    -- the list is empty
    have hb : b = 0 := (Option.some.inj hSeek).symm
    rw [if_pos hb]
  · rw [kmalloc_full hPos hSize hEmpty (hNeeds.resolve_left hEmpty) hFail] at hRun
    cases hRun
    rw [Nat.sub_self]
    exact ⟨Nat.ne_of_gt hHeader, takeBlock_type _ _ _, fun h'' hFree => kfree_zero hHead hFree⟩

end Block

/-! ## What is drawn -/

instance (h : Heap) (size : Nat) : Decidable (NeedsPage h size) := by
  unfold NeedsPage
  infer_instance

/-- The memory map without the page that the heap gets for the control block. -/
def heapMap (s : System Vm) : Table :=
  if NeedsPage s.heap sizeofProcess then (allocate 4096 s.pages.pmm).2 else s.pages.pmm

/-- The memory map, the heap and `next_virtual` are as `kmalloc` relies on. -/
structure Healthy (boot : List MemoryMap) (s : System Vm) (pages listed lost : List Nat) :
    Prop where
  map : Intact boot s.pages.pmm.entries
  heap : Layout s.heap pages listed lost
  fresh : NeedsPage s.heap sizeofProcess → Fresh pages (takeVirtual s.pages).1

/-- What is to be true after a failed call: `vm` is virtual memory as the call of
`kmalloc` for the control block `pro` left it. -/
structure Undone (s s' : System Vm) (pro : Nat) (vm : Vm) : Prop where
  frames : ∀ x, Usable (heapMap s).entries x → Usable s'.pages.pmm.entries x
  pages : ∀ p, p < 2 ^ 20 → Present (entryWord s'.pages p) → entryWord s'.pages p = entryWord vm p
  block : (blockAt s'.heap.mem (pro - sizeofBlock)).type = 1
  list : s'.kernel.processList = s.kernel.processList
  number : s'.kernel.processNumber = s.kernel.processNumber

/-- The heap has its page, if it needs one, and that was the last frame. -/
def NothingToDraw (s : System Vm) : Prop :=
  (NeedsPage s.heap sizeofProcess → (allocate 4096 s.pages.pmm).1 ≠ 0) ∧
    Fails 4096 (heapMap s).entries

instance (s : System Vm) : Decidable (NothingToDraw s) := by
  unfold NothingToDraw
  infer_instance

section Draws

variable {boot : List MemoryMap} {pages listed lost : List Nat} {ptr : Vm → Nat → Option Nat}
  {s s' : System Vm} {heap : Heap} {vm vm' : Vm} {pro v : Nat}

theorem takeVirtual_fst (vm : Vm) (pmm : Table) :
    (takeVirtual { vm with pmm := pmm }).1 = (takeVirtual vm).1 := by
  unfold takeVirtual
  simp only
  split <;> rfl

/-- What `kmalloc` does to virtual memory. -/
theorem heap_draws (h : Healthy boot s pages listed lost)
    (hSome : NeedsPage s.heap sizeofProcess → (allocate 4096 s.pages.pmm).1 ≠ 0)
    (hBlock : ¬NeedsPage s.heap sizeofProcess ∧ vm = s.pages ∨
      NeedsPage s.heap sizeofProcess ∧
        ∃ page, allocatePage ptr presentWrite s.pages = some (page, vm)) :
    Intact boot (heapMap s).entries ∧
      (vm.pmm = heapMap s ∨ vm.pmm = (allocate 4096 (heapMap s)).2) := by
  rcases hBlock with ⟨hNot, rfl⟩ | ⟨hNeeds, page, hCall⟩
  · rw [heapMap, if_neg hNot]
    exact ⟨h.map, Or.inl rfl⟩
  · rw [heapMap, if_pos hNeeds]
    refine ⟨(allocate_drawn h.map).intact, ?_⟩
    rw [allocatePage_some (hSome hNeeds)] at hCall
    obtain ⟨vm₁, hMap, hEq⟩ := Option.map_eq_some_iff.mp hCall
    cases hEq
    have hPmm := takeVirtual_pmm { s.pages with pmm := (allocate 4096 s.pages.pmm).2 }
    have hMapped := mapPage_pmm hMap
    rwa [hPmm] at hMapped

/-- A range whose first frame is missing changes nothing else. -/
theorem allocatePagesContig_none {count : Int} {flag : Nat} (hPos : 0 < count.toNat)
    (hFails : Fails 4096 vm.pmm.entries)
    (hCall : allocatePagesContig ptr count flag vm = some (v, vm')) :
    v = 0 ∧ vm'.pmm.entries = vm.pmm.entries ∧ vm'.mem = vm.mem ∧
      vm'.pageDirectory = vm.pageDirectory := by
  obtain ⟨vm₀, ok, hPmm, hMem, hDirectory, hLoop, rfl⟩ := allocatePagesContig_loop hCall
  obtain ⟨n, hn⟩ := Nat.exists_eq_succ_of_ne_zero (Nat.ne_of_gt hPos)
  obtain ⟨hZero, hSame⟩ := allocate_fails hFails
  rw [hn, List.range_succ_eq_map, mapContig, hPmm, if_pos hZero] at hLoop
  cases hLoop
  exact ⟨rfl, hSame, hMem, hDirectory⟩

/-- A range draws, and it draws a frame if there is one. -/
theorem allocatePagesContig_draws {count : Int} {flag : Nat} (hPos : 0 < count.toNat)
    (h : Intact boot vm.pmm.entries)
    (hCall : allocatePagesContig ptr count flag vm = some (v, vm')) :
    Drawn boot vm.pmm.entries vm'.pmm.entries ∧
      (¬Fails 4096 vm.pmm.entries → ∃ e, Withheld vm.pmm.entries vm'.pmm.entries e) := by
  obtain ⟨vm₀, ok, hPmm, -, -, hLoop, -⟩ := allocatePagesContig_loop hCall
  obtain ⟨n, hn⟩ := Nat.exists_eq_succ_of_ne_zero (Nat.ne_of_gt hPos)
  rw [hn, List.range_succ_eq_map] at hLoop
  rw [← hPmm] at h ⊢
  exact ⟨mapContig_drawn h hLoop, fun hFits => mapContig_withholds h hFits hLoop⟩

/-- A range of two pages or more that is mapped holds two frames. -/
theorem allocatePagesContig_two {count : Int} {flag : Nat} (hTwo : 1 < count.toNat)
    (h : Intact boot vm.pmm.entries)
    (hCall : allocatePagesContig ptr count flag vm = some (v, vm')) (hv : v ≠ 0) :
    ∃ e d, e ≠ d ∧ Withheld vm.pmm.entries vm'.pmm.entries e ∧
      Withheld vm.pmm.entries vm'.pmm.entries d := by
  obtain ⟨vm₀, ok, hPmm, -, -, hLoop, rfl⟩ := allocatePagesContig_loop hCall
  obtain ⟨n, hn⟩ := Nat.exists_eq_add_of_lt hTwo
  cases ok with
  | false => exact absurd rfl hv
  | true =>
      rw [hn, show 1 + n + 1 = n + 1 + 1 by omega, List.range_succ_eq_map,
        List.range_succ_eq_map, List.map_cons] at hLoop
      rw [← hPmm] at h ⊢
      exact mapContig_two h hLoop

/-! ## The failed call -/

/-- The stack fails; or the kernel stack is there, the user stack fails, and the first page
of the kernel stack is freed. -/
def StackFails (ptr : Vm → Nat → Option Nat) (vm vm' : Vm) : Prop :=
  allocatePagesContig ptr (kernelStackSize / 4096) presentWrite vm = some (0, vm') ∨
    ∃ stack vm₂ vm₃, stack ≠ 0 ∧
      allocatePagesContig ptr (kernelStackSize / 4096) presentWrite vm = some (stack, vm₂) ∧
      allocatePage ptr userFlags vm₂ = some (0, vm₃) ∧ freePage ptr stack vm₃ = some vm'

/-- What `create_process` has done when it answers `NULL`. -/
theorem createProcess_null {entry mode : Nat}
    (hCall : createProcess (paging ptr) entry mode s = some (0, s'))
    (hBlock : kmalloc (allocatePage ptr) sizeofProcess presentWrite s.heap s.pages =
      some (pro, heap, vm)) (hPro : pro ≠ 0) :
    s'.kernel = s.kernel ∧ kfree pro heap = some s'.heap ∧ StackFails ptr vm s'.pages := by
  obtain ⟨⟨p, s₁⟩, hParts, hRest⟩ := Option.bind_eq_some_iff.mp hCall
  obtain ⟨⟨q, k⟩, hCreate, hEq⟩ := Option.map_eq_some_iff.mp hRest
  cases hEq
  by_cases hComplete : p.Complete mode
  · exact absurd (createProcess_fst hComplete hCreate).symm hComplete.1
  · rw [createProcess_fails hComplete] at hCreate
    cases hCreate
    cases acquire_cases hParts with
    | noBlock heap₁ pages₁ hNone =>
        cases hNone.symm.trans hBlock
        exact absurd rfl hPro
    | noStack q heap₁ heap' pages₁ pages₂ hq hFound hStack hFree =>
        cases hFound.symm.trans hBlock
        exact ⟨rfl, hFree, Or.inl hStack⟩
    | noPage q stack heap₁ heap' pages₁ pages₂ pages₃ pages₄ hMode hq hNonzero hFound hStack
        hPage hBack hFree =>
        cases hFound.symm.trans hBlock
        exact ⟨rfl, hFree, Or.inr ⟨stack, pages₂, pages₃, hNonzero, hStack, hPage, hBack⟩⟩
    | user q stack page heap₁ pages₁ pages₂ pages₃ hMode hq hNonzero hFound hFirst hStack hPage =>
        exact absurd ⟨hq, hNonzero, fun _ => hFound⟩ hComplete
    | kernel q stack heap₁ pages₁ pages₂ hMode hq hNonzero hFound hStack =>
        exact absurd ⟨hq, hNonzero, fun h => absurd h hMode⟩ hComplete

/-- With frames to draw one of them is withheld in the end. -/
theorem failed_withholds (hMap : Intact boot (heapMap s).entries)
    (hDrawn : vm.pmm = heapMap s ∨ vm.pmm = (allocate 4096 (heapMap s)).2)
    (hFits : ¬Fails 4096 (heapMap s).entries)
    (hFailed : StackFails ptr vm vm') :
    Intact boot vm'.pmm.entries ∧ ∃ e, Withheld (heapMap s).entries vm'.pmm.entries e := by
  have hHeap : Drawn boot (heapMap s).entries vm.pmm.entries := by
    rcases hDrawn with hSame | hTable
    · rw [hSame]
      exact Drawn.refl hMap
    · rw [hTable]
      exact allocate_drawn hMap
  rcases hFailed with hStack | ⟨stack, vm₂, vm₃, hNonzero, hStack, hPage, hBack⟩
  · obtain ⟨hRange, hFrame⟩ := allocatePagesContig_draws (by decide) hHeap.intact hStack
    refine ⟨hRange.intact, ?_⟩
    rcases hDrawn with hSame | hTable
    · obtain ⟨e, hHeld⟩ := hFrame (by rwa [hSame])
      exact ⟨e, hHeld.earlier hHeap⟩
    · -- the frame of the page table for the heap
      obtain ⟨e, hHeld⟩ := allocate_withholds hFits
      rw [← hTable] at hHeld
      exact ⟨e, hHeld.drawn hRange⟩
  · obtain ⟨e, d, hne, he, hd⟩ :=
      allocatePagesContig_two (by decide) hHeap.intact hStack hNonzero
    obtain ⟨hRange, -⟩ := allocatePagesContig_draws (by decide) hHeap.intact hStack
    have hUser := (allocate_drawn hRange.intact).trans (allocatePage_drawn hRange.intact hPage)
    exact freePage_one_stays hUser.intact hBack ((he.earlier hHeap).drawn hUser)
      ((hd.earlier hHeap).drawn hUser) hne

/-- Without a frame behind the heap's page the call changes nothing but the heap. -/
theorem failed_same (hFails : Fails 4096 (heapMap s).entries)
    (hDrawn : vm.pmm = heapMap s ∨ vm.pmm = (allocate 4096 (heapMap s)).2)
    (hFailed : StackFails ptr vm vm') :
    vm'.pmm.entries = (heapMap s).entries ∧ ∀ p, entryWord vm' p = entryWord vm p := by
  have hEntries : vm.pmm.entries = (heapMap s).entries := by
    rcases hDrawn with hSame | hTable
    · rw [hSame]
    · rw [hTable]
      exact (allocate_fails hFails).2
  rw [← hEntries] at hFails ⊢
  rcases hFailed with hStack | ⟨stack, vm₂, vm₃, hNonzero, hStack, -⟩
  · obtain ⟨-, hSame, hMem, hDirectory⟩ := allocatePagesContig_none (by decide) hFails hStack
    exact ⟨hSame, fun p =>
      entryWord_congr (sameTable_of_eq (by rw [hDirectory])) fun _ x _ _ => by rw [hMem]⟩
  · exact absurd (allocatePagesContig_none (by decide) hFails hStack).1 hNonzero

/-- The page that `allocate_page` returns to the heap. -/
theorem heapPage_fresh {page flag : Nat} {pmm : Table} (h : Healthy boot s pages listed lost)
    (hNeeds : NeedsPage s.heap sizeofProcess) (hSome : (allocate 4096 pmm).1 ≠ 0)
    (hPage : allocatePage ptr flag { s.pages with pmm := pmm } = some (page, vm)) :
    Fresh pages page := by
  rw [allocatePage_some hSome] at hPage
  obtain ⟨vm₁, -, hEq⟩ := Option.map_eq_some_iff.mp hPage
  cases hEq
  rw [takeVirtual_fst, takeVirtual_fst]
  exact h.fresh hNeeds

/-- **Without a page for the heap** the control block stays taken. -/
theorem failed_block {entry mode : Nat} (h : Healthy boot s pages listed lost)
    (hNeeds : NeedsPage s.heap sizeofProcess) (hZero : (allocate 4096 s.pages.pmm).1 = 0)
    (hCall : createProcess (paging ptr) entry mode s = some (0, s'))
    (hBlock : kmalloc (allocatePage ptr) sizeofProcess presentWrite s.heap s.pages =
      some (pro, heap, vm)) :
    (blockAt s'.heap.mem (pro - sizeofBlock)).type = 2 := by
  have hPage : ∀ page vm₂, allocatePage ptr (flagsOf presentWrite)
      { s.pages with pmm := (allocate 4096 s.pages.pmm).2 } = some (page, vm₂) →
      page + sizeofBlock < 2 ^ 32 := by
    intro page vm₂ hPage
    by_cases hNone : (allocate 4096 (allocate 4096 s.pages.pmm).2).1 = 0
    · rw [allocatePage_none hNone] at hPage
      cases hPage
      decide
    · have hEnd := (heapPage_fresh h hNeeds hNone hPage).2.1
      unfold pageSize at hEnd
      unfold sizeofBlock
      omega
  obtain ⟨hNonzero, hTaken, hFound⟩ := kmalloc_made_up (by decide) (by decide) hNeeds
    (heapHead_lt h.heap) (allocatePage_none hZero) hPage hBlock
  obtain ⟨-, hFree, -⟩ := createProcess_null hCall hBlock hNonzero
  rw [hFound _ hFree]
  exact hTaken

/-- **What a failed `create_process` undoes.**  Everything, exactly if its stack fails
at the first frame. -/
theorem createProcess_undone_iff {entry mode : Nat} (h : Healthy boot s pages listed lost)
    (hCall : createProcess (paging ptr) entry mode s = some (0, s'))
    (hBlock : kmalloc (allocatePage ptr) sizeofProcess presentWrite s.heap s.pages =
      some (pro, heap, vm)) :
    Undone s s' pro vm ↔ NothingToDraw s := by
  by_cases hSome : NeedsPage s.heap sizeofProcess → (allocate 4096 s.pages.pmm).1 ≠ 0
  · obtain ⟨hPages, pages', listed', lost', b, hL, hb, rfl, hAddr⟩ :=
      kmalloc_listed (by decide) (by decide) h.heap
        (fun page vm₁ hNeeds hPage => heapPage_fresh h hNeeds (hSome hNeeds) hPage) hBlock
    obtain ⟨hMap, hDrawn⟩ := heap_draws h hSome hPages
    obtain ⟨hKernel, hFree, hFailed⟩ :=
      createProcess_null hCall hBlock (by unfold sizeofBlock; omega)
    constructor
    · intro hUndone
      refine ⟨hSome, ?_⟩
      by_contra hFits
      obtain ⟨hIntact, e, hHeld⟩ := failed_withholds hMap hDrawn hFits hFailed
      obtain ⟨hBefore, hAfter⟩ := hHeld.missing hIntact
      exact hAfter (hUndone.frames e.base hBefore)
    · intro hNone
      obtain ⟨hSame, hWords⟩ := failed_same hNone.2 hDrawn hFailed
      refine
        { frames := fun x hx => by rwa [hSame]
          pages := fun p _ _ => hWords p
          block := ?_
          list := by rw [hKernel]
          number := by rw [hKernel] }
      rw [Nat.add_sub_cancel]
      exact kfree_listed hL hb hAddr hFree
  · refine iff_of_false (fun hUndone => ?_) fun hNone => hSome hNone.1
    obtain ⟨hNeeds, hZero⟩ : NeedsPage s.heap sizeofProcess ∧
        (allocate 4096 s.pages.pmm).1 = 0 := by
      rwa [Classical.not_imp, not_not] at hSome
    have hTaken := failed_block h hNeeds hZero hCall hBlock
    rw [hUndone.block] at hTaken
    exact absurd hTaken (by decide)

end Draws

/-! ## A machine that runs out -/

/-- The machine before its first process, with the given memory map. -/
def machine (es : List MemoryMap) : System Vm where
  kernel := pcStart.kernel
  heap := pcStart.heap
  pages := boot image (Table.ofList es) (fun _ => 0) fun _ => 0

/-- The given number of frames from 1 MiB on. -/
def frames (count : Nat) : List MemoryMap :=
  [{ base := 0x100000, length := count * 4096, type := 1, acpi := 1 }]

theorem machine_healthy : Healthy (frames 1) (machine (frames 1)) [] [] [] where
  map := Intact.start (by decide) (by decide) (by decide) (by decide)
  heap := (KmallocLedger.ledger_start _).layout
  fresh _ := by
    have hPage : (takeVirtual (machine (frames 1)).pages).1 = 0x26000 := rfl
    rw [hPage]
    decide

/-- One frame, which the heap gets. -/
theorem createProcess_undone_iff_one :
    ∃ pro heap vm s',
      kmalloc (allocatePage direct) sizeofProcess presentWrite (machine (frames 1)).heap
        (machine (frames 1)).pages = some (pro, heap, vm) ∧
      createProcess (paging direct) 0x10A00 processKernel (machine (frames 1)) = some (0, s') ∧
      Undone (machine (frames 1)) s' pro vm := by
  have hView : ((kmalloc (allocatePage direct) sizeofProcess presentWrite
        (machine (frames 1)).heap (machine (frames 1)).pages).isSome &&
      (createProcess (paging direct) 0x10A00 processKernel (machine (frames 1))).any fun r =>
        decide (r.1 = 0)) = true := by decide +kernel
  rw [Bool.and_eq_true] at hView
  obtain ⟨⟨pro, heap, vm⟩, hBlock⟩ := Option.isSome_iff_exists.mp hView.1
  obtain ⟨⟨r, s'⟩, hCall, hNull⟩ := (Option.any_eq_true _ _).mp hView.2
  obtain rfl : r = 0 := of_decide_eq_true hNull
  exact ⟨pro, heap, vm, s', hBlock, hCall,
    (createProcess_undone_iff machine_healthy hCall hBlock).mpr (by decide +kernel)⟩

/-- The byte is not given back, or the control block is not. -/
def Missed (s s' : System Vm) (pro x : Nat) : Prop :=
  Usable (heapMap s).entries x ∧ ¬Usable s'.pages.pmm.entries x ∨
    (blockAt s'.heap.mem (pro - sizeofBlock)).type ≠ 1

instance (s s' : System Vm) (pro x : Nat) : Decidable (Missed s s' pro x) := by
  unfold Missed
  infer_instance

theorem Missed.not_undone {s s' : System Vm} {pro x : Nat} {vm : Vm} (h : Missed s s' pro x) :
    ¬Undone s s' pro vm := by
  intro hUndone
  rcases h with ⟨hBefore, hAfter⟩ | hTaken
  · exact hAfter (hUndone.frames x hBefore)
  · exact hTaken hUndone.block

/-- The call fails and something is missed. -/
def Leaves (s : System Vm) (mode : Nat) : Prop :=
  ∃ pro heap vm s',
    kmalloc (allocatePage direct) sizeofProcess presentWrite s.heap s.pages =
      some (pro, heap, vm) ∧
    createProcess (paging direct) 0x10A00 mode s = some (0, s') ∧ ¬Undone s s' pro vm

theorem leaves_of_missed {s : System Vm} {mode : Nat} (x : Nat)
    (hView : ((kmalloc (allocatePage direct) sizeofProcess presentWrite s.heap s.pages).any
      fun b => (createProcess (paging direct) 0x10A00 mode s).any fun c =>
        decide (c.1 = 0 ∧ Missed s c.2 b.1 x)) = true) : Leaves s mode := by
  obtain ⟨⟨pro, heap, vm⟩, hBlock, hNext⟩ := (Option.any_eq_true _ _).mp hView
  obtain ⟨⟨r, s'⟩, hCall, hSeen⟩ := (Option.any_eq_true _ _).mp hNext
  obtain ⟨rfl, hMissed⟩ := of_decide_eq_true hSeen
  exact ⟨pro, heap, vm, s', hBlock, hCall, hMissed.not_undone⟩

/-- **Failures that leave something.**  Of three frames the heap and two pages of the stack
get one each, and these two are never given back.  Of five the user stack misses one, and
one page of the kernel stack is given back.  Without a frame the control block is at
address 0 and stays taken. -/
theorem createProcess_leaves :
    Leaves (machine (frames 3)) processKernel ∧ Leaves (machine (frames 5)) processUser ∧
      Leaves (machine []) processKernel :=
  ⟨leaves_of_missed 0x101000 (by decide +kernel), leaves_of_missed 0x102000 (by decide +kernel),
    leaves_of_missed 0 (by decide +kernel)⟩

end MiniKernel.Ports.ProcessFailure
