import MiniKernel.Ports.KmallocRuns
import MiniKernel.Ports.Paging

/-!
# A heap without pages

`allocate_page` returns `0` when there is no frame, and `kmalloc` takes that for the
address of a page.  It writes a header at address 0, links the "page" behind
`current_block`, and returns the nine bytes behind it, so that the caller's test for
`NULL` never sees the failure.

`failure_not_reported` says so for every heap and every request that needs a page.
-/

namespace MiniKernel.Ports.KmallocFailure

open MiniKernel.Verified.Links
open MiniKernel.Verified.Trace
open MiniKernel.Ports.Kmalloc

universe u

variable {σ : Type u} {A : Nat → σ → Option (Nat × σ)} {h h₁ : Heap} {size flag : Nat} {s s₁ : σ}

/-- The flags that `kmalloc` asks `allocate_page` for. -/
def flagsOf (flag : Nat) : Nat := if flag = 0 then presentWrite else flag

/-- `kmalloc` needs a page: it has none, or no block fits. -/
def NeedsPage (h : Heap) (size : Nat) : Prop := h.heapHead = 0 ∨ bestFit h size = some 0

/-- The loop over an empty list. -/
theorem bestFit_empty (hEmpty : h.heapHead = 0) (size : Nat) : bestFit h size = some 0 := by
  have hNil : Linked h.next h.heapHead [] := linked_nil.mpr hEmpty
  obtain ⟨best, hBest, ⟨rfl, -⟩ | ⟨-, hIn, -⟩⟩ := bestFit_spec size hNil (show 0 < addresses by decide)
  · exact hBest
  · cases hIn

/-- A page at address 0 for an empty heap: the heap stays empty, its header is written. -/
theorem firstPage_zero (hEmpty : h.heapHead = 0) (hFail : A flag s = some (0, s₁)) :
    firstPage A flag h s =
      some ({ mem := initPage h.mem 0, heapHead := 0, currentBlock := 0 }, s₁) := by
  rw [firstPage, if_pos hEmpty, hFail, Option.map_some]

/-- A page at address 0 behind `current_block`. -/
theorem chooseBlock_zero (hNone : bestFit h size = some 0) (hFail : A flag s = some (0, s₁)) :
    chooseBlock A flag size h s =
      some (0, { h with mem := setNext (initPage h.mem 0) h.currentBlock 0, currentBlock := 0 },
        s₁) := by
  rw [chooseBlock, hNone, Option.bind_some, if_pos rfl, appendPage, hFail, Option.map_some]

/-- **No block fits and there is no page.**  The list ends at `current_block` now, and
the caller gets address 9. -/
theorem kmalloc_full (hPos : 0 < size) (hSize : size ≤ pageSize) (hHead : h.heapHead ≠ 0)
    (hNone : bestFit h size = some 0) (hFail : A (flagsOf flag) s = some (0, s₁)) :
    kmalloc A size flag h s =
      some (sizeofBlock,
        { h with
          mem := takeBlock (setNext (initPage h.mem 0) h.currentBlock 0) 0 size
          currentBlock := 0 }, s₁) := by
  have hFirst : firstPage A (flagsOf flag) h s = some (h, s) := if_neg hHead
  unfold kmalloc
  rw [if_neg (by omega)]
  change ((firstPage A (flagsOf flag) h s).bind _) = _
  rw [hFirst, Option.bind_some]
  change Option.map _ (chooseBlock A (flagsOf flag) size h s) = _
  rw [chooseBlock_zero hNone hFail, Option.map_some]
  rfl

/-- **The first page is not there.**  The header goes to address 0, and then a second
page is asked for. -/
theorem kmalloc_empty (hPos : 0 < size) (hSize : size ≤ pageSize) (hEmpty : h.heapHead = 0)
    (hFail : A (flagsOf flag) s = some (0, s₁)) :
    kmalloc A size flag h s = (A (flagsOf flag) s₁).map fun r =>
      ((r.1 + sizeofBlock) % 2 ^ 32,
        { mem := takeBlock (setNext (initPage (initPage h.mem 0) r.1) 0 r.1) r.1 size
          heapHead := 0
          currentBlock := r.1 }, r.2) := by
  unfold kmalloc
  rw [if_neg (by omega)]
  change ((firstPage A (flagsOf flag) h s).bind _) = _
  have hNone : bestFit { mem := initPage h.mem 0, heapHead := 0, currentBlock := 0 } size =
      some 0 := bestFit_empty rfl size
  rw [firstPage_zero hEmpty hFail, Option.bind_some]
  change Option.map _ (chooseBlock A (flagsOf flag) size _ s₁) = _
  rw [chooseBlock, hNone, Option.bind_some, if_pos rfl, appendPage, Option.map_map]
  rfl

/-- **A failure of `allocate_page` is never reported**: a request that needs a page and
gets `0` for it is not answered with `0`. -/
theorem failure_not_reported (hPos : 0 < size) (hSize : size ≤ pageSize)
    (hNeeds : NeedsPage h size) (hFail : A (flagsOf flag) s = some (0, s₁))
    (hPage : ∀ page s₂, A (flagsOf flag) s₁ = some (page, s₂) → pageSize ∣ page) :
    ∀ h' s', kmalloc A size flag h s ≠ some (0, h', s') := by
  intro h' s' hRun
  by_cases hEmpty : h.heapHead = 0
  · rw [kmalloc_empty hPos hSize hEmpty hFail] at hRun
    obtain ⟨⟨page, s₂⟩, hCall, hEq⟩ := Option.map_eq_some_iff.mp hRun
    obtain ⟨k, rfl⟩ := hPage page s₂ hCall
    have hZero : (pageSize * k + sizeofBlock) % 2 ^ 32 = 0 := congrArg Prod.fst hEq
    unfold pageSize sizeofBlock at hZero
    omega
  · have hNone : bestFit h size = some 0 := hNeeds.resolve_left hEmpty
    rw [kmalloc_full hPos hSize hEmpty hNone hFail] at hRun
    have hZero : sizeofBlock = 0 := congrArg Prod.fst (Option.some.inj hRun)
    exact absurd hZero (by decide)

/-- `allocate_page` without a frame. -/
theorem allocatePage_none {ptr : Paging.Vm → Nat → Option Nat} {flag : Nat} {vm : Paging.Vm}
    (h : (Pmm.allocate 4096 vm.pmm).1 = 0) :
    Paging.allocatePage ptr flag vm = some (0, { vm with pmm := (Pmm.allocate 4096 vm.pmm).2 }) :=
  if_pos h

/-- A machine without usable memory. -/
def noMemory : Paging.Vm :=
  Paging.boot Paging.image (Pmm.Table.ofList []) (fun _ => 0) fun _ => 0

/-- A heap without a page. -/
def noHeap : Heap := { mem := fun _ => 0, heapHead := 0, currentBlock := 0 }

/-- The first `kmalloc` on such a machine. -/
theorem failure_not_reported_noMemory :
    NeedsPage noHeap 48 ∧
      ∀ h' vm', kmalloc (Paging.allocatePage Paging.pageWalk) 48 0 noHeap noMemory ≠
        some (0, h', vm') := by
  have hPmm : Pmm.allocate 4096 noMemory.pmm = (0, noMemory.pmm) := by
    unfold Pmm.allocate
    rfl
  have hFail (flag : Nat) : Paging.allocatePage Paging.pageWalk flag noMemory =
      some (0, noMemory) := by
    rw [allocatePage_none (by rw [hPmm]), hPmm]
  refine ⟨Or.inl rfl, failure_not_reported (by decide) (by decide) (Or.inl rfl) (hFail _) ?_⟩
  intro page vm₂ hCall
  rw [hFail] at hCall
  cases hCall
  exact Nat.dvd_zero _

/-- An `allocate_page` that always fails. -/
def noPage (_flag : Nat) (u : Unit) : Option (Nat × Unit) := some (0, u)

/-- **A heap that runs out.**  After a first block of 100 bytes there is no page for 4000:
the caller gets address 9, and the block behind `current_block` is off the list. -/
theorem failure_corrupts :
    ∃ s h' u, exec KmallocRuns.step (KmallocRuns.start fun _ => 0)
        [.kmalloc 100 0 [0x100000]] = some s ∧
      NeedsPage s.heap 4000 ∧ Linked s.heap.next s.heap.heapHead [0x100000, 0x10006D] ∧
      kmalloc noPage 4000 0 s.heap () = some (9, h', u) ∧
      h'.currentBlock = 0 ∧ Linked h'.next h'.heapHead [0x100000] ∧
      blockAt h'.mem 0 = ⟨4000, 2, 4009⟩ := by
  have hView : (exec KmallocRuns.step (KmallocRuns.start fun _ => 0)
      [.kmalloc 100 0 [0x100000]]).any (fun s =>
        (kmalloc noPage 4000 0 s.heap ()).any fun r => decide
          ((bestFit s.heap 4000 = some 0 ∧
              Linked s.heap.next s.heap.heapHead [0x100000, 0x10006D]) ∧ r.1 = 9 ∧
            r.2.1.currentBlock = 0 ∧ Linked r.2.1.next r.2.1.heapHead [0x100000] ∧
            blockAt r.2.1.mem 0 = ⟨4000, 2, 4009⟩)) = true := by
    decide +kernel
  obtain ⟨s, hRun, hNext⟩ := (Option.any_eq_true _ _).mp hView
  obtain ⟨⟨r, h', u⟩, hCall, hSeen⟩ := (Option.any_eq_true _ _).mp hNext
  obtain ⟨⟨hNone, hLinked⟩, rfl, hAfter⟩ := of_decide_eq_true hSeen
  exact ⟨s, h', u, hRun, Or.inr hNone, hLinked, hCall, hAfter⟩

end MiniKernel.Ports.KmallocFailure
