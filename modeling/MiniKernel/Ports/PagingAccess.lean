import MiniKernel.Ports.PagingCalls
import MiniKernel.Ports.Kmalloc
import MiniKernel.Ports.PmmOwnership

/-!
# Frames that user code can reach

A page mapped without `PAGE_USER` is meant for the kernel alone: kernel stacks
and the heap pages with the process structures.  The processor lets user code
through wherever the directory entry and the table entry both carry the flag,
whatever the page, so a frame is safe only if no page with the flag maps to it.

`build_first_page` gives the flag to all of the first 4 MiB, so a frame below
4 MiB can be reached at its own address until that page is handed out.  The
runs here are those of the page calls and of `kmalloc`; what keeps them safe is
a condition on the frame that a page is mapped to.

The headers of the heap are kept apart from physical memory.  So the calls
leave the pages of the heap and their frames alone, as they do the memory of
the kernel itself.
-/

namespace MiniKernel.Ports.PagingAccess

open MiniKernel.Verified.ByteMemory
open MiniKernel.Verified.Links
open MiniKernel.Verified.PageWords
open MiniKernel.Verified.Trace
open MiniKernel.Ports.Pmm
open MiniKernel.Ports.Paging
open MiniKernel.Ports.PagingTables
open MiniKernel.Ports.PagingSparing
open MiniKernel.Ports.PagingIdentity hiding Event step
open MiniKernel.Ports.PagingCalls
open MiniKernel.Ports.Kmalloc

/-- The entry lets user code through. -/
def UserWord (word : Nat) : Prop := ¬word &&& pageUser = 0

instance (word : Nat) : Decidable (UserWord word) := inferInstanceAs (Decidable (¬_))

/-- The page is mapped, and not for users. -/
def KernelPage (vm : Vm) (p : Nat) : Prop :=
  Present (entryWord vm p) ∧ ¬UserWord (entryWord vm p)

/-- User code reaches the page: both entries are present and carry the flag. -/
def UserPage (vm : Vm) (p : Nat) : Prop :=
  Present (entryWord vm p) ∧ UserWord (vm.pageDirectory (p / 1024)) ∧ UserWord (entryWord vm p)

instance (vm : Vm) (p : Nat) : Decidable (KernelPage vm p) := inferInstanceAs (Decidable (_ ∧ _))

instance (vm : Vm) (p : Nat) : Decidable (UserPage vm p) := inferInstanceAs (Decidable (_ ∧ _))

/-! ## Calls -/

/-- The page calls, and `kmalloc`, which makes some of its own. -/
inductive Event
  | pages (e : PagingIdentity.Event)
  | kmalloc (size flag : Nat)
  deriving Repr, DecidableEq

/-- The heap, and virtual memory under it. -/
structure State where
  heap : Heap
  vm : Vm

/-- One call. -/
def step (s : State) : Event → Option State
  | .pages e => (PagingIdentity.step s.vm e).map fun vm => { s with vm := vm }
  | .kmalloc size flag =>
      if flag < 2 ^ 32 then
        (kmalloc (allocatePage pageWalk) size flag s.heap s.vm).map fun r =>
          { heap := r.2.1, vm := r.2.2 }
      else none

/-! ## Which frames a page may have -/

/-- The other pages that map to the frame of the word give the same access as
the word.  It is enough to look at the page of the frame's own address, which
the identity map may still map to it, and at `pages`. -/
def Matches (pages : List Nat) (page word : Nat) (vm : Vm) : Prop :=
  Present word → ∀ q ∈ pageOf (frameOf word) :: pages, q ≠ page →
    Present (entryWord vm q) → frameOf (entryWord vm q) = frameOf word →
      (UserWord (entryWord vm q) ↔ UserWord word)

instance (pages : List Nat) (page word : Nat) (vm : Vm) :
    Decidable (Matches pages page word vm) :=
  inferInstanceAs (Decidable (_ → ∀ q ∈ _, _))

/-- A block of the heap lies in the page. -/
def InHeap (h : Heap) (page : Nat) : Prop :=
  seek h.next (fun b => pageOf b == page) 0 addresses h.heapHead ≠ some 0

/-- No page of the heap maps to the frame. -/
def HeapApart (pages : List Nat) (h : Heap) (frame : Nat) (vm : Vm) : Prop :=
  ∀ q ∈ pages, InHeap h q → Present (entryWord vm q) → frameOf (entryWord vm q) ≠ frame

/-- `map_page` for one of `pages` outside the heap, to a frame with the same access; a
new table is not at a frame of the heap. -/
def MapPrivate (pages : List Nat) (h : Heap) (physical virtual flags : Nat) (vm : Vm) : Prop :=
  MapOk physical virtual flags vm ∧ pageOf virtual ∈ pages ∧
    Matches pages (pageOf virtual) (frameOf physical ||| flags) vm ∧
    ¬InHeap h (pageOf virtual) ∧
    (¬HasTable vm (pageOf virtual / 1024) → (allocate 4096 vm.pmm).1 ≠ 0 →
      HeapApart pages h (allocate 4096 vm.pmm).1 vm)

/-- `map_page` for the heap: besides, the frame is not the kernel's own, nor that of a
table or of another page of the heap. -/
def HeapPrivate (layout : Layout) (pages : List Nat) (h : Heap) (physical virtual flags : Nat)
    (vm : Vm) : Prop :=
  let frame := frameOf (frameOf physical ||| flags)
  MapPrivate pages h physical virtual flags vm ∧ ¬OwnFrame layout (pageOf frame) ∧
    (∀ d < 1024, HasTable vm d → tableOf vm d ≠ frame) ∧
    (¬HasTable vm (pageOf virtual / 1024) → (allocate 4096 vm.pmm).1 ≠ frame) ∧
    HeapApart pages h frame vm

/-- `free_page` is applied neither to a table nor to a page of the heap. -/
def FreePrivate (h : Heap) (addr : Nat) (vm : Vm) : Prop :=
  FreeOk addr vm ∧ ¬InHeap h (pageOf addr)

instance (h : Heap) (page : Nat) : Decidable (InHeap h page) :=
  inferInstanceAs (Decidable (¬_))

instance (pages : List Nat) (h : Heap) (frame : Nat) (vm : Vm) :
    Decidable (HeapApart pages h frame vm) :=
  inferInstanceAs (Decidable (∀ q ∈ _, _))

instance (pages : List Nat) (h : Heap) (physical virtual flags : Nat) (vm : Vm) :
    Decidable (MapPrivate pages h physical virtual flags vm) :=
  inferInstanceAs (Decidable (_ ∧ _))

instance (layout : Layout) (pages : List Nat) (h : Heap) (physical virtual flags : Nat) (vm : Vm) :
    Decidable (HeapPrivate layout pages h physical virtual flags vm) :=
  inferInstanceAs (Decidable (_ ∧ _))

instance (h : Heap) (addr : Nat) (vm : Vm) : Decidable (FreePrivate h addr vm) :=
  inferInstanceAs (Decidable (_ ∧ _))

/-- Pages that share a frame give the same access, and a page outside `pages`
translates to itself if it does at all. -/
structure Private (pages : List Nat) (vm : Vm) : Prop where
  same : ∀ p q, p < 2 ^ 20 → q < 2 ^ 20 → Present (entryWord vm p) → Present (entryWord vm q) →
    frameOf (entryWord vm p) = frameOf (entryWord vm q) →
      (UserWord (entryWord vm p) ↔ UserWord (entryWord vm q))
  own : ∀ q, q < 2 ^ 20 → Present (entryWord vm q) →
    q ∈ pages ∨ frameOf (entryWord vm q) = q * 4096

variable {pages : List Nat} {vm vm' : Vm}

theorem Private.congr (h : Private pages vm) (hWords : ∀ q, entryWord vm' q = entryWord vm q) :
    Private pages vm' where
  same p q hp hq := by
    rw [hWords, hWords]
    exact h.same p q hp hq
  own q hq := by
    rw [hWords]
    exact h.own q hq

/-- A page the new word could be mistaken for is one that was looked at. -/
theorem Matches.of_private {page word q : Nat} (h : Private pages vm)
    (hMatches : Matches pages page word vm) (hWord : Present word) (hq : q < 2 ^ 20)
    (hne : q ≠ page) (hPresent : Present (entryWord vm q))
    (hFrame : frameOf (entryWord vm q) = frameOf word) :
    UserWord (entryWord vm q) ↔ UserWord word := by
  refine hMatches hWord q ?_ hne hPresent hFrame
  rcases h.own q hq hPresent with hIn | hOwn
  · exact List.mem_cons_of_mem _ hIn
  · have hPage : q = pageOf (frameOf word) := by
      rw [← hFrame, hOwn]
      unfold pageOf
      omega
    exact hPage ▸ List.mem_cons_self

/-- **One edit.** -/
theorem Private.edit {page word : Nat} (h : Private pages vm) (hPage : Present word → page ∈ pages)
    (hMatches : Matches pages page word vm) (hEdits : Edits vm vm' page word) :
    Private pages vm' := by
  constructor
  · intro p q hp hq hPresent hPresent' hFrame
    rcases hEdits p hp with hOld | ⟨rfl, hNew⟩ <;> rcases hEdits q hq with hOld' | ⟨hEq, hNew'⟩
    · rw [hOld] at hPresent hFrame ⊢
      rw [hOld'] at hPresent' hFrame ⊢
      exact h.same p q hp hq hPresent hPresent' hFrame
    · by_cases hne : p = page
      · rw [hne, hEq]
      · rw [hOld] at hPresent hFrame ⊢
        rw [hNew'] at hPresent' hFrame ⊢
        exact hMatches.of_private h hPresent' hp hne hPresent hFrame
    · by_cases hne : q = p
      · rw [hne]
      · rw [hNew] at hPresent hFrame ⊢
        rw [hOld'] at hPresent' hFrame ⊢
        exact (hMatches.of_private h hPresent hq hne hPresent' hFrame.symm).symm
    · rw [hEq]
  · intro q hq hPresent
    rcases hEdits q hq with hOld | ⟨rfl, hNew⟩
    · rw [hOld] at hPresent ⊢
      exact h.own q hq hPresent
    · exact Or.inl (hPage (hNew ▸ hPresent))

theorem private_invariant (pages : List Nat) (heap : Heap) :
    WordInvariant (MapPrivate pages heap) (FreePrivate heap) (Private pages) where
  mapOk h := h.1
  freeOk h := h.1
  map h hOk hEdits := h.edit (fun _ => hOk.2.1) hOk.2.2.1 hEdits
  free h _ hEdits := h.edit (fun h0 => absurd h0 (by decide)) (fun h0 => absurd h0 (by decide)) hEdits
  congr h hMem hDirectory := h.congr fun _ =>
    entryWord_congr (sameTable_of_eq (by rw [hDirectory])) fun _ x _ _ => by rw [hMem]

/-! ## Runs -/

/-- There is a frame, and `ok` at the `map_page` of `allocate_page`. -/
def Granted (ok : Nat → Nat → Nat → Vm → Prop) (flag : Nat) (vm : Vm) : Prop :=
  (allocate 4096 vm.pmm).1 ≠ 0 ∧ PageMeets ok flag vm

/-- `ok` at every `map_page` that `kmalloc` makes: for the first page of the heap,
and for another page when no block fits. -/
def KmallocMeets (ok : Heap → Nat → Nat → Nat → Vm → Prop) (size flag : Nat) (s : State) : Prop :=
  let flag := if flag = 0 then presentWrite else flag
  size ≤ pageSize → size ≠ 0 →
    (s.heap.heapHead = 0 → Granted (ok s.heap) flag s.vm) ∧
    ∀ r ∈ firstPage (allocatePage pageWalk) flag s.heap s.vm,
      bestFit r.1 size = some 0 → Granted (ok r.1) flag r.2

/-- `kmalloc` leaves the kernel's own memory alone. -/
def KmallocSpares (layout : Layout) (size flag : Nat) (s : State) : Prop :=
  (kmalloc (allocatePage pageWalk) size flag s.heap s.vm).isSome →
    (kmalloc (allocatePage (sparing layout pageWalk)) size flag s.heap s.vm).isSome

/-- Every page the call maps gets a frame with the same access, and the call leaves the
heap and the kernel's own memory where they are. -/
def Shielded (layout : Layout) (pages : List Nat) (s : State) : Event → Prop
  | .pages e =>
      Calls (MapPrivate pages s.heap) (FreePrivate s.heap) s.vm e ∧ Spares layout pageWalk s.vm e
  | .kmalloc size flag =>
      KmallocMeets (HeapPrivate layout pages) size flag s ∧ KmallocSpares layout size flag s

instance (ok : Nat → Nat → Nat → Vm → Prop)
    [∀ physical virtual flags vm, Decidable (ok physical virtual flags vm)] (flag : Nat)
    (vm : Vm) : Decidable (Granted ok flag vm) :=
  inferInstanceAs (Decidable (_ ∧ _))

instance (ok : Heap → Nat → Nat → Nat → Vm → Prop)
    [∀ h physical virtual flags vm, Decidable (ok h physical virtual flags vm)] (size flag : Nat)
    (s : State) : Decidable (KmallocMeets ok size flag s) := by
  unfold KmallocMeets
  infer_instance

instance (layout : Layout) (size flag : Nat) (s : State) :
    Decidable (KmallocSpares layout size flag s) :=
  inferInstanceAs (Decidable (_ → _))

instance (layout : Layout) (pages : List Nat) (s : State) :
    (e : Event) → Decidable (Shielded layout pages s e)
  | .pages _ => inferInstanceAs (Decidable (_ ∧ _))
  | .kmalloc .. => inferInstanceAs (Decidable (_ ∧ _))

/-- The tables are in place and the words are private. -/
structure Sheltered (pages : List Nat) (vm : Vm) : Prop where
  identity : Identity vm
  bounded : Bounded vm
  words : Private pages vm

theorem Sheltered.allocatePage {layout : Layout} {heap : Heap} {flag v : Nat}
    (h : Sheltered pages vm) (hFlag : flag < 2 ^ 32)
    (hOk : Granted (HeapPrivate layout pages heap) flag vm)
    (hCall : Paging.allocatePage pageWalk flag vm = some (v, vm')) : Sheltered pages vm' := by
  obtain ⟨hWords, hIdentity, hBounded⟩ := (private_invariant pages heap).allocatePage h.identity
    h.bounded hFlag (fun hSome => (hOk.2 hSome).1) h.words hCall
  exact ⟨hIdentity, hBounded, hWords⟩

/-- **`kmalloc`** keeps what `allocate_page` keeps. -/
theorem Sheltered.kmalloc {layout : Layout} {s : State} {size flag r : Nat} {heap : Heap}
    (h : Sheltered pages s.vm) (hFlag : flag < 2 ^ 32)
    (hOk : KmallocMeets (HeapPrivate layout pages) size flag s)
    (hCall : Kmalloc.kmalloc (Paging.allocatePage pageWalk) size flag s.heap s.vm =
      some (r, heap, vm')) :
    Sheltered pages vm' := by
  unfold KmallocMeets at hOk
  unfold Kmalloc.kmalloc at hCall
  by_cases hSize : pageSize < size ∨ size = 0
  · simp only [if_pos hSize] at hCall
    cases hCall
    exact h
  · simp only [if_neg hSize] at hCall
    have hFlags : (if flag = 0 then presentWrite else flag) < 2 ^ 32 := by
      split
      · decide
      · exact hFlag
    generalize (if flag = 0 then presentWrite else flag) = flags at *
    obtain ⟨⟨heap₁, vm₁⟩, hFirst, hRest⟩ := Option.bind_eq_some_iff.mp hCall
    obtain ⟨⟨best, heap₂, vm₂⟩, hChoose, hEq⟩ := Option.map_eq_some_iff.mp hRest
    cases hEq
    obtain ⟨hHeadOk, hNoneOk⟩ := hOk (by omega) (by omega)
    -- the page of an empty heap
    have h₁ : Sheltered pages vm₁ := by
      unfold firstPage at hFirst
      split at hFirst
      · next hEmpty =>
          obtain ⟨⟨page, vm₃⟩, hPage, hEq⟩ := Option.map_eq_some_iff.mp hFirst
          cases hEq
          exact h.allocatePage hFlags (hHeadOk hEmpty) hPage
      · cases hFirst
        exact h
    -- the page for a request that no block fits
    unfold chooseBlock at hChoose
    obtain ⟨found, hFound, hTake⟩ := Option.bind_eq_some_iff.mp hChoose
    split at hTake
    · next hNone =>
        obtain ⟨⟨page, vm₃⟩, hPage, hEq⟩ := Option.map_eq_some_iff.mp hTake
        cases hEq
        exact h₁.allocatePage hFlags (hNoneOk _ hFirst (hNone ▸ hFound)) hPage
    · cases hTake
      exact h₁

/-- **One shielded call.** -/
theorem step_sheltered (layout : Layout) (s : State) (e : Event) (s' : State)
    (h : Sheltered pages s.vm) (hOk : Shielded layout pages s e) (hStep : step s e = some s') :
    Sheltered pages s'.vm := by
  cases e with
  | pages e =>
      obtain ⟨vm, hCall, rfl⟩ := Option.map_eq_some_iff.mp hStep
      obtain ⟨hWords, hIdentity, hBounded⟩ := (private_invariant pages s.heap).step h.identity
        h.bounded hOk.1 h.words hCall
      exact ⟨hIdentity, hBounded, hWords⟩
  | kmalloc size flag =>
      obtain ⟨hFlag, hStep⟩ := Option.ite_none_right_eq_some.mp hStep
      obtain ⟨⟨r, heap, vm⟩, hCall, rfl⟩ := Option.map_eq_some_iff.mp hStep
      exact h.kmalloc hFlag hOk.1 hCall

/-- The heap is empty and paging has just been turned on. -/
def start (layout : Layout) (pmm : Table) (mem heapMem : Mem) (freeVirtual : Nat → Nat) : State where
  heap := { mem := heapMem, heapHead := 0, currentBlock := 0 }
  vm := boot layout pmm mem freeVirtual

theorem start_sheltered (layout : Layout) (pmm : Table) (mem heapMem : Mem)
    (freeVirtual : Nat → Nat) :
    Sheltered pages (start layout pmm mem heapMem freeVirtual).vm := by
  have hLow : ∀ q, Present (entryWord (boot layout pmm mem freeVirtual) q) →
      frameOf (entryWord (boot layout pmm mem freeVirtual) q) = q * 4096 := by
    intro q hPresent
    have hFirst := (boot_hasTable layout pmm mem freeVirtual).mp (entryWord_present hPresent)
    exact (boot_identity layout pmm mem freeVirtual (by omega)).2
  refine ⟨(boot_invariant ..).1, (boot_invariant ..).2, ?_, fun q _ hPresent => Or.inr ?_⟩
  · intro p q _ _ hPresent hPresent' hFrame
    have hp := hLow p hPresent
    have hq := hLow q hPresent'
    have hEq : p = q := by
      simp only [start] at hFrame
      omega
    rw [hEq]
  · exact hLow q hPresent

/-- A map whose usable memory begins at 4 MiB. -/
def highMap : Table := Table.ofList
  [ { base := 0, length := 0x400000, type := 2, acpi := 1 }
  , { base := 0x400000, length := 0x10000, type := 1, acpi := 1 } ]

end MiniKernel.Ports.PagingAccess
