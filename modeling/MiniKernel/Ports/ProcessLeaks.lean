import MiniKernel.Ports.ProcessRemoval
import MiniKernel.Ports.PagingPinned

/-!
# What a removed process keeps

`create_process` takes four pages for the kernel stack and, in user mode, one for the
user stack.  `remove_process` calls `free_page` with the base of the kernel stack, which
is one page, and does not look at the user stack.  The other pages stay mapped and
their frames in use, and no later call of the kernel gets hold of them.

`create_remove_leaks` follows the second page of a kernel stack through any creations and
removals.  The invariant asks little of the rest of the kernel: the heap may hand out what
it likes, and the links of the process list may be in any order as long as they lead from
one control block to another.
-/

namespace MiniKernel.Ports.ProcessLeaks

open MiniKernel.Verified.Extents
open MiniKernel.Verified.Links
open MiniKernel.Verified.PageWords
open MiniKernel.Verified.Trace
open MiniKernel.Ports.Pmm
open MiniKernel.Ports.PmmOwnership (extentOf pcMap)
open MiniKernel.Ports.Paging hiding Layout stack
open MiniKernel.Ports.PagingTables
open MiniKernel.Ports.PagingRecycling (pagesFrom)
open MiniKernel.Ports.PagingFrames (frameAt KernelReserved boot_backed)
open MiniKernel.Ports.PagingDraws (Usable)
open MiniKernel.Ports.PagingPinned
open MiniKernel.Ports.Kmalloc
open MiniKernel.Ports.KmallocLedger
open MiniKernel.Ports.PageLending (PageAllocator paging)
open MiniKernel.Ports.ProcessTable
open MiniKernel.Ports.ProcessSwitch (addProcess_rest)
open MiniKernel.Ports.ProcessRemoval (unlinked_other)
open MiniKernel.Ports.SystemCalls

inductive Event
  | create (entry mode : Nat)
  | remove (pro : Nat)
  deriving Repr, DecidableEq

/-- `create_process` and `remove_process_list`. -/
def step (s : System Vm) : Event → Option (System Vm)
  | .create entry mode => (createProcess (paging direct) entry mode s).map Prod.snd
  | .remove pro => removeProcessList (paging direct) pro s

/-- A page that is freed fits into `free_virtual`, and `next_virtual` does not wrap: two
pages for the heap, four for the kernel stack and one for the user stack are the most that
is taken. -/
def Roomy (s : System Vm) (e : Event) : Prop :=
  s.pages.freeCount < maxFreePages ∧
    match e with
    | .create _ _ => s.pages.nextVirtual + 7 * 4096 < 2 ^ 32
    | .remove _ => True

instance (s : System Vm) : (e : Event) → Decidable (Roomy s e)
  | .create .. => inferInstanceAs (Decidable (_ ∧ _))
  | .remove _ => inferInstanceAs (Decidable (_ ∧ True))

/-- The pages of the stacks that `create_process` has made for a process. -/
def stackPages (mode : Nat) (k : Kernel) (p : Nat) : List Nat :=
  pagesFrom (k.processes p).kernelStack (kernelStackSize / 4096) ++
    if mode = processUser then [pageOf (k.processes p).userStack] else []

/-- What the pages of the stacks were mapped to is usable again, and they are not mapped. -/
structure GivenBack (mode p : Nat) (s s' : System Vm) : Prop where
  frames : ∀ q ∈ stackPages mode s.kernel p, Present (entryWord s.pages q) →
    ∀ x, (frameAt (frameOf (entryWord s.pages q))).Has x → Usable s'.pages.pmm.entries x
  unmapped : ∀ q ∈ stackPages mode s.kernel p, ¬Present (entryWord s'.pages q)

/-! ## The links -/

/-- The links lead from one of the control blocks to another. -/
structure Closed (k : Kernel) (created : List Nat) : Prop where
  head : k.processList = 0 ∨ k.processList ∈ created
  next : ∀ q ∈ created, k.next q = 0 ∨ k.next q ∈ created

section Links

variable {k k' : Kernel} {created : List Nat} {pro : Nat}

theorem next_modify (k : Kernel) (p v q : Nat) :
    (k.modify p fun b => { b with next := v }).next q = if q = p then v else k.next q := by
  unfold Kernel.next Kernel.modify
  by_cases hq : q = p
  · simp only [if_pos hq]
  · simp only [if_neg hq]

/-- **`add_process`** with a control block that may have been one before. -/
theorem addProcess_closed (hHead : k.processList = 0 ∨ k.processList ∈ created)
    (hNext : ∀ q ∈ created, q ≠ pro → k.next q = 0 ∨ k.next q ∈ created)
    (h : k.addProcess pro = some k') : Closed k' (pro :: created) := by
  have hAdd : ∀ {a}, a = 0 ∨ a ∈ created → a = 0 ∨ a ∈ pro :: created :=
    fun h => h.imp_right (List.mem_cons_of_mem pro)
  have hFirst : ∀ q ∈ pro :: created,
      (k.modify pro fun p => { p with next := 0 }).next q = 0 ∨
        (k.modify pro fun p => { p with next := 0 }).next q ∈ pro :: created := by
    intro q hq
    rw [next_modify]
    by_cases hEq : q = pro
    · rw [if_pos hEq]
      exact Or.inl rfl
    · rw [if_neg hEq]
      exact hAdd (hNext q ((List.mem_cons.mp hq).resolve_left hEq) hEq)
  unfold Kernel.addProcess at h
  simp only at h
  split at h
  · cases h
    exact ⟨Or.inr List.mem_cons_self, hFirst⟩
  · obtain ⟨last, -, rfl⟩ := Option.map_eq_some_iff.mp h
    refine ⟨hAdd hHead, fun q hq => ?_⟩
    rw [next_modify]
    by_cases hEq : q = last
    · rw [if_pos hEq]
      exact Or.inr List.mem_cons_self
    · rw [if_neg hEq]
      exact hFirst q hq

/-- A control block is taken off the list, wherever it is. -/
theorem unlinked_closed (h : Closed k created) {previous current : Nat}
    (hCurrent : current ∈ created) : Closed (unlinked k previous current) created := by
  unfold unlinked
  split
  · exact ⟨h.next current hCurrent, h.next⟩
  · refine ⟨h.head, fun q hq => ?_⟩
    rw [next_modify]
    split
    · exact h.next current hCurrent
    · exact h.next q hq

/-- **`remove_process_list`** finds a control block, if it finds anything. -/
theorem trail_closed (h : Closed k created) {turns : Nat} {r : Nat × Nat}
    (hTrail : trail k.next pro turns 0 k.processList = some r) : r.2 = 0 ∨ r.2 ∈ created := by
  have hReach := trail_invariant (J := fun a => a = 0 ∨ a ∈ created)
    (fun a ha hNonzero => h.next a (ha.resolve_left hNonzero)) h.head hTrail
  rcases hReach with hNone | hFound
  · exact Or.inl hNone
  · exact hFound

end Links

/-! ## The invariant -/

/-- The links lead to control blocks, and the stacks these have to give back are pages that
were handed out and are not pinned. -/
structure Whole (layout : Paging.Layout) (boot : List MemoryMap) (pins : List (Nat × Nat))
    (created pages : List Nat) (s : System Vm) : Prop where
  links : Closed s.kernel created
  pinned : Pinned layout boot pins pages s.pages
  stack : ∀ q ∈ created, pageOf (s.kernel.processes q).kernelStack ∈ pages ∧
    ∀ x ∈ pins, x.1 ≠ pageOf (s.kernel.processes q).kernelStack

section Runs

variable {layout : Paging.Layout} {boot : List MemoryMap} {pins : List (Nat × Nat)}
  {created pages : List Nat} {s s' : System Vm} {mode : Nat}

/-- The pages of the heap. -/
theorem kmalloc_pinned (hReserved : KernelReserved layout boot) {vm vm' : Vm}
    (h : Pinned layout boot pins pages vm) (hRoom : vm.nextVirtual + 7 * 4096 < 2 ^ 32)
    {size flag r : Nat} {heap heap' : Heap} (hFlag : flag < 4096) (hSome : flag ≠ 0)
    (hRun : kmalloc (allocatePage direct) size flag heap vm = some (r, heap', vm')) :
    ∃ pages', pages ⊆ pages' ∧ Pinned layout boot pins pages' vm' ∧
      vm'.nextVirtual ≤ vm.nextVirtual + 2 * 4096 := by
  obtain ⟨vm₁, hFirst, hSecond⟩ := kmalloc_asksWith hRun
  rw [if_neg hSome] at hFirst hSecond
  have hAsk : ∀ {pages vm vm'}, Pinned layout boot pins pages vm →
      vm.nextVirtual + 4096 < 2 ^ 32 → AsksWith (allocatePage direct) flag vm vm' →
      ∃ pages', pages ⊆ pages' ∧ Pinned layout boot pins pages' vm' ∧
        vm'.nextVirtual ≤ vm.nextVirtual + 4096 := by
    rintro pages vm vm' hP hFits (rfl | ⟨page, hCall⟩)
    · exact ⟨pages, List.Subset.refl _, hP, Nat.le_add_right _ _⟩
    · exact hP.allocatePage hReserved hFits hFlag hCall
  obtain ⟨pages₁, hSub₁, h₁, hNext₁⟩ := hAsk h (by omega) hFirst
  obtain ⟨pages₂, hSub₂, h₂, hNext₂⟩ := hAsk h₁ (by omega) hSecond
  exact ⟨pages₂, List.Subset.trans hSub₁ hSub₂, h₂, by omega⟩

/-- The pages of a kernel stack. -/
theorem kernelStack_pinned (hReserved : KernelReserved layout boot) {vm vm' : Vm}
    (h : Pinned layout boot pins pages vm) (hRoom : vm.nextVirtual + 5 * 4096 < 2 ^ 32) {v : Nat}
    (hCall : allocatePagesContig direct (kernelStackSize / 4096) presentWrite vm = some (v, vm')) :
    vm'.nextVirtual = vm.nextVirtual + 4 * 4096 ∧ ∃ pages', pages ⊆ pages' ∧
      Pinned layout boot pins pages' vm' ∧
      (v ≠ 0 → pageOf v ∈ pages' ∧ (∀ q ∈ pages, q < pageOf v) ∧
        ∃ word, Pinned layout boot ((pageOf v + 1, word) :: pins) pages' vm') := by
  have hFour : ((kernelStackSize : Int) / 4096).toNat = 4 := by decide
  obtain ⟨hNext, pages', hSub, ⟨rfl, h'⟩ | ⟨rfl, hIn, word, h'⟩⟩ :=
    h.allocatePagesContig hReserved (by rw [hFour]; rfl) (by decide) (by rw [hFour]; omega)
      (by decide) (by decide) hCall
  · exact ⟨by rw [hNext, hFour], pages', hSub, h', fun hNone => absurd rfl hNone⟩
  · exact ⟨by rw [hNext, hFour], pages', hSub, h'.tail, fun _ => ⟨hIn, h.below, word, h'⟩⟩

/-- **What `create_process` obtains**, and the page of it that is never given back. -/
theorem acquire_pinned (hReserved : KernelReserved layout boot)
    (h : Pinned layout boot pins pages s.pages)
    (hRoom : s.pages.nextVirtual + 7 * 4096 < 2 ^ 32) {p : Parts}
    (hRun : acquire (paging direct) mode s = some (p, s')) :
    s'.kernel = s.kernel ∧ ∃ pages', pages ⊆ pages' ∧ Pinned layout boot pins pages' s'.pages ∧
      (p.Complete mode → pageOf p.kernelStack ∈ pages' ∧ (∀ q ∈ pages, q < pageOf p.kernelStack) ∧
        ∃ word, Pinned layout boot ((pageOf p.kernelStack + 1, word) :: pins) pages' s'.pages) := by
  have hHeap : ∀ {pro heap vm}, kmalloc (paging direct).heapPage sizeofProcess presentWrite s.heap
      s.pages = some (pro, heap, vm) → ∃ pages₁, pages ⊆ pages₁ ∧
        Pinned layout boot pins pages₁ vm ∧
          vm.nextVirtual ≤ s.pages.nextVirtual + 2 * 4096 :=
    fun hBlock => kmalloc_pinned hReserved h hRoom (by decide) (by decide) hBlock
  have hStack : ∀ {pages₁ vm v vm'}, pages ⊆ pages₁ → Pinned layout boot pins pages₁ vm →
      vm.nextVirtual ≤ s.pages.nextVirtual + 2 * 4096 →
      (paging direct).allocatePagesContig (kernelStackSize / 4096) presentWrite vm =
        some (v, vm') →
      vm'.nextVirtual ≤ s.pages.nextVirtual + 6 * 4096 ∧ ∃ pages₂, pages ⊆ pages₂ ∧
        Pinned layout boot pins pages₂ vm' ∧
        (v ≠ 0 → pageOf v ∈ pages₂ ∧ (∀ q ∈ pages, q < pageOf v) ∧
          ∃ word, Pinned layout boot ((pageOf v + 1, word) :: pins) pages₂ vm') := by
    intro pages₁ vm v vm' hSub h₁ hNext hCall
    obtain ⟨hNext', pages₂, hSub₂, h₂, hSecond⟩ := kernelStack_pinned hReserved h₁ (by omega) hCall
    refine ⟨by omega, pages₂, List.Subset.trans hSub hSub₂, h₂, fun hSome => ?_⟩
    obtain ⟨hIn, hBelow, hWord⟩ := hSecond hSome
    exact ⟨hIn, fun q hq => hBelow q (hSub hq), hWord⟩
  cases acquire_cases hRun with
  | noBlock heap pages₁ hBlock =>
      obtain ⟨pages₁, hSub, h₁, -⟩ := hHeap hBlock
      exact ⟨rfl, pages₁, hSub, h₁, fun hComplete => absurd rfl hComplete.1⟩
  | noStack pro heap heap' vm₁ vm₂ hPro hBlock hRange hFree =>
      obtain ⟨pages₁, hSub, h₁, hNext⟩ := hHeap hBlock
      obtain ⟨-, pages₂, hSub₂, h₂, -⟩ := hStack hSub h₁ hNext hRange
      exact ⟨rfl, pages₂, hSub₂, h₂, fun hComplete => absurd rfl hComplete.2.1⟩
  | noPage pro stack heap heap' vm₁ vm₂ vm₃ vm₄ hMode hPro hNonzero hBlock hRange hPage hBack
      hFree =>
      obtain ⟨pages₁, hSub, h₁, hNext⟩ := hHeap hBlock
      obtain ⟨hNext₂, pages₂, hSub₂, h₂, hSecond⟩ := hStack hSub h₁ hNext hRange
      obtain ⟨hIn, hBelow, -⟩ := hSecond hNonzero
      obtain ⟨pages₃, hSub₃, h₃, -⟩ := h₂.allocatePage hReserved (by omega) (by decide) hPage
      have hApart : ∀ x ∈ pins, x.1 ≠ pageOf stack := by
        rintro x hx hEq
        have hLow := hBelow x.1 (h.pin x hx).1
        omega
      obtain ⟨h₄, -⟩ := h₃.freePage (hSub₃ hIn) hApart hBack
      exact ⟨rfl, pages₃, List.Subset.trans hSub₂ hSub₃, h₄,
        fun hComplete => absurd rfl (hComplete.2.2 hMode)⟩
  | user pro stack page heap vm₁ vm₂ vm₃ hMode hPro hNonzero hFound hBlock hRange hPage =>
      obtain ⟨pages₁, hSub, h₁, hNext⟩ := hHeap hBlock
      obtain ⟨hNext₂, pages₂, hSub₂, h₂, hSecond⟩ := hStack hSub h₁ hNext hRange
      obtain ⟨hIn, hBelow, word, hPin⟩ := hSecond hNonzero
      obtain ⟨pages₃, hSub₃, h₃, -⟩ := hPin.allocatePage hReserved (by omega) (by decide) hPage
      exact ⟨rfl, pages₃, List.Subset.trans hSub₂ hSub₃, h₃.tail,
        fun _ => ⟨hSub₃ hIn, hBelow, word, h₃⟩⟩
  | kernel pro stack heap vm₁ vm₂ hMode hPro hNonzero hBlock hRange =>
      obtain ⟨pages₁, hSub, h₁, hNext⟩ := hHeap hBlock
      obtain ⟨-, pages₂, hSub₂, h₂, hSecond⟩ := hStack hSub h₁ hNext hRange
      exact ⟨rfl, pages₂, hSub₂, h₂, fun _ => hSecond hNonzero⟩

/-- **`create_process`** keeps the invariant, with the second page of the new kernel stack
among the pinned ones. -/
theorem Whole.create (hReserved : KernelReserved layout boot)
    (h : Whole layout boot pins created pages s) {entry q : Nat}
    (hRoom : s.pages.nextVirtual + 7 * 4096 < 2 ^ 32)
    (hCall : createProcess (paging direct) entry mode s = some (q, s')) :
    ∃ created' pages', Whole layout boot pins created' pages' s' ∧
      (q ≠ 0 → ∃ word, Whole layout boot
        ((pageOf (s'.kernel.processes q).kernelStack + 1, word) :: pins) created' pages' s') := by
  obtain ⟨⟨p, s₁⟩, hParts, hRest⟩ := Option.bind_eq_some_iff.mp hCall
  obtain ⟨⟨q, k⟩, hCreate, hEq⟩ := Option.map_eq_some_iff.mp hRest
  cases hEq
  obtain ⟨hKernel, pages', hSub, hPinned, hStack⟩ := acquire_pinned hReserved h.pinned hRoom hParts
  simp only [hKernel] at hCreate
  by_cases hComplete : p.Complete mode
  · obtain ⟨hIn, hBelow, word, hPin⟩ := hStack hComplete
    obtain ⟨k₁, hB, hBuilt⟩ := createProcess_built hComplete entry s.kernel
    rw [hBuilt] at hCreate
    obtain ⟨k₂, hAdd, hEq⟩ := Option.map_eq_some_iff.mp hCreate
    cases hEq
    obtain ⟨-, -, hFields⟩ := addProcess_rest hAdd
    have hLinks : Closed k (p.pro :: created) := by
      refine addProcess_closed ?_ (fun q hq hne => ?_) hAdd
      · rw [hB.list]
        exact h.links.head
      · rw [Kernel.next, hB.other q hne]
        exact h.links.next q hq
    have hNew : (k.processes p.pro).kernelStack = p.kernelStack := by
      rw [hFields p.pro]
      exact hB.kernelStack
    have hOld : ∀ q, q ≠ p.pro →
        (k.processes q).kernelStack = (s.kernel.processes q).kernelStack := by
      intro q hne
      rw [hFields q, hB.other q hne]
    have hPinsBelow : ∀ x ∈ pins, x.1 ≠ pageOf p.kernelStack := by
      rintro x hx hEq
      have hLow := hBelow x.1 (h.pinned.pin x hx).1
      omega
    refine ⟨p.pro :: created, pages', ⟨hLinks, hPinned, fun q hq => ?_⟩, fun _ => ⟨word, ?_⟩⟩
    · by_cases hEq : q = p.pro
      · rw [hEq, hNew]
        exact ⟨hIn, hPinsBelow⟩
      · rw [hOld q hEq]
        obtain ⟨hPage, hApart⟩ := h.stack q ((List.mem_cons.mp hq).resolve_left hEq)
        exact ⟨hSub hPage, hApart⟩
    · rw [hNew]
      refine ⟨hLinks, hPin, fun q hq => ?_⟩
      by_cases hEq : q = p.pro
      · rw [hEq, hNew]
        refine ⟨hIn, fun x hx => ?_⟩
        rcases List.mem_cons.mp hx with rfl | hx
        · exact Nat.succ_ne_self _
        · exact hPinsBelow x hx
      · rw [hOld q hEq]
        obtain ⟨hPage, hApart⟩ := h.stack q ((List.mem_cons.mp hq).resolve_left hEq)
        refine ⟨hSub hPage, fun x hx => ?_⟩
        rcases List.mem_cons.mp hx with rfl | hx
        · have hLow := hBelow _ hPage
          omega
        · exact hApart x hx
  · rw [createProcess_fails hComplete] at hCreate
    cases hCreate
    refine ⟨created, pages', ⟨h.links, hPinned, fun q hq => ?_⟩, fun hSome => absurd rfl hSome⟩
    obtain ⟨hPage, hApart⟩ := h.stack q hq
    exact ⟨hSub hPage, hApart⟩

/-- **`remove_process_list`** keeps it. -/
theorem Whole.remove (h : Whole layout boot pins created pages s) {pro : Nat}
    (hCall : removeProcessList (paging direct) pro s = some s') :
    Whole layout boot pins created pages s' := by
  obtain ⟨⟨previous, current⟩, hTrail, hRest⟩ := Option.bind_eq_some_iff.mp hCall
  simp only at hRest
  split at hRest
  · cases hRest
    exact h
  · next hNonzero =>
      have hIn : current ∈ created := (trail_closed h.links hTrail).resolve_left hNonzero
      obtain ⟨vm, hBack, hRest⟩ := Option.bind_eq_some_iff.mp hRest
      obtain ⟨heap, -, hEq⟩ := Option.map_eq_some_iff.mp hRest
      cases hEq
      have hStack : ∀ q, ((unlinked s.kernel previous current).processes q).kernelStack =
          (s.kernel.processes q).kernelStack := by
        intro q
        rw [unlinked_other]
      simp only [hStack] at hBack
      obtain ⟨hPage, hApart⟩ := h.stack current hIn
      obtain ⟨hPinned, -⟩ := h.pinned.freePage hPage hApart hBack
      refine ⟨unlinked_closed h.links hIn, hPinned, fun q hq => ?_⟩
      simp only [hStack]
      exact h.stack q hq

/-- **One step keeps the pinned pages.** -/
theorem step_whole (hReserved : KernelReserved layout boot) (s : System Vm) (e : Event)
    (s' : System Vm) (h : ∃ created pages, Whole layout boot pins created pages s)
    (hRoom : Roomy s e) (hStep : step s e = some s') :
    ∃ created pages, Whole layout boot pins created pages s' := by
  obtain ⟨created, pages, h⟩ := h
  cases e with
  | create entry mode =>
      obtain ⟨⟨q, s₁⟩, hCall, rfl⟩ := Option.map_eq_some_iff.mp hStep
      obtain ⟨created', pages', h', -⟩ := h.create hReserved hRoom.2 hCall
      exact ⟨created', pages', h'⟩
  | remove pro => exact ⟨created, pages, h.remove hStep⟩

/-- A process that is created has a page it cannot give back. -/
theorem Whole.not_given_back {p word : Nat} {created' pages' : List Nat}
    (h : Whole layout boot [(pageOf (s.kernel.processes p).kernelStack + 1, word)] created pages s)
    (h' : Whole layout boot [(pageOf (s.kernel.processes p).kernelStack + 1, word)] created' pages'
      s') : ¬GivenBack mode p s s' := by
  intro hBack
  obtain ⟨hIn, -, -, -⟩ := h.pinned.pin _ List.mem_cons_self
  obtain ⟨-, hPresent, hWord, -⟩ := h'.pinned.pin _ List.mem_cons_self
  have hPage : pageOf (((s.kernel.processes p).kernelStack + 1 * 4096) % 2 ^ 32) =
      pageOf (s.kernel.processes p).kernelStack + 1 := by
    have hLow := h.pinned.lt hIn
    unfold pageOf at hLow ⊢
    simp only at hLow
    omega
  refine hBack.unmapped (pageOf (s.kernel.processes p).kernelStack + 1) ?_ ?_
  · exact List.mem_append_left _ (List.mem_map.mpr ⟨1, by decide, hPage⟩)
  · rw [hWord]
    exact hPresent

/-- **A process that is created and removed** never gives back all of its stacks, however
many other processes are created and removed in between. -/
theorem create_remove_leaks (hReserved : KernelReserved layout boot)
    (h : Whole layout boot [] created pages s) {entry p : Nat} {events : List Event}
    {s₁ s₂ s₃ : System Vm} (hRoom : Roomy s (.create entry mode))
    (hCreate : createProcess (paging direct) entry mode s = some (p, s₁)) (hp : p ≠ 0)
    (hRun : exec step s₁ events = some s₂) (hRoomy : Meets step Roomy s₁ events)
    (hRemove : removeProcessList (paging direct) p s₂ = some s₃) : ¬GivenBack mode p s₁ s₃ := by
  obtain ⟨created₁, pages₁, -, hSecond⟩ := h.create hReserved hRoom.2 hCreate
  obtain ⟨word, h₁⟩ := hSecond hp
  obtain ⟨created₂, pages₂, h₂⟩ :=
    hRoomy.invariant (step_whole hReserved) ⟨created₁, pages₁, h₁⟩ hRun
  exact h₁.not_given_back (h₂.remove hRemove)

end Runs

/-! ## From the boot on -/

/-- The kernel before its first process. -/
def start (pmm : Table) (tables : Verified.ByteMemory.Mem) (freeVirtual : Nat → Nat) :
    System Vm where
  kernel := pcStart.kernel
  heap := pcStart.heap
  pages := Paging.boot image pmm tables freeVirtual

theorem start_whole {pmm : Table} (tables : Verified.ByteMemory.Mem) (freeVirtual : Nat → Nat)
    (hApart : PairwiseApart extentOf pmm.entries)
    (hLow : ∀ e ∈ pmm.entries, e.type = 1 → e.base + e.length ≤ 2 ^ 32)
    (hGrid : PagingFrames.Grid pmm.entries) :
    Whole image pmm.entries [] [] [] (start pmm tables freeVirtual) := by
  have hBoot := boot_backed image tables freeVirtual hApart hLow hGrid
  have hStack : Paging.stack (Paging.boot image pmm tables freeVirtual) = [] := rfl
  have hMapped := hBoot.mapped
  refine ⟨⟨Or.inl rfl, by simp⟩, ⟨⟨[], hBoot.framed, ?_⟩, by simp, ?_, ?_, ?_, by simp⟩, by simp⟩
  · exact hMapped
  · intro a ha
    rw [start, hStack] at ha
    cases ha
  · exact hBoot.placed.aligned
  · exact hBoot.placed.range

/-- Two processes are created, the second one is removed, and then the first. -/
theorem create_remove_leaks_two :
    ∃ s₁ s₂ s₃, createProcess (paging direct) 0x10B00 processUser
        (start pcMap (fun _ => 0) fun _ => 0) = some (0x26009, s₁) ∧
      exec step s₁ [.create 0x10C00 processKernel, .remove 0x26042] = some s₂ ∧
      removeProcessList (paging direct) 0x26009 s₂ = some s₃ ∧
      s₃.kernel.processList = 0 ∧ ¬GivenBack processUser 0x26009 s₁ s₃ := by
  have hView : (createProcess (paging direct) 0x10B00 processUser
      (start pcMap (fun _ => 0) fun _ => 0)).any (fun c =>
        (exec step c.2 [.create 0x10C00 processKernel, .remove 0x26042]).any fun s₂ =>
          (removeProcessList (paging direct) 0x26009 s₂).any fun s₃ =>
            decide ((c.1 = 0x26009 ∧ s₃.kernel.processList = 0) ∧
              Meets step Roomy c.2 [.create 0x10C00 processKernel, .remove 0x26042])) = true := by
    decide +kernel
  obtain ⟨⟨p, s₁⟩, hCreate, hView⟩ := (Option.any_eq_true _ _).mp hView
  obtain ⟨s₂, hRun, hView⟩ := (Option.any_eq_true _ _).mp hView
  obtain ⟨s₃, hRemove, hView⟩ := (Option.any_eq_true _ _).mp hView
  obtain ⟨⟨rfl, hList⟩, hRoomy⟩ := of_decide_eq_true hView
  exact ⟨s₁, s₂, s₃, hCreate, hRun, hRemove, hList,
    create_remove_leaks (by decide) (start_whole _ _ (by decide) (by decide) (by decide))
      (by decide) hCreate (by decide) hRun hRoomy hRemove⟩

/-- **One process, created and removed at once.**  Of its five pages four stay mapped, and
the map offers none of their frames. -/
theorem create_remove_keeps :
    ∃ s₁ s₃, createProcess (paging direct) 0x10B00 processUser
        (start pcMap (fun _ => 0) fun _ => 0) = some (0x26009, s₁) ∧
      removeProcessList (paging direct) 0x26009 s₁ = some s₃ ∧
      s₃.kernel.processList = 0 ∧
      (stackPages processUser s₁.kernel 0x26009).filter
        (fun q => Present (entryWord s₃.pages q)) = [0x28, 0x29, 0x2A, 0x2B] ∧
      (∀ q ∈ [0x28, 0x29, 0x2A, 0x2B], ¬Usable s₃.pages.pmm.entries
        (frameOf (entryWord s₁.pages q))) ∧
      ¬GivenBack processUser 0x26009 s₁ s₃ := by
  have hView : (createProcess (paging direct) 0x10B00 processUser
      (start pcMap (fun _ => 0) fun _ => 0)).any (fun c =>
        (removeProcessList (paging direct) 0x26009 c.2).any fun s₃ =>
          decide ((c.1 = 0x26009 ∧ s₃.kernel.processList = 0) ∧
            (stackPages processUser c.2.kernel 0x26009).filter
              (fun q => Present (entryWord s₃.pages q)) = [0x28, 0x29, 0x2A, 0x2B] ∧
            ∀ q ∈ [0x28, 0x29, 0x2A, 0x2B], ¬Usable s₃.pages.pmm.entries
              (frameOf (entryWord c.2.pages q)))) = true := by
    decide +kernel
  obtain ⟨⟨p, s₁⟩, hCreate, hView⟩ := (Option.any_eq_true _ _).mp hView
  obtain ⟨s₃, hRemove, hView⟩ := (Option.any_eq_true _ _).mp hView
  obtain ⟨⟨rfl, hList⟩, hMapped, hFrames⟩ := of_decide_eq_true hView
  refine ⟨s₁, s₃, hCreate, hRemove, hList, hMapped, hFrames, fun hBack => ?_⟩
  have hIn : 0x28 ∈ (stackPages processUser s₁.kernel 0x26009).filter
      fun q => Present (entryWord s₃.pages q) := by
    rw [hMapped]
    decide
  obtain ⟨hPage, hPresent⟩ := List.mem_filter.mp hIn
  exact hBack.unmapped _ hPage (of_decide_eq_true hPresent)

end MiniKernel.Ports.ProcessLeaks
