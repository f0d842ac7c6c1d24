import MiniKernel.Ports.ProcessSwitch
import MiniKernel.Ports.PageLending
import MiniKernel.Ports.Fork

/-!
# The kernel as one system

The process table, the heap its control blocks are allocated from, and the
page allocator that backs the heap and the stacks.  `create_process` takes its
parts from the two allocators and gives them back when one is missing; the
rest of it is the process table's.

The contents of control blocks and of register frames are kept in the table,
the headers of heap blocks and everything else on the heap in its memory.
-/

namespace MiniKernel.Ports.SystemCalls

open MiniKernel.Verified.ByteMemory
open MiniKernel.Verified.Links
open MiniKernel.Verified.PageWords
open MiniKernel.Ports.Paging (Vm userFlags)
open MiniKernel.Ports.PagingRecycling (pagesFrom boot_placed)
open MiniKernel.Ports.Kmalloc
open MiniKernel.Ports.KmallocLedger
open MiniKernel.Ports.PageLending
open MiniKernel.Ports.ProcessTable
open MiniKernel.Ports.ProcessSteps
open MiniKernel.Ports.ProcessRuns (Running boot)
open MiniKernel.Ports.ProcessSwitch

universe u

structure System (σ : Type u) where
  kernel : Kernel
  heap : Heap
  pages : σ

/-- What `create_process` obtains; `0` is a null pointer, or what it does not
ask for. -/
structure Parts where
  pro : Nat
  kernelStack : Nat
  userPage : Nat
  deriving Repr, DecidableEq

/-- Nothing that a process of this mode needs is missing. -/
def Parts.Complete (mode : Nat) (p : Parts) : Prop :=
  p.pro ≠ 0 ∧ p.kernelStack ≠ 0 ∧ (mode = processUser → p.userPage ≠ 0)

instance (mode : Nat) (p : Parts) : Decidable (p.Complete mode) := by
  unfold Parts.Complete
  infer_instance

section Calls

variable {σ : Type u} (A : PageAllocator σ)

/-- The allocations of `create_process`, with its cleanup. -/
def acquire (mode : Nat) (s : System σ) : Option (Parts × System σ) :=
  (kmalloc A.heapPage sizeofProcess presentWrite s.heap s.pages).bind fun r =>
    let s := { s with heap := r.2.1, pages := r.2.2 }
    if r.1 = 0 then some (⟨0, 0, 0⟩, s)
    else
      (A.allocatePagesContig (kernelStackSize / 4096) presentWrite s.pages).bind fun c =>
        let s := { s with pages := c.2 }
        if c.1 = 0 then
          (kfree r.1 s.heap).map fun heap => (⟨r.1, 0, 0⟩, { s with heap := heap })
        else if mode = processUser then
          (A.allocatePage userFlags s.pages).bind fun u =>
            let s := { s with pages := u.2 }
            if u.1 = 0 then
              (A.freePage c.1 s.pages).bind fun pages =>
                (kfree r.1 s.heap).map fun heap =>
                  (⟨r.1, c.1, 0⟩, { s with heap := heap, pages := pages })
            else some (⟨r.1, c.1, u.1⟩, s)
        else some (⟨r.1, c.1, 0⟩, s)

/-- `create_process`. -/
def createProcess (entry mode : Nat) (s : System σ) : Option (Nat × System σ) :=
  (acquire A mode s).bind fun r =>
    (r.2.kernel.createProcess entry mode r.1.pro r.1.kernelStack r.1.userPage).map fun c =>
      (c.1, { r.2 with kernel := c.2 })

/-- `sys_create_process`. -/
def sysCreateProcess (entry mode : Nat) (s : System σ) : Option (Nat × System σ) :=
  (acquire A mode s).bind fun r =>
    (r.2.kernel.sysCreateProcess entry mode r.1.pro r.1.kernelStack r.1.userPage).map fun c =>
      (c.1, { r.2 with kernel := c.2 })

/-- `sys_fork`: the pid it returns, and what it obtained for the child. -/
def sysFork (regs : Nat) (s : System σ) : Option (Nat × Parts × System σ) :=
  (acquire A processUser s).bind fun r =>
    (r.2.kernel.sysFork regs r.1.pro r.1.kernelStack r.1.userPage).map fun c =>
      (c.1, r.1, { r.2 with kernel := c.2 })

/-- `sys_kmalloc`. -/
def sysKmalloc (size : Nat) (s : System σ) : Option (Nat × System σ) :=
  (kmalloc A.heapPage size userFlags s.heap s.pages).map fun r =>
    (r.1, { s with heap := r.2.1, pages := r.2.2 })

/-- `sys_free`. -/
def sysFree (address : Nat) (s : System σ) : Option (System σ) :=
  (kfree address s.heap).map fun heap => { s with heap := heap }

/-- `remove_process`. -/
def removeProcess (pro : Nat) (s : System σ) : Option (System σ) :=
  (A.freePage (s.kernel.processes pro).kernelStack s.pages).bind fun pages =>
    (kfree pro s.heap).map fun heap => { s with heap := heap, pages := pages }

/-- The list without `current`, which is behind `previous`. -/
def unlinked (k : Kernel) (previous current : Nat) : Kernel :=
  if previous = 0 then { k with processList := k.next current }
  else k.modify previous fun p => { p with next := k.next current }

/-- `remove_process_list`. -/
def removeProcessList (pro : Nat) (s : System σ) : Option (System σ) :=
  (trail s.kernel.next pro addresses 0 s.kernel.processList).bind fun r =>
    if r.2 = 0 then some s
    else removeProcess A r.2 { s with kernel := unlinked s.kernel r.1 r.2 }

end Calls

/-- The calls that neither take nor give back memory. -/
inductive Call
  | yield (regs : Nat)
  | sleep (regs time : Nat)
  | exit (status : Nat)
  | finish
  | tick (regs : Nat)
  deriving Repr, DecidableEq

def Call.run (k : Kernel) : Call → Option Kernel
  | .yield regs => if Running k then k.sysYield regs else none
  | .sleep regs time => if Running k then k.sysSleep regs time else none
  | .exit status => if Running k then k.sysExit status else none
  | .finish => if Running k then k.exitProcess else none
  | .tick regs => if k.halted = false then k.irq0Handler regs else none

/-- They keep the process list. -/
theorem Call.table {k k' : Kernel} {created : List Nat} {c : Call} (hT : Table k created)
    (h : c.run k = some k') : Table k' created := by
  cases c with
  | yield regs =>
      obtain ⟨hOn, h⟩ := Option.ite_none_right_eq_some.mp h
      obtain ⟨k₁, hRun, hTurn⟩ := sysYield_turn hT hOn.2 regs
      rw [hRun] at h
      cases h
      exact hTurn.table hT
  | sleep regs time =>
      obtain ⟨hOn, h⟩ := Option.ite_none_right_eq_some.mp h
      obtain ⟨k₁, hRun, hTurn⟩ := sysSleep_turn hT hOn.2 regs time
      rw [hRun] at h
      cases h
      exact hTurn.table hT
  | exit status =>
      obtain ⟨hOn, h⟩ := Option.ite_none_right_eq_some.mp h
      obtain ⟨k₁, hRun, hDeparture, -⟩ := sysExit_spec hT hOn.2 status
      rw [hRun] at h
      cases h
      exact hDeparture.table hT
  | finish =>
      obtain ⟨hOn, h⟩ := Option.ite_none_right_eq_some.mp h
      obtain ⟨k₁, hRun, hDeparture, -⟩ := exitProcess_spec hT hOn.2
      rw [hRun] at h
      cases h
      exact hDeparture.table hT
  | tick regs =>
      obtain ⟨-, h⟩ := Option.ite_none_right_eq_some.mp h
      obtain ⟨k₁, hRun, hTurn⟩ := irq0Handler_turn hT regs
      rw [hRun] at h
      cases h
      exact hTurn.table hT

/-- The linked image before the first `create_process`. -/
def start (processes : Nat → Process) (frames : Nat → Registers) (ticks esp0 processEntry : Nat)
    (mem : Mem) (pmm : Pmm.Table) (tables : Mem) (freeVirtual : Nat → Nat) : System Lent where
  kernel := (boot processes frames ticks esp0 processEntry).kernel
  heap := { mem := mem, heapHead := 0, currentBlock := 0 }
  pages := ⟨Paging.boot Paging.image pmm tables freeVirtual, [], [], []⟩

/-- A PC with empty memory. -/
def pcStart : System Lent :=
  start ProcessRuns.blank.kernel.processes ProcessRuns.blank.kernel.frames 0 0x90000 0x10A00
    (fun _ => 0) PmmOwnership.pcMap (fun _ => 0) fun _ => 0

theorem start_sound (pmm : Pmm.Table) (tables : Mem) (freeVirtual : Nat → Nat) :
    Sound ⟨Paging.boot Paging.image pmm tables freeVirtual, [], [], []⟩ where
  whole :=
    { placed := boot_placed Paging.image pmm tables freeVirtual
      freed := by simp [Paging.stack, Paging.boot, Paging.buildFirstPage,
        Paging.initVirtualAllocator]
      positive := by
        simp only [Paging.boot, Paging.buildFirstPage, Paging.initVirtualAllocator]
        decide }
  pages := by simp

/-! ## Stores by address

A store of a process, or of `sys_wait` on its behalf, reaches whatever lies at
its address: besides the process table the headers and variables of the heap,
the table that the boot loader left in page 0, and the variables of the page
allocator, all where the linker put them. -/

def memoryMapAt : Nat := 0x500
def pageDirectoryAt : Nat := 0x23000
def heapHeadAt : Nat := 0x24000
def currentBlockAt : Nat := 0x24004
def nextVirtualAt : Nat := 0x24008
def freeVirtualAt : Nat := 0x24020
def freeCountAt : Nat := 0x25020

/-- The entry at `e` after a store of `l` bytes at `a`. -/
def storeMap (e a l w : Nat) (m : Pmm.MemoryMap) : Pmm.MemoryMap where
  base := overwrite a l w e 8 m.base
  length := overwrite a l w (e + 8) 8 m.length
  type := overwrite a l w (e + 16) 4 m.type
  acpi := overwrite a l w (e + 20) 4 m.acpi

def storeHeap (a l w : Nat) (h : Heap) : Heap where
  mem := store h.mem a w l
  heapHead := overwrite a l w heapHeadAt 4 h.heapHead
  currentBlock := overwrite a l w currentBlockAt 4 h.currentBlock

def storeVm (a l w : Nat) (vm : Vm) : Vm :=
  { vm with
    pmm :=
      { entry := overwrite a l w memoryMapAt 4 vm.pmm.entry
        map := fun k => storeMap (memoryMapAt + 4 + 24 * k) a l w (vm.pmm.map k) }
    pageDirectory := fun d =>
      if d < 1024 then overwrite a l w (pageDirectoryAt + 4 * d) 4 (vm.pageDirectory d)
      else vm.pageDirectory d
    nextVirtual := overwrite a l w nextVirtualAt 4 vm.nextVirtual
    freeVirtual := fun i =>
      if i < 1024 then overwrite a l w (freeVirtualAt + 4 * i) 4 (vm.freeVirtual i)
      else vm.freeVirtual i
    freeCount := overwrite a l w freeCountAt 4 vm.freeCount }

/-- A store of the `l` bytes of `w` at `a`. -/
def System.store (s : System Lent) (a l w : Nat) : System Lent where
  kernel := s.kernel.store a l w
  heap := storeHeap a l w s.heap
  pages := { s.pages with vm := storeVm a l w s.pages.vm }

/-- Behind the image there are no variables of the heap. -/
theorem storeHeap_beyond {a : Nat} (h : kernelEnd ≤ a) (l w : Nat) (heap : Heap) :
    storeHeap a l w heap = { heap with mem := store heap.mem a w l } := by
  unfold kernelEnd at h
  unfold storeHeap
  rw [overwrite_apart (by unfold heapHeadAt; omega),
    overwrite_apart (by unfold currentBlockAt; omega)]

/-- Nor of the allocator of virtual pages. -/
theorem storeVm_beyond {a : Nat} (h : kernelEnd ≤ a) (l w : Nat) (vm : Vm) :
    Paging.SameVirtual vm (storeVm a l w vm) := by
  unfold kernelEnd at h
  constructor
  · exact overwrite_apart (by unfold nextVirtualAt; omega)
  · funext i
    simp only [storeVm]
    split
    · exact overwrite_apart (by unfold freeVirtualAt; omega)
    · rfl
  · exact overwrite_apart (by unfold freeCountAt; omega)

/-! ## Guarded allocators -/

section Refinement

variable {σ : Type u} {A B : PageAllocator σ}

theorem acquire_extends (hAB : Extends A B) {mode : Nat} {s : System σ} {r : Parts × System σ}
    (h : acquire B mode s = some r) : acquire A mode s = some r := by
  unfold acquire at h ⊢
  obtain ⟨b, hBlock, h⟩ := Option.bind_eq_some_iff.mp h
  rw [kmalloc_refines hAB.heapPage hBlock, Option.bind_some]
  simp only at h ⊢
  by_cases hNull : b.1 = 0
  · rw [if_pos hNull] at h ⊢
    exact h
  · rw [if_neg hNull] at h ⊢
    obtain ⟨c, hStack, h⟩ := Option.bind_eq_some_iff.mp h
    rw [hAB.allocatePagesContig _ _ _ _ hStack, Option.bind_some]
    by_cases hNone : c.1 = 0
    · rw [if_pos hNone] at h ⊢
      exact h
    · rw [if_neg hNone] at h ⊢
      by_cases hUser : mode = processUser
      · rw [if_pos hUser] at h ⊢
        obtain ⟨u, hPage, h⟩ := Option.bind_eq_some_iff.mp h
        rw [hAB.allocatePage _ _ _ hPage, Option.bind_some]
        by_cases hMissing : u.1 = 0
        · rw [if_pos hMissing] at h ⊢
          obtain ⟨pages, hFree, h⟩ := Option.bind_eq_some_iff.mp h
          rw [hAB.freePage _ _ _ hFree, Option.bind_some]
          exact h
        · rw [if_neg hMissing] at h ⊢
          exact h
      · rw [if_neg hUser] at h ⊢
        exact h

theorem createProcess_extends (hAB : Extends A B) {entry mode : Nat} {s : System σ}
    {r : Nat × System σ} (h : createProcess B entry mode s = some r) :
    createProcess A entry mode s = some r := by
  unfold createProcess at h ⊢
  obtain ⟨p, hParts, h⟩ := Option.bind_eq_some_iff.mp h
  rw [acquire_extends hAB hParts, Option.bind_some]
  exact h

theorem sysCreateProcess_extends (hAB : Extends A B) {entry mode : Nat} {s : System σ}
    {r : Nat × System σ} (h : sysCreateProcess B entry mode s = some r) :
    sysCreateProcess A entry mode s = some r := by
  unfold sysCreateProcess at h ⊢
  obtain ⟨p, hParts, h⟩ := Option.bind_eq_some_iff.mp h
  rw [acquire_extends hAB hParts, Option.bind_some]
  exact h

theorem sysFork_extends (hAB : Extends A B) {regs : Nat} {s : System σ}
    {r : Nat × Parts × System σ} (h : sysFork B regs s = some r) : sysFork A regs s = some r := by
  unfold sysFork at h ⊢
  obtain ⟨p, hParts, h⟩ := Option.bind_eq_some_iff.mp h
  rw [acquire_extends hAB hParts, Option.bind_some]
  exact h

theorem sysKmalloc_extends (hAB : Extends A B) {size : Nat} {s : System σ} {r : Nat × System σ}
    (h : sysKmalloc B size s = some r) : sysKmalloc A size s = some r := by
  unfold sysKmalloc at h ⊢
  obtain ⟨b, hBlock, rfl⟩ := Option.map_eq_some_iff.mp h
  rw [kmalloc_refines hAB.heapPage hBlock, Option.map_some]

theorem removeProcessList_extends (hAB : Extends A B) {pro : Nat} {s s' : System σ}
    (h : removeProcessList B pro s = some s') : removeProcessList A pro s = some s' := by
  unfold removeProcessList at h ⊢
  obtain ⟨r, hTrail, h⟩ := Option.bind_eq_some_iff.mp h
  rw [hTrail, Option.bind_some]
  by_cases hNull : r.2 = 0
  · rw [if_pos hNull] at h ⊢
    exact h
  · rw [if_neg hNull] at h ⊢
    unfold removeProcess at h ⊢
    obtain ⟨pages, hFree, h⟩ := Option.bind_eq_some_iff.mp h
    rw [hAB.freePage _ _ _ hFree, Option.bind_some]
    exact h

end Refinement

/-! ## What `create_process` obtains -/

section Acquisition

variable {σ : Type u}

/-- The five ways the allocations can go. -/
inductive Acquired (A : PageAllocator σ) (mode : Nat) (s : System σ) : Parts → System σ → Prop
  | noBlock (heap : Heap) (pages : σ)
      (hBlock : kmalloc A.heapPage sizeofProcess presentWrite s.heap s.pages =
        some (0, heap, pages)) :
      Acquired A mode s ⟨0, 0, 0⟩ ⟨s.kernel, heap, pages⟩
  | noStack (pro : Nat) (heap heap' : Heap) (pages₁ pages₂ : σ) (hPro : pro ≠ 0)
      (hBlock : kmalloc A.heapPage sizeofProcess presentWrite s.heap s.pages =
        some (pro, heap, pages₁))
      (hStack : A.allocatePagesContig (kernelStackSize / 4096) presentWrite pages₁ =
        some (0, pages₂))
      (hFree : kfree pro heap = some heap') :
      Acquired A mode s ⟨pro, 0, 0⟩ ⟨s.kernel, heap', pages₂⟩
  | noPage (pro stack : Nat) (heap heap' : Heap) (pages₁ pages₂ pages₃ pages₄ : σ)
      (hMode : mode = processUser) (hPro : pro ≠ 0) (hNonzero : stack ≠ 0)
      (hBlock : kmalloc A.heapPage sizeofProcess presentWrite s.heap s.pages =
        some (pro, heap, pages₁))
      (hStack : A.allocatePagesContig (kernelStackSize / 4096) presentWrite pages₁ =
        some (stack, pages₂))
      (hPage : A.allocatePage userFlags pages₂ = some (0, pages₃))
      (hBack : A.freePage stack pages₃ = some pages₄)
      (hFree : kfree pro heap = some heap') :
      Acquired A mode s ⟨pro, stack, 0⟩ ⟨s.kernel, heap', pages₄⟩
  | user (pro stack page : Nat) (heap : Heap) (pages₁ pages₂ pages₃ : σ)
      (hMode : mode = processUser) (hPro : pro ≠ 0) (hNonzero : stack ≠ 0) (hFound : page ≠ 0)
      (hBlock : kmalloc A.heapPage sizeofProcess presentWrite s.heap s.pages =
        some (pro, heap, pages₁))
      (hStack : A.allocatePagesContig (kernelStackSize / 4096) presentWrite pages₁ =
        some (stack, pages₂))
      (hPage : A.allocatePage userFlags pages₂ = some (page, pages₃)) :
      Acquired A mode s ⟨pro, stack, page⟩ ⟨s.kernel, heap, pages₃⟩
  | kernel (pro stack : Nat) (heap : Heap) (pages₁ pages₂ : σ)
      (hMode : mode ≠ processUser) (hPro : pro ≠ 0) (hNonzero : stack ≠ 0)
      (hBlock : kmalloc A.heapPage sizeofProcess presentWrite s.heap s.pages =
        some (pro, heap, pages₁))
      (hStack : A.allocatePagesContig (kernelStackSize / 4096) presentWrite pages₁ =
        some (stack, pages₂)) :
      Acquired A mode s ⟨pro, stack, 0⟩ ⟨s.kernel, heap, pages₂⟩

/-- **Inversion of the allocations.** -/
theorem acquire_cases {A : PageAllocator σ} {mode : Nat} {s s' : System σ} {p : Parts}
    (h : acquire A mode s = some (p, s')) : Acquired A mode s p s' := by
  unfold acquire at h
  obtain ⟨⟨pro, heap, pages₁⟩, hBlock, h⟩ := Option.bind_eq_some_iff.mp h
  simp only at h
  by_cases hPro : pro = 0
  · subst hPro
    cases h
    exact .noBlock heap pages₁ hBlock
  · rw [if_neg hPro] at h
    obtain ⟨⟨stack, pages₂⟩, hStack, h⟩ := Option.bind_eq_some_iff.mp h
    simp only at h
    by_cases hNonzero : stack = 0
    · subst hNonzero
      obtain ⟨heap', hFree, hEq⟩ := Option.map_eq_some_iff.mp h
      cases hEq
      exact .noStack pro heap heap' pages₁ pages₂ hPro hBlock hStack hFree
    · rw [if_neg hNonzero] at h
      by_cases hMode : mode = processUser
      · rw [if_pos hMode] at h
        obtain ⟨⟨page, pages₃⟩, hPage, h⟩ := Option.bind_eq_some_iff.mp h
        simp only at h
        by_cases hFound : page = 0
        · subst hFound
          obtain ⟨pages₄, hBack, h⟩ := Option.bind_eq_some_iff.mp h
          obtain ⟨heap', hFree, hEq⟩ := Option.map_eq_some_iff.mp h
          cases hEq
          exact .noPage pro stack heap heap' pages₁ pages₂ pages₃ pages₄ hMode hPro hNonzero
            hBlock hStack hPage hBack hFree
        · rw [if_neg hFound] at h
          cases h
          exact .user pro stack page heap pages₁ pages₂ pages₃ hMode hPro hNonzero hFound hBlock
            hStack hPage
      · rw [if_neg hMode] at h
        cases h
        exact .kernel pro stack heap pages₁ pages₂ hMode hPro hNonzero hBlock hStack

/-- **What the page calls keep `create_process` keeps**, with a property of the
stacks it may have to give back. -/
theorem acquire_keeps {A : PageAllocator σ} {J : σ → Prop} {R : Nat → Prop} {mode : Nat}
    {s s' : System σ} {p : Parts}
    (hHeap : ∀ t t' r, J t → A.heapPage presentWrite t = some (r, t') → J t')
    (hContig : ∀ t t' r, J t →
      A.allocatePagesContig (kernelStackSize / 4096) presentWrite t = some (r, t') → J t' ∧ R r)
    (hPage : ∀ t t' r, J t → A.allocatePage userFlags t = some (r, t') → J t')
    (hFree : ∀ t t' r, J t → R r → A.freePage r t = some t' → J t')
    (hJ : J s.pages) (h : acquire A mode s = some (p, s')) : J s'.pages := by
  cases acquire_cases h with
  | noBlock heap pages hBlock => exact kmalloc_keeps (by decide) hHeap hJ hBlock
  | noStack pro heap heap' pages₁ pages₂ hPro hBlock hStack =>
      exact (hContig _ _ _ (kmalloc_keeps (by decide) hHeap hJ hBlock) hStack).1
  | noPage pro stack heap heap' pages₁ pages₂ pages₃ pages₄ hMode hPro hNonzero hBlock hStack
      hUser hBack =>
      obtain ⟨hJ₂, hR⟩ := hContig _ _ _ (kmalloc_keeps (by decide) hHeap hJ hBlock) hStack
      exact hFree _ _ _ (hPage _ _ _ hJ₂ hUser) hR hBack
  | user pro stack page heap pages₁ pages₂ pages₃ hMode hPro hNonzero hFound hBlock hStack
      hUser =>
      exact hPage _ _ _ (hContig _ _ _ (kmalloc_keeps (by decide) hHeap hJ hBlock) hStack).1 hUser
  | kernel pro stack heap pages₁ pages₂ hMode hPro hNonzero hBlock hStack =>
      exact (hContig _ _ _ (kmalloc_keeps (by decide) hHeap hJ hBlock) hStack).1

/-- The control block comes from `kmalloc`. -/
theorem acquire_block {A : PageAllocator σ} {mode : Nat} {s s' : System σ} {p : Parts}
    (h : acquire A mode s = some (p, s')) :
    ∃ heap pages, kmalloc A.heapPage sizeofProcess presentWrite s.heap s.pages =
      some (p.pro, heap, pages) := by
  cases acquire_cases h with
  | noBlock heap pages hBlock => exact ⟨heap, pages, hBlock⟩
  | noStack pro heap heap' pages₁ pages₂ hPro hBlock => exact ⟨heap, pages₁, hBlock⟩
  | noPage pro stack heap heap' pages₁ pages₂ pages₃ pages₄ hMode hPro hNonzero hBlock =>
      exact ⟨heap, pages₁, hBlock⟩
  | user pro stack page heap pages₁ pages₂ pages₃ hMode hPro hNonzero hFound hBlock =>
      exact ⟨heap, pages₁, hBlock⟩
  | kernel pro stack heap pages₁ pages₂ hMode hPro hNonzero hBlock => exact ⟨heap, pages₁, hBlock⟩

end Acquisition

section Lending

variable {ptr : Vm → Nat → Option Nat} {ok : Lent → PageCall → Bool} {mode : Nat}
  {s s' : System Lent} {p : Parts}

/-- What the pages are after the allocations: the user stack is a page of its
own, and so are the pages of the kernel stack of a process that can be made. -/
structure Obtained (mode : Nat) (l l' : Lent) (p : Parts) : Prop where
  sound : Sound l'
  user : p.userPage = 0 ∧ l'.user = l.user ∨
    p.Complete mode ∧ IsPage p.userPage ∧ l'.user = p.userPage :: l.user
  kept : ∀ q ∈ l.kernel, q ∈ l'.kernel
  base : p.Complete mode → p.kernelStack % 4096 = 0 ∧ 0 < p.kernelStack ∧
    p.kernelStack + kernelStackSize < 2 ^ 32
  reach : p.Complete mode → l.vm.nextVirtual ≤ p.kernelStack ∧
    p.kernelStack + kernelStackSize ≤ l.vm.nextVirtual + 6 * 4096
  stack : p.Complete mode → pageOf p.kernelStack ∉ l.kernel ∧ pageOf p.kernelStack ∈ l'.kernel

/-- The kernel stack of a process whose control block has been found. -/
theorem kernelStack_spec (hOk : ∀ l c, ok l c = true → l.roomy c = true) {l₀ l l' : Lent}
    {v : Nat} (hGrown : HeapGrown 2 l₀ l)
    (hCall : ((lending ptr).guard ok).allocatePagesContig (kernelStackSize / 4096) presentWrite l =
      some (v, l')) :
    Sound l' ∧ l'.user = l₀.user ∧ (v = 0 ∧ l'.kernel = l₀.kernel ∨
      (v % 4096 = 0 ∧ 0 < v ∧ v + kernelStackSize < 2 ^ 32) ∧
        (l₀.vm.nextVirtual ≤ v ∧ v + kernelStackSize ≤ l₀.vm.nextVirtual + 6 * 4096) ∧
        pageOf v ∉ l₀.kernel ∧ pageOf v ∈ l'.kernel ∧ ∀ q ∈ l₀.kernel, q ∈ l'.kernel) := by
  obtain ⟨hCond, hRange⟩ := guard_some hCall
  obtain ⟨hSound, -, hUser, hCase⟩ := hGrown.sound.allocatePagesContig (hOk _ _ hCond) hRange
  refine ⟨hSound, hUser.trans hGrown.user, ?_⟩
  rw [← hGrown.kernel]
  rcases hCase with hFail | ⟨hStart, hAligned, hPositive, hEnd, hNew, hKernel⟩
  · exact Or.inl hFail
  · right
    have hCount : ((kernelStackSize : Int) / 4096).toNat * 4096 = kernelStackSize := by decide
    have hSize : kernelStackSize = 4 * 4096 := rfl
    have hReaches := hGrown.reaches
    unfold Reaches at hReaches
    rw [hCount] at hEnd
    have hIn : pageOf v ∈ pagesFrom v (kernelStackSize / 4096) :=
      pageOf_mem_pagesFrom (by omega) (by decide)
    rw [hKernel]
    refine ⟨⟨hAligned, hPositive, hEnd⟩, ⟨by omega, by omega⟩, fun hOld => hNew _ hIn ?_,
      List.mem_append_left _ hIn, fun q hq => List.mem_append_right _ hq⟩
    exact List.mem_append_right _ (List.mem_append_right _ hOld)

/-- **The allocations of `create_process`** keep the record sound. -/
theorem acquire_pages (hOk : ∀ l c, ok l c = true → l.roomy c = true) (hSound : Sound s.pages)
    (hRun : acquire ((lending ptr).guard ok) mode s = some (p, s')) :
    s'.kernel = s.kernel ∧ Obtained mode s.pages s'.pages p := by
  cases acquire_cases hRun with
  | noBlock heap pages hBlock =>
      have hGrown := kmalloc_grown hOk hSound hBlock
      have hNot : ¬(⟨0, 0, 0⟩ : Parts).Complete mode := fun h => h.1 rfl
      exact ⟨rfl, hGrown.sound, Or.inl ⟨rfl, hGrown.user⟩, fun q hq => hGrown.kernel ▸ hq,
        fun h => absurd h hNot, fun h => absurd h hNot, fun h => absurd h hNot⟩
  | noStack pro heap heap' pages₁ pages₂ hPro hBlock hStack hFree =>
      have hGrown := kmalloc_grown hOk hSound hBlock
      obtain ⟨hSound₂, hUser, ⟨-, hKernel⟩ | ⟨⟨-, hPositive, -⟩, -⟩⟩ :=
        kernelStack_spec hOk hGrown hStack
      · have hNot : ¬(⟨pro, 0, 0⟩ : Parts).Complete mode := fun h => h.2.1 rfl
        exact ⟨rfl, hSound₂, Or.inl ⟨rfl, hUser⟩, fun q hq => hKernel ▸ hq,
          fun h => absurd h hNot, fun h => absurd h hNot, fun h => absurd h hNot⟩
      · omega
  | noPage pro stack heap heap' pages₁ pages₂ pages₃ pages₄ hMode hPro hNonzero hBlock hStack
      hPage hBack hFree =>
      have hGrown := kmalloc_grown hOk hSound hBlock
      obtain ⟨hSound₂, hUser₂, ⟨hNone, -⟩ | ⟨⟨hAligned, hPositive, -⟩, -, hNew, hIn, hKept⟩⟩ :=
        kernelStack_spec hOk hGrown hStack
      · exact absurd hNone hNonzero
      · obtain ⟨hCond₃, hPage⟩ := guard_some hPage
        obtain ⟨hSound₃, -, hKernel₃, ⟨-, hUser₃⟩ | ⟨hIs, -, -⟩⟩ :=
          hSound₂.allocatePage (hOk _ _ hCond₃) hPage
        · obtain ⟨hCond₄, hBack⟩ := guard_some hBack
          obtain ⟨hSound₄, -, hUser₄, hKernel₄⟩ :=
            hSound₃.freePage hAligned hPositive (hKernel₃ ▸ hIn) (hOk _ _ hCond₄) hBack
          have hNot : ¬(⟨pro, stack, 0⟩ : Parts).Complete mode := fun h => h.2.2 hMode rfl
          refine ⟨rfl, hSound₄, Or.inl ⟨rfl, hUser₄.trans (hUser₃.trans hUser₂)⟩, ?_,
            fun h => absurd h hNot, fun h => absurd h hNot, fun h => absurd h hNot⟩
          intro q hq
          rw [hKernel₄, hKernel₃]
          refine List.mem_filter.mpr ⟨hKept q hq, decide_eq_true ?_⟩
          rintro rfl
          exact hNew hq
        · exact absurd hIs.2.1 (Nat.lt_irrefl 0)
  | user pro stack page heap pages₁ pages₂ pages₃ hMode hPro hNonzero hFound hBlock hStack
      hPage =>
      have hGrown := kmalloc_grown hOk hSound hBlock
      obtain ⟨hSound₂, hUser₂, ⟨hNone, -⟩ | ⟨hBase, hReach, hNew, hIn, hKept⟩⟩ :=
        kernelStack_spec hOk hGrown hStack
      · exact absurd hNone hNonzero
      · obtain ⟨hCond₃, hPage⟩ := guard_some hPage
        obtain ⟨hSound₃, -, hKernel₃, ⟨hNone, -⟩ | ⟨hIs, -, hUser₃⟩⟩ :=
          hSound₂.allocatePage (hOk _ _ hCond₃) hPage
        · exact absurd hNone hFound
        · refine ⟨rfl, hSound₃, Or.inr ⟨⟨hPro, hNonzero, fun _ => hFound⟩, hIs, ?_⟩,
            fun q hq => hKernel₃ ▸ hKept q hq, fun _ => hBase, fun _ => hReach,
            fun _ => ⟨hNew, hKernel₃ ▸ hIn⟩⟩
          rw [hUser₃, hUser₂]
  | kernel pro stack heap pages₁ pages₂ hMode hPro hNonzero hBlock hStack =>
      have hGrown := kmalloc_grown hOk hSound hBlock
      obtain ⟨hSound₂, hUser₂, ⟨hNone, -⟩ | ⟨hBase, hReach, hNew, hIn, hKept⟩⟩ :=
        kernelStack_spec hOk hGrown hStack
      · exact absurd hNone hNonzero
      · exact ⟨rfl, hSound₂, Or.inl ⟨rfl, hUser₂⟩, hKept, fun _ => hBase, fun _ => hReach,
          fun _ => ⟨hNew, hIn⟩⟩

/-- A block just taken and given back. -/
theorem filter_new {held : List Nat} {pro : Nat} (hNew : pro ∉ held) :
    ((pro :: held).filter fun q => decide (q ≠ pro)) = held := by
  rw [List.filter_cons_of_neg (by simp)]
  refine List.filter_eq_self.mpr fun q hq => decide_eq_true ?_
  rintro rfl
  exact hNew hq

/-- **The allocations of `create_process`** keep the ledger: the control block
of a process that can be made is a new holding, and no other. -/
theorem acquire_ledger {held listed lost : List Nat} (hSound : Sound s.pages)
    (hL : Ledger s.heap s.pages.heap held listed lost)
    (hRun : acquire ((lending ptr).guard Lent.supplied) mode s = some (p, s')) :
    p.pro < 2 ^ 32 ∧ p.pro ∉ held ∧ ∃ listed' lost', Ledger s'.heap s'.pages.heap
      (if p.Complete mode then p.pro :: held else held) listed' lost' := by
  have hAlloc : ∀ {pro heap pages}, kmalloc ((lending ptr).guard Lent.supplied).heapPage
      sizeofProcess presentWrite s.heap s.pages = some (pro, heap, pages) →
      pro < 2 ^ 32 ∧ pro ∉ held ∧ ∃ listed' lost',
        Ledger heap pages.heap (if pro = 0 then held else pro :: held) listed' lost' := by
    intro pro heap pages hBlock
    obtain ⟨hRange, hNew, -, listed', lost', ⟨-, rfl⟩, hL'⟩ :=
      hL.alloc (lending_provides ptr) ⟨hSound, rfl⟩ hBlock
    exact ⟨hRange, hNew, listed', lost', hL'⟩
  cases acquire_cases hRun with
  | noBlock heap pages hBlock =>
      obtain ⟨hRange, hNew, listed', lost', hL'⟩ := hAlloc hBlock
      rw [if_pos rfl] at hL'
      refine ⟨hRange, hNew, listed', lost', ?_⟩
      rw [if_neg fun h => h.1 rfl]
      exact hL'
  | noStack pro heap heap' pages₁ pages₂ hPro hBlock hStack hFree =>
      obtain ⟨hRange, hNew, listed', lost', hL'⟩ := hAlloc hBlock
      rw [if_neg hPro] at hL'
      refine ⟨hRange, hNew, listed', lost', ?_⟩
      rw [if_neg fun h => h.2.1 rfl, guard_heap.1 _ _ _ hStack]
      have hBack := hL'.release hFree
      rwa [filter_new hNew] at hBack
  | noPage pro stack heap heap' pages₁ pages₂ pages₃ pages₄ hMode hPro hNonzero hBlock hStack
      hPage hBack hFree =>
      obtain ⟨hRange, hNew, listed', lost', hL'⟩ := hAlloc hBlock
      rw [if_neg hPro] at hL'
      refine ⟨hRange, hNew, listed', lost', ?_⟩
      rw [if_neg fun h => h.2.2 hMode rfl, guard_heap.2.2 _ hBack, guard_heap.2.1 _ _ hPage,
        guard_heap.1 _ _ _ hStack]
      have hBack := hL'.release hFree
      rwa [filter_new hNew] at hBack
  | user pro stack page heap pages₁ pages₂ pages₃ hMode hPro hNonzero hFound hBlock hStack
      hPage =>
      obtain ⟨hRange, hNew, listed', lost', hL'⟩ := hAlloc hBlock
      rw [if_neg hPro] at hL'
      refine ⟨hRange, hNew, listed', lost', ?_⟩
      rw [if_pos ⟨hPro, hNonzero, fun _ => hFound⟩, guard_heap.2.1 _ _ hPage,
        guard_heap.1 _ _ _ hStack]
      exact hL'
  | kernel pro stack heap pages₁ pages₂ hMode hPro hNonzero hBlock hStack =>
      obtain ⟨hRange, hNew, listed', lost', hL'⟩ := hAlloc hBlock
      rw [if_neg hPro] at hL'
      refine ⟨hRange, hNew, listed', lost', ?_⟩
      rw [if_pos ⟨hPro, hNonzero, fun h => absurd h hMode⟩, guard_heap.1 _ _ _ hStack]
      exact hL'

end Lending

/-! ## Creation -/

section Creation

variable {k k' : Kernel} {mode entry q : Nat} {p : Parts}

/-- With a part missing nothing is created. -/
theorem createProcess_fails (h : ¬p.Complete mode) (entry : Nat) (k : Kernel) :
    k.createProcess entry mode p.pro p.kernelStack p.userPage = some (0, k) := by
  unfold Kernel.createProcess
  by_cases hPro : p.pro = 0
  · exact if_pos hPro
  · rw [if_neg hPro]
    by_cases hStack : p.kernelStack = 0
    · exact if_pos hStack
    · rw [if_neg hStack, if_pos]
      by_contra hPage
      exact h ⟨hPro, hStack, fun hMode h0 => hPage ⟨hMode, h0⟩⟩

theorem createProcess_fst (hComplete : p.Complete mode)
    (h : k.createProcess entry mode p.pro p.kernelStack p.userPage = some (q, k')) :
    q = p.pro := by
  obtain ⟨hPro, hStack, hPage⟩ := hComplete
  unfold Kernel.createProcess at h
  rw [if_neg hPro, if_neg hStack, if_neg fun hMissing => hPage hMissing.1 hMissing.2] at h
  obtain ⟨k₁, -, hEq⟩ := Option.map_eq_some_iff.mp h
  exact (congrArg Prod.fst hEq).symm

/-- The kernel with the new control block and frame, before `add_process`. -/
structure Built (k k' : Kernel) (entry mode : Nat) (p : Parts) : Prop where
  other : ∀ q, q ≠ p.pro → k'.processes q = k.processes q
  parent : (k'.processes p.pro).parent = k.currentProcess
  kernelStack : (k'.processes p.pro).kernelStack = p.kernelStack
  slot : (k'.processes p.pro).regs = (p.kernelStack + kernelStackSize - sizeofRegisters) % 2 ^ 32
  userStack : mode = processUser → (k'.processes p.pro).userStack = p.userPage
  frame : k'.frames ((p.kernelStack + kernelStackSize - sizeofRegisters) % 2 ^ 32) =
    k.initialFrame entry mode p.kernelStack (if mode = processUser then p.userPage else 0)
  frames : ∀ r, r ≠ (p.kernelStack + kernelStackSize - sizeofRegisters) % 2 ^ 32 →
    k'.frames r = k.frames r
  list : k'.processList = k.processList
  current : k'.currentProcess = k.currentProcess

/-- **`create_process`** with all its parts. -/
theorem createProcess_built (hComplete : p.Complete mode) (entry : Nat) (k : Kernel) :
    ∃ k', Built k k' entry mode p ∧
      k.createProcess entry mode p.pro p.kernelStack p.userPage =
        (k'.addProcess p.pro).map fun k => (p.pro, k) := by
  obtain ⟨hPro, hStack, hPage⟩ := hComplete
  unfold Kernel.createProcess
  rw [if_neg hPro, if_neg hStack, if_neg fun hMissing => hPage hMissing.1 hMissing.2]
  refine ⟨_, ?_, rfl⟩
  constructor
  · intro q hq
    simp only [Kernel.modifyFrame, modify_processes_ne _ hq]
  · simp [Kernel.modifyFrame, Kernel.modify]
  · simp [Kernel.modifyFrame, Kernel.modify]
  · simp [Kernel.modifyFrame, Kernel.modify]
  · intro hMode
    simp [Kernel.modifyFrame, Kernel.modify, hMode]
  · simp [Kernel.modifyFrame, Kernel.modify, Kernel.initialFrame]
  · intro r hr
    exact if_neg hr
  · rfl
  · rfl

variable {created held listed lost : List Nat} {ptr : Vm → Nat → Option Nat}
  {s s' : System Lent}

/-- With all its parts a process is created. -/
theorem sysCreateProcess_complete (hT : Table k created) (hRange : p.pro < 2 ^ 32)
    (hNew : p.pro ∉ created) (hComplete : p.Complete mode) (entry : Nat) :
    ∃ k', k.sysCreateProcess entry mode p.pro p.kernelStack p.userPage = some (p.pro, k') ∧
      Made created p.pro p.kernelStack k k' := by
  rcases sysCreateProcess_made hT hRange hNew entry mode p.kernelStack p.userPage with
    hFail | ⟨-, k', hMade, hM⟩
  · exfalso
    rcases createProcess_cases hT hRange hNew entry mode p.kernelStack p.userPage with
      hNone | ⟨-, k₁, hCreate, hC⟩
    · exact hComplete.1 (createProcess_fst hComplete hNone).symm
    · unfold Kernel.sysCreateProcess at hFail
      rw [hCreate, Option.bind_some] at hFail
      obtain ⟨valid, -, hEq⟩ := Option.map_eq_some_iff.mp hFail
      have hSame : k₁ = k := congrArg Prod.snd hEq
      have hNext := hC.number
      have hNumber := hT.number
      rw [hSame] at hNext
      omega
  · exact ⟨k', hMade, hM⟩

theorem sysCreateProcess_fails (h : ¬p.Complete mode) {r : Nat × Kernel}
    (hRun : k.sysCreateProcess entry mode p.pro p.kernelStack p.userPage = some r) :
    r = (0, k) := by
  unfold Kernel.sysCreateProcess at hRun
  rw [createProcess_fails h, Option.bind_some] at hRun
  obtain ⟨valid, -, rfl⟩ := Option.map_eq_some_iff.mp hRun
  rw [ite_self]

/-- With all its parts a child is created. -/
theorem sysFork_complete (hT : Table k created) (hRange : p.pro < 2 ^ 32)
    (hNew : p.pro ∉ created) (hComplete : p.Complete processUser) (regs : Nat) :
    ∃ k', k.sysFork regs p.pro p.kernelStack p.userPage = some (k.processNumber, k') ∧
      Made created p.pro p.kernelStack k k' := by
  rcases sysFork_made hT hRange hNew regs p.kernelStack p.userPage with
    ⟨frames, hFail⟩ | ⟨-, k', hMade, hM⟩
  · exfalso
    rcases createProcess_cases hT hRange hNew 0 processUser p.kernelStack p.userPage with
      hNone | ⟨hPro, k₁, hCreate, hC⟩
    · exact hComplete.1 (createProcess_fst hComplete hNone).symm
    · unfold Kernel.sysFork at hFail
      rw [hCreate, Option.map_some] at hFail
      simp only [if_neg hPro, Option.some.injEq, Prod.mk.injEq] at hFail
      have hPid := hFail.1
      have hNumber := hT.number
      simp only [Kernel.modifyFrame, hC.pid, minusOne] at hPid
      omega
  · exact ⟨k', hMade, hM⟩

theorem sysFork_fails (h : ¬p.Complete processUser) (regs : Nat) :
    k.sysFork regs p.pro p.kernelStack p.userPage =
      some (minusOne, k.modifyFrame regs fun r => { r with eax := minusOne }) := by
  unfold Kernel.sysFork
  rw [createProcess_fails h, Option.map_some]
  rfl

/-- **`SYS_CREATE_PROCESS`** fails, or it adds a process whose control block
nobody held. -/
theorem sysCreateProcess_spec (hT : Table s.kernel created) (hSound : Sound s.pages)
    (hL : Ledger s.heap s.pages.heap held listed lost) (hHeld : ∀ q ∈ created, q ∈ held)
    (h : sysCreateProcess ((lending ptr).guard Lent.supplied) entry mode s = some (q, s')) :
    Sound s'.pages ∧ q ∉ held ∧ Table s'.kernel (if q = 0 then created else created ++ [q]) ∧
      ∃ listed' lost', Ledger s'.heap s'.pages.heap (if q = 0 then held else q :: held)
        listed' lost' := by
  obtain ⟨⟨p, s₁⟩, hParts, h⟩ := Option.bind_eq_some_iff.mp h
  obtain ⟨c, hCreate, hEq⟩ := Option.map_eq_some_iff.mp h
  cases hEq
  obtain ⟨hKernel, hObtained⟩ := acquire_pages supplied_roomy hSound hParts
  obtain ⟨hRange, hNew, listed', lost', hL'⟩ := acquire_ledger hSound hL hParts
  simp only [hKernel] at hCreate
  refine ⟨hObtained.sound, ?_⟩
  by_cases hComplete : p.Complete mode
  · obtain ⟨k', hMade, hM⟩ :=
      sysCreateProcess_complete hT hRange (fun hIn => hNew (hHeld _ hIn)) hComplete entry
    rw [hMade] at hCreate
    cases hCreate
    rw [if_pos hComplete] at hL'
    rw [if_neg hComplete.1, if_neg hComplete.1]
    exact ⟨hNew, hM.table, listed', lost', hL'⟩
  · have hNone := sysCreateProcess_fails hComplete hCreate
    subst hNone
    rw [if_neg hComplete] at hL'
    rw [if_pos rfl, if_pos rfl]
    exact ⟨hL.ne_zero, hT, listed', lost', hL'⟩

/-- **`SYS_FORK`** likewise. -/
theorem sysFork_spec {pid regs : Nat} (hT : Table s.kernel created)
    (hSound : Sound s.pages)
    (hL : Ledger s.heap s.pages.heap held listed lost) (hHeld : ∀ q ∈ created, q ∈ held)
    (h : sysFork ((lending ptr).guard Lent.supplied) regs s = some (pid, p, s')) :
    Sound s'.pages ∧ p.pro ∉ held ∧
      Table s'.kernel (if pid = minusOne then created else created ++ [p.pro]) ∧
      ∃ listed' lost', Ledger s'.heap s'.pages.heap
        (if pid = minusOne then held else p.pro :: held) listed' lost' := by
  obtain ⟨⟨parts, s₁⟩, hParts, h⟩ := Option.bind_eq_some_iff.mp h
  obtain ⟨c, hFork, hEq⟩ := Option.map_eq_some_iff.mp h
  cases hEq
  obtain ⟨hKernel, hObtained⟩ := acquire_pages supplied_roomy hSound hParts
  obtain ⟨hRange, hNew, listed', lost', hL'⟩ := acquire_ledger hSound hL hParts
  simp only [hKernel] at hFork
  refine ⟨hObtained.sound, hNew, ?_⟩
  by_cases hComplete : parts.Complete processUser
  · obtain ⟨k', hMade, hM⟩ :=
      sysFork_complete hT hRange (fun hIn => hNew (hHeld _ hIn)) hComplete regs
    rw [hMade] at hFork
    cases hFork
    have hPid : s.kernel.processNumber ≠ minusOne := by
      have hNumber := hT.number
      unfold minusOne
      omega
    rw [if_pos hComplete] at hL'
    rw [if_neg hPid, if_neg hPid]
    exact ⟨hM.table, listed', lost', hL'⟩
  · rw [sysFork_fails hComplete] at hFork
    cases hFork
    rw [if_neg hComplete] at hL'
    rw [if_pos rfl, if_pos rfl]
    exact ⟨{ hT with }, listed', lost', hL'⟩

end Creation

end MiniKernel.Ports.SystemCalls
