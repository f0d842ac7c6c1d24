import MiniKernel.Ports.SystemHeap

/-!
# Processes born in user mode

Runs of the system with the trap frame of every `SYS_FORK`: processes at ring 3
make system calls and write wherever user code can write, which is almost
everywhere.  The CPU has pushed the user `cs`, `ss` and `esp` when `sys_fork`
runs; they are part of the event.

`SYS_CREATE_PROCESS` hands the mode from a register of the caller to
`create_process`, which tests it twice: for `PROCESS_USER` before it allocates
a stack, for `PROCESS_KERNEL` before it fills the frame.  A mode that is
neither makes a user process without a stack, and `PROCESS_KERNEL` a process
at ring 0.  `born_in_user_mode` is about the lawful runs without such a call, in
which `sys_fork` finds the stack of its caller where the control block says.
-/

namespace MiniKernel.Ports.UserProcesses

open MiniKernel.Verified.ByteMemory
open MiniKernel.Verified.PageWords
open MiniKernel.Verified.Trace
open MiniKernel.Ports.Paging (Vm)
open MiniKernel.Ports.PageLending
open MiniKernel.Ports.ProcessTable
open MiniKernel.Ports.ProcessSteps (Beside modify_processes_self modify_processes_ne)
open MiniKernel.Ports.ProcessSwitch (addProcess_rest addProcess_frames)
open MiniKernel.Ports.ProcessRuns (Running stackUsed)
open MiniKernel.Ports.SystemCalls
open MiniKernel.Ports.SystemHeap (Lawful)

/-- The frame a new process starts with and its `user_stack`. -/
structure Birth where
  process : Nat
  frame : Registers
  stack : Nat
  deriving Repr, DecidableEq

structure State where
  base : SystemHeap.State
  births : List Birth

inductive Event
  | create (entry mode : Nat)
  | fork (frame : Registers)
  /-- The kernel's own `create_process`, or what makes no process. -/
  | other (e : SystemHeap.Event)

/-- Before the first `create_process`. -/
def initial (s : System Lent) : State where
  base := SystemHeap.initial s
  births := []

/-- Where the CPU and the handler put the frame of a trap. -/
def trapFrame (k : Kernel) : Nat := (k.esp0 + (2 ^ 32 - sizeofRegisters)) % 2 ^ 32

/-- The state after a creation; `0` is none. -/
def State.bear (s : State) (p : Nat) (base : SystemHeap.State) : State where
  base := base
  births :=
    if p = 0 then s.births
    else
      let block := base.system.kernel.processes p
      ⟨p, base.system.kernel.frames block.regs, block.userStack⟩ :: s.births

/-- The caller's trap frame is in place. -/
def trapped (frame : Registers) (s : SystemHeap.State) : SystemHeap.State :=
  let kernel := s.system.kernel.modifyFrame (trapFrame s.system.kernel) fun _ => frame
  { s with system := { s.system with kernel := kernel } }

/-- One step.  The process of `SYS_CREATE_PROCESS` exists whatever its check of
the list says. -/
def step (A : PageAllocator Lent) (s : State) : Event → Option State
  | .create entry mode =>
      if Running s.base.system.kernel then
        (createProcess A entry mode s.base.system).bind fun r =>
          (SystemHeap.step A s.base (.create entry mode)).map (s.bear r.1)
      else none
  | .fork frame =>
      if frame.cs = userCs ∧ frame.userSs = userDs then
        let base := trapped frame s.base
        let regs := trapFrame s.base.system.kernel
        (sysFork A regs base.system).bind fun r =>
          (SystemHeap.step A base (.fork regs)).map
            (s.bear (if r.2.1.Complete processUser then r.2.1.pro else 0))
      else none
  | .other (.fork _) => none
  | .other e => (SystemHeap.step A s.base e).map fun base => { s with base := base }

/-- Ring 3, with the stack pointer in the stack page. -/
structure AtRing3 (b : Birth) : Prop where
  cs : b.frame.cs = userCs
  ss : b.frame.userSs = userDs
  low : b.stack ≤ b.frame.userEsp
  high : b.frame.userEsp ≤ b.stack + 4096

/-- Every process was born at ring 3 on a stack page of its own: the stacks are
pages lent for user stacks, each for one of them, and no page is lent twice. -/
structure Confined (s : State) : Prop where
  born : ∀ b ∈ s.births, AtRing3 b
  own : (s.births.map Birth.stack).Sublist s.base.system.pages.user
  apart : s.base.system.pages.held.Nodup

/-- The frame of the trap is not in the six pages from `next_virtual` on: one
may go to the heap, four to a kernel stack and one to a user stack. -/
def TrapApart (s : System Lent) : Prop :=
  s.kernel.esp0 % 2 ^ 32 ≤ s.pages.vm.nextVirtual ∨
    s.pages.vm.nextVirtual + 6 * 4096 < s.kernel.esp0 % 2 ^ 32

/-- Processes that can be made are user processes, the trap frame of a parent is
in order, and the step is lawful. -/
def Guarded (ptr : Vm → Nat → Option Nat) (s : State) : Event → Prop
  | .create entry mode =>
      Lawful ptr s.base (.create entry mode) ∧
        ∀ r ∈ acquire (lending ptr) mode s.base.system, r.1.Complete mode → mode = processUser
  | .fork frame =>
      Lawful ptr (trapped frame s.base) (.fork (trapFrame s.base.system.kernel)) ∧
        ∀ r ∈ acquire (lending ptr) processUser (trapped frame s.base).system,
          r.1.Complete processUser → TrapApart s.base.system
  | .other e => Lawful ptr s.base e

instance (s : System Lent) : Decidable (TrapApart s) := by
  unfold TrapApart
  infer_instance

instance (ptr : Vm → Nat → Option Nat) (s : State) (e : Event) : Decidable (Guarded ptr s e) := by
  unfold Guarded
  cases e <;> infer_instance

/-! ## The new process -/

section Birth

variable {k k' : Kernel} {entry q : Nat} {p : Parts}

/-- The slot of the saved frame on a kernel stack. -/
def slot (kernelStack : Nat) : Nat := (kernelStack + kernelStackSize - sizeofRegisters) % 2 ^ 32

/-- What `create_process` leaves of a user process. -/
structure Made (k k' : Kernel) (entry : Nat) (p : Parts) : Prop where
  regs : (k'.processes p.pro).regs = slot p.kernelStack
  stack : (k'.processes p.pro).userStack = p.userPage
  frame : k'.frames (slot p.kernelStack) =
    k.initialFrame entry processUser p.kernelStack p.userPage
  frames : ∀ r, r ≠ slot p.kernelStack → k'.frames r = k.frames r
  other : ∀ c, c ≠ p.pro → (k'.processes c).userStack = (k.processes c).userStack

theorem createProcess_made (hComplete : p.Complete processUser)
    (h : k.createProcess entry processUser p.pro p.kernelStack p.userPage = some (q, k')) :
    q = p.pro ∧ Made k k' entry p := by
  obtain ⟨k₁, hB, hBuilt⟩ := createProcess_built hComplete entry k
  rw [hBuilt] at h
  obtain ⟨k₂, hAdd, hEq⟩ := Option.map_eq_some_iff.mp h
  cases hEq
  obtain ⟨-, -, hFields⟩ := addProcess_rest hAdd
  have hFrames := addProcess_frames hAdd
  refine ⟨rfl, ?_⟩
  constructor
  · rw [hFields p.pro]
    exact hB.slot
  · rw [hFields p.pro]
    exact hB.userStack rfl
  · rw [hFrames]
    exact hB.frame
  · intro r hr
    rw [hFrames]
    exact hB.frames r hr
  · intro c hc
    rw [hFields c, hB.other c hc]

/-- The stack pointer `sys_fork` computes for the child. -/
def childEsp (userPage userStack userEsp : Nat) : Nat :=
  ((userPage + 4096) % 2 ^ 32 +
    (2 ^ 32 - ((userStack + 4096) % 2 ^ 32 + (2 ^ 32 - userEsp)) % 2 ^ 32)) % 2 ^ 32

/-- What `sys_fork` leaves of the child. -/
theorem sysFork_made {regs pid : Nat} (hComplete : p.Complete processUser)
    (hCaller : k.currentProcess ≠ p.pro) (hTrap : regs ≠ slot p.kernelStack)
    (h : k.sysFork regs p.pro p.kernelStack p.userPage = some (pid, k')) :
    (k'.processes p.pro).userStack = p.userPage ∧
      k'.frames (k'.processes p.pro).regs =
        { k.frames regs with
          eax := 0
          userEsp := childEsp p.userPage (k.processes k.currentProcess).userStack
            (k.frames regs).userEsp
          ebp := (k'.frames (k'.processes p.pro).regs).ebp } := by
  unfold Kernel.sysFork at h
  obtain ⟨⟨q, k₁⟩, hCreate, hEq⟩ := Option.map_eq_some_iff.mp h
  obtain ⟨rfl, hM⟩ := createProcess_made hComplete hCreate
  simp only [if_neg hComplete.1, Prod.mk.injEq] at hEq
  obtain ⟨-, rfl⟩ := hEq
  have hStack : (k₁.processes k.currentProcess).userStack =
      (k.processes k.currentProcess).userStack := hM.other _ hCaller
  have hFrame : k₁.frames regs = k.frames regs := hM.frames regs hTrap
  constructor
  · rw [modify_processes_self]
    exact hM.stack
  · rw [modify_processes_self]
    simp only [Kernel.modify, Kernel.modifyFrame, hM.regs, if_neg (Ne.symm hTrap), if_pos]
    simp only [Kernel.forkFrame, hFrame, hStack, hM.stack, childEsp]

end Birth

/-! ## The invariant -/

section Runs

variable {ptr : Vm → Nat → Option Nat} {s s' : State}

/-- What a run keeps. -/
structure Sane (s : State) : Prop where
  base : SystemHeap.Guarded s.base
  born : ∀ b ∈ s.births, AtRing3 b
  own : (s.births.map Birth.stack).Sublist s.base.system.pages.user

theorem Sane.confined (h : Sane s) : Confined s where
  born := h.born
  own := h.own
  apart := h.base.sound.nodup

/-- Nobody is born. -/
theorem Sane.keep {base : SystemHeap.State} (h : Sane s) (hBase : SystemHeap.Guarded base)
    (hUser : s.base.system.pages.user.Sublist base.system.pages.user) :
    Sane { s with base := base } where
  base := hBase
  born := h.born
  own := h.own.trans hUser

theorem Sane.bear {base : SystemHeap.State} {p : Nat} (h : Sane s) (hp : p ≠ 0)
    (hBase : SystemHeap.Guarded base)
    (hUser : base.system.pages.user =
      (base.system.kernel.processes p).userStack :: s.base.system.pages.user)
    (hBorn : AtRing3 ⟨p, base.system.kernel.frames (base.system.kernel.processes p).regs,
      (base.system.kernel.processes p).userStack⟩) : Sane (s.bear p base) := by
  unfold State.bear
  rw [if_neg hp]
  constructor
  · exact hBase
  · intro b hb
    rcases List.mem_cons.mp hb with rfl | hb
    · exact hBorn
    · exact h.born b hb
  · simp only [List.map_cons]
    rw [hUser]
    exact h.own.cons_cons _

/-- What `SYS_CREATE_PROCESS` does in a lawful step. -/
theorem created_parts {b b' : SystemHeap.State} {entry mode q : Nat} {system : System Lent}
    (hLawful : Lawful ptr b (.create entry mode))
    (hBase : SystemHeap.step (lending ptr) b (.create entry mode) = some b')
    (hCreate : createProcess (lending ptr) entry mode b.system = some (q, system)) :
    b'.system = system ∧ ∃ p t,
      acquire ((lending ptr).guard Lent.supplied) mode b.system = some (p, t) ∧
      acquire (lending ptr) mode b.system = some (p, t) ∧
      ∃ k, t.kernel.createProcess entry mode p.pro p.kernelStack p.userPage = some (q, k) ∧
        system = { t with kernel := k } := by
  obtain ⟨c, hGuard⟩ := Option.isSome_iff_exists.mp hLawful.1
  obtain ⟨-, hGuard⟩ := Option.ite_none_right_eq_some.mp hGuard
  obtain ⟨r, hGuard, -⟩ := Option.map_eq_some_iff.mp hGuard
  obtain ⟨⟨p, t⟩, hParts, -⟩ := Option.bind_eq_some_iff.mp hGuard
  have hSame := acquire_extends (extends_guard (lending ptr) Lent.supplied) hParts
  unfold createProcess at hCreate
  rw [hSame, Option.bind_some] at hCreate
  obtain ⟨⟨q', k⟩, hKernel, hEq⟩ := Option.map_eq_some_iff.mp hCreate
  cases hEq
  refine ⟨?_, p, t, hParts, hSame, k, hKernel, rfl⟩
  obtain ⟨-, hBase⟩ := Option.ite_none_right_eq_some.mp hBase
  obtain ⟨r, hRun, rfl⟩ := Option.map_eq_some_iff.mp hBase
  unfold sysCreateProcess at hRun
  rw [hSame, Option.bind_some] at hRun
  obtain ⟨c, hValid, rfl⟩ := Option.map_eq_some_iff.mp hRun
  unfold Kernel.sysCreateProcess at hValid
  rw [hKernel, Option.bind_some] at hValid
  obtain ⟨valid, -, rfl⟩ := Option.map_eq_some_iff.mp hValid
  rfl

/-- **A user process** starts at the top of its stack page. -/
theorem Sane.create {entry mode : Nat} (h : Sane s) (hOk : Guarded ptr s (.create entry mode))
    (hStep : step (lending ptr) s (.create entry mode) = some s') : Sane s' := by
  obtain ⟨hLawful, hMode⟩ := hOk
  obtain ⟨-, hStep⟩ := Option.ite_none_right_eq_some.mp hStep
  obtain ⟨⟨q, system⟩, hCreate, hStep⟩ := Option.bind_eq_some_iff.mp hStep
  obtain ⟨base, hBase, rfl⟩ := Option.map_eq_some_iff.mp hStep
  have hGuarded : SystemHeap.Guarded base :=
    SystemHeap.step_guarded _ (extends_guard _ _) s.base _ base h.base hLawful hBase
  obtain ⟨hSystem, p, t, hParts, hSame, k, hKernel, rfl⟩ :=
    created_parts hLawful hBase hCreate
  obtain ⟨hOld, hObtained⟩ := acquire_pages supplied_roomy h.base.sound hParts
  rw [hOld] at hKernel
  by_cases hComplete : p.Complete mode
  · have hUserMode := hMode _ hSame hComplete
    subst hUserMode
    obtain ⟨hPro, hM⟩ := createProcess_made hComplete hKernel
    rw [hPro]
    obtain ⟨hNone, -⟩ | ⟨-, hIs, hUser⟩ := hObtained.user
    · exact absurd hNone (hComplete.2.2 rfl)
    · apply h.bear
      · exact hComplete.1
      · exact hGuarded
      · simp only [hSystem, hM.stack]
        exact hUser
      · have hTop : (p.userPage + 4096) % 2 ^ 32 = p.userPage + 4096 :=
          Nat.mod_eq_of_lt hIs.2.2
        simp only [hSystem, hM.regs, hM.stack, hM.frame, Kernel.initialFrame,
          if_neg (show processUser ≠ processKernel by decide)]
        exact ⟨rfl, rfl, by simp only [hTop]; omega, by simp only [hTop]; omega⟩
  · rw [createProcess_fails hComplete] at hKernel
    cases hKernel
    obtain ⟨-, hUser⟩ | ⟨hAll, -⟩ := hObtained.user
    · refine h.keep hGuarded ?_
      simp only [hSystem, hUser]
      exact List.Sublist.refl _
    · exact absurd hAll hComplete

/-- What `SYS_FORK` does in a lawful step. -/
theorem forked_parts {b b' : SystemHeap.State} {regs pid : Nat} {parts : Parts}
    {system : System Lent} (hLawful : Lawful ptr b (.fork regs))
    (hBase : SystemHeap.step (lending ptr) b (.fork regs) = some b')
    (hFork : sysFork (lending ptr) regs b.system = some (pid, parts, system)) :
    Running b.system.kernel ∧ b'.system = system ∧
      sysFork ((lending ptr).guard Lent.supplied) regs b.system = some (pid, parts, system) ∧
      ∃ t, acquire ((lending ptr).guard Lent.supplied) processUser b.system = some (parts, t) ∧
        acquire (lending ptr) processUser b.system = some (parts, t) ∧
        ∃ k, t.kernel.sysFork regs parts.pro parts.kernelStack parts.userPage = some (pid, k) ∧
          system = { t with kernel := k } := by
  obtain ⟨c, hGuard⟩ := Option.isSome_iff_exists.mp hLawful.1
  obtain ⟨hOn, hGuard⟩ := Option.ite_none_right_eq_some.mp hGuard
  obtain ⟨⟨pid', parts', system'⟩, hGuard, -⟩ := Option.map_eq_some_iff.mp hGuard
  have hSame := sysFork_extends (extends_guard (lending ptr) Lent.supplied) hGuard
  rw [hFork] at hSame
  cases hSame
  obtain ⟨⟨p, t⟩, hParts, hRest⟩ := Option.bind_eq_some_iff.mp hGuard
  obtain ⟨⟨q, k⟩, hKernel, hEq⟩ := Option.map_eq_some_iff.mp hRest
  cases hEq
  refine ⟨hOn, ?_, hGuard, t, hParts, acquire_extends (extends_guard _ _) hParts, k, hKernel,
    rfl⟩
  obtain ⟨-, hBase⟩ := Option.ite_none_right_eq_some.mp hBase
  obtain ⟨r, hRun, rfl⟩ := Option.map_eq_some_iff.mp hBase
  rw [hFork] at hRun
  cases hRun
  rfl

/-- The trap frame changes nothing of the invariant. -/
theorem Sane.trapped {frame : Registers} (h : Sane s) :
    SystemHeap.Guarded (trapped frame s.base) where
  table := (Beside.frames s.base.created s.base.system.kernel _).table h.base.table
  sound := h.base.sound
  ledger := h.base.ledger
  own := h.base.own
  released := h.base.released

/-- **A child** resumes where its parent called, on its own stack page. -/
theorem Sane.fork {frame : Registers} (h : Sane s) (hOk : Guarded ptr s (.fork frame))
    (hStep : step (lending ptr) s (.fork frame) = some s') : Sane s' := by
  obtain ⟨hLawful, hTrapApart⟩ := hOk
  obtain ⟨⟨hCs, hSs⟩, hStep⟩ := Option.ite_none_right_eq_some.mp hStep
  obtain ⟨⟨pid, p, system⟩, hFork, hStep⟩ := Option.bind_eq_some_iff.mp hStep
  obtain ⟨base, hBase, rfl⟩ := Option.map_eq_some_iff.mp hStep
  have hInvariant : SystemHeap.Guarded (UserProcesses.trapped frame s.base) := h.trapped
  have hGuarded : SystemHeap.Guarded base :=
    SystemHeap.step_guarded _ (extends_guard _ _) _ _ base hInvariant hLawful hBase
  obtain ⟨hOn, hSystem, hGuard, t, hParts, hSame, k, hKernel, rfl⟩ :=
    forked_parts hLawful hBase hFork
  obtain ⟨hOld, hObtained⟩ := acquire_pages supplied_roomy hInvariant.sound hParts
  rw [hOld] at hKernel
  by_cases hComplete : p.Complete processUser
  · have hInStep := hLawful.2.2 _ hSame hComplete
    have hApart := hTrapApart _ hSame hComplete
    obtain ⟨listed, lost, hL⟩ := hInvariant.ledger
    obtain ⟨-, hNew, -⟩ := sysFork_spec hInvariant.table hInvariant.sound hL
      (fun _ hq => List.mem_append_left _ hq) hGuard
    have hCaller : (UserProcesses.trapped frame s.base).system.kernel.currentProcess ≠ p.pro := by
      intro hEq
      have hIn := hInvariant.table.caller hOn.2
      rw [hEq] at hIn
      exact hNew (List.mem_append_left _ hIn)
    obtain ⟨-, -, hEnd⟩ := hObtained.base hComplete
    obtain ⟨hLow, hHigh⟩ := hObtained.reach hComplete
    have hTrap : trapFrame s.base.system.kernel ≠ slot p.kernelStack := by
      have hPositive := h.base.sound.whole.positive
      simp only [UserProcesses.trapped] at hLow hHigh
      unfold TrapApart at hApart
      unfold trapFrame slot sizeofRegisters
      unfold kernelStackSize at *
      omega
    obtain ⟨hStack, hFrame⟩ := sysFork_made hComplete hCaller hTrap hKernel
    have hFound : (UserProcesses.trapped frame s.base).system.kernel.frames
        (trapFrame s.base.system.kernel) = frame := by
      simp [UserProcesses.trapped, Kernel.modifyFrame]
    obtain ⟨hNone, -⟩ | ⟨-, hIs, hUser⟩ := hObtained.user
    · exact absurd hNone (hComplete.2.2 rfl)
    · rw [if_pos hComplete]
      apply h.bear
      · exact hComplete.1
      · exact hGuarded
      · simp only [hSystem, hStack]
        exact hUser
      · unfold stackUsed at hInStep
        unfold IsPage at hIs
        rw [hFound] at hInStep
        simp only [hSystem, hStack]
        rw [hFrame, hFound]
        refine ⟨hCs, hSs, ?_, ?_⟩
        · simp only [childEsp]
          omega
        · simp only [childEsp]
          omega
  · obtain ⟨-, hUser⟩ | ⟨hAll, -⟩ := hObtained.user
    · rw [if_neg hComplete]
      refine h.keep hGuarded ?_
      simp only [hSystem, hUser]
      exact List.Sublist.refl _
    · exact absurd hAll hComplete

/-- What makes no process here keeps the user stack pages. -/
theorem other_user {b b' : SystemHeap.State} {e : SystemHeap.Event}
    (h : SystemHeap.Guarded b) (hFork : ∀ regs, e ≠ .fork regs)
    (hStep : SystemHeap.step ((lending ptr).guard Lent.supplied) b e = some b') :
    b.system.pages.user.Sublist b'.system.pages.user := by
  cases e with
  | create entry mode =>
      obtain ⟨-, hStep⟩ := Option.ite_none_right_eq_some.mp hStep
      obtain ⟨⟨q, system⟩, hRun, rfl⟩ := Option.map_eq_some_iff.mp hStep
      obtain ⟨⟨p, t⟩, hParts, hRun⟩ := Option.bind_eq_some_iff.mp hRun
      obtain ⟨c, -, hEq⟩ := Option.map_eq_some_iff.mp hRun
      cases hEq
      obtain ⟨-, hObtained⟩ := acquire_pages supplied_roomy h.sound hParts
      obtain ⟨-, hUser⟩ | ⟨-, -, hUser⟩ := hObtained.user
      · simp only [hUser]
        exact List.Sublist.refl _
      · simp only [hUser]
        exact List.sublist_cons_self _ _
  | fork regs => exact absurd rfl (hFork regs)
  | malloc size =>
      obtain ⟨-, hStep⟩ := Option.ite_none_right_eq_some.mp hStep
      obtain ⟨⟨q, system⟩, hRun, rfl⟩ := Option.map_eq_some_iff.mp hStep
      obtain ⟨⟨q, heap, pages⟩, hBlock, hEq⟩ := Option.map_eq_some_iff.mp hRun
      cases hEq
      have hGrown := kmalloc_grown supplied_roomy h.sound hBlock
      exact hGrown.user ▸ List.Sublist.refl _
  | free address =>
      obtain ⟨-, hStep⟩ := Option.ite_none_right_eq_some.mp hStep
      obtain ⟨done, -, hStep⟩ := Option.bind_eq_some_iff.mp hStep
      obtain ⟨system, hRun, rfl⟩ := Option.map_eq_some_iff.mp hStep
      obtain ⟨heap, -, rfl⟩ := Option.map_eq_some_iff.mp hRun
      exact List.Sublist.refl _
  | wait status regs =>
      obtain ⟨-, hStep⟩ := Option.ite_none_right_eq_some.mp hStep
      obtain ⟨r, -, rfl⟩ := Option.map_eq_some_iff.mp hStep
      by_cases hNone : r.1 = 0
      · simp only [if_pos hNone]
        exact List.Sublist.refl _
      · simp only [if_neg hNone]
        exact List.Sublist.refl _
  | exec mapped pmm mem pageDirectory =>
      obtain ⟨-, hEq⟩ := Option.ite_none_right_eq_some.mp hStep
      cases hEq
      exact List.Sublist.refl _
  | call c =>
      obtain ⟨k, -, rfl⟩ := Option.map_eq_some_iff.mp hStep
      exact List.Sublist.refl _
  | store a value =>
      cases hStep
      exact List.Sublist.refl _

/-- **Nobody is born** in any other step. -/
theorem Sane.other {e : SystemHeap.Event} (h : Sane s) (hOk : Guarded ptr s (.other e))
    (hFork : ∀ regs, e ≠ .fork regs)
    (hStep : (SystemHeap.step (lending ptr) s.base e).map (fun base => { s with base := base }) =
      some s') : Sane s' := by
  obtain ⟨base, hBase, rfl⟩ := Option.map_eq_some_iff.mp hStep
  obtain ⟨c, hGuard⟩ := Option.isSome_iff_exists.mp hOk.1
  have hSame := SystemHeap.step_extends (extends_guard (lending ptr) Lent.supplied) hGuard
  rw [hBase] at hSame
  cases hSame
  apply h.keep
  · exact SystemHeap.step_guarded _ (extends_guard _ _) s.base e base h.base hOk hBase
  · exact other_user h.base hFork hGuard

/-- **One guarded step keeps the invariant.** -/
theorem step_sane (s : State) (e : Event) (s' : State) (h : Sane s) (hOk : Guarded ptr s e)
    (hStep : step (lending ptr) s e = some s') : Sane s' := by
  cases e with
  | create entry mode => exact h.create hOk hStep
  | fork frame => exact h.fork hOk hStep
  | other e =>
      cases e with
      | fork regs => simp [step] at hStep
      | create entry mode => exact h.other hOk (by simp) hStep
      | malloc size => exact h.other hOk (by simp) hStep
      | free address => exact h.other hOk (by simp) hStep
      | wait status regs => exact h.other hOk (by simp) hStep
      | exec mapped pmm mem pageDirectory => exact h.other hOk (by simp) hStep
      | call c => exact h.other hOk (by simp) hStep
      | store a value => exact h.other hOk (by simp) hStep

/-- **Every process is born in user mode**, on a stack of its own, in a run whose
steps are all guarded. -/
theorem born_in_user_mode {processes : Nat → Process} {frames : Nat → Registers}
    {ticks esp0 processEntry : Nat} {mem : Mem} {pmm : Pmm.Table} {tables : Mem}
    {freeVirtual : Nat → Nat} {events : List Event}
    (hRun : exec (step (lending ptr)) (initial (start processes frames ticks esp0 processEntry mem
      pmm tables freeVirtual)) events = some s)
    (hOk : Meets (step (lending ptr)) (Guarded ptr) (initial (start processes frames ticks esp0
      processEntry mem pmm tables freeVirtual)) events) : Confined s := by
  have hInvariant : Sane s := by
    apply hOk.invariant step_sane
    · constructor
      · exact SystemHeap.start_guarded processes frames ticks esp0 processEntry mem pmm tables
          freeVirtual
      · simp [initial]
      · exact List.Sublist.refl _
    · exact hRun
  exact hInvariant.confined

end Runs

/-- The frame of a call from user code with this stack pointer. -/
def userFrame (userEsp : Nat) : Registers :=
  { gs := userDs, fs := userDs, es := userDs, ds := userDs, edi := 0, esi := 0, ebp := 0, esp := 0
    ebx := 0, edx := 0, ecx := 0, eax := 15, eip := 0x10B42, cs := userCs, eflags := 0x202
    userEsp := userEsp, userSs := userDs }

/-- The first process makes a child of its own and then a second one. -/
theorem born_in_user_mode_fork :
    ∃ s, exec (step (lending Paging.direct)) (initial pcStart)
        [.other (.create 0x10B00 1), .fork (userFrame 0x2BF80), .create 0x10C00 1] = some s ∧
      s.births.map (fun b => (b.stack, b.frame.userEsp)) =
        [(0x35000, 0x36000), (0x30000, 0x30F80)] ∧
      Confined s := by
  have hView : (exec (step (lending Paging.direct)) (initial pcStart)
      [.other (.create 0x10B00 1), .fork (userFrame 0x2BF80), .create 0x10C00 1]).map
        (fun s => s.births.map fun b => (b.stack, b.frame.userEsp)) =
      some [(0x35000, 0x36000), (0x30000, 0x30F80)] := by
    rw [pcStart, start, Paging.boot_eq]
    decide +kernel
  obtain ⟨s, hRun, hs⟩ := Option.map_eq_some_iff.mp hView
  refine ⟨s, hRun, hs, born_in_user_mode hRun ?_⟩
  rw [start, Paging.boot_eq]
  decide +kernel

/-- `SYS_CREATE_PROCESS` with mode 0 makes a process at ring 0, and with mode 2
one without a stack page. -/
theorem born_elsewhere :
    ∃ s, exec (step (lending Paging.direct)) (initial pcStart)
        [.other (.create 0x10B00 1), .create 0x10C00 0, .create 0x10C00 2] = some s ∧
      s.births.map (fun b => (b.frame.cs, b.stack, b.frame.userEsp)) =
        [(userCs, 0, 4096), (kernelCs, 0, 0)] ∧
      s.base.system.pages.user = [0x2B000] ∧ ¬Confined s := by
  have hView : (exec (step (lending Paging.direct)) (initial pcStart)
      [.other (.create 0x10B00 1), .create 0x10C00 0, .create 0x10C00 2]).map
        (fun s => (s.births.map fun b => (b.frame.cs, b.stack, b.frame.userEsp),
          s.base.system.pages.user, s.births.map Birth.stack)) =
      some ([(userCs, 0, 4096), (kernelCs, 0, 0)], [0x2B000], [0, 0]) := by
    rw [pcStart, start, Paging.boot_eq]
    decide +kernel
  obtain ⟨s, hRun, hs⟩ := Option.map_eq_some_iff.mp hView
  simp only [Prod.mk.injEq] at hs
  obtain ⟨hBirths, hUser, hStacks⟩ := hs
  refine ⟨s, hRun, hBirths, hUser, fun h => ?_⟩
  have hSub := h.own
  rw [hStacks, hUser] at hSub
  exact absurd hSub (by decide)

end MiniKernel.Ports.UserProcesses
