import MiniKernel.Ports.ProcessSwitch

/-!
# The stack of the next trap

The processor takes the kernel stack for a trap from user mode from
`tss.esp0`.  `context_switch` points it at the stack of the process it
resumes; `exit_process`, which resumes a process too, does not touch it.
`traps_on_own_stack` is the result about the sparing runs in which that makes no
difference.  `set_kernel_stack`, which nothing calls, points `esp0` into the
middle of the stack.
-/

namespace MiniKernel.Ports.ProcessStacks

open MiniKernel.Verified.Links
open MiniKernel.Verified.Trace
open MiniKernel.Ports.ProcessTable
open MiniKernel.Ports.ProcessSteps
open MiniKernel.Ports.ProcessRuns (Event blank boot boot_table Sparing)
open MiniKernel.Ports.ProcessSwitch

/-- `set_kernel_stack`. -/
def setKernelStack (k : Kernel) (next : Nat) : Kernel :=
  { k with esp0 := ((k.processes next).kernelStack + 4096) % 2 ^ 32 }

/-- The run so far, whether control has passed from one process to another,
and the processes that run in user mode. -/
structure State where
  base : ProcessRuns.State
  switched : Bool
  userMode : List Nat

def State.kernel (s : State) : Kernel := s.base.kernel

/-- One step.  `create_process` makes a kernel process for the mode
`PROCESS_KERNEL` only; a fork runs in the mode of its parent. -/
def step (s : State) (e : Event) : Option State :=
  (ProcessRuns.step s.base e).map fun base =>
    { base := base
      switched := s.switched ||
        decide (s.kernel.currentProcess ≠ 0 ∧ base.kernel.currentProcess ≠ s.kernel.currentProcess)
      userMode := match e with
        | .create _ mode pro _ _ =>
            if pro ∈ base.created ∧ mode ≠ processKernel then pro :: s.userMode else s.userMode
        | .fork _ pro _ _ =>
            if pro ∈ base.created ∧ s.kernel.currentProcess ∈ s.userMode then pro :: s.userMode
            else s.userMode
        | _ => s.userMode }

/-- Who runs after an exit of the caller: the first process behind it or,
failing that, in front of it that is ready or is its parent. -/
def successor (created : List Nat) (k : Kernel) : Option Nat :=
  (around k.currentProcess created).find? fun p =>
    decide (p ≠ 0 ∧ p = (k.processes k.currentProcess).parent) || k.state p == .ready

/-- When a user process runs after an exit, `esp0` is its stack already. -/
def StackReady (s : State) : Event → Prop
  | .exit _ | .finish =>
      ∀ next ∈ successor s.base.created s.kernel, next ∈ s.userMode →
        (s.kernel.processes next).kernelStackTo = s.kernel.esp0
  | _ => True

instance (s : State) : (e : Event) → Decidable (StackReady s e)
  | .exit _ | .finish => inferInstanceAs (Decidable (∀ next ∈ successor _ _, _))
  | .create .. | .fork .. | .yield _ | .sleep .. | .wait .. | .tick _ => .isTrue trivial

variable {k k' : Kernel} {created created' : List Nat}

theorem successor_eq_heir {e : Event} (hT : Table k created) (hRunning : k.currentProcess ≠ 0)
    (hLeaves : leaves e = true) :
    successor created k = heir created (prepared created k e) := by
  unfold successor heir
  rw [prepared_current]
  apply List.find?_congr
  intro p hp
  obtain ⟨-, hOther⟩ := (mem_around hT.linked.nodup (hT.caller hRunning)).mp hp
  rw [exit_state hLeaves hOther]
  by_cases hParent : p ≠ 0 ∧ p = (k.processes k.currentProcess).parent
  · rw [if_pos hParent, decide_eq_true hParent]
    simp
  · rw [if_neg hParent, decide_eq_false hParent]
    simp

theorem contextSwitch_esp0 (k : Kernel) (regs next : Nat) :
    (k.contextSwitch regs next).esp0 = (k.processes next).kernelStackTo := by
  unfold Kernel.contextSwitch Kernel.saveContext
  simp only
  split <;> rfl

/-! ## Runs -/

/-- A user process that runs after the first switch traps onto its own stack. -/
structure Trapping (s : State) : Prop where
  table : Table s.kernel s.base.created
  listed : ∀ p ∈ s.userMode, p ∈ s.base.created
  running : s.switched = true → s.kernel.currentProcess ≠ 0
  tops : ∀ p ∈ s.base.created, (s.kernel.processes p).kernelStackTo =
    ((s.kernel.processes p).kernelStack + kernelStackSize) % 2 ^ 32
  trap : s.switched = true → s.kernel.currentProcess ∈ s.userMode →
    s.kernel.esp0 = (s.kernel.processes s.kernel.currentProcess).kernelStackTo

/-- The stacks of listed processes do not move. -/
theorem outcome_stacks {e : Event} (hOutcome : Outcome created k e created' k')
    (h : ∀ p ∈ created, (k.processes p).kernelStackTo =
      ((k.processes p).kernelStack + kernelStackSize) % 2 ^ 32) :
    (∀ p ∈ created, (k'.processes p).kernelStackTo = (k.processes p).kernelStackTo) ∧
      ∀ p ∈ created', (k'.processes p).kernelStackTo =
        ((k'.processes p).kernelStack + kernelStackSize) % 2 ^ 32 := by
  have hTop := prepared_field Process.kernelStackTo (fun _ _ _ _ => rfl) created k e
  have hStack := prepared_field Process.kernelStack (fun _ _ _ _ => rfl) created k e
  have hPrepared : ∀ p ∈ created, ((prepared created k e).processes p).kernelStackTo =
      (((prepared created k e).processes p).kernelStack + kernelStackSize) % 2 ^ 32 := by
    intro p hp
    rw [hTop, hStack]
    exact h p hp
  cases hOutcome with
  | made pro kernelStack k' he hNew hMade =>
      have hOld : ∀ p ∈ created, k'.processes p =
          { k.processes p with next := (k'.processes p).next } :=
        fun p hp => hMade.other p fun hEq => hNew (hEq ▸ hp)
      refine ⟨fun p hp => by rw [hOld p hp], fun p hp => ?_⟩
      rcases List.mem_append.mp hp with hp | hp
      · rw [hOld p hp]
        exact h p hp
      · rw [List.mem_singleton.mp hp, hMade.stack, hMade.stackTop]
  | quiet k' hBeside he =>
      refine ⟨fun p hp => congrArg Process.kernelStackTo (hBeside.block p hp), fun p hp => ?_⟩
      rw [hBeside.block p hp]
      exact h p hp
  | resumed regs next he hLeaves hRunning hNext =>
      obtain ⟨frames, esp0, hEq⟩ := contextSwitch_eq (prepared created k e) regs next
      rw [hEq]
      exact ⟨fun p _ => hTop p, hPrepared⟩
  | stayed he hStays hNone => exact ⟨fun p _ => hTop p, hPrepared⟩
  | left next hLeaves hRunning hNext => exact ⟨fun p _ => hTop p, hPrepared⟩
  | stopped he hStays hRunning hNone => exact ⟨fun p _ => hTop p, hPrepared⟩

/-- The user processes after a step are those before and perhaps the new one. -/
theorem step_userMode {s s' : State} {e : Event} (hStep : step s e = some s') {p : Nat}
    (hp : p ∈ s'.userMode) :
    p ∈ s.userMode ∨ p ∈ s'.base.created ∧ p ∉ s.base.created := by
  obtain ⟨base, hBase, rfl⟩ := Option.map_eq_some_iff.mp hStep
  cases e with
  | create entry mode pro kernelStack userPage =>
      simp only at hp
      split at hp
      · next hMade =>
          rcases List.mem_cons.mp hp with rfl | hp
          · simp only [ProcessRuns.step] at hBase
            split at hBase
            · next hNew => exact Or.inr ⟨hMade.1, hNew.2.2⟩
            · simp at hBase
          · exact Or.inl hp
      · exact Or.inl hp
  | fork regs pro kernelStack userPage =>
      simp only at hp
      split at hp
      · next hMade =>
          rcases List.mem_cons.mp hp with rfl | hp
          · simp only [ProcessRuns.step] at hBase
            split at hBase
            · next hNew => exact Or.inr ⟨hMade.1, hNew.2.2⟩
            · simp at hBase
          · exact Or.inl hp
      · exact Or.inl hp
  | _ => exact Or.inl hp

/-- The four ways `current_process` and `esp0` can go. -/
inductive Passage (created : List Nat) (k : Kernel) (e : Event) (k' : Kernel) : Prop
  | same (hCurrent : k'.currentProcess = k.currentProcess) (hTrap : k'.esp0 = k.esp0)
  | first (hNobody : k.currentProcess = 0) (hMember : k'.currentProcess ≠ 0)
  | switch (hTrap : k'.esp0 = (k'.processes k'.currentProcess).kernelStackTo)
      (hMember : k'.currentProcess ∈ created)
  | exit (hLeaves : leaves e = true) (hRunning : k.currentProcess ≠ 0)
      (hNext : heir created (prepared created k e) = some k'.currentProcess)
      (hTrap : k'.esp0 = k.esp0)

theorem outcome_passage {e : Event} (hT : Table k created)
    (hOutcome : Outcome created k e created' k') : Passage created k e k' := by
  have hTable := prepared_table hT e
  cases hOutcome with
  | made pro kernelStack k' he hNew hMade =>
      rcases hMade.current with hSame | ⟨hNil, hFirst⟩
      · exact Passage.same hSame hMade.trap
      · refine Passage.first ?_ (hMade.table.linked.ne_zero _ ?_)
        · rcases hT.current with hIn | hNobody
          · simp [hNil] at hIn
          · exact hNobody.2
        · rw [hFirst]
          simp
  | quiet k' hBeside he => exact Passage.same hBeside.current hBeside.esp0
  | resumed regs next he hLeaves hRunning hNext =>
      obtain ⟨hIn, -, -⟩ := heir_some hTable (by simpa using hRunning) hNext
      refine Passage.switch ?_ hIn
      rw [contextSwitch_esp0]
      obtain ⟨frames, esp0, hEq⟩ := contextSwitch_eq (prepared created k e) regs next
      rw [hEq]
  | stayed he hStays hNone =>
      exact Passage.same (prepared_current _ _ _) (prepared_esp0 _ _ _)
  | left next hLeaves hRunning hNext =>
      exact Passage.exit hLeaves hRunning hNext (prepared_esp0 _ _ _)
  | stopped he hStays hRunning hNone =>
      exact Passage.same (prepared_current _ _ _) (prepared_esp0 _ _ _)

/-- **One step** leaves `esp0` at the stack of the user process that runs. -/
theorem step_trapping (s : State) (e : Event) (s' : State) (h : Trapping s)
    (hOk : StackReady s e ∧ Sparing s.base e) (hStep : step s e = some s') : Trapping s' := by
  obtain ⟨hReady, hSparing⟩ := hOk
  have hUser := fun p (hp : p ∈ s'.userMode) => step_userMode hStep hp
  obtain ⟨base, hBase, rfl⟩ := Option.map_eq_some_iff.mp hStep
  obtain ⟨-, hOutcome⟩ := step_outcome h.table hSparing.storesBeside hBase
  have hPassage := outcome_passage h.table hOutcome
  obtain ⟨hSame, hTops⟩ := outcome_stacks hOutcome h.tops
  -- whoever was listed before and runs as a user now did so before
  have hOld : ∀ p ∈ s.base.created, p ∈ _ → p ∈ s.userMode :=
    fun p hListed hp => (hUser p hp).resolve_right fun hNew => hNew.2 hListed
  refine
    { table := hOutcome.table h.table
      listed := fun p hp =>
        (hUser p hp).elim (fun hIn => hOutcome.grown p (h.listed p hIn)) And.left
      running := fun hSwitched => ?_
      tops := hTops
      trap := fun hSwitched hIn => ?_ }
  · cases hPassage with
    | same hCurrent hTrap =>
        have hBefore := (Bool.or_eq_true_iff.mp hSwitched).resolve_right fun hPassed =>
          (of_decide_eq_true hPassed).2 hCurrent
        rw [State.kernel, hCurrent]
        exact h.running hBefore
    | first hNobody hMember => exact hMember
    | switch hTrap hMember => exact h.table.linked.ne_zero _ hMember
    | exit hLeaves hRunning hNext hTrap =>
        obtain ⟨hMember, -, -⟩ :=
          heir_some (prepared_table h.table e) (by simpa using hRunning) hNext
        exact h.table.linked.ne_zero _ hMember
  · cases hPassage with
    | same hCurrent hTrap =>
        have hBefore := (Bool.or_eq_true_iff.mp hSwitched).resolve_right fun hPassed =>
          (of_decide_eq_true hPassed).2 hCurrent
        have hListed := h.table.caller (h.running hBefore)
        simp only [State.kernel] at hIn ⊢
        rw [hCurrent] at hIn ⊢
        rw [hTrap, hSame _ hListed]
        exact h.trap hBefore (hOld _ hListed hIn)
    | first hNobody hMember =>
        have hBefore := (Bool.or_eq_true_iff.mp hSwitched).resolve_right fun hPassed =>
          (of_decide_eq_true hPassed).1 hNobody
        exact absurd hNobody (h.running hBefore)
    | switch hTrap hMember => exact hTrap
    | exit hLeaves hRunning hNext hTrap =>
        obtain ⟨hMember, -, -⟩ :=
          heir_some (prepared_table h.table e) (by simpa using hRunning) hNext
        have hSuccessor : base.kernel.currentProcess ∈ successor s.base.created s.kernel := by
          rw [successor_eq_heir h.table hRunning hLeaves]
          exact hNext
        have hTop : (s.kernel.processes base.kernel.currentProcess).kernelStackTo =
            s.kernel.esp0 := by
          cases e with
          | exit => exact hReady _ hSuccessor (hOld _ hMember hIn)
          | finish => exact hReady _ hSuccessor (hOld _ hMember hIn)
          | _ => simp [leaves] at hLeaves
        simp only [State.kernel]
        rw [hTrap, hSame _ hMember]
        exact hTop.symm

/-- The run before the first process. -/
def start (base : ProcessRuns.State) : State :=
  { base := base, switched := false, userMode := [] }

/-- **Traps land on the stack of the process that runs.**  In every sparing run whose
exits hand over to nobody in user mode but a process whose stack `esp0` is
already, `esp0` is the top of the kernel stack of the user process that runs,
from the first switch on.  `context_switch` sets it so; `set_kernel_stack`
never does. -/
theorem traps_on_own_stack {processes : Nat → Process} {frames : Nat → Registers}
    {ticks esp0 processEntry : Nat} {events : List Event} {s : State}
    (hRun : exec step (start (boot processes frames ticks esp0 processEntry)) events = some s)
    (hReady : Meets step StackReady (start (boot processes frames ticks esp0 processEntry))
      events)
    (hSparing : Meets step (fun s e => Sparing s.base e)
      (start (boot processes frames ticks esp0 processEntry)) events) :
    (s.switched = true → s.kernel.currentProcess ∈ s.userMode →
        s.kernel.esp0 = (s.kernel.processes s.kernel.currentProcess).kernelStackTo) ∧
      (∀ regs next, (s.kernel.contextSwitch regs next).esp0 =
        (s.kernel.processes next).kernelStackTo) ∧
      ∀ p ∈ s.base.created, (setKernelStack s.kernel p).esp0 ≠
        (s.kernel.processes p).kernelStackTo := by
  have hStart : Trapping (start (boot processes frames ticks esp0 processEntry)) :=
    { table := boot_table processes frames ticks esp0 processEntry
      listed := by simp [start]
      running := by simp [start]
      tops := by simp [start, boot]
      trap := by simp [start] }
  have h := (hReady.and hSparing).invariant step_trapping hStart hRun
  refine ⟨h.trap, contextSwitch_esp0 s.kernel, fun p hp => ?_⟩
  rw [h.tops p hp]
  simp only [setKernelStack, kernelStackSize]
  omega

/-- Two processes take turns. -/
theorem traps_on_own_stack_twoTurns :
    ∃ s, exec step (start blank)
        [.create 0x10B00 1 0x26009 0x27000 0x2B000, .fork 0x2AFBC 0x26042 0x2C000 0x30000,
          .yield 0x2AFBC, .tick 0x2FFBC, .yield 0x2AFBC] = some s ∧
      s.switched = true ∧ s.kernel.currentProcess = 0x26042 ∧ 0x26042 ∈ s.userMode ∧
      (s.switched = true → s.kernel.currentProcess ∈ s.userMode →
        s.kernel.esp0 = (s.kernel.processes s.kernel.currentProcess).kernelStackTo) := by
  have hView : (exec step (start blank)
      [.create 0x10B00 1 0x26009 0x27000 0x2B000, .fork 0x2AFBC 0x26042 0x2C000 0x30000,
        .yield 0x2AFBC, .tick 0x2FFBC, .yield 0x2AFBC]).map
        (fun s => (s.switched, s.kernel.currentProcess, s.userMode)) =
      some (true, 0x26042, [0x26042, 0x26009]) := by decide +kernel
  obtain ⟨s, hRun, hs⟩ := Option.map_eq_some_iff.mp hView
  simp only [Prod.mk.injEq] at hs
  obtain ⟨hSwitched, hCurrent, hUser⟩ := hs
  exact ⟨s, hRun, hSwitched, hCurrent, by rw [hUser]; decide,
    (traps_on_own_stack hRun (by decide +kernel) (by decide +kernel)).1⟩

/-- A child exits and its parent runs on the child's stack; a parent waits with
`&tss.esp0` and runs on; and `set_kernel_stack` points into the middle of a stack. -/
theorem trap_on_dead_stack :
    (∃ s ∈ exec step (start blank)
        [.create 0x10B00 1 0x26009 0x27000 0x2B000, .fork 0x2AFBC 0x26042 0x2C000 0x30000,
          .yield 0x2AFBC, .exit 0],
        s.kernel.halted = false ∧ s.switched = true ∧
          s.kernel.currentProcess ∈ s.userMode ∧
          s.kernel.esp0 = (s.kernel.processes 0x26042).kernelStackTo ∧
          s.kernel.esp0 ≠ (s.kernel.processes s.kernel.currentProcess).kernelStackTo) ∧
    (∃ s ∈ exec step (start blank)
        [.create 0x10B00 1 0x26009 0x27000 0x2B000, .fork 0x2AFBC 0x26042 0x2C000 0x30000,
          .yield 0x2AFBC, .exit 0, .wait 0x25044 0x2AFBC],
        s.kernel.halted = false ∧ s.switched = true ∧
          s.kernel.currentProcess ∈ s.userMode ∧ s.kernel.esp0 = 0) ∧
    ∃ s ∈ exec step (start blank) [.create 0x10B00 1 0x26009 0x27000 0x2B000],
      (setKernelStack s.kernel 0x26009).esp0 ≠ (s.kernel.processes 0x26009).kernelStackTo := by
  decide +kernel

end MiniKernel.Ports.ProcessStacks
