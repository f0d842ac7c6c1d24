import MiniKernel.Ports.TrapFrames
import MiniKernel.Verified.Extents

/-!
# A process resumes where it trapped

From the first `restore_esp` on, processes run, trap into the kernel by a
yield, a sleep, a wait or a timer tick, and are resumed.  Between two traps
the running process may change every register and all memory but the kernel
stacks of the others, and a handler may leave anything below its frame on the
stack it runs on.

A frame is safe because the slot it is saved in is the top of its owner's
kernel stack, and whoever else traps does so on another stack.  Only the first
process to run traps on the stack `tss.esp0` names since boot, and until the
first switch no other process has a frame to lose.  `Kept` is that invariant.
`resumed_as_trapped` is the result: after a context switch the registers of a
user process are those of its last trap.
-/

namespace MiniKernel.Ports.TrapRuns

open MiniKernel.Verified.ByteMemory
open MiniKernel.Verified.WordStack
open MiniKernel.Verified.Extents
open MiniKernel.Verified.Trace
open MiniKernel.Ports.ProcessTable
open MiniKernel.Ports.ProcessSteps
open MiniKernel.Ports.ProcessRuns (Running)
open MiniKernel.Ports.ProcessSwitch
open MiniKernel.Ports.TrapFrames

/-- `int 0x80` or the timer. -/
inductive Trap
  | syscall
  | timer
  deriving Repr, DecidableEq

/-- A trap of the running process: its registers then, what it has left in
memory, and what the handler leaves below its frame. -/
structure Event where
  trap : Trap
  cpu : Cpu
  memory : Mem
  scratch : Mem

/-- The last trap of a process, and whether it was a call of `sys_wait`. -/
structure Entry where
  cpu : Cpu
  waits : Bool

/-- The machine while a process runs, the process list, the last trap of each
process, and whether the last step switched to another process. -/
structure State where
  machine : Machine
  cpu : Cpu
  created : List Nat
  entry : Nat → Option Entry
  switched : Bool

def State.kernel (s : State) : Kernel := s.machine.kernel

/-- The kernel stack of a process. -/
def stackOf (k : Kernel) (p : Nat) : Extent := ⟨(k.processes p).kernelStack, kernelStackSize⟩

/-- The stack a trap from ring 3 lands on. -/
def trapArea (esp0 : Nat) : Extent := ⟨esp0 - kernelStackSize, kernelStackSize⟩

/-- The stack a trap of the running process lands on. -/
def ownArea (k : Kernel) (c : Cpu) : Extent :=
  if c.UserMode then trapArea k.esp0 else stackOf k k.currentProcess

/-- The address lies in the kernel stack of a process other than the current. -/
def Foreign (created : List Nat) (k : Kernel) (x : Nat) : Prop :=
  ∃ q ∈ created, q ≠ k.currentProcess ∧ (stackOf k q).Has x

instance (created : List Nat) (k : Kernel) (x : Nat) : Decidable (Foreign created k x) := by
  unfold Foreign
  infer_instance

/-- The trap is one the running process can make: it stays in its ring, and a
kernel process stays on its stack. -/
def Possible (s : State) (c : Cpu) : Prop :=
  c.Wide ∧ (c.UserMode ↔ s.cpu.UserMode) ∧
    (¬c.UserMode → (stackOf s.kernel s.kernel.currentProcess).base + 60 ≤ c.esp ∧
      c.esp ≤ (stackOf s.kernel s.kernel.currentProcess).base + kernelStackSize)

instance (s : State) (c : Cpu) : Decidable (Possible s c) := by
  unfold Possible
  infer_instance

/-- The machine when the handler is called, and the handler's frame. -/
def State.trapped (s : State) (e : Event) : Machine × Nat :=
  let mem : Mem := fun x => if Foreign s.created s.kernel x then s.machine.mem x else e.memory x
  let t := trapEntry mem s.kernel.esp0 e.cpu
  ({ kernel := s.kernel, mem := t.1 }, t.2)

/-- The handler. -/
def handle (trap : Trap) (m : Machine) (regs : Nat) : Option Machine :=
  match trap with
  | .syscall => m.syscallDispatch regs
  | .timer => m.irq0Handler regs

/-- Memory after the handler, which has used the stack below its frame. -/
def scratched (area : Extent) (regs : Nat) (scratch mem : Mem) : Mem :=
  fun x => if area.base ≤ x ∧ x < regs then scratch x else mem x

/-- The state after the handler, when a process runs again. -/
def State.after (s : State) (e : Event) (regs : Nat) (m : Machine) : State :=
  let switched := decide (m.kernel.currentProcess ≠ s.kernel.currentProcess)
  let mem := scratched (ownArea s.kernel e.cpu) regs e.scratch m.mem
  { machine := { m with mem := mem }
    cpu := resume mem
      (if switched then (m.kernel.processes m.kernel.currentProcess).regs else regs)
    created := s.created
    entry := fun q =>
      if q = s.kernel.currentProcess then
        some ⟨e.cpu, decide (e.trap = .syscall ∧ e.cpu.eax = Machine.sysWaitNumber)⟩
      else s.entry q
    switched := switched }

/-- One trap, from one process running to a process running again. -/
def step (s : State) (e : Event) : Option State :=
  if Running s.kernel ∧ Possible s e.cpu then
    (handle e.trap (s.trapped e).1 (s.trapped e).2).map (s.after e (s.trapped e).2)
  else none

/-- The registers are those of the trap, but for `eax` after a wait. -/
def Entry.Matches (x : Entry) (c : Cpu) : Prop :=
  c = { x.cpu with eax := c.eax } ∧ (x.waits = false → c.eax = x.cpu.eax)

/-- The control block's pointers into its kernel stack are as `create_process`
set them. -/
structure Stacked (b : Process) : Prop where
  top : b.kernelStackTo = b.kernelStack + kernelStackSize
  slot : b.regs + sizeofRegisters = b.kernelStackTo
  range : b.kernelStackTo < 2 ^ 32

instance (b : Process) : Decidable (Stacked b) :=
  decidable_of_iff (b.kernelStackTo = b.kernelStack + kernelStackSize ∧
      b.regs + sizeofRegisters = b.kernelStackTo ∧ b.kernelStackTo < 2 ^ 32)
    ⟨fun h => ⟨h.1, h.2.1, h.2.2⟩, fun h => ⟨h.1, h.2, h.3⟩⟩

/-- What boot leaves for the first `restore_esp`: processes with stacks of
their own, none of which has exited. -/
structure Booted (k : Kernel) (created : List Nat) : Prop where
  table : Table k created
  stacked : ∀ p ∈ created, Stacked (k.processes p)
  apart : PairwiseApart (stackOf k) created
  range : kernelStackSize ≤ k.esp0 ∧ k.esp0 < 2 ^ 32
  first : (trapArea k.esp0).Apart (stackOf k k.currentProcess)
  living : ∀ p ∈ created, k.state p ≠ .zombie

/-- The state after `restore_esp(current_process)` at the end of boot. -/
def start (k : Kernel) (created : List Nat) (mem : Mem) : State where
  machine := { kernel := k, mem := mem }
  cpu := resume mem (k.processes k.currentProcess).regs
  created := created
  entry := fun _ => none
  switched := false

/-- Every process but the running one has its last frame in its slot. -/
structure Kept (s : State) : Prop where
  table : Table s.kernel s.created
  stacked : ∀ p ∈ s.created, Stacked (s.kernel.processes p)
  apart : PairwiseApart (stackOf s.kernel) s.created
  range : kernelStackSize ≤ s.kernel.esp0 ∧ s.kernel.esp0 < 2 ^ 32
  home : s.kernel.esp0 = (s.kernel.processes s.kernel.currentProcess).kernelStackTo ∨
    (trapArea s.kernel.esp0).Apart (stackOf s.kernel s.kernel.currentProcess) ∧
      ∀ p, p ≠ s.kernel.currentProcess → s.entry p = none
  living : ∀ p ∈ s.created, s.kernel.state p ≠ .zombie
  saved : ∀ p ∈ s.created, p ≠ s.kernel.currentProcess → ∀ x, s.entry p = some x →
    x.cpu.UserMode → ∃ c, x.Matches c ∧ FrameAt s.machine.mem (s.kernel.processes p).regs c
  resumed : s.switched = true → ∀ x, s.entry s.kernel.currentProcess = some x →
    x.cpu.UserMode → x.Matches s.cpu

theorem Booted.kept {k : Kernel} {created : List Nat} (h : Booted k created) (mem : Mem) :
    Kept (start k created mem) where
  table := h.table
  stacked := h.stacked
  apart := h.apart
  range := h.range
  home := Or.inr ⟨h.first, fun _ _ => rfl⟩
  living := h.living
  saved := by simp [start]
  resumed := by simp [start]

/-! ## Boot -/

/-- The event is a creation, all that happens before the first `restore_esp`. -/
def Creates : ProcessRuns.Event → Prop
  | .create .. => True
  | _ => False

instance : (e : ProcessRuns.Event) → Decidable (Creates e)
  | .create .. => .isTrue trivial
  | .fork .. | .yield _ | .sleep .. | .wait .. | .exit _ | .finish | .tick _ => .isFalse id

/-- What creations leave, whatever stacks they were given. -/
structure Staged (created : List Nat) (k : Kernel) : Prop where
  table : Table k created
  top : ∀ p ∈ created, (k.processes p).kernelStackTo =
    ((k.processes p).kernelStack + kernelStackSize) % 2 ^ 32
  slot : ∀ p ∈ created, (k.processes p).regs =
    ((k.processes p).kernelStack + kernelStackSize - sizeofRegisters) % 2 ^ 32
  living : ∀ p ∈ created, k.state p ≠ .zombie

theorem staged_made {created : List Nat} {k k' : Kernel} {pro kernelStack : Nat}
    (hS : Staged created k) (hNew : pro ∉ created) (hMade : Made created pro kernelStack k k') :
    Staged (created ++ [pro]) k' := by
  have hOld : ∀ p ∈ created, k'.processes p =
      { k.processes p with next := (k'.processes p).next } :=
    fun p hp => hMade.other p fun h => hNew (h ▸ hp)
  refine ⟨hMade.table, ?top, ?slot, ?living⟩
  case top =>
    intro p hp
    rcases List.mem_append.mp hp with hp | hp
    · rw [hOld p hp]
      exact hS.top p hp
    · rw [List.mem_singleton.mp hp, hMade.stack, hMade.stackTop]
  case slot =>
    intro p hp
    rcases List.mem_append.mp hp with hp | hp
    · rw [hOld p hp]
      exact hS.slot p hp
    · rw [List.mem_singleton.mp hp, hMade.stack, hMade.slot]
  case living =>
    intro p hp
    rcases List.mem_append.mp hp with hp | hp
    · rw [Kernel.state, hOld p hp]
      exact hS.living p hp
    · rw [List.mem_singleton.mp hp, hMade.state]
      simp

theorem step_staged {s s' : ProcessRuns.State} {e : ProcessRuns.Event}
    (hS : Staged s.created s.kernel) (hCreates : Creates e)
    (h : ProcessRuns.step s e = some s') : Staged s'.created s'.kernel := by
  have hStores : ProcessRuns.StoresBeside s e := by
    cases e with
    | create => trivial
    | _ => exact absurd hCreates id
  obtain ⟨-, hOutcome⟩ := step_outcome hS.table hStores h
  obtain ⟨hPasses, hLeaves⟩ : ¬Passes s.created s.kernel e ∧ leaves e = false := by
    cases e with
    | create => exact ⟨id, rfl⟩
    | _ => exact absurd hCreates id
  generalize s'.created = created', s'.kernel = k' at hOutcome
  cases hOutcome with
  | made pro kernelStack k' he hNew hMade => exact staged_made hS hNew hMade
  | quiet k' hBeside he =>
      refine ⟨hBeside.table hS.table, fun p hp => ?_, fun p hp => ?_, fun p hp => ?_⟩
      · rw [hBeside.block p hp]
        exact hS.top p hp
      · rw [hBeside.block p hp]
        exact hS.slot p hp
      · rw [hBeside.state hp]
        exact hS.living p hp
  | left next hLeft => simp [hLeaves] at hLeft
  | resumed regs next he => exact absurd he hPasses
  | stayed he => exact absurd he hPasses
  | stopped he => exact absurd he hPasses

/-- **What boot leaves**, when the stacks it was given are apart and `esp0` names
another one. -/
theorem booted_of_creations {processes : Nat → Process} {frames : Nat → Registers}
    {ticks esp0 processEntry : Nat} {events : List ProcessRuns.Event} {s : ProcessRuns.State}
    (hCreates : Meets ProcessRuns.step (fun _ e => Creates e)
      (ProcessRuns.boot processes frames ticks esp0 processEntry) events)
    (h : exec ProcessRuns.step (ProcessRuns.boot processes frames ticks esp0 processEntry) events =
      some s)
    (hStacks : ∀ p ∈ s.created, (s.kernel.processes p).kernelStack + kernelStackSize < 2 ^ 32)
    (hApart : PairwiseApart (stackOf s.kernel) s.created)
    (hRange : kernelStackSize ≤ s.kernel.esp0 ∧ s.kernel.esp0 < 2 ^ 32)
    (hFirst : (trapArea s.kernel.esp0).Apart (stackOf s.kernel s.kernel.currentProcess)) :
    Booted s.kernel s.created := by
  have hS : Staged s.created s.kernel :=
    Meets.invariant (fun _ _ _ => step_staged)
      ⟨ProcessRuns.boot_table processes frames ticks esp0 processEntry, by simp [ProcessRuns.boot],
        by simp [ProcessRuns.boot], by simp [ProcessRuns.boot]⟩ hCreates h
  refine ⟨hS.table, fun p hp => ?_, hApart, hRange, hFirst, hS.living⟩
  have hStack := hStacks p hp
  have hTop := hS.top p hp
  have hSlot := hS.slot p hp
  unfold kernelStackSize sizeofRegisters at *
  exact ⟨by unfold kernelStackSize; omega, by unfold sizeofRegisters; omega, by omega⟩

/-! ## One trap -/

variable {s s' : State} {e : Event} {k : Kernel} {p q : Nat}

theorem Entry.Matches.userMode {x : Entry} {c : Cpu} (h : x.Matches c) (hUser : x.cpu.UserMode) :
    c.UserMode := by
  rw [h.1]
  exact hUser

/-- The slot lies in its process's kernel stack. -/
theorem Stacked.has (h : Stacked (k.processes p)) {x : Nat}
    (hLow : (k.processes p).regs ≤ x) (hHigh : x < (k.processes p).regs + 68) :
    (stackOf k p).Has x := by
  have hTop := h.top
  have hSlot := h.slot
  simp only [sizeofRegisters, kernelStackSize] at hSlot hTop
  simp only [Extent.Has, stackOf, kernelStackSize]
  omega

theorem Stacked.slot_ne_zero (h : Stacked (k.processes p)) : (k.processes p).regs ≠ 0 := by
  have hTop := h.top
  have hSlot := h.slot
  simp only [sizeofRegisters, kernelStackSize] at hSlot hTop
  omega

/-- A process with a frame to lose has a stack of its own. -/
theorem Kept.ownArea_apart (hK : Kept s) (hRunning : s.kernel.currentProcess ≠ 0)
    {c : Cpu} (hq : q ∈ s.created) (hOther : q ≠ s.kernel.currentProcess)
    (hEntry : s.entry q ≠ none) : (ownArea s.kernel c).Apart (stackOf s.kernel q) := by
  have hCaller := hK.table.caller hRunning
  have hStacks : (stackOf s.kernel s.kernel.currentProcess).Apart (stackOf s.kernel q) :=
    (hK.apart.eq_or_apart hCaller hq).resolve_left fun h => hOther h.symm
  unfold ownArea
  split
  · rcases hK.home with hTop | ⟨-, hNone⟩
    · rw [trapArea, hTop, (hK.stacked _ hCaller).top, Nat.add_sub_cancel]
      exact hStacks
    · exact absurd (hNone q hOther) hEntry
  · exact hStacks

/-- What the handler is called with. -/
structure Landed (s : State) (e : Event) (regs : Nat) (mem : Mem) : Prop where
  room : (ownArea s.kernel e.cpu).base ≤ regs ∧
    regs + 60 ≤ (ownArea s.kernel e.cpu).base + kernelStackSize
  others : ∀ x, Foreign s.created s.kernel x → ¬(ownArea s.kernel e.cpu).Has x →
    mem x = s.machine.mem x
  frame : e.cpu.UserMode → FrameAt mem regs e.cpu ∧ regs + 68 = s.kernel.esp0

theorem trapped_landed (hRange : kernelStackSize ≤ s.kernel.esp0 ∧ s.kernel.esp0 < 2 ^ 32)
    (hPossible : Possible s e.cpu) : Landed s e (s.trapped e).2 (s.trapped e).1.mem := by
  obtain ⟨hWide, -, hStack⟩ := hPossible
  unfold State.trapped
  simp only
  set mem : Mem := fun x => if Foreign s.created s.kernel x then s.machine.mem x else e.memory x
    with hMem
  have hForeign : ∀ x, Foreign s.created s.kernel x → mem x = s.machine.mem x :=
    fun x hx => if_pos hx
  by_cases hUser : e.cpu.UserMode
  · have hArea : ownArea s.kernel e.cpu = trapArea s.kernel.esp0 := if_pos hUser
    unfold kernelStackSize at hRange
    obtain ⟨hRegs, hFrame, hSame⟩ := trapEntry_user mem hUser hWide (by omega) hRange.2
    rw [hRegs]
    refine ⟨?_, fun x hx hOut => ?_, fun _ => ⟨hFrame, by omega⟩⟩
    · simp only [hArea, trapArea, kernelStackSize]
      omega
    · simp only [hArea, trapArea, Extent.Has, kernelStackSize] at hOut
      exact (hSame x (by omega)).trans (hForeign x hx)
  · have hArea : ownArea s.kernel e.cpu = stackOf s.kernel s.kernel.currentProcess :=
      if_neg hUser
    obtain ⟨hLow, hHigh⟩ := hStack hUser
    obtain ⟨hRegs, hSame⟩ := trapEntry_kernel mem s.kernel.esp0 hUser (by omega)
    rw [hRegs]
    refine ⟨?_, fun x hx hOut => ?_, fun h => absurd h hUser⟩
    · rw [hArea]
      omega
    · rw [hArea] at hOut
      unfold Extent.Has at hOut
      have hLength : (stackOf s.kernel s.kernel.currentProcess).length = kernelStackSize := rfl
      exact (hSame x (by omega)).trans (hForeign x hx)

/-- The call stores `-1` into `eax` of its frame. -/
def waits (e : Event) (m : Machine) (regs : Nat) : Bool :=
  decide (e.trap = .syscall ∧ word m.mem (regs + 44) = Machine.sysWaitNumber)

theorem handle_handled {m m' : Machine} {regs : Nat} {created : List Nat}
    (h : handle e.trap m regs = some m') (hT : Table m.kernel created)
    (hRunning : m.kernel.currentProcess ≠ 0)
    (hLiving : ∀ p ∈ created, m.kernel.state p ≠ .zombie) :
    ∃ m₁, Machine.Handled created m regs (waits e m regs) m₁ ∧
      Machine.Passed created m₁ regs m' := by
  unfold waits
  cases hTrap : e.trap with
  | syscall =>
      rw [hTrap] at h
      simpa using Machine.dispatch_handled hT hRunning hLiving h
  | timer =>
      rw [hTrap] at h
      simpa using Machine.irq0_handled hT hRunning h

/-- What a trap leads to, up to the registers. -/
structure Turned (s : State) (e : Event) (s' : State) : Prop where
  created : s'.created = s.created
  table : Table s'.kernel s.created
  blocks : ∀ p, (s'.kernel.processes p).kernelStack = (s.kernel.processes p).kernelStack ∧
    (s'.kernel.processes p).kernelStackTo = (s.kernel.processes p).kernelStackTo ∧
    (s'.kernel.processes p).regs = (s.kernel.processes p).regs
  living : ∀ p ∈ s.created, s'.kernel.state p ≠ .zombie
  others : ∀ x, Foreign s.created s.kernel x → ¬(ownArea s.kernel e.cpu).Has x →
    s'.machine.mem x = s.machine.mem x
  entry : s'.entry = fun q => if q = s.kernel.currentProcess then
    some ⟨e.cpu, decide (e.trap = .syscall ∧ e.cpu.eax = Machine.sysWaitNumber)⟩ else s.entry q
  control : s'.switched = false ∧ s'.kernel.currentProcess = s.kernel.currentProcess ∧
      s'.kernel.esp0 = s.kernel.esp0 ∨
    s'.switched = true ∧ s'.kernel.currentProcess ≠ s.kernel.currentProcess ∧
      s'.kernel.currentProcess ∈ s.created ∧
      s'.kernel.esp0 = (s.kernel.processes s'.kernel.currentProcess).kernelStackTo ∧
      s'.cpu = resume s'.machine.mem (s.kernel.processes s'.kernel.currentProcess).regs
  saved : s'.switched = true → e.cpu.UserMode →
    ∃ c, Entry.Matches ⟨e.cpu, decide (e.trap = .syscall ∧ e.cpu.eax = Machine.sysWaitNumber)⟩ c ∧
      FrameAt s'.machine.mem (s.kernel.processes s.kernel.currentProcess).regs c

/-- Memory outside the trap's stack is what the handler leaves there. -/
theorem scratched_apart {area : Extent} {regs x : Nat} (scratch mem : Mem)
    (hRegs : regs ≤ area.base + area.length) (h : ¬area.Has x ∨ regs ≤ x) :
    scratched area regs scratch mem x = mem x := by
  unfold scratched
  unfold Extent.Has at h
  rw [if_neg (by omega)]

theorem handled_frame {m m₁ : Machine} {created : List Nat} {regs : Nat} {c : Cpu}
    (hFrame : FrameAt m.mem regs c) (hTrap : c = e.cpu)
    (hHandled : Machine.Handled created m regs (waits e m regs) m₁) :
    ∃ c', Entry.Matches ⟨e.cpu, decide (e.trap = .syscall ∧ e.cpu.eax = Machine.sysWaitNumber)⟩ c' ∧
      FrameAt m₁.mem regs c' := by
  subst hTrap
  have hWaits : waits e m regs =
      decide (e.trap = .syscall ∧ e.cpu.eax = Machine.sysWaitNumber) := by
    unfold waits
    rw [hFrame.eax]
  rw [← hWaits]
  have hMem := hHandled.mem
  cases hCase : waits e m regs with
  | false =>
      rw [hCase] at hMem
      exact ⟨e.cpu, ⟨rfl, fun _ => rfl⟩, hMem ▸ hFrame⟩
  | true =>
      rw [hCase] at hMem
      exact ⟨{ e.cpu with eax := minusOne }, ⟨rfl, by simp⟩, hMem ▸ hFrame.setEax (by decide)⟩

/-- The slot is the frame itself, or no trap of the caller from ring 3 touches it. -/
theorem Kept.slot_clear (hK : Kept s) (hRunning : s.kernel.currentProcess ≠ 0) {regs : Nat}
    (hUser : e.cpu.UserMode) (hLanded : regs + 68 = s.kernel.esp0) :
    regs = (s.kernel.processes s.kernel.currentProcess).regs ∨
      (ownArea s.kernel e.cpu).Apart (stackOf s.kernel s.kernel.currentProcess) := by
  have hStacked := hK.stacked _ (hK.table.caller hRunning)
  have hSlot := hStacked.slot
  simp only [sizeofRegisters] at hSlot
  rcases hK.home with hTop | ⟨hApart, -⟩
  · left
    omega
  · right
    rw [ownArea, if_pos hUser]
    exact hApart

theorem ownArea_length (k : Kernel) (c : Cpu) : (ownArea k c).length = kernelStackSize := by
  unfold ownArea
  split <;> rfl

section

variable {regs : Nat} {mem : Mem} {m₁ : Machine}

/-- Outside the stack its frame is on, a handler stores nothing before it switches. -/
theorem handled_apart (hLanded : Landed s e regs mem) {w : Bool}
    (hHandled : Machine.Handled s.created ⟨s.kernel, mem⟩ regs w m₁) {x : Nat}
    (hx : ¬(ownArea s.kernel e.cpu).Has x) : m₁.mem x = mem x := by
  have hRoom := hLanded.room
  have hLength := ownArea_length s.kernel e.cpu
  rw [hHandled.mem]
  split
  · unfold Extent.Has at hx
    simp only [kernelStackSize] at hLength hRoom
    exact setWord_apart (by omega)
  · rfl

/-- The trap's handler has done its work and the caller goes on. -/
theorem turned_stayed (hK : Kept s) (hLanded : Landed s e regs mem) {w : Bool}
    (hHandled : Machine.Handled s.created ⟨s.kernel, mem⟩ regs w m₁) (halted : Bool) :
    Turned s e (s.after e regs { m₁ with kernel := { m₁.kernel with halted := halted } }) := by
  have hPrepared := hHandled.prepared
  have hRoom := hLanded.room
  have hLength := ownArea_length s.kernel e.cpu
  have hStay : ¬m₁.kernel.currentProcess ≠ s.kernel.currentProcess :=
    fun h => h hPrepared.current
  exact
    { created := rfl
      table := { hPrepared.table with }
      blocks := fun p => ⟨hPrepared.kernelStack p, hPrepared.kernelStackTo p, hPrepared.regs p⟩
      living := fun p hp => hPrepared.living p (hK.living p hp)
      others := fun x hx hOut =>
        (scratched_apart _ _ (by omega) (Or.inl hOut)).trans
          ((handled_apart hLanded hHandled hOut).trans (hLanded.others x hx hOut))
      entry := rfl
      control := Or.inl ⟨decide_eq_false hStay, hPrepared.current, hPrepared.trap⟩
      saved := fun hSwitched => absurd (of_decide_eq_true hSwitched) hStay }

/-- The trap's handler has done its work and another process runs. -/
theorem turned_switched (hK : Kept s) (hRunning : s.kernel.currentProcess ≠ 0)
    (hLanded : Landed s e regs mem)
    (hHandled : Machine.Handled s.created ⟨s.kernel, mem⟩ regs (waits e ⟨s.kernel, mem⟩ regs) m₁)
    {next : Nat} (hHeir : heir s.created m₁.kernel = some next) :
    Turned s e (s.after e regs (m₁.contextSwitch regs next)) := by
  have hPrepared := hHandled.prepared
  have hRoom := hLanded.room
  have hLength := ownArea_length s.kernel e.cpu
  have hCaller := hK.table.caller hRunning
  have hStacked := hK.stacked _ hCaller
  have hCurrent : m₁.kernel.currentProcess = s.kernel.currentProcess := hPrepared.current
  have hSlot : (m₁.kernel.processes m₁.kernel.currentProcess).regs =
      (s.kernel.processes s.kernel.currentProcess).regs := by
    rw [hCurrent]
    exact hPrepared.regs _
  obtain ⟨hNext, -, hOther⟩ := heir_some hPrepared.table (hCurrent ▸ hRunning) hHeir
  rw [hCurrent] at hOther
  rw [Machine.contextSwitch_eq (hCurrent ▸ hRunning) (hSlot ▸ hStacked.slot_ne_zero), hSlot]
  have hTop : (m₁.kernel.processes next).kernelStackTo =
      (s.kernel.processes next).kernelStackTo := hPrepared.kernelStackTo next
  have hNextSlot : (m₁.kernel.processes next).regs = (s.kernel.processes next).regs :=
    hPrepared.regs next
  have hSwitched : decide (next ≠ s.kernel.currentProcess) = true := decide_eq_true hOther
  refine
    { created := rfl
      table := { hPrepared.table with current := Or.inl hNext }
      blocks := fun p => ⟨hPrepared.kernelStack p, hPrepared.kernelStackTo p, hPrepared.regs p⟩
      living := fun p hp => hPrepared.living p (hK.living p hp)
      others := ?_
      entry := rfl
      control := Or.inr ⟨hSwitched, hOther, hNext, hTop, ?_⟩
      saved := ?_ }
  · rintro x ⟨q, hq, hApartFrom, hx⟩ hOut
    have hStacks := (hK.apart.eq_or_apart hCaller hq).resolve_left fun h => hApartFrom h.symm
    have hOutside : x < (s.kernel.processes s.kernel.currentProcess).regs ∨
        (s.kernel.processes s.kernel.currentProcess).regs + 68 ≤ x := by
      by_contra hIn
      exact hStacks x (hStacked.has (by omega) (by omega)) hx
    exact (scratched_apart _ _ (by omega) (Or.inl hOut)).trans
      ((saveFrame_apart _ _ hOutside).trans
        ((handled_apart hLanded hHandled hOut).trans
          (hLanded.others x ⟨q, hq, hApartFrom, hx⟩ hOut)))
  · change resume _ (if decide (next ≠ s.kernel.currentProcess) = true then
      (m₁.kernel.processes next).regs else regs) = _
    rw [if_pos hSwitched, hNextSlot]
    rfl
  · intro _ hUser
    obtain ⟨hFrame, hEnd⟩ := hLanded.frame hUser
    obtain ⟨c, hMatches, hStored⟩ := handled_frame hFrame rfl hHandled
    have hClear := hK.slot_clear hRunning hUser hEnd
    refine ⟨c, hMatches, (saveFrame_user hStored (hMatches.userMode hUser) ?_).frame ?_⟩
    · refine hClear.imp_right fun hApart => ?_
      by_contra hOverlap
      have hArea : ∀ x, regs ≤ x → x < regs + 68 → (ownArea s.kernel e.cpu).Has x := by
        have hRange := hK.range.1
        intro x hLow hHigh
        simp only [ownArea, if_pos hUser, trapArea, Extent.Has] at hRoom ⊢
        omega
      refine hApart (max regs (s.kernel.processes s.kernel.currentProcess).regs)
        (hArea _ (by omega) (by omega)) (hStacked.has (by omega) (by omega))
    · intro x hLow hHigh
      refine scratched_apart _ _ (by omega) ?_
      rcases hClear with hSame | hApart
      · exact Or.inr (hSame ▸ hLow)
      · exact Or.inl fun hIn => hApart x hIn (hStacked.has hLow hHigh)

end

/-- **Inversion of a trap.** -/
theorem step_turned (hK : Kept s) (h : step s e = some s') : Turned s e s' := by
  unfold step at h
  split at h
  case isFalse => simp at h
  case isTrue hEnabled =>
    obtain ⟨⟨-, hRunning⟩, hPossible⟩ := hEnabled
    obtain ⟨m, hHandle, rfl⟩ := Option.map_eq_some_iff.mp h
    have hLanded := trapped_landed hK.range hPossible
    obtain ⟨m₁, hHandled, hPassed⟩ := handle_handled hHandle hK.table hRunning hK.living
    cases hPassed with
    | stayed halted hHeir => exact turned_stayed hK hLanded hHandled halted
    | switched next hHeir => exact turned_switched hK hRunning hLanded hHandled hHeir

/-! ## Runs -/

/-- A process keeps its saved frame while another one traps. -/
theorem Turned.frame (hTurned : Turned s e s') (hK : Kept s)
    (hRunning : s.kernel.currentProcess ≠ 0) (hp : p ∈ s.created)
    (hOther : p ≠ s.kernel.currentProcess) (hEntry : s.entry p ≠ none) {c : Cpu}
    (hFrame : FrameAt s.machine.mem (s.kernel.processes p).regs c) :
    FrameAt s'.machine.mem (s.kernel.processes p).regs c := by
  refine hFrame.frame fun x hLow hHigh => ?_
  have hIn := (hK.stacked p hp).has hLow hHigh
  exact hTurned.others x ⟨p, hp, hOther, hIn⟩ fun hOwn =>
    hK.ownArea_apart hRunning hp hOther hEntry x hOwn hIn

/-- **Step lemma.** -/
theorem step_kept (hK : Kept s) (h : step s e = some s') : Kept s' := by
  have hTurned := step_turned hK h
  have hRunning : s.kernel.currentProcess ≠ 0 := by
    unfold step at h
    split at h
    case isTrue hEnabled => exact hEnabled.1.2
    case isFalse => simp at h
  have hBlocks := hTurned.blocks
  have hStack : stackOf s'.kernel = stackOf s.kernel := by
    funext p
    rw [stackOf, (hBlocks p).1]
    rfl
  have hSaved : ∀ p ∈ s.created, p ≠ s.kernel.currentProcess → ∀ x, s'.entry p = some x →
      x.cpu.UserMode → ∃ c, x.Matches c ∧
        FrameAt s'.machine.mem (s.kernel.processes p).regs c := by
    intro p hp hOther x hx hUser
    rw [hTurned.entry] at hx
    simp only [hOther, if_false] at hx
    obtain ⟨c, hMatches, hFrame⟩ := hK.saved p hp hOther x hx hUser
    exact ⟨c, hMatches, hTurned.frame hK hRunning hp hOther (by simp [hx]) hFrame⟩
  have hSlot : ∀ p, (s'.kernel.processes p).regs = (s.kernel.processes p).regs :=
    fun p => (hBlocks p).2.2
  have hTop : ∀ p, (s'.kernel.processes p).kernelStackTo = (s.kernel.processes p).kernelStackTo :=
    fun p => (hBlocks p).2.1
  refine
    { table := hTurned.created.symm ▸ hTurned.table
      stacked := ?stacked
      apart := ?apart
      range := ?range
      home := ?home
      living := hTurned.created.symm ▸ hTurned.living
      saved := ?saved
      resumed := ?resumed }
  case stacked =>
    intro p hp
    have hStacked := hK.stacked p (hTurned.created ▸ hp)
    exact ⟨by rw [hTop, (hBlocks p).1, hStacked.top], by rw [hSlot, hTop, hStacked.slot],
      by rw [hTop]; exact hStacked.range⟩
  case apart =>
    rw [hStack, hTurned.created]
    exact hK.apart
  case range =>
    rcases hTurned.control with ⟨-, -, hTrap⟩ | ⟨-, -, hNext, hTrap, -⟩
    · rw [hTrap]
      exact hK.range
    · have hStacked := hK.stacked _ hNext
      have hSpan := hStacked.top
      rw [hTrap]
      exact ⟨by omega, hStacked.range⟩
  case home =>
    rcases hTurned.control with ⟨-, hCurrent, hTrap⟩ | ⟨-, -, -, hTrap, -⟩
    · rw [hCurrent, hTrap, hTop, hStack, hTurned.entry]
      refine hK.home.imp_right fun hFirst => ⟨hFirst.1, fun p hp => ?_⟩
      simp only [hp, if_false]
      exact hFirst.2 p hp
    · exact Or.inl (hTrap.trans (hTop _).symm)
  case saved =>
    rw [hTurned.created]
    intro p hp hOther x hx hUser
    rw [hSlot]
    by_cases hCaller : p = s.kernel.currentProcess
    · rcases hTurned.control with ⟨-, hCurrent, -⟩ | ⟨hSwitched, -⟩
      · exact absurd (hCaller.trans hCurrent.symm) hOther
      · rw [hTurned.entry] at hx
        simp only [hCaller, if_true, Option.some.injEq] at hx
        subst hx hCaller
        exact hTurned.saved hSwitched hUser
    · exact hSaved p hp hCaller x hx hUser
  case resumed =>
    intro hSwitched x hx hUser
    rcases hTurned.control with ⟨hStay, -⟩ | ⟨-, hOther, hNext, -, hCpu⟩
    · rw [hStay] at hSwitched
      simp at hSwitched
    · obtain ⟨c, hMatches, hFrame⟩ := hSaved _ hNext hOther x hx hUser
      rw [hCpu, resume_frameAt hFrame (hMatches.userMode hUser)]
      exact hMatches

/-- **A process resumes where it trapped.**  Whenever a context switch resumes a
user process, its registers are those of its last trap; only a `sys_wait` that
blocked has another `eax`. -/
theorem resumed_as_trapped (k : Kernel) (created : List Nat) (mem : Mem) (events : List Event)
    (s : State) (hBooted : Booted k created)
    (h : exec step (start k created mem) events = some s) (hSwitched : s.switched = true)
    (x : Entry) (hEntry : s.entry s.kernel.currentProcess = some x) (hUser : x.cpu.UserMode) :
    x.Matches s.cpu :=
  (exec_invariant (fun _ _ _ => step_kept) (hBooted.kept mem) h).resumed hSwitched x hEntry hUser

/-- Two processes that boot has created. -/
def twoProcesses : Option ProcessRuns.State :=
  exec ProcessRuns.step
    (ProcessRuns.boot (fun _ => ⟨0, 0, 0, 0, .ready, 0, 0, 0, 0, 0, 0⟩)
      (fun _ => ⟨0, 0, 0, 0, 0, 0, 0, 0, 0, 0, 0, 0, 0, 0, 0, 0, 0⟩) 0 0x90000 0x10B00)
    [.create 0x10B00 1 0x26009 0x27000 0x2B000, .create 0x10B00 1 0x26042 0x2C000 0x30000]

/-- They yield to each other; the first one's registers all differ. -/
def twoYields : List Event :=
  [{ trap := .syscall
     cpu := ⟨35, 36, 37, 38, 39, 40, 41, 42, 43, 44, 1, 0x10B20, 0x1B, 0x202, 0x2BFF0, 0x23⟩
     memory := fun _ => 0xFF
     scratch := fun _ => 0xAA },
   { trap := .syscall
     cpu := ⟨0x23, 0x23, 0x23, 0x23, 0, 0, 0, 0, 0, 0, 1, 0x10B20, 0x1B, 0x246, 0x30FF0, 0x23⟩
     memory := fun _ => 0
     scratch := fun _ => 0 }]

/-- The first process is back after both yields. -/
theorem resumed_as_trapped_twoYields :
    ∃ b ∈ twoProcesses,
      ∃ s ∈ exec step (start b.kernel b.created fun x =>
          if x = 0x2AFBC + 52 ∨ x = 0x2FFBC + 52 then 0x1B else 0) twoYields,
        s.switched = true ∧ s.kernel.currentProcess = 0x26009 ∧
          ∃ x ∈ s.entry s.kernel.currentProcess, x.cpu.ebp = 41 ∧ x.cpu.UserMode ∧
            x.Matches s.cpu := by
  have hRun : ∃ b ∈ twoProcesses,
      (∀ p ∈ b.created, (b.kernel.processes p).kernelStack + kernelStackSize < 2 ^ 32) ∧
      PairwiseApart (stackOf b.kernel) b.created ∧
      (kernelStackSize ≤ b.kernel.esp0 ∧ b.kernel.esp0 < 2 ^ 32) ∧
      (trapArea b.kernel.esp0).Apart (stackOf b.kernel b.kernel.currentProcess) ∧
      ∃ s ∈ exec step (start b.kernel b.created fun x =>
          if x = 0x2AFBC + 52 ∨ x = 0x2FFBC + 52 then 0x1B else 0) twoYields,
        s.switched = true ∧ s.kernel.currentProcess = 0x26009 ∧
          ∃ x ∈ s.entry s.kernel.currentProcess, x.cpu.ebp = 41 ∧ x.cpu.UserMode := by
    decide +kernel
  obtain ⟨b, hb, hStacks, hApart, hRange, hFirst, s, hs, hSwitched, hCurrent, x, hx, hEbp, hUser⟩ :=
    hRun
  have hBooted : Booted b.kernel b.created :=
    booted_of_creations (by decide +kernel) hb hStacks hApart hRange hFirst
  exact ⟨b, hb, s, hs, hSwitched, hCurrent, x, hx, hEbp, hUser,
    resumed_as_trapped _ _ _ _ s hBooted hs hSwitched x hx hUser⟩

end MiniKernel.Ports.TrapRuns
