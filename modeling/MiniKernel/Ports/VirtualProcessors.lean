import MiniKernel.Ports.KernelTraps
import MiniKernel.Verified.TimeSharing

/-!
# Every process has a processor of its own

Processes of ring 3 share the processor: one of them executes its instructions
until a timer interrupt, or an `int 0x80` of its own, hands the processor to
another, and keyboard interrupts come in between.  Here the program of each
process is a parameter, a function of its registers and its own memory.  Of
the system calls there are those that give up the processor and come back, and
those that print or ask; a process neither makes another, nor exits, nor
allocates memory.

`as_if_alone` says that a process does not notice.  Its registers and memory
are those of its program run alone on the instructions it has executed and the
results its calls have had, but for one thing: `keyboard_isr` uses `al` after
`popa`, so that each key pressed while the process runs acts on it as an
instruction `mov al, 0x20`.
-/

namespace MiniKernel.Ports.VirtualProcessors

open MiniKernel.Verified.ByteMemory
open MiniKernel.Verified.WordStack
open MiniKernel.Verified.Extents
open MiniKernel.Verified.Trace
open MiniKernel.Verified.TimeSharing
open MiniKernel.Ports.ProcessTable
open MiniKernel.Ports.ProcessSteps
open MiniKernel.Ports.ProcessRuns (Running)
open MiniKernel.Ports.ProcessSwitch
open MiniKernel.Ports.TrapFrames
open MiniKernel.Ports.TrapRuns (Trap Possible Kept Booted Landed stackOf trapArea ownArea Foreign
  handle scratched start waits Turned)

/-! ## The keyboard's stub -/

/-- The words that a keyboard interrupt leaves on the stack, up to `eflags`. -/
def keyFrame (c : Cpu) (sp : Nat) : List Nat :=
  [c.edi, c.esi, c.ebp, sp, c.ebx, c.edx, c.ecx, c.eax, c.eip, c.cs, c.eflags]

/-- A keyboard interrupt up to the call of `keyboard_handler`: what the
processor pushes, and `pusha`. -/
def keyEntry (m : Mem) (esp0 : Nat) (c : Cpu) : Mem × Nat :=
  let s := if c.UserMode then pushAll m esp0 [c.ss, c.esp] else (m, c.esp)
  let s := pushAll s.1 s.2 [c.eflags, c.cs, c.eip]
  pushAll s.1 s.2 [c.eax, c.ecx, c.edx, c.ebx, s.2, c.ebp, c.esi, c.edi]

/-- `popa; mov al, 0x20; out 0x20, al; iret`.  The segment registers, which the
stub does not save, are still those of `c`. -/
def keyReturn (m : Mem) (sp : Nat) (c : Cpu) : Cpu :=
  let cs := word m (sp + 36)
  { c with
    edi := word m sp
    esi := word m (sp + 4)
    ebp := word m (sp + 8)
    ebx := word m (sp + 16)
    edx := word m (sp + 20)
    ecx := word m (sp + 24)
    eax := word m (sp + 28) / 256 * 256 + 0x20
    eip := word m (sp + 32)
    cs := cs
    eflags := word m (sp + 40)
    esp := if cs &&& 3 = 3 then word m (sp + 44) else sp + 44
    ss := if cs &&& 3 = 3 then word m (sp + 48) else c.ss }

/-- `mov al, 0x20`. -/
def movAl (c : Cpu) : Cpu := { c with eax := c.eax / 256 * 256 + 0x20 }

variable {m m' : Mem} {c : Cpu} {sp esp0 : Nat}

theorem keyReturn_eq {w : Nat} (h : Laid m sp (keyFrame c w))
    (hTop : if c.UserMode then Laid m (sp + 44) [c.esp, c.ss] else sp + 44 = c.esp) :
    keyReturn m sp c = movAl c := by
  simp only [keyFrame, Laid, Nat.add_assoc, Nat.reduceAdd] at h
  obtain ⟨hEdi, hEsi, hEbp, -, hEbx, hEdx, hEcx, hEax, hEip, hCs, hEflags, -⟩ := h
  unfold keyReturn movAl
  simp only [hEdi, hEsi, hEbp, hEbx, hEdx, hEcx, hEax, hEip, hCs, hEflags]
  by_cases hUser : c.UserMode
  · have hRing : c.cs &&& 3 = 3 := hUser
    rw [if_pos hUser] at hTop
    simp only [Laid, Nat.add_assoc, Nat.reduceAdd] at hTop
    simp only [hRing, if_true, hTop.1, hTop.2.1]
  · have hRing : ¬c.cs &&& 3 = 3 := hUser
    rw [if_neg hUser] at hTop
    simp only [hRing, if_false, hTop]

/-- The stack that the processor pushes on. -/
def landing (esp0 : Nat) (c : Cpu) : Nat := if c.UserMode then esp0 else c.esp

/-- How much the stub has pushed when it calls the handler. -/
def keyDepth (c : Cpu) : Nat := if c.UserMode then 52 else 44

theorem wide_words (h : c.Wide) (hsp : sp < 2 ^ 32) :
    (∀ w ∈ keyFrame c sp, w < 2 ^ 32) ∧ c.esp < 2 ^ 32 ∧ c.ss < 2 ^ 32 := by
  have hAll := h.words hsp
  simp only [Cpu.userFrame, Cpu.frame, List.cons_append, List.nil_append, List.mem_cons,
    List.not_mem_nil, or_false, forall_eq_or_imp, forall_eq] at hAll
  simp only [keyFrame, List.mem_cons, List.not_mem_nil, or_false, forall_eq_or_imp, forall_eq]
  tauto

/-- What is on the stack, and that nothing else is written. -/
theorem keyEntry_laid (m : Mem) (esp0 : Nat) (hWide : c.Wide)
    (hRoom : keyDepth c ≤ landing esp0 c) (hRange : landing esp0 c < 2 ^ 32) :
    (keyEntry m esp0 c).2 = landing esp0 c - keyDepth c ∧
      (∃ w, Laid (keyEntry m esp0 c).1 (landing esp0 c - keyDepth c)
        (keyFrame c w ++ if c.UserMode then [c.esp, c.ss] else [])) ∧
      ∀ x, x < landing esp0 c - keyDepth c ∨ landing esp0 c ≤ x →
        (keyEntry m esp0 c).1 x = m x := by
  have hPushes : ∃ w < 2 ^ 32, keyEntry m esp0 c = pushAll m (landing esp0 c)
      (keyFrame c w ++ if c.UserMode then [c.esp, c.ss] else []).reverse := by
    unfold keyEntry landing
    unfold landing at hRange
    by_cases hUser : c.UserMode
    · simp only [if_pos hUser, ← pushAll_append] at hRange ⊢
      exact ⟨_, by rw [pushAll_sp]; omega, rfl⟩
    · simp only [if_neg hUser, ← pushAll_append] at hRange ⊢
      exact ⟨_, by rw [pushAll_sp]; omega, rfl⟩
  obtain ⟨w, hw, hPushes⟩ := hPushes
  obtain ⟨hFrame, hEsp, hSs⟩ := wide_words hWide hw
  have hLength : 4 * (keyFrame c w ++ if c.UserMode then [c.esp, c.ss] else []).reverse.length =
      keyDepth c := by
    unfold keyDepth
    split <;> rfl
  have hWords : ∀ v ∈ (keyFrame c w ++ if c.UserMode then [c.esp, c.ss] else []).reverse,
      v < 2 ^ 32 := by
    intro v hv
    rcases List.mem_append.mp (List.mem_reverse.mp hv) with hv | hv
    · exact hFrame v hv
    · split at hv
      · simp only [List.mem_cons, List.not_mem_nil, or_false] at hv
        rcases hv with rfl | rfl
        · exact hEsp
        · exact hSs
      · simp at hv
  rw [hPushes]
  refine ⟨?_, ⟨w, ?_⟩, fun x hx => ?_⟩
  · rw [pushAll_sp, hLength]
  · have hLaid := laid_pushAll _ m (landing esp0 c) (hLength ▸ hRoom) hWords
    rw [hLength, List.reverse_reverse] at hLaid
    exact hLaid
  · exact pushAll_apart _ _ _ (hLength ▸ hRoom) (hLength ▸ hx)

/-- **A keyboard interrupt**, from either ring and anywhere on the stack, leaves
the registers as they were but for `al`, whatever the handler does elsewhere. -/
theorem keyboard_returns (m : Mem) (esp0 : Nat) (hWide : c.Wide)
    (hRoom : keyDepth c ≤ landing esp0 c) (hRange : landing esp0 c < 2 ^ 32)
    (hKept : ∀ x, landing esp0 c - keyDepth c ≤ x → x < landing esp0 c →
      m' x = (keyEntry m esp0 c).1 x) :
    keyReturn m' (keyEntry m esp0 c).2 c = movAl c := by
  obtain ⟨hsp, ⟨w, hLaid⟩, -⟩ := keyEntry_laid m esp0 hWide hRoom hRange
  have hStays : Laid m' (landing esp0 c - keyDepth c)
      (keyFrame c w ++ if c.UserMode then [c.esp, c.ss] else []) := by
    refine hLaid.frame fun x hLow hHigh => hKept x hLow ?_
    have hLength : 4 * (keyFrame c w ++ if c.UserMode then [c.esp, c.ss] else []).length =
        keyDepth c := by
      unfold keyDepth
      split <;> rfl
    omega
  obtain ⟨hFrame, hTop⟩ := laid_append.mp hStays
  rw [hsp]
  refine keyReturn_eq hFrame ?_
  by_cases hUser : c.UserMode
  · rw [if_pos hUser] at hTop ⊢
    exact hTop
  · rw [if_neg hUser]
    simp only [keyDepth, landing, if_neg hUser] at hRoom ⊢
    omega

theorem movAl_wide (h : c.Wide) : (movAl c).Wide := by
  simp only [Cpu.Wide, Cpu.userFrame, Cpu.frame, movAl, List.cons_append, List.nil_append,
    List.mem_cons, List.not_mem_nil, or_false, forall_eq_or_imp, forall_eq] at h ⊢
  have hEax : c.eax / 256 * 256 + 0x20 < 2 ^ 32 := by omega
  tauto

/-! ## Programs and the machine -/

/-- A program of ring 3: what an instruction does to the registers and to the
process's own memory, and whether it is `int 0x80`. -/
structure Program where
  instruction : Cpu × Mem → Cpu × Mem
  isInt : Cpu × Mem → Bool
  ring : ∀ v, v.1.UserMode → (instruction v).1.UserMode
  wide : ∀ v, v.1.Wide → (instruction v).1.Wide

/-- What a process does while it has the processor. -/
inductive Act
  /-- An instruction, with the result of the system call that it may be. -/
  | instruction (result : Option Nat)
  /-- A key is pressed. -/
  | key
  deriving Repr, DecidableEq

/-- An event, with what the kernel leaves on its stack and in its data. -/
inductive Event
  | instruction (scratch : Mem)
  | keyboard (scratch : Mem)
  | timer (scratch : Mem)

section

variable (program : Nat → Program) (own : Nat → Nat → Prop) (data : Nat → Prop)
  [∀ p, DecidablePred (own p)] [DecidablePred data]

/-- The memory of a process. -/
def ownMem (p : Nat) (m : Mem) : Mem := fun x => if own p x then m x else 0

/-- The registers of a process, in the processor or in its slot, and its memory. -/
def view (p : Nat) (s : TrapRuns.State) : Cpu × Mem :=
  (if p = s.kernel.currentProcess then s.cpu
    else resume s.machine.mem (s.kernel.processes p).regs,
   ownMem own p s.machine.mem)

/-- The running process has executed an instruction. -/
def executed (s : TrapRuns.State) : TrapRuns.State :=
  let p := s.kernel.currentProcess
  let v := (program p).instruction (view own p s)
  { s with
    machine := { s.machine with mem := fun x => if own p x then v.2 x else s.machine.mem x }
    cpu := v.1
    switched := false }

/-- A trap of the running process. -/
def trapOf (trap : Trap) (s : TrapRuns.State) (scratch : Mem) : TrapRuns.Event where
  trap := trap
  cpu := s.cpu
  memory := s.machine.mem
  scratch := scratch

/-- The stack below the stub's frame and the kernel's data are the handler's. -/
def handlerScratched (esp0 sp : Nat) (scratch mem : Mem) : Mem :=
  fun x => if data x ∨ (trapArea esp0).base ≤ x ∧ x < sp then scratch x else mem x

/-- A keyboard interrupt of the running process. -/
def keyed (s : TrapRuns.State) (scratch : Mem) : TrapRuns.State :=
  let t := keyEntry s.machine.mem s.kernel.esp0 s.cpu
  let mem := handlerScratched data s.kernel.esp0 t.2 scratch t.1
  { s with
    machine := { s.machine with mem := mem }
    cpu := keyReturn mem t.2 s.cpu
    switched := false }

/-- `SYS_PRINTS`, `SYS_PRINTC`, `SYS_PRINTN`, `SYS_PRINTHEX` and `SYS_PRINT_SECONDS`. -/
def printing : List Nat := [2, 3, 4, 5, 8]

def sysSecondsNumber : Nat := 7
def sysGetPidNumber : Nat := 10
def sysGetParentPidNumber : Nat := 14

/-- The greatest number of a call. -/
def sysExecNumber : Nat := 16

/-- `get_seconds`. -/
def getSeconds (k : Kernel) : Nat := k.ticks / 100

/-- `sys_get_parent_pid`. -/
def sysGetParentPid (k : Kernel) (pro : Nat) : Option Nat :=
  (k.isValidProcessPtr pro).map fun valid =>
    if valid = false then minusOne
    else if (k.processes pro).parent = 0 then minusOne
    else (k.processes (k.processes pro).parent).pid

/-- The calls that come back at once, and their results. -/
def atOnce (k : Kernel) (c : Cpu) : Option (Option Nat) :=
  if c.eax ∈ printing ∨ sysExecNumber < c.eax then some none
  else if c.eax = sysSecondsNumber then some (some (getSeconds k))
  else if c.eax = sysGetPidNumber then some (some (k.processes k.currentProcess).pid)
  else if c.eax = sysGetParentPidNumber then (sysGetParentPid k c.ebx).map some
  else none

/-- Such a call of the running process. -/
def served (s : TrapRuns.State) (result : Option Nat) (scratch : Mem) : TrapRuns.State :=
  let t := trapEntry s.machine.mem s.kernel.esp0 s.cpu
  let mem := result.elim t.1 fun v => setWord t.1 (t.2 + 44) v
  let mem := handlerScratched data s.kernel.esp0 t.2 scratch mem
  { s with
    machine := { s.machine with mem := mem }
    cpu := resume mem t.2
    switched := false }

def step (s : TrapRuns.State) : Event → Option TrapRuns.State
  | .instruction scratch =>
      if Running s.kernel then
        let p := s.kernel.currentProcess
        let t := executed program own s
        if (program p).isInt (view own p s) then
          match atOnce t.kernel t.cpu with
          | some result => some (served data t result scratch)
          | none => TrapRuns.step t (trapOf .syscall t scratch)
        else some t
      else none
  | .keyboard scratch => if Running s.kernel then some (keyed data s scratch) else none
  | .timer scratch => TrapRuns.step s (trapOf .timer s scratch)

/-- A wait that blocks has the result `-1`, a yield and a sleep none. -/
def waited (c : Cpu) : Option Nat := if c.eax = Machine.sysWaitNumber then some minusOne else none

/-- The result of the call of the running process. -/
def resultOf (k : Kernel) (c : Cpu) : Option Nat := (atOnce k c).getD (waited c)

/-- Whose turn it is. -/
def turn (s : TrapRuns.State) : Event → Option (Nat × Act)
  | .instruction _ =>
      let p := s.kernel.currentProcess
      let v := view own p s
      some (p, .instruction (if (program p).isInt v then
        resultOf s.kernel ((program p).instruction v).1 else none))
  | .keyboard _ => some (s.kernel.currentProcess, .key)
  | .timer _ => none

/-- A result is returned in `eax`. -/
def answered (result : Option Nat) (c : Cpu) : Cpu :=
  result.elim c fun v => { c with eax := v % 2 ^ 32 }

/-- The process alone. -/
def alone (p : Nat) (v : Cpu × Mem) : Act → Cpu × Mem
  | .instruction result =>
      let w := (program p).instruction v
      (answered result w.1, ownMem own p w.2)
  | .key => (movAl v.1, v.2)

/-- The memory of each process, the kernel's data and the stacks that traps
land on are apart. -/
structure Layout (k : Kernel) (created : List Nat) : Prop where
  trap : ∀ p ∈ created, p ≠ k.currentProcess → (trapArea k.esp0).Apart (stackOf k p)
  own : ∀ p ∈ created, ∀ x, own p x → ¬data x ∧ ¬(trapArea k.esp0).Has x ∧
    (∀ q ∈ created, ¬(stackOf k q).Has x) ∧ ∀ q ∈ created, q ≠ p → ¬own q x
  data : ∀ x, data x → ¬(trapArea k.esp0).Has x ∧ ∀ q ∈ created, ¬(stackOf k q).Has x

/-- The invariant. -/
structure Inv (s : TrapRuns.State) : Prop where
  kept : Kept s
  layout : Layout own data s.kernel s.created
  ring : ∀ p ∈ s.created, (view own p s).1.UserMode
  wide : ∀ p ∈ s.created, (view own p s).1.Wide

end

/-! ## One trap -/

theorem resume_wide {regs : Nat} (hUser : (resume m regs).UserMode) : (resume m regs).Wide := by
  have hRing : word m (regs + 52) &&& 3 = 3 := hUser
  simp only [Cpu.Wide, Cpu.userFrame, Cpu.frame, List.cons_append, List.nil_append, resume, hRing,
    if_true, List.mem_cons, List.not_mem_nil, or_false, forall_eq_or_imp, forall_eq, word_lt,
    true_and, and_true]
  decide

theorem answered_wide {result : Option Nat} (h : c.Wide) : (answered result c).Wide := by
  cases result with
  | none => exact h
  | some v =>
      simp only [Cpu.Wide, Cpu.userFrame, Cpu.frame, List.cons_append, List.nil_append, answered,
        Option.elim_some, List.mem_cons, List.not_mem_nil, or_false, forall_eq_or_imp,
        forall_eq] at h ⊢
      have hEax : v % 2 ^ 32 < 2 ^ 32 := Nat.mod_lt _ (by decide)
      tauto

theorem answered_user {result : Option Nat} (h : c.UserMode) : (answered result c).UserMode := by
  cases result with
  | none => exact h
  | some v => exact h

/-- What a trap that may switch answers. -/
def trapAnswer (trap : Trap) (c : Cpu) : Cpu :=
  answered (if trap = .syscall then waited c else none) c

variable {s s' : TrapRuns.State} {trap : Trap} {scratch : Mem} {p q : Nat}

/-- The state after a trap from ring 3 that leaves its frame and what it
answers in `m₁`. -/
structure Trapped (s : TrapRuns.State) (trap : Trap) (scratch m₁ : Mem) (s' : TrapRuns.State) :
    Prop where
  frame : FrameAt m₁ (s.kernel.esp0 - 68) (trapAnswer trap s.cpu)
  apart : ∀ x, x < s.kernel.esp0 - 68 ∨ s.kernel.esp0 ≤ x → m₁ x = s.machine.mem x
  goes : s'.kernel.currentProcess = s.kernel.currentProcess ∧
      s'.machine.mem = scratched (trapArea s.kernel.esp0) (s.kernel.esp0 - 68) scratch m₁ ∧
      s'.cpu = resume s'.machine.mem (s.kernel.esp0 - 68) ∨
    s'.kernel.currentProcess ≠ s.kernel.currentProcess ∧
      s'.machine.mem = scratched (trapArea s.kernel.esp0) (s.kernel.esp0 - 68) scratch
        (saveFrame m₁ (s.kernel.esp0 - 68) (s.kernel.processes s.kernel.currentProcess).regs) ∧
      s'.cpu = resume s'.machine.mem (s.kernel.processes s'.kernel.currentProcess).regs

theorem trap_trapped (hK : Kept s) (hUser : s.cpu.UserMode)
    (h : TrapRuns.step s (trapOf trap s scratch) = some s') :
    ∃ m₁, Trapped s trap scratch m₁ s' := by
  unfold TrapRuns.step at h
  split at h
  case isFalse => simp at h
  case isTrue hEnabled =>
    obtain ⟨⟨-, hRunning⟩, hWide, -⟩ := hEnabled
    obtain ⟨m, hHandle, rfl⟩ := Option.map_eq_some_iff.mp h
    have hRange := hK.range
    unfold kernelStackSize at hRange
    -- the frame that the handler gets
    have hSame : (fun x => if Foreign s.created s.kernel x then s.machine.mem x
        else (trapOf trap s scratch).memory x) = s.machine.mem := by
      funext x
      exact ite_self _
    obtain ⟨hRegs, hFrame, hApart⟩ := trapEntry_user s.machine.mem hUser hWide
      (by omega) hRange.2
    have hTrapped : s.trapped (trapOf trap s scratch) =
        (⟨s.kernel, (trapEntry s.machine.mem s.kernel.esp0 s.cpu).1⟩, s.kernel.esp0 - 68) := by
      unfold TrapRuns.State.trapped
      simp only [hSame]
      rw [← hRegs]
      rfl
    rw [hTrapped] at hHandle ⊢
    obtain ⟨m₁, hHandled, hPassed⟩ := TrapRuns.handle_handled hHandle hK.table hRunning hK.living
    have hMem := hHandled.mem
    have hPrepared := hHandled.prepared
    have hCurrent : m₁.kernel.currentProcess = s.kernel.currentProcess := hPrepared.current
    have hWaits : waits (trapOf trap s scratch)
        ⟨s.kernel, (trapEntry s.machine.mem s.kernel.esp0 s.cpu).1⟩ (s.kernel.esp0 - 68) =
        decide (trap = .syscall ∧ s.cpu.eax = Machine.sysWaitNumber) := by
      unfold waits
      rw [hFrame.eax]
      rfl
    rw [hWaits] at hMem
    have hArea : ownArea s.kernel s.cpu = trapArea s.kernel.esp0 := if_pos hUser
    -- what is stored into it
    have hAnswer : FrameAt m₁.mem (s.kernel.esp0 - 68) (trapAnswer trap s.cpu) ∧
        ∀ x, x < s.kernel.esp0 - 68 ∨ s.kernel.esp0 ≤ x → m₁.mem x = s.machine.mem x := by
      by_cases hWait : trap = .syscall ∧ s.cpu.eax = Machine.sysWaitNumber
      · rw [decide_eq_true hWait, if_pos rfl] at hMem
        rw [hMem, trapAnswer, if_pos hWait.1, waited, if_pos hWait.2]
        refine ⟨hFrame.setEax (by decide), fun x hx => ?_⟩
        rw [setWord_apart (by omega)]
        exact hApart x hx
      · rw [decide_eq_false hWait] at hMem
        have hNothing : trapAnswer trap s.cpu = s.cpu := by
          unfold trapAnswer waited
          split
          · next hCall =>
              rw [if_neg fun hEax => hWait ⟨hCall, hEax⟩]
              rfl
          · rfl
        rw [hMem, hNothing]
        exact ⟨hFrame, hApart⟩
    refine ⟨m₁.mem, hAnswer.1, hAnswer.2, ?_⟩
    cases hPassed with
    | stayed halted hHeir =>
        have hStay : ¬m₁.kernel.currentProcess ≠ s.kernel.currentProcess := fun h => h hCurrent
        refine Or.inl ⟨hCurrent, ?_, ?_⟩
        · rw [← hArea]
          rfl
        · unfold TrapRuns.State.after
          simp only [decide_eq_false hStay, Bool.false_eq_true, if_false]
    | switched next hHeir =>
        have hSlot : (m₁.kernel.processes m₁.kernel.currentProcess).regs =
            (s.kernel.processes s.kernel.currentProcess).regs := by
          rw [hCurrent]
          exact hPrepared.regs _
        have hNonzero := (hK.stacked _ (hK.table.caller hRunning)).slot_ne_zero
        obtain ⟨-, -, hOther⟩ := heir_some hPrepared.table (hCurrent ▸ hRunning) hHeir
        rw [hCurrent] at hOther
        rw [Machine.contextSwitch_eq (hCurrent ▸ hRunning) (hSlot ▸ hNonzero), hSlot]
        refine Or.inr ⟨hOther, ?_, ?_⟩
        · rw [← hArea]
          rfl
        · have hNext : (m₁.kernel.processes next).regs = (s.kernel.processes next).regs :=
            hPrepared.regs next
          unfold TrapRuns.State.after
          simp only [decide_eq_true hOther, if_true, hNext]
          rfl

variable {own : Nat → Nat → Prop} {data : Nat → Prop}

/-- A switch leads to a process whose stack `tss.esp0` then names. -/
theorem turned_layout (hTurned : Turned s (trapOf trap s scratch) s') (hK : Kept s)
    (hLayout : Layout own data s.kernel s.created) : Layout own data s'.kernel s'.created := by
  have hStack : stackOf s'.kernel = stackOf s.kernel := by
    funext p
    rw [stackOf, (hTurned.blocks p).1]
    rfl
  rw [hTurned.created]
  rcases hTurned.control with ⟨-, hSame, hEsp⟩ | ⟨-, -, hNext, hEsp, -⟩
  · exact
      { trap := fun p hp hOther => by
          rw [hEsp, hStack]
          exact hLayout.trap p hp (hSame ▸ hOther)
        own := fun p hp x hx => by
          rw [hEsp, hStack]
          exact hLayout.own p hp x hx
        data := fun x hx => by
          rw [hEsp, hStack]
          exact hLayout.data x hx }
  · have hArea : trapArea s'.kernel.esp0 = stackOf s.kernel s'.kernel.currentProcess := by
      have hTop := (hK.stacked _ hNext).top
      rw [hEsp, trapArea, hTop, Nat.add_sub_cancel]
      rfl
    exact
      { trap := fun p hp hOther => by
          rw [hArea, hStack]
          exact (hK.apart.eq_or_apart hNext hp).resolve_left fun h => hOther h.symm
        own := fun p hp x hx => by
          obtain ⟨hData, -, hStacks, hOthers⟩ := hLayout.own p hp x hx
          rw [hArea, hStack]
          exact ⟨hData, hStacks _ hNext, hStacks, hOthers⟩
        data := fun x hx => by
          obtain ⟨-, hStacks⟩ := hLayout.data x hx
          rw [hArea, hStack]
          exact ⟨hStacks _ hNext, hStacks⟩ }

section

variable [∀ p, DecidablePred (own p)]

/-- The frame stays where it is above what a handler leaves. -/
theorem frameAt_scratched {area : Extent} {regs slot : Nat} (hFrame : FrameAt m slot c)
    (h : regs ≤ slot ∨ ∀ x, slot ≤ x → x < slot + 68 → ¬area.Has x)
    (hRegs : regs ≤ area.base + area.length) :
    FrameAt (TrapRuns.scratched area regs scratch m) slot c := by
  refine hFrame.frame fun x hLow hHigh => TrapRuns.scratched_apart _ _ hRegs ?_
  rcases h with hAbove | hApart
  · exact Or.inr (Nat.le_trans hAbove hLow)
  · exact Or.inl (hApart x hLow hHigh)

/-- **Who traps** goes on with the answer, at once or from its slot. -/
theorem Trapped.caller {m₁ : Mem} (h : Trapped s trap scratch m₁ s') (hK : Kept s)
    (hRunning : s.kernel.currentProcess ≠ 0) (hUser : s.cpu.UserMode)
    (hTurned : Turned s (trapOf trap s scratch) s') :
    (view own s.kernel.currentProcess s').1 = trapAnswer trap s.cpu := by
  have hAnswer : (trapAnswer trap s.cpu).UserMode := answered_user hUser
  have hRange := hK.range
  have hEnd : s.kernel.esp0 - 68 + 68 = s.kernel.esp0 := by
    unfold kernelStackSize at hRange
    omega
  have hArea : s.kernel.esp0 - 68 ≤ (trapArea s.kernel.esp0).base +
      (trapArea s.kernel.esp0).length := by
    simp only [trapArea]
    omega
  unfold view
  rcases h.goes with ⟨hSame, hMem, hCpu⟩ | ⟨hOther, hMem, -⟩
  · rw [if_pos hSame.symm, hCpu, hMem]
    exact resume_frameAt (frameAt_scratched h.frame (Or.inl (Nat.le_refl _)) hArea) hAnswer
  · rw [if_neg (Ne.symm hOther), (hTurned.blocks _).2.2, hMem]
    have hStacked := hK.stacked _ (hK.table.caller hRunning)
    have hClear := hK.slot_clear (e := trapOf trap s scratch) hRunning hUser hEnd
    rw [ownArea, if_pos (show (trapOf trap s scratch).cpu.UserMode from hUser)] at hClear
    refine resume_frameAt (frameAt_scratched (saveFrame_user h.frame hAnswer ?_) ?_ hArea) hAnswer
    · refine hClear.imp_right fun hApart => ?_
      by_contra hOverlap
      have hIn : ∀ x, s.kernel.esp0 - 68 ≤ x → x < s.kernel.esp0 →
          (trapArea s.kernel.esp0).Has x := by
        intro x hLow hHigh
        simp only [trapArea, Extent.Has, kernelStackSize] at hRange ⊢
        omega
      exact hApart
        (max (s.kernel.esp0 - 68) (s.kernel.processes s.kernel.currentProcess).regs)
        (hIn _ (by omega) (by omega)) (hStacked.has (by omega) (by omega))
    · rcases hClear with hSame | hApart
      · exact Or.inl (Nat.le_of_eq hSame)
      · exact Or.inr fun x hLow hHigh hIn => hApart x hIn (hStacked.has hLow hHigh)

/-- **Who does not trap** keeps what it has in its slot. -/
theorem Trapped.other {m₁ : Mem} (h : Trapped s trap scratch m₁ s') (hK : Kept s)
    (hTrap : (trapArea s.kernel.esp0).Apart (stackOf s.kernel p)) (hUser : s.cpu.UserMode)
    (hTurned : Turned s (trapOf trap s scratch) s') (hp : p ∈ s.created)
    (hOther : p ≠ s.kernel.currentProcess) : (view own p s').1 = (view own p s).1 := by
  have hBytes : ∀ x, (s.kernel.processes p).regs ≤ x → x < (s.kernel.processes p).regs + 68 →
      s'.machine.mem x = s.machine.mem x := by
    intro x hLow hHigh
    have hIn := (hK.stacked p hp).has hLow hHigh
    refine hTurned.others x ⟨p, hp, hOther, hIn⟩ fun hOwn => ?_
    rw [ownArea, if_pos (show (trapOf trap s scratch).cpu.UserMode from hUser)] at hOwn
    exact hTrap x hOwn hIn
  have hSlot : resume s'.machine.mem (s.kernel.processes p).regs =
      resume s.machine.mem (s.kernel.processes p).regs := KernelTraps.resume_congr hBytes
  unfold view
  rw [if_neg hOther, (hTurned.blocks p).2.2, hSlot]
  split
  · next hNow =>
      rcases h.goes with ⟨hSame, -⟩ | ⟨-, -, hCpu⟩
      · exact absurd (hNow.trans hSame) hOther
      · rw [hCpu, ← hNow, hSlot]
  · rfl

/-- Memory that is not the kernel's is not touched. -/
theorem Trapped.memory {m₁ : Mem} (h : Trapped s trap scratch m₁ s') (hK : Kept s)
    (hRunning : s.kernel.currentProcess ≠ 0)
    (hArea : ∀ x, own p x → ¬(trapArea s.kernel.esp0).Has x)
    (hStacks : ∀ x, own p x → ¬(stackOf s.kernel s.kernel.currentProcess).Has x) :
    (view own p s').2 = (view own p s).2 := by
  have hRange := hK.range
  have hStacked := hK.stacked _ (hK.table.caller hRunning)
  have hEnd : s.kernel.esp0 - 68 ≤ (trapArea s.kernel.esp0).base +
      (trapArea s.kernel.esp0).length := by
    simp only [trapArea]
    omega
  funext x
  simp only [view, ownMem]
  split
  · next hOwn =>
      have hOut := hArea x hOwn
      have hFrame : m₁ x = s.machine.mem x := by
        refine h.apart x ?_
        simp only [trapArea, Extent.Has, kernelStackSize] at hOut hRange
        omega
      rcases h.goes with ⟨-, hMem, -⟩ | ⟨-, hMem, -⟩
      · rw [hMem, TrapRuns.scratched_apart _ _ hEnd (Or.inl hOut), hFrame]
      · have hSlot : x < (s.kernel.processes s.kernel.currentProcess).regs ∨
            (s.kernel.processes s.kernel.currentProcess).regs + 68 ≤ x := by
          by_contra hIn
          exact hStacks x hOwn (hStacked.has (by omega) (by omega))
        rw [hMem, TrapRuns.scratched_apart _ _ hEnd (Or.inl hOut), saveFrame_apart _ _ hSlot,
          hFrame]
  · rfl

/-- **A trap, for everybody.** -/
theorem trap_views (h : Inv own data s)
    (hStep : TrapRuns.step s (trapOf trap s scratch) = some s') :
    Inv own data s' ∧ s'.created = s.created ∧ ∀ p ∈ s.created, view own p s' =
      (if p = s.kernel.currentProcess then trapAnswer trap s.cpu else (view own p s).1,
       (view own p s).2) := by
  obtain ⟨hK, hLayout, hRing, hWide⟩ := h
  have hRunning : s.kernel.currentProcess ≠ 0 := by
    unfold TrapRuns.step at hStep
    split at hStep
    case isTrue hEnabled => exact hEnabled.1.2
    case isFalse => simp at hStep
  have hCaller := hK.table.caller hRunning
  have hCpu : (view own s.kernel.currentProcess s).1 = s.cpu := if_pos rfl
  have hUser : s.cpu.UserMode := hCpu ▸ hRing _ hCaller
  have hTurned := TrapRuns.step_turned hK hStep
  obtain ⟨m₁, hTrapped⟩ := trap_trapped hK hUser hStep
  have hViews : ∀ p ∈ s.created, view own p s' =
      (if p = s.kernel.currentProcess then trapAnswer trap s.cpu else (view own p s).1,
       (view own p s).2) := by
    intro p hp
    refine Prod.ext ?_ ?_
    · simp only
      split
      · next hSelf =>
          rw [hSelf]
          exact hTrapped.caller hK hRunning hUser hTurned
      · next hOther => exact hTrapped.other hK (hLayout.trap p hp hOther) hUser hTurned hp hOther
    · exact hTrapped.memory hK hRunning (fun x hx => (hLayout.own p hp x hx).2.1)
        fun x hx => (hLayout.own p hp x hx).2.2.1 _ hCaller
  refine ⟨⟨TrapRuns.step_kept hK hStep, turned_layout hTurned hK hLayout, ?_, ?_⟩,
    hTurned.created, hViews⟩
  · intro p hp
    rw [hTurned.created] at hp
    rw [hViews p hp]
    simp only
    split
    · exact answered_user hUser
    · exact hRing p hp
  · intro p hp
    rw [hTurned.created] at hp
    rw [hViews p hp]
    simp only
    split
    · exact answered_wide (hCpu ▸ hWide _ hCaller)
    · exact hWide p hp

/-! ## Instructions and keys -/

/-- A step that the process table does not see: the running process's memory,
the kernel's data and the stack that traps land on may change. -/
structure Quiet (own : Nat → Nat → Prop) (data : Nat → Prop) (s s' : TrapRuns.State) : Prop where
  kernel : s'.kernel = s.kernel
  created : s'.created = s.created
  entry : s'.entry = s.entry
  switched : s'.switched = false
  mem : ∀ x, ¬own s.kernel.currentProcess x → ¬data x → ¬(trapArea s.kernel.esp0).Has x →
    s'.machine.mem x = s.machine.mem x

theorem Quiet.slot (h : Quiet own data s s') (hInv : Inv own data s)
    (hRunning : s.kernel.currentProcess ≠ 0) (hp : p ∈ s.created)
    (hOther : p ≠ s.kernel.currentProcess) {x : Nat} (hLow : (s.kernel.processes p).regs ≤ x)
    (hHigh : x < (s.kernel.processes p).regs + 68) : s'.machine.mem x = s.machine.mem x := by
  have hIn := (hInv.kept.stacked p hp).has hLow hHigh
  have hCaller := hInv.kept.table.caller hRunning
  refine h.mem x (fun hOwn => ?_) (fun hData => ?_) fun hTrap => ?_
  · exact (hInv.layout.own _ hCaller x hOwn).2.2.1 p hp hIn
  · exact (hInv.layout.data x hData).2 p hp hIn
  · exact hInv.layout.trap p hp hOther x hTrap hIn

theorem Quiet.other (h : Quiet own data s s') (hInv : Inv own data s)
    (hRunning : s.kernel.currentProcess ≠ 0) (hp : p ∈ s.created)
    (hOther : p ≠ s.kernel.currentProcess) : view own p s' = view own p s := by
  refine Prod.ext ?_ ?_
  · simp only [view, h.kernel, if_neg hOther]
    exact KernelTraps.resume_congr fun x => h.slot hInv hRunning hp hOther
  · funext x
    simp only [view, ownMem]
    split
    · next hOwn =>
        obtain ⟨hData, hTrap, -, hOthers⟩ := hInv.layout.own p hp x hOwn
        exact h.mem x (hOthers _ (hInv.kept.table.caller hRunning) (Ne.symm hOther)) hData hTrap
    · rfl

theorem Quiet.inv (h : Quiet own data s s') (hInv : Inv own data s)
    (hRunning : s.kernel.currentProcess ≠ 0) (hUser : s'.cpu.UserMode) (hWide : s'.cpu.Wide) :
    Inv own data s' := by
  obtain ⟨hK, hLayout, hRing, hWords⟩ := hInv
  have hKernel := h.kernel
  have hView : ∀ p ∈ s.created, p ≠ s.kernel.currentProcess → view own p s' = view own p s :=
    fun p hp hOther => h.other ⟨hK, hLayout, hRing, hWords⟩ hRunning hp hOther
  have hSelf : ∀ p, p = s.kernel.currentProcess → (view own p s').1 = s'.cpu := by
    intro p hp
    simp only [view, hKernel, hp, if_true]
  refine ⟨?_, ?_, ?_, ?_⟩
  · refine
      { table := by rw [hKernel, h.created]; exact hK.table
        stacked := by rw [hKernel, h.created]; exact hK.stacked
        apart := by rw [hKernel, h.created]; exact hK.apart
        range := by rw [hKernel]; exact hK.range
        home := by rw [hKernel, h.entry]; exact hK.home
        living := by rw [hKernel, h.created]; exact hK.living
        saved := ?_
        resumed := fun hSwitched => by rw [h.switched] at hSwitched; cases hSwitched }
    rw [hKernel, h.created, h.entry]
    intro p hp hOther x hx hMode
    obtain ⟨c, hMatches, hFrame⟩ := hK.saved p hp hOther x hx hMode
    exact ⟨c, hMatches, hFrame.frame fun x hLow hHigh =>
      h.slot ⟨hK, hLayout, hRing, hWords⟩ hRunning hp hOther hLow hHigh⟩
  · rw [hKernel, h.created]
    exact hLayout
  · rw [h.created]
    intro p hp
    by_cases hOther : p = s.kernel.currentProcess
    · rw [hSelf p hOther]
      exact hUser
    · rw [hView p hp hOther]
      exact hRing p hp
  · rw [h.created]
    intro p hp
    by_cases hOther : p = s.kernel.currentProcess
    · rw [hSelf p hOther]
      exact hWide
    · rw [hView p hp hOther]
      exact hWords p hp

/-- Boot leaves processes of ring 3, apart from each other and from the kernel. -/
structure Staged (own : Nat → Nat → Prop) (data : Nat → Prop) (k : Kernel) (created : List Nat)
    (mem : Mem) : Prop where
  booted : Booted k created
  layout : Layout own data k created
  ring : ∀ p ∈ created, (resume mem (k.processes p).regs).UserMode

theorem Staged.inv {k : Kernel} {created : List Nat} (h : Staged own data k created m) :
    Inv own data (start k created m) := by
  have hView : ∀ p, (view own p (start k created m)).1 = resume m (k.processes p).regs := by
    intro p
    unfold view
    split
    · next hSelf =>
        rw [hSelf]
        rfl
    · rfl
  refine ⟨h.booted.kept m, h.layout, fun p hp => ?_, fun p hp => ?_⟩
  · rw [hView]
    exact h.ring p hp
  · rw [hView]
    exact resume_wide (h.ring p hp)

variable (program : Nat → Program)

theorem executed_views (hInv : Inv own data s) (hRunning : s.kernel.currentProcess ≠ 0) :
    Inv own data (executed program own s) ∧
      view own s.kernel.currentProcess (executed program own s) =
        (((program s.kernel.currentProcess).instruction (view own s.kernel.currentProcess s)).1,
          ownMem own s.kernel.currentProcess ((program s.kernel.currentProcess).instruction
            (view own s.kernel.currentProcess s)).2) ∧
      ∀ p ∈ s.created, p ≠ s.kernel.currentProcess →
        view own p (executed program own s) = view own p s := by
  have hQuiet : Quiet own data s (executed program own s) :=
    ⟨rfl, rfl, rfl, rfl, fun x hOwn _ _ => if_neg hOwn⟩
  have hCaller := hInv.kept.table.caller hRunning
  refine ⟨hQuiet.inv hInv hRunning ?_ ?_, Prod.ext (if_pos rfl) ?_,
    fun p hp hOther => hQuiet.other hInv hRunning hp hOther⟩
  · exact (program _).ring _ (hInv.ring _ hCaller)
  · exact (program _).wide _ (hInv.wide _ hCaller)
  · funext x
    show (if own s.kernel.currentProcess x then _ else _) = ite _ _ _
    split
    · next hOwn => exact if_pos hOwn
    · rfl

/-- A handler that does not switch. -/
theorem handler_views (hInv : Inv own data s) (hRunning : s.kernel.currentProcess ≠ 0)
    (hQuiet : Quiet own data s s')
    (hMem : ∀ x, ¬data x → ¬(trapArea s.kernel.esp0).Has x → s'.machine.mem x = s.machine.mem x)
    (hUser : s'.cpu.UserMode) (hWide : s'.cpu.Wide) :
    Inv own data s' ∧
      view own s.kernel.currentProcess s' =
        (s'.cpu, (view own s.kernel.currentProcess s).2) ∧
      ∀ p ∈ s.created, p ≠ s.kernel.currentProcess → view own p s' = view own p s := by
  have hCaller := hInv.kept.table.caller hRunning
  refine ⟨hQuiet.inv hInv hRunning hUser hWide, Prod.ext ?_ ?_,
    fun p hp hOther => hQuiet.other hInv hRunning hp hOther⟩
  · simp only [view, hQuiet.kernel, if_true]
  · funext x
    simp only [view, ownMem]
    split
    · next hOwn =>
        obtain ⟨hData, hTrap, -⟩ := hInv.layout.own _ hCaller x hOwn
        exact hMem x hData hTrap
    · rfl

variable [DecidablePred data]

theorem handlerScratched_apart {sp x : Nat} (hsp : sp ≤ esp0) (hData : ¬data x)
    (hOut : ¬(trapArea esp0).Has x) (hRange : kernelStackSize ≤ esp0) (scratch : Mem) :
    handlerScratched data esp0 sp scratch m x = m x := by
  refine if_neg ?_
  rintro (hIn | ⟨hLow, hHigh⟩)
  · exact hData hIn
  · refine hOut ⟨hLow, ?_⟩
    simp only [trapArea]
    omega

theorem handlerScratched_frame {sp x : Nat} (hLayout : ∀ x, data x → ¬(trapArea esp0).Has x)
    (hLow : sp ≤ x) (hIn : (trapArea esp0).Has x) (scratch : Mem) :
    handlerScratched data esp0 sp scratch m x = m x := by
  refine if_neg ?_
  rintro (hData | ⟨-, hBelow⟩)
  · exact hLayout x hData hIn
  · omega

theorem keyed_views (hInv : Inv own data s) (hRunning : s.kernel.currentProcess ≠ 0)
    (scratch : Mem) :
    Inv own data (keyed data s scratch) ∧
      view own s.kernel.currentProcess (keyed data s scratch) =
        (movAl s.cpu, (view own s.kernel.currentProcess s).2) ∧
      ∀ p ∈ s.created, p ≠ s.kernel.currentProcess →
        view own p (keyed data s scratch) = view own p s := by
  have hCaller := hInv.kept.table.caller hRunning
  have hCpu : (view own s.kernel.currentProcess s).1 = s.cpu := if_pos rfl
  have hUser : s.cpu.UserMode := hCpu ▸ hInv.ring _ hCaller
  have hWide : s.cpu.Wide := hCpu ▸ hInv.wide _ hCaller
  have hRange := hInv.kept.range
  have hLanding : landing s.kernel.esp0 s.cpu = s.kernel.esp0 := if_pos hUser
  have hDepth : keyDepth s.cpu = 52 := if_pos hUser
  have hSize : kernelStackSize = 16384 := rfl
  have hTop : ∀ x, s.kernel.esp0 - 52 ≤ x → x < s.kernel.esp0 →
      (trapArea s.kernel.esp0).Has x := by
    intro x hLow hHigh
    simp only [trapArea, Extent.Has]
    omega
  obtain ⟨hsp, -, hApart⟩ := keyEntry_laid s.machine.mem s.kernel.esp0 hWide
    (by rw [hLanding, hDepth]; omega) (by rw [hLanding]; exact hRange.2)
  rw [hLanding, hDepth] at hsp hApart
  have hMem : ∀ x, ¬data x → ¬(trapArea s.kernel.esp0).Has x →
      (keyed data s scratch).machine.mem x = s.machine.mem x := by
    intro x hData hOut
    have hAway : x < s.kernel.esp0 - 52 ∨ s.kernel.esp0 ≤ x := by
      by_contra hIn
      exact hOut (hTop x (by omega) (by omega))
    exact (handlerScratched_apart (by omega) hData hOut hRange.1 scratch).trans (hApart x hAway)
  have hRegisters : (keyed data s scratch).cpu = movAl s.cpu := by
    refine keyboard_returns s.machine.mem s.kernel.esp0 hWide (by rw [hLanding, hDepth]; omega)
      (by rw [hLanding]; exact hRange.2) fun x hLow hHigh => ?_
    rw [hLanding, hDepth] at hLow
    rw [hLanding] at hHigh
    exact handlerScratched_frame (fun x hx => (hInv.layout.data x hx).1) (by omega)
      (hTop x hLow hHigh) scratch
  have hQuiet : Quiet own data s (keyed data s scratch) :=
    ⟨rfl, rfl, rfl, rfl, fun x _ hData hOut => hMem x hData hOut⟩
  have hViews := handler_views hInv hRunning hQuiet hMem (hRegisters ▸ hUser)
    (hRegisters ▸ movAl_wide hWide)
  rw [hRegisters] at hViews
  exact hViews

theorem served_views (hInv : Inv own data s) (hRunning : s.kernel.currentProcess ≠ 0)
    (result : Option Nat) (scratch : Mem) :
    Inv own data (served data s result scratch) ∧
      view own s.kernel.currentProcess (served data s result scratch) =
        (answered result s.cpu, (view own s.kernel.currentProcess s).2) ∧
      ∀ p ∈ s.created, p ≠ s.kernel.currentProcess →
        view own p (served data s result scratch) = view own p s := by
  have hCaller := hInv.kept.table.caller hRunning
  have hCpu : (view own s.kernel.currentProcess s).1 = s.cpu := if_pos rfl
  have hUser : s.cpu.UserMode := hCpu ▸ hInv.ring _ hCaller
  have hWide : s.cpu.Wide := hCpu ▸ hInv.wide _ hCaller
  have hRange := hInv.kept.range
  have hSize : kernelStackSize = 16384 := rfl
  have hTop : ∀ x, s.kernel.esp0 - 68 ≤ x → x < s.kernel.esp0 →
      (trapArea s.kernel.esp0).Has x := by
    intro x hLow hHigh
    simp only [trapArea, Extent.Has]
    omega
  obtain ⟨hsp, hFrame, hApart⟩ := trapEntry_user s.machine.mem hUser hWide (by omega) hRange.2
  -- the frame with the result in it
  have hStored : FrameAt (result.elim (trapEntry s.machine.mem s.kernel.esp0 s.cpu).1 fun v =>
        setWord (trapEntry s.machine.mem s.kernel.esp0 s.cpu).1 (s.kernel.esp0 - 68 + 44) v)
      (s.kernel.esp0 - 68) (answered result s.cpu) ∧
      ∀ x, x < s.kernel.esp0 - 68 ∨ s.kernel.esp0 ≤ x →
        (result.elim (trapEntry s.machine.mem s.kernel.esp0 s.cpu).1 fun v =>
          setWord (trapEntry s.machine.mem s.kernel.esp0 s.cpu).1 (s.kernel.esp0 - 68 + 44) v) x =
        s.machine.mem x := by
    cases result with
    | none => exact ⟨hFrame, hApart⟩
    | some v =>
        refine ⟨?_, fun x hx => ?_⟩
        · have hWord : ∀ m a, setWord m a v = setWord m a (v % 2 ^ 32) :=
            fun m a => (store_mod 4 a v m).symm
          simp only [Option.elim_some, hWord]
          exact hFrame.setEax (Nat.mod_lt _ (by decide))
        · simp only [Option.elim_some]
          rw [setWord_apart (by omega)]
          exact hApart x hx
  rw [← hsp] at hStored
  obtain ⟨hLaid, hAround⟩ := hStored
  have hMem : ∀ x, ¬data x → ¬(trapArea s.kernel.esp0).Has x →
      (served data s result scratch).machine.mem x = s.machine.mem x := by
    intro x hData hOut
    have hAway : x < (trapEntry s.machine.mem s.kernel.esp0 s.cpu).2 ∨ s.kernel.esp0 ≤ x := by
      rw [hsp]
      by_contra hIn
      exact hOut (hTop x (by omega) (by omega))
    exact (handlerScratched_apart (by omega) hData hOut hRange.1 scratch).trans (hAround x hAway)
  have hRegisters : (served data s result scratch).cpu = answered result s.cpu := by
    refine resume_frameAt (hLaid.frame fun x hLow hHigh => ?_) (answered_user hUser)
    rw [hsp] at hLow hHigh
    exact handlerScratched_frame (fun x hx => (hInv.layout.data x hx).1) (by omega)
      (hTop x hLow (by omega)) scratch
  have hQuiet : Quiet own data s (served data s result scratch) :=
    ⟨rfl, rfl, rfl, rfl, fun x _ hData hOut => hMem x hData hOut⟩
  have hViews := handler_views hInv hRunning hQuiet hMem (hRegisters ▸ answered_user hUser)
    (hRegisters ▸ answered_wide hWide)
  rw [hRegisters] at hViews
  exact hViews

/-- **An instruction, for everybody**, whether it is a call or not. -/
theorem instruction_views (hInv : Inv own data s)
    (hStep : step program own data s (.instruction scratch) = some s') :
    Inv own data s' ∧ s'.created = s.created ∧
      view own s.kernel.currentProcess s' =
        (let v := view own s.kernel.currentProcess s
          let w := (program s.kernel.currentProcess).instruction v
          (answered (if (program s.kernel.currentProcess).isInt v then resultOf s.kernel w.1
            else none) w.1, ownMem own s.kernel.currentProcess w.2)) ∧
      ∀ p ∈ s.created, p ≠ s.kernel.currentProcess → view own p s' = view own p s := by
  simp only [step] at hStep
  split at hStep
  case isFalse => cases hStep
  case isTrue hRunning =>
    have hCaller := hInv.kept.table.caller hRunning.2
    obtain ⟨hExecuted, hSelf, hOthers⟩ := executed_views program hInv hRunning.2
    have hCpu : (executed program own s).cpu =
        ((program s.kernel.currentProcess).instruction (view own s.kernel.currentProcess s)).1 :=
      rfl
    have hKernel : (executed program own s).kernel = s.kernel := rfl
    have hMemory : (view own s.kernel.currentProcess (executed program own s)).2 =
        ownMem own s.kernel.currentProcess ((program s.kernel.currentProcess).instruction
          (view own s.kernel.currentProcess s)).2 := congrArg Prod.snd hSelf
    split at hStep
    case isFalse hInt =>
      obtain rfl := Option.some.inj hStep
      simp only [hInt, Bool.false_eq_true, if_false]
      exact ⟨hExecuted, rfl, hSelf, hOthers⟩
    case isTrue hInt =>
      simp only [hInt, if_true]
      split at hStep
      case h_1 result hAtOnce =>
        obtain rfl := Option.some.inj hStep
        have hResult : resultOf s.kernel (executed program own s).cpu = result :=
          congrArg (Option.getD · _) hAtOnce
        obtain ⟨hServed, hAnswer, hStay⟩ := served_views hExecuted hRunning.2 result scratch
        refine ⟨hServed, rfl, ?_, fun p hp hOther =>
          (hStay p hp hOther).trans (hOthers p hp hOther)⟩
        rw [← hCpu, hResult, ← hMemory]
        exact hAnswer
      case h_2 hAtOnce =>
        have hResult : resultOf s.kernel (executed program own s).cpu =
            waited (executed program own s).cpu := congrArg (Option.getD · _) hAtOnce
        obtain ⟨hAfter, hCreated, hViews⟩ := trap_views hExecuted hStep
        refine ⟨hAfter, hCreated, ?_, fun p hp hOther => ?_⟩
        · rw [← hCpu, hResult, ← hMemory, hViews _ hCaller, hKernel, if_pos rfl]
          rfl
        · rw [hViews p hp, hKernel, if_neg hOther]
          exact hOthers p hp hOther

/-! ## Runs -/

/-- **One event, for everybody.** -/
theorem shares (created : List Nat) :
    Shares (step program own data) (fun s => Inv own data s ∧ s.created = created)
      (· ∈ created) (view own) (turn program own) (alone program own) where
  keeps s e s' hs hStep := by
    obtain ⟨hInv, rfl⟩ := hs
    cases e with
    | instruction scratch =>
        obtain ⟨hAfter, hCreated, -⟩ := instruction_views program hInv hStep
        exact ⟨hAfter, hCreated⟩
    | keyboard scratch =>
        obtain ⟨hRunning, hEq⟩ := Option.ite_none_right_eq_some.mp hStep
        obtain rfl := Option.some.inj hEq
        exact ⟨(keyed_views hInv hRunning.2 scratch).1, rfl⟩
    | timer scratch =>
        obtain ⟨hAfter, hCreated, -⟩ := trap_views hInv hStep
        exact ⟨hAfter, hCreated⟩
  acts s e s' hs hStep p hp := by
    obtain ⟨hInv, rfl⟩ := hs
    cases e with
    | instruction scratch =>
        obtain ⟨-, -, hSelf, hOthers⟩ := instruction_views program hInv hStep
        by_cases hTurn : p = s.kernel.currentProcess
        · subst hTurn
          rw [hSelf, turn, share_self]
          rfl
        · rw [hOthers p hp hTurn, turn, share_other _ (Ne.symm hTurn), List.foldl_nil]
    | keyboard scratch =>
        obtain ⟨hRunning, hEq⟩ := Option.ite_none_right_eq_some.mp hStep
        obtain rfl := Option.some.inj hEq
        obtain ⟨-, hSelf, hOthers⟩ := keyed_views hInv hRunning.2 scratch
        by_cases hTurn : p = s.kernel.currentProcess
        · subst hTurn
          rw [hSelf, turn, share_self, List.foldl_cons, List.foldl_nil, alone, view,
            if_pos rfl]
        · rw [hOthers p hp hTurn, turn, share_other _ (Ne.symm hTurn), List.foldl_nil]
    | timer scratch =>
        obtain ⟨-, -, hViews⟩ := trap_views hInv hStep
        rw [hViews p hp, turn, share_none, List.foldl_nil]
        split
        · next hTurn =>
            rw [hTurn, view, if_pos rfl]
            rfl
        · rfl

variable {program}

end

/-- A program that counts in `eax` for ever. -/
def counting : Program where
  instruction v := ({ v.1 with eax := (v.1.eax + 1) % 2 ^ 32 }, v.2)
  isInt _ := false
  ring _ h := h
  wide v h := by
    simp only [Cpu.Wide, Cpu.userFrame, Cpu.frame, List.cons_append, List.nil_append,
      List.mem_cons, List.not_mem_nil, or_false, forall_eq_or_imp, forall_eq] at h ⊢
    have hEax : (v.1.eax + 1) % 2 ^ 32 < 2 ^ 32 := Nat.mod_lt _ (by decide)
    tauto

/-- A page for each of two processes. -/
def twoPages (p x : Nat) : Prop :=
  if p = 0x26009 then 0x40000 ≤ x ∧ x < 0x41000 else 0x50000 ≤ x ∧ x < 0x51000

instance (p : Nat) : DecidablePred (twoPages p) := fun x => by
  unfold twoPages
  infer_instance

/-- The screen. -/
def screen (x : Nat) : Prop := 0xB8000 ≤ x ∧ x < 0xB8FA0

instance : DecidablePred screen := fun x => by
  unfold screen
  infer_instance

/-- What boot leaves in the slots: frames of ring 3. -/
def userSlots : Mem := fun x => if x = 0x2AFBC + 52 ∨ x = 0x2FFBC + 52 then 0x1B else 0

/-- The first process counts, a key is pressed, the second process counts, and
the first goes on. -/
def countAndPress : List Event :=
  [.instruction userSlots, .keyboard userSlots, .timer userSlots, .instruction userSlots,
    .timer userSlots, .instruction userSlots]

end MiniKernel.Ports.VirtualProcessors
