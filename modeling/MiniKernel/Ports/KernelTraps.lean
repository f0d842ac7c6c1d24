import MiniKernel.Ports.TrapRuns
import MiniKernel.Verified.Footprint

/-!
# Interrupting the kernel's own processes

From ring 0 the processor pushes no stack pointer and pops none: `iretd` leaves it just
behind the frame it has popped.  A process of ring 0 runs on the very stack its slot is
the top of, from 8 bytes below the end, where its first `restore_esp` leaves the stack
pointer.  When `save_context` copies its frame into the slot, it therefore overwrites
what the process has pushed first, and `restore_esp` leaves the stack pointer where the
process began.  `kernel_interrupted` says that both are as they should be only for a
process that has pushed nothing.
-/

namespace MiniKernel.Ports.KernelTraps

open MiniKernel.Verified.ByteMemory
open MiniKernel.Verified.WordStack
open MiniKernel.Verified.Extents
open MiniKernel.Verified.Footprint
open MiniKernel.Verified.Trace
open MiniKernel.Ports.ProcessTable
open MiniKernel.Ports.ProcessSwitch
open MiniKernel.Ports.TrapFrames
open MiniKernel.Ports.TrapRuns

/-! ## What is saved -/

/-- The assignments of `save_context`, with the memory they write. -/
def saveLogged (s : Logged) (regs saved : Nat) : Logged :=
  let s := s.assign saved regs 15
  if word s.mem (regs + 52) &&& 3 = 3 then s.assign (saved + 60) (regs + 60) 2 else s

theorem saveLogged_mem (s : Logged) (regs saved : Nat) :
    (saveLogged s regs saved).mem = saveFrame s.mem regs saved := by
  unfold saveLogged saveFrame Logged.assign
  simp only
  split
  · rfl
  · rfl

/-- No byte that is written lies from `low` on below `high`. -/
def Spares (s : Logged) (low high : Nat) : Prop :=
  ∀ e ∈ s.written, ∀ x, e.Has x → ¬(low ≤ x ∧ x < high)

/-- The slot is written up to `eflags`. -/
theorem saveLogged_slot (s : Logged) (regs saved : Nat) :
    ⟨saved, 60⟩ ∈ (saveLogged s regs saved).written := by
  unfold saveLogged
  simp only
  split
  · exact List.mem_cons_of_mem _ List.mem_cons_self
  · exact List.mem_cons_self

variable {m m' : Mem} {c : Cpu} {regs saved : Nat}

/-- A frame that lies in its slot already is saved by writing it once more. -/
theorem saveLogged_inPlace (h : ¬word m (regs + 52) &&& 3 = 3) :
    saveLogged (Logged.start m) regs regs = (Logged.start m).assign regs regs 15 := by
  have hSame : ((Logged.start m).assign regs regs 15).mem = m := by
    funext x
    rw [assign_apply (Or.inl (Nat.le_refl regs))]
    split
    · next hIn =>
        change m _ = m x
        congr 1
        omega
    · rfl
  unfold saveLogged
  simp only
  rw [hSame, if_neg h]

/-- The saved `cs`, for a frame that does not begin below the slot. -/
theorem saveFrame_cs (h : saved ≤ regs) :
    word (saveFrame m regs saved) (saved + 52) = word m (regs + 52) := by
  have hFirst : word (copyWords regs saved ((List.range 15).map fun j => 4 * j) m) (saved + 52) =
      word m (regs + 52) := by
    refine word_move fun i hi => ?_
    rw [copyWords_apply m (Or.inl h) 15 (Nat.le_refl 15), if_pos (by omega)]
    congr 1
    omega
  unfold saveFrame
  simp only
  split
  · rw [← hFirst]
    refine word_congr fun x hLow hHigh => copyWords_apart _ fun o ho => ?_
    have hEnd : 60 ≤ o := by
      rcases List.mem_cons.mp ho with rfl | ho
      · exact Nat.le_refl 60
      · rw [List.mem_singleton.mp ho]
        omega
    omega
  · exact hFirst

/-! ## What is restored -/

/-- `restore_esp` reads the slot and nothing else. -/
theorem resume_congr (h : ∀ x, regs ≤ x → x < regs + 68 → m' x = m x) :
    resume m' regs = resume m regs := by
  have hWord : ∀ o, o + 4 ≤ 68 → word m' (regs + o) = word m (regs + o) :=
    fun o ho => word_congr fun x hLow hHigh => h x (by omega) (by omega)
  have hFirst : word m' regs = word m regs := hWord 0 (by omega)
  unfold resume
  simp only [hFirst, hWord 4 (by omega), hWord 8 (by omega), hWord 12 (by omega),
    hWord 16 (by omega), hWord 20 (by omega), hWord 24 (by omega), hWord 32 (by omega),
    hWord 36 (by omega), hWord 40 (by omega), hWord 44 (by omega), hWord 48 (by omega),
    hWord 52 (by omega), hWord 56 (by omega), hWord 60 (by omega), hWord 64 (by omega)]

/-- Without a stack pointer to pop, it is left behind the frame. -/
theorem resume_kernel (h : ¬word m (regs + 52) &&& 3 = 3) : (resume m regs).esp = regs + 60 :=
  if_neg h

/-- The frame of a trap from ring 0. -/
theorem trapEntry_cs (m : Mem) (esp0 : Nat) (hKernel : ¬c.UserMode) (hWide : c.Wide)
    (hRoom : 60 ≤ c.esp) (hRange : c.esp < 2 ^ 32) :
    word (trapEntry m esp0 c).1 (c.esp - 60 + 52) = c.cs := by
  have hWords : ∀ w ∈ (c.frame (c.esp - 12)).reverse, w < 2 ^ 32 := fun w hw =>
    hWide.words (by omega : c.esp - 12 < 2 ^ 32) w
      (List.mem_append_left _ (List.mem_reverse.mp hw))
  have hLaid := laid_pushAll (c.frame (c.esp - 12)).reverse m c.esp hRoom hWords
  rw [List.reverse_reverse] at hLaid
  rw [trapEntry_pushes m esp0 hKernel]
  simp only [Cpu.frame, List.reverse_cons, List.length_append, List.length_cons, Laid,
    Nat.add_assoc, Nat.reduceAdd] at hLaid
  exact hLaid.2.2.2.2.2.2.2.2.2.2.2.2.2.1

/-! ## A switch at a tick -/

variable {s s' : State} {e : Event} {p base : Nat} {mem : Mem}

/-- The memory that a switching timer interrupt leaves. -/
theorem tick_memory (hK : Kept s) (hTimer : e.trap = .timer) (h : step s e = some s')
    (hSwitched : s'.switched = true) :
    s.kernel.currentProcess ∈ s.created ∧ Possible s e.cpu ∧
      s'.machine.mem = scratched (ownArea s.kernel e.cpu) (s.trapped e).2 e.scratch
        (saveFrame (s.trapped e).1.mem (s.trapped e).2
          (s.kernel.processes s.kernel.currentProcess).regs) := by
  unfold step at h
  split at h
  case isFalse => simp at h
  case isTrue hEnabled =>
    obtain ⟨⟨-, hRunning⟩, hPossible⟩ := hEnabled
    obtain ⟨m, hHandle, rfl⟩ := Option.map_eq_some_iff.mp h
    have hCaller := hK.table.caller hRunning
    obtain ⟨m₁, hHandled, hPassed⟩ := handle_handled hHandle hK.table hRunning hK.living
    have hMem := hHandled.mem
    have hPrepared := hHandled.prepared
    have hCurrent : m₁.kernel.currentProcess = s.kernel.currentProcess := hPrepared.current
    have hSlot : (m₁.kernel.processes m₁.kernel.currentProcess).regs =
        (s.kernel.processes s.kernel.currentProcess).regs := by
      rw [hCurrent]
      exact hPrepared.regs _
    simp only [waits, hTimer, reduceCtorEq, false_and, decide_false, Bool.false_eq_true,
      if_false] at hMem
    refine ⟨hCaller, hPossible, ?_⟩
    cases hPassed with
    | stayed halted hHeir => exact absurd hCurrent (of_decide_eq_true hSwitched)
    | switched next hHeir =>
        have hNonzero : (m₁.kernel.processes m₁.kernel.currentProcess).regs ≠ 0 :=
          hSlot ▸ (hK.stacked _ hCaller).slot_ne_zero
        rw [Machine.contextSwitch_eq (hCurrent ▸ hRunning) hNonzero, hSlot, hMem]
        rfl

/-- The process `p` does not run, and its slot holds what it holds in `mem`; or it has
just been resumed from there. -/
structure Suspended (p base : Nat) (mem : Mem) (s : State) : Prop where
  kept : Kept s
  listed : p ∈ s.created
  entered : s.entry p ≠ none
  slot : (s.kernel.processes p).regs = base
  away : p ≠ s.kernel.currentProcess → ∀ x, base ≤ x → x < base + 68 → s.machine.mem x = mem x
  back : p = s.kernel.currentProcess → s.cpu = resume mem base

/-- **The slot waits.**  While other processes run and trap, nobody writes to it. -/
theorem Suspended.step (h : Suspended p base mem s) (hAway : s.kernel.currentProcess ≠ p)
    (hStep : TrapRuns.step s e = some s') : Suspended p base mem s' := by
  have hTurned := step_turned h.kept hStep
  have hRunning : s.kernel.currentProcess ≠ 0 := by
    unfold TrapRuns.step at hStep
    split at hStep
    case isTrue hEnabled => exact hEnabled.1.2
    case isFalse => simp at hStep
  have hSlot := h.slot
  have hBytes : ∀ x, base ≤ x → x < base + 68 → s'.machine.mem x = mem x := by
    intro x hLow hHigh
    rw [← h.away (Ne.symm hAway) x hLow hHigh]
    subst hSlot
    have hIn := (h.kept.stacked p h.listed).has hLow hHigh
    exact hTurned.others x ⟨p, h.listed, Ne.symm hAway, hIn⟩ fun hOwn =>
      h.kept.ownArea_apart hRunning h.listed (Ne.symm hAway) h.entered x hOwn hIn
  exact
    { kept := step_kept h.kept hStep
      listed := hTurned.created.symm ▸ h.listed
      entered := by
        rw [hTurned.entry]
        simp only [Ne.symm hAway, if_false]
        exact h.entered
      slot := (hTurned.blocks p).2.2.trans hSlot
      away := fun _ => hBytes
      back := by
        intro hBack
        rcases hTurned.control with ⟨-, hSame, -⟩ | ⟨-, -, -, -, hCpu⟩
        · exact absurd (hBack.trans hSame).symm hAway
        · rw [hCpu, ← hBack, hSlot]
          exact resume_congr hBytes }

/-- A process that has been switched away from is suspended. -/
theorem suspended_of_switch (hK : Kept s) (hRunning : s.kernel.currentProcess ∈ s.created)
    (hStep : TrapRuns.step s e = some s') (hSwitched : s'.switched = true) :
    Suspended s.kernel.currentProcess (s.kernel.processes s.kernel.currentProcess).regs
      s'.machine.mem s' := by
  have hTurned := step_turned hK hStep
  exact
    { kept := step_kept hK hStep
      listed := hTurned.created.symm ▸ hRunning
      entered := by simp [hTurned.entry]
      slot := (hTurned.blocks _).2.2
      away := fun _ _ _ _ => rfl
      back := by
        rcases hTurned.control with ⟨hStay, -⟩ | ⟨-, hOther, -⟩
        · simp [hStay] at hSwitched
        · exact fun hBack => absurd hBack.symm hOther }

/-- **A kernel process interrupted.**  In any run, let the timer interrupt a process of
ring 0 and switch to another.  Whenever the process is next resumed, its registers are
those in its slot.  No byte of its stack was overwritten and the stack pointer is the old
one if and only if the stack pointer was 8 bytes below the end of the stack. -/
theorem kernel_interrupted {k : Kernel} {created : List Nat} {memory : Mem} {events : List Event}
    (hBooted : Booted k created) (hRun : exec step (start k created memory) events = some s)
    (hTimer : e.trap = .timer) (hKernel : ¬e.cpu.UserMode) (hStep : step s e = some s')
    (hSwitched : s'.switched = true) :
    s'.machine.mem = scratched (stackOf s.kernel s.kernel.currentProcess) (s.trapped e).2 e.scratch
      (saveLogged (Logged.start (s.trapped e).1.mem) (s.trapped e).2
        (s.kernel.processes s.kernel.currentProcess).regs).mem ∧
    (∀ later s'', exec step s' later = some s'' →
      Meets step (fun t _ => t.kernel.currentProcess ≠ s.kernel.currentProcess) s' later →
      s''.kernel.currentProcess = s.kernel.currentProcess →
      s''.cpu =
        resume s'.machine.mem (s.kernel.processes s.kernel.currentProcess).regs) ∧
    (Spares (saveLogged (Logged.start (s.trapped e).1.mem) (s.trapped e).2
          (s.kernel.processes s.kernel.currentProcess).regs)
        e.cpu.esp (s.kernel.processes s.kernel.currentProcess).kernelStackTo ∧
      (resume s'.machine.mem (s.kernel.processes s.kernel.currentProcess).regs).esp =
        e.cpu.esp ↔
      e.cpu.esp + 8 = (s.kernel.processes s.kernel.currentProcess).kernelStackTo) := by
  have hK : Kept s := exec_invariant (fun _ _ _ => step_kept) (hBooted.kept memory) hRun
  obtain ⟨hCaller, ⟨hWide, -, hStack⟩, hMem⟩ := tick_memory hK hTimer hStep hSwitched
  obtain ⟨hLow, hHigh⟩ := hStack hKernel
  have hStacked := hK.stacked _ hCaller
  have hTop := hStacked.top
  have hSlot := hStacked.slot
  have hRange := hStacked.range
  simp only [ownArea, if_neg hKernel] at hMem
  refine ⟨?_, fun later s'' hLater hMeets hBack => ?_, ?_⟩
  · rw [hMem, saveLogged_mem]
    rfl
  · have hSuspended := suspended_of_switch hK hCaller hStep hSwitched
    exact (Meets.invariant (fun _ _ _ h hAway hStep => h.step hAway hStep) hSuspended hMeets
      hLater).back hBack.symm
  generalize (s.kernel.processes s.kernel.currentProcess).kernelStackTo = top at *
  generalize (s.kernel.processes s.kernel.currentProcess).regs = slot at *
  simp only [stackOf, kernelStackSize, sizeofRegisters] at hLow hHigh hTop hSlot
  -- where the trap has pushed its frame, and the `cs` in it
  have hFrame : (s.trapped e).2 = e.cpu.esp - 60 ∧
      word (s.trapped e).1.mem (e.cpu.esp - 60 + 52) = e.cpu.cs := by
    unfold State.trapped
    exact ⟨(trapEntry_kernel _ _ hKernel (by omega)).1,
      trapEntry_cs _ _ hKernel hWide (by omega) (by omega)⟩
  obtain ⟨hRegs, hCs⟩ := hFrame
  rw [hRegs] at hMem ⊢
  -- a frame that does not begin below the slot is saved with its `cs`
  have hResumed : top ≤ e.cpu.esp + 8 → (resume s'.machine.mem slot).esp = slot + 60 := by
    intro hAbove
    have hCode : word s'.machine.mem (slot + 52) = e.cpu.cs := by
      rw [← hCs, ← saveFrame_cs (by omega : slot ≤ e.cpu.esp - 60), hMem]
      refine word_congr fun x hFrom hTo => if_neg ?_
      omega
    refine resume_kernel ?_
    rw [hCode]
    exact hKernel
  constructor
  · rintro ⟨hSpares, hSame⟩
    rcases Nat.lt_trichotomy (e.cpu.esp + 8) top with hDeep | hEq | hHigher
    · -- the last byte of the slot is one the process has pushed
      have hIn : (⟨slot, 60⟩ : Extent).Has (slot + 59) := ⟨Nat.le_add_right _ _, Nat.lt_succ_self _⟩
      have hApart := hSpares _ (saveLogged_slot _ _ slot) (slot + 59) hIn
      omega
    · exact hEq
    · rw [hResumed (by omega)] at hSame
      omega
  · intro hEq
    have hBase : e.cpu.esp - 60 = slot := by omega
    refine ⟨?_, (hResumed (by omega)).trans (by omega)⟩
    rw [hBase] at hCs ⊢
    rw [saveLogged_inPlace (by rw [hCs]; exact hKernel)]
    intro f hf x hx hIn
    obtain rfl := List.mem_singleton.mp hf
    obtain ⟨hFrom, hTo⟩ := hx
    simp only at hFrom hTo
    omega

/-- Two processes of ring 0 that boot has created. -/
def twoKernels : Option ProcessRuns.State :=
  exec ProcessRuns.step
    (ProcessRuns.boot (fun _ => ⟨0, 0, 0, 0, .ready, 0, 0, 0, 0, 0, 0⟩)
      (fun _ => ⟨0, 0, 0, 0, 0, 0, 0, 0, 0, 0, 0, 0, 0, 0, 0, 0, 0⟩) 0 0x90000 0x10B00)
    [.create 0x10C00 0 0x26009 0x27000 0, .create 0x10C00 0 0x26042 0x2C000 0]

/-- The timer interrupts a process of ring 0 with the given stack pointer. -/
def tickAt (esp : Nat) : Event where
  trap := .timer
  cpu := ⟨0x10, 0x10, 0x10, 0x10, 0, 0, 0, 0, 0, 0, 0, 0x10B20, 0x08, 0x202, esp, 0x10⟩
  memory := fun _ => 0xFF
  scratch := fun _ => 0

/-- What the first `restore_esp` finds: `cs` of ring 0 in both slots. -/
def kernelSlots : Mem := fun x => if x = 0x2AFBC + 52 ∨ x = 0x2FFBC + 52 then 0x08 else 0

/-- Interrupted before its first push, a process goes on as it was. -/
theorem kernel_interrupted_first :
    ∃ b ∈ twoKernels, ∃ s ∈ step (start b.kernel b.created kernelSlots) (tickAt 0x2AFF8),
      (resume s.machine.mem 0x2AFBC).esp = 0x2AFF8 := by
  have hRun : ∃ b ∈ twoKernels,
      (∀ p ∈ b.created, (b.kernel.processes p).kernelStack + kernelStackSize < 2 ^ 32) ∧
      PairwiseApart (stackOf b.kernel) b.created ∧
      (kernelStackSize ≤ b.kernel.esp0 ∧ b.kernel.esp0 < 2 ^ 32) ∧
      (trapArea b.kernel.esp0).Apart (stackOf b.kernel b.kernel.currentProcess) ∧
      (b.kernel.currentProcess = 0x26009 ∧
        (b.kernel.processes 0x26009).regs = 0x2AFBC ∧
        (b.kernel.processes 0x26009).kernelStackTo = 0x2B000) ∧
      ∃ s ∈ step (start b.kernel b.created kernelSlots) (tickAt 0x2AFF8), s.switched = true := by
    decide +kernel
  obtain ⟨b, hb, hStacks, hApart, hRange, hFirst, ⟨hCurrent, hSlot, hTop⟩, s, hs, hSwitched⟩ :=
    hRun
  have hBooted : Booted b.kernel b.created :=
    booted_of_creations (by decide +kernel) hb hStacks hApart hRange hFirst
  obtain ⟨-, -, hSpared⟩ := @kernel_interrupted (start b.kernel b.created kernelSlots) s
    (tickAt 0x2AFF8) b.kernel b.created kernelSlots [] hBooted rfl rfl (by decide) hs hSwitched
  refine ⟨b, hb, s, hs, ?_⟩
  have hRest := (hSpared.mpr ?_).2
  · change (resume s.machine.mem (b.kernel.processes b.kernel.currentProcess).regs).esp = _
      at hRest
    rwa [hCurrent, hSlot] at hRest
  · change 0x2AFF8 + 8 = (b.kernel.processes b.kernel.currentProcess).kernelStackTo
    rw [hCurrent, hTop]

/-- Interrupted 60 bytes deeper, where the frame lies below the slot, it has lost what it
pushed there, and is resumed with the stack pointer it began with. -/
theorem kernel_stack_lost :
    ∃ b ∈ twoKernels,
      ∃ s ∈ exec step (start b.kernel b.created kernelSlots) [tickAt 0x2AFBC],
        s.switched = true ∧ s.machine.mem 0x2AFF0 ≠ 0xFF ∧
        ∃ s' ∈ exec step (start b.kernel b.created kernelSlots)
            [tickAt 0x2AFBC, tickAt 0x2FFF8],
          s'.switched = true ∧ s'.kernel.currentProcess = 0x26009 ∧ s'.cpu.esp = 0x2AFF8 := by
  decide +kernel

end MiniKernel.Ports.KernelTraps
