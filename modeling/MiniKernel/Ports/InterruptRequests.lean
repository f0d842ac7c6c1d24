import MiniKernel.Ports.Console
import MiniKernel.Verified.InterruptController
import MiniKernel.Verified.Trace

/-!
# Interrupt requests

Timer and keyboard reach the processor through two interrupt controllers, which
`remap_pic` sets up.  A handler runs with interrupts off, from the interrupt
gate to its `iret`, and has to tell the controller that it is done.  `irq0`
does so once, `keyboard_isr` once more than `keyboard_handler` has done already.

Here the code that runs with interrupts off is what is left of it, as far as
the controllers, `ticks` and the interrupt flag see it: the boot code up to
`sti`, a handler, or code that is neither (a system call, or `pit_init`).  Code
that ends in `cli; hlt` leaves nothing to do, with interrupts off for good.  The
exit code that `sys_wait` stores does not go to `ticks`.
-/

namespace MiniKernel.Ports.InterruptRequests

open MiniKernel.Verified.InterruptController
open MiniKernel.Verified.Trace
open MiniKernel.Ports.Console (read)

inductive Op
  | outb (port value : Nat)
  /-- `ticks++`. -/
  | tick
  | sti
  | iret
  deriving Repr, DecidableEq

/-- The operation turns interrupts on. -/
def Op.Enables : Op → Prop
  | .sti => True
  | .iret => True
  | _ => False

instance (op : Op) : Decidable op.Enables := by
  cases op
  · exact .isFalse id
  · exact .isFalse id
  · exact .isTrue trivial
  · exact .isTrue trivial

/-- `remap_pic`. -/
def remapPic : List Op :=
  [ .outb 0x20 0x11, .outb 0xA0 0x11, .outb 0x21 0x20, .outb 0xA1 0x28, .outb 0x21 0x04,
    .outb 0xA1 0x02, .outb 0x21 0x01, .outb 0xA1 0x01, .outb 0x21 0x00, .outb 0xA1 0x00 ]

/-- `kernel` from `remap_pic` to `sti`. -/
def bootCode : List Op := remapPic ++ [.outb 0x21 0xFC, .sti]

/-- `irq0` and `irq0_handler`; whichever process goes on has interrupts on. -/
def irq0 : List Op := [.tick, .outb 0x20 0x20, .iret]

/-- `keyboard_handler` for a scan code; it returns early for `KEY_NONE`. -/
def keyboardHandler (code : Nat) : List Op := if read code = 0 then [] else [.outb 0x20 0x20]

/-- `keyboard_isr`. -/
def keyboardIsr (code : Nat) : List Op := keyboardHandler code ++ [.outb 0x20 0x20, .iret]

/-- The stub that the gate of a vector leads to; a fault handler halts. -/
def stub (vector code : Nat) : List Op :=
  if vector = 32 then irq0 else if vector = 33 then keyboardIsr code else []

/-- What happens between a device, the controller and the processor. -/
inductive Note
  | taken (vector : Nat)
  /-- An end of interrupt, and the line that it ends. -/
  | ended (line : Option Nat)
  deriving Repr, DecidableEq

/-- The controllers, the interrupt flag, and what is left of the code that runs
with interrupts off. -/
structure State where
  master : Chip
  slave : Chip
  enabled : Bool
  rest : List Op
  ticks : Nat
  log : List Note

def Op.onMaster (c : Chip) : Op → Chip
  | .outb 0x20 v => c.command v
  | .outb 0x21 v => c.data v
  | _ => c

def Op.onSlave (c : Chip) : Op → Chip
  | .outb 0xA0 v => c.command v
  | .outb 0xA1 v => c.data v
  | _ => c

def Op.notes (c : Chip) : Op → List Note
  | .outb 0x20 0x20 => [.ended (mostUrgent c.inService)]
  | _ => []

def Op.run (op : Op) (s : State) : State :=
  { s with
    master := op.onMaster s.master
    slave := op.onSlave s.slave
    enabled := if op.Enables then true else s.enabled
    ticks := if op = .tick then (s.ticks + 1) % 2 ^ 32 else s.ticks
    log := s.log ++ op.notes s.master }

inductive Event
  /-- A device raises a line of the master (0 to 7) or of the slave (8 to 15). -/
  | request (line : Nat)
  /-- The processor takes an interrupt; `code` is the scan code to be read. -/
  | accept (code : Nat)
  /-- One operation of the code that runs with interrupts off. -/
  | run
  /-- Other code turns interrupts off: `int 0x80`, up to `iret`. -/
  | block
  /-- It comes to `cli; hlt`: an exit or a wait after which nobody can run, or a fault. -/
  | halt
  deriving Repr, DecidableEq

/-- The slave asks through line 2 of the master. -/
def request (line : Nat) (s : State) : State :=
  if line < 8 then { s with master := s.master.raise line }
  else
    let slave := s.slave.raise (line - 8)
    { s with slave := slave, master := if slave.offered = none then s.master else s.master.raise 2 }

def step (s : State) : Event → Option State
  | .request line => some (request line s)
  | .accept code =>
      if s.enabled then
        s.master.offered.map fun line =>
          { s with
            master := s.master.acknowledge line
            enabled := false
            rest := stub (s.master.base + line) code
            log := s.log ++ [.taken (s.master.base + line)] }
      else none
  | .run =>
      match s.rest with
      | [] => none
      | op :: ops => some (op.run { s with rest := ops })
  | .block => if s.enabled then some { s with enabled := false, rest := [.iret] } else none
  | .halt => if s.enabled then some { s with enabled := false, rest := [] } else none

/-- The controllers as the BIOS has left them, at `remap_pic`. -/
def start (master slave : Chip) : State where
  master := master
  slave := slave
  enabled := false
  rest := bootCode
  ticks := 0
  log := []

/-! ## What is left to do -/

/-- The master after the code has run to its end. -/
def left (c : Chip) (ops : List Op) : Chip := ops.foldl Op.onMaster c

/-- What the code will note. -/
def future (c : Chip) : List Op → List Note
  | [] => []
  | op :: ops => op.notes c ++ future (op.onMaster c) ops

theorem onMaster_core (c : Chip) (op : Op) : (op.onMaster c).core = op.onMaster c.core := by
  unfold Op.onMaster
  split
  · exact c.command_core _
  · exact c.data_core _
  · rfl

theorem left_core (ops : List Op) : ∀ c : Chip, (left c ops).core = left c.core ops := by
  induction ops with
  | nil => exact fun _ => rfl
  | cons op ops ih =>
      intro c
      show (left (op.onMaster c) ops).core = left (op.onMaster c.core) ops
      rw [ih, onMaster_core]

theorem notes_core (c : Chip) (op : Op) : op.notes c.core = op.notes c := by
  unfold Op.notes
  split <;> rfl

theorem future_core (ops : List Op) : ∀ c : Chip, future c.core ops = future c ops := by
  induction ops with
  | nil => exact fun _ => rfl
  | cons op ops ih =>
      intro c
      rw [future, future, notes_core, ← onMaster_core, ih]

/-- As `kernel` sets the master up, with nothing in service. -/
structure Settled (c : Chip) : Prop where
  stage : c.stage = .ready
  base : c.base = 0x20
  masked : ∀ k < 8, c.masked k = decide (2 ≤ k)
  autoEoi : c.autoEoi = false
  quiet : c.Quiet

/-- Requests do not matter. -/
theorem Settled.congr {c c' : Chip} (h : Settled c) (hCore : c'.core = c.core) : Settled c' where
  stage := (congrArg Chip.stage hCore).trans h.stage
  base := (congrArg Chip.base hCore).trans h.base
  masked k hk := (congrFun (congrArg Chip.masked hCore) k).trans (h.masked k hk)
  autoEoi := (congrArg Chip.autoEoi hCore).trans h.autoEoi
  quiet k := (congrFun (congrArg Chip.inService hCore) k).trans (h.quiet k)

/-- The notes of whole interrupts: each is ended once, by its own handler, and
the second end of the keyboard's ends nothing. -/
inductive Rounds : List Note → Prop
  | nil : Rounds []
  | timer {notes : List Note} : Rounds notes → Rounds (notes ++ [.taken 32, .ended (some 0)])
  | key {notes : List Note} (code : Nat) : Rounds notes →
      Rounds (notes ++ .taken 33 :: .ended (some 1) ::
        if read code = 0 then [] else [.ended none])

/-- Code that turns interrupts on when it ends, and not before. -/
def Closed (code : List Op) : Prop :=
  ∃ ops op, code = ops ++ [op] ∧ op.Enables ∧ ∀ o ∈ ops, ¬o.Enables

/-- The processor has stopped. -/
def Halted (s : State) : Prop := s.enabled = false ∧ s.rest = []

/-- The invariant. -/
structure Inv (s : State) : Prop where
  settled : Settled (left s.master s.rest)
  whole : s.enabled = true → s.rest = []
  ends : s.enabled = false → s.rest ≠ [] → Closed s.rest
  rounds : Rounds (s.log ++ future s.master s.rest)
  ticks : (s.ticks + s.rest.count .tick) % 2 ^ 32 = s.log.count (.taken 32) % 2 ^ 32
  range : s.ticks < 2 ^ 32

/-! ## The steps -/

variable {s s' : State}

/-- **The master after `remap_pic`**, whatever it was before. -/
theorem start_inv {master : Chip} (hQuiet : master.Quiet) (slave : Chip) :
    Inv (start master slave) where
  settled :=
    { stage := rfl
      base := rfl
      masked := by
        intro k hk
        show decide (0xFC / 2 ^ k % 2 = 1) = decide (2 ≤ k)
        revert k
        decide
      autoEoi := rfl
      quiet := hQuiet }
  whole h := by cases h
  ends _ _ := ⟨remapPic ++ [.outb 0x21 0xFC], .sti, rfl, trivial, by decide⟩
  rounds := Rounds.nil
  ticks := by
    show (0 + bootCode.count .tick) % 2 ^ 32 = 0
    decide
  range := by
    show 0 < 2 ^ 32
    decide

theorem request_inv (h : Inv s) (line : Nat) : Inv (request line s) := by
  have hSame : (request line s).master.core = s.master.core ∧ (request line s).enabled = s.enabled ∧
      (request line s).rest = s.rest ∧ (request line s).ticks = s.ticks ∧
      (request line s).log = s.log := by
    unfold request
    split
    · exact ⟨rfl, rfl, rfl, rfl, rfl⟩
    · refine ⟨?_, rfl, rfl, rfl, rfl⟩
      simp only
      split <;> rfl
  obtain ⟨hCore, hEnabled, hRest, hTicks, hLog⟩ := hSame
  refine ⟨?_, ?_, ?_, ?_, ?_, ?_⟩
  · rw [hRest]
    exact h.settled.congr (by rw [left_core, left_core, hCore])
  · rw [hEnabled, hRest]
    exact h.whole
  · rw [hEnabled, hRest]
    exact h.ends
  · rw [hLog, hRest, ← future_core, hCore, future_core]
    exact h.rounds
  · rw [hTicks, hRest, hLog]
    exact h.ticks
  · rw [hTicks]
    exact h.range

/-- One operation does what was left to do. -/
theorem run_inv {op : Op} {ops : List Op} (h : Inv s) (hRest : s.rest = op :: ops) :
    Inv (op.run { s with rest := ops }) := by
  have hClosed : s.enabled = false := by
    cases hEnabled : s.enabled with
    | false => rfl
    | true =>
        rw [h.whole hEnabled] at hRest
        cases hRest
  obtain ⟨front, last, hSplit, hLast, hFront⟩ := h.ends hClosed (by simp [hRest])
  rw [hRest] at hSplit
  refine ⟨?_, fun hOn => ?_, fun hOff hSome => ?_, ?_, ?_, ?_⟩
  · have hSettled := h.settled
    rw [hRest] at hSettled
    exact hSettled
  · cases front with
    | nil => exact (List.cons.inj hSplit).2
    | cons o front =>
        obtain ⟨rfl, -⟩ := List.cons.inj hSplit
        have hNot := hFront op (by simp)
        simp [Op.run, hNot, hClosed] at hOn
  · cases front with
    | nil =>
        obtain ⟨rfl, -⟩ := List.cons.inj hSplit
        simp [Op.run, hLast] at hOff
    | cons o front =>
        obtain ⟨rfl, hTail⟩ := List.cons.inj hSplit
        exact ⟨front, last, hTail, hLast, fun o ho => hFront o (List.mem_cons_of_mem op ho)⟩
  · have hRounds := h.rounds
    rw [hRest, future, ← List.append_assoc] at hRounds
    exact hRounds
  · have hTicks := h.ticks
    simp only [hRest, List.count_cons] at hTicks
    have hNotes : (op.notes s.master).count (.taken 32) = 0 := by
      unfold Op.notes
      split <;> rfl
    show ((if op = .tick then (s.ticks + 1) % 2 ^ 32 else s.ticks) + ops.count .tick) % 2 ^ 32 =
      (s.log ++ op.notes s.master).count (.taken 32) % 2 ^ 32
    have hSame : (s.log ++ op.notes s.master).count (.taken 32) = s.log.count (.taken 32) := by
      rw [List.count_append, hNotes, Nat.add_zero]
    rw [hSame, ← hTicks]
    by_cases hTick : op = .tick
    · simp only [hTick, if_true, beq_self_eq_true]
      omega
    · simp only [hTick, if_false, beq_iff_eq, Nat.add_zero]
  · have hRange := h.range
    show (if op = .tick then (s.ticks + 1) % 2 ^ 32 else s.ticks) < 2 ^ 32
    split <;> omega

theorem command_eoi (c : Chip) : c.command 0x20 = c.endOfInterrupt := by
  simp [Chip.command]

/-- The interrupts that get through are those of the timer and of the keyboard. -/
theorem Settled.line {c : Chip} (h : Settled c) {line : Nat} (hOffered : c.offered = some line) :
    line = 0 ∨ line = 1 := by
  obtain ⟨hLine, -, hOpen, -⟩ := c.offered_some hOffered
  rw [h.masked line hLine, decide_eq_false_iff_not] at hOpen
  omega

/-- The end of an interrupt that has just been taken. -/
theorem Settled.ended {c : Chip} (h : Settled c) {line : Nat} (hLine : line < 8) :
    Settled ((c.acknowledge line).command 0x20) ∧
      Op.notes (c.acknowledge line) (.outb 0x20 0x20) = [.ended (some line)] ∧
      ((c.acknowledge line).command 0x20).command 0x20 = (c.acknowledge line).command 0x20 ∧
      Op.notes ((c.acknowledge line).command 0x20) (.outb 0x20 0x20) = [.ended none] := by
  obtain ⟨hUrgent, hEnd⟩ := Chip.endOfInterrupt_acknowledge h.quiet hLine h.autoEoi
  have hSettled : Settled ((c.acknowledge line).command 0x20) := by
    rw [command_eoi, hEnd]
    exact ⟨h.stage, h.base, h.masked, h.autoEoi, h.quiet⟩
  refine ⟨hSettled, ?_, ?_, ?_⟩
  · show [Note.ended (mostUrgent (c.acknowledge line).inService)] = _
    rw [hUrgent]
  · rw [command_eoi, Chip.endOfInterrupt_quiet hSettled.quiet]
  · show [Note.ended (mostUrgent ((c.acknowledge line).command 0x20).inService)] = _
    rw [mostUrgent_none.mpr fun k _ => hSettled.quiet k]

/-- **A handler** leaves the controller as it was before the interrupt. -/
theorem accept_inv (h : Inv s) (hOn : s.enabled = true) {line : Nat}
    (hOffered : s.master.offered = some line) (code : Nat) :
    Inv { s with
      master := s.master.acknowledge line
      enabled := false
      rest := stub (s.master.base + line) code
      log := s.log ++ [.taken (s.master.base + line)] } := by
  have hRest := h.whole hOn
  obtain ⟨hSettled, -, -, hRounds, hTicks, hRange⟩ := h
  rw [hRest] at hSettled hRounds hTicks
  simp only [future, List.append_nil] at hRounds
  replace hSettled : Settled s.master := hSettled
  obtain ⟨hLine, -⟩ := s.master.offered_some hOffered
  obtain ⟨hEnd, hNote, hAgain, hNone⟩ := hSettled.ended hLine
  have hBase := hSettled.base
  rcases hSettled.line hOffered with rfl | rfl
  · have hStub : stub (0x20 + 0) code = irq0 := rfl
    refine ⟨?_, Bool.noConfusion, fun _ _ => ?_, ?_, ?_, hRange⟩
    · simp only [hBase, hStub]
      exact hEnd
    · simp only [hBase, hStub]
      exact ⟨[.tick, .outb 0x20 0x20], .iret, rfl, trivial, by decide⟩
    · have hFuture : future (s.master.acknowledge 0) irq0 = [.ended (some 0)] := by
        show Op.notes (s.master.acknowledge 0) (.outb 0x20 0x20) ++ [] = _
        rw [hNote]
        rfl
      simp only [hBase, hStub, hFuture, List.append_assoc]
      exact hRounds.timer
    · simp only [hBase, hStub, List.count_append]
      have hOne : irq0.count .tick = 1 := rfl
      have hTaken : [Note.taken (0x20 + 0)].count (.taken 32) = 1 := rfl
      rw [hOne, hTaken]
      simp only [List.count_nil, Nat.add_zero] at hTicks
      omega
  · have hStub : stub (0x20 + 1) code = keyboardIsr code := rfl
    have hCode : keyboardIsr code = if read code = 0 then [.outb 0x20 0x20, .iret]
        else [.outb 0x20 0x20, .outb 0x20 0x20, .iret] := by
      unfold keyboardIsr keyboardHandler
      split <;> rfl
    refine ⟨?_, Bool.noConfusion, fun _ _ => ?_, ?_, ?_, hRange⟩
    · simp only [hBase, hStub, hCode]
      split
      · exact hEnd
      · exact hEnd.congr (congrArg Chip.core hAgain)
    · simp only [hBase, hStub]
      exact ⟨keyboardHandler code ++ [.outb 0x20 0x20], .iret, by simp [keyboardIsr], trivial, by
        unfold keyboardHandler
        split <;> decide⟩
    · have hFuture : future (s.master.acknowledge 1) (keyboardIsr code) =
          .ended (some 1) :: if read code = 0 then [] else [.ended none] := by
        rw [hCode]
        split
        · show Op.notes (s.master.acknowledge 1) (.outb 0x20 0x20) ++ [] = _
          rw [hNote]
          rfl
        · show Op.notes (s.master.acknowledge 1) (.outb 0x20 0x20) ++
            (Op.notes ((s.master.acknowledge 1).command 0x20) (.outb 0x20 0x20) ++ []) = _
          rw [hNote, hNone]
          rfl
      simp only [hBase, hStub, hFuture, List.append_assoc]
      exact hRounds.key code
    · simp only [hBase, hStub, List.count_append]
      have hNoTick : (keyboardIsr code).count .tick = 0 := by
        rw [hCode]
        split <;> rfl
      have hTaken : [Note.taken (0x20 + 1)].count (.taken 32) = 0 := rfl
      rw [hNoTick, hTaken]
      exact hTicks

theorem step_inv {e : Event} (h : Inv s) (hStep : step s e = some s') : Inv s' := by
  cases e with
  | request line =>
      obtain rfl := Option.some.inj hStep
      exact request_inv h line
  | accept code =>
      simp only [step] at hStep
      split at hStep
      · next hOn =>
          obtain ⟨line, hOffered, rfl⟩ := Option.map_eq_some_iff.mp hStep
          exact accept_inv h hOn hOffered code
      · cases hStep
  | run =>
      simp only [step] at hStep
      split at hStep
      · cases hStep
      · next op ops hRest =>
          obtain rfl := Option.some.inj hStep
          exact run_inv h hRest
  | block =>
      simp only [step] at hStep
      split at hStep
      · next hOn =>
          obtain rfl := Option.some.inj hStep
          have hRest := h.whole hOn
          obtain ⟨hSettled, -, -, hRounds, hTicks, hRange⟩ := h
          rw [hRest] at hSettled hRounds hTicks
          exact ⟨hSettled, Bool.noConfusion,
            fun _ _ => ⟨[], .iret, rfl, trivial, by decide⟩, hRounds, hTicks, hRange⟩
      · cases hStep
  | halt =>
      simp only [step] at hStep
      split at hStep
      · next hOn =>
          obtain rfl := Option.some.inj hStep
          have hRest := h.whole hOn
          obtain ⟨hSettled, -, -, hRounds, hTicks, hRange⟩ := h
          rw [hRest] at hSettled hRounds hTicks
          exact ⟨hSettled, Bool.noConfusion, fun _ hSome => absurd rfl hSome, hRounds, hTicks,
            hRange⟩
      · cases hStep

/-- Only `cli; hlt` stops the processor. -/
theorem step_halted {e : Event} (h : Inv s) (hGoing : ¬Halted s) (hNot : e ≠ .halt)
    (hStep : step s e = some s') : ¬Halted s' := by
  rintro ⟨hOff, hNil⟩
  cases e with
  | request line =>
      obtain rfl := Option.some.inj hStep
      have hSame : (request line s).enabled = s.enabled ∧ (request line s).rest = s.rest := by
        unfold request
        split <;> exact ⟨rfl, rfl⟩
      exact hGoing ⟨hSame.1 ▸ hOff, hSame.2 ▸ hNil⟩
  | accept code =>
      simp only [step] at hStep
      split at hStep
      · next hOn =>
          obtain ⟨line, hOffered, rfl⟩ := Option.map_eq_some_iff.mp hStep
          have hSettled := h.settled
          rw [h.whole hOn] at hSettled
          replace hSettled : Settled s.master := hSettled
          simp only [hSettled.base] at hNil
          rcases hSettled.line hOffered with rfl | rfl
          · cases hNil
          · exact absurd hNil (by simp [stub, keyboardIsr])
      · cases hStep
  | run =>
      simp only [step] at hStep
      split at hStep
      · cases hStep
      · next op ops hRest =>
          obtain rfl := Option.some.inj hStep
          obtain rfl : ops = [] := hNil
          -- the last operation turns interrupts on
          have hClosed : s.enabled = false := by
            cases hEnabled : s.enabled with
            | false => rfl
            | true =>
                rw [h.whole hEnabled] at hRest
                cases hRest
          obtain ⟨front, last, hSplit, hLast, -⟩ := h.ends hClosed (by simp [hRest])
          rw [hRest] at hSplit
          have hFront : front = [] := by
            have hLength := congrArg List.length hSplit
            simpa using hLength
          subst hFront
          obtain ⟨rfl, -⟩ := List.cons.inj hSplit
          simp [Op.run, hLast] at hOff
  | block =>
      simp only [step] at hStep
      split at hStep
      · obtain rfl := Option.some.inj hStep
        cases hNil
      · cases hStep
  | halt => exact hNot rfl

/-! ## Runs -/

/-- Code that runs with interrupts off comes to its end. -/
theorem runs_to_end {last : Op} (hLast : last.Enables) : ∀ (front : List Op) {s : State},
    s.rest = front ++ [last] →
    ∃ s', exec step s (List.replicate s.rest.length .run) = some s' ∧ s'.enabled = true := by
  intro front
  induction front with
  | nil =>
      intro s hRest
      refine ⟨last.run { s with rest := [] }, ?_, by simp [Op.run, hLast]⟩
      rw [hRest]
      show exec step s [.run] = _
      rw [exec_cons]
      simp only [step, hRest, List.nil_append, Option.bind_some, exec_nil]
  | cons op front ih =>
      intro s hRest
      have hStep : step s .run = some (op.run { s with rest := front ++ [last] }) := by
        simp only [step, hRest, List.cons_append]
      obtain ⟨s', hEnd, hOn⟩ := ih (s := op.run { s with rest := front ++ [last] }) rfl
      refine ⟨s', ?_, hOn⟩
      rw [hRest, List.cons_append, List.length_cons, List.replicate_succ, exec_cons, hStep,
        Option.bind_some]
      exact hEnd

theorem exec_halted {events : List Event} : ∀ {s s' : State}, Inv s → ¬Halted s →
    .halt ∉ events → exec step s events = some s' → ¬Halted s' := by
  induction events with
  | nil =>
      intro s s' _ hGoing _ hRun
      obtain rfl := Option.some.inj hRun
      exact hGoing
  | cons e events ih =>
      intro s s' h hGoing hNot hRun
      obtain ⟨s₁, hStep, hRest⟩ := exec_cons_some hRun
      have hOther : e ≠ .halt := fun he => hNot (he ▸ List.mem_cons_self)
      exact ih (step_inv h hStep) (step_halted h hGoing hOther hStep)
        (fun hMem => hNot (List.mem_cons_of_mem e hMem)) hRest

/-- A controller as a BIOS sets it up. -/
def biosChip : Chip where
  requested _ := false
  inService _ := false
  masked _ := false
  base := 8
  stage := .ready
  single := false
  needsFourth := true
  autoEoi := false

/-- The boot code, a timer interrupt, and a key (`a`) that is pressed during it. -/
def tickThenKey : List Event :=
  List.replicate 12 .run ++ [.request 0, .accept 0x1E, .run, .request 1, .run, .run, .accept 0x1E,
    .run, .run, .run]

end MiniKernel.Ports.InterruptRequests
