import MiniKernel.Ports.InterruptRequests
import MiniKernel.Verified.IntervalTimer

/-!
# The tick counter and the timer

`pit_init` sets up channel 0 of the timer, whose pulses raise line 0 of the
interrupt controller, and `irq0_handler` counts the interrupts that come of it.
A pulse that finds the line raised already is lost.  Nothing else in the kernel
writes to the ports of the timer.
-/

namespace MiniKernel.Ports.TimerTicks

open MiniKernel.Verified.InterruptController (Chip)
open MiniKernel.Verified.IntervalTimer
open MiniKernel.Verified.Trace
open MiniKernel.Ports.InterruptRequests (Op Note Inv)

/-- `HZ`. -/
def hz : Nat := 100

/-- `pit_init`, once interrupts are off. -/
def pitInit (divisor : Nat) : List Op :=
  [.outb 0x43 0b00110110, .outb 0x40 (divisor % 256), .outb 0x40 (divisor / 256 % 256), .sti]

def onTimer (c : Channel) : Op → Channel
  | .outb 0x43 v => c.control v
  | .outb 0x40 v => c.write v
  | _ => c

/-- The timer interrupts that the processor has taken. -/
def taken (k : InterruptRequests.State) : Nat := k.log.count (.taken 32)

/-- The timer interrupt that it has yet to take. -/
def asked (k : InterruptRequests.State) : Nat := if k.master.requested 0 then 1 else 0

structure State where
  kernel : InterruptRequests.State
  timer : Channel
  /-- The pulses that found line 0 raised. -/
  lost : Nat

/-- `get_seconds`. -/
def getSeconds (s : State) : Nat := s.kernel.ticks / hz

inductive Event
  /-- Anything but a request of line 0. -/
  | other (e : InterruptRequests.Event)
  /-- A cycle of the timer's clock. -/
  | cycle
  /-- `pit_init` turns interrupts off. -/
  | pitInit (divisor : Nat)
  deriving Repr, DecidableEq

def timerAfter (s : State) : InterruptRequests.Event → Channel
  | .run =>
      match s.kernel.rest with
      | [] => s.timer
      | op :: _ => onTimer s.timer op
  | _ => s.timer

def step (s : State) : Event → Option State
  | .other e =>
      if e = .request 0 then none
      else (InterruptRequests.step s.kernel e).map fun kernel =>
        { s with kernel := kernel, timer := timerAfter s e }
  | .cycle =>
      if s.timer.cycle.2 then
        some
          { kernel := InterruptRequests.request 0 s.kernel
            timer := s.timer.cycle.1
            lost := s.lost + asked s.kernel }
      else some { s with timer := s.timer.cycle.1 }
  | .pitInit divisor =>
      if s.kernel.enabled then
        some { s with kernel := { s.kernel with enabled := false, rest := pitInit divisor } }
      else none

/-- At `remap_pic`. -/
def start (master slave : Chip) (timer : Channel) : State where
  kernel := InterruptRequests.start master slave
  timer := timer
  lost := 0

/-- Every pulse so far, wherever it has got to. -/
def pulses (s : State) : Nat := taken s.kernel + asked s.kernel + s.lost

variable {s s' : State} {divisor : Nat}

/-! ## The controller -/

theorem pitInit_inv {k : InterruptRequests.State} (h : Inv k) (hOn : k.enabled = true) :
    Inv { k with enabled := false, rest := pitInit divisor } := by
  have hRest := h.whole hOn
  obtain ⟨hSettled, -, -, hRounds, hTicks, hRange⟩ := h
  rw [hRest] at hSettled hRounds hTicks
  exact ⟨hSettled, Bool.noConfusion, fun _ _ => ⟨(pitInit divisor).take 3, .sti, rfl, trivial, by
    simp [pitInit, Op.Enables]⟩, hRounds, hTicks, hRange⟩

theorem step_inv {e : Event} (h : Inv s.kernel) (hStep : step s e = some s') : Inv s'.kernel := by
  cases e with
  | other e =>
      simp only [step] at hStep
      split at hStep
      · cases hStep
      · obtain ⟨kernel, hKernel, rfl⟩ := Option.map_eq_some_iff.mp hStep
        exact InterruptRequests.step_inv h hKernel
  | cycle =>
      simp only [step] at hStep
      split at hStep
      · obtain rfl := Option.some.inj hStep
        exact InterruptRequests.request_inv h 0
      · obtain rfl := Option.some.inj hStep
        exact h
  | pitInit divisor =>
      simp only [step] at hStep
      split at hStep
      · next hOn =>
          obtain rfl := Option.some.inj hStep
          exact pitInit_inv h hOn
      · cases hStep

/-- Neither the timer nor the master is set up by the operation. -/
def Plain : Op → Prop
  | .outb port v => port ≠ 0x43 ∧ port ≠ 0x40 ∧ (port = 0x20 → v = 0x20)
  | _ => True

theorem Plain.onTimer {op : Op} (h : Plain op) (c : Channel) : onTimer c op = c := by
  unfold TimerTicks.onTimer
  split
  · exact absurd rfl h.1
  · exact absurd rfl h.2.1
  · rfl

theorem data_requested (c : Chip) (v : Nat) : (c.data v).requested = c.requested := by
  unfold Chip.data
  cases c.stage with
  | ready => rfl
  | icw2 => rfl
  | icw3 => rfl
  | icw4 => rfl

theorem endOfInterrupt_requested (c : Chip) : c.endOfInterrupt.requested = c.requested := by
  unfold Chip.endOfInterrupt
  split <;> rfl

theorem Plain.requested {op : Op} (h : Plain op) (c : Chip) :
    (op.onMaster c).requested = c.requested := by
  unfold Op.onMaster
  split
  · next v =>
      obtain rfl : v = 0x20 := h.2.2 rfl
      rw [InterruptRequests.command_eoi, endOfInterrupt_requested]
  · exact data_requested c _
  · rfl

/-- Handlers are plain. -/
theorem stub_plain (vector code : Nat) : ∀ op ∈ InterruptRequests.stub vector code, Plain op := by
  unfold InterruptRequests.stub InterruptRequests.keyboardIsr InterruptRequests.keyboardHandler
  intro op hOp
  split at hOp
  · simp only [InterruptRequests.irq0, List.mem_cons, List.not_mem_nil, or_false] at hOp
    rcases hOp with rfl | rfl | rfl <;> simp [Plain]
  · split at hOp
    · split at hOp <;> simp only [List.nil_append, List.cons_append, List.mem_cons,
        List.not_mem_nil, or_false] at hOp
      · rcases hOp with rfl | rfl <;> simp [Plain]
      · rcases hOp with rfl | rfl | rfl <;> simp [Plain]
    · cases hOp

theorem request_pulse (k : InterruptRequests.State) :
    taken (InterruptRequests.request 0 k) = taken k ∧ asked (InterruptRequests.request 0 k) = 1 :=
  ⟨rfl, rfl⟩

theorem request_other {line : Nat} (hLine : line ≠ 0) (k : InterruptRequests.State) :
    taken (InterruptRequests.request line k) = taken k ∧
      asked (InterruptRequests.request line k) = asked k := by
  unfold asked InterruptRequests.request
  split
  · refine ⟨rfl, ?_⟩
    show (if Function.update k.master.requested line true 0 then 1 else 0) = _
    rw [Function.update_of_ne hLine.symm]
  · refine ⟨rfl, ?_⟩
    simp only
    split
    · rfl
    · show (if Function.update k.master.requested 2 true 0 then 1 else 0) = _
      rw [Function.update_of_ne (by decide)]

/-- **A request is never dropped by the kernel**: it waits until it is taken. -/
theorem kernel_step {k k' : InterruptRequests.State} {e : InterruptRequests.Event} (h : Inv k)
    (hPlain : ∀ op ∈ k.rest, Plain op) (hOther : e ≠ .request 0)
    (hStep : InterruptRequests.step k e = some k') :
    taken k' + asked k' = taken k + asked k ∧ ∀ op ∈ k'.rest, Plain op := by
  cases e with
  | request line =>
      obtain rfl := Option.some.inj hStep
      obtain ⟨hTaken, hAsked⟩ := request_other (fun hLine : line = 0 => hOther (by rw [hLine])) k
      have hRest : (InterruptRequests.request line k).rest = k.rest := by
        unfold InterruptRequests.request
        split <;> rfl
      rw [hTaken, hAsked, hRest]
      exact ⟨rfl, hPlain⟩
  | accept code =>
      simp only [InterruptRequests.step] at hStep
      split at hStep
      · next hOn =>
          obtain ⟨line, hOffered, rfl⟩ := Option.map_eq_some_iff.mp hStep
          have hSettled := h.settled
          rw [h.whole hOn] at hSettled
          replace hSettled : InterruptRequests.Settled k.master := hSettled
          obtain ⟨-, hRequested, -, -⟩ := k.master.offered_some hOffered
          refine ⟨?_, stub_plain _ _⟩
          show (k.log ++ [Note.taken (k.master.base + line)]).count (Note.taken 32) +
            (if Function.update k.master.requested line false 0 then 1 else 0) = taken k + asked k
          rw [List.count_append, hSettled.base]
          rcases hSettled.line hOffered with rfl | rfl
          · rw [Function.update_self, taken, asked, if_pos hRequested]
            rfl
          · rw [Function.update_of_ne (by decide)]
            rfl
      · cases hStep
  | run =>
      simp only [InterruptRequests.step] at hStep
      split at hStep
      · cases hStep
      · next op ops hRest =>
          obtain rfl := Option.some.inj hStep
          rw [hRest] at hPlain
          have hNotes : (op.notes k.master).count (.taken 32) = 0 := by
            unfold Op.notes
            split <;> rfl
          refine ⟨?_, fun o ho => hPlain o (List.mem_cons_of_mem op ho)⟩
          show (k.log ++ op.notes k.master).count (.taken 32) +
            (if (op.onMaster k.master).requested 0 then 1 else 0) = taken k + asked k
          rw [(hPlain op List.mem_cons_self).requested, List.count_append, hNotes]
          rfl
  | block =>
      simp only [InterruptRequests.step] at hStep
      split at hStep
      · obtain rfl := Option.some.inj hStep
        exact ⟨rfl, by simp [Plain]⟩
      · cases hStep
  | halt =>
      simp only [InterruptRequests.step] at hStep
      split at hStep
      · obtain rfl := Option.some.inj hStep
        exact ⟨rfl, by simp⟩
      · cases hStep

/-! ## Setting up the timer -/

/-- The channel after so many of the writes. -/
def Awaiting (divisor : Nat) : Nat → Channel → Prop
  | 0, _ => True
  | 1, c => c.Awaits none
  | _, c => c.Awaits (some (divisor % 256))

theorem Awaiting.cycle {writes : Nat} {c : Channel} (h : Awaiting divisor writes c) :
    Awaiting divisor writes c.cycle.1 := by
  match writes, h with
  | 0, _ => trivial
  | 1, h =>
      replace h : c.Awaits none := h
      rw [h.cycle]
      exact h
  | _ + 2, h =>
      replace h : c.Awaits (some (divisor % 256)) := h
      rw [h.cycle]
      exact h

/-- `pit_init` has made so many of its writes. -/
structure SettingUp (divisor writes : Nat) (s : State) : Prop where
  enabled : s.kernel.enabled = false
  rest : s.kernel.rest = (pitInit divisor).drop writes
  timer : Awaiting divisor writes s.timer

/-- Requests and cycles do not matter meanwhile. -/
theorem SettingUp.wait {writes : Nat} {e : Event} (h : SettingUp divisor writes s)
    (hOther : e ≠ .other .run) (hStep : step s e = some s') : SettingUp divisor writes s' := by
  obtain ⟨hOff, hRest, hTimer⟩ := h
  have hNone : InterruptRequests.step s.kernel .block = none ∧
      InterruptRequests.step s.kernel .halt = none ∧
      ∀ code, InterruptRequests.step s.kernel (.accept code) = none := by
    simp [InterruptRequests.step, hOff]
  cases e with
  | other e =>
      simp only [step] at hStep
      split at hStep
      · cases hStep
      · obtain ⟨kernel, hKernel, rfl⟩ := Option.map_eq_some_iff.mp hStep
        cases e with
        | request line =>
            obtain rfl := Option.some.inj hKernel
            have hSame : (InterruptRequests.request line s.kernel).enabled = s.kernel.enabled ∧
                (InterruptRequests.request line s.kernel).rest = s.kernel.rest := by
              unfold InterruptRequests.request
              split <;> exact ⟨rfl, rfl⟩
            exact ⟨hSame.1.trans hOff, hSame.2.trans hRest, hTimer⟩
        | accept code =>
            rw [hNone.2.2 code] at hKernel
            cases hKernel
        | run => exact absurd rfl hOther
        | block =>
            rw [hNone.1] at hKernel
            cases hKernel
        | halt =>
            rw [hNone.2.1] at hKernel
            cases hKernel
  | cycle =>
      have hSame : s'.kernel.enabled = s.kernel.enabled ∧ s'.kernel.rest = s.kernel.rest ∧
          s'.timer = s.timer.cycle.1 := by
        simp only [step] at hStep
        split at hStep <;> obtain rfl := Option.some.inj hStep <;> exact ⟨rfl, rfl, rfl⟩
      obtain ⟨hEnabled, hLeft, hCycle⟩ := hSame
      refine ⟨hEnabled.trans hOff, hLeft.trans hRest, ?_⟩
      rw [hCycle]
      exact hTimer.cycle
  | pitInit divisor =>
      rw [step, hOff] at hStep
      cases hStep

/-- The control word and the low byte. -/
theorem SettingUp.write {writes : Nat} (h : SettingUp divisor writes s) (hWrites : writes < 2)
    (hStep : step s (.other .run) = some s') : SettingUp divisor (writes + 1) s' := by
  obtain ⟨hOff, hRest, hTimer⟩ := h
  obtain ⟨kernel, hKernel, rfl⟩ := Option.map_eq_some_iff.mp hStep
  match writes, hRest, hTimer, hWrites with
  | 0, hRest, _, _ =>
      replace hRest : s.kernel.rest = .outb 0x43 0x36 :: (pitInit divisor).drop 1 := hRest
      simp only [InterruptRequests.step, hRest] at hKernel
      obtain rfl := Option.some.inj hKernel
      refine ⟨hOff, rfl, ?_⟩
      simp only [timerAfter, hRest]
      exact s.timer.control_awaits (by decide) (by decide)
  | 1, hRest, hAwaits, _ =>
      replace hRest : s.kernel.rest =
          .outb 0x40 (divisor % 256) :: (pitInit divisor).drop 2 := hRest
      simp only [InterruptRequests.step, hRest] at hKernel
      obtain rfl := Option.some.inj hKernel
      refine ⟨hOff, rfl, ?_⟩
      simp only [timerAfter, hRest]
      exact hAwaits.write_low _

theorem SettingUp.exec {events : List Event} : ∀ {writes : Nat} {s : State},
    SettingUp divisor writes s → writes + events.count (.other .run) ≤ 2 →
    exec step s events = some s' →
    SettingUp divisor (writes + events.count (.other .run)) s' := by
  induction events with
  | nil =>
      intro writes s h _ hRun
      obtain rfl := Option.some.inj hRun
      exact h
  | cons e events ih =>
      intro writes s h hFew hRun
      obtain ⟨s₁, hStep, hRest⟩ := exec_cons_some hRun
      rw [List.count_cons] at hFew ⊢
      by_cases hWrite : e = .other .run
      · subst hWrite
        rw [beq_self_eq_true, if_pos rfl] at hFew ⊢
        have hNext := ih (h.write (by omega) hStep) (by omega) hRest
        rwa [Nat.add_assoc, Nat.add_comm 1] at hNext
      · rw [beq_false_of_ne hWrite, if_neg Bool.false_ne_true, Nat.add_zero] at hFew ⊢
        exact ih (h.wait hWrite hStep) hFew hRest

/-- **The high byte** starts the timer. -/
theorem SettingUp.last (h : SettingUp divisor 2 s) (hPositive : 0 < divisor)
    (hRange : divisor < 2 ^ 16) (hStep : step s (.other .run) = some s') :
    s'.timer.Counts divisor 0 ∧ ∀ op ∈ s'.kernel.rest, Plain op := by
  obtain ⟨-, hRest, hAwaits⟩ := h
  obtain ⟨kernel, hKernel, rfl⟩ := Option.map_eq_some_iff.mp hStep
  replace hRest : s.kernel.rest = [.outb 0x40 (divisor / 256 % 256), .sti] := hRest
  simp only [InterruptRequests.step, hRest] at hKernel
  obtain rfl := Option.some.inj hKernel
  have hBytes : divisor % 256 + 256 * (divisor / 256 % 256) = divisor := by omega
  refine ⟨?_, by simp [Op.run, Plain]⟩
  have hCounts := hAwaits.write_high
    (show divisor % 256 + 256 * (divisor / 256 % 256) ≠ 0 by omega)
  rw [hBytes] at hCounts
  simp only [timerAfter, hRest]
  exact hCounts

/-- **`pit_init`**, whatever requests and cycles come between its writes. -/
theorem pitInit_starts {setup : List Event} (h : Inv s.kernel) (hPositive : 0 < divisor)
    (hRange : divisor < 2 ^ 16) (hSetup : setup.count (.other .run) = 2)
    (hRun : exec step s (.pitInit divisor :: setup ++ [.other .run]) = some s') :
    Inv s'.kernel ∧ s'.timer.Counts divisor 0 ∧ ∀ op ∈ s'.kernel.rest, Plain op := by
  refine ⟨exec_invariant (fun _ _ _ h hStep => step_inv h hStep) h hRun, ?_⟩
  rw [List.cons_append] at hRun
  obtain ⟨sOff, hOff, hRest⟩ := exec_cons_some hRun
  simp only [step] at hOff
  split at hOff
  · obtain rfl := Option.some.inj hOff
    rw [exec_append] at hRest
    obtain ⟨sLast, hWrites, hLast⟩ := Option.bind_eq_some_iff.mp hRest
    obtain ⟨sEnd, hHigh, hEnd⟩ := exec_cons_some hLast
    obtain rfl := Option.some.inj hEnd
    have hFirst : SettingUp divisor 0
        { s with kernel := { s.kernel with enabled := false, rest := pitInit divisor } } :=
      ⟨rfl, rfl, trivial⟩
    have hSecond := hFirst.exec (by omega) hWrites
    rw [hSetup] at hSecond
    exact hSecond.last hPositive hRange hHigh
  · cases hOff

/-! ## The timer runs -/

/-- So many cycles after the timer was in state `c`, with `base` pulses before. -/
structure Steady (c : Channel) (base n : Nat) (s : State) : Prop where
  inv : Inv s.kernel
  plain : ∀ op ∈ s.kernel.rest, Plain op
  timer : s.timer = (c.cycles n).1
  pulses : pulses s = base + (c.cycles n).2

theorem Steady.step {c : Channel} {base n : Nat} {e : Event} (h : Steady c base n s)
    (hNoInit : ∀ d, e ≠ .pitInit d) (hStep : step s e = some s') :
    Steady c base (n + if e = .cycle then 1 else 0) s' := by
  obtain ⟨hInv, hPlain, hTimer, hPulses⟩ := h
  have hInv' := step_inv hInv hStep
  cases e with
  | other e =>
      simp only [TimerTicks.step] at hStep
      split at hStep
      · cases hStep
      · next hOther =>
          obtain ⟨kernel, hKernel, rfl⟩ := Option.map_eq_some_iff.mp hStep
          obtain ⟨hSum, hLeft⟩ := kernel_step hInv hPlain hOther hKernel
          have hSame : timerAfter s e = s.timer := by
            unfold timerAfter
            split
            · split
              · rfl
              · next op ops hRest => exact (hPlain op (hRest ▸ List.mem_cons_self)).onTimer _
            · rfl
          refine ⟨hInv', hLeft, hSame.trans hTimer, ?_⟩
          show taken kernel + asked kernel + s.lost = _
          rw [hSum]
          exact hPulses
  | cycle =>
      simp only [TimerTicks.step] at hStep
      rw [if_pos rfl]
      split at hStep
      · next hPulse =>
          obtain rfl := Option.some.inj hStep
          rw [hTimer] at hPulse
          obtain ⟨hTaken, hAsked⟩ := request_pulse s.kernel
          refine ⟨hInv', hPlain, congrArg (fun c => c.cycle.1) hTimer, ?_⟩
          show taken (InterruptRequests.request 0 s.kernel) +
            asked (InterruptRequests.request 0 s.kernel) + (s.lost + asked s.kernel) =
            base + ((c.cycles n).2 + if (c.cycles n).1.cycle.2 then 1 else 0)
          rw [TimerTicks.pulses] at hPulses
          rw [hTaken, hAsked, if_pos hPulse]
          omega
      · next hQuiet =>
          obtain rfl := Option.some.inj hStep
          rw [hTimer] at hQuiet
          refine ⟨hInv', hPlain, congrArg (fun c => c.cycle.1) hTimer, ?_⟩
          show TimerTicks.pulses s =
            base + ((c.cycles n).2 + if (c.cycles n).1.cycle.2 then 1 else 0)
          rw [if_neg hQuiet, hPulses, Nat.add_zero]
  | pitInit d => exact absurd rfl (hNoInit d)

theorem Steady.exec {c : Channel} {base : Nat} {events : List Event} : ∀ {n : Nat} {s : State},
    Steady c base n s → (∀ d, .pitInit d ∉ events) → exec TimerTicks.step s events = some s' →
    Steady c base (n + events.count .cycle) s' := by
  induction events with
  | nil =>
      intro n s h _ hRun
      obtain rfl := Option.some.inj hRun
      exact h
  | cons e events ih =>
      intro n s h hNoInit hRun
      obtain ⟨s₁, hStep, hRest⟩ := exec_cons_some hRun
      have hFirst : ∀ d, e ≠ .pitInit d := fun d he => hNoInit d (he ▸ List.mem_cons_self)
      have hNext := ih (h.step hFirst hStep)
        (fun d hMem => hNoInit d (List.mem_cons_of_mem e hMem)) hRest
      rw [List.count_cons]
      simp only [beq_iff_eq]
      rwa [Nat.add_assoc, Nat.add_comm (if e = .cycle then 1 else 0)] at hNext

/-- **`ticks` keeps time.**  From the last write of `pit_init` on, in every run of
devices, handlers, system calls and the timer's clock, each period of `divisor`
cycles accounts for one pulse: it has been counted in `ticks`, is still asked
for, or found line 0 raised.  So `get_seconds` never runs ahead of the timer,
and falls behind it by no more than the pulses that were lost and one that waits. -/
theorem ticks_keep_time {master slave : Chip} (hQuiet : master.Quiet) {timer : Channel}
    {before setup after : List Event} {s₀ s₁ : State} (hPositive : 0 < divisor)
    (hRange : divisor < 2 ^ 16) (hBefore : exec step (start master slave timer) before = some s₀)
    (hInit : exec step s₀ (.pitInit divisor :: setup ++ [.other .run]) = some s₁)
    (hSetup : setup.count (.other .run) = 2)
    (hNoInit : ∀ d, .pitInit d ∉ after) (hAfter : exec step s₁ after = some s) :
    pulses s = pulses s₁ + after.count .cycle / divisor ∧
      (s.kernel.enabled = true → s.kernel.ticks = taken s.kernel % 2 ^ 32 ∧
        (pulses s < 2 ^ 32 → getSeconds s ≤ pulses s / hz ∧
          pulses s ≤ s.kernel.ticks + 1 + s.lost)) := by
  have hInv : Inv s₀.kernel := by
    have hKeep : ∀ s e s', Inv (State.kernel s) → step s e = some s' → Inv s'.kernel :=
      fun _ _ _ h hStep => step_inv h hStep
    exact exec_invariant hKeep (InterruptRequests.start_inv hQuiet slave) hBefore
  obtain ⟨hInv₁, hCounts, hPlain⟩ := pitInit_starts hInv hPositive hRange hSetup hInit
  have hStart : Steady s₁.timer (pulses s₁) 0 s₁ := ⟨hInv₁, hPlain, rfl, rfl⟩
  obtain ⟨hEnd, -, -, hPulses⟩ := hStart.exec hNoInit hAfter
  rw [Nat.zero_add, (hCounts.cycles _).1, Nat.zero_add] at hPulses
  refine ⟨hPulses, fun hOn => ?_⟩
  have hTicks := hEnd.ticks
  rw [hEnd.whole hOn, List.count_nil, Nat.add_zero, Nat.mod_eq_of_lt hEnd.range] at hTicks
  replace hTicks : s.kernel.ticks = taken s.kernel % 2 ^ 32 := hTicks
  refine ⟨hTicks, fun hSmall => ?_⟩
  have hAsked : asked s.kernel ≤ 1 := by
    unfold asked
    split <;> decide
  have hTaken : s.kernel.ticks = taken s.kernel := by
    rw [hTicks]
    refine Nat.mod_eq_of_lt (lt_of_le_of_lt ?_ hSmall)
    unfold pulses
    omega
  rw [getSeconds, hTaken]
  unfold pulses
  exact ⟨Nat.div_le_div_right (by omega), by omega⟩

/-- A timer as a BIOS leaves it. -/
def biosTimer : Channel where
  access := .both
  held := none
  period := 2 ^ 16
  next := 2 ^ 16
  phase := some 0

/-- Up to `sti`. -/
def booted : List Event := List.replicate 12 (.other .run)

/-- `pit_init(2)`, up to its last write. -/
def fastTimer : List Event := [.pitInit 2, .other .run, .cycle, .other .run, .other .run]

/-- Two periods, the first of which is counted. -/
def twoPeriods : List Event :=
  [.other .run, .cycle, .cycle, .other (.accept 0), .cycle, .other .run, .other .run, .other .run,
    .cycle]

theorem ticks_keep_time_twoPeriods :
    ∃ s₁ s, exec step (start InterruptRequests.biosChip InterruptRequests.biosChip biosTimer)
        (booted ++ fastTimer) = some s₁ ∧ exec step s₁ twoPeriods = some s ∧
      pulses s = pulses s₁ + 2 ∧ s.kernel.ticks = taken s.kernel % 2 ^ 32 := by
  have hBooted : (exec step (start InterruptRequests.biosChip InterruptRequests.biosChip biosTimer)
      booted).isSome = true := rfl
  obtain ⟨s₀, hBefore⟩ := Option.isSome_iff_exists.mp hBooted
  have hFast : ((exec step (start InterruptRequests.biosChip InterruptRequests.biosChip biosTimer)
      booted).bind fun s => exec step s fastTimer).isSome = true := rfl
  rw [hBefore, Option.bind_some] at hFast
  obtain ⟨s₁, hInit⟩ := Option.isSome_iff_exists.mp hFast
  have hTwo : (((exec step (start InterruptRequests.biosChip InterruptRequests.biosChip biosTimer)
      booted).bind fun s => exec step s fastTimer).bind fun s =>
        exec step s twoPeriods).map (fun s => s.kernel.enabled) = some true := rfl
  rw [hBefore, Option.bind_some, hInit, Option.bind_some] at hTwo
  obtain ⟨s, hAfter, hOn⟩ := Option.map_eq_some_iff.mp hTwo
  obtain ⟨hPulses, hTicks⟩ := ticks_keep_time
    (show InterruptRequests.biosChip.Quiet from fun _ => rfl)
    (show 0 < 2 by decide) (show 2 < 2 ^ 16 by decide) hBefore
    (show exec step s₀ (.pitInit 2 :: [.other .run, .cycle, .other .run] ++ [.other .run]) = some s₁
      from hInit) rfl (by simp [twoPeriods]) hAfter
  refine ⟨s₁, s, ?_, hAfter, hPulses, (hTicks hOn).1⟩
  rw [exec_append, hBefore, Option.bind_some, hInit]

end MiniKernel.Ports.TimerTicks
