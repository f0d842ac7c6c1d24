import Mathlib.Tactic

/-!
# A programmable interval timer

Channel 0 of an 8254 counts cycles of its input clock.  A control word says how
its count will be written, as one byte or as two, and stops it; the count that
follows is the period, and from then on the channel gives a pulse at the end of
every period.  A count that is written while the channel runs is taken over at
the end of the period.

## Main results

* `Channel.Counts.cycles`: how many periods a number of cycles ends, and where in
  the next one it leaves the channel.
* `Channel.control_awaits`, `Channel.Awaits.write_low` and
  `Channel.Awaits.write_high` set up a period of two bytes, from any state.
-/

namespace MiniKernel.Verified.IntervalTimer

/-- How a count is written. -/
inductive Access
  | low
  | high
  | both
  deriving Repr, DecidableEq

structure Channel where
  access : Access
  /-- The low byte, while the high byte is awaited. -/
  held : Option Nat
  period : Nat
  /-- The period that follows. -/
  next : Nat
  /-- The cycles of the current period that have passed, once a count is there. -/
  phase : Option Nat
  deriving Repr, DecidableEq

namespace Channel

/-- A count has been written; zero stands for the greatest. -/
def count (n : Nat) (c : Channel) : Channel :=
  let n := if n = 0 then 2 ^ 16 else n
  match c.phase with
  | none => { c with held := none, period := n, next := n, phase := some 0 }
  | some _ => { c with held := none, next := n }

/-- A write to the control port.  Words for other channels, and commands that
only read, change nothing here. -/
def control (v : Nat) (c : Channel) : Channel :=
  if v / 64 ≠ 0 then c
  else
    match v / 16 % 4 with
    | 0 => c
    | 1 => { c with access := .low, held := none, phase := none }
    | 2 => { c with access := .high, held := none, phase := none }
    | _ => { c with access := .both, held := none, phase := none }

/-- A write to the port of the channel. -/
def write (v : Nat) (c : Channel) : Channel :=
  match c.access with
  | .low => c.count v
  | .high => c.count (256 * v)
  | .both =>
      match c.held with
      | none => { c with held := some v }
      | some low => c.count (low + 256 * v)

/-- One cycle of the input clock, and whether it ends a period. -/
def cycle (c : Channel) : Channel × Bool :=
  match c.phase with
  | none => (c, false)
  | some p =>
      if p + 1 = c.period then ({ c with period := c.next, phase := some 0 }, true)
      else ({ c with phase := some (p + 1) }, false)

/-- The channel runs with the period `d` and has passed `p` cycles of it. -/
structure Counts (d p : Nat) (c : Channel) : Prop where
  period : c.period = d
  next : c.next = d
  phase : c.phase = some p
  inside : p < d

variable {c : Channel} {d p : Nat}

/-- **One cycle.** -/
theorem Counts.cycle (h : c.Counts d p) :
    c.cycle.2 = decide (p + 1 = d) ∧ c.cycle.1.Counts d (if p + 1 = d then 0 else p + 1) := by
  obtain ⟨hPeriod, hNext, hPhase, hInside⟩ := h
  unfold Channel.cycle
  rw [hPhase, hPeriod]
  by_cases hEnd : p + 1 = d
  · simp only [hEnd, if_true, decide_true, true_and]
    exact ⟨hNext, hNext, rfl, by omega⟩
  · simp only [hEnd, if_false, decide_false, true_and]
    exact ⟨rfl, hNext, rfl, by omega⟩

/-- Cycles in a row, and the number of periods that they end. -/
def cycles : Nat → Channel → Channel × Nat
  | 0, c => (c, 0)
  | n + 1, c => ((c.cycles n).1.cycle.1, (c.cycles n).2 + if (c.cycles n).1.cycle.2 then 1 else 0)

/-- **Cycles in a row.** -/
theorem Counts.cycles (h : c.Counts d p) (n : Nat) :
    (c.cycles n).2 = (p + n) / d ∧ (c.cycles n).1.Counts d ((p + n) % d) := by
  induction n with
  | zero =>
      refine ⟨(Nat.div_eq_of_lt h.inside).symm, ?_⟩
      rw [Nat.add_zero, Nat.mod_eq_of_lt h.inside]
      exact h
  | succ n ih =>
      obtain ⟨hEnds, hCounts⟩ := ih
      obtain ⟨hEnd, hNext⟩ := hCounts.cycle
      have hSum := Nat.div_add_mod (p + n) d
      have hInside := hCounts.inside
      have hAdd : p + (n + 1) = p + n + 1 := rfl
      show (c.cycles n).2 + (if (c.cycles n).1.cycle.2 then 1 else 0) = _ ∧
        (c.cycles n).1.cycle.1.Counts d _
      rw [hEnds, hEnd, hAdd]
      by_cases hLast : (p + n) % d + 1 = d
      · have hWhole : p + n + 1 = d * ((p + n) / d + 1) := by
          rw [Nat.mul_add, Nat.mul_one]
          omega
        have hDiv : (p + n + 1) / d = (p + n) / d + 1 := by
          rw [hWhole, Nat.mul_div_cancel_left _ (by omega)]
        have hMod : (p + n + 1) % d = 0 := by
          rw [hWhole, Nat.mul_mod_right]
        rw [if_pos hLast] at hNext
        simp only [hLast, decide_true, if_true, hDiv, hMod]
        exact ⟨trivial, hNext⟩
      · have hPart : p + n + 1 = (p + n) % d + 1 + d * ((p + n) / d) := by omega
        have hDiv : (p + n + 1) / d = (p + n) / d := by
          rw [hPart, Nat.add_mul_div_left _ _ (by omega), Nat.div_eq_of_lt (by omega),
            Nat.zero_add]
        have hMod : (p + n + 1) % d = (p + n) % d + 1 := by
          rw [hPart, Nat.add_mul_mod_self_left, Nat.mod_eq_of_lt (by omega)]
        rw [if_neg hLast] at hNext
        simp only [hLast, decide_false, if_neg Bool.false_ne_true, Nat.add_zero, hDiv, hMod]
        exact ⟨trivial, hNext⟩

/-! ## A period of two bytes -/

/-- The channel stands still until two bytes, or the second of them, are there. -/
structure Awaits (held : Option Nat) (c : Channel) : Prop where
  access : c.access = .both
  held : c.held = held
  phase : c.phase = none

theorem control_awaits (c : Channel) {v : Nat} (hChannel : v / 64 = 0) (hBoth : v / 16 % 4 = 3) :
    (c.control v).Awaits none := by
  unfold control
  rw [if_neg (not_not.mpr hChannel), hBoth]
  exact ⟨rfl, rfl, rfl⟩

theorem Awaits.cycle {held : Option Nat} (h : c.Awaits held) : c.cycle = (c, false) := by
  unfold Channel.cycle
  rw [h.phase]

theorem Awaits.write_low (h : c.Awaits none) (low : Nat) : (c.write low).Awaits (some low) := by
  unfold Channel.write
  rw [h.access, h.held]
  exact ⟨rfl, rfl, h.phase⟩

/-- **The second byte** starts the first period. -/
theorem Awaits.write_high {low : Nat} (h : c.Awaits (some low)) {high : Nat}
    (hCount : low + 256 * high ≠ 0) : (c.write high).Counts (low + 256 * high) 0 := by
  unfold Channel.write
  rw [h.access, h.held]
  simp only [count, if_neg hCount, h.phase]
  exact ⟨rfl, rfl, rfl, Nat.pos_of_ne_zero hCount⟩

end Channel

end MiniKernel.Verified.IntervalTimer
