import Mathlib.Tactic

/-!
# A programmable interrupt controller

An 8259A has eight request lines, line 0 the most urgent.  It offers the
processor the most urgent request that is not masked, unless a line as urgent
is in service; acknowledging it puts the line in service until an end of
interrupt.  Written to at its two ports it is set up by a sequence of command
words, of which only what fixed-priority, edge-triggered operation needs is
kept here.

## Main results

* `Chip.offered_of_quiet`: with nothing in service a request that is not masked
  is never held back.
* `Chip.endOfInterrupt_acknowledge`: one end of interrupt undoes one
  acknowledgement, and with nothing in service it does nothing
  (`Chip.endOfInterrupt_quiet`).
-/

namespace MiniKernel.Verified.InterruptController

/-- The word that a write to the data port is taken for. -/
inductive Stage
  | ready
  | icw2
  | icw3
  | icw4
  deriving Repr, DecidableEq

structure Chip where
  requested : Nat → Bool
  inService : Nat → Bool
  masked : Nat → Bool
  base : Nat
  stage : Stage
  single : Bool
  needsFourth : Bool
  autoEoi : Bool

/-- The most urgent of the lines with a property. -/
def mostUrgent (p : Nat → Bool) : Option Nat := (List.range 8).find? p

theorem mostUrgent_some {p : Nat → Bool} {k : Nat} (h : mostUrgent p = some k) :
    k < 8 ∧ p k = true ∧ ∀ j < k, p j = false := by
  obtain ⟨hLine, before, after, hSplit, hBefore⟩ := List.find?_eq_some_iff_append.mp h
  have hMem : k ∈ List.range 8 := hSplit ▸ by simp
  refine ⟨List.mem_range.mp hMem, hLine, fun j hj => ?_⟩
  have hSorted : (List.range 8).Pairwise (· < ·) := List.pairwise_lt_range
  rw [hSplit, List.pairwise_append] at hSorted
  have hIn : j ∈ before ++ k :: after := by
    rw [← hSplit, List.mem_range]
    exact Nat.lt_trans hj (List.mem_range.mp hMem)
  rcases List.mem_append.mp hIn with hFront | hBack
  · simpa using hBefore j hFront
  · rcases List.mem_cons.mp hBack with rfl | hAfter
    · exact absurd hj (Nat.lt_irrefl _)
    · have hLater := (List.pairwise_cons.mp hSorted.2.1).1 j hAfter
      omega

theorem mostUrgent_none {p : Nat → Bool} : mostUrgent p = none ↔ ∀ k < 8, p k = false := by
  simp [mostUrgent, List.find?_eq_none]

namespace Chip

/-- A device asks for an interrupt. -/
def raise (line : Nat) (c : Chip) : Chip :=
  { c with requested := Function.update c.requested line true }

/-- The line that is offered to the processor. -/
def offered (c : Chip) : Option Nat :=
  (mostUrgent fun k => c.requested k && !c.masked k).bind fun line =>
    if (List.range (line + 1)).any c.inService then none else some line

/-- The processor takes the line. -/
def acknowledge (line : Nat) (c : Chip) : Chip :=
  { c with
    requested := Function.update c.requested line false
    inService := if c.autoEoi then c.inService else Function.update c.inService line true }

/-- An end of interrupt that names no line. -/
def endOfInterrupt (c : Chip) : Chip :=
  match mostUrgent c.inService with
  | none => c
  | some line => { c with inService := Function.update c.inService line false }

/-- A write to the command port: the first initialisation word, or an end of interrupt. -/
def command (v : Nat) (c : Chip) : Chip :=
  if v / 16 % 2 = 1 then
    { c with
      requested := fun _ => false
      masked := fun _ => false
      stage := .icw2
      single := decide (v / 2 % 2 = 1)
      needsFourth := decide (v % 2 = 1) }
  else if v / 8 % 2 = 0 ∧ v / 32 = 1 then c.endOfInterrupt
  else c

/-- A write to the data port. -/
def data (v : Nat) (c : Chip) : Chip :=
  match c.stage with
  | .icw2 =>
      { c with
        base := v / 8 * 8
        stage := if !c.single then .icw3 else if c.needsFourth then .icw4 else .ready }
  | .icw3 => { c with stage := if c.needsFourth then .icw4 else .ready }
  | .icw4 => { c with autoEoi := decide (v / 2 % 2 = 1), stage := .ready }
  | .ready => { c with masked := fun k => decide (v / 2 ^ k % 2 = 1) }

/-- Nothing is in service. -/
def Quiet (c : Chip) : Prop := ∀ k, c.inService k = false

/-- What requests do not change. -/
def core (c : Chip) : Chip := { c with requested := fun _ => false }

variable {c : Chip} {line : Nat}

theorem offered_some (h : c.offered = some line) :
    line < 8 ∧ c.requested line = true ∧ c.masked line = false ∧
      ∀ k ≤ line, c.inService k = false := by
  obtain ⟨l, hUrgent, hFree⟩ := Option.bind_eq_some_iff.mp h
  obtain ⟨hLine, hBoth, -⟩ := mostUrgent_some hUrgent
  split at hFree
  · cases hFree
  · next hNone =>
      cases hFree
      simp only [Bool.and_eq_true, Bool.not_eq_true'] at hBoth
      refine ⟨hLine, hBoth.1, hBoth.2, fun k hk => ?_⟩
      simp only [List.any_eq_true, List.mem_range, not_exists, not_and, Bool.not_eq_true] at hNone
      exact hNone k (by omega)

/-- **Nothing is held back** when nothing is in service. -/
theorem offered_of_quiet (h : c.Quiet) (hLine : line < 8) (hRequested : c.requested line = true)
    (hOpen : c.masked line = false) : ∃ l, c.offered = some l := by
  cases hUrgent : mostUrgent fun k => c.requested k && !c.masked k with
  | none =>
      have hNone := mostUrgent_none.mp hUrgent line hLine
      simp [hRequested, hOpen] at hNone
  | some l =>
      have hFree : ((List.range (l + 1)).any c.inService) = false := by simp [h _]
      exact ⟨l, by rw [offered, hUrgent, Option.bind_some, hFree]; rfl⟩

theorem endOfInterrupt_quiet (h : c.Quiet) : c.endOfInterrupt = c := by
  have hNone : mostUrgent c.inService = none := mostUrgent_none.mpr fun k _ => h k
  unfold endOfInterrupt
  rw [hNone]

/-- **One end of interrupt for one acknowledgement.** -/
theorem endOfInterrupt_acknowledge (h : c.Quiet) (hLine : line < 8) (hManual : c.autoEoi = false) :
    mostUrgent (c.acknowledge line).inService = some line ∧
      (c.acknowledge line).endOfInterrupt =
        { c.acknowledge line with inService := c.inService } := by
  have hOnly : (c.acknowledge line).inService = Function.update c.inService line true := by
    simp [acknowledge, hManual]
  have hUrgent : mostUrgent (c.acknowledge line).inService = some line := by
    cases hFind : mostUrgent (c.acknowledge line).inService with
    | none =>
        have hNone := mostUrgent_none.mp hFind line hLine
        rw [hOnly, Function.update_self] at hNone
        cases hNone
    | some l =>
        have hFound := (mostUrgent_some hFind).2.1
        by_cases hSame : l = line
        · rw [hSame]
        · rw [hOnly, Function.update_of_ne hSame, h l] at hFound
          cases hFound
  refine ⟨hUrgent, ?_⟩
  unfold endOfInterrupt
  rw [hUrgent]
  simp only
  rw [hOnly, Function.update_idem, Function.update_eq_self_iff.mpr (h line).symm]

@[simp] theorem raise_core (line : Nat) (c : Chip) : (c.raise line).core = c.core := rfl

@[simp] theorem core_inService (c : Chip) : c.core.inService = c.inService := rfl

theorem command_core (v : Nat) (c : Chip) : (c.command v).core = c.core.command v := by
  unfold command
  split
  · rfl
  · split
    · unfold endOfInterrupt
      rw [core_inService]
      cases mostUrgent c.inService with
      | none => rfl
      | some l => rfl
    · rfl

theorem data_core (v : Nat) (c : Chip) : (c.data v).core = c.core.data v := by
  obtain ⟨requested, inService, masked, base, stage, single, needsFourth, autoEoi⟩ := c
  cases stage with
  | ready => rfl
  | icw2 => rfl
  | icw3 => rfl
  | icw4 => rfl

end Chip

end MiniKernel.Verified.InterruptController
