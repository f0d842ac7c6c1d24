import Mathlib.Tactic

/-!
# The depth of a stack

A stack whose contents do not matter, only how many there are.  A move pushes, takes,
or leaves the stack alone; taking from the empty stack leaves it empty.  So the depth
is no difference of two counts, and a run with as many takes as pushes may still be
deep: what matters is when they come.

`within_iff_balanced` says it by the moves alone: the depth stays within `n` exactly
when no stretch of the run pushes more than `n` above what it takes.
-/

namespace MiniKernel.Verified.StackDepth

inductive Move
  | push
  | take
  | idle
  deriving Repr, DecidableEq

/-- The depth after a move. -/
def Move.apply (d : Nat) : Move → Nat
  | .push => d + 1
  | .take => d - 1
  | .idle => d

/-- The depth after a run, from depth `d`. -/
def depth (d : Nat) (moves : List Move) : Nat := moves.foldl Move.apply d

/-- The depth is at most `n`, before the run and after each of its moves. -/
def Within (n : Nat) : Nat → List Move → Prop
  | d, [] => d ≤ n
  | d, m :: ms => d ≤ n ∧ Within n (m.apply d) ms

/-- No stretch of the run pushes more than `n` above what it takes. -/
def Balanced (n : Nat) (moves : List Move) : Prop :=
  ∀ before stretch after, moves = before ++ stretch ++ after →
    stretch.count .push ≤ stretch.count .take + n

variable {n d : Nat} {moves : List Move}

/-- Only a push makes the stack deeper. -/
theorem Move.apply_le {m : Move} (h : m ≠ .push) (d : Nat) : m.apply d ≤ d := by
  cases m with
  | push => exact absurd rfl h
  | take => exact Nat.sub_le d 1
  | idle => exact Nat.le_refl d

/-- A run of at most `n` moves. -/
theorem balanced_of_length (h : moves.length ≤ n) : Balanced n moves := by
  intro before stretch after hSplit
  have hCount := List.count_le_length (a := Move.push) (l := stretch)
  rw [hSplit, List.length_append, List.length_append] at h
  omega

theorem depth_append_singleton (d : Nat) (moves : List Move) (m : Move) :
    depth d (moves ++ [m]) = m.apply (depth d moves) := by
  simp only [depth, List.foldl_append, List.foldl_cons, List.foldl_nil]

theorem within_iff_beginnings :
    Within n d moves ↔ ∀ before after, moves = before ++ after → depth d before ≤ n := by
  induction moves generalizing d with
  | nil =>
      constructor
      · intro h before after hSplit
        rw [(List.append_eq_nil_iff.mp hSplit.symm).1]
        exact h
      · intro h
        exact h [] [] rfl
  | cons m ms ih =>
      rw [Within, ih]
      constructor
      · rintro ⟨hHere, hRest⟩ before after hSplit
        cases before with
        | nil => exact hHere
        | cons m' before =>
            obtain ⟨rfl, hTail⟩ := List.cons.inj hSplit
            exact hRest before after hTail
      · intro h
        refine ⟨h [] (m :: ms) rfl, fun before after hSplit => ?_⟩
        exact h (m :: before) after (congrArg (m :: ·) hSplit)

/-- A stretch that ends where the run does, with one more move. -/
theorem suffix_append_singleton {P : List Move → Prop} {m : Move} :
    (∀ before stretch, moves ++ [m] = before ++ stretch → P stretch) ↔
      P [] ∧ ∀ before stretch, moves = before ++ stretch → P (stretch ++ [m]) := by
  constructor
  · intro h
    refine ⟨h (moves ++ [m]) [] (by simp), fun before stretch hSplit => ?_⟩
    exact h before (stretch ++ [m]) (by rw [hSplit, List.append_assoc])
  · rintro ⟨hNone, h⟩ before stretch hSplit
    rcases List.eq_nil_or_concat stretch with rfl | ⟨front, last, rfl⟩
    · exact hNone
    · rw [List.concat_eq_append] at hSplit ⊢
      rw [← List.append_assoc] at hSplit
      obtain ⟨hFront, hLast⟩ := List.append_inj' hSplit rfl
      rw [← List.cons.inj hLast |>.1]
      exact h before front hFront

/-- **The depth after a run**: what the stretches up to its end push above what they
take. -/
theorem depth_le_iff :
    depth 0 moves ≤ n ↔ ∀ before stretch, moves = before ++ stretch →
      stretch.count .push ≤ stretch.count .take + n := by
  induction moves using List.reverseRecOn generalizing n with
  | nil =>
      constructor
      · intro _ before stretch hSplit
        rw [(List.append_eq_nil_iff.mp hSplit.symm).2]
        exact Nat.zero_le _
      · intro _
        exact Nat.zero_le _
  | append_singleton moves m ih =>
      rw [suffix_append_singleton (P := fun stretch =>
        stretch.count .push ≤ stretch.count .take + n), depth_append_singleton]
      cases m with
      | push =>
          cases n with
          | zero =>
              constructor
              · intro h
                exact absurd h (Nat.not_succ_le_zero _)
              · rintro ⟨-, h⟩
                have hLast := h moves [] (by simp)
                simp at hLast
          | succ n =>
              have hBefore := ih (n := n)
              simp only [Move.apply, Nat.add_le_add_iff_right, List.count_append] at *
              rw [hBefore]
              simp [← Nat.add_assoc]
      | take =>
          have hBefore := ih (n := n + 1)
          simp only [Move.apply, Nat.sub_le_iff_le_add, List.count_append] at *
          rw [hBefore]
          simp [Nat.add_comm, Nat.add_left_comm]
      | idle =>
          have hBefore := ih (n := n)
          simp only [Move.apply, List.count_append] at *
          rw [hBefore]
          simp

/-- **The depth stays within the bound** exactly when the run is balanced. -/
theorem within_iff_balanced : Within n 0 moves ↔ Balanced n moves := by
  rw [within_iff_beginnings]
  constructor
  · intro h before stretch after hSplit
    exact depth_le_iff.mp (h (before ++ stretch) after hSplit) before stretch rfl
  · intro h before after hSplit
    refine depth_le_iff.mpr fun front stretch hFront => ?_
    exact h front stretch after (by rw [hSplit, hFront])

end MiniKernel.Verified.StackDepth
