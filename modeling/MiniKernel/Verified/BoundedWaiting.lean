import MiniKernel.Verified.Links
import MiniKernel.Verified.Trace

/-!
# Bounded waiting

Somebody waits for something to happen, and every step that costs something
brings it nearer.  With a measure `m` of how far it is, and a size `z` that a
step may add to it, `reaches_or_bounded` says that a run either gets there or
has cost no more than the measure was, plus what was added.  `comes_in_time` is
for goals that stay, `comes_by_in_time` for those that do not.

The measure for a search that goes round a list is the `gap`, the number of
members between the one the search starts behind and the one that waits: the
search cannot get past a member that passes the test (`gap_next`), and a member
added at the end of the list widens the gap by one at most (`gap_append`).
-/

namespace MiniKernel.Verified.BoundedWaiting

open MiniKernel.Verified.Links
open MiniKernel.Verified.Trace

universe u v

/-! ## Costs of a run -/

section Runs

variable {σ : Type u} {ε : Type v}

/-- What the steps of a run cost. -/
def spent (step : σ → ε → Option σ) (cost : σ → ε → Nat) : σ → List ε → Nat
  | _, [] => 0
  | s, e :: es => cost s e + (step s e).elim 0 fun s' => spent step cost s' es

/-- The run comes by a state with the property. -/
def ComesBy (step : σ → ε → Option σ) (goal : σ → Prop) (s : σ) (es : List ε) : Prop :=
  ∃ first rest t, es = first ++ rest ∧ exec step s first = some t ∧ goal t

theorem ComesBy.cons {step : σ → ε → Option σ} {goal : σ → Prop} {s s' : σ} {e : ε}
    {es : List ε} (hStep : step s e = some s') (h : ComesBy step goal s' es) :
    ComesBy step goal s (e :: es) := by
  obtain ⟨first, rest, t, rfl, hRun, hGoal⟩ := h
  exact ⟨e :: first, rest, t, rfl, by rw [exec_cons, hStep, Option.bind_some, hRun], hGoal⟩

theorem ComesBy.after {step : σ → ε → Option σ} {goal : σ → Prop} {s t : σ} {before es : List ε}
    (hBefore : exec step s before = some t) (h : ComesBy step goal t es) :
    ComesBy step goal s (before ++ es) := by
  obtain ⟨first, rest, u, rfl, hRun, hGoal⟩ := h
  refine ⟨before ++ first, rest, u, (List.append_assoc _ _ _).symm, ?_, hGoal⟩
  rw [exec_append, hBefore, Option.bind_some, hRun]

/-- Guarded steps cost the same, and lead to the same states. -/
theorem spent_guarded {step : σ → ε → Option σ} {ok : σ → ε → Prop} [∀ s e, Decidable (ok s e)]
    {cost : σ → ε → Nat} {s : σ} {es : List ε} (h : Meets step ok s es) :
    spent (guarded step ok) cost s es = spent step cost s es := by
  induction es generalizing s with
  | nil => rfl
  | cons e es ih =>
      rw [spent, spent, guarded, if_pos h.1]
      congr 1
      cases hStep : step s e with
      | none => rfl
      | some s₁ => exact ih (h.2 s₁ hStep)

theorem ComesBy.of_guarded {step : σ → ε → Option σ} {ok : σ → ε → Prop}
    [∀ s e, Decidable (ok s e)] {goal : σ → Prop} {s : σ} {es : List ε}
    (h : ComesBy (guarded step ok) goal s es) : ComesBy step goal s es := by
  obtain ⟨first, rest, t, hSplit, hRun, hGoal⟩ := h
  exact ⟨first, rest, t, hSplit, exec_of_guarded hRun, hGoal⟩

/-- **Bounded waiting.** -/
theorem reaches_or_bounded {step : σ → ε → Option σ} {I goal : σ → Prop} {cost : σ → ε → Nat}
    {m z : σ → Nat}
    (hStep : ∀ s e s', I s → step s e = some s' →
      goal s' ∨ I s' ∧ m s' + cost s e + z s ≤ m s + z s')
    {s s' : σ} {es : List ε} (hs : I s) (hRun : exec step s es = some s') :
    ComesBy step goal s es ∨ I s' ∧ m s' + spent step cost s es + z s ≤ m s + z s' := by
  induction es generalizing s with
  | nil =>
      obtain rfl := Option.some.inj hRun
      exact Or.inr ⟨hs, Nat.le_refl _⟩
  | cons e es ih =>
      obtain ⟨s₁, hFirst, hRest⟩ := exec_cons_some hRun
      rcases hStep s e s₁ hs hFirst with hGoal | ⟨hs₁, hNear⟩
      · exact Or.inl ⟨[e], es, s₁, rfl, by rw [exec_cons, hFirst]; rfl, hGoal⟩
      · rcases ih hs₁ hRest with hLater | ⟨hs', hFar⟩
        · exact Or.inl (hLater.cons hFirst)
        · refine Or.inr ⟨hs', ?_⟩
          rw [spent, hFirst, Option.elim_some]
          omega

/-- **In time.**  When each event that does not bring the goal brings it nearer by
its cost, a run that costs enough ends there.  Both the goal and what holds until
then may depend on the events that are still to come. -/
theorem comes_in_time {step : σ → ε → Option σ} {cost : ε → Nat} {m : σ → Nat}
    (I goal : σ → List ε → Prop) (hFar : ∀ {s es}, I s es → 0 < m s)
    (hStep : ∀ {s s' e es}, I s (e :: es) → step s e = some s' →
      goal s' es ∨ I s' es ∧ m s' + cost e ≤ m s)
    (hStay : ∀ {s s' e es}, goal s (e :: es) → step s e = some s' → goal s' es)
    {es : List ε} : ∀ {s s' : σ}, I s es → exec step s es = some s' →
      m s ≤ (es.map cost).sum → goal s' [] := by
  have hStays : ∀ {es : List ε} {s s' : σ}, goal s es → exec step s es = some s' → goal s' [] := by
    intro es
    induction es with
    | nil =>
        intro s s' hs hRun
        obtain rfl := Option.some.inj hRun
        exact hs
    | cons e es ih =>
        intro s s' hs hRun
        obtain ⟨s₁, hFirst, hRest⟩ := exec_cons_some hRun
        exact ih (hStay hs hFirst) hRest
  induction es with
  | nil =>
      intro s s' hs _ hEnough
      have hPositive := hFar hs
      simp only [List.map_nil, List.sum_nil] at hEnough
      omega
  | cons e es ih =>
      intro s s' hs hRun hEnough
      obtain ⟨s₁, hFirst, hRest⟩ := exec_cons_some hRun
      rw [List.map_cons, List.sum_cons] at hEnough
      rcases hStep hs hFirst with hGoal | ⟨hNext, hNearer⟩
      · exact hStays hGoal hRest
      · exact ih hNext hRest (by omega)

/-- **On the way.**  When each event brings the goal, or brings it nearer by its
cost, a run that costs enough comes by it before more has been spent. -/
theorem comes_by_in_time {step : σ → ε → Option σ} {I goal : σ → Prop} {cost : σ → ε → Nat}
    {m : σ → Nat} (hFar : ∀ s, I s → 0 < m s)
    (hStep : ∀ s e s', I s → step s e = some s' →
      goal s' ∧ cost s e ≤ m s ∨ I s' ∧ m s' + cost s e ≤ m s)
    {s s' : σ} {es : List ε} (hs : I s) (hRun : exec step s es = some s')
    (hEnough : m s ≤ spent step cost s es) :
    ∃ first rest t, es = first ++ rest ∧ exec step s first = some t ∧ goal t ∧
      spent step cost s first ≤ m s := by
  induction es generalizing s with
  | nil =>
      have hPositive := hFar s hs
      simp only [spent] at hEnough
      omega
  | cons e es ih =>
      obtain ⟨s₁, hFirst, hRest⟩ := exec_cons_some hRun
      rw [spent, hFirst, Option.elim_some] at hEnough
      rcases hStep s e s₁ hs hFirst with ⟨hGoal, hCost⟩ | ⟨hNext, hNearer⟩
      · refine ⟨[e], es, s₁, rfl, by rw [exec_cons, hFirst]; rfl, hGoal, ?_⟩
        simpa [spent, hFirst] using hCost
      · obtain ⟨first, rest, t, rfl, hThen, hGoal, hCost⟩ := ih hNext hRest (by omega)
        refine ⟨e :: first, rest, t, rfl, by rw [exec_cons, hFirst]; exact hThen, hGoal, ?_⟩
        rw [spent, hFirst, Option.elim_some]
        omega

end Runs

/-! ## Round a list -/

section Gap

variable {α : Type u} [DecidableEq α]

/-- How many members come between `c` and `x`, going round. -/
def gap (c : α) (xs : List α) (x : α) : Nat := (around c xs).idxOf x

variable {c x : α} {xs : List α}

theorem gap_lt (hNodup : xs.Nodup) (hc : c ∈ xs) (hx : x ∈ xs) (hOther : x ≠ c) :
    gap c xs x + 1 < xs.length := by
  have hIn : x ∈ around c xs := (mem_around hNodup hc).mpr ⟨hx, hOther⟩
  have hIndex := List.idxOf_lt_length_of_mem hIn
  obtain ⟨front, back, rfl⟩ := List.append_of_mem hc
  have hFront : c ∉ front := fun h => (List.nodup_append.mp hNodup).2.2 c h c (by simp) rfl
  unfold gap
  rw [around_append back hFront] at hIndex ⊢
  simp only [List.length_append, List.length_cons] at hIndex ⊢
  omega

/-- **A new member** may come in between. -/
theorem gap_append {y : α} (hNodup : xs.Nodup) (hc : c ∈ xs) (hx : x ∈ xs) (hy : y ∉ xs) :
    gap c (xs ++ [y]) x ≤ gap c xs x + 1 := by
  obtain ⟨front, back, rfl⟩ := List.append_of_mem hc
  have hFront : c ∉ front := fun h => (List.nodup_append.mp hNodup).2.2 c h c (by simp) rfl
  have hApart : x ≠ y := fun h => hy (h ▸ hx)
  unfold gap
  rw [List.append_assoc, List.cons_append, around_append back hFront,
    around_append (back ++ [y]) hFront, List.append_assoc]
  by_cases hBack : x ∈ back
  · rw [List.idxOf_append_of_mem hBack, List.idxOf_append_of_mem hBack]
    exact Nat.le_succ _
  · rw [List.idxOf_append_of_notMem hBack, List.idxOf_append_of_notMem hBack, List.singleton_append,
      List.idxOf_cons_ne _ (Ne.symm hApart)]
    omega

/-- Seen from a member behind `c`, what follows it comes first, and then `c`. -/
theorem around_next {d : α} {before after : List α} (hNodup : xs.Nodup) (hc : c ∈ xs)
    (hSplit : around c xs = before ++ d :: after) :
    around d xs = after ++ c :: before := by
  obtain ⟨front, back, rfl⟩ := List.append_of_mem hc
  have hFront : c ∉ front := fun h => (List.nodup_append.mp hNodup).2.2 c h c (by simp) rfl
  rw [around_append back hFront] at hSplit
  rcases List.append_eq_append_iff.mp hSplit with ⟨skipped, hBack, hEq⟩ | ⟨rest, hBack, hAfter⟩
  · have hList : front ++ c :: back = skipped ++ d :: (after ++ c :: back) := by simp [hEq]
    have hOnce : d ∉ skipped := fun hIn =>
      (List.nodup_append.mp (hList ▸ hNodup)).2.2 d hIn d (by simp) rfl
    rw [hList, around_append _ hOnce, hBack]
    simp
  · cases rest with
    | nil =>
        obtain rfl : back = before := by simpa using hBack
        have hEq : front = d :: after := by simpa using hAfter.symm
        rw [hEq]
        simp [around]
    | cons e rest =>
        obtain ⟨rfl, rfl⟩ := List.cons.inj hAfter
        have hList : front ++ c :: back = (front ++ c :: before) ++ d :: rest := by simp [hBack]
        have hOnce : d ∉ front ++ c :: before := fun hIn =>
          (List.nodup_append.mp (hList ▸ hNodup)).2.2 d hIn d (by simp) rfl
        rw [hList, around_append _ hOnce]
        simp

/-- **The search does not get past** a member that passes the test. -/
theorem gap_next {p : α → Bool} {d : α} (hNodup : xs.Nodup) (hc : c ∈ xs)
    (hd : (around c xs).find? p = some d) (hx : x ∈ xs) (hOther : x ≠ c) (hp : p x) :
    d = x ∨ gap d xs x < gap c xs x := by
  obtain ⟨-, before, after, hSplit, hBefore⟩ := List.find?_eq_some_iff_append.mp hd
  have hIn : x ∈ before ++ d :: after := hSplit ▸ (mem_around hNodup hc).mpr ⟨hx, hOther⟩
  have hPassed : x ∉ before := by
    intro hFront
    have hFails := hBefore x hFront
    simp [hp] at hFails
  by_cases hFound : d = x
  · exact Or.inl hFound
  · have hAfter : x ∈ after := by
      rcases List.mem_append.mp hIn with hFront | hRest
      · exact absurd hFront hPassed
      · exact (List.mem_cons.mp hRest).resolve_left (Ne.symm hFound)
    right
    unfold gap
    rw [around_next hNodup hc hSplit, hSplit, List.idxOf_append_of_mem hAfter,
      List.idxOf_append_of_notMem hPassed, List.idxOf_cons_ne _ hFound]
    omega

end Gap

end MiniKernel.Verified.BoundedWaiting
