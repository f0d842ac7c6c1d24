import Mathlib.Tactic

/-!
# Traces of partial step functions

A system is a function `step : σ → ε → Option σ`; `none` says that the event
cannot be taken in that state.  A trace is a list of events, and running it
is `List.foldlM`.  Safety results come in two strengths:

* `exec_invariant`: an invariant of every step holds after every trace;
* `Meets.invariant`: the same when the step lemma needs a condition `ok` on
  the state and the event, for the traces whose every event meets `ok` in
  the state it is taken in.

The second form is how a result is stated that holds exactly as long as some
defect of the modelled program is not reached.  `Meets.iff_last` is the
converse for a defect that stops the system: the traces whose every event
meets `ok` are those that end well.  The same traces are those of the `guarded`
step function, which refuses the other events; a rule for unconditional steps
applies to it.
-/

namespace MiniKernel.Verified.Trace

universe u v

variable {σ : Type u} {ε : Type v}

/-- The state after a trace, `none` when some event is not enabled. -/
def exec (step : σ → ε → Option σ) (s : σ) (events : List ε) : Option σ :=
  events.foldlM step s

@[simp] theorem exec_nil (step : σ → ε → Option σ) (s : σ) :
    exec step s [] = some s := rfl

theorem exec_cons (step : σ → ε → Option σ) (s : σ) (e : ε) (es : List ε) :
    exec step s (e :: es) = (step s e).bind fun s' => exec step s' es := rfl

theorem exec_append (step : σ → ε → Option σ) (s : σ) (es es' : List ε) :
    exec step s (es ++ es') = (exec step s es).bind fun s' => exec step s' es' :=
  List.foldlM_append

/-- A nonempty trace splits at its first event. -/
theorem exec_cons_some {step : σ → ε → Option σ} {s s'' : σ} {e : ε}
    {es : List ε} (h : exec step s (e :: es) = some s'') :
    ∃ s', step s e = some s' ∧ exec step s' es = some s'' := by
  rw [exec_cons] at h
  cases hStep : step s e with
  | none => simp [hStep] at h
  | some s' => exact ⟨s', rfl, by simpa [hStep] using h⟩

/-- **Invariant rule.**  What every step preserves holds after every trace. -/
theorem exec_invariant {step : σ → ε → Option σ} {I : σ → Prop}
    (hStep : ∀ s e s', I s → step s e = some s' → I s')
    {s s' : σ} {es : List ε} (hs : I s) (h : exec step s es = some s') :
    I s' := by
  induction es generalizing s with
  | nil =>
      simp only [exec_nil, Option.some.injEq] at h
      exact h ▸ hs
  | cons e es ih =>
      obtain ⟨s₁, hFirst, hRest⟩ := exec_cons_some h
      exact ih (hStep s e s₁ hs hFirst) hRest

/-- Every event of the trace meets `ok` in the state it is taken in. -/
def Meets (step : σ → ε → Option σ) (ok : σ → ε → Prop) : σ → List ε → Prop
  | _, [] => True
  | s, e :: es => ok s e ∧ ∀ s', step s e = some s' → Meets step ok s' es

/-- A condition that can be evaluated can be evaluated along a trace. -/
instance Meets.decidable (step : σ → ε → Option σ) (ok : σ → ε → Prop)
    [∀ s e, Decidable (ok s e)] : (s : σ) → (es : List ε) → Decidable (Meets step ok s es)
  | _, [] => .isTrue trivial
  | s, e :: es =>
      match hStep : step s e with
      | none => decidable_of_iff (ok s e) (by simp [Meets, hStep])
      | some s' =>
          have := Meets.decidable step ok s' es
          decidable_of_iff (ok s e ∧ Meets step ok s' es) (by simp [Meets, hStep])

theorem Meets.imp {step : σ → ε → Option σ} {ok ok' : σ → ε → Prop} {s : σ} {es : List ε}
    (h : Meets step ok s es) (hImp : ∀ s e, ok s e → ok' s e) : Meets step ok' s es := by
  induction es generalizing s with
  | nil => trivial
  | cons e es ih => exact ⟨hImp s e h.1, fun s' hStep => ih (h.2 s' hStep)⟩

theorem Meets.and {step : σ → ε → Option σ} {ok ok' : σ → ε → Prop} {s : σ} {es : List ε}
    (h : Meets step ok s es) (h' : Meets step ok' s es) :
    Meets step (fun s e => ok s e ∧ ok' s e) s es := by
  induction es generalizing s with
  | nil => trivial
  | cons e es ih =>
      exact ⟨⟨h.1, h'.1⟩, fun s' hStep => ih (h.2 s' hStep) (h'.2 s' hStep)⟩

/-- A trace that goes on. -/
theorem Meets.append {step : σ → ε → Option σ} {ok : σ → ε → Prop} {s : σ} {es es' : List ε}
    (h : Meets step ok s es) (h' : ∀ s', exec step s es = some s' → Meets step ok s' es') :
    Meets step ok s (es ++ es') := by
  induction es generalizing s with
  | nil => exact h' s rfl
  | cons e es ih =>
      refine ⟨h.1, fun s₁ hFirst => ih (h.2 s₁ hFirst) fun s' hRest => h' s' ?_⟩
      rw [exec_cons, hFirst]
      exact hRest

/-- What the two parts of a trace meet. -/
theorem Meets.split {step : σ → ε → Option σ} {ok : σ → ε → Prop} {s s' : σ} {es es' : List ε}
    (h : Meets step ok s (es ++ es')) (hRun : exec step s es = some s') :
    Meets step ok s es ∧ Meets step ok s' es' := by
  induction es generalizing s with
  | nil =>
      obtain rfl := Option.some.inj hRun
      exact ⟨trivial, h⟩
  | cons e es ih =>
      obtain ⟨s₁, hFirst, hRest⟩ := exec_cons_some hRun
      refine ⟨⟨h.1, fun s₂ hStep => ?_⟩, (ih (h.2 s₁ hFirst) hRest).2⟩
      obtain rfl := Option.some.inj (hFirst.symm.trans hStep)
      exact (ih (h.2 s₁ hFirst) hRest).1

/-- **Conditional invariant rule.**  What every step preserves that meets
`ok` holds after every trace whose events all meet `ok`. -/
theorem Meets.invariant {step : σ → ε → Option σ} {ok : σ → ε → Prop}
    {I : σ → Prop}
    (hStep : ∀ s e s', I s → ok s e → step s e = some s' → I s')
    {s s' : σ} {es : List ε} (hs : I s) (hMeets : Meets step ok s es)
    (h : exec step s es = some s') : I s' := by
  induction es generalizing s with
  | nil =>
      simp only [exec_nil, Option.some.injEq] at h
      exact h ▸ hs
  | cons e es ih =>
      obtain ⟨s₁, hFirst, hRest⟩ := exec_cons_some h
      exact ih (hStep s e s₁ hs hMeets.1 hFirst) (hMeets.2 s₁ hFirst) hRest

/-- **Traces that end where they go wrong.**  When a step meets `ok` exactly if
it ends well (`G`), and a state that is not live (`L`) takes no further event,
then the events of a trace all meet `ok` exactly if the trace ends well. -/
theorem Meets.iff_last {step : σ → ε → Option σ} {ok : σ → ε → Prop} {I L G : σ → Prop}
    (hStep : ∀ s e s', I s → step s e = some s' → I s' ∧ (ok s e ↔ G s'))
    (hLive : ∀ s, L s → G s) (hStop : ∀ s e, ¬L s → step s e = none)
    {s s' : σ} {es : List ε} (hs : I s) (hs' : L s) (h : exec step s es = some s') :
    Meets step ok s es ↔ G s' := by
  induction es generalizing s with
  | nil =>
      cases h
      exact ⟨fun _ => hLive _ hs', fun _ => trivial⟩
  | cons e es ih =>
      obtain ⟨s₁, hFirst, hRest⟩ := exec_cons_some h
      obtain ⟨hs₁, hOk⟩ := hStep s e s₁ hs hFirst
      have hSplit : Meets step ok s (e :: es) ↔ ok s e ∧ Meets step ok s₁ es := by
        simp [Meets, hFirst]
      by_cases hOn : L s₁
      · rw [hSplit, ih hs₁ hOn hRest]
        exact and_iff_right (hOk.mpr (hLive s₁ hOn))
      · cases es with
        | nil =>
            cases hRest
            rw [hSplit, hOk]
            exact and_iff_left trivial
        | cons e' es =>
            rw [exec_cons, hStop s₁ e' hOn] at hRest
            simp at hRest

/-! ## The steps that meet a condition -/

section Guarded

variable {step : σ → ε → Option σ} {ok : σ → ε → Prop} [∀ s e, Decidable (ok s e)]
  {s s' : σ} {e : ε} {es : List ε}

/-- The steps whose event meets `ok`. -/
def guarded (step : σ → ε → Option σ) (ok : σ → ε → Prop) [∀ s e, Decidable (ok s e)]
    (s : σ) (e : ε) : Option σ :=
  if ok s e then step s e else none

@[simp] theorem guarded_eq_some :
    guarded step ok s e = some s' ↔ ok s e ∧ step s e = some s' := by
  simp [guarded]

/-- A trace whose events all meet the condition takes guarded steps. -/
theorem Meets.exec_guarded (h : Meets step ok s es) :
    exec (guarded step ok) s es = exec step s es := by
  induction es generalizing s with
  | nil => rfl
  | cons e es ih =>
      rw [exec_cons, exec_cons, guarded, if_pos h.1]
      cases hStep : step s e with
      | none => rfl
      | some s₁ => exact ih (h.2 s₁ hStep)

theorem exec_of_guarded (h : exec (guarded step ok) s es = some s') :
    exec step s es = some s' := by
  induction es generalizing s with
  | nil => exact h
  | cons e es ih =>
      obtain ⟨s₁, hFirst, hRest⟩ := exec_cons_some h
      rw [exec_cons, (guarded_eq_some.mp hFirst).2]
      exact ih hRest

theorem Meets.guarded_iff {ok' : σ → ε → Prop} (h : Meets step ok s es) :
    Meets (guarded step ok) ok' s es ↔ Meets step ok' s es := by
  induction es generalizing s with
  | nil => rfl
  | cons e es ih =>
      refine and_congr_right fun _ => forall_congr' fun s₁ => ?_
      constructor
      · intro hRest hStep
        exact (ih (h.2 s₁ hStep)).mp (hRest (guarded_eq_some.mpr ⟨h.1, hStep⟩))
      · intro hRest hStep
        have hFirst := (guarded_eq_some.mp hStep).2
        exact (ih (h.2 s₁ hFirst)).mpr (hRest hFirst)

end Guarded

end MiniKernel.Verified.Trace
