import MiniKernel.Verified.Trace

/-!
# Time sharing

Owners share one system in turns.  `turn s e` says whose turn the event `e` is
and what that owner does in it; an event may also be nobody's.  Each owner has
a view of the system.  When a step changes the view of the owner whose turn it
is by that owner's own act, and no other view (`Shares`), then after any run an
owner's view is what its own acts, one after another, make of the view it began
with (`Shares.view_run`): it might as well have been alone.
-/

namespace MiniKernel.Verified.TimeSharing

open MiniKernel.Verified.Trace

universe u v w x y

variable {σ : Type u} {ε : Type v} {ι : Type w} {ν : Type x} {ω : Type y} [DecidableEq ι]

/-- What the owner `i` does in a turn. -/
def share (i : ι) : Option (ι × ω) → List ω
  | some (j, a) => if j = i then [a] else []
  | none => []

@[simp] theorem share_none (i : ι) : share i (none : Option (ι × ω)) = [] := rfl

@[simp] theorem share_self (i : ι) (a : ω) : share i (some (i, a)) = [a] := if_pos rfl

theorem share_other {i j : ι} (a : ω) (h : j ≠ i) : share i (some (j, a)) = [] := if_neg h

/-- What the owner `i` does in a run. -/
def history (step : σ → ε → Option σ) (turn : σ → ε → Option (ι × ω)) (i : ι) :
    σ → List ε → List ω
  | _, [] => []
  | s, e :: es => share i (turn s e) ++ (step s e).elim [] fun s' => history step turn i s' es

/-- Steps act on one view at a time. -/
structure Shares (step : σ → ε → Option σ) (I : σ → Prop) (owner : ι → Prop)
    (view : ι → σ → ν) (turn : σ → ε → Option (ι × ω)) (act : ι → ν → ω → ν) : Prop where
  keeps : ∀ s e s', I s → step s e = some s' → I s'
  acts : ∀ s e s', I s → step s e = some s' → ∀ i, owner i →
    view i s' = (share i (turn s e)).foldl (act i) (view i s)

variable {step : σ → ε → Option σ} {I : σ → Prop} {owner : ι → Prop} {view : ι → σ → ν}
  {turn : σ → ε → Option (ι × ω)} {act : ι → ν → ω → ν}

/-- **As if alone.** -/
theorem Shares.view_run (h : Shares step I owner view turn act) {i : ι} (hi : owner i)
    {s s' : σ} {es : List ε} (hs : I s) (hRun : exec step s es = some s') :
    view i s' = (history step turn i s es).foldl (act i) (view i s) := by
  induction es generalizing s with
  | nil =>
      simp only [exec_nil, Option.some.injEq] at hRun
      rw [hRun]
      rfl
  | cons e es ih =>
      obtain ⟨s₁, hFirst, hRest⟩ := exec_cons_some hRun
      rw [ih (h.keeps s e s₁ hs hFirst) hRest, h.acts s e s₁ hs hFirst i hi, history, hFirst,
        Option.elim_some, List.foldl_append]

end MiniKernel.Verified.TimeSharing
