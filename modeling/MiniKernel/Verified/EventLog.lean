import Mathlib.Tactic

/-!
# Computations with a log

`Logged ε α` is a computation that may stop (`none`) and leaves the events `ε` of the
part that ran.  So a property of a run that stops half-way, such as which accesses it
has made, is a property of its log, and `result` forgets the log: a program with
events is written beside the program without, and `result` of the one is the other.
-/

namespace MiniKernel.Verified.EventLog

universe u v w

/-- The events of the part that ran, and the result if the run was completed. -/
structure Logged (ε : Type u) (α : Type v) where
  log : List ε
  result : Option α

variable {ε : Type u} {α : Type v} {β : Type w}

/-- Nothing happens. -/
def done (a : α) : Logged ε α := ⟨[], some a⟩

/-- A step without an event. -/
def silent (r : Option α) : Logged ε α := ⟨[], r⟩

/-- A step whose event has happened if the step could be taken. -/
def event (e : ε) (r : Option α) : Logged ε α := ⟨(r.map fun _ => e).toList, r⟩

/-- Events of a step that cannot stop. -/
def emit (es : List ε) : Logged ε Unit := ⟨es, some ()⟩

/-- One computation, and then the next. -/
def Logged.andThen (x : Logged ε α) (f : α → Logged ε β) : Logged ε β :=
  match x.result with
  | none => ⟨x.log, none⟩
  | some a => ⟨x.log ++ (f a).log, (f a).result⟩

/-- A loop over a list. -/
def loop {σ : Type v} (f : σ → β → Logged ε σ) : List β → σ → Logged ε σ
  | [], s => done s
  | b :: bs, s => (f s b).andThen fun s' => loop f bs s'

@[simp] theorem result_done (a : α) : (done a : Logged ε α).result = some a := rfl

@[simp] theorem log_done (a : α) : (done a : Logged ε α).log = [] := rfl

@[simp] theorem result_silent (r : Option α) : (silent r : Logged ε α).result = r := rfl

@[simp] theorem log_silent (r : Option α) : (silent r : Logged ε α).log = [] := rfl

@[simp] theorem result_event (e : ε) (r : Option α) : (event e r).result = r := rfl

@[simp] theorem log_event_some (e : ε) (a : α) : (event e (some a)).log = [e] := rfl

@[simp] theorem log_event_none (e : ε) : (event e (none : Option α)).log = [] := rfl

@[simp] theorem result_emit (es : List ε) : (emit es).result = some () := rfl

@[simp] theorem result_andThen (x : Logged ε α) (f : α → Logged ε β) :
    (x.andThen f).result = x.result.bind fun a => (f a).result := by
  unfold Logged.andThen
  cases x.result with
  | none => rfl
  | some a => rfl

theorem log_andThen {x : Logged ε α} {a : α} (h : x.result = some a) (f : α → Logged ε β) :
    (x.andThen f).log = x.log ++ (f a).log := by
  unfold Logged.andThen
  rw [h]

theorem log_andThen_stop {x : Logged ε α} (h : x.result = none) (f : α → Logged ε β) :
    (x.andThen f).log = x.log := by
  unfold Logged.andThen
  rw [h]

@[simp] theorem emit_andThen (es : List ε) (f : Unit → Logged ε β) :
    (emit es).andThen f = ⟨es ++ (f ()).log, (f ()).result⟩ := rfl

@[simp] theorem silent_some_andThen (a : α) (f : α → Logged ε β) :
    (silent (some a)).andThen f = f a := rfl

theorem log_andThen_done (x : Logged ε α) (f : α → β) :
    (x.andThen fun a => done (f a)).log = x.log := by
  unfold Logged.andThen
  cases x.result with
  | none => rfl
  | some a => exact List.append_nil _

/-- A step without an event shows in the result only. -/
theorem mem_silent {r : Option α} {f : α → Logged ε β} {e : ε} :
    e ∈ ((silent r).andThen f).log ↔ ∃ a, r = some a ∧ e ∈ (f a).log := by
  cases r with
  | none => simp [Logged.andThen]
  | some a => simp [Logged.andThen]

/-- What has happened stays in the log. -/
theorem mem_andThen {x : Logged ε α} {f : α → Logged ε β} {e : ε} :
    e ∈ (x.andThen f).log ↔ e ∈ x.log ∨ ∃ a, x.result = some a ∧ e ∈ (f a).log := by
  unfold Logged.andThen
  cases x.result with
  | none => simp
  | some a => simp

/-- A loop of steps with results is the fold of the results. -/
theorem result_loop {σ : Type v} {f : σ → β → Logged ε σ} (bs : List β) (s : σ) :
    (loop f bs s).result = bs.foldlM (fun s b => (f s b).result) s := by
  induction bs generalizing s with
  | nil => rfl
  | cons b bs ih =>
      rw [loop, result_andThen, List.foldlM_cons]
      congr 1
      funext s'
      exact ih s'

/-- **The log of a loop** whose turns leave one event each: the events of the turns
that were made. -/
theorem log_loop {σ : Type v} {r : σ → β → Option σ} {e : β → ε} (bs : List β) (s : σ) :
    ∃ n ≤ bs.length, (loop (fun s b => event (e b) (r s b)) bs s).log = (bs.take n).map e ∧
      ((loop (fun s b => event (e b) (r s b)) bs s).result.isSome → n = bs.length) := by
  induction bs generalizing s with
  | nil => exact ⟨0, Nat.le_refl _, rfl, fun _ => rfl⟩
  | cons b bs ih =>
      cases hTurn : r s b with
      | none =>
          refine ⟨0, Nat.zero_le _, ?_, fun hSome => ?_⟩
          · rw [loop, log_andThen_stop hTurn, hTurn]
            rfl
          · rw [loop, result_andThen, result_event, hTurn] at hSome
            exact absurd hSome (by simp)
      | some s' =>
          obtain ⟨n, hLe, hLog, hAll⟩ := ih s'
          refine ⟨n + 1, Nat.succ_le_succ hLe, ?_, fun hSome => ?_⟩
          · rw [loop, log_andThen hTurn, hTurn, hLog]
            rfl
          · rw [loop, result_andThen, result_event, hTurn] at hSome
            rw [List.length_cons, hAll hSome]

end MiniKernel.Verified.EventLog
