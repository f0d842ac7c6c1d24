import MiniKernel.Verified.EventLog
import MiniKernel.Verified.Links

/-!
# What a search dereferences

`seekLogged` is the search `seek` with the pointers it dereferences: at every node those
of the test, and the node itself when its link is followed.  Along a path the log is known
exactly (`visits`), so a property of the pointers in it is a property of the nodes up to
the first that satisfies the test.
-/

namespace MiniKernel.Verified.LinkLog

open MiniKernel.Verified.Links
open MiniKernel.Verified.EventLog

variable {next : Nat → Nat} {p : Nat → Bool} {reads : Nat → List Nat}

/-- `seek`; `reads a` are the pointers that the test dereferences at the node `a`. -/
def seekLogged (next : Nat → Nat) (p : Nat → Bool) (reads : Nat → List Nat) (stop : Nat) :
    Nat → Nat → Logged Nat Nat
  | 0, _ => silent none
  | turns + 1, a =>
      if a = stop then done 0
      else (emit (reads a)).andThen fun _ =>
        if p a then done a
        else (emit [a]).andThen fun _ => seekLogged next p reads stop turns (next a)

@[simp] theorem result_seekLogged (stop turns a : Nat) :
    (seekLogged next p reads stop turns a).result = seek next p stop turns a := by
  induction turns generalizing a with
  | zero => rfl
  | succ turns ih =>
      rw [seekLogged, seek]
      by_cases hStop : a = stop
      · rw [if_pos hStop, if_pos hStop]
        rfl
      · rw [if_neg hStop, if_neg hStop, emit_andThen]
        by_cases hp : p a
        · rw [if_pos hp, if_pos hp]
          rfl
        · rw [if_neg hp, if_neg hp, emit_andThen]
          exact ih (next a)

/-- The pointers that a search over the nodes `xs` dereferences. -/
def visits (p : Nat → Bool) (reads : Nat → List Nat) : List Nat → List Nat
  | [] => []
  | x :: xs => reads x ++ if p x then [] else x :: visits p reads xs

/-- A node is visited when no node in front of it satisfies the test. -/
theorem mem_visits {xs : List Nat} {e : Nat} :
    e ∈ visits p reads xs ↔ ∃ front x back, xs = front ++ x :: back ∧
      (∀ y ∈ front, ¬ p y) ∧ (e ∈ reads x ∨ e = x ∧ ¬ p x) := by
  induction xs with
  | nil => simp [visits]
  | cons x xs ih =>
      rw [visits, List.mem_append]
      constructor
      · rintro (hRead | hRest)
        · exact ⟨[], x, xs, rfl, by simp, Or.inl hRead⟩
        · by_cases hp : p x
          · rw [if_pos hp] at hRest
            exact absurd hRest List.not_mem_nil
          · rw [if_neg hp, List.mem_cons, ih] at hRest
            rcases hRest with rfl | ⟨front, y, back, rfl, hFront, hMem⟩
            · exact ⟨[], e, xs, rfl, by simp, Or.inr ⟨rfl, hp⟩⟩
            · refine ⟨x :: front, y, back, rfl, fun z hz => ?_, hMem⟩
              rcases List.mem_cons.mp hz with rfl | hz
              · exact hp
              · exact hFront z hz
      · rintro ⟨front, y, back, hSplit, hFront, hMem⟩
        cases front with
        | nil =>
            obtain ⟨rfl, rfl⟩ := List.cons.inj hSplit
            rcases hMem with hRead | ⟨rfl, hp⟩
            · exact Or.inl hRead
            · right
              rw [if_neg hp]
              exact List.mem_cons_self
        | cons z front =>
            obtain ⟨rfl, rfl⟩ := List.cons.inj hSplit
            right
            rw [if_neg (hFront x List.mem_cons_self), List.mem_cons, ih]
            exact Or.inr ⟨front, y, back, rfl, fun w hw => hFront w (List.mem_cons_of_mem x hw),
              hMem⟩

/-- A search that does not end in `xs` goes on behind it. -/
theorem visits_append (xs ys : List Nat) :
    visits p reads (xs ++ ys) =
      visits p reads xs ++ if (xs.find? p).isSome then [] else visits p reads ys := by
  induction xs with
  | nil => simp [visits]
  | cons x xs ih =>
      rw [List.cons_append, visits, visits, ih]
      by_cases hp : p x
      · simp [hp]
      · simp [hp, List.find?_isSome]

/-- Whatever a search dereferences belongs to a node on its way. -/
theorem visits_node {xs : List Nat} {e : Nat} (h : e ∈ visits p reads xs) :
    ∃ x ∈ xs, e ∈ reads x ∨ e = x := by
  obtain ⟨front, x, back, rfl, -, hMem⟩ := mem_visits.mp h
  exact ⟨x, by simp, hMem.imp_right And.left⟩

/-- **The search along a path**: what it dereferences and what it returns. -/
theorem seekLogged_path {b : Nat} {xs : List Nat} :
    ∀ {turns a : Nat}, Path next a xs b → b ∉ xs → xs.length < turns →
      seekLogged next p reads b turns a =
        ⟨visits p reads xs, some ((xs.find? p).getD 0)⟩ := by
  induction xs with
  | nil =>
      intro turns a h _ hTurns
      obtain ⟨turns, rfl⟩ : ∃ k, turns = k + 1 := ⟨turns - 1, by
        simp only [List.length_nil] at hTurns
        omega⟩
      rw [seekLogged, if_pos (show a = b from h)]
      rfl
  | cons x xs ih =>
      intro turns a h hb hTurns
      obtain ⟨rfl, hTail⟩ := h
      obtain ⟨turns, rfl⟩ : ∃ k, turns = k + 1 := ⟨turns - 1, by
        simp only [List.length_cons] at hTurns
        omega⟩
      have hne : a ≠ b := fun hEq => hb (by simp [hEq])
      rw [seekLogged, if_neg hne, emit_andThen, visits]
      by_cases hp : p a
      · simp [hp, done]
      · rw [if_neg hp, if_neg hp, emit_andThen,
          ih hTail (fun hIn => hb (by simp [hIn])) (by simpa using hTurns)]
        simp [hp]

/-- On a list that ends, the search for the null pointer meets every node. -/
theorem seekLogged_linked {turns a : Nat} {xs : List Nat} (h : Linked next a xs)
    (hTurns : xs.length < turns) :
    seekLogged next p reads 0 turns a =
      ⟨visits p reads xs, some ((xs.find? p).getD 0)⟩ :=
  seekLogged_path h.path (fun h0 => h.ne_zero 0 h0 rfl) hTurns

end MiniKernel.Verified.LinkLog
