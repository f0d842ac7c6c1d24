import Mathlib.Tactic

/-!
# Lists spelled out by consecutive cells

An array is modelled as a total function from index to value together with a
count.  `Spells f b xs` says that the cells `f b, f (b + 1), …` hold the
list `xs`.  It splits along appends (`spells_append`) and moves along any
reindexing that carries the cells over (`Spells.move`), which is all that the
proofs about in-place shifts need.  `cut_cases` compares two cuts of one list.
-/

namespace MiniKernel.Verified.Cells

universe u

variable {α : Type u}

/-- The cells of `f` from `b` on hold the list. -/
def Spells (f : Nat → α) : Nat → List α → Prop
  | _, [] => True
  | b, x :: xs => f b = x ∧ Spells f (b + 1) xs

@[simp] theorem spells_nil (f : Nat → α) (b : Nat) : Spells f b [] := trivial

@[simp] theorem spells_cons {f : Nat → α} {b : Nat} {x : α} {xs : List α} :
    Spells f b (x :: xs) ↔ f b = x ∧ Spells f (b + 1) xs := Iff.rfl

theorem spells_append {f : Nat → α} {b : Nat} {xs ys : List α} :
    Spells f b (xs ++ ys) ↔ Spells f b xs ∧ Spells f (b + xs.length) ys := by
  induction xs generalizing b with
  | nil => simp
  | cons x xs ih =>
      have hLen : b + 1 + xs.length = b + (x :: xs).length := by
        simp only [List.length_cons]
        omega
      simp only [List.cons_append, spells_cons, ih, hLen, and_assoc]

/-- A spelled list moves with its cells. -/
theorem Spells.move {f g : Nat → α} {b c : Nat} {xs : List α}
    (h : Spells f b xs) (hCells : ∀ k < xs.length, g (c + k) = f (b + k)) :
    Spells g c xs := by
  induction xs generalizing b c with
  | nil => trivial
  | cons x xs ih =>
      have hHead := hCells 0 (by simp)
      refine ⟨hHead.trans h.1, ih h.2 fun k hk => ?_⟩
      have hNext := hCells (k + 1) (by simpa using hk)
      rwa [show c + 1 + k = c + (k + 1) by omega,
        show b + 1 + k = b + (k + 1) by omega]

/-- Frame rule: only the spelled cells matter. -/
theorem Spells.frame {f g : Nat → α} {b : Nat} {xs : List α}
    (h : Spells f b xs) (hCells : ∀ k, b ≤ k → k < b + xs.length → g k = f k) :
    Spells g b xs :=
  h.move fun k hk => hCells (b + k) (by omega) (by omega)

/-- Every member of a spelled list sits in one of the cells. -/
theorem Spells.mem {f : Nat → α} {b : Nat} {x : α} {xs : List α}
    (h : Spells f b xs) (hx : x ∈ xs) : ∃ k < xs.length, f (b + k) = x := by
  induction xs generalizing b with
  | nil => simp at hx
  | cons y xs ih =>
      rcases List.mem_cons.mp hx with rfl | hx
      · exact ⟨0, by simp, h.1⟩
      · obtain ⟨k, hk, hCell⟩ := ih h.2 hx
        refine ⟨k + 1, by simpa using hk, ?_⟩
        rwa [show b + (k + 1) = b + 1 + k by omega]

theorem map_range'_eq_iff {f : Nat → α} {b n : Nat} {xs : List α} :
    (List.range' b n).map f = xs ↔ n = xs.length ∧ Spells f b xs := by
  induction xs generalizing b n with
  | nil => simp
  | cons x xs ih =>
      cases n with
      | zero => simp
      | succ n =>
          simp only [List.range'_succ, List.map_cons, List.cons.injEq, ih,
            List.length_cons, spells_cons, Nat.add_right_cancel_iff]
          tauto

/-- The first `n` cells as a list. -/
theorem map_range_eq_iff {f : Nat → α} {n : Nat} {xs : List α} :
    (List.range n).map f = xs ↔ n = xs.length ∧ Spells f 0 xs := by
  rw [List.range_eq_range', map_range'_eq_iff]

/-! ## Two cuts of one list -/

/-- Two members at which a list is cut are one member at one place, or each is on
its side of the other. -/
theorem cut_cases {pre pre' post post' : List α} {e e' : α}
    (h : pre ++ e :: post = pre' ++ e' :: post') :
    (pre = pre' ∧ e = e' ∧ post = post') ∨ (e' ∈ post ∧ e ∈ pre') ∨ (e' ∈ pre ∧ e ∈ post') := by
  rcases List.append_eq_append_iff.mp h with ⟨mid, hPre, hRest⟩ | ⟨mid, hPre, hRest⟩
  · cases mid with
    | nil =>
        rw [List.append_nil] at hPre
        rw [List.nil_append, List.cons.injEq] at hRest
        exact Or.inl ⟨hPre.symm, hRest⟩
    | cons d mid =>
        rw [List.cons_append, List.cons.injEq] at hRest
        refine Or.inr (Or.inl ⟨?_, ?_⟩)
        · rw [hRest.2]
          simp
        · rw [hPre, hRest.1]
          simp
  · cases mid with
    | nil =>
        rw [List.append_nil] at hPre
        rw [List.nil_append, List.cons.injEq] at hRest
        exact Or.inl ⟨hPre, hRest.1.symm, hRest.2.symm⟩
    | cons d mid =>
        rw [List.cons_append, List.cons.injEq] at hRest
        refine Or.inr (Or.inr ⟨?_, ?_⟩)
        · rw [hPre, hRest.1]
          simp
        · rw [hRest.2]
          simp

end MiniKernel.Verified.Cells
