import Mathlib.Data.List.Nodup
import Mathlib.Data.List.Perm.Basic
import Mathlib.Data.List.Rotate
import Mathlib.Tactic

/-!
# Singly linked lists

Nodes are nonzero addresses and `next` reads a node's link, `0` being the
null pointer.  `Linked next a xs` says that following the links from `a` to
the null pointer meets exactly the nodes `xs`.  Such a list has no repeated
node, so a loop over it takes fewer turns than there are addresses: `walk`
and `seek`, the two kinds of list loop, are given that many turns and only
fail to end on a list that is circular.  `Path` is the part of a list in
front of a node, for the loops that stop there.
-/

namespace MiniKernel.Verified.Links

universe u

/-- Following `next` from `a` meets exactly `xs` and ends at the null pointer. -/
def Linked (next : Nat → Nat) : Nat → List Nat → Prop
  | a, [] => a = 0
  | a, x :: xs => a = x ∧ x ≠ 0 ∧ Linked next (next x) xs

variable {next next' : Nat → Nat}

theorem linked_nil {a : Nat} : Linked next a [] ↔ a = 0 := Iff.rfl

theorem linked_cons {a x : Nat} {xs : List Nat} :
    Linked next a (x :: xs) ↔ a = x ∧ x ≠ 0 ∧ Linked next (next x) xs := Iff.rfl

instance instDecidableLinked (next : Nat → Nat) :
    (a : Nat) → (xs : List Nat) → Decidable (Linked next a xs)
  | a, [] => inferInstanceAs (Decidable (a = 0))
  | a, x :: xs =>
      have := instDecidableLinked next (next x) xs
      inferInstanceAs (Decidable (a = x ∧ x ≠ 0 ∧ Linked next (next x) xs))

/-- A list is determined by its first node. -/
theorem Linked.unique {a : Nat} {xs ys : List Nat} (hx : Linked next a xs)
    (hy : Linked next a ys) : xs = ys := by
  induction xs generalizing a ys with
  | nil =>
      cases ys with
      | nil => rfl
      | cons y ys =>
          rw [linked_nil] at hx
          rw [linked_cons] at hy
          omega
  | cons x xs ih =>
      cases ys with
      | nil =>
          rw [linked_nil] at hy
          rw [linked_cons] at hx
          omega
      | cons y ys =>
          obtain ⟨rfl, -, hxTail⟩ := hx
          obtain ⟨rfl, -, hyTail⟩ := hy
          rw [ih hxTail hyTail]

theorem Linked.ne_zero {a : Nat} {xs : List Nat} (h : Linked next a xs) :
    ∀ x ∈ xs, x ≠ 0 := by
  induction xs generalizing a with
  | nil => simp
  | cons y ys ih =>
      intro x hx
      rcases List.mem_cons.mp hx with rfl | hx
      · exact h.2.1
      · exact ih h.2.2 x hx

/-- The part of a list from one of its nodes on. -/
theorem Linked.suffix {a x : Nat} {xs ys : List Nat}
    (h : Linked next a (xs ++ x :: ys)) : Linked next x (x :: ys) := by
  induction xs generalizing a with
  | nil =>
      obtain ⟨rfl, hTail⟩ := h
      exact ⟨rfl, hTail⟩
  | cons y xs ih => exact ih h.2.2

/-- Frame rule: only the links of the nodes matter. -/
theorem Linked.congr {a : Nat} {xs : List Nat} (h : Linked next a xs)
    (hSame : ∀ x ∈ xs, next' x = next x) : Linked next' a xs := by
  induction xs generalizing a with
  | nil => exact h
  | cons x xs ih =>
      obtain ⟨ha, hNonzero, hTail⟩ := h
      refine ⟨ha, hNonzero, ?_⟩
      rw [hSame x (by simp)]
      exact ih hTail fun y hy => hSame y (by simp [hy])

/-- Redirecting the link of one node replaces everything after it. -/
theorem Linked.splice {a x : Nat} {xs ys zs : List Nat}
    (h : Linked next a (xs ++ x :: ys)) (hSame : ∀ y ∈ xs, next' y = next y)
    (hNew : Linked next' (next' x) zs) : Linked next' a (xs ++ x :: zs) := by
  induction xs generalizing a with
  | nil =>
      obtain ⟨ha, hNonzero, -⟩ := h
      exact ⟨ha, hNonzero, hNew⟩
  | cons y xs ih =>
      obtain ⟨ha, hNonzero, hTail⟩ := h
      refine ⟨ha, hNonzero, ?_⟩
      rw [hSame y (by simp)]
      exact ih hTail fun z hz => hSame z (by simp [hz])

/-- No node occurs twice: the links after both occurrences would be the same,
so the list would never end. -/
theorem Linked.nodup {a : Nat} {xs : List Nat} (h : Linked next a xs) : xs.Nodup := by
  induction xs generalizing a with
  | nil => exact List.nodup_nil
  | cons x xs ih =>
      refine List.nodup_cons.mpr ⟨fun hx => ?_, ih h.2.2⟩
      obtain ⟨front, back, rfl⟩ := List.append_of_mem hx
      have hAll : Linked next x (x :: (front ++ x :: back)) := ⟨rfl, h.2⟩
      have hBack : Linked next x (x :: back) :=
        Linked.suffix (show Linked next x ((x :: front) ++ x :: back) from hAll)
      have hLen := congrArg List.length (hAll.unique hBack)
      simp at hLen
      omega

/-- A list of addresses below `bound` is shorter than `bound`. -/
theorem Linked.length_lt {a bound : Nat} {xs : List Nat} (h : Linked next a xs)
    (hBound : ∀ x ∈ xs, x < bound) (hPos : 0 < bound) : xs.length < bound := by
  have hNodup : (0 :: xs).Nodup :=
    List.nodup_cons.mpr ⟨fun h0 => h.ne_zero 0 h0 rfl, h.nodup⟩
  have hSubset : 0 :: xs ⊆ List.range bound := by
    intro x hx
    rcases List.mem_cons.mp hx with rfl | hx
    · exact List.mem_range.mpr hPos
    · exact List.mem_range.mpr (hBound x hx)
  have hLen := (List.subperm_of_subset hNodup hSubset).length_le
  simp only [List.length_cons, List.length_range] at hLen
  omega

/-- The only node without a successor is the last one. -/
theorem Linked.find_last {a l : Nat} {xs : List Nat} (h : Linked next a (xs ++ [l])) :
    (xs ++ [l]).find? (fun p => next p == 0) = some l := by
  induction xs generalizing a with
  | nil =>
      have hEnd : next l = 0 := h.2.2
      simp [hEnd]
  | cons x xs ih =>
      have hTail : Linked next (next x) (xs ++ [l]) := h.2.2
      have hNext : next x ≠ 0 := by
        cases xs with
        | nil => exact fun h0 => hTail.2.1 (hTail.1 ▸ h0)
        | cons y ys => exact fun h0 => hTail.2.1 (hTail.1 ▸ h0)
      rw [List.cons_append, List.find?_cons_of_neg (by simpa using hNext)]
      exact ih hTail

/-- Following `next` from `a` passes exactly `xs` and arrives at `b`. -/
def Path (next : Nat → Nat) : Nat → List Nat → Nat → Prop
  | a, [], b => a = b
  | a, x :: xs, b => a = x ∧ Path next (next x) xs b

theorem Linked.path {a : Nat} {xs : List Nat} (h : Linked next a xs) : Path next a xs 0 := by
  induction xs generalizing a with
  | nil => exact h
  | cons x xs ih => exact ⟨h.1, ih h.2.2⟩

theorem Linked.path_to {a x : Nat} {xs ys : List Nat}
    (h : Linked next a (xs ++ x :: ys)) : Path next a xs x := by
  induction xs generalizing a with
  | nil => exact h.1
  | cons y xs ih => exact ⟨h.1, ih h.2.2⟩

/-! ## Loops over a list -/

section Loops

variable {σ : Type u}

/-- `while (a != NULL) { s = f(s, a); a = a->next; }`, for at most `turns` turns. -/
def walk (next : σ → Nat → Nat) (f : σ → Nat → σ) : Nat → Nat → σ → Option σ
  | 0, _, _ => none
  | turns + 1, a, s =>
      if a = 0 then some s else walk next f turns (next (f s a) a) (f s a)

/-- The loop folds over the nodes when its body leaves the links alone. -/
theorem Linked.walk_eq {next : σ → Nat → Nat} {f : σ → Nat → σ}
    (hLinks : ∀ s x y, next (f s x) y = next s y) {xs : List Nat} :
    ∀ {turns a : Nat} {s : σ}, Linked (next s) a xs → xs.length < turns →
      walk next f turns a s = some (xs.foldl f s) := by
  induction xs with
  | nil =>
      intro turns a s h hTurns
      obtain ⟨turns, rfl⟩ : ∃ k, turns = k + 1 := ⟨turns - 1, by
        simp only [List.length_nil] at hTurns
        omega⟩
      rw [linked_nil] at h
      simp [walk, h]
  | cons x xs ih =>
      intro turns a s h hTurns
      obtain ⟨rfl, hNonzero, hTail⟩ := h
      obtain ⟨turns, rfl⟩ : ∃ k, turns = k + 1 := ⟨turns - 1, by
        simp only [List.length_cons] at hTurns
        omega⟩
      rw [walk, if_neg hNonzero, List.foldl_cons]
      apply ih
      · rw [hLinks]
        exact hTail.congr fun y _ => hLinks s a y
      · simpa using hTurns

/-- `while (a != stop) { if (p(a)) return a; a = a->next; } return NULL;`. -/
def seek (next : Nat → Nat) (p : Nat → Bool) (stop : Nat) : Nat → Nat → Option Nat
  | 0, _ => none
  | turns + 1, a =>
      if a = stop then some 0
      else if p a then some a else seek next p stop turns (next a)

/-- Whatever the links are, the search returns an address they lead to. -/
theorem seek_invariant {p : Nat → Bool} {stop : Nat} {J : Nat → Prop}
    (hNext : ∀ a, J a → a ≠ stop → J (next a)) :
    ∀ {turns a b : Nat}, J a → seek next p stop turns a = some b → b = 0 ∨ J b ∧ p b := by
  intro turns
  induction turns with
  | zero =>
      intro a b _ h
      cases h
  | succ turns ih =>
      intro a b ha h
      rw [seek] at h
      by_cases hStop : a = stop
      · rw [if_pos hStop] at h
        cases h
        exact Or.inl rfl
      · rw [if_neg hStop] at h
        by_cases hp : p a
        · rw [if_pos hp] at h
          cases h
          exact Or.inr ⟨ha, hp⟩
        · rw [if_neg hp] at h
          exact ih (hNext a ha hStop) h

/-- The search returns the first node on the way that satisfies the test. -/
theorem Path.seek_eq {p : Nat → Bool} {b : Nat} {xs : List Nat} :
    ∀ {turns a : Nat}, Path next a xs b → b ∉ xs → xs.length < turns →
      seek next p b turns a = some ((xs.find? p).getD 0) := by
  induction xs with
  | nil =>
      intro turns a h _ hTurns
      obtain ⟨turns, rfl⟩ : ∃ k, turns = k + 1 := ⟨turns - 1, by
        simp only [List.length_nil] at hTurns
        omega⟩
      rw [seek, if_pos (show a = b from h)]
      rfl
  | cons x xs ih =>
      intro turns a h hb hTurns
      obtain ⟨rfl, hTail⟩ := h
      obtain ⟨turns, rfl⟩ : ∃ k, turns = k + 1 := ⟨turns - 1, by
        simp only [List.length_cons] at hTurns
        omega⟩
      have hne : a ≠ b := fun hEq => hb (by simp [hEq])
      rw [seek, if_neg hne]
      by_cases hp : p a
      · simp [hp]
      · rw [if_neg hp, ih hTail (fun hIn => hb (by simp [hIn])) (by simpa using hTurns)]
        simp [hp]

/-- On a list that ends, the search for the null pointer meets every node. -/
theorem Linked.seek_eq {p : Nat → Bool} {turns a : Nat} {xs : List Nat}
    (h : Linked next a xs) (hTurns : xs.length < turns) :
    seek next p 0 turns a = some ((xs.find? p).getD 0) :=
  h.path.seek_eq (fun h0 => h.ne_zero 0 h0 rfl) hTurns

/-- `while (a != NULL) { if (a == x) return (previous, a); previous = a; a = a->next; }`:
the node and the one in front of it. -/
def trail (next : Nat → Nat) (x : Nat) : Nat → Nat → Nat → Option (Nat × Nat)
  | 0, _, _ => none
  | turns + 1, previous, a =>
      if a = 0 then some (previous, 0)
      else if a = x then some (previous, a)
      else trail next x turns a (next a)

/-- Whatever the links are, the node that is found is one they lead to. -/
theorem trail_invariant {x : Nat} {J : Nat → Prop} (hNext : ∀ a, J a → a ≠ 0 → J (next a)) :
    ∀ {turns previous a : Nat} {r : Nat × Nat}, J a →
      trail next x turns previous a = some r → r.2 = 0 ∨ J r.2 := by
  intro turns
  induction turns with
  | zero =>
      intro previous a r _ h
      cases h
  | succ turns ih =>
      intro previous a r ha h
      rw [trail] at h
      by_cases hEnd : a = 0
      · rw [if_pos hEnd] at h
        cases h
        exact Or.inl rfl
      · rw [if_neg hEnd] at h
        by_cases hx : a = x
        · rw [if_pos hx] at h
          cases h
          exact Or.inr ha
        · rw [if_neg hx] at h
          exact ih (hNext a ha hEnd) h

theorem Linked.trail_absent {x : Nat} {xs : List Nat} : ∀ {turns previous a : Nat},
    Linked next a xs → x ∉ xs → xs.length < turns →
      ∃ last, trail next x turns previous a = some (last, 0) := by
  induction xs with
  | nil =>
      intro turns previous a h _ hTurns
      obtain ⟨turns, rfl⟩ : ∃ k, turns = k + 1 := ⟨turns - 1, by
        simp only [List.length_nil] at hTurns
        omega⟩
      exact ⟨previous, if_pos h⟩
  | cons y ys ih =>
      intro turns previous a h hx hTurns
      obtain ⟨rfl, hNonzero, hTail⟩ := h
      obtain ⟨turns, rfl⟩ : ∃ k, turns = k + 1 := ⟨turns - 1, by
        simp only [List.length_cons] at hTurns
        omega⟩
      have hne : a ≠ x := fun hEq => hx (by simp [hEq])
      rw [trail, if_neg hNonzero, if_neg hne]
      exact ih hTail (fun hIn => hx (List.mem_cons_of_mem a hIn)) (by simpa using hTurns)

theorem Linked.trail_present {x : Nat} {xs ys : List Nat} : ∀ {turns previous a : Nat},
    Linked next a (xs ++ x :: ys) → x ∉ xs → xs.length < turns →
      trail next x turns previous a = some (xs.getLastD previous, x) := by
  induction xs with
  | nil =>
      intro turns previous a h _ hTurns
      obtain ⟨rfl, hNonzero, -⟩ := h
      obtain ⟨turns, rfl⟩ : ∃ k, turns = k + 1 := ⟨turns - 1, by
        simp only [List.length_nil] at hTurns
        omega⟩
      rw [trail, if_neg hNonzero, if_pos rfl]
      rfl
  | cons y xs ih =>
      intro turns previous a h hx hTurns
      obtain ⟨rfl, hNonzero, hTail⟩ := h
      obtain ⟨turns, rfl⟩ : ∃ k, turns = k + 1 := ⟨turns - 1, by
        simp only [List.length_cons] at hTurns
        omega⟩
      have hne : a ≠ x := fun hEq => hx (by simp [hEq])
      rw [trail, if_neg hNonzero, if_neg hne, List.getLastD_cons]
      exact ih hTail (fun hIn => hx (List.mem_cons_of_mem a hIn)) (by simpa using hTurns)

end Loops

/-- Unlinking a node that is not the first one. -/
theorem Linked.unlink {a q x : Nat} {xs ys : List Nat}
    (h : Linked next a ((xs ++ [q]) ++ x :: ys)) (hLink : next' q = next x)
    (hSame : ∀ y ∈ xs ++ ys, next' y = next y) : Linked next' a ((xs ++ [q]) ++ ys) := by
  rw [List.append_assoc, List.singleton_append] at h ⊢
  apply h.splice
  · exact fun y hy => hSame y (List.mem_append_left ys hy)
  · rw [hLink]
    have hTail : Linked next q (q :: x :: ys) := h.suffix
    exact hTail.2.2.2.2.congr fun y hy => hSame y (List.mem_append_right xs hy)

/-! ## Seen from a node -/

section Around

variable {α : Type u} [DecidableEq α]

/-- The members behind `c`, then those in front of it. -/
def around (c : α) (xs : List α) : List α :=
  (xs.dropWhile fun x => decide (x ≠ c)).tail ++ xs.takeWhile fun x => decide (x ≠ c)

theorem around_append {c : α} {xs : List α} (ys : List α) (h : c ∉ xs) :
    around c (xs ++ c :: ys) = ys ++ xs := by
  have hFront : ∀ x ∈ xs, decide (x ≠ c) = true := by
    intro x hx
    rw [decide_eq_true_eq]
    exact fun hEq => h (hEq ▸ hx)
  rw [around, List.dropWhile_append_of_pos hFront, List.takeWhile_append_of_pos hFront]
  simp

theorem mem_around {c x : α} {xs : List α} (hNodup : xs.Nodup) (hc : c ∈ xs) :
    x ∈ around c xs ↔ x ∈ xs ∧ x ≠ c := by
  obtain ⟨front, back, rfl⟩ := List.append_of_mem hc
  obtain ⟨-, hBack, hApart⟩ := List.nodup_append.mp hNodup
  have hFront : c ∉ front := fun hIn => hApart c hIn c (by simp) rfl
  have hBehind : c ∉ back := (List.nodup_cons.mp hBack).1
  rw [around_append back hFront]
  simp only [List.mem_append, List.mem_cons]
  constructor
  · rintro (hx | hx)
    · exact ⟨Or.inr (Or.inr hx), fun hEq => hBehind (hEq ▸ hx)⟩
    · exact ⟨Or.inl hx, fun hEq => hFront (hEq ▸ hx)⟩
  · rintro ⟨hx | hx | hx, hne⟩
    · exact Or.inr hx
    · exact absurd hx hne
    · exact Or.inl hx

/-- The members that satisfy a test, from `c` on, going round. -/
def ring (p : α → Bool) (c : α) (xs : List α) : List α := (c :: around c xs).filter p

theorem ring_append {p : α → Bool} {c : α} {xs : List α} (ys : List α) (h : c ∉ xs)
    (hc : p c) : ring p c (xs ++ c :: ys) = c :: (ys.filter p ++ xs.filter p) := by
  rw [ring, around_append ys h, List.filter_cons_of_pos hc, List.filter_append]

theorem ring_perm {p : α → Bool} {c : α} {xs : List α} (hNodup : xs.Nodup) (hc : c ∈ xs) :
    (ring p c xs).Perm (xs.filter p) := by
  obtain ⟨front, back, rfl⟩ := List.append_of_mem hc
  have hFront : c ∉ front := fun hIn => (List.nodup_append.mp hNodup).2.2 c hIn c (by simp) rfl
  rw [ring, around_append back hFront]
  have hTurn : (c :: back ++ front).Perm (front ++ c :: back) := List.perm_append_comm
  exact hTurn.filter p

/-- **One step round.**  Seen from the first member behind `c` that satisfies the
test, the ring is turned by one. -/
theorem ring_next {p : α → Bool} {c d : α} {xs : List α} (hNodup : xs.Nodup) (hc : c ∈ xs)
    (hp : p c) (hd : (around c xs).find? p = some d) :
    ring p d xs = (ring p c xs).rotate 1 := by
  obtain ⟨front, back, rfl⟩ := List.append_of_mem hc
  have hFront : c ∉ front := fun hIn => (List.nodup_append.mp hNodup).2.2 c hIn c (by simp) rfl
  rw [around_append back hFront] at hd
  obtain ⟨hpd, before, after, hSplit, hBefore⟩ := List.find?_eq_some_iff_append.mp hd
  rw [ring_append back hFront hp, List.rotate_cons_succ, List.rotate_zero]
  -- the members in front of `d` that are passed over fail the test
  have hPassed : ∀ zs, zs ⊆ before → zs.filter p = [] := by
    intro zs hSub
    rw [List.filter_eq_nil_iff]
    exact fun z hz => by simpa using hBefore z (hSub hz)
  have hInFront (skipped : List α) (hBack : before = back ++ skipped)
      (hEq : front = skipped ++ d :: after) :
      ring p d (front ++ c :: back) = back.filter p ++ front.filter p ++ [c] := by
    have hList : front ++ c :: back = skipped ++ d :: (after ++ c :: back) := by simp [hEq]
    have hOnce : d ∉ skipped := fun hIn =>
      (List.nodup_append.mp (hList ▸ hNodup)).2.2 d hIn d (by simp) rfl
    rw [hList, ring_append (after ++ c :: back) hOnce hpd, hEq]
    simp [hp, hpd, hPassed back (by simp [hBack]), hPassed skipped (by simp [hBack])]
  rcases List.append_eq_append_iff.mp hSplit with ⟨skipped, hBack, hEq⟩ | ⟨rest, hBack, hAfter⟩
  · exact hInFront skipped hBack hEq
  · cases rest with
    | nil => exact hInFront [] (by simp [hBack]) (by simpa using hAfter.symm)
    | cons e rest =>
        obtain ⟨rfl, hAfter⟩ := List.cons.inj hAfter
        have hList : front ++ c :: back = (front ++ c :: before) ++ d :: rest := by simp [hBack]
        have hOnce : d ∉ front ++ c :: before := fun hIn =>
          (List.nodup_append.mp (hList ▸ hNodup)).2.2 d hIn d (by simp) rfl
        rw [hList, ring_append rest hOnce hpd, hBack]
        simp [hp, hpd, hPassed before (List.Subset.refl _)]

end Around

end MiniKernel.Verified.Links
