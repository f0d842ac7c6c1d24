import Mathlib.Algebra.BigOperators.Group.List.Basic
import Mathlib.Data.List.Pairwise
import Mathlib.Tactic

/-!
# Extents

Half-open ranges of addresses and lists of things that occupy them.  Two
extents are `Apart` when no address is in both; an empty extent is apart from
everything.  The one rule allocators need is `pairwise_apart_replace`: in a
list whose members are pairwise apart, a segment may be replaced by any
pairwise apart list that occupies no new address.  Splitting a block and
merging neighbours are both instances.

`Tiling` is the stronger notion for an allocator that hands out everything
it gets: the parts are apart, lie inside the regions, and leave no address
of a region uncovered.
-/

namespace MiniKernel.Verified.Extents

/-- The addresses `base, …, base + length - 1`. -/
structure Extent where
  base : Nat
  length : Nat
  deriving Repr, DecidableEq

/-- The address lies in the extent. -/
def Extent.Has (e : Extent) (x : Nat) : Prop := e.base ≤ x ∧ x < e.base + e.length

instance (e : Extent) (x : Nat) : Decidable (e.Has x) := by
  unfold Extent.Has
  infer_instance

/-- No address lies in both. -/
def Extent.Apart (e f : Extent) : Prop := ∀ x, e.Has x → ¬f.Has x

theorem Extent.Apart.symm {e f : Extent} (h : e.Apart f) : f.Apart e :=
  fun x hf he => h x he hf

/-- Extents one of which ends before the other begins are apart. -/
theorem Extent.apart_of_le {e f : Extent}
    (h : e.base + e.length ≤ f.base ∨ f.base + f.length ≤ e.base) : e.Apart f := by
  intro x he hf
  unfold Extent.Has at he hf
  omega

/-- Nonempty extents that are apart lie on either side of each other. -/
theorem Extent.Apart.le {e f : Extent} (h : e.Apart f) (he : 0 < e.length)
    (hf : 0 < f.length) :
    e.base + e.length ≤ f.base ∨ f.base + f.length ≤ e.base := by
  by_cases hOrder : e.base ≤ f.base
  · have hIn := h f.base
    unfold Extent.Has at hIn
    omega
  · have hIn := h e.base
    unfold Extent.Has at hIn
    omega

instance (e f : Extent) : Decidable (e.Apart f) :=
  decidable_of_iff
    (e.length = 0 ∨ f.length = 0 ∨
      e.base + e.length ≤ f.base ∨ f.base + f.length ≤ e.base) (by
    constructor
    · intro h
      rcases h with h | h | h
      · intro x he
        unfold Extent.Has at he
        omega
      · intro x _ hf
        unfold Extent.Has at hf
        omega
      · exact Extent.apart_of_le h
    · intro h
      by_cases he : e.length = 0
      · exact Or.inl he
      · by_cases hf : f.length = 0
        · exact Or.inr (Or.inl hf)
        · exact Or.inr (Or.inr (h.le (by omega) (by omega))))

/-- An extent inside another is apart from whatever the outer one is. -/
theorem Extent.Apart.mono {e e' f : Extent} (h : e.Apart f)
    (hSub : ∀ x, e'.Has x → e.Has x) : e'.Apart f :=
  fun x hx => h x (hSub x hx)

universe u

variable {α : Type u} {ext : α → Extent}

/-- The members of the list occupy pairwise disjoint extents. -/
abbrev PairwiseApart (ext : α → Extent) (xs : List α) : Prop :=
  xs.Pairwise fun a b => (ext a).Apart (ext b)

/-- Distinct members of a pairwise apart list are apart. -/
theorem PairwiseApart.eq_or_apart {xs : List α} (h : PairwiseApart ext xs)
    {a b : α} (ha : a ∈ xs) (hb : b ∈ xs) : a = b ∨ (ext a).Apart (ext b) := by
  by_cases hab : a = b
  · exact Or.inl hab
  · have : Std.Symm fun a b : α => (ext a).Apart (ext b) :=
      ⟨fun _ _ hApart => hApart.symm⟩
    exact Or.inr (h.forall ha hb hab)

/-- **Replacement.**  A segment of a pairwise apart list may be replaced by a
pairwise apart list that stays inside it. -/
theorem pairwise_apart_replace {pre : List α} (mid : List α) {mid' post : List α}
    (h : PairwiseApart ext (pre ++ mid ++ post)) (hNew : PairwiseApart ext mid')
    (hSub : ∀ b ∈ mid', ∀ x, (ext b).Has x → ∃ a ∈ mid, (ext a).Has x) :
    PairwiseApart ext (pre ++ mid' ++ post) := by
  simp only [PairwiseApart, List.pairwise_append, List.mem_append] at h ⊢
  obtain ⟨⟨hPre, -, hPreMid⟩, hPost, hOut⟩ := h
  refine ⟨⟨hPre, hNew, ?_⟩, hPost, ?_⟩
  · intro a ha b hb x hax hbx
    obtain ⟨c, hc, hcx⟩ := hSub b hb x hbx
    exact hPreMid a ha c hc x hax hcx
  · intro a ha b hb x hax hbx
    rcases ha with ha | ha
    · exact hOut a (Or.inl ha) b hb x hax hbx
    · obtain ⟨c, hc, hcx⟩ := hSub a ha x hax
      exact hOut c (Or.inr hc) b hb x hcx hbx

/-! ## Tilings -/

/-- The extent lies inside the other. -/
def Extent.Within (e r : Extent) : Prop :=
  r.base ≤ e.base ∧ e.base + e.length ≤ r.base + r.length

/-- The parts divide the regions up without overlap and without a gap. -/
structure Tiling (regions parts : List Extent) : Prop where
  apart : parts.Pairwise Extent.Apart
  inside : ∀ e ∈ parts, ∃ r ∈ regions, e.Within r
  covers : ∀ r ∈ regions, ∀ x, r.Has x → ∃ e ∈ parts, e.Has x
  total : (parts.map Extent.length).sum = (regions.map Extent.length).sum

theorem Tiling.nil : Tiling [] [] where
  apart := List.Pairwise.nil
  inside := by simp
  covers := by simp
  total := rfl

theorem Tiling.perm {regions parts parts' : List Extent} (h : Tiling regions parts)
    (hPerm : parts.Perm parts') : Tiling regions parts' where
  apart := (hPerm.pairwise_iff fun hApart => hApart.symm).mp h.apart
  inside e he := h.inside e (hPerm.mem_iff.mpr he)
  covers r hr x hx := by
    obtain ⟨e, he, hex⟩ := h.covers r hr x hx
    exact ⟨e, hPerm.mem_iff.mp he, hex⟩
  total := by rw [← h.total, (hPerm.map _).sum_eq]

/-- A new region is tiled by itself. -/
theorem Tiling.region {regions parts : List Extent} (h : Tiling regions parts)
    {r : Extent} (hFresh : ∀ q ∈ regions, r.Apart q) :
    Tiling (r :: regions) (r :: parts) where
  apart := by
    refine List.pairwise_cons.mpr ⟨?_, h.apart⟩
    intro e he x hr hx
    obtain ⟨q, hq, hWithin⟩ := h.inside e he
    apply hFresh q hq x hr
    unfold Extent.Within at hWithin
    unfold Extent.Has at hx ⊢
    omega
  inside := by
    intro e he
    rcases List.mem_cons.mp he with rfl | he
    · exact ⟨e, by simp, by simp [Extent.Within]⟩
    · obtain ⟨q, hq, hWithin⟩ := h.inside e he
      exact ⟨q, by simp [hq], hWithin⟩
  covers := by
    intro q hq x hx
    rcases List.mem_cons.mp hq with rfl | hq
    · exact ⟨q, by simp, hx⟩
    · obtain ⟨e, he, hex⟩ := h.covers q hq x hx
      exact ⟨e, by simp [he], hex⟩
  total := by simp only [List.map_cons, List.sum_cons, h.total]

/-- A part may be cut in two. -/
theorem Tiling.split {regions parts : List Extent} {e f g : Extent}
    (h : Tiling regions (e :: parts)) (hBase : f.base = e.base)
    (hNext : g.base = f.base + f.length) (hLength : f.length + g.length = e.length) :
    Tiling regions (f :: g :: parts) where
  apart := by
    have hParts := List.pairwise_cons.mp h.apart
    refine List.pairwise_cons.mpr ⟨?_, List.pairwise_cons.mpr ⟨?_, hParts.2⟩⟩
    · intro d hd
      rcases List.mem_cons.mp hd with rfl | hd
      · exact Extent.apart_of_le (by omega)
      · exact (hParts.1 d hd).mono fun x hx => by unfold Extent.Has at *; omega
    · intro d hd
      exact (hParts.1 d hd).mono fun x hx => by unfold Extent.Has at *; omega
  inside := by
    obtain ⟨r, hr, hWithin⟩ := h.inside e (by simp)
    unfold Extent.Within at hWithin
    intro d hd
    rcases List.mem_cons.mp hd with rfl | hd
    · exact ⟨r, hr, by unfold Extent.Within; omega⟩
    · rcases List.mem_cons.mp hd with rfl | hd
      · exact ⟨r, hr, by unfold Extent.Within; omega⟩
      · exact h.inside d (by simp [hd])
  covers := by
    intro r hr x hx
    obtain ⟨d, hd, hdx⟩ := h.covers r hr x hx
    rcases List.mem_cons.mp hd with rfl | hd
    · by_cases hLeft : x < f.base + f.length
      · exact ⟨f, by simp, by unfold Extent.Has at *; omega⟩
      · exact ⟨g, by simp, by unfold Extent.Has at *; omega⟩
    · exact ⟨d, by simp [hd], hdx⟩
  total := by
    have hTotal := h.total
    simp only [List.map_cons, List.sum_cons] at hTotal ⊢
    omega

end MiniKernel.Verified.Extents
