import Mathlib.Tactic

/-!
# A window on an unbounded sheet

A sheet has rows of `w` cells, without end, and a pen.  A window shows `h` of its rows,
the first of them the row `t`.  Scrolling moves a window down by one row and shows a
blank row at its foot: it still shows the sheet as long as nothing has been written below
it (`Shows`).  `top` is the least `t` whose window has the pen in it.
-/

namespace MiniKernel.Verified.Windows

universe u

/-- The cells, row by row, and the cell the pen is at. -/
structure Sheet (α : Type u) where
  cell : Nat → α
  pen : Nat

variable {α : Type u}

/-- Write at the pen. -/
def Sheet.put (s : Sheet α) (a : α) : Sheet α where
  cell k := if k = s.pen then a else s.cell k
  pen := s.pen + 1

/-- The pen goes to the first cell of the next row. -/
def Sheet.newline (w : Nat) (s : Sheet α) : Sheet α :=
  { s with pen := s.pen + (w - s.pen % w) }

/-! ## Windows -/

variable {w h t pen : Nat} {blank : α} {s s' : Sheet α} {view view' : Nat → α}

/-- The rows above the pen's that a window of `h` rows cannot show with it. -/
def top (w h pen : Nat) : Nat := pen / w + 1 - h

theorem lt_foot_iff (hw : 0 < w) : pen < w * (t + h) ↔ pen / w < t + h := by
  rw [Nat.div_lt_iff_lt_mul hw, Nat.mul_comm]

/-- The pen is in the window. -/
theorem pen_lt_foot (hw : 0 < w) : pen < w * (top w h pen + h) := by
  rw [lt_foot_iff hw]
  unfold top
  omega

/-- In any window further up it is not. -/
theorem foot_le_pen (hw : 0 < w) (ht : t < top w h pen) : w * (t + h) ≤ pen := by
  by_contra hLt
  have hRow := (lt_foot_iff hw).mp (Nat.lt_of_not_le hLt)
  unfold top at ht
  omega

/-- The least window with the pen in it. -/
theorem top_eq (hw : 0 < w) (hFoot : pen < w * (t + h))
    (hLeast : t = 0 ∨ w * (t + h) ≤ pen + w) : top w h pen = t := by
  have hRow := (lt_foot_iff hw).mp hFoot
  have hUp : t = 0 ∨ t + h ≤ pen / w + 1 := by
    refine hLeast.imp_right fun hLe => ?_
    have hDiv := Nat.div_le_div_right (c := w) hLe
    rwa [Nat.mul_div_cancel_left _ hw, Nat.add_div_right _ hw] at hDiv
  unfold top
  omega

/-- The window whose first row is `t` shows `view`, and below it the sheet is blank. -/
structure Shows (w h : Nat) (blank : α) (s : Sheet α) (t : Nat) (view : Nat → α) : Prop where
  cells : ∀ k < w * h, view k = s.cell (w * t + k)
  below : ∀ k, w * (t + h) ≤ k → s.cell k = blank

/-- Writing into the window. -/
theorem Shows.put (hShows : Shows w h blank s t view) {a : α} {k : Nat} (hPen : s.pen = w * t + k)
    (hk : k < w * h) (hView : ∀ m < w * h, view' m = if m = k then a else view m) :
    Shows w h blank (s.put a) t view' where
  cells m hm := by
    rw [hView m hm, hShows.cells m hm, Sheet.put]
    simp only [hPen, Nat.add_left_cancel_iff]
  below m hm := by
    rw [Nat.mul_add] at hm
    rw [Sheet.put]
    simp only
    rw [if_neg (by omega), hShows.below m (by rw [Nat.mul_add]; omega)]

/-- Moving the pen. -/
theorem Shows.moved (hShows : Shows w h blank s t view) (hCell : s'.cell = s.cell) :
    Shows w h blank s' t view where
  cells m hm := by rw [hShows.cells m hm, hCell]
  below m hm := by rw [hCell, hShows.below m hm]

/-- **Scrolling**: every row moves up by one, and the last one becomes blank. -/
theorem Shows.scroll (hShows : Shows w h blank s t view)
    (hView : ∀ k < w * h, view' k = if k + w < w * h then view (k + w) else blank) :
    Shows w h blank s (t + 1) view' where
  cells k hk := by
    rw [hView k hk]
    split
    · next hIn =>
        rw [hShows.cells _ hIn]
        congr 1
        rw [Nat.mul_add]
        omega
    · refine (hShows.below _ ?_).symm
      rw [Nat.mul_add, Nat.mul_add]
      omega
  below k hk := by
    refine hShows.below k ?_
    rw [Nat.mul_add, Nat.mul_add] at hk
    rw [Nat.mul_add]
    omega

/-- What a window shows is determined by the sheet. -/
theorem Shows.unique (hShows : Shows w h blank s t view) (hShows' : Shows w h blank s t view')
    {k : Nat} (hk : k < w * h) : view k = view' k :=
  (hShows.cells k hk).trans (hShows'.cells k hk).symm

/-! ## From a row on -/

section From

universe v

variable {β : Type v} {f : α → β} {t' : Nat} {s'' : Sheet α}

/-- From the row `t` on, `s'` is `s`, as far as `f` tells. -/
structure From (w t : Nat) (f : α → β) (s s' : Sheet α) : Prop where
  pen : s'.pen = w * t + s.pen
  cells : ∀ k, f (s'.cell (w * t + k)) = f (s.cell k)

/-- Nothing has been written from the pen on. -/
def Ahead (f : α → β) (blank : α) (s : Sheet α) : Prop := ∀ k, s.pen ≤ k → f (s.cell k) = f blank

theorem From.trans (h : From w t f s s') (h' : From w t' f s' s'') :
    From w (t' + t) f s s'' where
  pen := by
    rw [h'.pen, h.pen, Nat.mul_add, Nat.add_assoc]
  cells k := by
    rw [Nat.mul_add, Nat.add_assoc, h'.cells, h.cells]

theorem From.put (h : From w t f s s') {a a' : α} (ha : f a' = f a) :
    From w t f (s.put a) (s'.put a') where
  pen := by
    simp only [Sheet.put, h.pen, Nat.add_assoc]
  cells k := by
    simp only [Sheet.put, h.pen, Nat.add_left_cancel_iff]
    split
    · exact ha
    · exact h.cells k

theorem From.newline (h : From w t f s s') : From w t f (s.newline w) (s'.newline w) where
  pen := by
    simp only [Sheet.newline, h.pen, Nat.mul_add_mod, Nat.add_assoc]
  cells := h.cells

theorem Ahead.put (h : Ahead f blank s) (a : α) : Ahead f blank (s.put a) := by
  intro k hk
  simp only [Sheet.put] at hk ⊢
  rw [if_neg (by omega)]
  exact h k (by omega)

theorem Ahead.newline (h : Ahead f blank s) : Ahead f blank (s.newline w) := by
  intro k hk
  simp only [Sheet.newline] at hk ⊢
  exact h k (by omega)

end From

end MiniKernel.Verified.Windows
