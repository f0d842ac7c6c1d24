import MiniKernel.Ports.Console
import MiniKernel.Verified.Windows

/-!
# What the print routines show

The screen is a window of 25 rows on a sheet whose rows have 80 cells: `Displays` says so
of text memory and the cursor, with the window no further down than the cursor needs it.
Between the last character of a row and `add_line_if_needed` the cursor may be one cell
behind the window (`Near`); `add_line` then scrolls it.  `print_string_refines` says that
`print_string` writes its text on the sheet, and nothing else.
-/

namespace MiniKernel.Ports.ConsoleText

open MiniKernel.Verified.Windows
open MiniKernel.Ports.Console
open MiniKernel.Ports.Console.Terminal

/-! ## Scrolling -/

/-- What `add_line` puts into the last row. -/
def blank : Cell := Cell.mk ' '.toNat 0x0F

theorem setCell_self (screen : Int → Cell) (i : Int) (cell : Cell) :
    setCell screen i cell i = cell := if_pos rfl

theorem setCell_ne (screen : Int → Cell) {i x : Int} (cell : Cell) (h : x ≠ i) :
    setCell screen i cell x = screen x := if_neg h

/-- One row is copied, from the left to the right, to a place in front of it. -/
theorem copyRow (screen : Int → Cell) {dst src : Int} (h : dst ≤ src) (n : Nat) (x : Int) :
    (List.range n).foldl (fun screen (col : Nat) =>
        setCell screen (dst + col) (screen (src + col))) screen x =
      if dst ≤ x ∧ x < dst + n then screen (x - dst + src) else screen x := by
  induction n generalizing x with
  | zero =>
      rw [if_neg (by omega)]
      rfl
  | succ n ih =>
      rw [List.range_succ, List.foldl_append, List.foldl_cons, List.foldl_nil]
      by_cases hx : x = dst + n
      · -- the cell that is read has not been written yet
        rw [hx, setCell_self, ih, if_neg (by omega), if_pos (by omega)]
        congr 1
        omega
      · rw [setCell_ne _ _ hx, ih]
        by_cases hIn : dst ≤ x ∧ x < dst + n
        · rw [if_pos hIn, if_pos (by omega)]
        · rw [if_neg hIn, if_neg (by omega)]

/-- The first `n` rows but the very first have moved up. -/
theorem copyRows (screen : Int → Cell) (n : Nat) (x : Int) :
    (List.range' 1 n).foldl (fun screen (row : Nat) =>
        (List.range 80).foldl (fun screen (col : Nat) =>
          setCell screen ((row - 1) * 80 + col) (screen (row * 80 + col))) screen) screen x =
      if 0 ≤ x ∧ x < 80 * n then screen (x + 80) else screen x := by
  induction n generalizing x with
  | zero =>
      rw [if_neg (by omega)]
      rfl
  | succ n ih =>
      rw [List.range'_1_concat, List.foldl_append, List.foldl_cons, List.foldl_nil,
        copyRow _ (by omega)]
      by_cases hRow : ((1 + n : Nat) - 1 : Int) * 80 ≤ x ∧
          x < ((1 + n : Nat) - 1 : Int) * 80 + (80 : Nat)
      · rw [if_pos hRow, ih, if_neg (by omega), if_pos (by omega)]
        congr 1
        omega
      · rw [if_neg hRow, ih]
        by_cases hIn : 0 ≤ x ∧ x < 80 * (n : Int)
        · rw [if_pos hIn, if_pos (by omega)]
        · rw [if_neg hIn, if_neg (by omega)]

theorem fillRow (screen : Int → Cell) (dst : Int) (cell : Cell) (n : Nat) (x : Int) :
    (List.range n).foldl (fun screen (col : Nat) => setCell screen (dst + col) cell) screen x =
      if dst ≤ x ∧ x < dst + n then cell else screen x := by
  induction n generalizing x with
  | zero =>
      rw [if_neg (by omega)]
      rfl
  | succ n ih =>
      rw [List.range_succ, List.foldl_append, List.foldl_cons, List.foldl_nil]
      by_cases hx : x = dst + n
      · rw [hx, setCell_self, if_pos (by omega)]
      · rw [setCell_ne _ _ hx, ih]
        by_cases hIn : dst ≤ x ∧ x < dst + n
        · rw [if_pos hIn, if_pos (by omega)]
        · rw [if_neg hIn, if_neg (by omega)]

/-- **The loops of `add_line`.** -/
theorem scroll_screen (s : Terminal) (x : Int) :
    s.scroll.screen x =
      if 0 ≤ x ∧ x < 1920 then s.screen (x + 80)
      else if 1920 ≤ x ∧ x < 2000 then blank else s.screen x := by
  have hFill := fillRow ((List.range' 1 24).foldl (fun screen (row : Nat) =>
    (List.range 80).foldl (fun screen (col : Nat) =>
      setCell screen ((row - 1) * 80 + col) (screen (row * 80 + col))) screen) s.screen)
    (24 * 80) blank 80 x
  refine hFill.trans ?_
  rw [copyRows]
  by_cases hLast : 24 * 80 ≤ x ∧ x < 24 * 80 + (80 : Nat)
  · rw [if_pos hLast, if_neg (by omega), if_pos (by omega)]
  · rw [if_neg hLast]
    by_cases hIn : 0 ≤ x ∧ x < 80 * (24 : Nat)
    · rw [if_pos hIn, if_pos (by omega)]
    · rw [if_neg hIn, if_neg (by omega), if_neg (by omega)]

/-! ## The window -/

/-- Text memory, by cells of the screen. -/
def view (s : Terminal) (k : Nat) : Cell := s.screen k

/-- The sheet is shown from row `t` on, and the cursor is in the window or just behind it;
no window further up would do. -/
structure Near (s : Terminal) (sheet : Sheet Cell) (t : Nat) : Prop where
  shows : Shows 80 25 blank sheet t (view s)
  cursor : s.i = (sheet.pen : Int) - 80 * t
  low : 80 * t ≤ sheet.pen
  high : sheet.pen ≤ 80 * (t + 25)
  least : t = 0 ∨ 80 * (t + 24) ≤ sheet.pen

/-- The screen shows the first window that has the pen in it, and the cursor is the pen. -/
def Displays (s : Terminal) (sheet : Sheet Cell) : Prop :=
  Near s sheet (top 80 25 sheet.pen)

/-- Only the cells of the screen have been written. -/
structure Framed (s s' : Terminal) : Prop where
  outside : ∀ x, ¬OnScreen x → s'.screen x = s.screen x
  written : ∀ x ∈ s'.written, x ∈ s.written ∨ OnScreen x

variable {s s' s'' : Terminal} {sheet : Sheet Cell} {t : Nat}

theorem Framed.refl (s : Terminal) : Framed s s := ⟨fun _ _ => rfl, fun _ h => Or.inl h⟩

theorem Framed.trans (h : Framed s s') (h' : Framed s' s'') : Framed s s'' where
  outside x hx := (h'.outside x hx).trans (h.outside x hx)
  written x hx := (h'.written x hx).elim (h.written x) Or.inr

/-- `j`, the line buffer and the hardware cursor do not show. -/
theorem Near.congr (h : Near s sheet t) (hScreen : s'.screen = s.screen) (hi : s'.i = s.i) :
    Near s' sheet t where
  shows :=
    { cells := fun k hk => (congrFun hScreen k).trans (h.shows.cells k hk)
      below := h.shows.below }
  cursor := hi.trans h.cursor
  low := h.low
  high := h.high
  least := h.least

theorem Displays.near (h : Displays s sheet) : Near s sheet (top 80 25 sheet.pen) := h

theorem Displays.onScreen (h : Displays s sheet) : OnScreen s.i := by
  have hCursor := h.near.cursor
  have hLow := h.near.low
  have hFoot : sheet.pen < 80 * (top 80 25 sheet.pen + 25) := pen_lt_foot (by decide)
  unfold OnScreen
  omega

/-- A screen is the window on a sheet that is blank below it. -/
def sheetOf (s : Terminal) : Sheet Cell where
  cell k := if k < 2000 then view s k else blank
  pen := s.i.toNat

theorem displays_sheetOf (h : OnScreen s.i) : Displays s (sheetOf s) := by
  obtain ⟨hLow, hHigh⟩ := h
  have hPen : (sheetOf s).pen = s.i.toNat := rfl
  have hTop : top 80 25 (sheetOf s).pen = 0 := top_eq (by decide) (by omega) (Or.inl rfl)
  unfold Displays
  rw [hTop]
  refine ⟨⟨fun k hk => ?_, fun k hk => ?_⟩, ?_, ?_, ?_, Or.inl rfl⟩
  · rw [Nat.mul_zero, Nat.zero_add]
    exact (if_pos hk).symm
  · exact if_neg (by omega)
  · rw [hPen]
    omega
  · omega
  · omega

/-- Two terminals that display the same sheet and were framed alike look the same. -/
theorem Displays.unique {s₀ : Terminal} (h : Displays s sheet) (h' : Displays s' sheet)
    (hFramed : Framed s₀ s) (hFramed' : Framed s₀ s') : s.screen = s'.screen ∧ s.i = s'.i := by
  refine ⟨funext fun x => ?_, h.near.cursor.trans h'.near.cursor.symm⟩
  by_cases hx : OnScreen x
  · obtain ⟨k, rfl⟩ : ∃ k : Nat, x = k := ⟨x.toNat, by have := hx.1; omega⟩
    have hk : k < 80 * 25 := by have := hx.2; omega
    exact h.near.shows.unique h'.near.shows hk
  · rw [hFramed.outside x hx, hFramed'.outside x hx]

/-! ## The operations -/

/-- `add_line_if_needed`, for a cursor at most one cell behind the window. -/
theorem addLineIfNeeded_full (hFull : 2000 ≤ s.i) (hHigh : s.i ≤ 2000) :
    Op.addLineIfNeeded.run s = { s.scroll with i := s.i - 80 } := by
  refine (if_pos hFull).trans ((if_pos (show 2000 ≤ s.scroll.i from hFull)).trans ?_)
  rw [scroll_i, int32_eq (by omega) (by omega)]

theorem addLineIfNeeded_onScreen (hOn : s.i < 2000) : Op.addLineIfNeeded.run s = s :=
  if_neg (by omega)

/-- **`add_line_if_needed`** moves the window down to the cursor. -/
theorem Near.settle (h : Near s sheet t) :
    Displays (Op.addLineIfNeeded.run s) sheet ∧ Framed s (Op.addLineIfNeeded.run s) := by
  have hCursor := h.cursor
  have hLow := h.low
  have hHigh := h.high
  unfold Displays
  by_cases hFull : 2000 ≤ s.i
  · -- the cursor is behind the last cell
    have hTop : top 80 25 sheet.pen = t + 1 := top_eq (by decide) (by omega) (Or.inr (by omega))
    rw [addLineIfNeeded_full hFull (by omega), hTop]
    refine ⟨⟨h.shows.scroll fun k hk => ?_, ?_, by omega, by omega, Or.inr (by omega)⟩,
      fun x hx => ?_, fun x hx => Or.inl hx⟩
    · unfold view
      simp only
      rw [scroll_screen]
      by_cases hIn : k + 80 < 80 * 25
      · rw [if_pos (by omega), if_pos hIn]
        rfl
      · rw [if_neg (by omega), if_pos (by omega), if_neg hIn]
    · simp only
      omega
    · unfold OnScreen at hx
      simp only
      rw [scroll_screen, if_neg (by omega), if_neg (by omega)]
  · have hTop : top 80 25 sheet.pen = t :=
      top_eq (by decide) (by omega) (h.least.imp_right fun hLe => by omega)
    rw [addLineIfNeeded_onScreen (by omega), hTop]
    exact ⟨h, Framed.refl s⟩

/-- A character and the step behind it. -/
theorem Displays.put (h : Displays s sheet) (c : Nat) :
    Near (Op.advance.run ((Op.print c).run s)) (sheet.put (Cell.mk (c % 256) 0x0F))
        (top 80 25 sheet.pen) ∧
      Framed s (Op.advance.run ((Op.print c).run s)) := by
  have hOn := h.onScreen
  obtain ⟨hShows, hCursor, hLow, -, hLeast⟩ := h.near
  have hFoot : sheet.pen < 80 * (top 80 25 sheet.pen + 25) := pen_lt_foot (by decide)
  generalize top 80 25 sheet.pen = t at *
  have hNext : int32 (s.i + 1) = s.i + 1 :=
    int32_eq (by have := hOn.1; omega) (by have := hOn.2; omega)
  obtain ⟨k, hPen⟩ : ∃ k, sheet.pen = 80 * t + k := ⟨sheet.pen - 80 * t, by omega⟩
  have hk : s.i = k := by omega
  simp only [Op.run]
  refine ⟨⟨hShows.put hPen (by omega) fun m hm => ?_, ?_, ?_, ?_, ?_⟩, fun x hx => ?_,
    fun x hx => ?_⟩
  · change setCell s.screen s.i _ m = _
    by_cases hEq : m = k
    · rw [if_pos hEq, hEq, hk, setCell_self]
    · rw [if_neg hEq, setCell_ne _ _ (by omega)]
      rfl
  · simp only [moveBy_i, print_i, Sheet.put, hNext]
    omega
  · simp only [Sheet.put]
    omega
  · simp only [Sheet.put]
    omega
  · simp only [Sheet.put]
    omega
  · exact setCell_ne _ _ fun hEq => hx (hEq ▸ hOn)
  · simp only [moveBy_written, print_written, List.mem_cons] at hx
    exact hx.elim (fun hEq => Or.inr (hEq ▸ hOn)) Or.inl

/-- A new line. -/
theorem Displays.newline (h : Displays s sheet) :
    Near (Op.restart.run (Op.newLine.run s)) (sheet.newline 80) (top 80 25 sheet.pen) ∧
      Framed s (Op.restart.run (Op.newLine.run s)) := by
  obtain ⟨hOnLow, hOnHigh⟩ := h.onScreen
  obtain ⟨hShows, hCursor, hLow, -, hLeast⟩ := h.near
  have hFoot : sheet.pen < 80 * (top 80 25 sheet.pen + 25) := pen_lt_foot (by decide)
  generalize top 80 25 sheet.pen = t at *
  have hMod : s.i.tmod 80 = (sheet.pen % 80 : Nat) := by
    rw [Int.tmod_eq_emod_of_nonneg hOnLow]
    omega
  have hNext : int32 (s.i + (80 - s.i.tmod 80)) = s.i + (80 - (sheet.pen % 80 : Nat)) := by
    rw [hMod]
    exact int32_eq (by omega) (by omega)
  refine ⟨⟨hShows.moved rfl, ?_, ?_, ?_, ?_⟩, fun x _ => rfl, fun x hx => Or.inl hx⟩
  · simp only [Op.run, moveBy_i, hNext, Sheet.newline]
    omega
  · simp only [Sheet.newline]
    omega
  · simp only [Sheet.newline]
    omega
  · simp only [Sheet.newline]
    omega

/-! ## `print_string` -/

/-- One character of a text on the sheet. -/
def typeChar (sheet : Sheet Cell) (c : Nat) : Sheet Cell :=
  if c = '\n'.toNat then sheet.newline 80 else sheet.put (Cell.mk (c % 256) 0x0F)

/-- A text on the sheet. -/
def typeText (sheet : Sheet Cell) (str : List Nat) : Sheet Cell := str.foldl typeChar sheet

/-- **One turn** of the loop of `print_string` types one character. -/
theorem Displays.turn (h : Displays s sheet) (c : Nat) :
    Displays (runAll (printStringTurn c) s) (typeChar sheet c) ∧
      Framed s (runAll (printStringTurn c) s) := by
  unfold printStringTurn typeChar
  by_cases hLine : c = '\n'.toNat
  · rw [if_pos hLine, if_pos hLine]
    obtain ⟨hNear, hFramed⟩ := h.newline
    obtain ⟨hSettled, hFramed'⟩ := hNear.settle
    exact ⟨hSettled, hFramed.trans hFramed'⟩
  · rw [if_neg hLine, if_neg hLine]
    obtain ⟨hReady, hFirst⟩ := h.near.settle
    obtain ⟨hNear, hFramed⟩ := hReady.put c
    -- `(*j)++` does not show
    have hCounted : Near (Op.count.run (Op.advance.run ((Op.print c).run
        (Op.addLineIfNeeded.run s)))) (sheet.put (Cell.mk (c % 256) 0x0F)) (top 80 25 sheet.pen) :=
      hNear.congr rfl rfl
    obtain ⟨hSettled, hFramed'⟩ := hCounted.settle
    have hQuiet : Framed s (Op.count.run (Op.advance.run ((Op.print c).run
        (Op.addLineIfNeeded.run s)))) :=
      ⟨(hFirst.trans hFramed).outside, (hFirst.trans hFramed).written⟩
    exact ⟨hSettled, hQuiet.trans hFramed'⟩

theorem runAll_append (ops ops' : List Op) (s : Terminal) :
    runAll (ops ++ ops') s = runAll ops' (runAll ops s) := List.foldl_append

/-- The loop of `print_string`. -/
theorem Displays.printString (h : Displays s sheet) (str : List Nat) :
    Displays (runAll (printString str) s) (typeText sheet str) ∧
      Framed s (runAll (printString str) s) := by
  unfold Console.printString
  rw [runAll_append]
  -- `move(*i)` does not show
  change Displays (runAll (str.flatMap printStringTurn) s) _ ∧
    Framed s (runAll (str.flatMap printStringTurn) s)
  induction str generalizing s sheet with
  | nil => exact ⟨h, Framed.refl s⟩
  | cons c str ih =>
      obtain ⟨hTurn, hFramed⟩ := h.turn c
      obtain ⟨hRest, hFramed'⟩ := ih hTurn
      rw [List.flatMap_cons, runAll_append]
      exact ⟨hRest, hFramed.trans hFramed'⟩

/-- **`print_string` refines typing on the sheet.**  From any screen and any cursor on it,
only cells of the screen are written and the cursor stays on the screen.  The screen is
then the window on the sheet, below as many rows as bring the pen into it and no more. -/
theorem print_string_refines (hOn : OnScreen s.i) (str : List Nat) :
    ∃ t : Nat, Framed s (runAll (printString str) s) ∧ OnScreen (runAll (printString str) s).i ∧
      (runAll (printString str) s).i = ((typeText (sheetOf s) str).pen : Int) - 80 * t ∧
      (∀ x, OnScreen x → (runAll (printString str) s).screen x =
        (typeText (sheetOf s) str).cell (80 * t + x.toNat)) ∧
      (typeText (sheetOf s) str).pen < 80 * (t + 25) ∧
      ∀ t', (typeText (sheetOf s) str).pen < 80 * (t' + 25) → t ≤ t' := by
  obtain ⟨hDisplays, hFramed⟩ := (displays_sheetOf hOn).printString str
  have hNear := hDisplays.near
  refine ⟨_, hFramed, hDisplays.onScreen, hNear.cursor, fun x hx => ?_, pen_lt_foot (by decide),
    fun t' hFoot => ?_⟩
  · obtain ⟨k, rfl⟩ : ∃ k : Nat, x = k := ⟨x.toNat, by have := hx.1; omega⟩
    have hk : k < 80 * 25 := by have := hx.2; omega
    exact hNear.shows.cells k hk
  · by_contra hLess
    have hAbove := foot_le_pen (by decide : (0 : Nat) < 80) (Nat.lt_of_not_le hLess)
    omega

/-- A cleared screen with the cursor at its last cell. -/
def lastCell : Terminal := { start.console with i := 1999 }

/-- Two letters at the last cell: the screen is scrolled by one row. -/
theorem print_string_refines_lastCell :
    (runAll (printString ['a'.toNat, 'b'.toNat]) lastCell).i = 1921 ∧
      (runAll (printString ['a'.toNat, 'b'.toNat]) lastCell).screen 1920 =
        Cell.mk 'b'.toNat 0x0F := by
  obtain ⟨t, -, -, hCursor, hScreen, hFoot, hLeast⟩ :=
    print_string_refines (s := lastCell) (by decide) ['a'.toNat, 'b'.toNat]
  have hPen : (typeText (sheetOf lastCell) ['a'.toNat, 'b'.toNat]).pen = 2001 := by decide
  rw [hPen] at hCursor hFoot
  have hTop : t = 1 := Nat.le_antisymm (hLeast 1 (by rw [hPen]; omega)) (by omega)
  subst hTop
  refine ⟨hCursor, (hScreen 1920 (by decide)).trans ?_⟩
  decide

end MiniKernel.Ports.ConsoleText
