import MiniKernel.Ports.CommandBuffer
import MiniKernel.Ports.ConsoleLines
import MiniKernel.Ports.ConsoleReports

/-!
# What is typed is what is shown

`keyboard_handler` echoes each key: it prints a character at the cursor, moves over the
cell for a space, and clears the cell before it for a backspace.  Programs print in
between.  The account of such a session is one text, `State.text`, to which calls and keys
add and from which a backspace removes the last character.

`session_shows`: the screen shows that text, as if it had been printed on the sheet that
the screen was at first.  The keys do not scroll the screen, so the cursor must not leave
it; Enter goes by `j`, which must be the column; and a backspace must find a character of
its own line, or it erases what has not been written.

Colours are left out: `clear` keeps the one there is.
-/

namespace MiniKernel.Ports.ConsoleEcho

open MiniKernel.Verified.Trace
open MiniKernel.Verified.Windows
open MiniKernel.Ports.Console
open MiniKernel.Ports.Console.Terminal
open MiniKernel.Ports.ConsoleText
open MiniKernel.Ports.ConsoleLines (Action)
open MiniKernel.Ports.ConsoleReports
open MiniKernel.Ports.CommandBuffer

/-- The screen, and the text of the session. -/
structure State where
  console : Terminal
  text : List Nat

/-- The keys that are echoed, where they are. -/
inductive Echoed (s : State) (c : Nat) : Prop
  | char (h : Printable c) (hRoom : s.console.i < 1999)
  | enter (h : c = CommandBuffer.enter) (hRoom : s.console.i < 24 * 80)
      (hColumn : s.console.j = s.console.i % 80)
  | erase (h : c = backspace) (hRoom : 0 < s.console.i) (hSome : s.text ≠ [])
      (hLine : s.text.getLast? ≠ some CommandBuffer.enter)

instance (s : State) (c : Nat) : Decidable (Echoed s c) :=
  decidable_of_iff
    ((Printable c ∧ s.console.i < 1999) ∨
      (c = CommandBuffer.enter ∧ s.console.i < 24 * 80 ∧ s.console.j = s.console.i % 80) ∨
      (c = backspace ∧ 0 < s.console.i ∧ s.text ≠ [] ∧
        s.text.getLast? ≠ some CommandBuffer.enter))
    ⟨fun h => match h with
      | .inl ⟨hChar, hRoom⟩ => .char hChar hRoom
      | .inr (.inl ⟨hEnter, hRoom, hColumn⟩) => .enter hEnter hRoom hColumn
      | .inr (.inr ⟨hBack, hRoom, hSome, hLine⟩) => .erase hBack hRoom hSome hLine,
     fun h => match h with
      | .char hChar hRoom => .inl ⟨hChar, hRoom⟩
      | .enter hEnter hRoom hColumn => .inr (.inl ⟨hEnter, hRoom, hColumn⟩)
      | .erase hBack hRoom hSome hLine => .inr (.inr ⟨hBack, hRoom, hSome, hLine⟩)⟩

/-- What a key does to the text. -/
def typeKey (text : List Nat) (c : Nat) : List Nat :=
  if c = backspace then text.dropLast else text ++ [c]

/-- A whole call, or a key that is echoed. -/
def step (s : State) : Action → Option State
  | .call c => some { console := runAll c.ops s.console, text := s.text ++ text c }
  | .key code stray =>
      if Echoed s (read code) then
        some { console := s.console.keyboardHandler (read code) stray
               text := typeKey s.text (read code) }
      else none

/-! ## The sheet of a screen -/

/-- The screen shows the sheet from some row on, in letters, with the cursor at the pen. -/
structure Follows (s : Terminal) (sheet : Sheet Cell) : Prop where
  onScreen : OnScreen s.i
  rows : ∃ t, From 80 t Cell.char (sheetOf s) sheet
  ahead : Ahead Cell.char blank sheet

variable {s s' : Terminal} {sheet : Sheet Cell}

/-- What is displayed is the sheet from the window's first row on. -/
theorem displays_from {α : Type} (h : Displays s sheet) (f : Cell → α) :
    From 80 (top 80 25 sheet.pen) f (sheetOf s) sheet := by
  obtain ⟨hShows, hCursor, hLow, hHigh, -⟩ := h.near
  constructor
  · simp only [sheetOf]
    omega
  · intro k
    simp only [sheetOf]
    by_cases hk : k < 2000
    · rw [if_pos hk, hShows.cells k hk]
    · rw [if_neg hk, hShows.below _ (by omega)]

/-- The same text leaves the same sheets the same. -/
theorem typeText_from {α : Type} {f : Cell → α} {t : Nat} {a b : Sheet Cell}
    (h : From 80 t f a b) (str : List Nat) : From 80 t f (typeText a str) (typeText b str) := by
  induction str generalizing a b with
  | nil => exact h
  | cons c str ih =>
      refine ih ?_
      unfold typeChar
      split
      · exact h.newline
      · exact h.put rfl

theorem typeText_ahead {α : Type} {f : Cell → α} (h : Ahead f blank sheet) (str : List Nat) :
    Ahead f blank (typeText sheet str) := by
  induction str generalizing sheet with
  | nil => exact h
  | cons c str ih =>
      refine ih ?_
      unfold typeChar
      split
      · exact h.newline
      · exact h.put _

/-- **A call** is followed by its text. -/
theorem Follows.call (h : Follows s sheet) (c : Call) :
    Follows (runAll c.ops s) (typeText sheet (text c)) ∧ Framed s (runAll c.ops s) := by
  obtain ⟨t, hRows⟩ := h.rows
  obtain ⟨hDisplays, hFramed⟩ := call_displays (displays_sheetOf h.onScreen) c
  have hShown := (displays_from hDisplays Cell.char).trans (typeText_from hRows (text c))
  exact ⟨⟨hDisplays.onScreen, ⟨_, hShown⟩, typeText_ahead h.ahead _⟩, hFramed⟩

/-! ## The keys -/

/-- What a printable key leaves: a space prints nothing. -/
theorem key_char {c : Nat} (hChar : Printable c) (hLow : 0 ≤ s.i) (hRoom : s.i < 1999)
    (stray : Cursor) :
    (s.keyboardHandler c stray).i = s.i + 1 ∧
      (s.keyboardHandler c stray).screen =
        (if c = ' '.toNat then s.screen else setCell s.screen s.i (Cell.mk (c % 256) 0x0F)) ∧
      ∀ x ∈ (s.keyboardHandler c stray).written, x ∈ s.written ∨ x = s.i := by
  obtain ⟨hFirst, hLast⟩ := hChar
  have hNext : int32 (s.i + 1) = s.i + 1 := int32_eq (by omega) (by omega)
  have hEnter : c ≠ '\n'.toNat := fun h => by subst h; exact absurd hFirst (by decide)
  have hBack : c ≠ 8 := by omega
  have hArrows : c ≠ keyUp ∧ c ≠ keyDown ∧ c ≠ keyLeft ∧ c ≠ keyRight := by
    unfold keyUp keyDown keyLeft keyRight
    omega
  rw [keyboardHandler_onScreen c stray (by omega)]
  by_cases hSpace : c = ' '.toNat
  · subst hSpace
    refine ⟨hNext, rfl, fun x hx => Or.inl hx⟩
  · rw [keyBranch_char (by omega) hEnter hSpace hBack hArrows.1 hArrows.2.1 hArrows.2.2.1
      hArrows.2.2.2, if_neg hSpace]
    refine ⟨hNext, rfl, fun x hx => ?_⟩
    simpa [or_comm] using hx

/-- What Enter leaves, when `j` is the column. -/
theorem key_enter (hLow : 0 ≤ s.i) (hRoom : s.i < 24 * 80) (hColumn : s.j = s.i % 80)
    (stray : Cursor) :
    (s.keyboardHandler enter stray).i = s.i + (80 - s.i % 80) ∧
      (s.keyboardHandler enter stray).screen = s.screen ∧
      (s.keyboardHandler enter stray).written = s.written := by
  rw [keyboardHandler_onScreen enter stray (by omega)]
  refine ⟨?_, rfl, rfl⟩
  show int32 (int32 (s.i + 80) + -s.j) = _
  rw [int32_eq (show -2 ^ 31 ≤ s.i + 80 by omega) (by omega), hColumn,
    int32_eq (by omega) (by omega)]
  omega

/-- What a backspace leaves. -/
theorem key_erase (hLow : 0 < s.i) (hOn : s.i < 2000) (stray : Cursor) :
    (s.keyboardHandler backspace stray).i = s.i - 1 ∧
      (s.keyboardHandler backspace stray).screen =
        setCell s.screen (s.i - 1) { s.screen (s.i - 1) with char := ' '.toNat } ∧
      (s.keyboardHandler backspace stray).written = (s.i - 1) :: s.written := by
  have hBack : int32 (s.i + -1) = s.i - 1 := int32_eq (by omega) (by omega)
  rw [keyboardHandler_onScreen backspace stray hOn]
  refine ⟨hBack, ?_, ?_⟩
  · show setCell s.screen (int32 (s.i + -1))
      { s.screen (int32 (s.i + -1)) with char := ' '.toNat } = _
    rw [hBack]
  · show int32 (s.i + -1) :: s.written = _
    rw [hBack]

/-- The sheet of a screen of which one cell has been written. -/
theorem sheetOf_setCell {x : Int} {cell : Cell} (hx : OnScreen x)
    (hScreen : s'.screen = setCell s.screen x cell) (k : Nat) :
    (sheetOf s').cell k = if k = x.toNat then cell else (sheetOf s).cell k := by
  obtain ⟨hLow, hHigh⟩ := hx
  simp only [sheetOf, view, hScreen]
  by_cases hk : k = x.toNat
  · rw [if_pos (by omega), if_pos hk, show (k : Int) = x by omega, setCell_self]
  · rw [if_neg hk, setCell_ne _ _ (by omega)]

theorem framed_setCell {x : Int} {cell : Cell} (hx : OnScreen x)
    (hScreen : s'.screen = setCell s.screen x cell)
    (hWritten : ∀ y ∈ s'.written, y ∈ s.written ∨ y = x) : Framed s s' where
  outside y hy := by
    rw [hScreen]
    exact setCell_ne _ _ fun hEq : y = x => hy (hEq ▸ hx)
  written y hy := (hWritten y hy).imp_right fun hEq : y = x => hEq ▸ hx

/-- **A printable key.** -/
theorem Follows.char (h : Follows s sheet) {c : Nat} (hChar : Printable c) (hRoom : s.i < 1999)
    (stray : Cursor) :
    Follows (s.keyboardHandler c stray) (typeText sheet [c]) ∧
      Framed s (s.keyboardHandler c stray) := by
  have hOn := h.onScreen
  obtain ⟨hMoved, hScreen, hWritten⟩ := key_char hChar hOn.1 hRoom stray
  obtain ⟨t, hRows⟩ := h.rows
  have hText : typeText sheet [c] = sheet.put (Cell.mk (c % 256) 0x0F) :=
    if_neg fun hEq : c = '\n'.toNat => absurd (hEq ▸ hChar) (by decide)
  have hPen : (s.keyboardHandler c stray).i.toNat = s.i.toNat + 1 := by
    have hLow := hOn.1
    omega
  have hHere : From 80 0 Cell.char (sheetOf (s.keyboardHandler c stray))
      ((sheetOf s).put (Cell.mk (c % 256) 0x0F)) := by
    refine ⟨by simp only [Sheet.put, sheetOf, hPen, Nat.zero_add, Nat.mul_zero], fun k => ?_⟩
    rw [Nat.mul_zero, Nat.zero_add]
    by_cases hSpace : c = ' '.toNat
    · -- the cell at the cursor is blank already
      rw [if_pos hSpace] at hScreen
      have hSame : (sheetOf (s.keyboardHandler c stray)).cell k = (sheetOf s).cell k := by
        simp only [sheetOf, view, hScreen]
      rw [hSame]
      simp only [Sheet.put]
      split
      · next hEq =>
          rw [hSpace, hEq, ← hRows.cells, ← hRows.pen]
          exact (h.ahead _ (Nat.le_refl _)).symm
      · rfl
    · rw [if_neg hSpace] at hScreen
      rw [sheetOf_setCell hOn hScreen]
      rfl
  have hShown := hHere.trans (hRows.put (a := Cell.mk (c % 256) 0x0F) rfl)
  refine ⟨⟨?_, ⟨_, hText ▸ hShown⟩, typeText_ahead h.ahead _⟩, ?_⟩
  · unfold OnScreen at hOn ⊢
    omega
  · by_cases hSpace : c = ' '.toNat
    · rw [if_pos hSpace] at hScreen
      exact ⟨fun y _ => congrFun hScreen y,
        fun y hy => (hWritten y hy).imp_right fun hEq : y = s.i => hEq ▸ hOn⟩
    · rw [if_neg hSpace] at hScreen
      exact framed_setCell hOn hScreen hWritten

/-- **Enter.** -/
theorem Follows.enter (h : Follows s sheet) (hRoom : s.i < 24 * 80) (hColumn : s.j = s.i % 80)
    (stray : Cursor) :
    Follows (s.keyboardHandler CommandBuffer.enter stray)
        (typeText sheet [CommandBuffer.enter]) ∧
      Framed s (s.keyboardHandler CommandBuffer.enter stray) := by
  have hOn := h.onScreen
  obtain ⟨hMoved, hScreen, hWritten⟩ := key_enter hOn.1 hRoom hColumn stray
  obtain ⟨t, hRows⟩ := h.rows
  have hHere : From 80 0 Cell.char (sheetOf (s.keyboardHandler CommandBuffer.enter stray))
      ((sheetOf s).newline 80) := by
    have hLow := hOn.1
    refine ⟨?_, fun k => ?_⟩
    · simp only [Sheet.newline, sheetOf]
      omega
    · simp only [Sheet.newline, sheetOf, view, hScreen, Nat.mul_zero, Nat.zero_add]
  refine ⟨⟨?_, ⟨_, hHere.trans hRows.newline⟩, typeText_ahead h.ahead _⟩, ?_⟩
  · unfold OnScreen at hOn ⊢
    omega
  · exact ⟨fun y _ => congrFun hScreen y, fun y hy => Or.inl (hWritten ▸ hy)⟩

/-- **A backspace** takes the last character back. -/
theorem Follows.erase {a : Cell} (h : Follows s (sheet.put a))
    (hAhead : Ahead Cell.char blank sheet) (hRoom : 0 < s.i) (stray : Cursor) :
    Follows (s.keyboardHandler backspace stray) sheet ∧
      Framed s (s.keyboardHandler backspace stray) := by
  have hOn := h.onScreen
  have hHigh := hOn.2
  obtain ⟨hMoved, hScreen, hWritten⟩ := key_erase hRoom hHigh stray
  obtain ⟨t, hRows⟩ := h.rows
  have hBefore : OnScreen (s.i - 1) := ⟨by omega, by omega⟩
  have hPen : sheet.pen + 1 = 80 * t + s.i.toNat := hRows.pen
  have hHere : From 80 t Cell.char (sheetOf (s.keyboardHandler backspace stray)) sheet := by
    refine ⟨?_, fun k => ?_⟩
    · simp only [sheetOf, hMoved]
      omega
    · rw [sheetOf_setCell hBefore hScreen]
      split
      · exact hAhead _ (by omega)
      · have hSame := hRows.cells k
        simp only [Sheet.put] at hSame
        rwa [if_neg (by omega)] at hSame
  refine ⟨⟨?_, ⟨t, hHere⟩, hAhead⟩, framed_setCell hBefore hScreen fun y hy => ?_⟩
  · rw [hMoved]
    exact hBefore
  · rw [hWritten, List.mem_cons] at hy
    exact hy.symm

/-! ## Sessions -/

/-- What a session has brought about on a screen. -/
structure Session (console : Terminal) (s : State) : Prop where
  follows : Follows s.console (typeText (sheetOf console) s.text)
  framed : Framed console s.console

theorem sheetOf_ahead {console : Terminal} (hOn : OnScreen console.i)
    (hBlank : ∀ x, console.i ≤ x → x < 2000 → (console.screen x).char = ' '.toNat) :
    Ahead Cell.char blank (sheetOf console) := by
  have hLow := hOn.1
  intro k hk
  simp only [sheetOf] at hk ⊢
  split
  · exact hBlank k (by omega) (by omega)
  · rfl

/-- **One call or key.** -/
theorem Session.step {console : Terminal} (hAhead : Ahead Cell.char blank (sheetOf console))
    {s s' : State} {a : Action} (h : Session console s) (hStep : ConsoleEcho.step s a = some s') :
    Session console s' := by
  obtain ⟨hFollows, hFramed⟩ := h
  cases a with
  | call c =>
      obtain rfl := Option.some.inj hStep
      obtain ⟨hNext, hFrame⟩ := hFollows.call c
      rw [← typeText_append] at hNext
      exact ⟨hNext, hFramed.trans hFrame⟩
  | key code stray =>
      obtain ⟨hEchoed, hStep⟩ := Option.ite_none_right_eq_some.mp hStep
      obtain rfl := Option.some.inj hStep
      cases hEchoed with
      | char hChar hRoom =>
          obtain ⟨hNext, hFrame⟩ := hFollows.char hChar hRoom stray
          have hKey : typeKey s.text (read code) = s.text ++ [read code] :=
            if_neg fun hEq => absurd (hEq ▸ hChar) (by decide)
          refine ⟨?_, hFramed.trans hFrame⟩
          simp only [hKey, typeText_append]
          exact hNext
      | enter hEnter hRoom hColumn =>
          obtain ⟨hNext, hFrame⟩ := hFollows.enter hRoom hColumn stray
          have hKey : typeKey s.text enter = s.text ++ [enter] := if_neg (by decide)
          rw [hEnter]
          refine ⟨?_, hFramed.trans hFrame⟩
          simp only [hKey, typeText_append]
          exact hNext
      | erase hBack hRoom hSome hLine =>
          -- the last character of the text is the one before the cursor
          obtain ⟨init, last, hText⟩ := s.text.eq_nil_or_concat'.resolve_left hSome
          rw [hText, List.getLast?_concat, ne_eq, Option.some.injEq] at hLine
          have hPut : typeText (sheetOf console) s.text =
              (typeText (sheetOf console) init).put (Cell.mk (last % 256) 0x0F) := by
            rw [hText, typeText_append]
            exact if_neg hLine
          rw [hPut] at hFollows
          obtain ⟨hNext, hFrame⟩ := hFollows.erase (typeText_ahead hAhead init) hRoom stray
          have hKey : typeKey s.text backspace = init := by
            rw [hText]
            exact (if_pos rfl).trans List.dropLast_concat
          rw [hBack]
          refine ⟨?_, hFramed.trans hFrame⟩
          simp only [hKey]
          exact hNext

/-- **The screen shows the session.**  From any screen that is blank from the cursor on,
and however calls and keys interleave, the letters on the screen are those of the text of
the session on the sheet that the screen was, from some row on; the cursor is behind the
text; and only cells of the screen have been written. -/
theorem session_shows {console : Terminal} (hOn : OnScreen console.i)
    (hBlank : ∀ x, console.i ≤ x → x < 2000 → (console.screen x).char = ' '.toNat) {s : State}
    {actions : List Action} (hRun : exec step ⟨console, []⟩ actions = some s) :
    Framed console s.console ∧ OnScreen s.console.i ∧
      ∃ t : Nat, s.console.i = ((typeText (sheetOf console) s.text).pen : Int) - 80 * t ∧
        ∀ x, OnScreen x → (s.console.screen x).char =
          ((typeText (sheetOf console) s.text).cell (80 * t + x.toNat)).char := by
  have hAhead := sheetOf_ahead hOn hBlank
  have hStart : Session console ⟨console, []⟩ :=
    { follows := ⟨hOn, ⟨0, by simp [typeText], fun k => by simp [typeText]⟩, hAhead⟩
      framed := Framed.refl console }
  obtain ⟨⟨hHere, ⟨t, hRows⟩, -⟩, hFramed⟩ :=
    exec_invariant (fun _ _ _ h hStep => h.step hAhead hStep) hStart hRun
  have hPen : (typeText (sheetOf console) s.text).pen = 80 * t + s.console.i.toNat := hRows.pen
  refine ⟨hFramed, hHere, t, ?_, fun x hx => ?_⟩
  · have hLow := hHere.1
    omega
  · obtain ⟨k, rfl⟩ : ∃ k : Nat, x = k := ⟨x.toNat, by have hLow := hx.1; omega⟩
    have hk : k < 2000 := by
      have hHigh := hx.2
      omega
    rw [Int.toNat_natCast, hRows.cells k]
    simp only [sheetOf, if_pos hk, view]

/-- A prompt, `hi`, of which the second letter is erased, and Enter. -/
def promptAndKeys : List Action :=
  [.call (.printString (chars "my>>os: ")), .key 0x23 .i, .key 0x17 .i, .key 0x0E .i, .key 0x1C .i]

theorem session_shows_prompt : ∃ s, exec step ⟨start.console, []⟩ promptAndKeys = some s ∧
    s.text = chars "my>>os: h\n" ∧ s.console.i = 480 ∧
      (s.console.screen 408).char = 'h'.toNat ∧ (s.console.screen 409).char = ' '.toNat := by
  have hView : ∃ s ∈ exec step ⟨start.console, []⟩ promptAndKeys,
      s.text = chars "my>>os: h\n" ∧ s.console.i = 480 := by
    decide +kernel
  obtain ⟨s, hRun, hText, hCursor⟩ := hView
  obtain ⟨-, -, t, hPen, hCells⟩ :=
    session_shows (show OnScreen start.console.i by decide) (fun _ _ _ => rfl) hRun
  have hTyped : (typeText (sheetOf start.console) (chars "my>>os: h\n")).pen = 480 := by decide
  rw [hText, hTyped, hCursor] at hPen
  obtain rfl : t = 0 := by omega
  refine ⟨s, hRun, hText, hCursor, ?_, ?_⟩
  · rw [hCells 408 (by decide), hText]
    decide
  · rw [hCells 409 (by decide), hText]
    decide

end MiniKernel.Ports.ConsoleEcho
