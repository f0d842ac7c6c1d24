import MiniKernel.Ports.ConsoleNumbers

/-!
# Where Enter leads

A new line of `print_string` goes by the column of the cursor, `i % 80`; Enter goes by `j`,
which counts the characters of `print_string` and the keys since the last new line, but not
the digits of `print_number` and `print_hex`, and which does not begin again with a row.
`Line` is what has been written since the last new line, and `Line.Fits` is the condition
under which `j` is the column; `enter_iff` says that Enter leads to the next row exactly
then.
-/

namespace MiniKernel.Ports.ConsoleLines

open MiniKernel.Verified.Trace
open MiniKernel.Ports.Console
open MiniKernel.Ports.Console.Terminal
open MiniKernel.Ports.ConsoleText
open MiniKernel.Ports.ConsoleNumbers

/-! ## Calls and keys -/

inductive Action
  | call (c : Call)
  | key (code : Nat) (stray : Cursor)
  deriving Repr, DecidableEq

/-- A whole call, or one key. -/
def Action.run (a : Action) (s : Terminal) : Terminal :=
  match a with
  | .call c => runAll c.ops s
  | .key code stray => s.keyboardHandler (read code) stray

/-- A printable key, space or backspace. -/
def Press.Plain : Press → Prop
  | .char _ | .erase => True
  | .none | .enter => False

instance : (p : Press) → Decidable (Press.Plain p)
  | .char _ | .erase => .isTrue trivial
  | .none | .enter => .isFalse id

def Action.Plain : Action → Prop
  | .call _ => True
  | .key code _ => Press.Plain (press (read code))

instance : (a : Action) → Decidable a.Plain
  | .call _ => .isTrue trivial
  | .key code _ => inferInstanceAs (Decidable (Press.Plain (press (read code))))

/-- A call or a plain key that does not reach the last row. -/
def step (s : Terminal) (a : Action) : Option Terminal :=
  if a.Plain ∧ (a.run s).i < 24 * 80 then some (a.run s) else none

/-! ## What is on the line -/

/-- The digits of `print_number` and `print_hex` since the last new line, and the characters
of `print_string` and keys, less the backspaces. -/
structure Line where
  digits : Nat
  typed : Int
  deriving Repr, DecidableEq

def Line.char (l : Line) (c : Nat) : Line :=
  if c = '\n'.toNat then ⟨0, 0⟩ else { l with typed := l.typed + 1 }

def Press.shift : Press → Int
  | .char _ => 1
  | .erase => -1
  | .none | .enter => 0

def Action.onLine (l : Line) : Action → Line
  | .call (.printString str) => str.foldl Line.char l
  | .call (.printNumber n) => { l with digits := l.digits + (decimal n).length }
  | .call (.printHex n) => { l with digits := l.digits + (hexadecimal n).length }
  | .key code _ => { l with typed := l.typed + Press.shift (press (read code)) }

/-- What is on the line after calls and keys. -/
def lineOf (actions : List Action) : Line := actions.foldl Action.onLine ⟨0, 0⟩

/-- What was typed is shorter than a row, and the digits fill whole rows.  `j` is an `int`;
the difference is zero as long as it has not overflowed. -/
def Line.Fits (l : Line) : Prop :=
  0 ≤ int32 l.typed ∧ int32 l.typed < 80 ∧
    (80 : Int) ∣ l.digits + (l.typed - int32 l.typed)

instance (l : Line) : Decidable l.Fits := inferInstanceAs (Decidable (_ ∧ _ ∧ _))

theorem Line.fits_iff {l : Line} (h : IsInt l.typed) :
    l.Fits ↔ 0 ≤ l.typed ∧ l.typed < 80 ∧ 80 ∣ l.digits := by
  unfold Line.Fits
  rw [int32_eq h.1 h.2]
  omega

/-! ## The counters -/

/-- `i` is in the column of all that is on the line, and `j` counts what was typed. -/
structure Counted (s : Terminal) (l : Line) : Prop where
  low : -2 ^ 31 ≤ s.i
  high : s.i ≤ 2000
  cursor : s.i % 80 = (l.digits + l.typed) % 80
  column : s.j = int32 l.typed

variable {s s' : Terminal} {l : Line}

theorem int32_add (x y : Int) : int32 (int32 x + y) = int32 (x + y) := by
  unfold int32
  omega

/-- `%` of C, above the screen. -/
theorem tmod_80 (x : Int) : x.tmod 80 = x % 80 ∧ (0 ≤ x ∨ x % 80 = 0) ∨
    x.tmod 80 = x % 80 - 80 ∧ x < 0 ∧ x % 80 ≠ 0 := by
  rw [Int.tmod_eq_emod]
  split <;> omega

/-- Scrolling keeps the column. -/
theorem Counted.settle (h : Counted s l) :
    Counted (Op.addLineIfNeeded.run s) l ∧ (Op.addLineIfNeeded.run s).i < 2000 := by
  obtain ⟨hLow, hHigh, hCursor, hColumn⟩ := h
  by_cases hFull : 2000 ≤ s.i
  · rw [addLineIfNeeded_full hFull hHigh]
    refine ⟨⟨?_, ?_, ?_, hColumn⟩, ?_⟩
    · simp only
      omega
    · simp only
      omega
    · simp only
      omega
    · simp only
      omega
  · rw [addLineIfNeeded_onScreen (by omega)]
    exact ⟨⟨hLow, hHigh, hCursor, hColumn⟩, by omega⟩

/-- A move of the cursor that is counted on the line. -/
theorem Counted.moved (h : Counted s l) {d : Int} {l' : Line} (hi : s'.i = s.i + d)
    (hLow : -2 ^ 31 ≤ s.i + d) (hHigh : s.i + d ≤ 2000)
    (hLine : l'.digits + l'.typed = l.digits + l.typed + d) (hj : s'.j = int32 l'.typed) :
    Counted s' l' where
  low := hi ▸ hLow
  high := hi ▸ hHigh
  cursor := by
    have hCursor := h.cursor
    rw [hi, hLine]
    omega
  column := hj

/-- A digit moves `i` only. -/
theorem Counted.digit (h : Counted s l) (c : Nat) :
    Counted (runAll (printDigit c) s) { l with digits := l.digits + 1 } := by
  obtain ⟨hSettled, hOn⟩ := h.settle
  have hLow := hSettled.low
  have hNext : int32 ((Op.addLineIfNeeded.run s).i + 1) = (Op.addLineIfNeeded.run s).i + 1 :=
    int32_eq (by omega) (by omega)
  refine hSettled.moved hNext (by omega) (by omega) ?_ hSettled.column
  push_cast
  omega

theorem Counted.digits (h : Counted s l) (cs : List Nat) :
    Counted (runAll (printDigits cs) s) { l with digits := l.digits + cs.length } := by
  unfold printDigits
  induction cs generalizing s l with
  | nil => exact h.settle.1
  | cons c cs ih =>
      have hRest := ih (h.digit c)
      rw [List.flatMap_cons, List.append_assoc, runAll_append, List.length_cons,
        Nat.add_comm cs.length, ← Nat.add_assoc]
      exact hRest

/-- A turn of `print_string`, from a cursor in front of the last cell's end. -/
theorem Counted.turn (h : Counted s l) (hOn : s.i < 2000) (c : Nat) :
    Counted (runAll (printStringTurn c) s) (l.char c) ∧
      (runAll (printStringTurn c) s).i < 2000 := by
  unfold printStringTurn Line.char
  by_cases hLine : c = '\n'.toNat
  · rw [if_pos hLine, if_pos hLine]
    obtain ⟨hLow, -, -, -⟩ := h
    have hMod := tmod_80 s.i
    have hNext : int32 (s.i + (80 - s.i.tmod 80)) = s.i + (80 - s.i.tmod 80) :=
      int32_eq (by omega) (by omega)
    have hi : (Op.restart.run (Op.newLine.run s)).i = s.i + (80 - s.i.tmod 80) := hNext
    have hStart : Counted (Op.restart.run (Op.newLine.run s)) ⟨0, 0⟩ := by
      refine ⟨?_, ?_, ?_, rfl⟩
      · rw [hi]
        omega
      · rw [hi]
        omega
      · rw [hi]
        simp only [Nat.cast_zero, add_zero, Int.zero_emod]
        omega
    exact hStart.settle
  · rw [if_neg hLine, if_neg hLine]
    obtain ⟨hSettled, hOn⟩ := h.settle
    have hLow := hSettled.low
    have hNext : int32 ((Op.addLineIfNeeded.run s).i + 1) = (Op.addLineIfNeeded.run s).i + 1 :=
      int32_eq (by omega) (by omega)
    have hTyped : Counted (Op.count.run (Op.advance.run ((Op.print c).run
        (Op.addLineIfNeeded.run s)))) { l with typed := l.typed + 1 } := by
      refine hSettled.moved hNext (by omega) (by omega) ?_ ?_
      · simp only
        omega
      · exact (congrArg (fun j => int32 (j + 1)) hSettled.column).trans (int32_add _ _)
    exact hTyped.settle

theorem Counted.text (h : Counted s l) (hOn : s.i < 2000) (str : List Nat) :
    Counted (runAll (printString str) s) (str.foldl Line.char l) := by
  unfold printString
  rw [runAll_append]
  change Counted (runAll (str.flatMap printStringTurn) s) _
  induction str generalizing s l with
  | nil => exact h
  | cons c str ih =>
      obtain ⟨hTurn, hOn'⟩ := h.turn hOn c
      rw [List.flatMap_cons, runAll_append]
      exact ih hTurn hOn'

/-- A call. -/
theorem Counted.call (h : Counted s l) (hOn : s.i < 2000) (c : Call) :
    Counted (runAll c.ops s) (Action.onLine l (.call c)) := by
  cases c with
  | printString str => exact h.text hOn str
  | printNumber n =>
      rw [Call.ops, printNumber_eq]
      exact h.digits (decimal n)
  | printHex n =>
      rw [Call.ops, printHex_eq]
      exact h.digits (hexadecimal n)

/-- A plain key moves both counters. -/
theorem keyboardHandler_counters {c : Nat} (stray : Cursor) (hOn : s.i < 2000)
    (hPlain : Press.Plain (press c)) :
    (s.keyboardHandler c stray).i = int32 (s.i + Press.shift (press c)) ∧
      (s.keyboardHandler c stray).j = int32 (s.j + Press.shift (press c)) := by
  rw [keyboardHandler_onScreen c stray hOn]
  induction c using key_cases with
  | none => exact hPlain.elim
  | enter => exact hPlain.elim
  | space => exact ⟨rfl, rfl⟩
  | back => exact ⟨rfl, rfl⟩
  | up => exact hPlain.elim
  | down => exact hPlain.elim
  | left => exact hPlain.elim
  | right => exact hPlain.elim
  | char c hNone hEnter hSpace hBack hUp hDown hLeft hRight =>
      rw [keyBranch_char hNone hEnter hSpace hBack hUp hDown hLeft hRight,
        press_char hNone hEnter hBack hUp hDown hLeft hRight]
      exact ⟨rfl, rfl⟩

theorem shift_bounds (p : Press) : -1 ≤ Press.shift p ∧ Press.shift p ≤ 1 := by
  cases p with
  | none => decide
  | enter => decide
  | erase => decide
  | char c => exact ⟨show (-1 : Int) ≤ 1 by decide, Int.le_refl 1⟩

/-- **One step.** -/
theorem Counted.step {a : Action} (h : Counted s l) (hOn : s.i < 24 * 80)
    (hStep : step s a = some s') : Counted s' (a.onLine l) ∧ s'.i < 24 * 80 := by
  unfold ConsoleLines.step at hStep
  rw [Option.ite_none_right_eq_some] at hStep
  obtain ⟨⟨hPlain, hAbove⟩, hRun⟩ := hStep
  cases hRun
  have hOnScreen : s.i < 2000 := by omega
  refine ⟨?_, hAbove⟩
  cases a with
  | call c => exact h.call hOnScreen c
  | key code stray =>
      obtain ⟨hi, hj⟩ := keyboardHandler_counters stray hOnScreen hPlain
      have hShift := shift_bounds (press (read code))
      have hLow := h.low
      -- the cursor does not wrap around, or it would be behind the last row
      have hNext : -2 ^ 31 ≤ s.i + Press.shift (press (read code)) := by
        by_contra hWrap
        simp only [Action.run] at hAbove
        rw [hi] at hAbove
        unfold int32 at hAbove
        omega
      refine h.moved (hi.trans (int32_eq hNext (by omega))) hNext (by omega) ?_ ?_
      · simp only [Action.onLine]
        omega
      · rw [Action.run, hj, h.column, int32_add]
        rfl

/-- A run. -/
theorem Counted.exec {actions : List Action} (h : Counted s l) (hOn : s.i < 24 * 80)
    (hRun : exec ConsoleLines.step s actions = some s') :
    Counted s' (actions.foldl Action.onLine l) ∧ s'.i < 24 * 80 := by
  induction actions generalizing s l with
  | nil =>
      cases hRun
      exact ⟨h, hOn⟩
  | cons a actions ih =>
      obtain ⟨s₁, hStep, hRest⟩ := exec_cons_some hRun
      obtain ⟨hCounted, hAbove⟩ := h.step hOn hStep
      exact ih hCounted hAbove hRest

/-! ## Enter -/

/-- Enter moves the cursor where a new line of `print_string` would, to column 0 of the
next row. -/
def EnterLands (s : Terminal) (stray : Cursor) : Prop :=
  (s.keyboardHandler '\n'.toNat stray).i = (runAll (printString ['\n'.toNat]) s).i ∧
    (s.keyboardHandler '\n'.toNat stray).i = 80 * (s.i / 80 + 1)

theorem enter_i (stray : Cursor) (hOn : s.i < 24 * 80) (hLow : -2 ^ 31 ≤ s.i) :
    (s.keyboardHandler '\n'.toNat stray).i = int32 (s.i + 80 - s.j) := by
  rw [keyboardHandler_onScreen _ stray (by omega)]
  exact congrArg (fun i => int32 (i + -s.j)) (int32_eq (x := s.i + 80) (by omega) (by omega))

theorem newline_i (hOn : s.i < 24 * 80) (hLow : -2 ^ 31 ≤ s.i) :
    (runAll (printString ['\n'.toNat]) s).i = s.i + (80 - s.i.tmod 80) := by
  have hMod := tmod_80 s.i
  have hNext : int32 (s.i + (80 - s.i.tmod 80)) = s.i + (80 - s.i.tmod 80) :=
    int32_eq (by omega) (by omega)
  have hLine : (Op.restart.run (Op.newLine.run s)).i = s.i + (80 - s.i.tmod 80) := hNext
  refine (congrArg Terminal.i (if_neg ?_)).trans hLine
  rw [hLine]
  omega

/-- In one state: `j` has to be the column. -/
theorem enterLands_iff (stray : Cursor) (hOn : s.i < 24 * 80) (hLow : -2 ^ 31 ≤ s.i)
    (hj : IsInt s.j) : EnterLands s stray ↔ s.j = s.i % 80 ∧ (0 ≤ s.i ∨ s.i % 80 = 0) := by
  obtain ⟨hjLow, hjHigh⟩ := hj
  have hEnter : int32 (s.i + 80 - s.j) = 80 * (s.i / 80 + 1) ↔ s.j = s.i % 80 := by
    unfold int32
    omega
  have hNewline : s.i + (80 - s.i.tmod 80) = 80 * (s.i / 80 + 1) ↔ 0 ≤ s.i ∨ s.i % 80 = 0 := by
    have hMod := tmod_80 s.i
    omega
  unfold EnterLands
  rw [enter_i stray hOn hLow, newline_i hOn hLow, ← hEnter, ← hNewline]
  constructor
  · rintro ⟨hSame, hRow⟩
    exact ⟨hRow, hSame ▸ hRow⟩
  · rintro ⟨hRow, hRow'⟩
    exact ⟨hRow.trans hRow'.symm, hRow⟩

/-- The line fits exactly if `j` is the column. -/
theorem Counted.fits_iff (h : Counted s l) : l.Fits ↔ s.j = s.i % 80 := by
  rw [h.column, h.cursor]
  unfold Line.Fits
  omega

theorem Counted.start : Counted start.console ⟨0, 0⟩ :=
  ⟨by decide, by decide, by decide, by decide⟩

/-- **Where Enter leads.**  After any calls and plain keys that stay above the last row,
Enter goes where a new line of `print_string` would, to the beginning of the next row,
exactly if the line fits and the cursor is not inside a row above the screen. -/
theorem enter_iff {actions : List Action} (hRun : exec step start.console actions = some s)
    (stray : Cursor) :
    EnterLands s stray ↔ (lineOf actions).Fits ∧ (0 ≤ s.i ∨ s.i % 80 = 0) := by
  obtain ⟨hCounted, hAbove⟩ := Counted.start.exec (by decide) hRun
  rw [lineOf, hCounted.fits_iff]
  refine enterLands_iff stray hAbove hCounted.low ?_
  rw [hCounted.column]
  exact isInt_int32 _

/-- A prompt on a line of its own, a letter, and a letter erased. -/
def prompt : List Action :=
  [.call (.printString ['o'.toNat, 'k'.toNat, '\n'.toNat, '>'.toNat]), .key 0x1E .j,
    .key 0x30 .elsewhere, .key 0x0E .elsewhere]

theorem enter_iff_prompt :
    ∃ s, exec step start.console prompt = some s ∧ EnterLands s .elsewhere := by
  obtain ⟨s, hRun⟩ := Option.isSome_iff_exists.mp
    (show (exec step start.console prompt).isSome by decide +kernel)
  have hOn : ∀ s ∈ exec step start.console prompt, 0 ≤ s.i := by decide +kernel
  exact ⟨s, hRun, (enter_iff hRun .elsewhere).mpr ⟨by decide, Or.inl (hOn s hRun)⟩⟩

/-- After `print_number(5)` Enter leads to column 1. -/
theorem enter_after_number :
    ¬∀ actions s stray, exec step start.console actions = some s → EnterLands s stray := by
  intro hLands
  obtain ⟨s, hRun⟩ := Option.isSome_iff_exists.mp
    (show (exec step start.console [.call (.printNumber 5)]).isSome by decide +kernel)
  have hEnter : ∀ s ∈ exec step start.console [.call (.printNumber 5)],
      (s.keyboardHandler '\n'.toNat .elsewhere).i = 481 ∧ s.i = 401 := by decide +kernel
  obtain ⟨hAt, hi⟩ := hEnter s hRun
  have hRow := (hLands _ s .elsewhere hRun).2
  rw [hAt, hi] at hRow
  exact absurd hRow (by decide)

end MiniKernel.Ports.ConsoleLines
