import MiniKernel.Verified.Trace

/-!
# Keyboard and screen

`keyboard.c`, `vga.c` and `keyboard_handler`.  The cursor `i`, a cell of the
80 by 25 screen, and the column count `j` are shared by the interrupt handler
and by all that prints, and a key may come between any two statements of a
print routine: a call is a list of operations, and `rest` is what is left of it.
`add_line_if_needed` is one operation: no key comes between its test and the
subtraction in `add_line`.

The handler calls `add_line` without its argument, so the pointer is whatever
is on the stack; an event says which of the two counters it points to, if any.
`int` wraps around, the line buffer is memory of its own, and `move`, which
only programs the hardware cursor, is left out of the handler.
-/

namespace MiniKernel.Ports.Console

open MiniKernel.Verified.Trace

/-- The result of `int` arithmetic. -/
def int32 (x : Int) : Int := (x + 2 ^ 31) % 2 ^ 32 - 2 ^ 31

theorem int32_eq {x : Int} (hLow : -2 ^ 31 ≤ x) (hHigh : x < 2 ^ 31) : int32 x = x := by
  unfold int32
  omega

def IsInt (x : Int) : Prop := -2 ^ 31 ≤ x ∧ x < 2 ^ 31

theorem isInt_int32 (x : Int) : IsInt (int32 x) := by
  unfold int32 IsInt
  omega

theorem isInt_zero : IsInt 0 := ⟨by decide, by decide⟩

/-! ## `read` -/

def keyNone : Nat := 0
def keyUp : Nat := 256
def keyDown : Nat := 257
def keyLeft : Nat := 258
def keyRight : Nat := 259

/-- `KEY_F1` and the eleven keys after it. -/
def keyF (n : Nat) : Nat := 259 + n

/-- The cases of `read`. -/
def keymap : List (Nat × Nat) :=
  [ (0x02, '1'.toNat), (0x03, '2'.toNat), (0x04, '3'.toNat), (0x05, '4'.toNat),
    (0x06, '5'.toNat), (0x07, '6'.toNat), (0x08, '7'.toNat), (0x09, '8'.toNat),
    (0x0A, '9'.toNat), (0x0B, '0'.toNat),
    (0x1E, 'a'.toNat), (0x30, 'b'.toNat), (0x2E, 'c'.toNat), (0x20, 'd'.toNat),
    (0x12, 'e'.toNat), (0x21, 'f'.toNat), (0x22, 'g'.toNat), (0x23, 'h'.toNat),
    (0x17, 'i'.toNat), (0x24, 'j'.toNat), (0x25, 'k'.toNat), (0x26, 'l'.toNat),
    (0x32, 'm'.toNat), (0x31, 'n'.toNat), (0x18, 'o'.toNat), (0x19, 'p'.toNat),
    (0x10, 'q'.toNat), (0x13, 'r'.toNat), (0x1F, 's'.toNat), (0x14, 't'.toNat),
    (0x16, 'u'.toNat), (0x2F, 'v'.toNat), (0x11, 'w'.toNat), (0x2D, 'x'.toNat),
    (0x15, 'y'.toNat), (0x2C, 'z'.toNat),
    (0x1C, '\n'.toNat), (0x39, ' '.toNat), (0x0E, 8),
    (0x48, keyUp), (0x50, keyDown), (0x4B, keyLeft), (0x4D, keyRight),
    (0x3B, keyF 1), (0x3C, keyF 2), (0x3D, keyF 3), (0x3E, keyF 4), (0x3F, keyF 5),
    (0x40, keyF 6), (0x41, keyF 7), (0x42, keyF 8), (0x43, keyF 9), (0x44, keyF 10),
    (0x57, keyF 11), (0x58, keyF 12) ]

/-- `read`, for a scan code. -/
def read (code : Nat) : Nat :=
  if code &&& 0x80 ≠ 0 then keyNone else (keymap.lookup code).getD keyNone

/-! ## The screen -/

structure Cell where
  char : Nat
  color : Nat
  deriving Repr, DecidableEq

/-- The variables of the handler, text memory by cells, and a log of the cells
that `print` and `clear` have written. -/
structure Terminal where
  i : Int
  j : Int
  screen : Int → Cell
  lastKey : Nat
  command : Int → Nat
  commandIndex : Int
  commandReady : Int
  written : List Int

def setCell (screen : Int → Cell) (i : Int) (cell : Cell) : Int → Cell :=
  fun k => if k = i then cell else screen k

namespace Terminal

/-- `print`. -/
def print (c : Nat) (i : Int) (s : Terminal) : Terminal :=
  { s with screen := setCell s.screen i (Cell.mk (c % 256) 0x0F), written := i :: s.written }

/-- `clear`. -/
def clear (i : Int) (s : Terminal) : Terminal :=
  { s with
    screen := setCell s.screen i { s.screen i with char := ' '.toNat }
    written := i :: s.written }

/-- The loops of `add_line`. -/
def scroll (s : Terminal) : Terminal :=
  let moved := (List.range' 1 24).foldl (fun screen (row : Nat) =>
    (List.range 80).foldl (fun screen (col : Nat) =>
      setCell screen ((row - 1) * 80 + col) (screen (row * 80 + col))) screen) s.screen
  { s with
    screen := (List.range 80).foldl (fun screen (col : Nat) =>
      setCell screen (24 * 80 + col) (Cell.mk ' '.toNat 0x0F)) moved }

end Terminal

/-- What the pointer of `add_line` points to. -/
inductive Cursor
  | i
  | j
  | elsewhere
  deriving Repr, DecidableEq

namespace Terminal

/-- `add_line`. -/
def addLine (cursor : Cursor) (s : Terminal) : Terminal :=
  let s := s.scroll
  match cursor with
  | .i => if 2000 ≤ s.i then { s with i := int32 (s.i - 80) } else s
  | .j => if 2000 ≤ s.j then { s with j := int32 (s.j - 80) } else s
  | .elsewhere => s

/-- `command[command_index] = c`. -/
def setChar (c : Nat) (s : Terminal) : Terminal :=
  { s with command := fun k => if k = s.commandIndex then c else s.command k }

/-- `command[command_index++] = c`. -/
def type (c : Nat) (s : Terminal) : Terminal :=
  { s.setChar (c % 256) with commandIndex := int32 (s.commandIndex + 1) }

/-- `i = i + n`. -/
def moveBy (n : Int) (s : Terminal) : Terminal := { s with i := int32 (s.i + n) }

/-- `j = j + n`. -/
def countBy (n : Int) (s : Terminal) : Terminal := { s with j := int32 (s.j + n) }

/-- `if(i >= 2000){ add_line(); }`. -/
def addLineUnpassed (stray : Cursor) (s : Terminal) : Terminal :=
  if 2000 ≤ s.i then s.addLine stray else s

/-- The branches of `keyboard_handler`. -/
def keyBranch (c : Nat) (stray : Cursor) (s : Terminal) : Terminal :=
  if c = 0 then s
  else if c = '\n'.toNat then
    let s := s.moveBy 80
    let s := s.moveBy (-s.j)
    { ({ s with j := 0 }).setChar 0 with commandReady := 1 }
  else if c = ' '.toNat then ((s.moveBy 1).countBy 1).type c
  else if c = 8 then
    let s := (s.moveBy (-1)).countBy (-1)
    (s.clear s.i).setChar 0
  else if c = keyUp then s.moveBy (-80)
  else if c = keyDown then addLineUnpassed stray (s.moveBy 80)
  else if c = keyLeft then s.moveBy (-1)
  else if c = keyRight then addLineUnpassed stray (s.moveBy 1)
  else (((s.print c s.i).moveBy 1).countBy 1).type c

/-- `keyboard_handler`, for what `read` returns. -/
def keyboardHandler (c : Nat) (stray : Cursor) (s : Terminal) : Terminal :=
  keyBranch c stray (addLineUnpassed stray { s with lastKey := c })

end Terminal

/-- The keys `keyboard_handler` tells apart, and all the others. -/
@[elab_as_elim]
theorem key_cases {motive : Nat → Prop} (none : motive 0) (enter : motive '\n'.toNat)
    (space : motive ' '.toNat) (back : motive 8) (up : motive keyUp) (down : motive keyDown)
    (left : motive keyLeft) (right : motive keyRight)
    (char : ∀ c, c ≠ 0 → c ≠ '\n'.toNat → c ≠ ' '.toNat → c ≠ 8 → c ≠ keyUp → c ≠ keyDown →
      c ≠ keyLeft → c ≠ keyRight → motive c) (c : Nat) : motive c := by
  by_cases hNone : c = 0
  · exact hNone ▸ none
  by_cases hEnter : c = '\n'.toNat
  · exact hEnter ▸ enter
  by_cases hSpace : c = ' '.toNat
  · exact hSpace ▸ space
  by_cases hBack : c = 8
  · exact hBack ▸ back
  by_cases hUp : c = keyUp
  · exact hUp ▸ up
  by_cases hDown : c = keyDown
  · exact hDown ▸ down
  by_cases hLeft : c = keyLeft
  · exact hLeft ▸ left
  by_cases hRight : c = keyRight
  · exact hRight ▸ right
  exact char c hNone hEnter hSpace hBack hUp hDown hLeft hRight

theorem keyBranch_char {c : Nat} (hNone : c ≠ 0) (hEnter : c ≠ '\n'.toNat)
    (hSpace : c ≠ ' '.toNat) (hBack : c ≠ 8) (hUp : c ≠ keyUp) (hDown : c ≠ keyDown)
    (hLeft : c ≠ keyLeft) (hRight : c ≠ keyRight) (stray : Cursor) (s : Terminal) :
    s.keyBranch c stray = (((s.print c s.i).moveBy 1).countBy 1).type c := by
  unfold Terminal.keyBranch
  rw [if_neg hNone, if_neg hEnter, if_neg hSpace, if_neg hBack, if_neg hUp, if_neg hDown,
    if_neg hLeft, if_neg hRight]

/-! ## Print routines -/

inductive Op
  /-- `add_line_if_needed(i)`. -/
  | addLineIfNeeded
  /-- `print(c, *i)`. -/
  | print (c : Nat)
  /-- `(*i)++`. -/
  | advance
  /-- `(*j)++`. -/
  | count
  /-- `*i += 80 - (*i % 80)`. -/
  | newLine
  /-- `*j = 0`. -/
  | restart
  /-- `move(*i)`. -/
  | move
  deriving Repr, DecidableEq

def Op.run (op : Op) (s : Terminal) : Terminal :=
  match op with
  | .addLineIfNeeded => if 2000 ≤ s.i then s.addLine .i else s
  | .print c => s.print c s.i
  | .advance => s.moveBy 1
  | .count => s.countBy 1
  | .newLine => s.moveBy (80 - s.i.tmod 80)
  | .restart => { s with j := 0 }
  | .move => s

/-- One turn of the loop of `print_string`. -/
def printStringTurn (c : Nat) : List Op :=
  if c = '\n'.toNat then [.newLine, .restart, .addLineIfNeeded]
  else [.addLineIfNeeded, .print c, .advance, .count, .addLineIfNeeded]

/-- `print_string`, for the characters before the first `'\0'`. -/
def printString (str : List Nat) : List Op := str.flatMap printStringTurn ++ [.move]

/-- A digit of `print_number` and `print_hex`. -/
def printDigit (c : Nat) : List Op := [.addLineIfNeeded, .print c, .advance]

/-- `print_number`: the branch for `0` prints the digit `0` in the same way. -/
def printNumber (n : Nat) : List Op :=
  (Nat.toDigits 10 n).flatMap (fun c => printDigit c.toNat) ++ [.addLineIfNeeded]

/-- `print_hex`. -/
def printHex (n : Nat) : List Op :=
  let hex := "0123456789ABCDEF".toList
  printDigit '0'.toNat ++ (printDigit 'x'.toNat ++
    ([28, 24, 20, 16, 12, 8, 4, 0].flatMap (fun shift =>
      printDigit (hex.getD ((n >>> shift) &&& 0xF) '0').toNat) ++ [.addLineIfNeeded]))

inductive Call
  | printString (str : List Nat)
  | printNumber (n : Nat)
  | printHex (n : Nat)
  deriving Repr, DecidableEq

def Call.ops : Call → List Op
  | .printString str => Console.printString str
  | .printNumber n => Console.printNumber n
  | .printHex n => Console.printHex n

/-! ## The line buffer -/

/-- The three shared variables. -/
@[ext] structure Buffer where
  command : Int → Nat
  index : Int
  ready : Int

def Buffer.setChar (c : Nat) (b : Buffer) : Buffer :=
  { b with command := fun k => if k = b.index then c else b.command k }

/-- What a key means for the line. -/
inductive Press
  | none
  | enter
  | erase
  | char (c : Nat)
  deriving Repr, DecidableEq

def press (c : Nat) : Press :=
  if c = 0 ∨ c = keyUp ∨ c = keyDown ∨ c = keyLeft ∨ c = keyRight then .none
  else if c = '\n'.toNat then .enter
  else if c = 8 then .erase
  else .char (c % 256)

theorem press_char {c : Nat} (hNone : c ≠ 0) (hEnter : c ≠ '\n'.toNat) (hBack : c ≠ 8)
    (hUp : c ≠ keyUp) (hDown : c ≠ keyDown) (hLeft : c ≠ keyLeft) (hRight : c ≠ keyRight) :
    press c = .char (c % 256) := by
  unfold press
  rw [if_neg (by simp [hNone, hUp, hDown, hLeft, hRight]), if_neg hEnter, if_neg hBack]

/-- No key stands for the character `'\0'`. -/
theorem press_read (code : Nat) : press (read code) ≠ .char 0 := by
  unfold Console.read
  split
  · decide
  · cases hKey : keymap.lookup code with
    | none => decide
    | some c =>
        obtain ⟨before, after, hSplit, -⟩ := List.lookup_eq_some_iff.mp hKey
        have hAll : ∀ entry ∈ keymap, press entry.2 ≠ .char 0 := by decide
        exact hAll (code, c) (by rw [hSplit]; simp)

/-- What the handler does to the buffer. -/
def Press.store (p : Press) (b : Buffer) : Buffer :=
  match p with
  | .none => b
  | .enter => { b.setChar 0 with ready := 1 }
  | .erase => b.setChar 0
  | .char c => { b.setChar c with index := int32 (b.index + 1) }

namespace Terminal

def buffer (s : Terminal) : Buffer := ⟨s.command, s.commandIndex, s.commandReady⟩

@[simp] theorem addLine_buffer (cursor : Cursor) (s : Terminal) :
    (s.addLine cursor).buffer = s.buffer := by
  cases cursor with
  | i => simp only [addLine]; split <;> rfl
  | j => simp only [addLine]; split <;> rfl
  | elsewhere => rfl

@[simp] theorem addLineUnpassed_buffer (stray : Cursor) (s : Terminal) :
    (s.addLineUnpassed stray).buffer = s.buffer := by
  unfold addLineUnpassed
  split
  · exact addLine_buffer stray s
  · rfl

theorem keyBranch_buffer (c : Nat) (stray : Cursor) (s : Terminal) :
    (s.keyBranch c stray).buffer = (press c).store s.buffer := by
  induction c using key_cases with
  | none => rfl
  | enter => rfl
  | space => rfl
  | back => rfl
  | up => rfl
  | down => exact addLineUnpassed_buffer stray _
  | left => rfl
  | right => exact addLineUnpassed_buffer stray _
  | char c hNone hEnter hSpace hBack hUp hDown hLeft hRight =>
      rw [keyBranch_char hNone hEnter hSpace hBack hUp hDown hLeft hRight,
        press_char hNone hEnter hBack hUp hDown hLeft hRight]
      rfl

/-- **What a key does to the buffer.** -/
theorem keyboardHandler_buffer (c : Nat) (stray : Cursor) (s : Terminal) :
    (s.keyboardHandler c stray).buffer = (press c).store s.buffer :=
  (keyBranch_buffer c stray _).trans
    (congrArg (press c).store (addLineUnpassed_buffer stray { s with lastKey := c }))

@[simp] theorem op_run_buffer (op : Op) (s : Terminal) : (op.run s).buffer = s.buffer := by
  cases op with
  | addLineIfNeeded =>
      simp only [Op.run]
      split
      · exact addLine_buffer .i s
      · rfl
  | print c => rfl
  | advance => rfl
  | count => rfl
  | newLine => rfl
  | restart => rfl
  | move => rfl

/-- A whole call. -/
def runAll (ops : List Op) (s : Terminal) : Terminal := ops.foldl (fun s op => op.run s) s

@[simp] theorem runAll_buffer (ops : List Op) (s : Terminal) :
    (runAll ops s).buffer = s.buffer := by
  induction ops generalizing s with
  | nil => rfl
  | cons op ops ih => exact (ih (op.run s)).trans (op_run_buffer op s)

@[simp] theorem runAll_command (ops : List Op) (s : Terminal) :
    (runAll ops s).command = s.command :=
  congrArg Buffer.command (runAll_buffer ops s)

@[simp] theorem runAll_commandIndex (ops : List Op) (s : Terminal) :
    (runAll ops s).commandIndex = s.commandIndex :=
  congrArg Buffer.index (runAll_buffer ops s)

@[simp] theorem runAll_commandReady (ops : List Op) (s : Terminal) :
    (runAll ops s).commandReady = s.commandReady :=
  congrArg Buffer.ready (runAll_buffer ops s)

end Terminal

/-! ## Runs -/

structure State where
  console : Terminal
  rest : List Op

inductive Event
  | key (code : Nat) (stray : Cursor)
  | call (c : Call)
  | run
  deriving Repr, DecidableEq

def step (s : State) : Event → Option State
  | .key code stray =>
      some { s with console := s.console.keyboardHandler (read code) stray }
  | .call c => if s.rest = [] then some { s with rest := c.ops } else none
  | .run =>
      match s.rest with
      | [] => none
      | op :: ops => some ⟨op.run s.console, ops⟩

/-- The cell is on the screen. -/
def OnScreen (i : Int) : Prop := 0 ≤ i ∧ i < 2000

instance (i : Int) : Decidable (OnScreen i) := inferInstanceAs (Decidable (_ ∧ _))

/-- A key event is over, or a call has returned. -/
def Over (e : Event) (s' : State) : Prop :=
  match e with
  | .key .. => True
  | _ => s'.rest = []

instance (e : Event) (s' : State) : Decidable (Over e s') := by
  unfold Over
  cases e <;> infer_instance

/-- Everything was written on the screen, and so is the cursor when an event or a
call is over. -/
structure Kept (e : Event) (s' : State) : Prop where
  written : ∀ x ∈ s'.console.written, OnScreen x
  cursor : Over e s' → OnScreen s'.console.i

/-- `i` after the first test of the handler. -/
def lineAdded (stray : Cursor) (s : Terminal) : Int :=
  if 2000 ≤ s.i ∧ stray = .i then s.i - 80 else s.i

/-- `j` after the first test of the handler. -/
def columnAdded (stray : Cursor) (s : Terminal) : Int :=
  if 2000 ≤ s.i ∧ 2000 ≤ s.j ∧ stray = .j then s.j - 80 else s.j

/-- With the counters at `i` and `j`, the key keeps the cursor on the screen, and
what it prints or clears too. -/
def KeyAt (c : Nat) (stray : Cursor) (i j : Int) : Prop :=
  if c = 0 then i < 2000
  else if c = '\n'.toNat then j ≤ i + 80 ∧ i + 80 < j + 2000
  else if c = ' '.toNat then i + 1 < 2000
  else if c = 8 then 1 ≤ i
  else if c = keyUp then 80 ≤ i
  else if c = keyDown then i + 80 < 2000 ∨ stray = .i
  else if c = keyLeft then 1 ≤ i
  else if c = keyRight then i + 1 < 2000 ∨ stray = .i
  else i + 1 < 2000

def KeyOk (c : Nat) (stray : Cursor) (s : Terminal) : Prop :=
  KeyAt c stray (lineAdded stray s) (columnAdded stray s)

instance (c : Nat) (stray : Cursor) (s : Terminal) : Decidable (KeyOk c stray s) := by
  unfold KeyOk KeyAt
  infer_instance

def EventOk (s : State) : Event → Prop
  | .key code stray => KeyOk (read code) stray s.console
  | _ => True

instance (s : State) : (e : Event) → Decidable (EventOk s e)
  | .key .. => inferInstanceAs (Decidable (KeyOk ..))
  | .call _ | .run => inferInstanceAs (Decidable True)

/-! ## The print routines need no help from the keyboard -/

/-- Every step past the cursor is followed by `add_line_if_needed` before the
next character.  `full`: the cursor may be at 2000, behind the last cell. -/
def Checked (full : Bool) : List Op → Prop
  | [] => full = false
  | .addLineIfNeeded :: ops => Checked false ops
  | .print _ :: ops => full = false ∧ Checked false ops
  | .advance :: ops => full = false ∧ Checked true ops
  | .newLine :: ops => full = false ∧ Checked true ops
  | .count :: ops | .restart :: ops | .move :: ops => Checked full ops

/-- What may start behind the last cell may start anywhere. -/
theorem Checked.weaken {full : Bool} {ops : List Op} (h : Checked full ops) :
    Checked false ops := by
  cases full with
  | false => exact h
  | true =>
      induction ops with
      | nil => cases h
      | cons op ops ih =>
          cases op with
          | addLineIfNeeded => exact h
          | print _ => cases h.1
          | advance => cases h.1
          | newLine => cases h.1
          | count => exact ih h
          | restart => exact ih h
          | move => exact ih h

theorem checked_digit {c : Nat} {ops : List Op} (h : Checked true ops) :
    Checked true (printDigit c ++ ops) :=
  ⟨rfl, rfl, h⟩

theorem checked_digits {α : Type} (f : α → Nat) (cs : List α) {ops : List Op}
    (h : Checked true ops) :
    Checked true (cs.flatMap (fun c => printDigit (f c)) ++ ops) := by
  induction cs with
  | nil => exact h
  | cons c cs ih =>
      rw [List.flatMap_cons, List.append_assoc]
      exact checked_digit ih

theorem checked_turn (c : Nat) {ops : List Op} (h : Checked false ops) :
    Checked false (printStringTurn c ++ ops) := by
  unfold printStringTurn
  split
  · exact ⟨rfl, h⟩
  · exact ⟨rfl, rfl, h⟩

theorem checked_printString (str : List Nat) : Checked false (printString str) := by
  unfold printString
  induction str with
  | nil => exact rfl
  | cons c str ih =>
      rw [List.flatMap_cons, List.append_assoc]
      exact checked_turn c ih

/-- The operations of every call are checked. -/
theorem Call.checked (c : Call) : Checked false c.ops := by
  have hLast : Checked true [Op.addLineIfNeeded] := rfl
  cases c with
  | printString str => exact checked_printString str
  | printNumber n => exact (checked_digits _ _ hLast).weaken
  | printHex n => exact (checked_digit (checked_digit (checked_digits _ _ hLast))).weaken

/-! ## One key -/

namespace Terminal

@[simp] theorem scroll_i (s : Terminal) : s.scroll.i = s.i := rfl
@[simp] theorem scroll_j (s : Terminal) : s.scroll.j = s.j := rfl
@[simp] theorem scroll_written (s : Terminal) : s.scroll.written = s.written := rfl

@[simp] theorem addLine_written (cursor : Cursor) (s : Terminal) :
    (s.addLine cursor).written = s.written := by
  cases cursor with
  | i => simp only [addLine]; split <;> rfl
  | j => simp only [addLine]; split <;> rfl
  | elsewhere => rfl

/-- The counters after `add_line`. -/
theorem addLine_counters {cursor : Cursor} {s : Terminal}
    (hi : 0 ≤ s.i ∧ s.i ≤ 2080) (hj : IsInt s.j) :
    (s.addLine cursor).i = (if 2000 ≤ s.i ∧ cursor = .i then s.i - 80 else s.i) ∧
      (s.addLine cursor).j = if 2000 ≤ s.j ∧ cursor = .j then s.j - 80 else s.j := by
  unfold IsInt at hj
  have hi' : int32 (s.i - 80) = s.i - 80 := int32_eq (by omega) (by omega)
  cases cursor with
  | i => by_cases h : 2000 ≤ s.i <;> simp [addLine, h, hi']
  | j =>
      by_cases h : 2000 ≤ s.j
      · have hj' : int32 (s.j - 80) = s.j - 80 := int32_eq (by omega) (by omega)
        simp [addLine, h, hj']
      · simp [addLine, h]
  | elsewhere => simp [addLine]

@[simp] theorem moveBy_i (n : Int) (s : Terminal) : (s.moveBy n).i = int32 (s.i + n) := rfl
@[simp] theorem moveBy_j (n : Int) (s : Terminal) : (s.moveBy n).j = s.j := rfl
@[simp] theorem moveBy_written (n : Int) (s : Terminal) :
    (s.moveBy n).written = s.written := rfl
@[simp] theorem countBy_i (n : Int) (s : Terminal) : (s.countBy n).i = s.i := rfl
@[simp] theorem countBy_j (n : Int) (s : Terminal) : (s.countBy n).j = int32 (s.j + n) := rfl
@[simp] theorem countBy_written (n : Int) (s : Terminal) :
    (s.countBy n).written = s.written := rfl
@[simp] theorem setChar_i (c : Nat) (s : Terminal) : (s.setChar c).i = s.i := rfl
@[simp] theorem setChar_j (c : Nat) (s : Terminal) : (s.setChar c).j = s.j := rfl
@[simp] theorem setChar_written (c : Nat) (s : Terminal) :
    (s.setChar c).written = s.written := rfl
@[simp] theorem type_i (c : Nat) (s : Terminal) : (s.type c).i = s.i := rfl
@[simp] theorem type_j (c : Nat) (s : Terminal) : (s.type c).j = s.j := rfl
@[simp] theorem type_written (c : Nat) (s : Terminal) : (s.type c).written = s.written := rfl
@[simp] theorem print_i (c : Nat) (i : Int) (s : Terminal) : (s.print c i).i = s.i := rfl
@[simp] theorem print_j (c : Nat) (i : Int) (s : Terminal) : (s.print c i).j = s.j := rfl
@[simp] theorem print_written (c : Nat) (i : Int) (s : Terminal) :
    (s.print c i).written = i :: s.written := rfl
@[simp] theorem clear_i (i : Int) (s : Terminal) : (s.clear i).i = s.i := rfl
@[simp] theorem clear_j (i : Int) (s : Terminal) : (s.clear i).j = s.j := rfl
@[simp] theorem clear_written (i : Int) (s : Terminal) :
    (s.clear i).written = i :: s.written := rfl

@[simp] theorem addLineUnpassed_written (stray : Cursor) (s : Terminal) :
    (s.addLineUnpassed stray).written = s.written := by
  unfold addLineUnpassed
  split
  · exact addLine_written stray s
  · rfl

/-- On the screen the first test of the handler does nothing. -/
theorem keyboardHandler_onScreen (c : Nat) (stray : Cursor) {s : Terminal} (hi : s.i < 2000) :
    s.keyboardHandler c stray = keyBranch c stray { s with lastKey := c } :=
  congrArg (keyBranch c stray) (if_neg (show ¬2000 ≤ s.i by omega))

/-- The counters after the first test of the handler. -/
theorem addLineUnpassed_counters (stray : Cursor) {s : Terminal}
    (hi : 0 ≤ s.i ∧ s.i ≤ 2080) (hj : IsInt s.j) :
    (s.addLineUnpassed stray).i = lineAdded stray s ∧
      (s.addLineUnpassed stray).j = columnAdded stray s := by
  unfold addLineUnpassed lineAdded columnAdded
  by_cases hFull : 2000 ≤ s.i
  · simpa [hFull] using addLine_counters hi hj
  · simp [hFull]

/-- The bounds on the counters after the first test. -/
theorem afterTest (stray : Cursor) {s : Terminal} (hi : 0 ≤ s.i ∧ s.i ≤ 2000)
    (hj : IsInt s.j) :
    (0 ≤ lineAdded stray s ∧ lineAdded stray s ≤ 2000) ∧
      (stray = .i → lineAdded stray s < 2000) ∧
      IsInt (columnAdded stray s) := by
  unfold IsInt at *
  unfold lineAdded columnAdded
  refine ⟨?_, ?_, ?_⟩
  · split <;> omega
  · rintro rfl
    by_cases hFull : 2000 ≤ s.i
    · simp only [hFull, and_self, if_true]
      omega
    · simp only [hFull, false_and, if_false]
      omega
  · split <;> omega

/-- The second test of `KEY_DOWN` and `KEY_RIGHT`. -/
theorem addLineUnpassed_onScreen (stray : Cursor) {s : Terminal} (hi : 0 ≤ s.i ∧ s.i ≤ 2080)
    (hStray : stray = .i → s.i < 2080) (hj : IsInt s.j) :
    OnScreen (s.addLineUnpassed stray).i ↔ s.i < 2000 ∨ stray = .i := by
  rw [(addLineUnpassed_counters stray hi hj).1]
  unfold lineAdded OnScreen
  by_cases hPassed : stray = .i
  · have := hStray hPassed
    simp only [hPassed, and_true, or_true, iff_true]
    split <;> omega
  · simp only [hPassed, and_false, if_false, or_false]
    omega

/-- Each branch keeps the cursor and what it writes on the screen exactly under
`KeyAt`. -/
theorem keyBranch_iff (c : Nat) {stray : Cursor} {t : Terminal} (hi : 0 ≤ t.i ∧ t.i ≤ 2000)
    (hStray : stray = .i → t.i < 2000) (hj : IsInt t.j)
    (hWritten : ∀ x ∈ t.written, OnScreen x) :
    KeyAt c stray t.i t.j ↔ OnScreen (t.keyBranch c stray).i ∧
      ∀ x ∈ (t.keyBranch c stray).written, OnScreen x := by
  have hNext : int32 (t.i + 1) = t.i + 1 := int32_eq (by omega) (by omega)
  have hPrev : int32 (t.i - 1) = t.i - 1 := int32_eq (by omega) (by omega)
  have hUp : int32 (t.i - 80) = t.i - 80 := int32_eq (by omega) (by omega)
  have hRow : int32 (t.i + 80) = t.i + 80 := int32_eq (by omega) (by omega)
  induction c using key_cases with
  | none =>
      change t.i < 2000 ↔ OnScreen t.i ∧ ∀ x ∈ t.written, OnScreen x
      rw [and_iff_left hWritten]
      unfold OnScreen
      omega
  | enter =>
      change t.j ≤ t.i + 80 ∧ t.i + 80 < t.j + 2000 ↔
        OnScreen (int32 (int32 (t.i + 80) + -t.j)) ∧ ∀ x ∈ t.written, OnScreen x
      rw [and_iff_left hWritten, hRow]
      unfold OnScreen int32
      unfold IsInt at hj
      omega
  | space =>
      change t.i + 1 < 2000 ↔ OnScreen (int32 (t.i + 1)) ∧ ∀ x ∈ t.written, OnScreen x
      rw [and_iff_left hWritten, hNext]
      unfold OnScreen
      omega
  | back =>
      change 1 ≤ t.i ↔ OnScreen (int32 (t.i + -1)) ∧ ∀ x ∈ int32 (t.i + -1) :: t.written, OnScreen x
      rw [Int.add_neg_one, hPrev, List.forall_mem_cons, and_iff_left hWritten]
      unfold OnScreen
      omega
  | up =>
      change 80 ≤ t.i ↔ OnScreen (int32 (t.i + -80)) ∧ ∀ x ∈ t.written, OnScreen x
      rw [and_iff_left hWritten, ← sub_eq_add_neg, hUp]
      unfold OnScreen
      omega
  | down =>
      change t.i + 80 < 2000 ∨ stray = .i ↔
        OnScreen ((t.moveBy 80).addLineUnpassed stray).i ∧
          ∀ x ∈ ((t.moveBy 80).addLineUnpassed stray).written, OnScreen x
      rw [addLineUnpassed_onScreen stray (s := t.moveBy 80) (by rw [moveBy_i, hRow]; omega)
        (fun h => by rw [moveBy_i, hRow]; have := hStray h; omega) hj,
        addLineUnpassed_written, moveBy_i, hRow]
      exact (and_iff_left hWritten).symm
  | left =>
      change 1 ≤ t.i ↔ OnScreen (int32 (t.i + -1)) ∧ ∀ x ∈ t.written, OnScreen x
      rw [and_iff_left hWritten, Int.add_neg_one, hPrev]
      unfold OnScreen
      omega
  | right =>
      change t.i + 1 < 2000 ∨ stray = .i ↔
        OnScreen ((t.moveBy 1).addLineUnpassed stray).i ∧
          ∀ x ∈ ((t.moveBy 1).addLineUnpassed stray).written, OnScreen x
      rw [addLineUnpassed_onScreen stray (s := t.moveBy 1) (by rw [moveBy_i, hNext]; omega)
        (fun h => by rw [moveBy_i, hNext]; have := hStray h; omega) hj,
        addLineUnpassed_written, moveBy_i, hNext]
      exact (and_iff_left hWritten).symm
  | char c hNotNone hEnter hSpace hBack hNotUp hDown hLeft hRight =>
      have hAt : KeyAt c stray t.i t.j = (t.i + 1 < 2000) := by
        unfold KeyAt
        rw [if_neg hNotNone, if_neg hEnter, if_neg hSpace, if_neg hBack, if_neg hNotUp,
          if_neg hDown, if_neg hLeft, if_neg hRight]
      rw [hAt, keyBranch_char hNotNone hEnter hSpace hBack hNotUp hDown hLeft hRight]
      change t.i + 1 < 2000 ↔ OnScreen (int32 (t.i + 1)) ∧ ∀ x ∈ t.i :: t.written, OnScreen x
      rw [hNext, List.forall_mem_cons, and_iff_left hWritten]
      unfold OnScreen
      omega

/-- **One key.**  The handler keeps its cursor and what it writes on the screen
exactly under `KeyOk`. -/
theorem key_iff {c : Nat} {stray : Cursor} {s : Terminal}
    (hi : 0 ≤ s.i ∧ s.i ≤ 2000) (hj : IsInt s.j)
    (hWritten : ∀ x ∈ s.written, OnScreen x) :
    KeyOk c stray s ↔ OnScreen (s.keyboardHandler c stray).i ∧
      ∀ x ∈ (s.keyboardHandler c stray).written, OnScreen x := by
  obtain ⟨hti, htj⟩ := addLineUnpassed_counters stray
    (s := { s with lastKey := c }) ⟨hi.1, by simp only; omega⟩ hj
  obtain ⟨hRange, hStray, hCount⟩ := afterTest stray hi hj
  have hBranch := keyBranch_iff c
    (t := addLineUnpassed stray { s with lastKey := c })
    (hti ▸ hRange) (hti ▸ hStray) (htj ▸ hCount) (by simpa using hWritten)
  rw [hti, htj] at hBranch
  exact hBranch

/-- `j` stays an `int`. -/
theorem addLine_j {cursor : Cursor} {s : Terminal} (hj : IsInt s.j) :
    IsInt (s.addLine cursor).j := by
  cases cursor with
  | i => simp only [addLine]; split <;> exact hj
  | j =>
      simp only [addLine]
      split
      · exact isInt_int32 _
      · exact hj
  | elsewhere => exact hj

theorem addLineUnpassed_j {stray : Cursor} {s : Terminal} (hj : IsInt s.j) :
    IsInt (s.addLineUnpassed stray).j := by
  unfold addLineUnpassed
  split
  · exact addLine_j hj
  · exact hj

theorem keyboardHandler_j {c : Nat} {stray : Cursor} {s : Terminal} (hj : IsInt s.j) :
    IsInt (s.keyboardHandler c stray).j := by
  have ht : IsInt ({ s with lastKey := c }.addLineUnpassed stray).j := addLineUnpassed_j hj
  unfold keyboardHandler
  generalize addLineUnpassed stray { s with lastKey := c } = t at *
  induction c using key_cases with
  | none => exact ht
  | enter => exact isInt_zero
  | space => exact isInt_int32 _
  | back => exact isInt_int32 _
  | up => exact ht
  | down => exact addLineUnpassed_j (s := t.moveBy 80) ht
  | left => exact ht
  | right => exact addLineUnpassed_j (s := t.moveBy 1) ht
  | char c hNone hEnter hSpace hBack hUp hDown hLeft hRight =>
      rw [keyBranch_char hNone hEnter hSpace hBack hUp hDown hLeft hRight]
      exact isInt_int32 _

end Terminal

/-! ## Runs of keys and calls -/

/-- The cursor is on the screen, or behind its last cell where what is left of
the call expects it there. -/
structure Inv (s : State) : Prop where
  written : ∀ x ∈ s.console.written, OnScreen x
  j : IsInt s.console.j
  low : 0 ≤ s.console.i
  high : s.console.i < 2000 ∧ Checked false s.rest ∨
    s.console.i ≤ 2000 ∧ Checked true s.rest

theorem Inv.le {s : State} (h : Inv s) : s.console.i ≤ 2000 := by
  have := h.high
  omega

/-- `add_line_if_needed` leads back to the screen. -/
theorem Op.addLineIfNeeded_onScreen {console : Terminal} (hj : IsInt console.j)
    (hLow : 0 ≤ console.i) (hHigh : console.i ≤ 2000) :
    OnScreen (Op.addLineIfNeeded.run console).i := by
  simp only [Op.run]
  unfold OnScreen
  split
  · rw [(Terminal.addLine_counters ⟨hLow, by omega⟩ hj).1]
    split <;> simp_all
    omega
  · omega

/-- One operation of a print routine. -/
theorem Inv.run {console : Terminal} {op : Op} {ops : List Op}
    (h : Inv ⟨console, op :: ops⟩) : Inv ⟨op.run console, ops⟩ := by
  obtain ⟨hWritten, hj, hLow, hHigh⟩ := h
  simp only at hWritten hj hLow hHigh
  -- what moves the cursor or writes starts on the screen
  have hOn {P : Prop} (hChecked : ∀ full, Checked full (op :: ops) → full = false ∧ P) :
      console.i < 2000 ∧ P := by
    rcases hHigh with ⟨hLt, hOps⟩ | ⟨-, hOps⟩
    · exact ⟨hLt, (hChecked _ hOps).2⟩
    · cases (hChecked _ hOps).1
  cases op with
  | addLineIfNeeded =>
      obtain ⟨hLow', hHigh'⟩ := Op.addLineIfNeeded_onScreen hj hLow (by omega)
      have hOps : Checked false ops := by
        rcases hHigh with hHigh | hHigh
        · exact hHigh.2
        · exact hHigh.2
      refine ⟨?_, ?_, hLow', .inl ⟨hHigh', hOps⟩⟩
      · simp only [Op.run]
        split
        · simpa using hWritten
        · exact hWritten
      · simp only [Op.run]
        split
        · exact Terminal.addLine_j hj
        · exact hj
  | print c =>
      obtain ⟨hLt, hOps⟩ := hOn fun _ h => h
      exact ⟨List.forall_mem_cons.mpr ⟨⟨hLow, hLt⟩, hWritten⟩, hj, hLow, .inl ⟨hLt, hOps⟩⟩
  | advance =>
      obtain ⟨hLt, hOps⟩ := hOn fun _ h => h
      have hNext : int32 (console.i + 1) = console.i + 1 := int32_eq (by omega) (by omega)
      refine ⟨hWritten, hj, ?_, .inr ⟨?_, hOps⟩⟩
      · simp only [Op.run, Terminal.moveBy_i, hNext]
        omega
      · simp only [Op.run, Terminal.moveBy_i, hNext]
        omega
  | newLine =>
      obtain ⟨hLt, hOps⟩ := hOn fun _ h => h
      have hCol : console.i.tmod 80 = console.i % 80 := Int.tmod_eq_emod_of_nonneg hLow
      have hNext : int32 (console.i + (80 - console.i.tmod 80)) =
          console.i + (80 - console.i % 80) := by
        rw [hCol]
        exact int32_eq (by omega) (by omega)
      refine ⟨hWritten, hj, ?_, .inr ⟨?_, hOps⟩⟩
      · simp only [Op.run, Terminal.moveBy_i, hNext]
        omega
      · simp only [Op.run, Terminal.moveBy_i, hNext]
        omega
  | count => exact ⟨hWritten, isInt_int32 _, hLow, hHigh⟩
  | restart => exact ⟨hWritten, isInt_zero, hLow, hHigh⟩
  | move => exact ⟨hWritten, hj, hLow, hHigh⟩

/-- One key, where it is harmless. -/
theorem Inv.key {s : State} {c : Nat} {stray : Cursor} (h : Inv s)
    (hOk : KeyOk c stray s.console) :
    Inv { s with console := s.console.keyboardHandler c stray } := by
  obtain ⟨hCursor, hWritten⟩ := (Terminal.key_iff ⟨h.low, h.le⟩ h.j h.written).mp hOk
  have hChecked : Checked false s.rest := by
    rcases h.high with hHigh | hHigh
    · exact hHigh.2
    · exact hHigh.2.weaken
  exact ⟨hWritten, Terminal.keyboardHandler_j h.j, hCursor.1, .inl ⟨hCursor.2, hChecked⟩⟩

/-- A call begins. -/
theorem Inv.call {s : State} (h : Inv s) (hRest : s.rest = []) (c : Call) :
    Inv { s with rest := c.ops } := by
  refine ⟨h.written, h.j, h.low, .inl ⟨?_, c.checked⟩⟩
  rcases h.high with hHigh | hHigh
  · exact hHigh.1
  · rw [hRest] at hHigh
    cases hHigh.2

/-- Between calls the cursor is on the screen. -/
theorem Inv.onScreen {s : State} (h : Inv s) (hRest : s.rest = []) : OnScreen s.console.i := by
  have hHigh := h.high
  rw [hRest] at hHigh
  rcases hHigh with hHigh | hHigh
  · exact ⟨h.low, hHigh.1⟩
  · cases hHigh.2

/-- Every step that meets `EventOk` keeps the invariant. -/
theorem Inv.step {s s' : State} {e : Event} (h : Inv s) (hOk : EventOk s e)
    (hStep : Console.step s e = some s') : Inv s' := by
  cases e with
  | key code stray =>
      cases hStep
      exact h.key hOk
  | call c =>
      simp only [Console.step, Option.ite_none_right_eq_some] at hStep
      obtain ⟨hRest, hStep⟩ := hStep
      cases hStep
      exact h.call hRest c
  | run =>
      obtain ⟨console, rest⟩ := s
      cases rest with
      | nil => cases hStep
      | cons op ops =>
          cases hStep
          exact h.run

/-- The initialised variables and a cleared screen. -/
def start : State where
  console :=
    { i := 400, j := 0, screen := fun _ => ⟨' '.toNat, 7⟩, lastKey := 0, command := fun _ => 0,
      commandIndex := 0, commandReady := 0, written := [] }
  rest := []

theorem Inv.start : Inv start :=
  ⟨by simp [Console.start], isInt_zero, by decide, .inl ⟨by decide, rfl⟩⟩

/-- **The cursor on the screen.**  As long as every key meets `KeyOk`, whatever
the interleaving with the print routines, an event keeps what is written and the
cursor on the screen exactly if it meets the condition too: only a key can fail,
and it fails at once. -/
theorem cursor_on_screen {events : List Event} {s s' : State} {e : Event}
    (hRun : exec step start events = some s) (hMeets : Meets step EventOk start events)
    (hStep : step s e = some s') : Kept e s' ↔ EventOk s e := by
  have hInv : Inv s := hMeets.invariant (fun _ _ _ h hOk => h.step hOk) Inv.start hRun
  constructor
  · rintro ⟨hWritten, hCursor⟩
    cases e with
    | key code stray =>
        cases hStep
        exact (Terminal.key_iff ⟨hInv.low, hInv.le⟩ hInv.j hInv.written).mpr
          ⟨hCursor trivial, hWritten⟩
    | call c => trivial
    | run => trivial
  · intro hOk
    have hInv' := hInv.step hOk hStep
    refine ⟨hInv'.written, fun hOver => ?_⟩
    cases e with
    | key code stray =>
        cases hStep
        exact ((Terminal.key_iff ⟨hInv.low, hInv.le⟩ hInv.j hInv.written).mp hOk).1
    | call c => exact hInv'.onScreen hOver
    | run => exact hInv'.onScreen hOver

/-- A word is typed while a number is printed. -/
def typing : List Event :=
  [.key 0x23 .elsewhere, .key 0xA3 .elsewhere, .call (.printNumber 42), .run, .run,
    .key 0x17 .j, .run, .key 0x1C .elsewhere, .run, .run, .run]

theorem cursor_on_screen_typing :
    ∃ s s', exec step start typing = some s ∧ step s .run = some s' ∧ Kept .run s' := by
  obtain ⟨s, hRun⟩ := Option.isSome_iff_exists.mp
    (show (exec step start typing).isSome by decide +kernel)
  have hNext : ∀ s ∈ exec step start typing, (step s .run).isSome := by decide +kernel
  obtain ⟨s', hStep⟩ := Option.isSome_iff_exists.mp (hNext s hRun)
  exact ⟨s, s', hRun, hStep,
    (cursor_on_screen hRun (by decide +kernel) hStep).mpr trivial⟩

/-- Six times the up key from the sixth row, then `a`: the letter is written 80
cells before text memory. -/
theorem cursor_above_screen :
    ∃ s s', exec step start (List.replicate 6 (.key 0x48 .elsewhere)) = some s ∧
      step s (.key 0x1E .elsewhere) = some s' ∧ s.console.i = -80 ∧
      -80 ∈ s'.console.written ∧ ¬Kept (.key 0x1E .elsewhere) s' := by
  have hUp : ∀ s ∈ exec step start (List.replicate 6 (.key 0x48 .elsewhere)),
      s.console.i = -80 ∧
        ∀ s' ∈ step s (.key 0x1E .elsewhere), -80 ∈ s'.console.written := by decide +kernel
  obtain ⟨s, hRun⟩ := Option.isSome_iff_exists.mp
    (show (exec step start (List.replicate 6 (.key 0x48 .elsewhere))).isSome by decide +kernel)
  obtain ⟨hCursor, hLetter⟩ := hUp s hRun
  refine ⟨s, _, hRun, rfl, hCursor, hLetter _ rfl, fun hKept => ?_⟩
  have hOn := hKept.written (-80) (hLetter _ rfl)
  exact absurd hOn.1 (by decide)

end MiniKernel.Ports.Console
