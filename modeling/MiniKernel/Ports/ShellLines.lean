import Mathlib.Data.List.TakeWhile
import MiniKernel.Ports.Console

/-!
# Lines between the keyboard and the shell

`shell` and `keyboard_handler` share `command`, `command_index` and
`command_ready`.  A shell step is one step of its loop, and a key may come
between any two of them.

`entered` and `typed` are the account of the person at the keyboard: the lines
ended by Enter and the line being typed, from which backspace takes the last
character.  `executed` are the arguments `command_exec` was called with.
-/

namespace MiniKernel.Ports.ShellLines

open MiniKernel.Verified.Trace
open MiniKernel.Ports.Console

/-- The string at `command`. -/
def commandString (command : Int → Nat) : List Nat :=
  ((List.range 128).map fun m : Nat => command m).takeWhile (· ≠ 0)

/-! ## The shell -/

/-- `strcmp`, for the characters before the `'\0'`. -/
def strcmp : List Nat → List Nat → Int
  | [], [] => 0
  | [], c :: _ => -c
  | c :: _, [] => c
  | c :: str1, d :: str2 => if c = d then strcmp str1 str2 else c - d

theorem strcmp_eq_zero {str1 str2 : List Nat} (h1 : ∀ c ∈ str1, c ≠ 0) (h2 : ∀ c ∈ str2, c ≠ 0) :
    strcmp str1 str2 = 0 ↔ str1 = str2 := by
  induction str1 generalizing str2 with
  | nil =>
      cases str2 with
      | nil => simp [strcmp]
      | cons d str2 => simpa [strcmp] using h2 d
  | cons c str1 ih =>
      cases str2 with
      | nil => simpa [strcmp] using h1 c
      | cons d str2 =>
          simp only [List.forall_mem_cons] at h1 h2
          by_cases hEq : c = d
          · simp [strcmp, hEq, ih h1.2 h2.2]
          · simp only [strcmp, hEq, if_false, List.cons.injEq, false_and, iff_false]
            omega

def hello : List Nat := "hello".toList.map Char.toNat

def prompt : List Nat := "my>>os: ".toList.map Char.toNat

/-- Where the shell is. -/
inductive Pc
  /-- the prompt before the loop -/
  | greet
  /-- `if (command_ready == 1)` -/
  | test
  /-- the call of `command_exec` -/
  | exec
  /-- inside `command_exec` -/
  | running
  /-- `command_ready = 0` -/
  | clearReady
  /-- `command_index = 0` -/
  | clearIndex
  /-- `command[k] = '\0'` in `empty_string` -/
  | clearByte (k : Nat)
  /-- the prompt after a command -/
  | prompt
  /-- `user_yield` -/
  | yield
  deriving Repr, DecidableEq

structure State where
  console : Terminal
  pc : Pc
  executed : List (List Nat)
  /-- calls of `user_fork` -/
  forks : Nat
  entered : List (List Nat)
  typed : List Nat

namespace State

/-- `command_exec`, up to its `user_fork`. -/
def commandExec (line : List Nat) (s : State) : State :=
  { s with
    executed := s.executed ++ [line]
    forks := if strcmp line hello = 0 then s.forks + 1 else s.forks }

/-- One step of `shell`. -/
def shell (s : State) : State :=
  match s.pc with
  | .greet => { s with console := s.console.runAll (printString prompt), pc := .test }
  | .test => { s with pc := if s.console.commandReady = 1 then .exec else .yield }
  | .exec => { s.commandExec (commandString s.console.command) with pc := .running }
  | .running => { s with pc := .clearReady }
  | .clearReady => { s with console := { s.console with commandReady := 0 }, pc := .clearIndex }
  | .clearIndex => { s with console := { s.console with commandIndex := 0 }, pc := .clearByte 0 }
  | .clearByte k =>
      { s with
        console := { s.console with
          command := fun m => if m = k then 0 else s.console.command m }
        pc := if k + 1 < 128 then .clearByte (k + 1) else .prompt }
  | .prompt => { s with console := s.console.runAll (printString prompt), pc := .yield }
  | .yield => { s with pc := .test }

/-- The account of a key. -/
def note (p : Press) (s : State) : State :=
  match p with
  | .none => s
  | .enter => { s with entered := s.entered ++ [s.typed], typed := [] }
  | .erase => { s with typed := s.typed.dropLast }
  | .char c => { s with typed := s.typed ++ [c] }

/-- A keyboard interrupt. -/
def key (c : Nat) (stray : Cursor) (s : State) : State :=
  { s.note (press c) with console := s.console.keyboardHandler c stray }

end State

inductive Event
  | key (code : Nat) (stray : Cursor)
  | shell
  deriving Repr, DecidableEq

def step (s : State) : Event → Option State
  | .key code stray => some (s.key (read code) stray)
  | .shell => some s.shell

/-! ## What is asked of the shell -/

/-- Lines are executed in order, each once and as it was typed, and `hello` is
started for those that say so.  At its test the shell finds the one line that is
waiting, or else the characters typed so far. -/
structure Faithful (s : State) : Prop where
  executed : s.executed <+: s.entered
  forks : s.forks = s.executed.count hello
  waiting : s.pc = .test → s.console.commandReady = 1 →
    s.entered = s.executed ++ [commandString s.console.command]
  pending : s.pc = .test → s.console.commandReady ≠ 1 →
    s.entered = s.executed ∧ commandString s.console.command = s.typed ∧
      s.console.commandIndex = s.typed.length

/-- The shell, left alone, stays faithful and executes all that was entered. -/
structure Served (s : State) : Prop where
  faithful : ∀ n, Faithful (State.shell^[n] s)
  settles : ∃ n, (State.shell^[n] s).executed = s.entered

/-- No line is longer than 127 characters. -/
def Fits (s : State) : Event → Prop
  | .key code _ => (s.note (press (read code))).typed.length ≤ 127
  | .shell => True

/-- A key comes when the shell expects it: Enter when no line is ready, backspace
when nothing is typed, a character when no line is ready and its place in the
buffer will not be cleared any more. -/
def PressOk (p : Press) (s : State) : Prop :=
  match p with
  | .none => True
  | .enter => s.console.commandReady = 0
  | .erase => s.console.commandReady = 1 ∨ s.console.commandIndex = 0 ∨ s.pc = .clearIndex
  | .char _ => s.console.commandReady = 0 ∧
      match s.pc with
      | .greet | .test | .prompt | .yield => True
      | .clearByte k => s.console.commandIndex < k
      | _ => False

instance (p : Press) (s : State) : Decidable (PressOk p s) := by
  unfold PressOk
  cases p with
  | char c =>
      cases s.pc <;> infer_instance
  | none | enter | erase => infer_instance

def EventOk (s : State) : Event → Prop
  | .key code _ => PressOk (press (read code)) s
  | .shell => True

instance (s : State) : (e : Event) → Decidable (Fits s e)
  | .key .. => inferInstanceAs (Decidable (_ ≤ _))
  | .shell => inferInstanceAs (Decidable True)

instance (s : State) : (e : Event) → Decidable (EventOk s e)
  | .key .. => inferInstanceAs (Decidable (PressOk ..))
  | .shell => inferInstanceAs (Decidable True)

/-! ## The buffer holds a line -/

/-- The first `k` bytes hold the line, the rest is still to be cleared. -/
structure Holds (k : Nat) (line : List Nat) (b : Buffer) : Prop where
  index : b.index = line.length
  le : line.length ≤ k
  short : line.length ≤ 127
  chars : ∀ m : Nat, m < k → b.command m = line.getD m 0
  nonzero : ∀ c ∈ line, c ≠ 0

theorem Holds.string {line : List Nat} {b : Buffer} (h : Holds 128 line b) :
    commandString b.command = line := by
  have hBytes : (List.range 128).map (fun m : Nat => b.command m) =
      line ++ List.replicate (128 - line.length) 0 := by
    have hLe := h.le
    refine List.ext_getElem (by simp; omega) fun m hm _ => ?_
    have hm' : m < 128 := by simpa using hm
    simp only [List.getElem_map, List.getElem_range, h.chars m hm', List.getElem_append]
    split
    · simp [*]
    · simp [*]
  have hShort := h.short
  unfold commandString
  rw [hBytes, List.takeWhile_append_of_pos (by simpa using h.nonzero),
    show 128 - line.length = (127 - line.length) + 1 by omega, List.replicate_succ]
  simp

/-- A character goes to its place. -/
theorem Holds.char {k c : Nat} {line : List Nat} {b : Buffer} (h : Holds k line b)
    (hPlace : line.length < k) (hShort : line.length + 1 ≤ 127) (hChar : c ≠ 0) :
    Holds k (line ++ [c]) ((Press.char c).store b) := by
  have hIndex : (b.index + 1 : Int) = (line ++ [c]).length := by simp [h.index]
  refine ⟨?_, by simpa using hPlace, by simpa using hShort, fun m hm => ?_, ?_⟩
  · simp only [Press.store, hIndex]
    exact int32_eq (by simp; omega) (by simp; omega)
  · simp only [Press.store, Buffer.setChar, h.index, Nat.cast_inj]
    split
    · simp [*]
    · rw [h.chars m hm]
      by_cases hLt : m < line.length
      · simp [List.getElem?_append_left hLt]
      · simp [List.getElem?_append_right (Nat.le_of_not_lt hLt),
          show m - line.length ≠ 0 by omega, List.getElem?_eq_none (Nat.le_of_not_lt hLt)]
  · simpa [or_imp, forall_and] using ⟨h.nonzero, hChar⟩

/-- The end of the line is a zero already. -/
theorem Holds.setZero {k : Nat} {line : List Nat} {b : Buffer} (h : Holds k line b) :
    Holds k line (b.setChar 0) := by
  refine ⟨h.index, h.le, h.short, fun m hm => ?_, h.nonzero⟩
  simp only [Buffer.setChar, h.index, Nat.cast_inj]
  split
  · simp [*]
  · exact h.chars m hm

/-- One more byte is cleared. -/
theorem Holds.clearByte {k : Nat} {line : List Nat} {b : Buffer} (h : Holds k line b) :
    Holds (k + 1) line { b with command := fun m => if m = k then 0 else b.command m } := by
  have hLe := h.le
  refine ⟨h.index, by omega, h.short, fun m hm => ?_, h.nonzero⟩
  simp only [Nat.cast_inj]
  split
  · simp [*]
  · exact h.chars m (by omega)

/-- The line in the buffer after a key. -/
def onLine (p : Press) (line : List Nat) : List Nat :=
  match p with
  | .char c => line ++ [c]
  | _ => line

theorem Holds.store {k : Nat} {line : List Nat} {b : Buffer} {p : Press} (h : Holds k line b)
    (hPlace : ∀ c, p = .char c → line.length < k ∧ line.length + 1 ≤ 127 ∧ c ≠ 0) :
    Holds k (onLine p line) (p.store b) := by
  cases p with
  | none => exact h
  | enter => exact { h.setZero with }
  | erase => exact h.setZero
  | char c =>
      obtain ⟨hLt, hShort, hChar⟩ := hPlace c rfl
      exact h.char hLt hShort hChar

/-! ## The invariant -/

/-- The line in the buffer is the one that waits, or the one being typed. -/
def Accounted (line : List Nat) (s : State) : Prop :=
  s.console.buffer.ready = 1 ∧ s.typed = [] ∧ s.entered = s.executed ++ [line] ∨
  s.console.buffer.ready = 0 ∧ s.typed = line ∧ s.entered = s.executed

/-- What the shell can rely on, at each of its steps. -/
def Phase (s : State) : Prop :=
  match s.pc with
  | .greet | .test | .prompt | .yield =>
      ∃ line, Accounted line s ∧ Holds 128 line s.console.buffer
  | .exec => s.console.buffer.ready = 1 ∧
      ∃ line, Accounted line s ∧ Holds 128 line s.console.buffer
  | .running | .clearReady =>
      s.console.buffer.ready = 1 ∧ s.typed = [] ∧ s.entered = s.executed
  | .clearIndex => Accounted [] s
  | .clearByte k => k < 128 ∧ ∃ line, Accounted line s ∧ Holds k line s.console.buffer

structure Inv (s : State) : Prop where
  forks : s.forks = s.executed.count hello
  phase : Phase s

theorem Accounted.key {line : List Nat} {s : State} {c : Nat} {stray : Cursor}
    (h : Accounted line s)
    (hOk : match press c with
      | .none => True
      | .enter | .char _ => s.console.buffer.ready = 0
      | .erase => s.console.buffer.ready = 1 ∨ line = []) :
    Accounted (onLine (press c) line) (s.key c stray) := by
  unfold Accounted State.key
  simp only [Terminal.keyboardHandler_buffer]
  cases hPress : press c with
  | none => exact h
  | enter =>
      simp only [hPress] at hOk
      rcases h with ⟨hReady, -, -⟩ | ⟨-, hTyped, hEntered⟩
      · rw [hOk] at hReady
        cases hReady
      · exact .inl ⟨rfl, rfl, by simp [State.note, onLine, hTyped, hEntered]⟩
  | erase =>
      simp only [hPress] at hOk
      rcases h with ⟨hReady, hTyped, hEntered⟩ | ⟨hReady, hTyped, hEntered⟩
      · exact .inl ⟨hReady, by simp [State.note, hTyped], hEntered⟩
      · have hEmpty : line = [] := hOk.resolve_left (by rw [hReady]; decide)
        exact .inr ⟨hReady, by simp [State.note, onLine, hTyped, hEmpty], hEntered⟩
  | char d =>
      simp only [hPress] at hOk
      rcases h with ⟨hReady, -, -⟩ | ⟨hReady, hTyped, hEntered⟩
      · rw [hOk] at hReady
        cases hReady
      · exact .inr ⟨hReady, by simp [State.note, onLine, hTyped], hEntered⟩

@[simp] theorem key_pc (s : State) (c : Nat) (stray : Cursor) : (s.key c stray).pc = s.pc := by
  unfold State.key State.note
  cases press c <;> rfl

@[simp] theorem key_executed (s : State) (c : Nat) (stray : Cursor) :
    (s.key c stray).executed = s.executed := by
  unfold State.key State.note
  cases press c <;> rfl

@[simp] theorem key_forks (s : State) (c : Nat) (stray : Cursor) :
    (s.key c stray).forks = s.forks := by
  unfold State.key State.note
  cases press c <;> rfl

@[simp] theorem key_buffer (s : State) (c : Nat) (stray : Cursor) :
    (s.key c stray).console.buffer = (press c).store s.console.buffer :=
  Terminal.keyboardHandler_buffer c stray s.console

/-- A key while the buffer holds a line. -/
theorem Holds.key {k : Nat} {line : List Nat} {s : State} {code : Nat} {stray : Cursor}
    (hLine : Accounted line s) (hHolds : Holds k line s.console.buffer)
    (hFits : Fits s (.key code stray)) (hOk : PressOk (press (read code)) s)
    (hIndex : s.pc ≠ .clearIndex)
    (hPlace : ∀ c, press (read code) = .char c → line.length < k) :
    ∃ line, Accounted line (s.key (read code) stray) ∧
      Holds k line (s.key (read code) stray).console.buffer := by
  refine ⟨onLine (press (read code)) line, hLine.key ?_, ?_⟩
  · cases hPress : press (read code) with
    | none => trivial
    | enter => exact (hPress ▸ hOk : PressOk .enter s)
    | erase =>
        rcases (hPress ▸ hOk : PressOk .erase s) with hReady | hZero | hPc
        · exact .inl hReady
        · have hLength : (line.length : Int) = 0 := hHolds.index.symm.trans hZero
          exact .inr (List.eq_nil_of_length_eq_zero (by exact_mod_cast hLength))
        · exact absurd hPc hIndex
    | char c => exact (hPress ▸ hOk : PressOk (.char c) s).1
  · rw [key_buffer]
    refine hHolds.store fun c hPress => ⟨hPlace c hPress, ?_, ?_⟩
    · have hReady : s.console.buffer.ready = 0 := (hPress ▸ hOk : PressOk (.char c) s).1
      have hTyped : s.typed = line := by
        rcases hLine with ⟨hOne, -, -⟩ | ⟨-, hTyped, -⟩
        · rw [hReady] at hOne
          cases hOne
        · exact hTyped
      simpa [Fits, hPress, State.note, hTyped] using hFits
    · rintro rfl
      exact press_read code hPress

/-- A key while a command runs. -/
theorem key_running {s : State} {code : Nat} {stray : Cursor}
    (hBusy : s.console.buffer.ready = 1 ∧ s.typed = [] ∧ s.entered = s.executed)
    (hOk : PressOk (press (read code)) s) :
    (s.key (read code) stray).console.buffer.ready = 1 ∧ (s.key (read code) stray).typed = [] ∧
      (s.key (read code) stray).entered = (s.key (read code) stray).executed := by
  obtain ⟨hReady, hTyped, hEntered⟩ := hBusy
  rw [key_buffer, key_executed]
  unfold State.key
  cases hPress : press (read code) with
  | none => exact ⟨hReady, hTyped, hEntered⟩
  | enter =>
      have hZero : s.console.buffer.ready = 0 := (hPress ▸ hOk : PressOk .enter s)
      rw [hZero] at hReady
      cases hReady
  | erase => exact ⟨hReady, by simp [State.note, hTyped], hEntered⟩
  | char c =>
      have hZero : s.console.buffer.ready = 0 := (hPress ▸ hOk : PressOk (.char c) s).1
      rw [hZero] at hReady
      cases hReady

/-- A key that comes when the shell expects it. -/
theorem Inv.key {s : State} {code : Nat} {stray : Cursor} (h : Inv s)
    (hFits : Fits s (.key code stray)) (hOk : EventOk s (.key code stray)) :
    Inv (s.key (read code) stray) := by
  obtain ⟨hForks, hPhase⟩ := h
  refine ⟨by simpa using hForks, ?_⟩
  unfold Phase at hPhase ⊢
  rw [key_pc]
  simp only [EventOk] at hOk
  have hIdle (hPc : s.pc ≠ .clearIndex) :
      (∃ line, Accounted line s ∧ Holds 128 line s.console.buffer) →
        ∃ line, Accounted line (s.key (read code) stray) ∧
          Holds 128 line (s.key (read code) stray).console.buffer := by
    rintro ⟨line, hLine, hHolds⟩
    have hShort := hHolds.short
    exact hHolds.key hLine hFits hOk hPc fun _ _ => by omega
  cases hPc : s.pc with
  | greet =>
      rw [hPc] at hPhase
      exact hIdle (by simp [hPc]) hPhase
  | test =>
      rw [hPc] at hPhase
      exact hIdle (by simp [hPc]) hPhase
  | exec =>
      rw [hPc] at hPhase
      refine ⟨?_, hIdle (by simp [hPc]) hPhase.2⟩
      rw [key_buffer]
      cases press (read code) with
      | none => exact hPhase.1
      | enter => rfl
      | erase => exact hPhase.1
      | char c => exact hPhase.1
  | running =>
      rw [hPc] at hPhase
      exact key_running hPhase hOk
  | clearReady =>
      rw [hPc] at hPhase
      exact key_running hPhase hOk
  | clearIndex =>
      rw [hPc] at hPhase
      have hChar (c : Nat) : press (read code) ≠ .char c := by
        intro hPress
        have hPlace := (hPress ▸ hOk : PressOk (.char c) s).2
        rw [hPc] at hPlace
        exact hPlace
      have hNext : Accounted (onLine (press (read code)) []) (s.key (read code) stray) := by
        refine hPhase.key ?_
        cases hPress : press (read code) with
        | none => trivial
        | enter => exact (hPress ▸ hOk : PressOk .enter s)
        | erase => exact .inr rfl
        | char c => exact absurd hPress (hChar c)
      cases hPress : press (read code) with
      | char c => exact absurd hPress (hChar c)
      | none | enter | erase => simpa [hPress, onLine] using hNext
  | clearByte k =>
      rw [hPc] at hPhase
      obtain ⟨hLt, line, hLine, hHolds⟩ := hPhase
      refine ⟨hLt, hHolds.key hLine hFits hOk (by simp [hPc]) fun c hPress => ?_⟩
      have hPlace := (hPress ▸ hOk : PressOk (.char c) s).2
      rw [hPc] at hPlace
      have hIndex : (line.length : Int) < k := hHolds.index ▸ hPlace
      exact_mod_cast hIndex
  | prompt =>
      rw [hPc] at hPhase
      exact hIdle (by simp [hPc]) hPhase
  | yield =>
      rw [hPc] at hPhase
      exact hIdle (by simp [hPc]) hPhase

/-- `command_exec` on the waiting line. -/
theorem commandExec_forks {line : List Nat} {s : State} (hForks : s.forks = s.executed.count hello)
    (hLine : ∀ c ∈ line, c ≠ 0) :
    (s.commandExec line).forks = (s.commandExec line).executed.count hello := by
  have hEq : strcmp line hello = 0 ↔ line = hello := strcmp_eq_zero hLine (by decide)
  simp only [State.commandExec, List.count_append, List.count_singleton, hEq, hForks, beq_iff_eq]
  split <;> rfl

/-- One step of the shell. -/
theorem Inv.shell {s : State} (h : Inv s) : Inv s.shell := by
  obtain ⟨hForks, hPhase⟩ := h
  obtain ⟨console, pc, executed, forks, entered, typed⟩ := s
  cases pc with
  | greet =>
      obtain ⟨line, hLine, hHolds⟩ := hPhase
      refine ⟨hForks, line, ?_, ?_⟩
      · simpa [Accounted, State.shell] using hLine
      · simpa [State.shell] using hHolds
  | test =>
      obtain ⟨line, hLine, hHolds⟩ := hPhase
      by_cases hReady : console.commandReady = 1
      · simp only [State.shell, hReady, if_true]
        exact ⟨hForks, hReady, line, hLine, hHolds⟩
      · simp only [State.shell, hReady, if_false]
        exact ⟨hForks, line, hLine, hHolds⟩
  | exec =>
      obtain ⟨hReady, line, hLine, hHolds⟩ := hPhase
      have hString : commandString console.command = line := hHolds.string
      simp only [State.shell, hString]
      refine ⟨commandExec_forks hForks hHolds.nonzero, hReady, ?_⟩
      rcases hLine with ⟨-, hTyped, hEntered⟩ | ⟨hZero, -, -⟩
      · exact ⟨hTyped, hEntered⟩
      · rw [hReady] at hZero
        cases hZero
  | running => exact ⟨hForks, hPhase⟩
  | clearReady =>
      obtain ⟨-, hTyped, hEntered⟩ := hPhase
      exact ⟨hForks, .inr ⟨rfl, hTyped, hEntered⟩⟩
  | clearIndex =>
      refine ⟨hForks, by decide, [], hPhase, ?_⟩
      exact ⟨rfl, Nat.le_refl _, by decide, fun m hm => absurd hm (Nat.not_lt_zero m), by simp⟩
  | clearByte k =>
      obtain ⟨hLt, line, hLine, hHolds⟩ := hPhase
      by_cases hMore : k + 1 < 128
      · simp only [State.shell, hMore, if_true]
        exact ⟨hForks, hMore, line, hLine, hHolds.clearByte⟩
      · simp only [State.shell, hMore, if_false]
        have hAll : k + 1 = 128 := by omega
        exact ⟨hForks, line, hLine, hAll ▸ hHolds.clearByte⟩
  | prompt =>
      obtain ⟨line, hLine, hHolds⟩ := hPhase
      refine ⟨hForks, line, ?_, ?_⟩
      · simpa [Accounted, State.shell] using hLine
      · simpa [State.shell] using hHolds
  | yield => exact ⟨hForks, hPhase⟩

theorem Accounted.executed_prefix {line : List Nat} {s : State} (h : Accounted line s) :
    s.executed <+: s.entered := by
  rcases h with ⟨-, -, hEntered⟩ | ⟨-, -, hEntered⟩
  · exact ⟨[line], hEntered.symm⟩
  · rw [hEntered]

theorem Inv.faithful {s : State} (h : Inv s) : Faithful s := by
  obtain ⟨hForks, hPhase⟩ := h
  refine ⟨?_, hForks, fun hPc hReady => ?_, fun hPc hReady => ?_⟩
  · unfold Phase at hPhase
    cases hPc : s.pc with
    | greet | test | prompt | yield =>
        rw [hPc] at hPhase
        obtain ⟨line, hLine, -⟩ := hPhase
        exact hLine.executed_prefix
    | exec =>
        rw [hPc] at hPhase
        obtain ⟨-, line, hLine, -⟩ := hPhase
        exact hLine.executed_prefix
    | running | clearReady =>
        rw [hPc] at hPhase
        rw [hPhase.2.2]
    | clearIndex =>
        rw [hPc] at hPhase
        exact hPhase.executed_prefix
    | clearByte k =>
        rw [hPc] at hPhase
        obtain ⟨-, line, hLine, -⟩ := hPhase
        exact hLine.executed_prefix
  · simp only [Phase, hPc] at hPhase
    obtain ⟨line, hLine, hHolds⟩ := hPhase
    have hString : commandString s.console.command = line := hHolds.string
    rcases hLine with ⟨-, -, hEntered⟩ | ⟨hZero, -, -⟩
    · rw [hString, hEntered]
    · exact absurd (hReady.symm.trans hZero) (by decide)
  · simp only [Phase, hPc] at hPhase
    obtain ⟨line, hLine, hHolds⟩ := hPhase
    have hString : commandString s.console.command = line := hHolds.string
    rcases hLine with ⟨hOne, -, -⟩ | ⟨-, hTyped, hEntered⟩
    · exact absurd hOne hReady
    · exact ⟨hEntered, by rw [hString, hTyped], by rw [hTyped]; exact hHolds.index⟩

/-! ## The shell left alone -/

/-- Steps until the next test. -/
def Pc.toTest : Pc → Nat
  | .test => 0
  | .greet | .yield => 1
  | .prompt => 2
  | .clearByte k => 3 + (128 - k)
  | .clearIndex => 132
  | .clearReady => 133
  | .running => 134
  | .exec => 135

theorem shell_toTest {s : State} (h : s.pc ≠ .test) : s.shell.pc.toTest < s.pc.toTest := by
  unfold State.shell
  cases hPc : s.pc with
  | test => exact absurd hPc h
  | clearByte k =>
      by_cases hMore : k + 1 < 128
      · simp only [hMore, if_true, Pc.toTest]
        omega
      · simp only [hMore, if_false, Pc.toTest]
        omega
  | greet | exec | running | clearReady | clearIndex | prompt | yield => simp [Pc.toTest]

/-- What the shell keeps between two tests still holds at the next test. -/
theorem reach_test {P : State → Prop} (hKeep : ∀ s, P s → s.pc ≠ .test → P s.shell) {s : State}
    (h : P s) : ∃ n, P (State.shell^[n] s) ∧ (State.shell^[n] s).pc = .test := by
  induction hRank : s.pc.toTest using Nat.strong_induction_on generalizing s with
  | _ rank ih =>
      by_cases hPc : s.pc = .test
      · exact ⟨0, h, hPc⟩
      · obtain ⟨n, hP, hTest⟩ := ih _ (hRank ▸ shell_toTest hPc) (hKeep s h hPc) rfl
        exact ⟨n + 1, hP, hTest⟩

@[simp] theorem shell_entered (s : State) : s.shell.entered = s.entered := by
  unfold State.shell
  cases s.pc <;> rfl

@[simp] theorem shell_typed (s : State) : s.shell.typed = s.typed := by
  unfold State.shell
  cases s.pc <;> rfl

theorem Inv.iterate {s : State} (h : Inv s) (n : Nat) : Inv (State.shell^[n] s) := by
  induction n with
  | zero => exact h
  | succ n ih =>
      rw [Function.iterate_succ_apply']
      exact ih.shell

/-- A waiting line is executed in the two steps after the next test. -/
theorem Inv.settles {s : State} (h : Inv s) : ∃ n, (State.shell^[n] s).executed = s.entered := by
  obtain ⟨n, ⟨hInv, hEntered⟩, hTest⟩ := reach_test
    (P := fun t => Inv t ∧ t.entered = s.entered)
    (fun t ht _ => ⟨ht.1.shell, (shell_entered t).trans ht.2⟩) ⟨h, rfl⟩
  by_cases hReady : (State.shell^[n] s).console.commandReady = 1
  · have hInv' : Inv (State.shell (State.shell (State.shell^[n] s))) := hInv.shell.shell
    have hExec : (State.shell (State.shell^[n] s)).pc = .exec := by
      simp [State.shell, hTest, hReady]
    have hPc : (State.shell (State.shell (State.shell^[n] s))).pc = .running := by
      rw [State.shell, hExec]
    have hPhase := hInv'.phase
    simp only [Phase, hPc, shell_entered] at hPhase
    refine ⟨n + 2, ?_⟩
    rw [Function.iterate_succ_apply', Function.iterate_succ_apply', ← hPhase.2.2, hEntered]
  · exact ⟨n, ((hInv.faithful.pending hTest hReady).1.symm).trans hEntered⟩

theorem Inv.served {s : State} (h : Inv s) : Served s :=
  ⟨fun n => (h.iterate n).faithful, h.settles⟩

/-! ## A key that comes at the wrong time -/

/-- The shell is at its test sooner or later, and must be faithful there. -/
theorem never_served {P : State → Prop} (hKeep : ∀ s, P s → s.pc ≠ .test → P s.shell)
    (hTest : ∀ s, P s → s.pc = .test → ¬∀ n, Faithful (State.shell^[n] s)) {s : State} (h : P s) :
    ¬∀ n, Faithful (State.shell^[n] s) := by
  intro hFaithful
  obtain ⟨n, hP, hPc⟩ := reach_test hKeep h
  refine hTest _ hP hPc fun m => ?_
  rw [← Function.iterate_add_apply]
  exact hFaithful (m + n)

/-- The shell is neither at a command nor about to clear its flags. -/
def Pc.Resting : Pc → Prop
  | .exec | .running | .clearReady | .clearIndex => False
  | _ => True

/-- The lines that are executed, and the one that will be. -/
def answered (s : State) : Nat :=
  s.executed.length +
    if s.console.commandReady = 1 ∧ s.pc ≠ .running ∧ s.pc ≠ .clearReady then 1 else 0

theorem Accounted.answered {line : List Nat} {s : State} (h : Accounted line s)
    (hPc : s.pc ≠ .running ∧ s.pc ≠ .clearReady) : answered s = s.entered.length := by
  unfold ShellLines.answered
  rcases h with ⟨hReady, -, hEntered⟩ | ⟨hReady, -, hEntered⟩
  · rw [if_pos ⟨hReady, hPc⟩, hEntered, List.length_append]
    rfl
  · rw [if_neg fun h => absurd (h.1.symm.trans hReady) (by decide), hEntered]
    rfl

theorem Inv.answered {s : State} (h : Inv s) : answered s = s.entered.length := by
  have hPhase := h.phase
  unfold Phase at hPhase
  cases hPc : s.pc with
  | greet | test | prompt | yield =>
      rw [hPc] at hPhase
      obtain ⟨line, hLine, -⟩ := hPhase
      exact hLine.answered (by simp [hPc])
  | exec =>
      rw [hPc] at hPhase
      obtain ⟨-, line, hLine, -⟩ := hPhase
      exact hLine.answered (by simp [hPc])
  | running | clearReady =>
      rw [hPc] at hPhase
      simp [ShellLines.answered, hPc, hPhase.2.2]
  | clearIndex =>
      rw [hPc] at hPhase
      exact hPhase.answered (by simp [hPc])
  | clearByte k =>
      rw [hPc] at hPhase
      obtain ⟨-, line, hLine, -⟩ := hPhase
      exact hLine.answered (by simp [hPc])

/-- Enter when a line is ready: one of the two lines is not executed. -/
theorem enter_late {s : State} (hExec : s.pc = .exec → s.console.commandReady = 1)
    (h : answered s < s.entered.length) : ¬∀ n, Faithful (State.shell^[n] s) := by
  refine never_served
    (P := fun s => (s.pc = .exec → s.console.commandReady = 1) ∧ answered s < s.entered.length)
    ?_ ?_ ⟨hExec, h⟩
  · rintro s ⟨hExec, hLess⟩ hNot
    rw [shell_entered]
    unfold answered at hLess ⊢
    unfold State.shell
    cases hPc : s.pc with
    | test => exact absurd hPc hNot
    | exec =>
        rw [hExec hPc, hPc] at hLess
        simpa [State.commandExec] using hLess
    | clearByte k =>
        rw [hPc] at hLess
        by_cases hMore : k + 1 < 128
        · simpa [hMore] using hLess
        · simpa [hMore] using hLess
    | greet | running | clearReady | clearIndex | prompt | yield =>
        rw [hPc] at hLess
        simpa using hLess
  · rintro s ⟨-, hLess⟩ hPc hFaithful
    have hNow : Faithful s := hFaithful 0
    unfold answered at hLess
    by_cases hReady : s.console.commandReady = 1
    · rw [hNow.waiting hPc hReady, if_pos ⟨hReady, by simp [hPc]⟩, List.length_append] at hLess
      exact absurd hLess (Nat.lt_irrefl _)
    · rw [(hNow.pending hPc hReady).1, if_neg fun h => hReady h.1] at hLess
      exact absurd hLess (Nat.lt_irrefl _)

/-- Backspace on a line that has begun: its last character stays in the buffer. -/
theorem erase_late {s : State} (hReady : s.console.commandReady = 0) (hPc : s.pc.Resting)
    (hIndex : s.console.commandIndex ≠ s.typed.length) :
    ¬∀ n, Faithful (State.shell^[n] s) := by
  refine never_served
    (P := fun s => s.console.commandReady = 0 ∧ s.pc.Resting ∧
      s.console.commandIndex ≠ s.typed.length) ?_ ?_ ⟨hReady, hPc, hIndex⟩
  · rintro s ⟨hReady, hRest, hIndex⟩ hNot
    rw [shell_typed]
    unfold State.shell
    cases hPc : s.pc with
    | test => exact absurd hPc hNot
    | exec | running | clearReady | clearIndex =>
        rw [hPc] at hRest
        exact hRest.elim
    | clearByte k =>
        refine ⟨hReady, ?_, hIndex⟩
        simp only
        split <;> trivial
    | greet | prompt | yield => simpa [Pc.Resting] using ⟨hReady, hIndex⟩
  · rintro s ⟨hReady, -, hIndex⟩ hPc hFaithful
    have hNow : Faithful s := hFaithful 0
    exact hIndex (hNow.pending hPc (by rw [hReady]; decide)).2.2

/-- A character before `command_index` is cleared: it is not in the buffer afterwards. -/
theorem char_lost {s : State} (hTyped : s.typed ≠ [])
    (hPc : s.pc = .exec ∨ s.pc = .running ∨ s.pc = .clearReady ∨
      s.console.commandReady ≠ 1 ∧ (s.pc = .clearIndex ∨ s.pc.Resting ∧ s.console.commandIndex = 0)) :
    ¬∀ n, Faithful (State.shell^[n] s) := by
  refine never_served
    (P := fun s => s.typed ≠ [] ∧ (s.pc = .exec ∨ s.pc = .running ∨ s.pc = .clearReady ∨
      s.console.commandReady ≠ 1 ∧
        (s.pc = .clearIndex ∨ s.pc.Resting ∧ s.console.commandIndex = 0))) ?_ ?_ ⟨hTyped, hPc⟩
  · rintro s ⟨hTyped, hCase⟩ hNot
    rw [shell_typed]
    refine ⟨hTyped, ?_⟩
    unfold State.shell
    cases hPc : s.pc with
    | test => exact absurd hPc hNot
    | exec | running | clearReady => simp [State.commandExec]
    | clearIndex =>
        simp only [hPc, reduceCtorEq, false_or, true_or, and_true] at hCase
        simpa [Pc.Resting] using hCase
    | clearByte k =>
        simp only [hPc, reduceCtorEq, false_or, Pc.Resting, true_and] at hCase
        by_cases hMore : k + 1 < 128
        · simpa [hMore, Pc.Resting] using hCase
        · simpa [hMore, Pc.Resting] using hCase
    | greet | prompt | yield =>
        simp only [hPc, reduceCtorEq, false_or, Pc.Resting, true_and] at hCase
        simpa [Pc.Resting] using hCase
  · rintro s ⟨hTyped, hCase⟩ hPc hFaithful
    simp only [hPc, reduceCtorEq, false_or, Pc.Resting, true_and] at hCase
    have hNow : Faithful s := hFaithful 0
    have hLength : (0 : Int) = s.typed.length := hCase.2 ▸ (hNow.pending hPc hCase.1).2.2
    exact hTyped (List.eq_nil_of_length_eq_zero (by exact_mod_cast hLength.symm))

/-- A character while a line is ready. -/
theorem char_late {s : State} (hTyped : s.typed ≠ []) (hReady : s.console.commandReady = 1)
    (hPc : s.pc.Resting ∨ s.pc = .clearIndex) : ¬∀ n, Faithful (State.shell^[n] s) := by
  refine never_served
    (P := fun s => s.typed ≠ [] ∧ s.console.commandReady = 1 ∧ (s.pc.Resting ∨ s.pc = .clearIndex))
    ?_ ?_ ⟨hTyped, hReady, hPc⟩
  · rintro s ⟨hTyped, hReady, hCase⟩ hNot
    rw [shell_typed]
    refine ⟨hTyped, ?_⟩
    unfold State.shell
    cases hPc : s.pc with
    | test => exact absurd hPc hNot
    | exec | running | clearReady => simp [hPc, Pc.Resting] at hCase
    | clearByte k =>
        by_cases hMore : k + 1 < 128
        · simpa [hMore, Pc.Resting] using hReady
        · simpa [hMore, Pc.Resting] using hReady
    | greet | clearIndex | prompt | yield => simpa [Pc.Resting] using hReady
  · -- the line is executed, and the character cleared with it
    rintro s ⟨hTyped, hReady, -⟩ hPc hFaithful
    refine char_lost (s := s.shell) (by simpa using hTyped) (.inl ?_) fun n => hFaithful (n + 1)
    simp [State.shell, hPc, hReady]

theorem commandString_nonzero {command : Int → Nat} {m : Nat}
    (h : m < (commandString command).length) : command m ≠ 0 := by
  have hMem := List.getElem_mem h
  have hEq : (commandString command)[m] = command m := by
    unfold commandString at h ⊢
    rw [(List.takeWhile_prefix _).getElem h]
    simp
  rw [hEq] at hMem
  simpa using List.mem_takeWhile_imp hMem

/-- A character in a byte that is still to be cleared. -/
theorem char_cleared {s : State} {k : Nat} (hReady : s.console.commandReady = 0)
    (hTyped : s.typed.length = k + 1) (hPc : s.pc = .clearByte k) :
    ¬∀ n, Faithful (State.shell^[n] s) := by
  refine never_served
    (P := fun s => s.console.commandReady = 0 ∧ s.typed.length = k + 1 ∧
      (s.pc = .clearByte k ∨ s.pc.Resting ∧ s.console.command k = 0)) ?_ ?_
    ⟨hReady, hTyped, .inl hPc⟩
  · rintro s ⟨hReady, hTyped, hCase⟩ hNot
    rw [shell_typed]
    unfold State.shell
    cases hPc : s.pc with
    | test => exact absurd hPc hNot
    | exec | running | clearReady | clearIndex => simp [hPc, Pc.Resting] at hCase
    | clearByte j =>
        simp only [hPc, Pc.clearByte.injEq, Pc.Resting, true_and] at hCase
        refine ⟨hReady, hTyped, .inr ⟨?_, ?_⟩⟩
        · simp only
          split <;> trivial
        · rcases hCase with rfl | hZero
          · simp
          · simp [hZero]
    | greet | prompt | yield =>
        simp only [hPc, reduceCtorEq, false_or, Pc.Resting, true_and] at hCase
        simpa [Pc.Resting] using ⟨hReady, hTyped, hCase⟩
  · rintro s ⟨hReady, hTyped, hCase⟩ hPc hFaithful
    simp only [hPc, reduceCtorEq, false_or, Pc.Resting, true_and] at hCase
    have hNow : Faithful s := hFaithful 0
    have hString := (hNow.pending hPc (by rw [hReady]; decide)).2.1
    refine commandString_nonzero (m := k) ?_ hCase
    rw [hString, hTyped]
    exact Nat.lt_succ_self k

@[simp] theorem key_typed (s : State) (c : Nat) (stray : Cursor) :
    (s.key c stray).typed = (s.note (press c)).typed := rfl

theorem key_commandReady (s : State) (c : Nat) (stray : Cursor) :
    (s.key c stray).console.commandReady = ((press c).store s.console.buffer).ready :=
  congrArg Buffer.ready (key_buffer s c stray)

theorem key_commandIndex (s : State) (c : Nat) (stray : Cursor) :
    (s.key c stray).console.commandIndex = ((press c).store s.console.buffer).index :=
  congrArg Buffer.index (key_buffer s c stray)

@[simp] theorem key_entered (s : State) (c : Nat) (stray : Cursor) :
    (s.key c stray).entered = (s.note (press c)).entered := rfl

theorem Accounted.ready {line : List Nat} {s : State} (h : Accounted line s) :
    s.console.commandReady = 0 ∨ s.console.commandReady = 1 := by
  rcases h with ⟨hReady, -, -⟩ | ⟨hReady, -, -⟩
  · exact .inr hReady
  · exact .inl hReady

theorem Inv.ready {s : State} (h : Inv s) :
    s.console.commandReady = 0 ∨ s.console.commandReady = 1 := by
  have hPhase := h.phase
  unfold Phase at hPhase
  cases hPc : s.pc with
  | greet | test | prompt | yield =>
      rw [hPc] at hPhase
      obtain ⟨line, hLine, -⟩ := hPhase
      exact hLine.ready
  | exec | running | clearReady =>
      rw [hPc] at hPhase
      exact .inr hPhase.1
  | clearIndex =>
      rw [hPc] at hPhase
      exact hPhase.ready
  | clearByte k =>
      rw [hPc] at hPhase
      obtain ⟨-, line, hLine, -⟩ := hPhase
      exact hLine.ready

/-- The line being typed, in the buffer. -/
theorem Accounted.typing {k : Nat} {line : List Nat} {s : State} (h : Accounted line s)
    (hHolds : Holds k line s.console.buffer) (hReady : s.console.commandReady = 0) :
    s.console.commandIndex = s.typed.length ∧ s.typed.length ≤ k := by
  rcases h with ⟨hOne, -, -⟩ | ⟨-, hTyped, -⟩
  · exact absurd (hReady.symm.trans hOne) (by decide)
  · rw [hTyped]
    exact ⟨hHolds.index, hHolds.le⟩

theorem Inv.typing {s : State} (h : Inv s) (hReady : s.console.commandReady = 0)
    (hPc : s.pc ≠ .clearIndex) :
    s.pc.Resting ∧ s.console.commandIndex = s.typed.length ∧
      ∀ k, s.pc = .clearByte k → s.typed.length ≤ k := by
  have hPhase := h.phase
  unfold Phase at hPhase
  cases hPc' : s.pc with
  | greet | test | prompt | yield =>
      rw [hPc'] at hPhase
      obtain ⟨line, hLine, hHolds⟩ := hPhase
      exact ⟨trivial, (hLine.typing hHolds hReady).1, by simp⟩
  | exec | running | clearReady =>
      rw [hPc'] at hPhase
      exact absurd (hReady.symm.trans hPhase.1) (by decide)
  | clearIndex => exact absurd hPc' hPc
  | clearByte k =>
      rw [hPc'] at hPhase
      obtain ⟨-, line, hLine, hHolds⟩ := hPhase
      obtain ⟨hIndex, hLe⟩ := hLine.typing hHolds hReady
      refine ⟨trivial, hIndex, ?_⟩
      rintro j hj
      cases hj
      exact hLe

theorem enter_unserved {s : State} {c : Nat} {stray : Cursor} (h : Inv s)
    (hPress : press c = .enter) (hReady : s.console.commandReady ≠ 0) :
    ¬∀ n, Faithful (State.shell^[n] (s.key c stray)) := by
  have hOne : s.console.commandReady = 1 := h.ready.resolve_left hReady
  have hOne' : (s.key c stray).console.commandReady = 1 := by
    rw [key_commandReady, hPress]
    rfl
  refine enter_late (fun _ => hOne') ?_
  have hAnswered : answered (s.key c stray) = answered s := by
    simp only [answered, key_executed, key_pc, hOne, hOne']
  rw [hAnswered, h.answered, key_entered, hPress]
  simp [State.note]

theorem erase_unserved {s : State} {c : Nat} {stray : Cursor} (h : Inv s)
    (hPress : press c = .erase) (hOk : ¬PressOk .erase s) :
    ¬∀ n, Faithful (State.shell^[n] (s.key c stray)) := by
  simp only [PressOk, not_or] at hOk
  obtain ⟨hReady, hIndex, hPc⟩ := hOk
  have hZero : s.console.commandReady = 0 := h.ready.resolve_right hReady
  obtain ⟨hRest, hTyped, -⟩ := h.typing hZero hPc
  refine erase_late ?_ (by rwa [key_pc]) ?_
  · rw [key_commandReady, hPress]
    exact hZero
  · rw [key_commandIndex, key_typed, hPress]
    have hSame : (Press.erase.store s.console.buffer).index = s.console.commandIndex := rfl
    rw [hTyped] at hSame hIndex
    rw [hSame]
    simp only [State.note, List.length_dropLast]
    omega

theorem char_unserved {s : State} {c d : Nat} {stray : Cursor} (h : Inv s)
    (hPress : press c = .char d) (hOk : ¬PressOk (.char d) s) :
    ¬∀ n, Faithful (State.shell^[n] (s.key c stray)) := by
  have hTyped : (s.key c stray).typed = s.typed ++ [d] := by
    rw [key_typed, hPress]
    rfl
  have hSome : (s.key c stray).typed ≠ [] := by
    rw [hTyped]
    simp
  have hReady' : (s.key c stray).console.commandReady = s.console.commandReady := by
    rw [key_commandReady, hPress]
    rfl
  by_cases hIndexPc : s.pc = .clearIndex
  · by_cases hReady : s.console.commandReady = 1
    · exact char_late hSome (hReady'.trans hReady) (.inr (by rwa [key_pc]))
    · exact char_lost hSome (.inr (.inr (.inr ⟨by rwa [hReady'], .inl (by rwa [key_pc])⟩)))
  rcases h.ready with hReady | hReady
  · obtain ⟨hRest, hIndex, hLe⟩ := h.typing hReady hIndexPc
    cases hPc : s.pc with
    | greet | test | prompt | yield => exact absurd ⟨hReady, by simp [hPc]⟩ hOk
    | exec | running | clearReady | clearIndex =>
        rw [hPc] at hRest
        exact hRest.elim
    | clearByte k =>
        refine char_cleared (hReady'.trans hReady) ?_ (by rw [key_pc, hPc])
        have hNot : ¬s.console.commandIndex < k := fun hLt => hOk ⟨hReady, by simpa [hPc] using hLt⟩
        have := hLe k hPc
        rw [hIndex] at hNot
        rw [hTyped, List.length_append, List.length_singleton]
        omega
  · by_cases hRest : s.pc.Resting
    · exact char_late hSome (hReady'.trans hReady) (.inl (by rwa [key_pc]))
    · refine char_lost hSome ?_
      rw [key_pc]
      cases hPc : s.pc with
      | exec => exact .inl rfl
      | running => exact .inr (.inl rfl)
      | clearReady => exact .inr (.inr (.inl rfl))
      | clearIndex => exact absurd hPc hIndexPc
      | greet | test | prompt | yield | clearByte k =>
          rw [hPc] at hRest
          exact absurd trivial hRest

/-- The initialised variables. -/
def start : State where
  console := Console.start.console
  pc := .greet
  executed := []
  forks := 0
  entered := []
  typed := []

theorem Inv.start : Inv start := by
  refine ⟨rfl, [], .inr ⟨rfl, rfl, rfl⟩, rfl, by decide, by decide, fun m _ => ?_, by simp⟩
  rfl

theorem Inv.step {s s' : State} {e : Event} (h : Inv s) (hOk : Fits s e ∧ EventOk s e)
    (hStep : ShellLines.step s e = some s') : Inv s' := by
  cases e with
  | key code stray =>
      cases hStep
      exact h.key hOk.1 hOk.2
  | shell =>
      cases hStep
      exact h.shell

/-- **Lines typed and lines executed.**  While every key meets `EventOk`, in
whatever order keys and steps of the shell come, the next event meets it exactly
if the shell serves all that was typed: a key at another time loses a line or a
character, or adds it to another line. -/
theorem lines_served {events : List Event} {s s' : State} {e : Event}
    (hRun : exec step start events = some s) (hShort : Meets step Fits start events)
    (hMeets : Meets step EventOk start events) (hStep : step s e = some s') (hFits : Fits s e) :
    Served s' ↔ EventOk s e := by
  have hInv : Inv s :=
    (hShort.and hMeets).invariant (fun _ _ _ h hOk => h.step hOk) Inv.start hRun
  constructor
  · intro hServed
    cases e with
    | shell => trivial
    | key code stray =>
        cases hStep
        by_contra hNot
        simp only [EventOk] at hNot
        cases hPress : press (read code) with
        | none =>
            rw [hPress] at hNot
            exact hNot trivial
        | enter =>
            rw [hPress] at hNot
            exact enter_unserved hInv hPress hNot hServed.faithful
        | erase =>
            rw [hPress] at hNot
            exact erase_unserved hInv hPress hNot hServed.faithful
        | char d =>
            rw [hPress] at hNot
            exact char_unserved hInv hPress hNot hServed.faithful
  · intro hOk
    exact (hInv.step ⟨hFits, hOk⟩ hStep).served

/-- `hello` and Enter, and the first letter of the next line when the first two
bytes of the buffer are cleared. -/
def typingHello : List Event :=
  [.shell] ++ [0x23, 0x12, 0x26, 0x26, 0x18, 0x1C].map (.key · .elsewhere) ++
    List.replicate 7 .shell

theorem lines_served_hello :
    ∃ s s', exec step start typingHello = some s ∧
      step s (.key 0x1E .elsewhere) = some s' ∧ s'.executed = [hello] ∧ s'.forks = 1 ∧
      s'.typed = ['a'.toNat] ∧ Served s' := by
  obtain ⟨s, hRun⟩ := Option.isSome_iff_exists.mp
    (show (exec step start typingHello).isSome by decide +kernel)
  have hState : ∀ s ∈ exec step start typingHello,
      Fits s (.key 0x1E .elsewhere) ∧ EventOk s (.key 0x1E .elsewhere) ∧
        s.executed = [hello] ∧ s.forks = 1 ∧ s.typed = [] := by decide +kernel
  obtain ⟨hFits, hOk, hExecuted, hForks, hTyped⟩ := hState s hRun
  refine ⟨s, _, hRun, rfl, by simpa using hExecuted, by simpa using hForks, ?_,
    (lines_served hRun (by decide +kernel) (by decide +kernel) rfl hFits).mpr hOk⟩
  have hPress : press (Console.read 0x1E) = .char 'a'.toNat := by decide
  rw [key_typed, hPress]
  simp [State.note, hTyped]

/-- `a`, Enter and `b` before the shell is at its test: it executes `ab`. -/
theorem line_extended :
    ¬∀ events s, exec step start events = some s → Meets step Fits start events → Served s := by
  intro hServed
  have hTyped : ∀ s ∈ exec step start ([0x1E, 0x1C, 0x30].map (.key · .elsewhere)),
      s.shell.pc = .test ∧ s.shell.console.commandReady = 1 ∧
        s.shell.entered ≠ s.shell.executed ++ [commandString s.shell.console.command] := by
    decide +kernel
  obtain ⟨s, hRun⟩ := Option.isSome_iff_exists.mp
    (show (exec step start ([0x1E, 0x1C, 0x30].map (.key · .elsewhere))).isSome by decide +kernel)
  obtain ⟨hPc, hReady, hNot⟩ := hTyped s hRun
  exact hNot (((hServed _ s hRun (by decide +kernel)).faithful 1).waiting hPc hReady)

end MiniKernel.Ports.ShellLines
