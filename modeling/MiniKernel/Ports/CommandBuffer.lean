import Mathlib.Data.List.GetD
import MiniKernel.Ports.ShellLines

/-!
# The line in the command buffer

`keyboard_handler` stores at `command[command_index]` in three of its branches: a
character and moves on, or a zero and stays.  Backspace stores a zero and stays as well,
and the last branch takes the function keys.

`edited` is the line a person edits with the same keys.  `typing_exact` compares the
two over the keys since the buffer was last reset: they agree at every Enter, and the
index stays in the buffer, exactly when fewer than 128 characters came and before an
Enter no function key was used and nothing was erased.
-/

namespace MiniKernel.Ports.CommandBuffer

open MiniKernel.Ports.Console
open MiniKernel.Ports.ShellLines

/-! ## Keys -/

def enter : Nat := '\n'.toNat
def backspace : Nat := 8

/-- The printable characters, the space among them. -/
def Printable (c : Nat) : Prop := 32 ≤ c ∧ c < 127

def FunctionKey (c : Nat) : Prop := keyF 1 ≤ c ∧ c ≤ keyF 12

instance (c : Nat) : Decidable (Printable c) := inferInstanceAs (Decidable (_ ∧ _))

instance (c : Nat) : Decidable (FunctionKey c) := inferInstanceAs (Decidable (_ ∧ _))

/-- What `read` can return, by what the handler does with it. -/
inductive Kind (c : Nat) : Prop
  | quiet (hPress : press c = .none ∨ press c = .enter) (hBack : c ≠ backspace)
      (hPlain : ¬Printable c) (hFunction : ¬FunctionKey c)
  | back (h : c = backspace)
  | printable (hPress : press c = .char c) (h : Printable c)
  | function (hPress : press c = .char (c % 256)) (h : FunctionKey c)

/-- What holds of every entry of the key map holds of every key. -/
theorem read_forall (P : Nat → Prop) (hNone : P keyNone) (hAll : ∀ entry ∈ keymap, P entry.2)
    (code : Nat) : P (read code) := by
  unfold Console.read
  split
  · exact hNone
  · cases hKey : keymap.lookup code with
    | none => exact hNone
    | some c =>
        obtain ⟨before, after, hSplit, -⟩ := List.lookup_eq_some_iff.mp hKey
        exact hAll (code, c) (by rw [hSplit]; simp)

theorem read_kind (code : Nat) : Kind (read code) := by
  have hCases := read_forall (fun c =>
    ((press c = .none ∨ press c = .enter) ∧ c ≠ backspace ∧ ¬Printable c ∧ ¬FunctionKey c) ∨
      c = backspace ∨ (press c = .char c ∧ Printable c) ∨
      (press c = .char (c % 256) ∧ FunctionKey c)) (by decide) (by decide) code
  rcases hCases with ⟨hPress, hBack, hPlain, hFunction⟩ | hBack | ⟨hPress, h⟩ | ⟨hPress, h⟩
  · exact Kind.quiet hPress hBack hPlain hFunction
  · exact Kind.back hBack
  · exact Kind.printable hPress h
  · exact Kind.function hPress h

/-! ## Runs of the handler -/

/-- A keyboard interrupt: the scan code, and where the pointer of `add_line` points. -/
structure KeyEvent where
  code : Nat
  stray : Cursor
  deriving Repr, DecidableEq

def KeyEvent.key (e : KeyEvent) : Nat := read e.code

/-- One interrupt after another. -/
def typeKeys (events : List KeyEvent) (s : Terminal) : Terminal :=
  events.foldl (fun s e => s.keyboardHandler e.key e.stray) s

/-- The index of `command` that `keyboard_handler` stores at, if it does. -/
def storedAt (c : Nat) (s : Terminal) : Option Int :=
  match press c with
  | .none => none
  | _ => some s.commandIndex

/-- The shell has reset the buffer: `command_index = 0` and `empty_string()`. -/
structure Reset (s : Terminal) : Prop where
  index : s.commandIndex = 0
  clear : ∀ k : Nat, k < 128 → s.command k = 0

theorem typeKeys_append (events : List KeyEvent) (e : KeyEvent) (s : Terminal) :
    typeKeys (events ++ [e]) s = (typeKeys events s).keyboardHandler e.key e.stray := by
  simp only [typeKeys, List.foldl_append, List.foldl_cons, List.foldl_nil]

theorem typeKeys_buffer (events : List KeyEvent) (e : KeyEvent) (s : Terminal) :
    (typeKeys (events ++ [e]) s).buffer = (press e.key).store (typeKeys events s).buffer := by
  rw [typeKeys_append, Terminal.keyboardHandler_buffer]

/-! ## The edited line -/

/-- What a key does to the line: backspace removes the last character, a printable key
adds one, all others nothing. -/
def editKey (line : List Nat) (c : Nat) : List Nat :=
  if c = backspace then line.dropLast
  else if Printable c then line ++ [c]
  else line

def edited (keys : List Nat) : List Nat := keys.foldl editKey []

/-- The characters the handler stores. -/
def stored (keys : List Nat) : List Nat := keys.foldl (fun line c => onLine (press c) line) []

/-- `command` holds the line and ends it with a zero. -/
def Spells (command : Int → Nat) (line : List Nat) : Prop :=
  (∀ m : Nat, m < line.length → command m = line.getD m 0) ∧ command line.length = 0

/-- The index stays below `COMMAND_SIZE`, every store is in `command`, and at every Enter
`command` holds the edited line. -/
structure Kept (s : Terminal) (events : List KeyEvent) : Prop where
  index : ∀ before after, events = before ++ after →
    0 ≤ (typeKeys before s).commandIndex ∧ (typeKeys before s).commandIndex < 128
  stores : ∀ before e after, events = before ++ e :: after → ∀ k,
    storedAt e.key (typeKeys before s) = some k → 0 ≤ k ∧ k < 128
  line : ∀ before e after, events = before ++ e :: after → e.key = enter →
    Spells (typeKeys (before ++ [e]) s).command
      ((edited (before.map KeyEvent.key)).take 127)

/-- Fewer than 128 characters, and before an Enter no function key and no backspace
after a printable character. -/
structure Plain (keys : List Nat) : Prop where
  short : (keys.filter fun c => Printable c ∨ FunctionKey c).length ≤ 127
  noFunction : ∀ before after, keys = before ++ enter :: after → ∀ c ∈ before, ¬FunctionKey c
  noErasure : ∀ before after, keys = before ++ enter :: after →
    before.Pairwise fun c d => Printable c → d ≠ backspace

/-! ## The two lines -/

theorem edited_append (keys : List Nat) (c : Nat) :
    edited (keys ++ [c]) = editKey (edited keys) c := by
  simp only [edited, List.foldl_append, List.foldl_cons, List.foldl_nil]

theorem stored_append (keys : List Nat) (c : Nat) :
    stored (keys ++ [c]) = onLine (press c) (stored keys) := by
  simp only [stored, List.foldl_append, List.foldl_cons, List.foldl_nil]

theorem not_printable_function {c : Nat} (h : FunctionKey c) : ¬Printable c := by
  have hLow : 256 ≤ keyF 1 := by decide
  have hKey := h.1
  unfold Printable
  omega

/-- What the handler stores, by the kind of key. -/
theorem Kind.onLine {c : Nat} (h : Kind c) (line : List Nat) :
    onLine (press c) line =
      if Printable c ∨ FunctionKey c then line ++ [c % 256] else line := by
  cases h with
  | quiet hPress hBack hPlain hFunction =>
      rw [if_neg (not_or.mpr ⟨hPlain, hFunction⟩)]
      rcases hPress with hPress | hPress <;> rw [hPress] <;> rfl
  | back h => subst h; rfl
  | printable hPress h =>
      have hByte : c % 256 = c := Nat.mod_eq_of_lt (Nat.lt_trans h.2 (by decide))
      rw [hPress, if_pos (Or.inl h), hByte]
      rfl
  | function hPress h =>
      rw [hPress, if_pos (Or.inr h)]
      rfl

variable {keys : List Nat} {c : Nat}

theorem stored_length (hKeys : ∀ c ∈ keys, Kind c) :
    (stored keys).length = (keys.filter fun c => Printable c ∨ FunctionKey c).length := by
  induction keys using List.reverseRecOn with
  | nil => rfl
  | append_singleton keys c ih =>
      have hBefore := ih fun d hd => hKeys d (List.mem_append_left _ hd)
      rw [stored_append, (hKeys c (by simp)).onLine, List.filter_append, List.length_append,
        ← hBefore]
      by_cases hStores : Printable c ∨ FunctionKey c
      · simp [hStores]
      · simp [hStores]

/-- The edited line is the shorter one. -/
theorem edited_length_le (hKeys : ∀ c ∈ keys, Kind c) :
    (edited keys).length ≤ (stored keys).length := by
  induction keys using List.reverseRecOn with
  | nil => exact Nat.le_refl _
  | append_singleton keys c ih =>
      have hBefore := ih fun d hd => hKeys d (List.mem_append_left _ hd)
      rw [edited_append, editKey, stored_append, (hKeys c (by simp)).onLine]
      by_cases hBack : c = backspace
      · rw [if_pos hBack, List.length_dropLast]
        split
        · simp only [List.length_append]
          omega
        · omega
      · rw [if_neg hBack]
        by_cases hPlain : Printable c
        · rw [if_pos hPlain, if_pos (Or.inl hPlain)]
          simpa using hBefore
        · rw [if_neg hPlain]
          split
          · simp only [List.length_append]
            omega
          · exact hBefore

theorem stored_eq_nil (hKeys : ∀ c ∈ keys, Kind c) :
    stored keys = [] ↔ ∀ c ∈ keys, ¬Printable c ∧ ¬FunctionKey c := by
  rw [← List.length_eq_zero_iff, stored_length hKeys, List.length_eq_zero_iff,
    List.filter_eq_nil_iff]
  simp only [decide_eq_true_eq, not_or]

/-- **Where the two lines agree**: no function key, and nothing erased. -/
theorem edited_eq_stored (hKeys : ∀ c ∈ keys, Kind c) :
    edited keys = stored keys ↔ (∀ c ∈ keys, ¬FunctionKey c) ∧
      keys.Pairwise fun c d => Printable c → d ≠ backspace := by
  induction keys using List.reverseRecOn with
  | nil => simp [edited, stored]
  | append_singleton keys c ih =>
      have hEarlier : ∀ d ∈ keys, Kind d := fun d hd => hKeys d (List.mem_append_left _ hd)
      have hBefore := ih hEarlier
      have hLe := edited_length_le hEarlier
      have hNil := stored_eq_nil hEarlier
      have hLast := (hKeys c (by simp)).onLine (stored keys)
      simp only [edited_append, stored_append, hLast, List.forall_mem_append,
        List.forall_mem_singleton, List.pairwise_append, List.pairwise_singleton, true_and]
      unfold editKey
      cases hKeys c (by simp) with
      | quiet hPress hBack hPlain hFunction =>
          simp [hBack, hPlain, hFunction, hBefore]
      | back h =>
          subst h
          rw [if_pos rfl, if_neg (by decide)]
          constructor
          · intro hEq
            -- A backspace shortens the edited line, so that must have been empty.
            have hLengths := congrArg List.length hEq
            rw [List.length_dropLast] at hLengths
            have hStored : stored keys = [] := List.length_eq_zero_iff.mp (by omega)
            have hEdited : edited keys = [] := List.length_eq_zero_iff.mp (by omega)
            obtain ⟨hFunction, hErasure⟩ := hBefore.mp (hEdited.trans hStored.symm)
            exact ⟨⟨hFunction, by decide⟩, hErasure,
              fun d hd hPlain => absurd hPlain (hNil.mp hStored d hd).1⟩
          · rintro ⟨⟨hFunction, -⟩, hErasure, hNone⟩
            have hStored : stored keys = [] :=
              hNil.mpr fun d hd => ⟨fun hPlain => hNone d hd hPlain rfl, hFunction d hd⟩
            rw [hBefore.mpr ⟨hFunction, hErasure⟩, hStored]
            rfl
      | printable hPress h =>
          have hBack : c ≠ backspace := fun hEq => absurd (hEq ▸ h) (by decide)
          have hFunction : ¬FunctionKey c := fun hKey => not_printable_function hKey h
          have hByte : c % 256 = c := Nat.mod_eq_of_lt (Nat.lt_trans h.2 (by decide))
          simp [hBack, h, hFunction, hByte, hBefore]
      | function hPress h =>
          have hBack : c ≠ backspace := fun hEq => absurd (hEq ▸ h) (by decide)
          rw [if_neg hBack, if_neg (not_printable_function h), if_pos (Or.inr h)]
          constructor
          · intro hEq
            have hLengths := congrArg List.length hEq
            rw [List.length_append, List.length_singleton] at hLengths
            omega
          · rintro ⟨⟨-, hNone⟩, -⟩
            exact absurd h hNone

/-! ## The buffer holds what is stored -/

variable {s : Terminal} {events : List KeyEvent}

theorem keys_kind (events : List KeyEvent) : ∀ c ∈ events.map KeyEvent.key, Kind c := by
  intro c hc
  obtain ⟨e, -, rfl⟩ := List.mem_map.mp hc
  exact read_kind e.code

theorem Reset.holds (h : Reset s) : Holds 128 [] s.buffer := by
  refine ⟨h.index, by decide, by decide, fun m hm => ?_, by simp⟩
  exact h.clear m hm

/-- **The run of the handler** on a line that fits. -/
theorem Reset.typed (h : Reset s) (hShort : (stored (events.map KeyEvent.key)).length ≤ 127) :
    Holds 128 (stored (events.map KeyEvent.key)) (typeKeys events s).buffer := by
  induction events using List.reverseRecOn with
  | nil => exact h.holds
  | append_singleton events e ih =>
      rw [List.map_append, List.map_singleton, stored_append] at hShort ⊢
      rw [typeKeys_buffer]
      have hLe : (stored (events.map KeyEvent.key)).length ≤
          (onLine (press e.key) (stored (events.map KeyEvent.key))).length := by
        unfold onLine
        split <;> simp
      refine (ih (by omega)).store fun c hChar => ?_
      rw [hChar, onLine, List.length_append, List.length_singleton] at hShort
      refine ⟨by omega, hShort, ?_⟩
      rintro rfl
      exact press_read e.code hChar

/-- The index counts what was stored. -/
theorem Reset.index_eq (h : Reset s)
    (hShort : (stored (events.map KeyEvent.key)).length ≤ 127) :
    (typeKeys events s).commandIndex = (stored (events.map KeyEvent.key)).length :=
  (h.typed hShort).index

/-- **The index stays in the buffer** while fewer than 128 characters come. -/
theorem Reset.short (h : Reset s) (hIndex : ∀ before after, events = before ++ after →
    0 ≤ (typeKeys before s).commandIndex ∧ (typeKeys before s).commandIndex < 128) :
    (stored (events.map KeyEvent.key)).length ≤ 127 := by
  induction events using List.reverseRecOn with
  | nil => exact Nat.zero_le _
  | append_singleton events e ih =>
      have hBefore := ih fun before after hSplit => hIndex before (after ++ [e]) (by
        rw [hSplit, List.append_assoc])
      have hAll := (hIndex (events ++ [e]) [] (by simp)).2
      have hStored := congrArg Buffer.index (typeKeys_buffer events e s)
      change (typeKeys (events ++ [e]) s).commandIndex = _ at hStored
      rw [hStored] at hAll
      rw [List.map_append, List.map_singleton, stored_append]
      have hHolds := h.typed hBefore
      unfold onLine
      split
      case h_1 c hPress =>
          rw [hPress] at hAll
          simp only [Press.store, hHolds.index] at hAll
          rw [int32_eq (by omega) (by omega)] at hAll
          simp only [List.length_append, List.length_singleton]
          omega
      case h_2 => exact hBefore

/-- A buffer spells the line it holds and no other. -/
theorem spells_iff {typed line : List Nat} {b : Buffer} (h : Holds 128 typed b)
    (hLength : line.length ≤ typed.length) : Spells b.command line ↔ line = typed := by
  have hShort := h.short
  constructor
  · rintro ⟨hChars, hEnd⟩
    rw [h.chars line.length (by omega)] at hEnd
    have hSame : line.length = typed.length := by
      by_contra hNe
      have hLt : line.length < typed.length := by omega
      rw [List.getD_eq_getElem _ _ hLt] at hEnd
      exact h.nonzero _ (List.getElem_mem hLt) hEnd
    refine List.ext_getElem hSame fun m hm hm' => ?_
    have hHere := hChars m hm
    rw [h.chars m (by omega), List.getD_eq_getElem _ _ hm', List.getD_eq_getElem _ _ hm] at hHere
    exact hHere.symm
  · rintro rfl
    refine ⟨fun m hm => h.chars m (by omega), ?_⟩
    rw [h.chars line.length (by omega), List.getD_eq_default _ _ (Nat.le_refl _)]

/-! ## When the buffer is kept -/

theorem stored_before_le {before after : List KeyEvent} (hSplit : events = before ++ after) :
    (stored (before.map KeyEvent.key)).length ≤ (stored (events.map KeyEvent.key)).length := by
  rw [stored_length (keys_kind before), stored_length (keys_kind events), hSplit,
    List.map_append, List.filter_append, List.length_append]
  exact Nat.le_add_right _ _

theorem storedAt_eq {k : Int} (h : storedAt c s = some k) : k = s.commandIndex := by
  unfold storedAt at h
  split at h
  · exact absurd h (by simp)
  · exact (Option.some.inj h).symm

/-- **At an Enter**, after keys that fit. -/
theorem Reset.holds_iff (h : Reset s) {e : KeyEvent} (hEnter : e.key = enter)
    (hShort : (stored (events.map KeyEvent.key)).length ≤ 127) :
    Spells (typeKeys (events ++ [e]) s).command ((edited (events.map KeyEvent.key)).take 127) ↔
      (∀ c ∈ events.map KeyEvent.key, ¬FunctionKey c) ∧
        (events.map KeyEvent.key).Pairwise fun c d => Printable c → d ≠ backspace := by
  have hPress : press e.key = .enter := by rw [hEnter]; rfl
  have hEnded : Holds 128 (stored (events.map KeyEvent.key))
      (typeKeys (events ++ [e]) s).buffer := by
    rw [typeKeys_buffer, hPress]
    exact (h.typed hShort).store (p := .enter) fun c hChar => absurd hChar (by simp)
  have hLe := edited_length_le (keys_kind events)
  rw [List.take_of_length_le (Nat.le_trans hLe hShort), ← edited_eq_stored (keys_kind events)]
  exact spells_iff hEnded hLe

/-- The keys before an Enter are those of the events before it. -/
theorem keys_before {before after : List Nat}
    (h : events.map KeyEvent.key = before ++ enter :: after) :
    ∃ first e rest, events = first ++ e :: rest ∧ first.map KeyEvent.key = before ∧
      e.key = enter := by
  obtain ⟨first, last, rfl, hFirst, hLast⟩ := List.map_eq_append_iff.mp h
  obtain ⟨e, rest, rfl, hKey, -⟩ := List.map_eq_cons_iff.mp hLast
  exact ⟨first, e, rest, rfl, hFirst, hKey⟩

/-- **When the buffer is kept**: for every sequence of keys since the buffer was reset,
the index and the stores stay in `command` and every Enter finds the edited line,
exactly when fewer than 128 characters come, and before an Enter no function key is
used and no backspace comes after a printable character. -/
theorem typing_exact (s : Terminal) (hReset : Reset s) (events : List KeyEvent) :
    Kept s events ↔ Plain (events.map KeyEvent.key) := by
  constructor
  · intro h
    have hShort := hReset.short h.index
    have hEnter : ∀ before after, events.map KeyEvent.key = before ++ enter :: after →
        (∀ c ∈ before, ¬FunctionKey c) ∧
          before.Pairwise fun c d => Printable c → d ≠ backspace := by
      intro before after hSplit
      obtain ⟨first, e, rest, hEvents, rfl, hKey⟩ := keys_before hSplit
      exact (hReset.holds_iff hKey (Nat.le_trans (stored_before_le hEvents) hShort)).mp
        (h.line first e rest hEvents hKey)
    refine ⟨?_, fun before after hSplit => (hEnter before after hSplit).1,
      fun before after hSplit => (hEnter before after hSplit).2⟩
    rwa [stored_length (keys_kind events)] at hShort
  · intro h
    have hShort : (stored (events.map KeyEvent.key)).length ≤ 127 := by
      rw [stored_length (keys_kind events)]
      exact h.short
    have hIndex : ∀ before after, events = before ++ after →
        0 ≤ (typeKeys before s).commandIndex ∧ (typeKeys before s).commandIndex < 128 := by
      intro before after hSplit
      have hBefore := Nat.le_trans (stored_before_le hSplit) hShort
      rw [hReset.index_eq hBefore]
      omega
    refine ⟨hIndex, fun before e after hSplit k hStored => ?_,
      fun before e after hSplit hKey => ?_⟩
    · rw [storedAt_eq hStored]
      exact hIndex before (e :: after) hSplit
    · refine (hReset.holds_iff hKey (Nat.le_trans (stored_before_le hSplit) hShort)).mpr ?_
      have hKeys : events.map KeyEvent.key =
          before.map KeyEvent.key ++ enter :: after.map KeyEvent.key := by
        rw [hSplit, List.map_append, List.map_cons, hKey]
      exact ⟨h.noFunction _ _ hKeys, h.noErasure _ _ hKeys⟩

/-- Keys by their scan codes. -/
def keysOf (codes : List Nat) : List KeyEvent := codes.map fun code => ⟨code, .elsewhere⟩

/-- A line without function keys and erasures. -/
theorem Plain.of_line (hShort : (keys.filter fun c => Printable c ∨ FunctionKey c).length ≤ 127)
    (hFunction : ∀ c ∈ keys, ¬FunctionKey c)
    (hErasure : keys.Pairwise fun c d => Printable c → d ≠ backspace) : Plain keys where
  short := hShort
  noFunction _ _ hSplit c hc := hFunction c (hSplit ▸ List.mem_append_left _ hc)
  noErasure _ _ hSplit := (List.pairwise_append.mp (hSplit ▸ hErasure)).1

/-- A backspace on the empty line, `hello`, an arrow key and Enter. -/
theorem typing_exact_hello :
    Kept Console.start.console (keysOf [0x0E, 0x23, 0x12, 0x26, 0x26, 0x18, 0x48, 0x1C]) :=
  (typing_exact Console.start.console ⟨rfl, fun _ _ => rfl⟩ _).mpr
    (Plain.of_line (by decide) (by decide) (by decide))

/-- `a`, backspace and Enter: the line is empty, and `command` is `a`. -/
theorem erased_kept : ¬Kept Console.start.console (keysOf [0x1E, 0x0E, 0x1C]) := by
  intro h
  have hEmpty := h.line (keysOf [0x1E, 0x0E]) ⟨0x1C, .elsewhere⟩ [] rfl (by decide)
  have hEdited : edited ((keysOf [0x1E, 0x0E]).map KeyEvent.key) = [] := by decide
  rw [hEdited] at hEmpty
  exact absurd hEmpty.2 (by decide +kernel)

end MiniKernel.Ports.CommandBuffer
