import MiniKernel.Ports.ConsoleReports
import MiniKernel.Verified.BoundedWaiting
import Mathlib.Data.List.TakeWhile

/-!
# The uptime on the screen

`user_up_time` polls `get_seconds` and shows each new value in the third row of
the screen, with cursors of its own and over what is there.  Numerals are not
cleared first; what can be read in the row is the number that was written last
because the seconds only grow.

Other processes and keys may do to the screen what they want as long as they
leave that row alone; scrolling does not.
-/

namespace MiniKernel.Ports.UptimeDisplay

open MiniKernel.Verified.BoundedWaiting
open MiniKernel.Verified.Trace
open MiniKernel.Ports.Console
open MiniKernel.Ports.Console.Terminal
open MiniKernel.Ports.ConsoleNumbers
open MiniKernel.Ports.ConsoleReports (chars)

/-- `print_time_message`; its cursor is its own. -/
def printTimeMessage (str : List Nat) (i : Int) (s : Terminal) : Terminal :=
  { runAll (str.flatMap printDigit) { s with i := i } with i := s.i }

/-- `sys_print_seconds`. -/
def sysPrintSeconds (seconds : Nat) (s : Terminal) : Terminal :=
  let titled := printTimeMessage (chars "Up Time") 0 s
  { runAll (printNumber seconds) { titled with i := 160 } with i := s.i }

/-- The character in a column of the third row. -/
def column (s : Terminal) (k : Nat) : Nat := (s.screen (160 + k)).char

def IsDigit (c : Nat) : Prop := '0'.toNat ≤ c ∧ c ≤ '9'.toNat

instance (c : Nat) : Decidable (IsDigit c) := inferInstanceAs (Decidable (_ ∧ _))

/-- The number that can be read at the beginning of the row. -/
def numeral (s : Terminal) : List Nat := ((List.range 80).map (column s)).takeWhile (IsDigit ·)

/-- The row holds the text and no digit after it. -/
def Shows (str : List Nat) (s : Terminal) : Prop :=
  ∀ k < 80, (str[k]?).elim (¬IsDigit (column s k)) (column s k = ·)

/-- The row is the same. -/
def Leaves (s s' : Terminal) : Prop := ∀ k < 80, column s' k = column s k

/-! ## Printing over what is there -/

/-- The screen with a text over it. -/
def overlay (str : List Nat) (p : Int) (screen : Int → Cell) : Int → Cell :=
  fun k => if p ≤ k then (str[(k - p).toNat]?).elim (screen k) fun c => ⟨c % 256, 0x0F⟩
    else screen k

theorem overlay_cons (c : Nat) (str : List Nat) (p : Int) (screen : Int → Cell) :
    overlay (c :: str) p screen = overlay str (p + 1) (setCell screen p ⟨c % 256, 0x0F⟩) := by
  funext k
  unfold overlay setCell
  rcases lt_trichotomy k p with hBefore | hAt | hAfter
  · rw [if_neg (by omega), if_neg (by omega), if_neg (by omega)]
  · subst hAt
    rw [if_pos (Int.le_refl k), if_neg (by omega), if_pos rfl, Int.sub_self]
    rfl
  · have hIndex : (k - p).toNat = (k - (p + 1)).toNat + 1 := by omega
    rw [if_pos (by omega), if_pos (by omega), if_neg (by omega), hIndex, List.getElem?_cons_succ]

/-- A text is printed from a cursor that stays on the screen. -/
theorem printDigit_overlay (str : List Nat) : ∀ s : Terminal, 0 ≤ s.i → s.i + str.length < 2000 →
    (runAll (str.flatMap printDigit) s).screen = overlay str s.i s.screen ∧
      (runAll (str.flatMap printDigit) s).i = s.i + str.length ∧
      (runAll (str.flatMap printDigit) s).j = s.j := by
  induction str with
  | nil =>
      intro s _ _
      refine ⟨?_, (Int.add_zero _).symm, rfl⟩
      funext k
      unfold overlay
      split <;> rfl
  | cons c str ih =>
      intro s hLow hHigh
      rw [List.length_cons, Nat.cast_succ] at hHigh
      have hTest : Op.addLineIfNeeded.run s = s := if_neg (by omega)
      have hNext : ((s.print c s.i).moveBy 1).i = s.i + 1 := by
        show int32 (s.i + 1) = s.i + 1
        exact int32_eq (by omega) (by omega)
      have hRun : runAll ((c :: str).flatMap printDigit) s =
          runAll (str.flatMap printDigit) ((s.print c s.i).moveBy 1) := by
        show runAll (str.flatMap printDigit)
          ((Op.advance.run (Op.run (.print c) (Op.addLineIfNeeded.run s)))) = _
        rw [hTest]
        rfl
      obtain ⟨hScreen, hCursor, hColumn⟩ := ih ((s.print c s.i).moveBy 1) (by omega) (by omega)
      rw [hRun, hScreen, hCursor, hColumn, hNext, overlay_cons, List.length_cons, Nat.cast_succ]
      refine ⟨rfl, by omega, rfl⟩

theorem decimal_length_le {m n : Nat} (h : m ≤ n) : (decimal m).length ≤ (decimal n).length := by
  simp only [decimal, Nat.toString_eq_ofList_toDigits, String.toList_ofList, List.length_map]
  have hPositive : 0 < (Nat.toDigits 10 n).length := Nat.length_toDigits_pos
  rw [Nat.length_toDigits_le_iff (by decide) hPositive]
  exact lt_of_le_of_lt h ((Nat.length_toDigits_le_iff (by decide) hPositive).mp (Nat.le_refl _))

theorem decimal_length {n : Nat} (hn : n < 2 ^ 32) : (decimal n).length ≤ 10 := by
  simp only [decimal, Nat.toString_eq_ofList_toDigits, String.toList_ofList, List.length_map]
  exact (Nat.length_toDigits_le_iff (by decide) (by decide)).mpr (by omega)

theorem decimal_digit {n c : Nat} (h : c ∈ decimal n) : IsDigit c := by
  rw [decimal, Nat.toString_eq_ofList_toDigits, String.toList_ofList, List.mem_map] at h
  obtain ⟨d, hMem, rfl⟩ := h
  have hDigit : d.isDigit := Nat.isDigit_of_mem_toDigits (by decide) (by decide) hMem
  rw [Char.isDigit, Bool.and_eq_true, decide_eq_true_eq, decide_eq_true_eq] at hDigit
  exact hDigit

theorem printNumber_overlay {n : Nat} (hn : n < 2 ^ 32) (s : Terminal) (hLow : 0 ≤ s.i)
    (hHigh : s.i + 10 < 2000) :
    (runAll (printNumber n) s).screen = overlay (decimal n) s.i s.screen ∧
      (runAll (printNumber n) s).j = s.j := by
  have hLength := decimal_length hn
  obtain ⟨hScreen, hCursor, hColumn⟩ := printDigit_overlay (decimal n) s hLow (by omega)
  have hRun : runAll (printNumber n) s = runAll ((decimal n).flatMap printDigit) s := by
    rw [printNumber_eq, printDigits, ConsoleText.runAll_append]
    exact if_neg (by omega)
  rw [hRun]
  exact ⟨hScreen, hColumn⟩

/-- **What `sys_print_seconds` does to the screen.** -/
theorem sysPrintSeconds_overlay {n : Nat} (hn : n < 2 ^ 32) (s : Terminal) :
    (sysPrintSeconds n s).screen = overlay (decimal n) 160 (overlay (chars "Up Time") 0 s.screen) ∧
      (sysPrintSeconds n s).i = s.i ∧ (sysPrintSeconds n s).j = s.j := by
  obtain ⟨hTitle, -, hColumn⟩ := printDigit_overlay (chars "Up Time") { s with i := 0 }
    (Int.le_refl 0) (show (0 : Int) + ((chars "Up Time").length : Nat) < 2000 by decide)
  obtain ⟨hNumber, hColumn'⟩ := printNumber_overlay hn
    { printTimeMessage (chars "Up Time") 0 s with i := 160 } (show (0 : Int) ≤ 160 by decide)
    (show (160 : Int) + 10 < 2000 by decide)
  replace hTitle : (printTimeMessage (chars "Up Time") 0 s).screen =
      overlay (chars "Up Time") 0 s.screen := hTitle
  replace hColumn : (printTimeMessage (chars "Up Time") 0 s).j = s.j := hColumn
  unfold sysPrintSeconds
  generalize printTimeMessage (chars "Up Time") 0 s = titled at *
  simp only at hNumber hColumn' ⊢
  exact ⟨hNumber.trans (by rw [hTitle]), trivial, hColumn'.trans hColumn⟩

/-- Only the cells of the numeral change in the row. -/
theorem column_sysPrintSeconds {n : Nat} (hn : n < 2 ^ 32) (s : Terminal) (k : Nat) :
    column (sysPrintSeconds n s) k = ((decimal n)[k]?).getD (column s k) := by
  have hTitle : overlay (chars "Up Time") 0 s.screen (160 + k) = s.screen (160 + k) := by
    have hNone : (chars "Up Time")[((160 + k : Int) - 0).toNat]? = none :=
      List.getElem?_eq_none (show 7 ≤ _ by omega)
    rw [overlay, if_pos (by omega), hNone]
    rfl
  have hIndex : ((160 + k : Int) - 160).toNat = k := by omega
  unfold column
  rw [(sysPrintSeconds_overlay hn s).1, overlay, if_pos (by omega), hTitle, hIndex]
  cases hCell : (decimal n)[k]? with
  | none => rfl
  | some c =>
      have hDigit := decimal_digit (List.mem_of_getElem? hCell)
      exact Nat.mod_eq_of_lt (lt_of_le_of_lt hDigit.2 (by decide))

/-- **A numeral over one that is not longer.** -/
theorem shows_sysPrintSeconds {n : Nat} (hn : n < 2 ^ 32) {str : List Nat} {s : Terminal}
    (hShows : Shows str s) (hLength : str.length ≤ (decimal n).length) :
    Shows (decimal n) (sysPrintSeconds n s) := by
  intro k hk
  rw [column_sysPrintSeconds hn]
  cases hCell : (decimal n)[k]? with
  | some c => rfl
  | none =>
      have hOld := hShows k hk
      rw [List.getElem?_eq_none (hLength.trans (List.getElem?_eq_none_iff.mp hCell))] at hOld
      exact hOld

theorem Shows.leaves {str : List Nat} {s s' : Terminal} (h : Shows str s) (hLeaves : Leaves s s') :
    Shows str s' := by
  intro k hk
  rw [hLeaves k hk]
  exact h k hk

/-- What is shown can be read. -/
theorem numeral_eq {str : List Nat} {s : Terminal} (h : Shows str s) (hLength : str.length ≤ 80)
    (hDigits : ∀ c ∈ str, IsDigit c) : numeral s = str := by
  have hSplit : List.range 80 =
      List.range str.length ++ (List.range (80 - str.length)).map (str.length + ·) := by
    rw [← List.range_add, Nat.add_sub_cancel' hLength]
  have hText : (List.range str.length).map (column s) = str := by
    refine List.ext_getElem (by simp) fun k hk hk' => ?_
    have hCell := h k (by omega)
    rw [List.getElem?_eq_getElem hk'] at hCell
    simpa using hCell
  have hRest : (((List.range (80 - str.length)).map (str.length + ·)).map (column s)).takeWhile
      (IsDigit ·) = [] := by
    rw [List.takeWhile_eq_nil_iff]
    intro hSome
    have hCell := h str.length (by simpa using hSome)
    rw [List.getElem?_eq_none (Nat.le_refl _)] at hCell
    simpa using hCell
  rw [numeral, hSplit, List.map_append, hText,
    List.takeWhile_append_of_pos (by simpa using hDigits), hRest, List.append_nil]

/-! ## `user_up_time` -/

/-- The statement of `user_up_time` that comes next. -/
inductive Pc
  /-- `sec = user_get_second()`. -/
  | read
  /-- `last != sec`. -/
  | test
  /-- `write_second(sec)`. -/
  | write
  /-- `last = sec`. -/
  | keep
  deriving Repr, DecidableEq

structure State where
  console : Terminal
  ticks : Nat
  last : Nat
  sec : Nat
  pc : Pc

/-- `get_seconds`. -/
def getSeconds (s : State) : Nat := s.ticks / 100

inductive Event
  | code
  | tick
  /-- Something else is done to the console. -/
  | others (console : Terminal)

/-- The next statement. -/
def advance (s : State) : State :=
  match s.pc with
  | .read => { s with sec := getSeconds s, pc := .test }
  | .test => { s with pc := if s.last ≠ s.sec then .write else .read }
  | .write => { s with console := sysPrintSeconds s.sec s.console, pc := .keep }
  | .keep => { s with last := s.sec, pc := .read }

def step (s : State) : Event → Option State
  | .code => some (advance s)
  | .tick => some { s with ticks := (s.ticks + 1) % 2 ^ 32 }
  | .others console => some { s with console := console }

/-- `-1`. -/
def never : Nat := 2 ^ 32 - 1

/-- The loop is entered. -/
def start (console : Terminal) (ticks : Nat) : State where
  console := console
  ticks := ticks
  last := never
  sec := 0
  pc := .read

/-- The others leave the row alone, and `ticks` does not wrap. -/
def Allowed (s : State) : Event → Prop
  | .code => True
  | .tick => s.ticks + 1 < 2 ^ 32
  | .others console => Leaves s.console console

/-- The seconds that were shown last. -/
def shown (s : State) : Option Nat :=
  if s.pc = .keep then some s.sec else if s.last = never then none else some s.last

variable {s s' : State} {n : Nat}

/-- The invariant. -/
structure Inv (s : State) : Prop where
  range : s.ticks < 2 ^ 32
  row : Shows ((shown s).elim [] decimal) s.console
  fresh : s.sec ≤ getSeconds s
  sorted : ∀ n, shown s = some n → n ≤ s.sec
  reading : s.pc = .read → ∀ n, shown s = some n → n = s.sec

theorem getSeconds_lt (h : s.ticks < 2 ^ 32) : getSeconds s < never := by
  unfold getSeconds never
  omega

/-- What was kept. -/
theorem shown_kept {console : Terminal} {ticks sec : Nat} (h : sec < never) :
    shown ⟨console, ticks, sec, sec, .read⟩ = some sec := by
  rw [shown, if_neg (show ¬Pc.read = .keep from Pc.noConfusion), if_neg (Nat.ne_of_lt h)]

theorem Inv.advance (h : Inv s) : Inv (advance s) := by
  obtain ⟨hRange, hRow, hFresh, hSorted, hReading⟩ := h
  obtain ⟨console, ticks, last, sec, pc⟩ := s
  have hSmall : sec < never := lt_of_le_of_lt hFresh (getSeconds_lt hRange)
  have hOwn : ∀ n, some sec = some n → n ≤ sec := fun n hn => (Option.some.inj hn).ge
  cases pc with
  | read =>
      exact ⟨hRange, hRow, Nat.le_refl _, fun n hn => (hSorted n hn).trans hFresh, (nomatch ·)⟩
  | test =>
      by_cases hNew : last ≠ sec
      · simp only [UptimeDisplay.advance, if_pos hNew]
        exact ⟨hRange, hRow, hFresh, hSorted, (nomatch ·)⟩
      · obtain rfl : last = sec := not_not.mp hNew
        simp only [UptimeDisplay.advance, if_neg hNew]
        refine ⟨hRange, hRow, hFresh, hSorted, fun _ n hn => ?_⟩
        rw [shown_kept hSmall] at hn
        exact (Option.some.inj hn).symm
  | write =>
      refine ⟨hRange, ?_, hFresh, hOwn, (nomatch ·)⟩
      refine shows_sysPrintSeconds (hSmall.trans (by decide)) hRow ?_
      cases hShown : shown ⟨console, ticks, last, sec, .write⟩ with
      | none => exact Nat.zero_le _
      | some n => exact decimal_length_le (hSorted n hShown)
  | keep =>
      have hKept : shown (UptimeDisplay.advance ⟨console, ticks, last, sec, .keep⟩) = some sec :=
        shown_kept hSmall
      refine ⟨hRange, ?_, hFresh, ?_, ?_⟩
      · rw [hKept]
        exact hRow
      · rw [hKept]
        exact hOwn
      · rw [hKept]
        exact fun _ n hn => (Option.some.inj hn).symm

theorem Inv.step {e : Event} (h : Inv s) (hOk : Allowed s e) (hStep : step s e = some s') :
    Inv s' := by
  cases e with
  | code =>
      obtain rfl := Option.some.inj hStep
      exact h.advance
  | tick =>
      obtain rfl := Option.some.inj hStep
      have hNext : (s.ticks + 1) % 2 ^ 32 = s.ticks + 1 := Nat.mod_eq_of_lt hOk
      refine ⟨Nat.mod_lt _ (by decide), h.row, ?_, h.sorted, h.reading⟩
      show s.sec ≤ (s.ticks + 1) % 2 ^ 32 / 100
      rw [hNext]
      exact h.fresh.trans (Nat.div_le_div_right (Nat.le_succ _))
  | others console =>
      obtain rfl := Option.some.inj hStep
      exact ⟨h.range, h.row.leaves hOk, h.fresh, h.sorted, h.reading⟩

theorem Inv.start {console : Terminal} (hBlank : Shows [] console) {ticks : Nat}
    (hTicks : ticks < 2 ^ 32) : Inv (start console ticks) where
  range := hTicks
  row := hBlank
  fresh := Nat.zero_le _
  sorted := by
    intro n hn
    cases hn
  reading := by
    intro _ n hn
    cases hn

/-! ## New seconds are shown -/

/-- The event is a statement. -/
def Event.codes : Event → Nat
  | .code => 1
  | _ => 0

/-- The statements until a time from `t` on has been written. -/
def toWrite (t : Nat) (s : State) : Nat :=
  if t ≤ s.sec then
    match s.pc with
    | .write => 1
    | .read => 3
    | _ => 2
  else
    match s.pc with
    | .read => 3
    | .keep => 4
    | .write => 5
    | .test => 6

/-- A time from `t` on is shown. -/
def Shown (t : Nat) (s : State) : Prop := ∃ n, shown s = some n ∧ t ≤ n

theorem toWrite_bounds (t : Nat) (s : State) : 0 < toWrite t s ∧ toWrite t s ≤ 6 := by
  unfold toWrite
  split
  · split <;> decide
  · split <;> decide

/-- What is shown only grows. -/
theorem Shown.step {t : Nat} {e : Event} (h : Inv s) (hShown : Shown t s)
    (hStep : step s e = some s') : Shown t s' := by
  obtain ⟨n, hn, hLe⟩ := hShown
  cases e with
  | tick =>
      obtain rfl := Option.some.inj hStep
      exact ⟨n, hn, hLe⟩
  | others console =>
      obtain rfl := Option.some.inj hStep
      exact ⟨n, hn, hLe⟩
  | code =>
      obtain rfl := Option.some.inj hStep
      have hSmall : s.sec < never := lt_of_le_of_lt h.fresh (getSeconds_lt h.range)
      have hSorted := h.sorted n hn
      obtain ⟨console, ticks, last, sec, pc⟩ := s
      cases pc with
      | read => exact ⟨n, hn, hLe⟩
      | test =>
          by_cases hNew : last ≠ sec
          · simp only [advance, if_pos hNew]
            exact ⟨n, hn, hLe⟩
          · simp only [advance, if_neg hNew]
            exact ⟨n, hn, hLe⟩
      | write => exact ⟨sec, rfl, hLe.trans hSorted⟩
      | keep => exact ⟨sec, shown_kept hSmall, hLe.trans hSorted⟩

/-- **One step nearer.** -/
theorem nearer {t : Nat} {e : Event} (h : Inv s) (ht : t ≤ getSeconds s)
    (hStep : step s e = some s') :
    Shown t s' ∨ toWrite t s' + e.codes ≤ toWrite t s := by
  cases e with
  | tick =>
      obtain rfl := Option.some.inj hStep
      exact Or.inr (Nat.le_refl _)
  | others console =>
      obtain rfl := Option.some.inj hStep
      exact Or.inr (Nat.le_refl _)
  | code =>
      obtain rfl := Option.some.inj hStep
      have hSmall : s.sec < never := lt_of_le_of_lt h.fresh (getSeconds_lt h.range)
      obtain ⟨console, ticks, last, sec, pc⟩ := s
      cases pc with
      | read =>
          replace ht : t ≤ ticks / 100 := ht
          right
          show (if t ≤ ticks / 100 then 2 else 6) + 1 ≤ if t ≤ sec then 3 else 3
          rw [if_pos ht]
          split <;> decide
      | test =>
          by_cases hNew : last ≠ sec
          · right
            simp only [toWrite, advance, if_pos hNew, Event.codes]
            split <;> decide
          · obtain rfl : last = sec := not_not.mp hNew
            simp only [toWrite, advance, if_neg hNew, Event.codes]
            by_cases hFresh : t ≤ last
            · exact Or.inl ⟨last, shown_kept hSmall, hFresh⟩
            · simp only [if_neg hFresh]
              exact Or.inr (by decide)
      | write =>
          by_cases hFresh : t ≤ sec
          · exact Or.inl ⟨sec, rfl, hFresh⟩
          · right
            show (if t ≤ sec then 2 else 4) + 1 ≤ if t ≤ sec then 1 else 5
            rw [if_neg hFresh, if_neg hFresh]
      | keep =>
          by_cases hFresh : t ≤ sec
          · exact Or.inl ⟨sec, shown_kept hSmall, hFresh⟩
          · right
            show (if t ≤ sec then 3 else 3) + 1 ≤ if t ≤ sec then 2 else 4
            rw [if_neg hFresh, if_neg hFresh]

theorem getSeconds_step {e : Event} (hOk : Allowed s e) (hStep : step s e = some s') :
    getSeconds s ≤ getSeconds s' := by
  cases e with
  | code =>
      obtain rfl := Option.some.inj hStep
      obtain ⟨console, ticks, last, sec, pc⟩ := s
      cases pc <;> exact Nat.le_refl _
  | others console =>
      obtain rfl := Option.some.inj hStep
      exact Nat.le_refl _
  | tick =>
      obtain rfl := Option.some.inj hStep
      show s.ticks / 100 ≤ (s.ticks + 1) % 2 ^ 32 / 100
      rw [Nat.mod_eq_of_lt hOk]
      exact Nat.div_le_div_right (Nat.le_succ _)

/-- The run goes on, from a time `t` or later. -/
structure Runs (t : Nat) (s : State) (later : List Event) : Prop where
  inv : Inv s
  time : t ≤ getSeconds s
  allowed : Meets step Allowed s later

theorem Runs.next {t : Nat} {e : Event} {later : List Event} (h : Runs t s (e :: later))
    (hStep : step s e = some s') : Runs t s' later where
  inv := h.inv.step h.allowed.1 hStep
  time := h.time.trans (getSeconds_step h.allowed.1 hStep)
  allowed := h.allowed.2 s' hStep

theorem Runs.shows {t : Nat} {later : List Event} (h : Runs t s later)
    (hRun : exec step s later = some s') (hEnough : 6 ≤ (later.map Event.codes).sum) :
    Shown t s' := by
  have hBoth : Runs t s' [] ∧ Shown t s' :=
    comes_in_time (Runs t) (fun s later => Runs t s later ∧ Shown t s)
      (fun {s _} _ => (toWrite_bounds t s).1)
      (fun h hStep => (nearer h.inv h.time hStep).imp (fun hShown => ⟨h.next hStep, hShown⟩)
        fun hNearer => ⟨h.next hStep, hNearer⟩)
      (fun h hStep => ⟨h.1.next hStep, h.2.step h.1.inv hStep⟩)
      h hRun ((toWrite_bounds t s).2.trans hEnough)
  exact hBoth.2

/-- **The uptime on the screen is right, and up to date.**  From a row without
digits, in every run of the loop, of ticks that do not wrap, and of other code
that leaves the row alone: what can be read in the row is the time that was
written last, without a digit of an earlier one; it is never ahead; and six
statements of the loop later it is not behind the time at which they began. -/
theorem uptime_shown {console : Terminal} (hBlank : Shows [] console) {ticks : Nat}
    (hTicks : ticks < 2 ^ 32) {events : List Event}
    (hRun : exec step (start console ticks) events = some s)
    (hMeets : Meets step Allowed (start console ticks) events) :
    (∀ n, shown s = some n → numeral s.console = decimal n ∧ n ≤ getSeconds s) ∧
      ∀ later s', exec step s later = some s' → Meets step Allowed s later →
        6 ≤ (later.map Event.codes).sum →
        ∃ n, shown s' = some n ∧ numeral s'.console = decimal n ∧
          getSeconds s ≤ n ∧ n ≤ getSeconds s' := by
  have hInv : Inv s :=
    hMeets.invariant (fun _ _ _ h hOk hStep => h.step hOk hStep) (Inv.start hBlank hTicks) hRun
  have hReads : ∀ {s : State} {n : Nat}, Inv s → shown s = some n →
      numeral s.console = decimal n ∧ n ≤ getSeconds s := by
    intro s n h hn
    have hRow := h.row
    rw [hn] at hRow
    have hPast : n ≤ getSeconds s := (h.sorted n hn).trans h.fresh
    have hSmall : n < 2 ^ 32 := lt_of_le_of_lt hPast ((getSeconds_lt h.range).trans (by decide))
    exact ⟨numeral_eq hRow ((decimal_length hSmall).trans (by decide))
      fun c hc => decimal_digit hc, hPast⟩
  refine ⟨fun n hn => hReads hInv hn, fun later s' hLater hAllowed hEnough => ?_⟩
  have hInv' : Inv s' :=
    hAllowed.invariant (fun _ _ _ h hOk hStep => h.step hOk hStep) hInv hLater
  have hRuns : Runs (getSeconds s) s later := ⟨hInv, Nat.le_refl _, hAllowed⟩
  obtain ⟨n, hn, hLe⟩ := hRuns.shows hLater hEnough
  obtain ⟨hRead, hPast⟩ := hReads hInv' hn
  exact ⟨n, hn, hRead, hLe, hPast⟩

/-- A second passes between two rounds of the loop. -/
def twoRounds : List Event := List.replicate 4 .code ++ .tick :: List.replicate 4 .code

theorem uptime_shown_twoRounds :
    ∃ s, exec step (start Console.start.console 99) twoRounds = some s ∧
      numeral s.console = decimal 1 := by
  obtain ⟨s, hRun, hShown⟩ : ∃ s, exec step (start Console.start.console 99) twoRounds = some s ∧
      shown s = some 1 := ⟨_, rfl, rfl⟩
  have hBlank : Shows [] Console.start.console := by
    intro k _
    show ¬IsDigit ' '.toNat
    decide
  have hMeets : Meets step Allowed (start Console.start.console 99) twoRounds := by
    have hCodes : ∀ (n : Nat) (s : State), Meets step Allowed s (List.replicate n .code) := by
      intro n
      induction n with
      | zero => exact fun _ => trivial
      | succ n ih => exact fun _ => ⟨trivial, fun s' _ => ih s'⟩
    unfold twoRounds
    refine Meets.append (hCodes 4 _) fun s' hFour => ?_
    obtain rfl := Option.some.inj hFour
    exact ⟨show 99 + 1 < 2 ^ 32 by decide, fun s' _ => hCodes 4 s'⟩
  obtain ⟨hReads, -⟩ := uptime_shown hBlank (by decide) hRun hMeets
  exact ⟨s, hRun, (hReads 1 hShown).1⟩

end MiniKernel.Ports.UptimeDisplay
