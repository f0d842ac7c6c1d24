import MiniKernel.Ports.Console
import MiniKernel.Verified.BoundedWaiting

/-!
# The choice at boot

`switch_mode` waits for 300 ticks, or until it finds that F10 was the last key.
It polls two variables that interrupt handlers write, and halts in between until
an interrupt comes; a key that is released counts as a key, so that F10 can be
pressed and be gone again between two polls.  A deadline that wraps is over at
once.
-/

namespace MiniKernel.Ports.BootChoice

open MiniKernel.Verified.BoundedWaiting
open MiniKernel.Verified.Trace
open MiniKernel.Ports.Console

def question : List Nat := "click f10 if you want to stay in the bios".toList.map Char.toNat

/-- The statement that comes next. -/
inductive Pc
  /-- `last_key = KEY_NONE`. -/
  | reset
  /-- `end = ticks + 300`. -/
  | setEnd
  /-- What is left of `print_string`. -/
  | ask (rest : List Op)
  /-- `ticks < end`. -/
  | test
  /-- `last_key == KEY_F10`. -/
  | check
  | hlt
  /-- Until the next interrupt. -/
  | halted
  /-- `i = 400`, before a return. -/
  | home (answer : Nat)
  /-- `j = 0`. -/
  | column (answer : Nat)
  | returned (answer : Nat)
  deriving Repr, DecidableEq

/-- What will be returned, once that is certain. -/
def Pc.answer : Pc → Option Nat
  | .home answer => some answer
  | .column answer => some answer
  | .returned answer => some answer
  | _ => none

/-- In the loop. -/
def Pc.Polling : Pc → Prop
  | .test => True
  | .check => True
  | .hlt => True
  | .halted => True
  | _ => False

/-- An interrupt comes. -/
def Pc.wake : Pc → Pc
  | .halted => .test
  | pc => pc

structure State where
  console : Terminal
  ticks : Nat
  /-- `end`. -/
  deadline : Nat
  pc : Pc
  /-- The scan codes since `last_key` was cleared. -/
  codes : List Nat
  /-- The ticks since `end` was set. -/
  passed : Nat

inductive Event
  | code
  | tick
  | key (code : Nat) (stray : Cursor)
  deriving Repr, DecidableEq

/-- The next statement of `switch_mode`. -/
def advance (s : State) : Option State :=
  match s.pc with
  | .reset =>
      some { s with
        console := { s.console with lastKey := keyNone }
        codes := []
        pc := .setEnd }
  | .setEnd =>
      some { s with
        deadline := (s.ticks + 300) % 2 ^ 32
        passed := 0
        pc := .ask (printString question) }
  | .ask [] => some { s with pc := .test }
  | .ask (op :: rest) => some { s with console := op.run s.console, pc := .ask rest }
  | .test => some { s with pc := if s.ticks < s.deadline then .check else .home 1 }
  | .check => some { s with pc := if s.console.lastKey = keyF 10 then .home 0 else .hlt }
  | .hlt => some { s with pc := .halted }
  | .halted => none
  | .home answer => some { s with console := { s.console with i := 400 }, pc := .column answer }
  | .column answer => some { s with console := { s.console with j := 0 }, pc := .returned answer }
  | .returned _ => none

def step (s : State) : Event → Option State
  | .code => advance s
  | .tick =>
      some { s with ticks := (s.ticks + 1) % 2 ^ 32, passed := s.passed + 1, pc := s.pc.wake }
  | .key code stray =>
      some { s with
        console := s.console.keyboardHandler (read code) stray
        codes := s.codes ++ [code]
        pc := s.pc.wake }

/-- `switch_mode` is called. -/
def call (console : Terminal) (ticks : Nat) : State where
  console := console
  ticks := ticks
  deadline := 0
  pc := .reset
  codes := []
  passed := 0

@[simp] theorem wake_answer (pc : Pc) : pc.wake.answer = pc.answer := by
  cases pc <;> rfl

/-- `last_key` has been cleared. -/
def Pc.Cleared : Pc → Prop
  | .reset => False
  | _ => True

/-- `end` has been set. -/
def Pc.Timed : Pc → Prop
  | .reset => False
  | .setEnd => False
  | _ => True

theorem wake_cleared {pc : Pc} : pc.wake.Cleared ↔ pc.Cleared := by
  cases pc <;> exact Iff.rfl

theorem wake_timed {pc : Pc} : pc.wake.Timed ↔ pc.Timed := by
  cases pc <;> exact Iff.rfl

theorem wake_polling {pc : Pc} : pc.wake.Polling ↔ pc.Polling := by
  cases pc <;> exact Iff.rfl

theorem Pc.Polling.timed {pc : Pc} (h : pc.Polling) : pc.Timed := by
  cases pc <;> first | exact trivial | exact h

variable {s s' : State}

/-- The invariant. -/
structure Inv (s : State) : Prop where
  range : s.ticks < 2 ^ 32
  key : s.pc.Cleared → s.console.lastKey = (s.codes.getLast?.map read).getD keyNone
  time : s.pc.Timed → ∃ t < 2 ^ 32, s.deadline = (t + 300) % 2 ^ 32 ∧
    s.ticks = (t + s.passed) % 2 ^ 32
  stays : s.pc.answer = some 0 → ∃ code ∈ s.codes, read code = keyF 10
  goesOn : s.pc.answer = some 1 → 300 ≤ s.deadline → 300 ≤ s.passed

theorem addLine_lastKey (cursor : Cursor) (t : Terminal) :
    (t.addLine cursor).lastKey = t.lastKey := by
  cases cursor with
  | elsewhere => rfl
  | i => simp only [Terminal.addLine]; split <;> rfl
  | j => simp only [Terminal.addLine]; split <;> rfl

theorem addLineUnpassed_lastKey (stray : Cursor) (t : Terminal) :
    (t.addLineUnpassed stray).lastKey = t.lastKey := by
  unfold Terminal.addLineUnpassed
  split
  · exact addLine_lastKey stray t
  · rfl

theorem keyBranch_lastKey (c : Nat) (stray : Cursor) (t : Terminal) :
    (t.keyBranch c stray).lastKey = t.lastKey := by
  induction c using key_cases with
  | down => exact addLineUnpassed_lastKey stray (t.moveBy 80)
  | right => exact addLineUnpassed_lastKey stray (t.moveBy 1)
  | char c hNone hEnter hSpace hBack hUp hDown hLeft hRight =>
      rw [keyBranch_char hNone hEnter hSpace hBack hUp hDown hLeft hRight]
      rfl
  | none => rfl
  | enter => rfl
  | space => rfl
  | back => rfl
  | up => rfl
  | left => rfl

theorem keyboardHandler_lastKey (c : Nat) (stray : Cursor) (t : Terminal) :
    (t.keyboardHandler c stray).lastKey = c :=
  (keyBranch_lastKey c stray _).trans (addLineUnpassed_lastKey stray _)

theorem op_run_lastKey (op : Op) (t : Terminal) : (op.run t).lastKey = t.lastKey := by
  cases op with
  | addLineIfNeeded =>
      show (if 2000 ≤ t.i then t.addLine .i else t).lastKey = _
      split
      · exact addLine_lastKey .i t
      · rfl
  | print c => rfl
  | advance => rfl
  | count => rfl
  | newLine => rfl
  | restart => rfl
  | move => rfl

theorem call_inv (console : Terminal) {ticks : Nat} (hTicks : ticks < 2 ^ 32) :
    Inv (call console ticks) where
  range := hTicks
  key h := False.elim h
  time h := False.elim h
  stays h := by cases h
  goesOn h := by cases h

theorem advance_inv (h : Inv s) (hStep : advance s = some s') : Inv s' := by
  obtain ⟨console, ticks, deadline, pc, codes, passed⟩ := s
  obtain ⟨hRange, hKey, hTime, hStays, hGoesOn⟩ := h
  cases pc with
  | reset =>
      obtain rfl := Option.some.inj hStep
      exact ⟨hRange, fun _ => rfl, False.elim, (nomatch ·), (nomatch ·)⟩
  | setEnd =>
      obtain rfl := Option.some.inj hStep
      exact ⟨hRange, hKey, fun _ => ⟨ticks, hRange, rfl, (Nat.mod_eq_of_lt hRange).symm⟩,
        (nomatch ·), (nomatch ·)⟩
  | ask rest =>
      cases rest with
      | nil =>
          obtain rfl := Option.some.inj hStep
          exact ⟨hRange, hKey, hTime, hStays, hGoesOn⟩
      | cons op rest =>
          obtain rfl := Option.some.inj hStep
          exact ⟨hRange, fun _ => (op_run_lastKey op console).trans (hKey trivial), hTime, hStays,
            hGoesOn⟩
  | test =>
      obtain rfl := Option.some.inj hStep
      by_cases hOpen : ticks < deadline
      · simp only [hOpen, if_true]
        exact ⟨hRange, hKey, hTime, hStays, hGoesOn⟩
      · simp only [hOpen, if_false]
        refine ⟨hRange, hKey, hTime, (nomatch ·), fun _ hNoWrap => ?_⟩
        obtain ⟨t, ht, hDeadline, hTicks⟩ := hTime trivial
        simp only at hNoWrap hDeadline hTicks ⊢
        omega
  | check =>
      obtain rfl := Option.some.inj hStep
      by_cases hF10 : console.lastKey = keyF 10
      · simp only [hF10, if_true]
        refine ⟨hRange, hKey, hTime, fun _ => ?_, (nomatch ·)⟩
        have hLast := hKey trivial
        simp only [hF10] at hLast
        cases hCodes : codes.getLast? with
        | none =>
            rw [hCodes] at hLast
            cases hLast
        | some code =>
            rw [hCodes] at hLast
            exact ⟨code, List.mem_of_getLast? hCodes, hLast.symm⟩
      · simp only [hF10, if_false]
        exact ⟨hRange, hKey, hTime, hStays, hGoesOn⟩
  | hlt =>
      obtain rfl := Option.some.inj hStep
      exact ⟨hRange, hKey, hTime, hStays, hGoesOn⟩
  | halted => cases hStep
  | home answer =>
      obtain rfl := Option.some.inj hStep
      exact ⟨hRange, hKey, hTime, hStays, hGoesOn⟩
  | column answer =>
      obtain rfl := Option.some.inj hStep
      exact ⟨hRange, hKey, hTime, hStays, hGoesOn⟩
  | returned answer => cases hStep

theorem step_inv {e : Event} (h : Inv s) (hStep : step s e = some s') : Inv s' := by
  cases e with
  | code => exact advance_inv h hStep
  | tick =>
      obtain rfl := Option.some.inj hStep
      refine ⟨Nat.mod_lt _ (by decide), fun hCleared => h.key (wake_cleared.mp hCleared),
        fun hTimed => ?_, fun hAnswer => h.stays (by rwa [← wake_answer]),
        fun hAnswer hNoWrap => ?_⟩
      · obtain ⟨t, ht, hDeadline, hTicks⟩ := h.time (wake_timed.mp hTimed)
        exact ⟨t, ht, hDeadline, by simp only [hTicks]; omega⟩
      · exact Nat.le_succ_of_le (h.goesOn (by rwa [← wake_answer]) hNoWrap)
  | key code stray =>
      obtain rfl := Option.some.inj hStep
      refine ⟨h.range, fun _ => ?_, fun hTimed => h.time (wake_timed.mp hTimed), fun hAnswer => ?_,
        fun hAnswer => h.goesOn (by rwa [← wake_answer])⟩
      · simp only [keyboardHandler_lastKey, List.getLast?_concat, Option.map_some, Option.getD_some]
      · obtain ⟨c, hMem, hF10⟩ := h.stays (by rwa [← wake_answer])
        exact ⟨c, List.mem_append_left _ hMem, hF10⟩

/-! ## Polls that get an answer -/

theorem answer_stays {e : Event} {a : Nat} (h : s.pc.answer = some a)
    (hStep : step s e = some s') : s'.pc.answer = some a := by
  cases e with
  | tick =>
      obtain rfl := Option.some.inj hStep
      exact (wake_answer s.pc).trans h
  | key code stray =>
      obtain rfl := Option.some.inj hStep
      exact (wake_answer s.pc).trans h
  | code =>
      obtain ⟨console, ticks, deadline, pc, codes, passed⟩ := s
      cases pc with
      | home answer =>
          obtain rfl := Option.some.inj hStep
          exact h
      | column answer =>
          obtain rfl := Option.some.inj hStep
          exact h
      | returned answer => cases hStep
      | reset => cases h
      | setEnd => cases h
      | ask rest => cases h
      | test => cases h
      | check => cases h
      | hlt => cases h
      | halted => cases h

/-- The event is a tick. -/
def Event.ticks : Event → Nat
  | .tick => 1
  | _ => 0

/-- The event is a statement. -/
def Event.codes : Event → Nat
  | .code => 1
  | _ => 0

/-- The statements up to the next look at `last_key`. -/
def Pc.toCheck : Pc → Nat
  | .check => 1
  | .test => 2
  | .halted => 2
  | _ => 3

/-- The statements up to the next look at `ticks`, and the answer. -/
def Pc.toTest : Pc → Nat
  | .test => 1
  | .halted => 1
  | .hlt => 2
  | _ => 3

theorem toCheck_bounds (pc : Pc) : 0 < pc.toCheck ∧ pc.toCheck ≤ 3 := by
  unfold Pc.toCheck
  split <;> decide

theorem toTest_bounds (pc : Pc) : 0 < pc.toTest ∧ pc.toTest ≤ 3 := by
  unfold Pc.toTest
  split <;> decide

/-- F10 is the last key, and still is in time after the events to come. -/
structure Pressed (s : State) (later : List Event) : Prop where
  polling : s.pc.Polling
  key : s.console.lastKey = keyF 10
  time : s.ticks + (later.map Event.ticks).sum < s.deadline
  range : s.deadline < 2 ^ 32
  last : ∀ code stray, .key code stray ∉ later

theorem Pressed.step {e : Event} {later : List Event} (h : Pressed s (e :: later))
    (hStep : step s e = some s') :
    s'.pc.answer = some 0 ∨
      Pressed s' later ∧ s'.pc.toCheck + e.codes ≤ s.pc.toCheck := by
  obtain ⟨hPolling, hKey, hTime, hRange, hLast⟩ := h
  have hLater : ∀ code stray, .key code stray ∉ later :=
    fun code stray hMem => hLast code stray (List.mem_cons_of_mem e hMem)
  rw [List.map_cons, List.sum_cons] at hTime
  cases e with
  | key code stray => exact absurd List.mem_cons_self (hLast code stray)
  | tick =>
      obtain rfl := Option.some.inj hStep
      simp only [Event.ticks] at hTime
      refine Or.inr ⟨⟨wake_polling.mpr hPolling, hKey, ?_, hRange, hLater⟩, ?_⟩
      · show (s.ticks + 1) % 2 ^ 32 + (later.map Event.ticks).sum < s.deadline
        rw [Nat.mod_eq_of_lt (by omega)]
        omega
      · show s.pc.wake.toCheck + 0 ≤ s.pc.toCheck
        cases s.pc <;> exact Nat.le_refl _
  | code =>
      obtain ⟨console, ticks, deadline, pc, codes, passed⟩ := s
      simp only [Event.ticks, Nat.zero_add] at hTime
      cases pc with
      | test =>
          obtain rfl := Option.some.inj hStep
          have hOpen : ticks < deadline := Nat.lt_of_le_of_lt (Nat.le_add_right _ _) hTime
          simp only [hOpen, if_true]
          exact Or.inr ⟨⟨trivial, hKey, hTime, hRange, hLater⟩, Nat.le_refl _⟩
      | check =>
          obtain rfl := Option.some.inj hStep
          simp only at hKey
          simp only [hKey, if_true]
          exact Or.inl rfl
      | hlt =>
          obtain rfl := Option.some.inj hStep
          exact Or.inr ⟨⟨trivial, hKey, hTime, hRange, hLater⟩, Nat.le_refl _⟩
      | halted => cases hStep
      | reset => exact False.elim hPolling
      | setEnd => exact False.elim hPolling
      | ask rest => exact False.elim hPolling
      | home answer => exact False.elim hPolling
      | column answer => exact False.elim hPolling
      | returned answer => exact False.elim hPolling

/-- The time is over, and `ticks` does not wrap in the events to come. -/
structure Over (s : State) (later : List Event) : Prop where
  polling : s.pc.Polling
  time : s.deadline ≤ s.ticks
  range : s.ticks + (later.map Event.ticks).sum < 2 ^ 32

theorem Over.step {e : Event} {later : List Event} (h : Over s (e :: later))
    (hStep : step s e = some s') :
    (∃ a, s'.pc.answer = some a) ∨ Over s' later ∧ s'.pc.toTest + e.codes ≤ s.pc.toTest := by
  obtain ⟨hPolling, hTime, hRange⟩ := h
  rw [List.map_cons, List.sum_cons] at hRange
  have hWake : s.pc.wake.toTest + 0 ≤ s.pc.toTest := by
    cases s.pc <;> exact Nat.le_refl _
  cases e with
  | key code stray =>
      obtain rfl := Option.some.inj hStep
      simp only [Event.ticks, Nat.zero_add] at hRange
      exact Or.inr ⟨⟨wake_polling.mpr hPolling, hTime, hRange⟩, hWake⟩
  | tick =>
      obtain rfl := Option.some.inj hStep
      simp only [Event.ticks] at hRange
      have hTicks : (s.ticks + 1) % 2 ^ 32 = s.ticks + 1 := Nat.mod_eq_of_lt (by omega)
      refine Or.inr ⟨⟨wake_polling.mpr hPolling, ?_, ?_⟩, hWake⟩
      · show s.deadline ≤ (s.ticks + 1) % 2 ^ 32
        omega
      · show (s.ticks + 1) % 2 ^ 32 + (later.map Event.ticks).sum < 2 ^ 32
        omega
  | code =>
      obtain ⟨console, ticks, deadline, pc, codes, passed⟩ := s
      simp only [Event.ticks, Nat.zero_add] at hRange
      cases pc with
      | test =>
          obtain rfl := Option.some.inj hStep
          simp only [Nat.not_lt.mpr hTime, if_false]
          exact Or.inl ⟨1, rfl⟩
      | check =>
          obtain rfl := Option.some.inj hStep
          by_cases hF10 : console.lastKey = keyF 10
          · simp only [hF10, if_true]
            exact Or.inl ⟨0, rfl⟩
          · simp only [hF10, if_false]
            exact Or.inr ⟨⟨trivial, hTime, hRange⟩, Nat.le_refl _⟩
      | hlt =>
          obtain rfl := Option.some.inj hStep
          exact Or.inr ⟨⟨trivial, hTime, hRange⟩, Nat.le_refl _⟩
      | halted => cases hStep
      | reset => exact False.elim hPolling
      | setEnd => exact False.elim hPolling
      | ask rest => exact False.elim hPolling
      | home answer => exact False.elim hPolling
      | column answer => exact False.elim hPolling
      | returned answer => exact False.elim hPolling

/-- With a deadline that has not wrapped, `ticks` counts the ticks that passed. -/
theorem Inv.clock (h : Inv s) (hPolling : s.pc.Polling) (hNoWrap : 300 ≤ s.deadline)
    (hRange : s.deadline - 300 + s.passed < 2 ^ 32) :
    s.ticks = s.deadline - 300 + s.passed := by
  obtain ⟨t, ht, hDeadline, hTicks⟩ := h.time hPolling.timed
  omega

theorem Inv.deadline_lt (h : Inv s) (hPolling : s.pc.Polling) : s.deadline < 2 ^ 32 := by
  obtain ⟨t, -, hDeadline, -⟩ := h.time hPolling.timed
  omega

/-- **`switch_mode` answers 0 only if F10 was pressed since it was called, and 1
only after 300 ticks.**  While it polls, an F10 that no other key follows is
found by the third statement, if that is in time; and once the time is over, any
three statements bring an answer. -/
theorem switch_mode_answers {console : Terminal} {ticks : Nat} (hTicks : ticks < 2 ^ 32)
    {events : List Event} (hRun : exec step (call console ticks) events = some s) :
    (s.pc.answer = some 0 → ∃ code ∈ s.codes, read code = keyF 10) ∧
      (s.pc.answer = some 1 → 300 ≤ s.deadline → 300 ≤ s.passed) ∧
      (s.pc.Polling → 300 ≤ s.deadline → ∀ later s', exec step s later = some s' →
        3 ≤ (later.map Event.codes).sum →
        (s.codes.getLast?.map read = some (keyF 10) → (∀ code stray, .key code stray ∉ later) →
          s.passed + (later.map Event.ticks).sum < 300 → s'.pc.answer = some 0) ∧
        (300 ≤ s.passed → s.deadline - 300 + s.passed + (later.map Event.ticks).sum < 2 ^ 32 →
          ∃ a, s'.pc.answer = some a)) := by
  have hInv : Inv s :=
    exec_invariant (fun _ _ _ h hStep => step_inv h hStep) (call_inv console hTicks) hRun
  refine ⟨hInv.stays, hInv.goesOn, fun hPolling hNoWrap later s' hLater hEnough => ⟨?_, ?_⟩⟩
  · intro hLast hNoKey hInTime
    have hDeadline := hInv.deadline_lt hPolling
    have hClock := hInv.clock hPolling hNoWrap (by omega)
    have hKey : s.console.lastKey = keyF 10 := by
      rw [hInv.key (by cases hPc : s.pc <;> simp [hPc, Pc.Polling] at hPolling <;> trivial), hLast]
      rfl
    have hPressed : Pressed s later := ⟨hPolling, hKey, by omega, hDeadline, hNoKey⟩
    exact comes_in_time Pressed (fun s _ => s.pc.answer = some 0)
      (fun {s _} _ => (toCheck_bounds s.pc).1) (fun h hStep => h.step hStep)
      (fun h hStep => answer_stays h hStep) hPressed hLater ((toCheck_bounds s.pc).2.trans hEnough)
  · intro hPassed hRange
    have hClock := hInv.clock hPolling hNoWrap (by omega)
    have hOver : Over s later := ⟨hPolling, by omega, by omega⟩
    exact comes_in_time Over (fun s _ => ∃ a, s.pc.answer = some a)
      (fun {s _} _ => (toTest_bounds s.pc).1) (fun h hStep => h.step hStep)
      (fun h hStep => h.imp fun _ hAnswer => answer_stays hAnswer hStep) hOver hLater
      ((toTest_bounds s.pc).2.trans hEnough)

/-- Nothing comes in between. -/
theorem asks (rest : List Op) : ∀ s : State, s.pc = .ask rest →
    exec step s (List.replicate (rest.length + 1) .code) =
      some { s with console := Terminal.runAll rest s.console, pc := .test } := by
  induction rest with
  | nil =>
      intro s hPc
      show (advance s).bind _ = _
      simp only [advance, hPc]
      rfl
  | cons op rest ih =>
      intro s hPc
      have hStep : step s .code = some { s with console := op.run s.console, pc := .ask rest } := by
        simp only [step, advance, hPc]
      rw [List.length_cons, List.replicate_succ, exec_cons, hStep, Option.bind_some, ih _ rfl]
      rfl

/-- Up to the loop, and F10. -/
def f10Early : List Event :=
  [.code, .code] ++ (List.replicate ((printString question).length + 1) .code ++
    [.key 0x44 .elsewhere])

theorem switch_mode_answers_f10 :
    ∃ s, exec step (call start.console 0) (f10Early ++ List.replicate 3 .code) = some s ∧
      s.pc.answer = some 0 := by
  obtain ⟨console, hKey, hRun⟩ : ∃ console : Terminal, console.lastKey = keyF 10 ∧
      exec step (call start.console 0) f10Early = some ⟨console, 0, 300, .test, [0x44], 0⟩ := by
    have hOpen : exec step (call start.console 0) [.code, .code] =
        some ⟨start.console, 0, 300, .ask (printString question), [], 0⟩ := rfl
    refine ⟨(Terminal.runAll (printString question) start.console).keyboardHandler
      (read 0x44) .elsewhere, keyboardHandler_lastKey _ _ _, ?_⟩
    rw [f10Early, exec_append, hOpen, Option.bind_some, exec_append, asks _ _ rfl]
    generalize Terminal.runAll (printString question) start.console = console
    rfl
  have hLater : exec step ⟨console, 0, 300, .test, [0x44], 0⟩ (List.replicate 3 .code) =
      some ⟨{ console with i := 400 }, 0, 300, .column 0, [0x44], 0⟩ := by
    show exec step _ [.code, .code, .code] = _
    simp [exec_cons, step, advance, hKey]
  obtain ⟨-, -, hPolls⟩ := switch_mode_answers (by decide) hRun
  refine ⟨_, by rw [exec_append, hRun]; exact hLater, ?_⟩
  exact (hPolls trivial (Nat.le_refl _) _ _ hLater (by decide)).1 rfl (by simp)
    (show 0 + ((List.replicate 3 Event.code).map Event.ticks).sum < 300 by decide)

end MiniKernel.Ports.BootChoice
