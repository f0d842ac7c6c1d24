import MiniKernel.Ports.Console
import MiniKernel.Verified.IndexedRegisters
import MiniKernel.Verified.Trace

/-!
# The cursor that is shown

`move` tells the display where the cursor is, in four writes to two ports.
`kernel()` prints with interrupts on, so that a key can come between any two of
them, and `keyboard_handler` calls `move` as well.
-/

namespace MiniKernel.Ports.CursorUpdates

open MiniKernel.Verified.IndexedRegisters
open MiniKernel.Verified.Trace
open MiniKernel.Ports.Console (read Terminal Op Event)

/-- An `int` as an `unsigned short`. -/
def position (i : Int) : Nat := (i % 2 ^ 16).toNat

/-- `move`, which writes to `0x3D4` and `0x3D5`. -/
def move (pos : Nat) : List Write := put 0x0F 0x0E pos

/-- Where the cursor is shown. -/
def shown (b : Bank) : Nat := word 0x0F 0x0E b

structure State where
  console : Console.State
  bank : Bank
  /-- What is left of `move` in the code that keys interrupt. -/
  writes : List Write
  /-- Where `keyboard_handler` has moved the cursor. -/
  moves : List Nat

/-- `keyboard_handler`; all its branches but the first end with `move(i)`. -/
def key (code : Nat) (stray : Console.Cursor) (s : State) : State :=
  let console := s.console.console.keyboardHandler (read code) stray
  let pos := position console.i
  { s with
    console := { s.console with console := console }
    bank := if read code = 0 then s.bank else runAll (move pos) s.bank
    moves := if read code = 0 then s.moves else s.moves ++ [pos] }

def step (s : State) : Event → Option State
  | .key code stray => some (key code stray s)
  | .call c =>
      if s.writes = [] then
        (Console.step s.console (.call c)).map fun console => { s with console := console }
      else none
  | .run =>
      match s.writes, s.console.rest with
      | w :: ws, _ => some { s with bank := w.run s.bank, writes := ws }
      | [], op :: ops =>
          some { s with
            console := ⟨op.run s.console.console, ops⟩
            writes := if op = .move then move (position s.console.console.i) else [] }
      | [], [] => none

variable {s s' : State} {p n : Nat}

theorem position_lt (i : Int) : position i < 2 ^ 16 := by
  unfold position
  omega

/-- After so many writes of `move(p)`, with the cursor moved by keys in between
since `base`. -/
structure Moving (p base n : Nat) (s : State) : Prop where
  writes : s.writes = (move p).drop n
  torn : Torn 0x0F 0x0E p (s.moves.drop base).getLast? n s.bank
  base : base ≤ s.moves.length

/-- A key does nothing to the code it interrupts. -/
@[simp] theorem key_writes (code : Nat) (stray : Console.Cursor) (s : State) :
    (key code stray s).writes = s.writes := rfl

theorem Moving.key {base : Nat} (h : Moving p base n s) (hStarted : 0 < n) (hOpen : n < 4)
    (code : Nat) (stray : Console.Cursor) : Moving p base n (key code stray s) := by
  obtain ⟨hWrites, hTorn, hBase⟩ := h
  by_cases hNone : read code = 0
  · have hMoves : (CursorUpdates.key code stray s).moves = s.moves := if_pos hNone
    have hBank : (CursorUpdates.key code stray s).bank = s.bank := if_pos hNone
    exact ⟨hWrites, by rwa [hMoves, hBank], by rwa [hMoves]⟩
  · have hMoves : (CursorUpdates.key code stray s).moves = s.moves ++
        [position (s.console.console.keyboardHandler (read code) stray).i] := if_neg hNone
    have hBank : (CursorUpdates.key code stray s).bank = runAll
        (move (position (s.console.console.keyboardHandler (read code) stray).i)) s.bank :=
      if_neg hNone
    refine ⟨hWrites, ?_, ?_⟩
    · rw [hMoves, hBank, List.drop_append_of_le_length hBase, List.getLast?_concat]
      exact Torn.interrupt (by decide) hStarted hOpen _ _
    · rw [hMoves, List.length_append]
      exact Nat.le_add_right_of_le hBase

theorem Moving.write {base : Nat} (h : Moving p base n s) (hStarted : 0 < n) (hOpen : n < 4)
    (hStep : step s .run = some s') : Moving p base (n + 1) s' := by
  obtain ⟨hWrites, hTorn, hBase⟩ := h
  have hLeft : n < (move p).length := hOpen
  rw [List.drop_eq_getElem_cons hLeft] at hWrites
  simp only [step, hWrites] at hStep
  obtain rfl := Option.some.inj hStep
  exact ⟨rfl, hTorn.next (by decide) hStarted (List.drop_eq_getElem_cons hLeft), hBase⟩

/-- Between the first write and the last. -/
theorem Moving.exec {base : Nat} {events : List Event} : ∀ {n : Nat} {s : State},
    Moving p base n s →
    0 < n → n + events.count .run < 4 → exec step s events = some s' →
    Moving p base (n + events.count .run) s' := by
  induction events with
  | nil =>
      intro n s h _ _ hRun
      obtain rfl := Option.some.inj hRun
      exact h
  | cons e events ih =>
      intro n s h hStarted hOpen hRun
      obtain ⟨s₁, hFirst, hRest⟩ := exec_cons_some hRun
      rw [List.count_cons] at hOpen ⊢
      cases e with
      | key code stray =>
          obtain rfl := Option.some.inj hFirst
          exact ih (h.key hStarted (by omega) code stray) hStarted hOpen hRest
      | call c =>
          have hBusy : s.writes ≠ [] := by
            rw [h.writes, List.drop_eq_getElem_cons (show n < (move p).length from by
              show n < 4
              omega)]
            exact List.cons_ne_nil _ _
          simp only [step, if_neg hBusy] at hFirst
          cases hFirst
      | run =>
          rw [beq_self_eq_true, if_pos rfl] at hOpen ⊢
          have hNext := ih (h.write hStarted (by omega) hFirst) (Nat.succ_pos n) (by omega) hRest
          rwa [Nat.add_assoc, Nat.add_comm 1] at hNext

/-- Keys before the first write. -/
theorem keys_writes {events : List Event} (hKeys : .run ∉ events) : ∀ {s : State},
    s.writes = move p → exec step s events = some s' →
    s'.writes = move p ∧ s.moves.length ≤ s'.moves.length := by
  induction events with
  | nil =>
      intro s hWrites hRun
      obtain rfl := Option.some.inj hRun
      exact ⟨hWrites, Nat.le_refl _⟩
  | cons e events ih =>
      intro s hWrites hRun
      obtain ⟨s₁, hFirst, hRest⟩ := exec_cons_some hRun
      have hTail := @ih (fun hMem => hKeys (List.mem_cons_of_mem e hMem))
      cases e with
      | key code stray =>
          obtain rfl := Option.some.inj hFirst
          obtain ⟨hEnd, hMore⟩ := hTail (by rwa [key_writes]) hRest
          refine ⟨hEnd, le_trans ?_ hMore⟩
          unfold key
          split
          · exact Nat.le_refl _
          · exact List.length_append ▸ Nat.le_add_right _ _
      | call c =>
          have hBusy : s.writes ≠ [] := by
            rw [hWrites]
            exact List.cons_ne_nil _ _
          simp only [step, if_neg hBusy] at hFirst
          cases hFirst
      | run => exact absurd List.mem_cons_self hKeys

/-- **A `move` that keys interrupt.**  With `p` its argument, `asked` the last
position that it or a key asked for, and `torn` the last that it or a key asked
for between its first write and its last, the cursor ends at the low byte of
`torn` and the high byte of `p`.  So it is shown where it was last asked for
exactly if that has the high byte of `p`, and is `p` itself when no key moved it
after the first write. -/
theorem move_interrupted {s s₁ s₂ s₃ : State} {ops : List Op} {before inside : List Event}
    (hIdle : s.writes = []) (hMove : s.console.rest = .move :: ops)
    (hBefore : exec step s (.run :: before) = some s₁) (hKeys : .run ∉ before)
    (hInside : exec step s₁ (.run :: inside) = some s₂) (hTwo : inside.count .run = 2)
    (hLast : step s₂ .run = some s₃) {asked torn : Nat}
    (hAsked : asked = (s₃.moves.drop s.moves.length).getLast?.getD (position s.console.console.i))
    (hTorn : torn = (s₃.moves.drop s₁.moves.length).getLast?.getD (position s.console.console.i)) :
    s₃.writes = [] ∧ shown s₃.bank = torn % 256 + 256 * (position s.console.console.i / 256) ∧
      (shown s₃.bank = asked ↔ asked / 256 = position s.console.console.i / 256 ∧
        (s₃.moves.length = s₁.moves.length → asked = position s.console.console.i)) := by
  have hRange := position_lt s.console.console.i
  generalize hp : position s.console.console.i = p at hAsked hTorn hRange ⊢
  obtain ⟨sRead, hRead, hRest⟩ := exec_cons_some hBefore
  simp only [step, hIdle, hMove] at hRead
  obtain rfl := Option.some.inj hRead
  obtain ⟨hWrites, hMore⟩ := keys_writes hKeys (congrArg move hp) hRest
  replace hMore : s.moves.length ≤ s₁.moves.length := hMore
  obtain ⟨sFirst, hFirst, hRest⟩ := exec_cons_some hInside
  have hStart : Moving p s₁.moves.length 1 sFirst := by
    rw [move, put] at hWrites
    simp only [step, hWrites] at hFirst
    obtain rfl := Option.some.inj hFirst
    refine ⟨rfl, ?_, Nat.le_refl _⟩
    rw [List.drop_length]
    exact Torn.first s₁.bank
  have hThird := hStart.exec Nat.one_pos (by omega) hRest
  rw [hTwo] at hThird
  obtain ⟨hDone, hEnd, hKept⟩ := hThird.write (by decide) (by decide) hLast
  have hShown : shown s₃.bank = torn % 256 + 256 * (p / 256) := by
    rw [shown, hEnd.word, ← hTorn, Nat.mod_eq_of_lt (show p / 256 < 256 by omega)]
  refine ⟨hDone, hShown, ?_⟩
  rw [hShown]
  rw [List.getLast?_drop] at hAsked hTorn
  by_cases hNone : s₃.moves.length = s₁.moves.length
  · rw [if_pos hNone.le] at hTorn
    obtain rfl : torn = p := hTorn
    constructor
    · intro hSame
      exact ⟨by omega, fun _ => by omega⟩
    · rintro ⟨-, hSame⟩
      rw [hSame hNone]
      omega
  · have hLater : ¬s₃.moves.length ≤ s₁.moves.length := by omega
    rw [if_neg hLater] at hTorn
    rw [if_neg (by omega), ← hTorn] at hAsked
    subst hAsked
    constructor
    · intro hSame
      exact ⟨by omega, fun h => absurd h hNone⟩
    · rintro ⟨hSame, -⟩
      omega

/-- About to show the cursor in cell 255, when it goes one cell to the right. -/
def atEdge : State where
  console := ⟨{ Console.start.console with i := 255 }, [.move]⟩
  bank := ⟨0, fun _ => 0⟩
  writes := []
  moves := []

theorem move_interrupted_atEdge :
    ∃ s, exec step atEdge [.run, .run, .run, .key 0x4D .elsewhere, .run, .run] = some s ∧
      s.console.console.i = 256 ∧ shown s.bank = 0 := by
  have hAll : ((exec step atEdge [.run]).bind fun s₁ =>
      (exec step s₁ [.run, .run, .key 0x4D .elsewhere, .run]).bind fun s₂ =>
        (step s₂ .run).map fun s₃ => (s₁.moves, s₃.moves, s₃.console.console.i)) =
      some ([], [256], 256) := rfl
  obtain ⟨s₁, hBefore, hLater⟩ := Option.bind_eq_some_iff.mp hAll
  obtain ⟨s₂, hInside, hEnd⟩ := Option.bind_eq_some_iff.mp hLater
  obtain ⟨s₃, hLast, hState⟩ := Option.map_eq_some_iff.mp hEnd
  simp only [Prod.mk.injEq] at hState
  obtain ⟨hMoves₁, hMoves₃, hCell⟩ := hState
  obtain ⟨-, hShown, -⟩ := move_interrupted rfl rfl hBefore (by simp) hInside (by decide) hLast
    rfl rfl
  refine ⟨s₃, ?_, hCell, ?_⟩
  · show exec step atEdge ([.run] ++ ([.run, .run, .key 0x4D .elsewhere, .run] ++ [.run])) = _
    rw [exec_append, hBefore, Option.bind_some, exec_append, hInside, Option.bind_some, exec_cons,
      hLast]
    rfl
  · rw [hShown, hMoves₁, hMoves₃]
    decide

end MiniKernel.Ports.CursorUpdates
