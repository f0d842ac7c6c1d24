import Mathlib.Tactic

/-!
# Registers behind an index

A device has two ports: a write to the first selects the register that writes to
the second go to.  A word is put into two of its registers by four writes, and
whoever interrupts these to put a word of their own leaves the index on the
second register.

`Torn` follows a word that is put with others put in between.  In the end the
second register has its own byte, and the first that of the last interrupter
(`Torn.word`).
-/

namespace MiniKernel.Verified.IndexedRegisters

structure Bank where
  index : Nat
  value : Nat → Nat

inductive Write
  | select (register : Nat)
  | data (v : Nat)
  deriving Repr, DecidableEq

def Write.run : Write → Bank → Bank
  | .select register, b => { b with index := register }
  | .data v, b => { b with value := Function.update b.value b.index v }

def runAll (ws : List Write) (b : Bank) : Bank := ws.foldl (fun b w => w.run b) b

/-- A word of two bytes, the low one first. -/
def put (low high w : Nat) : List Write :=
  [.select low, .data (w % 256), .select high, .data (w / 256 % 256)]

/-- The word that the two registers hold. -/
def word (low high : Nat) (b : Bank) : Nat := b.value low + 256 * b.value high

/-- After so many writes of `put low high p`, with `last` the last word that was put
by somebody else since the first of them. -/
def Torn (low high p : Nat) (last : Option Nat) : Nat → Bank → Prop
  | 0, _ => True
  | 1, b => last.elim (b.index = low) fun q => b.index = high ∧ b.value low = q % 256
  | 2, b => b.value low = last.getD p % 256
  | 3, b => b.value low = last.getD p % 256 ∧ b.index = high
  | _, b => b.value low = last.getD p % 256 ∧ b.value high = p / 256 % 256

variable {low high p q n : Nat} {last : Option Nat} {b : Bank}

/-- **A word that is put at once.** -/
theorem runAll_put (hApart : low ≠ high) (w : Nat) (b : Bank) :
    (runAll (put low high w) b).index = high ∧
      (runAll (put low high w) b).value low = w % 256 ∧
      (runAll (put low high w) b).value high = w / 256 % 256 := by
  refine ⟨rfl, ?_, ?_⟩
  · show Function.update (Function.update b.value low (w % 256)) high (w / 256 % 256) low = _
    rw [Function.update_of_ne hApart, Function.update_self]
  · show Function.update (Function.update b.value low (w % 256)) high (w / 256 % 256) high = _
    rw [Function.update_self]

theorem Torn.first (b : Bank) : Torn low high p none 1 (Write.run (.select low) b) := rfl

/-- **The next write.** -/
theorem Torn.next (hApart : low ≠ high) (h : Torn low high p last n b) (hStarted : 0 < n)
    {w : Write} {ws : List Write} (hWrites : (put low high p).drop n = w :: ws) :
    Torn low high p last (n + 1) (w.run b) := by
  match n, hStarted with
  | 1, _ =>
      obtain ⟨rfl, -⟩ := List.cons.inj hWrites
      show Function.update b.value b.index (p % 256) low = last.getD p % 256
      cases last with
      | none =>
          replace h : b.index = low := h
          rw [h, Function.update_self]
          rfl
      | some q =>
          obtain ⟨hIndex, hLow⟩ : b.index = high ∧ b.value low = q % 256 := h
          rw [hIndex, Function.update_of_ne hApart, hLow]
          rfl
  | 2, _ =>
      obtain ⟨rfl, -⟩ := List.cons.inj hWrites
      exact ⟨h, rfl⟩
  | 3, _ =>
      obtain ⟨rfl, -⟩ := List.cons.inj hWrites
      obtain ⟨hLow, hIndex⟩ : b.value low = last.getD p % 256 ∧ b.index = high := h
      show Function.update b.value b.index (p / 256 % 256) low = last.getD p % 256 ∧
        Function.update b.value b.index (p / 256 % 256) high = p / 256 % 256
      rw [hIndex, Function.update_of_ne hApart, Function.update_self]
      exact ⟨hLow, rfl⟩
  | n + 4, _ => simp [put] at hWrites

/-- **Another word** in between. -/
theorem Torn.interrupt (hApart : low ≠ high) (hStarted : 0 < n) (hOpen : n < 4) (q : Nat)
    (b : Bank) : Torn low high p (some q) n (runAll (put low high q) b) := by
  obtain ⟨hIndex, hLow, -⟩ := runAll_put hApart q b
  match n, hStarted, hOpen with
  | 1, _, _ => exact ⟨hIndex, hLow⟩
  | 2, _, _ => exact hLow
  | 3, _, _ => exact ⟨hLow, hIndex⟩

/-- **The end.** -/
theorem Torn.word (h : Torn low high p last 4 b) :
    word low high b = last.getD p % 256 + 256 * (p / 256 % 256) := by
  obtain ⟨hLow, hHigh⟩ : b.value low = last.getD p % 256 ∧ b.value high = p / 256 % 256 := h
  rw [IndexedRegisters.word, hLow, hHigh]

end MiniKernel.Verified.IndexedRegisters
