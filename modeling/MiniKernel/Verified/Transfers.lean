import MiniKernel.Verified.ByteMemory

/-!
# Blocks of bytes brought into memory

`transfer source src dst n` is memory after `n` bytes of `source`, from `src`
on, have come to `dst`, all at once.  A program brings them in pieces or byte
by byte, and both are the same transfer.

## Main results

* `transfer_add`: two transfers one after another, where the second goes on
  where the first has stopped, are one.
* `fill_eq_transfer`: a loop that stores one byte at a time is a transfer from
  a constant source.
-/

namespace MiniKernel.Verified.Transfers

open MiniKernel.Verified.ByteMemory

/-- Memory after `n` bytes of `source`, from `src` on, have come to `dst`. -/
def transfer (source : Nat → UInt8) (src dst n : Nat) (m : Mem) : Mem :=
  fun x => if dst ≤ x ∧ x < dst + n then source (src + (x - dst)) else m x

variable {source : Nat → UInt8} {src dst n k x : Nat} {m : Mem}

theorem transfer_in (hLow : dst ≤ x) (hHigh : x < dst + n) :
    transfer source src dst n m x = source (src + (x - dst)) := if_pos ⟨hLow, hHigh⟩

theorem transfer_apart (h : x < dst ∨ dst + n ≤ x) : transfer source src dst n m x = m x :=
  if_neg (by omega)

@[simp] theorem transfer_zero (source : Nat → UInt8) (src dst : Nat) (m : Mem) :
    transfer source src dst 0 m = m := by
  funext x
  exact transfer_apart (by omega)

/-- **A transfer in two pieces.** -/
theorem transfer_add (source : Nat → UInt8) (src dst n k : Nat) (m : Mem) :
    transfer source (src + n) (dst + n) k (transfer source src dst n m) =
      transfer source src dst (n + k) m := by
  funext x
  by_cases hSecond : dst + n ≤ x ∧ x < dst + n + k
  · rw [transfer_in hSecond.1 hSecond.2, transfer_in (by omega) (by omega)]
    congr 1
    omega
  · rw [transfer_apart (by omega)]
    by_cases hFirst : dst ≤ x ∧ x < dst + n
    · rw [transfer_in hFirst.1 hFirst.2, transfer_in hFirst.1 (by omega)]
    · rw [transfer_apart (by omega), transfer_apart (by omega)]

/-- Store `n` bytes `b` one after another. -/
def fill (b : UInt8) : Nat → Nat → Mem → Mem
  | _, 0, m => m
  | a, n + 1, m => fill b (a + 1) n (setByte m a b)

/-- **A loop that stores byte by byte.** -/
theorem fill_eq_transfer (b : UInt8) : ∀ (n a : Nat) (m : Mem),
    fill b a n m = transfer (fun _ => b) 0 a n m := by
  intro n
  induction n with
  | zero =>
      intro a m
      rw [transfer_zero]
      rfl
  | succ n ih =>
      intro a m
      have hOne : setByte m a b = transfer (fun _ => b) 0 a 1 m := by
        funext x
        by_cases hx : x = a
        · subst hx
          rw [setByte_self, transfer_in (by omega) (by omega)]
        · rw [setByte_ne b hx, transfer_apart (by omega)]
      rw [fill, ih, hOne, Nat.add_comm n 1, ← transfer_add]
      rfl

end MiniKernel.Verified.Transfers
