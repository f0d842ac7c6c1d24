import Mathlib.Tactic

/-!
# Words of a two-level page table

On 32-bit x86 a virtual address splits into a directory index (10 bits), a
table index (10 bits) and an offset (12 bits); a table word holds a frame in
its upper 20 bits and flags in the lower 12, bit 0 meaning "present".  Code
takes these apart with shifts and masks.  The lemmas here turn the bit
operations into division and remainder, which `omega` understands.
-/

namespace MiniKernel.Verified.PageWords

/-- The frame a table word points to. -/
def frameOf (w : Nat) : Nat := 4096 * (w / 4096 % 2 ^ 20)

/-- The present bit of a table word. -/
def Present (w : Nat) : Prop := w % 2 = 1

instance (w : Nat) : Decidable (Present w) := inferInstanceAs (Decidable (_ = _))

/-- The page an address lies in. -/
def pageOf (v : Nat) : Nat := v / 4096

theorem and_one (w : Nat) : w &&& 1 = w % 2 := Nat.and_one_is_mod w

theorem and_one_eq_zero {w : Nat} : w &&& 1 = 0 ↔ ¬Present w := by
  unfold Present
  rw [and_one]
  omega

/-- `w & 0xFFFFF000`. -/
theorem and_mask (w : Nat) : w &&& 0xFFFFF000 = frameOf w := by
  apply Nat.eq_of_testBit_eq
  intro i
  have hMask : (0xFFFFF000 : Nat) = 2 ^ 12 * (2 ^ 20 - 1) := by decide
  rw [Nat.testBit_and, hMask, frameOf, show 4096 = 2 ^ 12 by decide,
    Nat.testBit_two_pow_mul, Nat.testBit_two_pow_mul, Nat.testBit_two_pow_sub_one,
    Nat.testBit_mod_two_pow, Nat.testBit_div_two_pow]
  by_cases hi : 12 ≤ i
  · rw [show i - 12 + 12 = i by omega]
    cases w.testBit i <;> simp [hi]
  · simp [hi]

/-- `v >> 22`. -/
theorem shift_directory (v : Nat) : v >>> 22 = pageOf v / 1024 := by
  rw [Nat.shiftRight_eq_div_pow, pageOf, Nat.div_div_eq_div_mul]

/-- `(v >> 12) & 0x3FF`. -/
theorem shift_table (v : Nat) : (v >>> 12) &&& 0x3FF = pageOf v % 1024 := by
  rw [Nat.shiftRight_eq_div_pow, pageOf, show 0x3FF = 2 ^ 10 - 1 by decide,
    Nat.and_two_pow_sub_one_eq_mod]

theorem or_lt {w f : Nat} (hw : w < 2 ^ 32) (hf : f < 2 ^ 32) : w ||| f < 2 ^ 32 :=
  Nat.or_lt_two_pow hw hf

theorem or_mod_two (w f : Nat) : Present (w ||| f) ↔ Present w ∨ Present f := by
  unfold Present
  rw [Nat.mod_two_eq_one_iff_testBit_zero, Nat.mod_two_eq_one_iff_testBit_zero,
    Nat.mod_two_eq_one_iff_testBit_zero, Nat.testBit_or, Bool.or_eq_true]

/-- Flags do not change the frame. -/
theorem frameOf_or {f : Nat} (w : Nat) (hf : f < 4096) : frameOf (w ||| f) = frameOf w := by
  have hShift : (w ||| f) / 4096 = w / 4096 := by
    rw [show 4096 = 2 ^ 12 by decide, ← Nat.shiftRight_eq_div_pow,
      ← Nat.shiftRight_eq_div_pow, Nat.shiftRight_or_distrib,
      show f >>> 12 = 0 by rw [Nat.shiftRight_eq_div_pow]; omega, Nat.or_zero]
  rw [frameOf, hShift, frameOf]

/-- Nor does it matter which of two words a bit of the frame comes from. -/
theorem frameOf_lor (w w' : Nat) : frameOf (w ||| w') = frameOf w ||| frameOf w' := by
  rw [← and_mask, ← and_mask, ← and_mask, Nat.and_or_distrib_right]

theorem frameOf_mod (w : Nat) : frameOf w % 4096 = 0 := by
  unfold frameOf
  omega

theorem frameOf_le (w : Nat) : frameOf w + 4096 ≤ 2 ^ 32 := by
  unfold frameOf
  omega

/-- An aligned 32-bit address is its own frame. -/
theorem frameOf_aligned {a : Nat} (hAligned : a % 4096 = 0) (hRange : a < 2 ^ 32) :
    frameOf a = a := by
  unfold frameOf
  omega

/-- Different frames do not overlap. -/
theorem frameOf_ne {w w' : Nat} (h : frameOf w ≠ frameOf w') :
    frameOf w + 4096 ≤ frameOf w' ∨ frameOf w' + 4096 ≤ frameOf w := by
  unfold frameOf at *
  omega

end MiniKernel.Verified.PageWords
