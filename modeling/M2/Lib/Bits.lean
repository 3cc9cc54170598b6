import Mathlib.Data.Nat.Bitwise
import Mathlib.Tactic.Ring

/-!
# Fields of machine words

Masking a word with a run of ones reads a field; testing the masked word against zero
tests the field.
-/
namespace M2.Lib.Bits

/-- `((1 << width) - 1) << low`. -/
def mask (width low : Nat) : Nat := (2 ^ width - 1) * 2 ^ low

theorem and_mask (x width low : Nat) : x &&& mask width low = x / 2 ^ low % 2 ^ width * 2 ^ low := by
  apply Nat.eq_of_testBit_eq
  intro i
  rw [mask, Nat.testBit_and, Nat.testBit_mul_two_pow, Nat.testBit_mul_two_pow, Nat.testBit_two_pow_sub_one,
    Nat.testBit_mod_two_pow, Nat.testBit_div_two_pow]
  by_cases h : low ≤ i
  · rw [Nat.sub_add_cancel h]
    simp [h, Bool.and_comm]
  · simp [h]

/-- A field is zero exactly where the masked word is. -/
theorem and_mask_eq_zero (x width low : Nat) : x &&& mask width low = 0 ↔ x / 2 ^ low % 2 ^ width = 0 := by
  rw [and_mask, Nat.mul_eq_zero]
  simp

/-- A word is the sum of its bits outside of a mask and those inside. -/
theorem and_not_add {w : Nat} (x y : BitVec w) : (x &&& ~~~ y) + (x &&& y) = x := by
  have disjoint : (x &&& ~~~ y) &&& (x &&& y) = 0#w := by
    ext i
    simp
    exact fun _ low _ => low
  rw [BitVec.add_eq_or_of_and_eq_zero _ _ disjoint]
  ext i
  simp
  cases x[i] <;> cases y[i] <;> rfl

/-- Subtracting some of its ones from a word clears them. -/
theorem sub_of_and_eq {w : Nat} {x y : BitVec w} (ones : x &&& y = y) : x - y = x &&& ~~~ y := by
  have split := and_not_add x y
  rw [ones] at split
  rw [← split, BitVec.add_sub_cancel, split]

end M2.Lib.Bits
