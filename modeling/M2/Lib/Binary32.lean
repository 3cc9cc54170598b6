import Mathlib.Data.BitVec
import Mathlib.Order.Monotone.Basic
import Mathlib.Tactic.Ring
import M2.Lib.Cost

/-!
# The order of non-negative floats

The bit patterns of non-negative `binary32` numbers and what they stand for. Without the sign bit a
larger pattern is a larger number, infinity included. The negative zero is a zero with a sign bit.
-/
namespace M2.Lib.Binary32

/-- The finite number of a pattern without sign, in units of `2^-149`. -/
def ulps (n : Nat) : Nat := if n < 2 ^ 23 then n else (2 ^ 23 + n % 2 ^ 23) * 2 ^ (n / 2 ^ 23 - 1)

/-- The pattern of infinity. -/
def INF : Nat := 0x7f800000

/-- The number of a pattern without sign. -/
def magnitude (n : Nat) : Cost := if n < INF then (((ulps n : ℚ) / 2 ^ 149 : ℚ) : Cost) else ⊤

/-- The pattern of a number that is not negative: no sign, or the negative zero. -/
def NonNeg (w : BitVec 32) : Prop := w.toNat ≤ INF ∨ w.toNat = 2 ^ 31

/-- The number of a pattern that is not negative. -/
def value (w : BitVec 32) : Cost := magnitude (w.toNat % 2 ^ 31)

theorem ulps_lt_succ (n : Nat) : ulps n < ulps (n + 1) := by
  unfold ulps
  by_cases small : n + 1 < 2 ^ 23
  · rw [if_pos (by omega), if_pos small]
    exact Nat.lt_succ_self n
  · rw [if_neg small]
    by_cases first : n < 2 ^ 23
    · rw [if_pos first, show (n + 1) % 2 ^ 23 = 0 by omega, show (n + 1) / 2 ^ 23 - 1 = 0 by omega]
      omega
    · rw [if_neg first]
      have scale := Nat.two_pow_pos (n / 2 ^ 23 - 1)
      by_cases last : n % 2 ^ 23 + 1 < 2 ^ 23
      · rw [show (n + 1) % 2 ^ 23 = n % 2 ^ 23 + 1 by omega, show (n + 1) / 2 ^ 23 = n / 2 ^ 23 by omega]
        exact Nat.mul_lt_mul_of_pos_right (by omega) scale
      · -- the mantissa is full: the exponent goes up by one
        have double : 2 ^ (n / 2 ^ 23 - 1 + 1) = 2 * 2 ^ (n / 2 ^ 23 - 1) := Nat.pow_succ'
        rw [show (n + 1) % 2 ^ 23 = 0 by omega, show (n + 1) / 2 ^ 23 - 1 = n / 2 ^ 23 - 1 + 1 by omega, double,
          ← Nat.mul_assoc]
        exact Nat.mul_lt_mul_of_pos_right (by omega) scale

theorem ulps_strictMono : StrictMono ulps := strictMono_nat_of_lt_succ ulps_lt_succ

theorem magnitude_lt {a b : Nat} (less : a < b) (le : b ≤ INF) : magnitude a < magnitude b := by
  unfold magnitude
  rw [if_pos (by omega)]
  split
  · rw [WithTop.coe_lt_coe]
    apply div_lt_div_of_pos_right _ (by positivity)
    exact_mod_cast ulps_strictMono less
  · exact WithTop.coe_lt_top _

/-- Patterns without sign are ordered as what they stand for. -/
theorem value_lt_iff {a b : BitVec 32} (ha : a.toNat ≤ INF) (hb : b.toNat ≤ INF) :
    value a < value b ↔ a.toNat < b.toNat := by
  have small {w : BitVec 32} (le : w.toNat ≤ INF) : w.toNat % 2 ^ 31 = w.toNat := by
    unfold INF at le
    omega
  unfold value
  rw [small ha, small hb]
  constructor
  · intro less
    by_contra ge
    rcases Nat.lt_or_eq_of_le (Nat.not_lt.mp ge) with more | same
    · exact lt_asymm less (magnitude_lt more ha)
    · rw [same] at less
      exact lt_irrefl _ less
  · exact fun less => magnitude_lt less hb

theorem value_eq_iff {a b : BitVec 32} (ha : a.toNat ≤ INF) (hb : b.toNat ≤ INF) : value a = value b ↔ a = b := by
  constructor
  · intro same
    apply BitVec.eq_of_toNat_eq
    apply Nat.le_antisymm
    · by_contra more
      exact absurd same.symm ((value_lt_iff hb ha).mpr (Nat.not_le.mp more)).ne
    · by_contra more
      exact absurd same ((value_lt_iff ha hb).mpr (Nat.not_le.mp more)).ne
  · exact fun same => congrArg value same

end M2.Lib.Binary32
