import Mathlib.Data.Nat.Basic
import Mathlib.Tactic.Ring

/-!
# Doubling to a bound

A machine number of `w` bits is doubled until it is at least a bound. The loop ends at the first doubling
that is, also where one has wrapped before; it does not end where none is.
-/
namespace M2.Lib.Doubling

variable {w : Nat}

/-- The loop, with a bound on the tests. -/
def grow : Nat → BitVec w → BitVec w → Option (BitVec w)
  | 0, _, _ => none
  | fuel + 1, x, need => if x < need then grow fuel (x * 2) need else some x

/-- `y` is the first doubling of `x` that is at least `need`. -/
def First (x need y : BitVec w) : Prop :=
  ∃ j, y.toNat = x.toNat * 2 ^ j % 2 ^ w ∧ need.toNat ≤ y.toNat ∧ ∀ i < j, x.toNat * 2 ^ i % 2 ^ w < need.toNat

theorem First.ge {x need y : BitVec w} (first : First x need y) : need.toNat ≤ y.toNat := first.choose_spec.2.1

/-- Doubling once more is doubling the double. -/
theorem double_toNat (x : BitVec w) (j : Nat) : (x * 2).toNat * 2 ^ j % 2 ^ w = x.toNat * 2 ^ (j + 1) % 2 ^ w := by
  have two : (2 : BitVec w).toNat = 2 % 2 ^ w := BitVec.toNat_ofNat 2 w
  rw [BitVec.toNat_mul, two, Nat.mul_mod_mod, Nat.mod_mul_mod, Nat.mul_assoc, pow_succ, Nat.mul_comm 2]

theorem first_self {x need : BitVec w} (enough : ¬ x < need) : First x need x := by
  refine ⟨0, ?_, BitVec.le_def.mp (BitVec.not_lt.mp enough), fun i less => absurd less (Nat.not_lt_zero i)⟩
  rw [pow_zero, Nat.mul_one, Nat.mod_eq_of_lt x.isLt]

theorem first_double {x need y : BitVec w} (small : x < need) : First (x * 2) need y ↔ First x need y := by
  have below : x.toNat * 2 ^ 0 % 2 ^ w < need.toNat := by
    rw [pow_zero, Nat.mul_one, Nat.mod_eq_of_lt x.isLt]
    exact BitVec.lt_def.mp small
  constructor
  · rintro ⟨j, value, enough, less⟩
    refine ⟨j + 1, by rw [value, double_toNat], enough, fun i lt => ?_⟩
    cases i with
    | zero => exact below
    | succ i =>
      rw [← double_toNat]
      exact less i (by omega)
  · rintro ⟨j, value, enough, less⟩
    cases j with
    | zero => exact absurd (lt_of_lt_of_le (value ▸ below) enough) (lt_irrefl _)
    | succ j =>
      refine ⟨j, by rw [value, double_toNat], enough, fun i lt => ?_⟩
      rw [double_toNat]
      exact less (i + 1) (by omega)

theorem grow_first {fuel : Nat} {x need y : BitVec w} (grown : grow fuel x need = some y) : First x need y := by
  induction fuel generalizing x with
  | zero => cases grown
  | succ fuel ih =>
    rw [grow] at grown
    split at grown
    · rename_i small
      exact (first_double small).mp (ih grown)
    · rename_i enough
      cases grown
      exact first_self enough

/-- With enough tests for each of the bits the loop ends where a doubling is large enough. -/
theorem First.grow {x need y : BitVec w} (first : First x need y) {fuel : Nat} (enough : w < fuel) :
    Doubling.grow fuel x need = some y := by
  obtain ⟨j, value, ge, less⟩ := first
  have few : j ≤ w := by
    by_contra more
    have zero := less w (by omega)
    rw [Nat.mul_mod_left] at zero
    have dvd : 2 ^ w ∣ x.toNat * 2 ^ j := Dvd.dvd.mul_left (pow_dvd_pow 2 (by omega)) _
    rw [Nat.mod_eq_zero_of_dvd dvd] at value
    omega
  obtain ⟨rest, rfl⟩ : ∃ rest, fuel = j + 1 + rest := Nat.exists_eq_add_of_le (by omega)
  clear few enough
  induction j generalizing x with
  | zero =>
    rw [show 0 + 1 + rest = rest + 1 by omega, Doubling.grow, if_neg]
    · congr 1
      apply BitVec.eq_of_toNat_eq
      rw [value, pow_zero, Nat.mul_one, Nat.mod_eq_of_lt x.isLt]
    · rw [pow_zero, Nat.mul_one, Nat.mod_eq_of_lt x.isLt] at value
      rw [BitVec.not_lt, BitVec.le_def, ← value]
      exact ge
  | succ j ih =>
    have small : x < need := by
      have first := less 0 (by omega)
      rw [pow_zero, Nat.mul_one, Nat.mod_eq_of_lt x.isLt] at first
      exact BitVec.lt_def.mpr first
    rw [show j + 1 + 1 + rest = j + 1 + rest + 1 by omega, Doubling.grow, if_pos small]
    apply ih
    · rw [value, double_toNat]
    · intro i lt
      rw [double_toNat]
      exact less (i + 1) (by omega)

theorem grow_some_iff {fuel : Nat} (enough : w < fuel) {x need y : BitVec w} :
    grow fuel x need = some y ↔ First x need y := ⟨grow_first, fun first => first.grow enough⟩

end M2.Lib.Doubling
