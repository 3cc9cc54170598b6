import Mathlib.Data.BitVec
import M2.Lib.Bits

/-!
# Bitmaps in words

A bitmap is a list of 64-bit words. A bit outside of it reads as one, so that what says of a bit
that it is zero says that it is there. Runs of ones are cleared by a subtraction.
-/
namespace M2.Lib.Bitmap

/-- Bit `i` of a bitmap. -/
def bit (bm : List (BitVec 64)) (i : Nat) : Bool := ((bm[i / 64]?).getD (BitVec.allOnes 64)).getLsbD (i % 64)

theorem bit_set {bm : List (BitVec 64)} {k : Nat} (inside : k < bm.length) (m : BitVec 64) (i : Nat) :
    bit (bm.set k m) i = if i / 64 = k then m.getLsbD (i % 64) else bit bm i := by
  unfold bit
  rw [List.getElem?_set]
  by_cases here : k = i / 64
  · subst here
    rw [if_pos rfl, if_pos inside, if_pos rfl, Option.getD_some]
  · rw [if_neg here, if_neg (Ne.symm here)]

/-- Writing a word back changes nothing. -/
theorem bit_set_same {bm : List (BitVec 64)} {k : Nat} (inside : k < bm.length) (i : Nat) :
    bit (bm.set k ((bm[k]?).getD (BitVec.allOnes 64))) i = bit bm i := by
  rw [bit_set inside]
  split
  · rename_i here
    rw [bit, here]
  · rfl

theorem bit_replicate {n : Nat} (w : BitVec 64) {i : Nat} (inside : i / 64 < n) :
    bit (List.replicate n w) i = w.getLsbD (i % 64) := by
  rw [bit, List.getElem?_replicate, if_pos inside, Option.getD_some]

theorem twoPow_ne_zero {k : Nat} (lt : k < 64) : BitVec.twoPow 64 k ≠ 0#64 := by
  intro zero
  have top := BitVec.getLsbD_twoPow (w := 64) k k
  rw [zero, BitVec.getLsbD_zero, decide_eq_true lt] at top
  exact absurd top (by simp)

/-- The word whose ones are the bits from `low` up to `high`. -/
def run (low high : Nat) : BitVec 64 := BitVec.ofNat 64 (Bits.mask (high - low) low)

theorem getLsbD_run {low high i : Nat} (lt : i < 64) :
    (run low high).getLsbD i = decide (low ≤ i ∧ i < high) := by
  rw [run, BitVec.getLsbD_ofNat, Bits.mask, Nat.testBit_mul_two_pow, Nat.testBit_two_pow_sub_one]
  rw [decide_eq_true lt, Bool.true_and, Bool.decide_and]
  by_cases le : low ≤ i
  · rw [decide_eq_true le, Bool.true_and, Bool.true_and]
    congr 1
    rw [eq_iff_iff]
    omega
  · rw [decide_eq_false le, Bool.false_and, Bool.false_and]

/-- Adding a one at the start of a run and taking it back behind its end subtracts the run. -/
theorem add_sub_run (m : BitVec 64) {low high : Nat} (lt : low < 64) (le : low ≤ high) :
    m + (1 : BitVec 64) <<< low - (if high < 64 then (1 : BitVec 64) <<< high else 0) = m - run low (min high 64) := by
  have power {k : Nat} (small : k < 64) : ((1 : BitVec 64) <<< k).toNat = 2 ^ k := by
    have : 2 ^ k < 2 ^ 64 := Nat.pow_lt_pow_right Nat.one_lt_two small
    rw [BitVec.toNat_shiftLeft, show (1 : BitVec 64).toNat = 1 from rfl, Nat.shiftLeft_eq, Nat.one_mul,
      Nat.mod_eq_of_lt this]
  have run_toNat : (run low (min high 64)).toNat + 2 ^ low = 2 ^ min high 64 := by
    have split : 2 ^ min high 64 = 2 ^ (min high 64 - low) * 2 ^ low := by
      rw [← Nat.pow_add]
      congr 1
      omega
    have pos := Nat.two_pow_pos (min high 64 - low)
    have low_pos := Nat.two_pow_pos low
    have whole : 2 ^ min high 64 ≤ 2 ^ 64 := Nat.pow_le_pow_right Nat.two_pos (Nat.min_le_right _ _)
    have mask_eq : Bits.mask (min high 64 - low) low + 2 ^ low = 2 ^ min high 64 := by
      rw [Bits.mask, split, ← Nat.succ_mul]
      congr 1
      omega
    rw [run, BitVec.toNat_ofNat, Nat.mod_eq_of_lt (by omega)]
    exact mask_eq
  have low_lt : 2 ^ low < 2 ^ 64 := Nat.pow_lt_pow_right Nat.one_lt_two lt
  have m_lt := m.isLt
  apply BitVec.eq_of_toNat_eq
  by_cases inside : high < 64
  · rw [Nat.min_eq_left (by omega)] at run_toNat ⊢
    have high_lt : 2 ^ high < 2 ^ 64 := Nat.pow_lt_pow_right Nat.one_lt_two inside
    have low_pos := Nat.two_pow_pos low
    rw [if_pos inside, BitVec.toNat_sub, BitVec.toNat_sub, BitVec.toNat_add, power lt, power inside]
    omega
  · rw [Nat.min_eq_right (by omega)] at run_toNat ⊢
    have low_pos := Nat.two_pow_pos low
    rw [if_neg inside, BitVec.toNat_sub, BitVec.toNat_sub, BitVec.toNat_add, power lt,
      show (0 : BitVec 64).toNat = 0 from rfl]
    omega

/-- Subtracting a run whose bits are ones clears it. -/
theorem getLsbD_sub_run {m : BitVec 64} {low high : Nat} (ones : ∀ i < 64, low ≤ i → i < high → m.getLsbD i = true)
    {i : Nat} (lt : i < 64) : (m - run low high).getLsbD i = (m.getLsbD i && !decide (low ≤ i ∧ i < high)) := by
  have kept : m &&& run low high = run low high := by
    apply BitVec.eq_of_getLsbD_eq
    intro j small
    rw [BitVec.getLsbD_and, getLsbD_run small]
    by_cases inside : low ≤ j ∧ j < high
    · rw [ones j small inside.1 inside.2, Bool.true_and]
    · rw [decide_eq_false inside, Bool.and_false]
  rw [Bits.sub_of_and_eq kept, BitVec.getLsbD_and, BitVec.getLsbD_not, getLsbD_run lt, decide_eq_true lt, Bool.true_and]

theorem run_toNat {low high : Nat} (le : low ≤ high) (small : high ≤ 64) :
    (run low high).toNat = (2 ^ (high - low) - 1) * 2 ^ low := by
  have split : 2 ^ (high - low) * 2 ^ low = 2 ^ high := by rw [← Nat.pow_add, Nat.sub_add_cancel le]
  have whole : 2 ^ high ≤ 2 ^ 64 := Nat.pow_le_pow_right Nat.two_pos small
  have low_pos := Nat.two_pow_pos low
  rw [run, Bits.mask, BitVec.toNat_ofNat, Nat.mod_eq_of_lt]
  rw [Nat.sub_mul, split]
  omega

/-- Subtracting a run leaves the bits below it. -/
theorem getLsbD_sub_run_below {m : BitVec 64} {low high i : Nat} (le : low ≤ high) (small : high ≤ 64) (below : i < low) :
    (m - run low high).getLsbD i = m.getLsbD i := by
  have same : (m - run low high).toNat % 2 ^ low = m.toNat % 2 ^ low := by
    have split : 2 ^ 64 = 2 ^ (64 - low) * 2 ^ low := by rw [← Nat.pow_add, Nat.sub_add_cancel (le.trans small)]
    have less := (run low high).isLt
    rw [BitVec.toNat_sub, Nat.mod_mod_of_dvd _ ⟨_, split.trans (Nat.mul_comm _ _)⟩]
    rw [run_toNat le small] at less ⊢
    have multiple : 2 ^ 64 - (2 ^ (high - low) - 1) * 2 ^ low = (2 ^ (64 - low) - (2 ^ (high - low) - 1)) * 2 ^ low := by
      rw [Nat.sub_mul (2 ^ (64 - low)), ← split]
    rw [multiple, Nat.mul_add_mod_self_right]
  have bit (n : BitVec 64) : n.getLsbD i = (n.toNat % 2 ^ low).testBit i := by
    rw [Nat.testBit_mod_two_pow, decide_eq_true below, Bool.true_and]
    rfl
  rw [bit, bit, same]

/-- Subtracting more than the lower part of a number changes the parity of its upper part. -/
theorem borrow_parity {p q r low h : Nat} (less : low < r) (bound : r < p) (pos : 0 < q) (small : p * h + low < p * (2 * q)) :
    (p * (2 * q) - r + (p * h + low)) % (p * (2 * q)) / p % 2 = (h + 1) % 2 := by
  have p_pos : 0 < p := by omega
  have rest : p + low - r < p := by omega
  cases h with
  | zero =>
    have last : p * (2 * q) = p * (2 * q - 1) + p := by
      rw [← Nat.mul_succ, Nat.succ_eq_add_one, Nat.sub_add_cancel (by omega)]
    have value : p * (2 * q) - r + (p * 0 + low) = p * (2 * q - 1) + (p + low - r) := by omega
    have inside : p * (2 * q - 1) + (p + low - r) < p * (2 * q) := by omega
    rw [value, Nat.mod_eq_of_lt inside, Nat.mul_add_div p_pos, Nat.div_eq_of_lt rest]
    omega
  | succ h =>
    rw [Nat.mul_succ] at small ⊢
    have value : p * (2 * q) - r + (p * h + p + low) = p * (2 * q) + (p * h + (p + low - r)) := by omega
    have inside : p * h + (p + low - r) < p * (2 * q) := by omega
    rw [value, Nat.add_mod_left, Nat.mod_eq_of_lt inside, Nat.mul_add_div p_pos, Nat.div_eq_of_lt rest]
    omega

/-- Subtracting a run that is not all ones borrows from the bit behind it. -/
theorem getLsbD_sub_run_at {m : BitVec 64} {low high j : Nat} (small : high < 64) (ge : low ≤ j) (lt : j < high)
    (zero : m.getLsbD j = false) : (m - run low high).getLsbD high = !m.getLsbD high := by
  have le : low ≤ high := by omega
  have split : 2 ^ (high - low) * 2 ^ low = 2 ^ high := by rw [← Nat.pow_add, Nat.sub_add_cancel le]
  have low_pos := Nat.two_pow_pos low
  have high_pos := Nat.two_pow_pos high
  -- below its end the word is less than the run
  have less : m.toNat % 2 ^ high < (2 ^ (high - low) - 1) * 2 ^ low := by
    by_contra full
    have top : m.toNat % 2 ^ high / 2 ^ low = 2 ^ (high - low) - 1 := by
      have := Nat.mod_lt m.toNat high_pos
      apply Nat.le_antisymm
      · have : m.toNat % 2 ^ high / 2 ^ low < 2 ^ (high - low) := by
          rw [Nat.div_lt_iff_lt_mul low_pos, split]
          exact this
        omega
      · rw [Nat.le_div_iff_mul_le low_pos]
        exact Nat.not_lt.mp full
    have one : (m.toNat % 2 ^ high / 2 ^ low).testBit (j - low) = true := by
      rw [top, Nat.testBit_two_pow_sub_one, decide_eq_true_eq]
      omega
    rw [Nat.testBit_div_two_pow, Nat.sub_add_cancel ge, Nat.testBit_mod_two_pow, decide_eq_true lt, Bool.true_and] at one
    rw [BitVec.getLsbD, one] at zero
    cases zero
  have even : 2 ^ 64 = 2 ^ high * (2 * 2 ^ (63 - high)) := by
    rw [← Nat.pow_succ', ← Nat.pow_add]
    congr 1
    omega
  have place := Nat.div_add_mod m.toNat (2 ^ high)
  have bound : (2 ^ (high - low) - 1) * 2 ^ low < 2 ^ high := by
    rw [Nat.sub_mul, split]
    omega
  rw [BitVec.getLsbD, BitVec.getLsbD, Nat.testBit_eq_decide_div_mod_eq, Nat.testBit_eq_decide_div_mod_eq, BitVec.toNat_sub,
    run_toNat le (by omega)]
  have parity := borrow_parity (h := m.toNat / 2 ^ high) less bound (Nat.two_pow_pos (63 - high))
    (by rw [place, ← even]; exact m.isLt)
  rw [place, ← even] at parity
  rw [parity]
  by_cases odd : m.toNat / 2 ^ high % 2 = 1
  · rw [decide_eq_true odd, decide_eq_false (by omega)]
    rfl
  · rw [decide_eq_false odd, decide_eq_true (by omega)]
    rfl

end M2.Lib.Bitmap
