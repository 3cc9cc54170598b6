import M2.Fhk.Given

/-!
# Shadow state bits

`S_checkscan` and the `shadow_failed` path of `S_select_chain` in `src/fhk/solve.c`, which pack the
pass and evaluation bits of 32 instances in a word. The scan shifts a `uint64_t`, the failure path
shifts the `int` 2. What C leaves undefined of a shift is a parameter.
-/
namespace M2.Fhk

open M2.Lib.Bitmap
open M2.Mem (Word)

/-- `2 << k` as an `int`, and `1ULL << k`, as a compiler has them where C defines neither. -/
structure Shifts where
  two : Nat → BitVec 32
  one : Nat → Word
  two_eq : ∀ k < 30, two k = 2 <<< k
  one_eq : ∀ k < 64, one k = 1 <<< k

/-- The floating point comparisons, on bit patterns. -/
structure FloatCmp where
  ge32 : BitVec 32 → BitVec 32 → Bool
  le32 : BitVec 32 → BitVec 32 → Bool
  ge64 : BitVec 64 → BitVec 64 → Bool
  le64 : BitVec 64 → BitVec 64 → Bool

/-- The guards, under the labels of `S_checkscan`. -/
inductive Guard
  | f32_ge
  | f32_le
  | f64_ge
  | f64_le
  | u8_m64
  deriving DecidableEq

/-- The guard of a `struct fhk_shadow`, `arg` being the bits of the union. -/
structure Checked where
  guard : Guard
  arg : Word

def SW_PASS : Word := 1

def SW_EVAL : Word := 2

/-- `SW_BMIDX(inst)`. -/
def SW_BMIDX (inst : Nat) : Nat := inst >>> 5

/-- `SW_BMOFF(inst)`. -/
def SW_BMOFF (inst : Nat) : Nat := (inst <<< 1) &&& 0x3f

variable (C : Shifts) (F : FloatCmp)

/-- `ok` of `S_checkscan`, of the little-endian word at `vp`. -/
def Checked.ok (w : Checked) (vp : Word) : Word :=
  match w.guard with
  | .f32_ge => if F.ge32 (vp.setWidth 32) (w.arg.setWidth 32) then 1 else 0
  | .f32_le => if F.le32 (vp.setWidth 32) (w.arg.setWidth 32) then 1 else 0
  | .f64_ge => if F.ge64 vp w.arg then 1 else 0
  | .f64_le => if F.le64 vp w.arg then 1 else 0
  | .u8_m64 => if C.one (vp.setWidth 8).toNat &&& w.arg ≠ 0 then 1 else 0

/-- The loop of `S_checkscan` at `inst`, with `left` instances behind it. -/
def checkLoop (ok : Nat → Word) : Nat → Nat → List Word → Nat → Nat → Word → List Word
  | left, inst, bm, k, offset, state =>
    let state := state ||| (ok inst ||| SW_EVAL) <<< offset
    match left with
    | 0 => bm.set k state
    | left + 1 =>
      let offset := (offset + 2) &&& 0x3f
      if offset = 0 then
        let bm := bm.set k state
        checkLoop ok left (inst + 1) bm (k + 1) offset ((bm[k + 1]?).getD (BitVec.allOnes 64))
      else checkLoop ok left (inst + 1) bm k offset state

/-- `S_checkscan` of the instances from `inst` up to `stop`, the source's `end`. -/
def S_checkscan (bm : List Word) (w : Checked) (value : Nat → Word) (inst stop : Nat) : List Word :=
  checkLoop (fun i => w.ok C F (value i)) (stop - inst - 1) inst bm (SW_BMIDX inst) (SW_BMOFF inst)
    ((bm[SW_BMIDX inst]?).getD (BitVec.allOnes 64))

/-- The write at `shadow_failed`: the `int` is sign extended. -/
def shadow_failed (ss : List Word) (inst : Nat) : List Word :=
  ss.set (SW_BMIDX inst)
    ((ss[SW_BMIDX inst]?).getD (BitVec.allOnes 64) ||| (C.two (SW_BMOFF inst)).signExtend 64)

/-! ## Bits of an instance -/

/-- The evaluation bit. -/
def evalBit (bm : List Word) (inst : Nat) : Bool := bit bm (2 * inst + 1)

/-- The pass bit. -/
def passBit (bm : List Word) (inst : Nat) : Bool := bit bm (2 * inst)

theorem SW_BMIDX_eq (inst : Nat) : SW_BMIDX inst = 2 * inst / 64 := by
  rw [SW_BMIDX, Nat.shiftRight_eq_div_pow]
  omega

theorem SW_BMOFF_eq (inst : Nat) : SW_BMOFF inst = 2 * inst % 64 := by
  rw [SW_BMOFF, Nat.shiftLeft_eq, Nat.mul_comm]
  exact Nat.and_two_pow_sub_one_eq_mod _ 6

theorem Checked.ok_cases (w : Checked) (vp : Word) : w.ok C F vp = 0 ∨ w.ok C F vp = 1 := by
  unfold Checked.ok
  split <;> split <;> simp

/-- The bits of an instance, shifted to its place. -/
theorem getLsbD_result {ok : Word} (bool : ok = 0 ∨ ok = 1) {offset p : Nat} (lt : p < 64) :
    ((ok ||| SW_EVAL) <<< offset).getLsbD p = (decide (p = offset + 1) || decide (p = offset) && decide (ok = 1)) := by
  rw [BitVec.getLsbD_shiftLeft, decide_eq_true lt, Bool.true_and]
  by_cases low : p < offset
  · rw [decide_eq_true low, decide_eq_false (by omega), decide_eq_false (by omega)]
    rfl
  · rw [decide_eq_false low, Bool.not_false, Bool.true_and]
    obtain ⟨d, rfl⟩ := Nat.exists_eq_add_of_le (Nat.le_of_not_lt low)
    rw [Nat.add_sub_cancel_left, show decide (offset + d = offset + 1) = decide (d = 1) by congr 1; simp,
      show decide (offset + d = offset) = decide (d = 0) by congr 1; simp]
    match d with
    | 0 => rcases bool with rfl | rfl <;> rfl
    | 1 => rcases bool with rfl | rfl <;> rfl
    | d + 2 =>
      have high : (ok ||| SW_EVAL).toNat < 2 ^ (d + 2) := by
        have : 2 ^ 2 ≤ 2 ^ (d + 2) := Nat.pow_le_pow_right Nat.two_pos (by omega)
        rcases bool with rfl | rfl
        · exact lt_of_lt_of_le (by decide) this
        · exact lt_of_lt_of_le (by decide) this
      rw [decide_eq_false (by omega), decide_eq_false (by omega), BitVec.getLsbD, Nat.testBit_lt_two_pow high]
      rfl

/-- What the scan of the instances from `inst` to `last` sets. -/
def Scanned (ok : Nat → Word) (inst last j : Nat) : Prop :=
  inst ≤ j / 2 ∧ j / 2 ≤ last ∧ (j % 2 = 1 ∨ ok (j / 2) = 1)

instance (ok : Nat → Word) (inst last j : Nat) : Decidable (Scanned ok inst last j) := by
  unfold Scanned
  infer_instance

theorem bit_set_result {ok : Nat → Word} (bool : ∀ i, ok i = 0 ∨ ok i = 1) {bm : List Word} {inst : Nat}
    (room : 2 * inst / 64 < bm.length) (state : Word) (j : Nat) :
    bit (bm.set (2 * inst / 64) (state ||| (ok inst ||| SW_EVAL) <<< (2 * inst % 64))) j =
      (bit (bm.set (2 * inst / 64) state) j || decide (Scanned ok inst inst j)) := by
  rw [bit_set room, bit_set room]
  by_cases here : j / 64 = 2 * inst / 64
  · rw [if_pos here, if_pos here, BitVec.getLsbD_or, getLsbD_result (bool inst) (by omega), ← Bool.decide_and,
      ← Bool.decide_or]
    congr 2
    unfold Scanned
    rw [eq_iff_iff]
    constructor
    · rintro (odd | ⟨even, one⟩)
      · exact ⟨by omega, by omega, .inl (by omega)⟩
      · exact ⟨by omega, by omega, .inr (by rwa [show j / 2 = inst by omega])⟩
    · rintro ⟨low, high, odd | one⟩
      · exact .inl (by omega)
      · rw [show j / 2 = inst by omega] at one
        by_cases odd : j % 2 = 1
        · exact .inl (by omega)
        · exact .inr ⟨by omega, one⟩
  · rw [if_neg here, if_neg here, decide_eq_false, Bool.or_false]
    unfold Scanned
    omega

theorem checkLoop_length (ok : Nat → Word) (left inst : Nat) (bm : List Word) (k offset : Nat) (state : Word) :
    (checkLoop ok left inst bm k offset state).length = bm.length := by
  induction left generalizing inst bm k offset state with
  | zero => rw [checkLoop, List.length_set]
  | succ left ih =>
    rw [checkLoop]
    simp only
    split
    · rw [ih, List.length_set]
    · exact ih _ _ _ _ _

theorem bit_checkLoop {ok : Nat → Word} (bool : ∀ i, ok i = 0 ∨ ok i = 1) {left inst : Nat} {bm : List Word}
    (room : 2 * (inst + left + 1) ≤ 64 * bm.length) (state : Word) (j : Nat) :
    bit (checkLoop ok left inst bm (2 * inst / 64) (2 * inst % 64) state) j =
      (bit (bm.set (2 * inst / 64) state) j || decide (Scanned ok inst (inst + left) j)) := by
  induction left generalizing inst bm state with
  | zero =>
    rw [checkLoop]
    exact bit_set_result bool (by omega) state j
  | succ left ih =>
    have join : (decide (Scanned ok inst inst j) || decide (Scanned ok (inst + 1) (inst + 1 + left) j)) =
        decide (Scanned ok inst (inst + (left + 1)) j) := by
      rw [← Bool.decide_or]
      congr 1
      unfold Scanned
      rw [eq_iff_iff]
      by_cases set : j % 2 = 1 ∨ ok (j / 2) = 1
      · simp only [set, and_true]
        omega
      · simp only [set, and_false, or_self]
    have next : (2 * inst % 64 + 2) &&& 0x3f = 2 * (inst + 1) % 64 := by
      rw [show (0x3f : Nat) = 2 ^ 6 - 1 from rfl, Nat.and_two_pow_sub_one_eq_mod]
      omega
    rw [checkLoop]
    simp only [next]
    split
    · rename_i wrap
      have k_eq : 2 * inst / 64 + 1 = 2 * (inst + 1) / 64 := by omega
      rw [k_eq, ih (by rw [List.length_set]; omega)]
      rw [bit_set_same (by rw [List.length_set]; omega), bit_set_result bool (by omega), Bool.or_assoc, join]
    · rename_i inside
      have k_eq : 2 * inst / 64 = 2 * (inst + 1) / 64 := by omega
      rw [k_eq, ih (by omega), ← k_eq, bit_set_result bool (by omega), Bool.or_assoc, join]

/-- A scan sets the evaluation bits of its instances, and the pass bits of those whose guard holds. -/
theorem bit_S_checkscan {bm : List Word} {inst stop : Nat} (lt : inst < stop) (room : 2 * stop ≤ 64 * bm.length)
    (w : Checked) (value : Nat → Word) (j : Nat) :
    bit (S_checkscan C F bm w value inst stop) j =
      (bit bm j || decide (Scanned (fun i => w.ok C F (value i)) inst (stop - 1) j)) := by
  rw [S_checkscan, SW_BMIDX_eq, SW_BMOFF_eq, bit_checkLoop (fun i => w.ok_cases C F (value i)) (by omega),
    show inst + (stop - inst - 1) = stop - 1 by omega, bit_set_same (by omega)]

/-- As long as the `int` has room for it, the shifted 2 is the evaluation bit. -/
theorem signExtend_two : ∀ k < 30, (2 <<< k : BitVec 32).signExtend 64 = BitVec.twoPow 64 (k + 1) := by
  decide

/-- The failure path sets the evaluation bit of its instance where the `int` has room for it. -/
theorem bit_shadow_failed {ss : List Word} {inst : Nat} (room : 2 * inst + 1 < 64 * ss.length)
    (low : inst % 32 < 15) (j : Nat) : bit (shadow_failed C ss inst) j = (bit ss j || decide (j = 2 * inst + 1)) := by
  have inside : 2 * inst / 64 < ss.length := by omega
  rw [shadow_failed, SW_BMIDX_eq, SW_BMOFF_eq, bit_set inside]
  split
  · rename_i here
    have off : 2 * inst % 64 < 30 := by omega
    rw [BitVec.getLsbD_or, C.two_eq _ off, signExtend_two _ off, BitVec.getLsbD_twoPow, decide_eq_true (by omega),
      Bool.true_and, ← here, ← bit]
    congr 2
    rw [eq_iff_iff]
    omega
  · rw [decide_eq_false (by omega), Bool.or_false]

/-! ## Runs -/

/-- What the guard is for. A mask holds its members, which are below 64. -/
def Checked.holds (w : Checked) (v : Word) : Bool :=
  match w.guard with
  | .f32_ge => F.ge32 (v.setWidth 32) (w.arg.setWidth 32)
  | .f32_le => F.le32 (v.setWidth 32) (w.arg.setWidth 32)
  | .f64_ge => F.ge64 v w.arg
  | .f64_le => F.le64 v w.arg
  | .u8_m64 => decide ((v.setWidth 8).toNat < 64) && w.arg.getLsbD (v.setWidth 8).toNat

/-- The bitmap of a shadow and the stored values of its variable, with the instances the guard was
evaluated on and those whose solution failed. -/
structure CheckState where
  bm : List Word
  value : Nat → Option Word
  evaluated : List Nat
  failed : List Nat

/-- A value is stored, a range is scanned, or a failure is recorded. -/
inductive CheckEvent
  | store (inst : Nat) (v : Word)
  | scan (inst stop : Nat)
  | fail (inst : Nat)

namespace CheckState

/-- `S_vexpandss`. -/
def expanded (shape : Nat) : CheckState := ⟨bm_alloc (BitVec.ofNat 64 shape) 0, fun _ => none, [], []⟩

variable (w : Checked)

/-- The state after an event. -/
def next (S : CheckState) : CheckEvent → CheckState
  | .store inst v => { S with value := Function.update S.value inst (some v) }
  | .scan inst stop => { S with
      bm := S_checkscan C F S.bm w (fun i => (S.value i).getD 0) inst stop
      evaluated := List.range' inst (stop - inst) ++ S.evaluated }
  | .fail inst => { S with bm := shadow_failed C S.bm inst, failed := inst :: S.failed }

/-- The solver stores a value once, and scans ranges whose values are stored. -/
def Allowed (shape : Nat) (S : CheckState) : CheckEvent → Prop
  | .store inst _ => inst < shape ∧ S.value inst = none
  | .scan inst stop => inst < stop ∧ stop ≤ shape ∧ ∀ i, inst ≤ i → i < stop → (S.value i).isSome
  | .fail inst => inst < shape

/-- Every shift is by less than the width of what is shifted: a mask guard sees values below 64, and
a failed instance is among the first 15 of its word. -/
def Within (S : CheckState) : CheckEvent → Prop
  | .store _ _ => True
  | .scan inst stop => w.guard = .u8_m64 → ∀ i, inst ≤ i → i < stop → ∀ v ∈ S.value i, (v.setWidth 8).toNat < 64
  | .fail inst => inst % 32 < 15

/-- The bits of an instance are right. -/
structure Right (S : CheckState) (i : Nat) : Prop where
  eval : evalBit S.bm i = true ↔ i ∈ S.evaluated ∨ i ∈ S.failed
  pass : passBit S.bm i = true ↔ i ∈ S.evaluated ∧ ∃ v, S.value i = some v ∧ w.holds F v = true

end CheckState

/-- The instances an event is about. -/
def CheckEvent.Touches : CheckEvent → Nat → Prop
  | .store _ _, _ => False
  | .scan inst stop, i => inst ≤ i ∧ i < stop
  | .fail inst, i => i = inst

namespace CheckState
variable {C F} {w : Checked} {shape : Nat}

/-- An event whose condition `met` is one of the run. -/
def Step (C : Shifts) (F : FloatCmp) (w : Checked) (shape : Nat) (met : CheckState → CheckEvent → Prop)
    (S S' : CheckState) : Prop :=
  ∃ e, S.Allowed shape e ∧ met S e ∧ S' = S.next C F w e

/-- The invariant. -/
structure Inv (F : FloatCmp) (w : Checked) (shape : Nat) (S : CheckState) : Prop where
  room : 2 * shape ≤ 64 * S.bm.length
  stored : ∀ i ∈ S.evaluated, (S.value i).isSome
  right : ∀ i < shape, S.Right F w i

/-- On a value below 64 the mask guard is right. -/
theorem ok_eq_one {v : Word} (small : w.guard = .u8_m64 → (v.setWidth 8).toNat < 64) :
    w.ok C F v = 1 ↔ w.holds F v = true := by
  unfold Checked.ok Checked.holds
  cases guard : w.guard with
  | f32_ge => simp
  | f32_le => simp
  | f64_ge => simp
  | f64_le => simp
  | u8_m64 =>
    have small := small guard
    have power : C.one (v.setWidth 8).toNat = BitVec.twoPow 64 (v.setWidth 8).toNat := C.one_eq _ small
    simp only [power, BitVec.and_comm _ w.arg, BitVec.and_twoPow, decide_eq_true small, Bool.true_and]
    cases w.arg.getLsbD (v.setWidth 8).toNat with
    | false => simp
    | true =>
      exact iff_of_true (if_pos (twoPow_ne_zero small)) rfl

theorem expanded_inv (small : shape ≤ G_MAXINST) : (expanded shape).Inv F w shape := by
  unfold G_MAXINST at small
  have num : (BitVec.ofNat 64 shape).toNat = shape := by
    rw [BitVec.toNat_ofNat, Nat.mod_eq_of_lt (by omega)]
  have words : 2 * shape ≤ 64 * (bm_alloc (BitVec.ofNat 64 shape) 0).length := by
    have block := M2.Mem.ALIGN_block (BitVec.ofNat 64 shape)
    have le := M2.Mem.le_ALIGN (n := BitVec.ofNat 64 shape) (m := 64) (by decide)
      (by rw [num, show (64 : Word).toNat = 64 from rfl]; omega)
    rw [bm_alloc, List.length_replicate]
    omega
  have clear (j : Nat) (lt : j < 2 * shape) : bit (bm_alloc (BitVec.ofNat 64 shape) 0) j = false := by
    rw [bm_alloc, List.length_replicate] at words
    rw [bm_alloc, bit_replicate _ (by omega)]
    exact BitVec.getLsbD_zero
  refine ⟨words, fun i mem => (by cases mem), fun i lt => ⟨?_, ?_⟩⟩
  · change bit (bm_alloc (BitVec.ofNat 64 shape) 0) (2 * i + 1) = true ↔ _
    rw [clear _ (by omega)]
    exact iff_of_false Bool.false_ne_true (by simp [expanded])
  · change bit (bm_alloc (BitVec.ofNat 64 shape) 0) (2 * i) = true ↔ _
    rw [clear _ (by omega)]
    exact iff_of_false Bool.false_ne_true (by simp [expanded])

/-- The bits after a scan. -/
theorem Inv.scan_bits {S : CheckState} (inv : S.Inv F w shape) {inst stop : Nat}
    (allowed : S.Allowed shape (.scan inst stop)) (i : Nat) :
    evalBit (S.next C F w (.scan inst stop)).bm i = (evalBit S.bm i || decide (inst ≤ i ∧ i < stop)) ∧
      passBit (S.next C F w (.scan inst stop)).bm i =
        (passBit S.bm i || decide (inst ≤ i ∧ i < stop ∧ w.ok C F ((S.value i).getD 0) = 1)) := by
  obtain ⟨lt, le, -⟩ := allowed
  have room := inv.room
  have bits := bit_S_checkscan C F lt (by omega : 2 * stop ≤ 64 * S.bm.length) w (fun i => (S.value i).getD 0)
  refine ⟨(bits (2 * i + 1)).trans ?_, (bits (2 * i)).trans ?_⟩
  · rw [evalBit]
    congr 2
    unfold Scanned
    rw [eq_iff_iff]
    constructor
    · exact fun ⟨low, high, _⟩ => by omega
    · exact fun ⟨low, high⟩ => ⟨by omega, by omega, .inl (by omega)⟩
  · rw [passBit]
    congr 2
    unfold Scanned
    rw [eq_iff_iff, show 2 * i / 2 = i by omega]
    constructor
    · exact fun ⟨low, high, one⟩ => ⟨low, by omega, one.resolve_left (by omega)⟩
    · exact fun ⟨low, high, one⟩ => ⟨low, by omega, .inr one⟩

/-- The bits after a failure was recorded. -/
theorem Inv.fail_bits {S : CheckState} (inv : S.Inv F w shape) {inst : Nat} (lt : inst < shape)
    (low : inst % 32 < 15) (i : Nat) :
    evalBit (S.next C F w (.fail inst)).bm i = (evalBit S.bm i || decide (i = inst)) ∧
      passBit (S.next C F w (.fail inst)).bm i = passBit S.bm i := by
  have room := inv.room
  have bits := bit_shadow_failed C (by omega : 2 * inst + 1 < 64 * S.bm.length) low
  refine ⟨(bits (2 * i + 1)).trans ?_, (bits (2 * i)).trans ?_⟩
  · rw [evalBit]
    congr 2
    rw [eq_iff_iff]
    omega
  · rw [decide_eq_false (by omega), Bool.or_false, passBit]

theorem Inv.next {S : CheckState} (inv : S.Inv F w shape) {e : CheckEvent} (allowed : S.Allowed shape e)
    (within : S.Within w e) : (S.next C F w e).Inv F w shape := by
  cases e with
  | store inst v =>
    obtain ⟨-, unset⟩ := allowed
    have kept (i : Nat) (mem : i ∈ S.evaluated) : Function.update S.value inst (some v) i = S.value i := by
      refine Function.update_of_ne (fun same => ?_) _ _
      have := inv.stored i mem
      rw [same, unset] at this
      cases this
    refine ⟨inv.room, fun i mem => ?_, fun i lt => ⟨(inv.right i lt).eval, (inv.right i lt).pass.trans ?_⟩⟩
    · change (Function.update S.value inst (some v) i).isSome
      rw [kept i mem]
      exact inv.stored i mem
    · refine and_congr_right fun mem => ?_
      change _ ↔ ∃ u, Function.update S.value inst (some v) i = some u ∧ _
      rw [kept i mem]
  | scan inst stop =>
    have bits := inv.scan_bits (C := C) allowed
    obtain ⟨lt, le, stored⟩ := allowed
    have member (i : Nat) : i ∈ (S.next C F w (.scan inst stop)).evaluated ↔ (inst ≤ i ∧ i < stop) ∨ i ∈ S.evaluated := by
      change i ∈ List.range' inst (stop - inst) ++ S.evaluated ↔ _
      rw [List.mem_append, List.mem_range'_1]
      refine or_congr_left ?_
      omega
    refine ⟨?_, fun i mem => ?_, fun i small => ⟨?_, ?_⟩⟩
    · change 2 * shape ≤ 64 * (S_checkscan C F S.bm w _ inst stop).length
      rw [S_checkscan, checkLoop_length]
      exact inv.room
    · obtain ⟨low, high⟩ | old := (member i).mp mem
      · exact stored i low high
      · exact inv.stored i old
    · rw [(bits i).1, member, Bool.or_eq_true, decide_eq_true_iff, (inv.right i small).eval]
      tauto
    · rw [(bits i).2, member, Bool.or_eq_true, decide_eq_true_iff, (inv.right i small).pass]
      have holds (low : inst ≤ i) (high : i < stop) :
          w.ok C F ((S.value i).getD 0) = 1 ↔ ∃ v, S.value i = some v ∧ w.holds F v = true := by
        obtain ⟨v, value⟩ := Option.isSome_iff_exists.mp (stored i low high)
        rw [value, Option.getD_some, ok_eq_one fun mask => within mask i low high v value]
        simp
      constructor
      · rintro (⟨mem, right⟩ | ⟨low, high, one⟩)
        · exact ⟨.inr mem, right⟩
        · exact ⟨.inl ⟨low, high⟩, (holds low high).mp one⟩
      · rintro ⟨⟨low, high⟩ | mem, right⟩
        · exact .inr ⟨low, high, (holds low high).mpr right⟩
        · exact .inl ⟨mem, right⟩
  | fail inst =>
    have bits := inv.fail_bits (C := C) allowed within
    refine ⟨?_, inv.stored, fun i small => ⟨?_, ?_⟩⟩
    · change 2 * shape ≤ 64 * (shadow_failed C S.bm inst).length
      rw [shadow_failed, List.length_set]
      exact inv.room
    · rw [(bits i).1, Bool.or_eq_true, decide_eq_true_iff, (inv.right i small).eval]
      change _ ↔ i ∈ S.evaluated ∨ i ∈ inst :: S.failed
      rw [List.mem_cons]
      tauto
    · rw [(bits i).2, (inv.right i small).pass]
      exact Iff.rfl

/-- An event changes no bit of an instance it is not about. -/
theorem Inv.frame {S : CheckState} (inv : S.Inv F w shape) {e : CheckEvent} (allowed : S.Allowed shape e)
    (within : S.Within w e) {i : Nat} (outside : ¬ e.Touches i) :
    evalBit (S.next C F w e).bm i = evalBit S.bm i ∧ passBit (S.next C F w e).bm i = passBit S.bm i := by
  cases e with
  | store inst v => exact ⟨rfl, rfl⟩
  | scan inst stop =>
    obtain ⟨eval, pass⟩ := inv.scan_bits (C := C) allowed i
    have outside : ¬ (inst ≤ i ∧ i < stop) := outside
    rw [eval, pass, decide_eq_false outside, decide_eq_false fun both => outside ⟨both.1, both.2.1⟩, Bool.or_false,
      Bool.or_false]
    exact ⟨rfl, rfl⟩
  | fail inst =>
    obtain ⟨eval, pass⟩ := inv.fail_bits (C := C) allowed within i
    have outside : ¬ i = inst := outside
    rw [eval, pass, decide_eq_false outside, Bool.or_false]
    exact ⟨rfl, rfl⟩

/-- In every run whose shifts stay within their widths, the bits of every instance are right, and the
next such event changes no bit of an instance it is not about. -/
theorem checks_right (small : shape ≤ G_MAXINST) {S : CheckState}
    (run : Relation.ReflTransGen (Step C F w shape (Within w)) (expanded shape) S) :
    (∀ i < shape, S.Right F w i) ∧ ∀ e, S.Allowed shape e → S.Within w e → ∀ i, ¬ e.Touches i →
      evalBit (S.next C F w e).bm i = evalBit S.bm i ∧ passBit (S.next C F w e).bm i = passBit S.bm i := by
  have inv : S.Inv F w shape := by
    induction run with
    | refl => exact expanded_inv small
    | tail _ step ih =>
      obtain ⟨e, allowed, within, rfl⟩ := step
      exact ih.next allowed within
  exact ⟨inv.right, fun e allowed within i outside => inv.frame allowed within outside⟩

end CheckState
namespace Over64

/-- Shifts of an x86-64: the count is taken modulo the width. -/
def x86 : Shifts where
  two k := 2 <<< (k % 32)
  one k := 1 <<< (k % 64)
  two_eq k lt := by rw [Nat.mod_eq_of_lt (by omega)]
  one_eq k lt := by rw [Nat.mod_eq_of_lt lt]

/-- Comparisons of the machine's floating point numbers. -/
def ieee : FloatCmp where
  ge32 x y := decide (Float32.ofBits ⟨x⟩ ≥ Float32.ofBits ⟨y⟩)
  le32 x y := decide (Float32.ofBits ⟨x⟩ ≤ Float32.ofBits ⟨y⟩)
  ge64 x y := decide (Float.ofBits ⟨x⟩ ≥ Float.ofBits ⟨y⟩)
  le64 x y := decide (Float.ofBits ⟨x⟩ ≤ Float.ofBits ⟨y⟩)

/-- The mask of the members 0 and 63. -/
def mask : Checked := ⟨.u8_m64, 0x8000000000000001⟩

/-- The value 63 at instance 40. -/
def stored : CheckState := (CheckState.expanded 64).next x86 ieee mask (.store 40 63)

def scanned : CheckState := stored.next x86 ieee mask (.scan 40 41)

theorem scanned_reached :
    Relation.ReflTransGen (CheckState.Step x86 ieee mask 64 (CheckState.Within mask)) (CheckState.expanded 64) scanned := by
  have value (i : Nat) (low : 40 ≤ i) (high : i < 41) : stored.value i = some 63 := by
    obtain rfl : i = 40 := by omega
    rfl
  refine (Relation.ReflTransGen.single ⟨.store 40 63, ⟨by decide, rfl⟩, trivial, rfl⟩).tail
    ⟨.scan 40 41, ⟨by decide, by decide, fun i low high => ?_⟩, fun _ i low high v here => ?_, rfl⟩
  · rw [value i low high]
    rfl
  · rw [value i low high] at here
    cases here
    decide

theorem checks_right_scanned : scanned.Right ieee mask 40 ∧ scanned.Right ieee mask 41 := by
  obtain ⟨right, -⟩ := CheckState.checks_right (by decide) scanned_reached
  exact ⟨right 40 (by decide), right 41 (by decide)⟩

/-- The failure of instance 16 is recorded as the evaluation of instance 0, and a value of 64 passes
as the member 0. -/
theorem not_right :
    (∃ S, Relation.ReflTransGen (CheckState.Step x86 ieee mask 64 fun _ _ => True) (CheckState.expanded 64) S ∧
      ¬ S.Right ieee mask 16 ∧ ¬ S.Right ieee mask 0) ∧
    ∃ S, Relation.ReflTransGen (CheckState.Step x86 ieee mask 64 fun _ _ => True) (CheckState.expanded 64) S ∧
      ¬ S.Right ieee mask 3 := by
  refine ⟨⟨_, .single ⟨.fail 16, (by decide : 16 < 64), trivial, rfl⟩, fun right => ?_, fun right => ?_⟩,
    _, (Relation.ReflTransGen.single ⟨.store 3 64, ⟨by decide, rfl⟩, trivial, rfl⟩).tail
      ⟨.scan 3 4, ⟨by decide, by decide, fun i low high => ?_⟩, trivial, rfl⟩, fun right => ?_⟩
  · have eval := right.eval.mpr (.inr (by decide))
    revert eval
    decide +kernel
  · have eval := right.eval.mp (by decide +kernel)
    revert eval
    decide
  · obtain rfl : i = 3 := by omega
    rfl
  · obtain ⟨v, value, holds⟩ := (right.pass.mp (by decide +kernel)).2
    cases value
    revert holds
    decide

end Over64
end M2.Fhk
