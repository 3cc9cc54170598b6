import M2.Lib.Run
import M2.Fhk.Setters

/-!
# Clearing and scanning bitmaps

`bm_cleari`, `bm_findi` and `S_get_missingi` of `src/fhk/solve.c`. `bm_cleari` is on the words of the
machine, with the `int32_t` counter of its loop and a log of the words it accesses; an access outside
of the bitmap has no result. Where the counter holds what is left it is the function of the same
name on numbers. The driver answers a request with any bitmap.
-/
namespace M2.Fhk
open M2.Lib
open M2.Lib.Bitmap
open M2.Mem (Word ALIGN le_ALIGN ALIGN_block)

namespace Words

/-- A bitmap, and its words that were accessed. -/
structure Access where
  bm : List Word
  words : List Nat

/-- Read word `k` and write it back changed. -/
def Access.update (A : Access) (k : Nat) (f : Word → Word) : Option Access :=
  (A.bm[k]?).map fun m => ⟨A.bm.set k (f m), A.words ++ [k]⟩

/-- `1ULL << n`, which the language leaves open from 64 on. -/
def shl (undef : Nat → Word) (n : Nat) : Word := if n < 64 then (1 : Word) <<< n else undef n

/-- The counter of the loop goes down by 64, below 0 at the end. -/
theorem left_sub {left : BitVec 32} (more : 0 < left.toInt) : (left - 64).toInt = left.toInt - 64 := by
  have bound := left.toInt_lt
  rw [BitVec.toInt_sub, show (64 : BitVec 32).toInt = 64 from rfl]
  apply Int.bmod_eq_of_le
  · omega
  · omega

/-- The loop of `bm_cleari` with `bm` at word `k`. -/
def bm_clearLoop (undef : Nat → Word) (A : Access) (k : Nat) (left : BitVec 32) : Option Access :=
  if 0 < left.toInt then do
    let A ← A.update (k + 1) fun m => m + 1 - (if left.toInt < 64 then shl undef left.toNat else 0)
    bm_clearLoop undef A (k + 1) (left - 64)
  else some A
termination_by left.toInt.toNat
decreasing_by
  rename_i more
  have := left_sub more
  omega

/-- `bm_cleari`. -/
def bm_cleari (undef : Nat → Word) (bm : List Word) (inst num : Word) : Option Access := do
  let k := (inst >>> 6).toNat
  let start := inst &&& 0x3f
  let stop := start + num
  let A ← Access.update ⟨bm, []⟩ k fun m =>
    m + shl undef start.toNat - (if stop.toNat < 64 then shl undef stop.toNat else 0)
  bm_clearLoop undef A k ((num - (64 - start)).setWidth 32)

/-- The counter of a positive number of bits is that number. -/
theorem left_toNat {left : BitVec 32} (more : 0 < left.toInt) : (left.toNat : Int) = left.toInt := by
  have bound := left.isLt
  rw [BitVec.toInt_eq_toNat_cond] at more ⊢
  split at more
  · rename_i small
    rw [if_pos small]
  · omega

theorem update_inside {A : Access} {k : Nat} (inside : k < A.bm.length) (f : Word → Word) :
    A.update k f = some ⟨A.bm.set k (f ((A.bm[k]?).getD (BitVec.allOnes 64))), A.words ++ [k]⟩ := by
  rw [Access.update, List.getElem?_eq_getElem inside, Option.map_some, Option.getD_some]

/-- A word of the loop is one of `bm_cleari` on numbers. -/
theorem clearw_left (undef : Nat → Word) (m : Word) {left : BitVec 32} (more : 0 < left.toInt) :
    m + 1 - (if left.toInt < 64 then shl undef left.toNat else 0) = bm_clearw m 0 left.toInt.toNat := by
  have value := left_toNat more
  rw [bm_clearw, show (1 : Word) <<< 0 = 1 from rfl]
  by_cases last : left.toInt < 64
  · rw [if_pos last, if_pos (by omega), shl, if_pos (by omega), show left.toInt.toNat = left.toNat by omega]
  · rw [if_neg last, if_neg (by omega)]

/-- The loop accesses the words behind `k` one after the other, and clears what its counter says. -/
theorem clearLoop_eq (undef : Nat → Word) {A : Access} {k : Nat} {left : BitVec 32}
    (room : 64 * (k + 1) + left.toInt.toNat ≤ 64 * A.bm.length) :
    bm_clearLoop undef A k left = some ⟨Fhk.bm_clearLoop A.bm (k + 1) left.toInt.toNat,
      A.words ++ List.range' (k + 1) ((left.toInt.toNat + 63) / 64)⟩ := by
  fun_induction bm_clearLoop undef A k left with
  | case1 A k left more ih =>
    have inside : k + 1 < A.bm.length := by omega
    have next := left_sub more
    rw [update_inside inside, Option.bind_eq_bind, Option.bind_some, clearw_left undef _ more, ih _ (by
      rw [List.length_set]
      omega)]
    have count : (left.toInt.toNat + 63) / 64 = ((left - 64).toInt.toNat + 63) / 64 + 1 := by omega
    have fewer : (left - 64).toInt.toNat = left.toInt.toNat - 64 := by omega
    rw [Fhk.bm_clearLoop.eq_def A.bm, if_pos (by omega), fewer, count, fewer, List.range'_succ, List.append_assoc]
    rfl
  | case2 A k left done =>
    rw [Fhk.bm_clearLoop, if_neg (by omega), show (left.toInt.toNat + 63) / 64 = 0 by omega, List.range'_zero,
      List.append_nil]

theorem start_toNat (inst : Word) : (inst &&& 0x3f).toNat = inst.toNat % 64 := by
  rw [BitVec.toNat_and]
  exact Nat.and_two_pow_sub_one_eq_mod inst.toNat 6

theorem zeroed_toNat (inst : Word) : ((64 : Word) - (inst &&& 0x3f)).toNat = 64 - inst.toNat % 64 := by
  rw [BitVec.toNat_sub, start_toNat, show (64 : Word).toNat = 64 from rfl]
  omega

/-- The first word of `bm_cleari`, and the bits that are left behind it. -/
theorem cleari_first (undef : Nat → Word) {bm : List Word} {inst : Word} (num : Word) (inside : inst.toNat / 64 < bm.length) :
    ∃ m, bm_cleari undef bm inst num =
        bm_clearLoop undef ⟨bm.set (inst.toNat / 64) m, [inst.toNat / 64]⟩ (inst.toNat / 64)
          ((num - (64 - (inst &&& 0x3f))).setWidth 32) ∧
      (inst.toNat % 64 + num.toNat < 2 ^ 64 →
        m = bm_clearw ((bm[inst.toNat / 64]?).getD (BitVec.allOnes 64)) (inst.toNat % 64) (inst.toNat % 64 + num.toNat)) := by
  have word : (inst >>> 6).toNat = inst.toNat / 64 := by
    rw [BitVec.toNat_ushiftRight, Nat.shiftRight_eq_div_pow]
  unfold bm_cleari
  dsimp only
  rw [word, update_inside (A := ⟨bm, []⟩) inside]
  refine ⟨_, rfl, fun whole => ?_⟩
  rw [BitVec.toNat_add, start_toNat, Nat.mod_eq_of_lt whole, shl, if_pos (by omega), bm_clearw]
  congr 1
  split
  · rename_i last
    rw [shl, if_pos last]
  · rfl

/-- What is left behind the first word, as a number. -/
theorem left_value {inst num : Word} (more : 64 - inst.toNat % 64 ≤ num.toNat) :
    ((num - (64 - (inst &&& 0x3f))).setWidth 32).toNat = (num.toNat - (64 - inst.toNat % 64)) % 2 ^ 32 := by
  have bound := num.isLt
  rw [BitVec.toNat_setWidth, BitVec.toNat_sub, zeroed_toNat]
  congr 1
  omega

/-- `bm_cleari` ends, has cleared exactly the range, and has accessed only words of the range. -/
def Clears (undef : Nat → Word) (bm : List Word) (inst num : Word) : Prop :=
  ∃ A, bm_cleari undef bm inst num = some A ∧ A.bm.length = bm.length ∧
    (∀ i, bit A.bm i = (bit bm i && !decide (inst.toNat ≤ i ∧ i < inst.toNat + num.toNat))) ∧
    ∀ k ∈ A.words, inst.toNat / 64 ≤ k ∧ k ≤ (inst.toNat + num.toNat - 1) / 64

variable {bm : List Word} {inst num : Word}

/-- Where the counter holds what is left behind the first word, the range is cleared. -/
theorem clears (undef : Nat → Word) (pos : 0 < num.toNat) (room : inst.toNat + num.toNat ≤ 64 * bm.length)
    (ones : ∀ i, inst.toNat ≤ i → i < inst.toNat + num.toNat → bit bm i = true)
    (held : num.toNat < 2 ^ 31 + (64 - inst.toNat % 64)) : Clears undef bm inst num := by
  have inside : inst.toNat / 64 < bm.length := by omega
  have left : ((num - (64 - (inst &&& 0x3f))).setWidth 32 : BitVec 32).toInt.toNat = num.toNat - (64 - inst.toNat % 64) := by
    by_cases more : 64 - inst.toNat % 64 ≤ num.toNat
    · have value := left_value more
      rw [BitVec.toInt_eq_toNat_cond, value]
      split <;> omega
    · have value : ((num - (64 - (inst &&& 0x3f))).setWidth 32 : BitVec 32).toNat =
          2 ^ 32 + num.toNat - (64 - inst.toNat % 64) := by
        rw [BitVec.toNat_setWidth, BitVec.toNat_sub, zeroed_toNat]
        omega
      rw [BitVec.toInt_eq_toNat_cond, value]
      split <;> omega
  obtain ⟨m, run, first⟩ := cleari_first undef num inside
  have ends := @clearLoop_eq undef ⟨bm.set (inst.toNat / 64) m, [inst.toNat / 64]⟩ (inst.toNat / 64)
    ((num - (64 - (inst &&& 0x3f))).setWidth 32) (by
      simp only [List.length_set]
      omega)
  rw [left, first (by omega)] at ends
  rw [first (by omega)] at run
  have word : inst.toNat >>> 6 = inst.toNat / 64 := Nat.shiftRight_eq_div_pow inst.toNat 6
  have place : inst.toNat &&& 0x3f = inst.toNat % 64 := Nat.and_two_pow_sub_one_eq_mod inst.toNat 6
  have same : Fhk.bm_cleari bm inst.toNat num.toNat = Fhk.bm_clearLoop (bm.set (inst.toNat / 64)
      (bm_clearw ((bm[inst.toNat / 64]?).getD (BitVec.allOnes 64)) (inst.toNat % 64) (inst.toNat % 64 + num.toNat)))
        (inst.toNat / 64 + 1) (num.toNat - (64 - inst.toNat % 64)) := by
    unfold Fhk.bm_cleari
    rw [word, place]
  refine ⟨_, run.trans ends, ?_, ?_, ?_⟩
  · rw [← same]
    exact bm_cleari_length _ _ _
  · intro i
    rw [← same]
    exact bit_bm_cleari pos room ones i
  · intro k accessed
    rw [List.singleton_append, List.mem_cons, List.mem_range'_1] at accessed
    omega

/-- Where it does not, the last bit of the range is kept. -/
theorem not_clears (undef : Nat → Word) (room : inst.toNat + num.toNat ≤ 64 * bm.length)
    (ones : ∀ i, inst.toNat ≤ i → i < inst.toNat + num.toNat → bit bm i = true)
    (many : 2 ^ 31 + (64 - inst.toNat % 64) ≤ num.toNat) : ¬ Clears undef bm inst num := by
  rintro ⟨A, ended, -, cleared, -⟩
  have inside : inst.toNat / 64 < bm.length := by omega
  obtain ⟨m, run, -⟩ := cleari_first undef num inside
  generalize (num - (64 - (inst &&& 0x3f))).setWidth 32 = left at run
  have few := left.toInt_lt
  rw [clearLoop_eq undef (by
    simp only [List.length_set]
    omega)] at run
  have last := cleared (inst.toNat + num.toNat - 1)
  rw [ended] at run
  rw [Option.some.inj run, bit_bm_clearLoop (by
      simp only [List.length_set]
      omega) (by
      intro i low high
      rw [bit_set inside, if_neg (by omega)]
      exact ones i (by omega) (by omega)),
    bit_set inside, if_neg (by omega), ones _ (by omega) (by omega)] at last
  rw [decide_eq_false (by omega), decide_eq_true (by omega)] at last
  cases last

end Words

/-- A range of ones inside of a bitmap is cleared, with nothing else changed and no other word accessed,
exactly where what is left of it behind the first word fits the counter. -/
theorem bm_cleari_iff (undef : Nat → Word) (bm : List Word) (inst num : Word) (pos : 0 < num.toNat)
    (room : inst.toNat + num.toNat ≤ 64 * bm.length)
    (ones : ∀ i, inst.toNat ≤ i → i < inst.toNat + num.toNat → bit bm i = true) :
    Words.Clears undef bm inst num ↔ num.toNat < 2 ^ 31 + (64 - inst.toNat % 64) := by
  constructor
  · intro clears
    by_contra many
    exact Words.not_clears undef room ones (Nat.not_lt.mp many) clears
  · exact Words.clears undef pos room ones

theorem bm_cleari_iff_five : Words.Clears (fun _ => 0) [BitVec.allOnes 64] 3 5 ↔ 5 < 2 ^ 31 + (64 - 3 % 64) :=
  bm_cleari_iff (fun _ => 0) [BitVec.allOnes 64] 3 5 (by decide) (by decide) (by
    intro i _ high
    rw [bit, show i / 64 = 0 from Nat.div_eq_of_lt (by
      have : (3 : Word).toNat + (5 : Word).toNat = 8 := rfl
      omega), List.getElem?_cons_zero, Option.getD_some, BitVec.getLsbD_allOnes]
    exact decide_eq_true (Nat.mod_lt _ (by decide)))

/-- `2^31 + 64` ones from the first on are not all cleared: the counter starts below 0. -/
theorem not_clears_many : ¬ ∀ (undef : Nat → Word) (bm : List Word) (inst num : Word), 0 < num.toNat →
    inst.toNat + num.toNat ≤ 64 * bm.length →
    (∀ i, inst.toNat ≤ i → i < inst.toNat + num.toNat → bit bm i = true) → Words.Clears undef bm inst num := by
  intro clears
  have inst_eq : (0 : Word).toNat = 0 := rfl
  have num_eq : (0x80000040 : Word).toNat = 2 ^ 31 + 64 := rfl
  obtain ⟨n, words⟩ : ∃ n, n = 2 ^ 25 + 1 := ⟨_, rfl⟩
  have room : (0 : Word).toNat + (0x80000040 : Word).toNat ≤ 64 * (List.replicate n (BitVec.allOnes 64)).length := by
    rw [List.length_replicate, inst_eq, num_eq]
    omega
  have ones (i : Nat) (_ : (0 : Word).toNat ≤ i) (high : i < (0 : Word).toNat + (0x80000040 : Word).toNat) :
      bit (List.replicate n (BitVec.allOnes 64)) i = true := by
    rw [inst_eq, num_eq] at high
    rw [bit_replicate _ (by omega), BitVec.getLsbD_allOnes]
    exact decide_eq_true (Nat.mod_lt _ (by decide))
  apply Words.not_clears (fun _ => 0) room ones
  · rw [inst_eq, num_eq]
  · exact clears _ _ _ _ (by decide) room ones

/-! ## The scan -/

/-- What `bm_findi` leaves: its result, the instance, and the words it has read. -/
structure Found where
  found : Bool
  inst : Nat
  words : List Nat

/-- The loop of `bm_findi` at word `k`, of which `m` holds the bits that are looked at. -/
def bm_findLoop (bm : List Word) (inst stop : Nat) (k : Nat) (m : Word) (words : List Nat) : Option Found :=
  if m ≠ 0 then
    let i := 64 * k + m.ctz.toNat
    some ⟨decide (i < stop), i, words⟩
  else if k = stop >>> 6 then some ⟨false, inst, words⟩
  else
    match _next : bm[k + 1]? with
    | none => none
    | some m => bm_findLoop bm inst stop (k + 1) m (words ++ [k + 1])
termination_by bm.length - k
decreasing_by
  have := (List.getElem?_eq_some_iff.mp _next).1
  omega

/-- `bm_findi`. -/
def bm_findi (bm : List Word) (inst stop : Nat) : Option Found := do
  let k := inst >>> 6
  let m ← bm[k]?
  bm_findLoop bm inst stop k (m &&& BitVec.allOnes 64 <<< (inst &&& 0x3f)) [k]

/-- The scan of `[inst, stop)` finds the first one in it, or that there is none, and reads the bitmap only. -/
structure Finds (bm : List Word) (inst stop : Nat) (r : Found) : Prop where
  words : ∀ k ∈ r.words, k < bm.length
  some : r.found = true → inst ≤ r.inst ∧ r.inst < stop ∧ bit bm r.inst = true ∧
    ∀ i, inst ≤ i → i < r.inst → bit bm i = false
  none : r.found = false → ∀ i, inst ≤ i → i < stop → bit bm i = false

/-- What a word holds is what the bitmap holds there, from `inst` on. -/
def Masked (bm : List Word) (inst k : Nat) (m : Word) : Prop :=
  ∀ j < 64, m.getLsbD j = (bit bm (64 * k + j) && decide (inst ≤ 64 * k + j))

theorem bit_word {bm : List Word} {k : Nat} {m : Word} (here : bm[k]? = some m) {j : Nat} (lt : j < 64) :
    bit bm (64 * k + j) = m.getLsbD j := by
  rw [bit, show (64 * k + j) / 64 = k by omega, here, show (64 * k + j) % 64 = j by omega, Option.getD_some]

/-- Below the lowest one of the word the bitmap holds no one. -/
theorem Masked.clear {bm : List Word} {inst k : Nat} {m : Word} (masked : Masked bm inst k m) {i : Nat} (low : inst ≤ i)
    (behind : 64 * k ≤ i) (small : i < 64 * k + 64) (zero : m.getLsbD (i - 64 * k) = false) : bit bm i = false := by
  have clear := masked (i - 64 * k) (by omega)
  rwa [zero, show 64 * k + (i - 64 * k) = i by omega, decide_eq_true low, Bool.and_true, eq_comm] at clear

/-- The loop of the scan, where what comes before its word holds no one. -/
theorem bm_findLoop_finds {bm : List Word} {inst stop k : Nat} {m : Word} {words : List Nat} (masked : Masked bm inst k m)
    (before : ∀ i, inst ≤ i → i < 64 * k → bit bm i = false) (first : inst < 64 * (k + 1)) (le : k ≤ stop / 64)
    (room : stop < 64 * bm.length) (read : ∀ k ∈ words, k < bm.length) : ∃ r, bm_findLoop bm inst stop k m words = some r ∧ Finds bm inst stop r := by
  have last : stop >>> 6 = stop / 64 := Nat.shiftRight_eq_div_pow stop 6
  fun_induction bm_findLoop bm inst stop k m words with
  | case1 k m words nonzero i =>
    refine ⟨_, rfl, ?_⟩
    have small : m.ctz.toNat < 64 := BitVec.ctz_lt_iff_ne_zero.mpr nonzero
    have one := masked _ small
    rw [BitVec.getLsbD_true_ctz_of_ne_zero nonzero, eq_comm, Bool.and_eq_true, decide_eq_true_eq] at one
    have zeros (l : Nat) (low : inst ≤ l) (high : l < i) : bit bm l = false := by
      by_cases earlier : l < 64 * k
      · exact before l low earlier
      · exact masked.clear low (by omega) (by omega) (BitVec.getLsbD_false_of_lt_ctz (by omega))
    refine ⟨read, ?_, ?_⟩
    · intro found
      exact ⟨one.2, of_decide_eq_true found, one.1, zeros⟩
    · intro beyond l low high
      have := of_decide_eq_false beyond
      exact zeros l low (by omega)
  | case2 m words zero =>
    refine ⟨_, rfl, read, fun found => (by cases found), fun _ l low high => ?_⟩
    by_cases earlier : l < 64 * (stop >>> 6)
    · exact before l low earlier
    · apply masked.clear low (by omega) (by omega)
      rw [not_not.mp zero]
      exact BitVec.getLsbD_zero
  | case3 k m words zero more next =>
    rw [List.getElem?_eq_none_iff] at next
    omega
  | case4 k m words zero more m' next ih =>
    apply ih
    · intro j lt
      rw [bit_word next lt, decide_eq_true (by omega), Bool.and_true]
    · intro l low high
      by_cases earlier : l < 64 * k
      · exact before l low earlier
      · apply masked.clear low (by omega) (by omega)
        rw [not_not.mp zero]
        exact BitVec.getLsbD_zero
    · omega
    · omega
    · intro l mem
      rcases List.mem_append.mp mem with old | new
      · exact read l old
      · cases List.mem_singleton.mp new
        exact (List.getElem?_eq_some_iff.mp next).1

/-- `bm_findi` reads words of the bitmap only, and finds the first one. -/
theorem bm_findi_finds {bm : List Word} {inst stop : Nat} (le : inst ≤ stop) (room : stop < 64 * bm.length) :
    ∃ r, bm_findi bm inst stop = some r ∧ Finds bm inst stop r := by
  have word : inst >>> 6 = inst / 64 := Nat.shiftRight_eq_div_pow inst 6
  have place : inst &&& 0x3f = inst % 64 := Nat.and_two_pow_sub_one_eq_mod inst 6
  have inside : inst / 64 < bm.length := by omega
  have here : bm[inst / 64]? = some bm[inst / 64] := List.getElem?_eq_getElem inside
  unfold bm_findi
  simp only [word, place, here, Option.bind_eq_bind, Option.bind_some]
  apply bm_findLoop_finds
  · intro j lt
    rw [BitVec.getLsbD_and, BitVec.getLsbD_shiftLeft, BitVec.getLsbD_allOnes, bit_word here lt]
    congr 1
    rw [Bool.eq_iff_iff]
    simp only [Bool.and_eq_true, decide_eq_true_eq, Bool.not_eq_true', decide_eq_false_iff_not]
    omega
  · intro i low high
    omega
  · omega
  · omega
  · exact room
  · intro k mem
    cases List.mem_singleton.mp mem
    exact inside

/-! ## The requests -/

/-- How a request for an instance is answered: the bitmap after it. It may depend on the requests before. -/
abbrev Driver := List Nat → Nat → List Word → List Word

/-- An answer clears at least the bit of the instance, and sets none. -/
structure Driver.Clearing (D : Driver) : Prop where
  length : ∀ asked i bm, (D asked i bm).length = bm.length
  clear : ∀ asked i bm, i < 64 * bm.length → bit (D asked i bm) i = false
  keep : ∀ asked i bm j, bit bm j = false → bit (D asked i bm) j = false

/-- Where `S_get_missingi` is: in its loop, returned, or left through `JE_nvalue` or a read outside. -/
inductive GetPc
  | scan
  | returned
  | nvalue
  | fault
  deriving DecidableEq

/-- A state of `S_get_missingi`, with the bitmaps its requests were made on. -/
structure Getting where
  bm : List Word
  inst : Nat
  requests : List (Nat × List Word)
  pc : GetPc

namespace Getting

/-- One iteration of `S_get_missingi`. -/
def step (D : Driver) (stop : Nat) (s : Getting) : Option Getting :=
  match s.pc with
  | .scan =>
    match bm_findi s.bm s.inst stop with
    | none => some { s with pc := .fault }
    | some r =>
      if r.found then
        let bm := D (s.requests.map Prod.fst) r.inst s.bm
        some ⟨bm, r.inst, s.requests ++ [(r.inst, s.bm)], if bm_isset bm r.inst then .nvalue else .scan⟩
      else some { s with inst := r.inst, pc := .returned }
  | _ => none

/-- `S_get_missingi` at its entry. -/
def start (bm : List Word) (inst : Nat) : Getting := ⟨bm, inst, [], .scan⟩

/-- No instance below this one is missing: the position, and behind it once it was asked for. -/
def done (s : Getting) : Nat := if s.requests = [] then s.inst else s.inst + 1

/-- The requests made so far: missing ones of the range, in ascending order. -/
structure Asked (inst stop : Nat) (requests : List (Nat × List Word)) : Prop where
  range : ∀ q ∈ requests, inst ≤ q.1 ∧ q.1 < stop
  missing : ∀ q ∈ requests, bit q.2 q.1 = true
  ascending : requests.Pairwise fun p q => p.1 < q.1

theorem Asked.ask {inst stop : Nat} {requests : List (Nat × List Word)} (asked : Asked inst stop requests) {i : Nat}
    {bm : List Word} (low : inst ≤ i) (high : i < stop) (next : ∀ q ∈ requests, q.1 < i) (missing : bit bm i = true) :
    Asked inst stop (requests ++ [(i, bm)]) := by
  refine ⟨?_, ?_, ?_⟩
  · intro q mem
    rcases List.mem_append.mp mem with old | new
    · exact asked.range q old
    · cases List.mem_singleton.mp new
      exact ⟨low, high⟩
  · intro q mem
    rcases List.mem_append.mp mem with old | new
    · exact asked.missing q old
    · cases List.mem_singleton.mp new
      exact missing
  · rw [List.pairwise_append]
    refine ⟨asked.ascending, List.pairwise_singleton _ _, fun p old q new => ?_⟩
    cases List.mem_singleton.mp new
    exact next p old

/-- Nothing below `done` is missing, and all requests were below. -/
structure Scanning (inst stop : Nat) (s : Getting) : Prop where
  inst_le : inst ≤ s.inst
  done_le : s.done ≤ stop
  clear : ∀ i, inst ≤ i → i < s.done → bit s.bm i = false
  below : ∀ q ∈ s.requests, q.1 < s.done

/-- What holds in each state of the loop. -/
structure Inv (inst stop len : Nat) (s : Getting) : Prop where
  length : s.bm.length = len
  asked : Asked inst stop s.requests
  at' : s.pc = .scan ∧ Scanning inst stop s ∨
    s.pc = .returned ∧ ∀ i, inst ≤ i → i < stop → bit s.bm i = false

/-- What is left to do. -/
def left (stop : Nat) (s : Getting) : Nat := if s.pc = .scan then stop + 1 - s.done else 0

theorem inst_le_done (s : Getting) : s.inst ≤ s.done := by
  unfold done
  split <;> omega

/-- One iteration keeps the invariant, and something less is left. -/
theorem Inv.step {D : Driver} (clearing : D.Clearing) {inst stop len : Nat} (room : stop < 64 * len) {s s' : Getting}
    (inv : Inv inst stop len s) (taken : s.step D stop = some s') :
    Inv inst stop len s' ∧ s'.left stop < s.left stop := by
  rcases inv.at' with ⟨pc, scanning⟩ | ⟨pc, -⟩
  · have le : s.inst ≤ stop := s.inst_le_done.trans scanning.done_le
    obtain ⟨r, found, finds⟩ := bm_findi_finds le (inv.length.symm ▸ room)
    unfold Getting.step at taken
    rw [pc] at taken
    simp only [found] at taken
    have some_left : s.left stop = stop + 1 - s.done := if_pos pc
    have pos := scanning.done_le
    split at taken
    · rename_i hit
      obtain ⟨low, high, one, -⟩ := finds.some hit
      have from_inst : inst ≤ r.inst := scanning.inst_le.trans low
      have next : s.done ≤ r.inst := by
        by_contra earlier
        rw [scanning.clear r.inst from_inst (by omega)] at one
        cases one
      have zero := clearing.clear (s.requests.map Prod.fst) r.inst s.bm (by
        rw [inv.length]
        omega)
      rw [bm_isset_eq, zero, if_neg Bool.false_ne_true] at taken
      have ends := Option.some.inj taken
      subst ends
      have done_eq : Getting.done ⟨D (s.requests.map Prod.fst) r.inst s.bm, r.inst, s.requests ++ [(r.inst, s.bm)],
          .scan⟩ = r.inst + 1 := if_neg (List.append_ne_nil_of_right_ne_nil _ (List.cons_ne_nil _ _))
      refine ⟨⟨?_, ?_, .inl ⟨rfl, ?_, ?_, ?_, ?_⟩⟩, ?_⟩
      · exact (clearing.length _ _ _).trans inv.length
      · exact inv.asked.ask from_inst high (fun q mem => (scanning.below q mem).trans_le next) one
      · exact from_inst
      · rw [done_eq]
        exact high
      · intro i low' high'
        rw [done_eq] at high'
        rcases Nat.lt_succ_iff_lt_or_eq.mp high' with less | rfl
        · apply clearing.keep
          by_cases earlier : i < s.done
          · exact scanning.clear i low' earlier
          · exact (finds.some hit).2.2.2 i (by
              have := s.inst_le_done
              omega) less
        · exact zero
      · intro q mem
        rw [done_eq]
        rcases List.mem_append.mp mem with old | new
        · have := scanning.below q old
          omega
        · cases List.mem_singleton.mp new
          exact Nat.lt_succ_self _
      · rw [some_left, left, if_pos rfl, done_eq]
        omega
    · rename_i miss
      have ends := Option.some.inj taken
      subst ends
      refine ⟨⟨inv.length, inv.asked, .inr ⟨rfl, fun i low high => ?_⟩⟩, ?_⟩
      · by_cases earlier : i < s.done
        · exact scanning.clear i low earlier
        · have := s.inst_le_done
          exact finds.none (Bool.not_eq_true _ |>.mp miss) i (by omega) high
      · rw [some_left, left, if_neg GetPc.noConfusion]
        omega
  · unfold Getting.step at taken
    rw [pc] at taken
    cases taken

/-- `S_get_missingi` returns, has asked for missing instances of the range only, in ascending order, and
none of the range is missing. -/
def Gets (D : Driver) (bm : List Word) (inst stop : Nat) : Prop :=
  ∃ s, Run.Reaches (step D stop) (start bm inst) s ∧ s.pc = .returned ∧ Asked inst stop s.requests ∧
    ∀ i, inst ≤ i → i < stop → bit s.bm i = false

theorem gets {D : Driver} (clearing : D.Clearing) {bm : List Word} {inst stop : Nat} (le : inst ≤ stop)
    (room : stop < 64 * bm.length) : Gets D bm inst stop := by
  have first : Inv inst stop bm.length (start bm inst) :=
    ⟨rfl, ⟨fun q mem => (by cases mem), fun q mem => (by cases mem), .nil⟩,
      .inl ⟨rfl, le_rfl, le, fun i low high => absurd high (Nat.not_lt.mpr low), fun q mem => (by cases mem)⟩⟩
  obtain ⟨s, run, inv, halted⟩ := Run.halts_of_decreasing Nat.lt_wfRel.wf (left stop)
    (fun a b inv taken => (Inv.step clearing room inv taken).1)
    (fun a b inv taken => (Inv.step clearing room inv taken).2) (start bm inst) first
  rcases inv.at' with ⟨pc, scanning⟩ | ⟨pc, clear⟩
  · have le : s.inst ≤ stop := s.inst_le_done.trans scanning.done_le
    obtain ⟨r, found, -⟩ := bm_findi_finds le (inv.length.symm ▸ room)
    unfold step at halted
    rw [pc] at halted
    simp only [found] at halted
    split at halted <;> cases halted
  · exact ⟨s, run, pc, inv.asked, clear⟩

end Getting

/-! ## The presence bitmaps -/

namespace GivenState
variable {G : Graph} {α : Type} {S : GivenState G α}

/-- A bitmap has eight times the words it needs. -/
structure Roomy (S : GivenState G α) : Prop where
  vars : ∀ xi p, S.vmstate xi = some p → S.shape xi ≤ 8 * (S.bm p).length
  intern : 0 < S.bm0_size.toNat → S.bm0_size.toNat ≤ 8 * (S.bm S.bm0_intern).length

theorem le_bm_alloc_words {num : Word} (room : num.toNat + 63 < 2 ^ 64) (init : Word) :
    (ALIGN num 64).toNat ≤ 8 * (bm_alloc num init).length ∧ num.toNat ≤ (ALIGN num 64).toNat := by
  have block := ALIGN_block num
  rw [bm_alloc, List.length_replicate]
  exact ⟨by omega, le_ALIGN (by decide) room⟩

/-- Bitmaps at their old addresses stay roomy. -/
theorem Roomy.addBitmap (roomy : S.Roomy) (inv : S.Inv) (words : List Word) : (S.addBitmap words).2.Roomy := by
  constructor
  · intro xi p here
    rw [addBitmap_old words (inv.below xi p here)]
    exact roomy.vars xi p here
  · intro pos
    change S.bm0_size.toNat ≤ 8 * ((S.addBitmap words).2.bm S.bm0_intern).length
    rw [addBitmap_old words (inv.belowIntern pos)]
    exact roomy.intern pos

/-- The bitmap that `bm_getall0` returns is roomy. -/
theorem Roomy.bm_getall0 (roomy : S.Roomy) (inv : S.Inv) {n : Nat} (pos : 0 < n) (small : n < 2 ^ 16) :
    (S.bm_getall0 n).2.Roomy ∧ n ≤ 8 * ((S.bm_getall0 n).2.bm (S.bm_getall0 n).1).length := by
  unfold GivenState.bm_getall0
  split
  · rename_i enough
    exact ⟨roomy, le_trans enough (roomy.intern (by omega))⟩
  · simp only
    obtain ⟨low, high⟩ := bm0_num_bounds (S := S) n small
    generalize S.bm0_num n = num at low high ⊢
    have num_toNat : (BitVec.ofInt 64 num).toNat = num.toNat := by
      rw [BitVec.toNat_ofInt]
      omega
    obtain ⟨words, le⟩ := @le_bm_alloc_words (BitVec.ofInt 64 num) (by omega) 0
    have size : ((ALIGN (BitVec.ofInt 64 num) 64).setWidth 16).toNat ≤ (ALIGN (BitVec.ofInt 64 num) 64).toNat := by
      rw [BitVec.toNat_setWidth]
      exact Nat.mod_le _ _
    have added := roomy.addBitmap inv (bm_alloc (BitVec.ofInt 64 num) 0)
    refine ⟨⟨added.vars, fun _ => ?_⟩, ?_⟩
    · change _ ≤ 8 * ((S.addBitmap _).2.bm S.next).length
      rw [addBitmap_new]
      exact size.trans words
    · change n ≤ 8 * ((S.addBitmap (bm_alloc (BitVec.ofInt 64 num) 0)).2.bm S.next).length
      rw [addBitmap_new]
      omega

theorem copyValues_bm_length (S : GivenState G α) (xi : Fin G.nv) (p inst n : Nat) (vp arena : Nat → α) (q : Nat) :
    ((S.copyValues xi p inst n vp arena).bm q).length = (S.bm q).length := by
  unfold GivenState.copyValues
  by_cases same : q = p
  · subst same
    simp only [Function.update_self]
    exact bm_cleari_length _ _ _
  · simp only [Function.update_of_ne same]

theorem Roomy.copyValues (roomy : S.Roomy) (xi : Fin G.nv) (p inst n : Nat) (vp arena : Nat → α) :
    (S.copyValues xi p inst n vp arena).Roomy := by
  constructor
  · intro yi q here
    rw [copyValues_bm_length]
    exact roomy.vars yi q here
  · intro pos
    rw [copyValues_bm_length]
    exact roomy.intern pos

/-- A variable gets a roomy bitmap. -/
theorem Roomy.give (roomy : S.Roomy) {xi : Fin G.nv} {p : Nat} (room : S.shape xi ≤ 8 * (S.bm p).length)
    (value : Fin G.nv → Option (Nat → α)) :
    ({ S with vmstate := Function.update S.vmstate xi (some p), value } : GivenState G α).Roomy := by
  constructor
  · intro yi q here
    by_cases same : yi = xi
    · subst same
      simp only [Function.update_self] at here
      cases here
      exact room
    · simp only [Function.update_of_ne same] at here
      exact roomy.vars yi q here
  · exact roomy.intern

theorem Roomy.newMissing (roomy : S.Roomy) (inv : S.Inv) (xi : Fin G.nv) : (S.newMissing xi).2.Roomy := by
  have small := shape_lt (S := S) xi
  have num : (BitVec.ofNat 64 (S.shape xi)).toNat = S.shape xi := by
    rw [BitVec.toNat_ofNat, Nat.mod_eq_of_lt (by omega)]
  obtain ⟨words, le⟩ := @le_bm_alloc_words (BitVec.ofNat 64 (S.shape xi)) (by omega) (BitVec.allOnes 64)
  apply (roomy.addBitmap inv (bm_alloc (BitVec.ofNat 64 (S.shape xi)) (BitVec.allOnes 64))).give (p := S.next)
  change S.shape xi ≤ _
  rw [addBitmap_new]
  omega

theorem Roomy.marked {r : Bool × GivenState G α} (roomy : S.Roomy) (inv : S.Inv) {xi : Fin G.nv} {inst : BitVec 16}
    {n : BitVec 32} {vp arena : Nat → α} (marked : Marked S xi inst n vp arena r) : r.2.Roomy := by
  cases marked with
  | zero => exact roomy
  | reject => exact roomy
  | whole known fresh all pos =>
    have zero := roomy.bm_getall0 inv pos (shape_lt xi)
    have same : (S.bm_getall0 (S.shape xi)).2.shape xi = S.shape xi :=
      congrArg (fun kmap : Nat → BitVec 64 => PK_N1 ((kmap (G.vars xi).group).setWidth 32))
        (inv.bm_getall0 pos (shape_lt xi)).kmap
    apply zero.1.give
    rw [same]
    exact zero.2
  | part here first => exact roomy.copyValues _ _ _ _ _ _
  | new known fresh => exact (roomy.newMissing inv xi).copyValues _ _ _ _ _ _

theorem Roomy.step {S' : GivenState G α} (roomy : S.Roomy) (inv : S.Inv) (step : Step S S') : S'.Roomy := by
  cases step with
  | setshape group shape ss unset accepted =>
    refine ⟨fun xi p here => ?_, roomy.intern⟩
    have other : (G.vars xi).group ≠ group := fun same => (inv.covers xi p here).1 (same ▸ unset)
    have room := roomy.vars xi p here
    unfold GivenState.shape at room ⊢
    simpa only [Function.update_of_ne other] using room
  | setvaluei xi inst n vp arena => exact roomy.marked inv (S.marked xi inst n vp arena)
  | setroot xi buf unset => exact ⟨roomy.vars, roomy.intern⟩
  | expand wi unset num => exact ⟨(roomy.addBitmap inv _).vars, (roomy.addBitmap inv _).intern⟩
  | check wi p here words =>
    obtain ⟨notVar, notIntern⟩ := inv.apart wi p here
    constructor
    · intro xi q there
      simp only [Function.update_of_ne fun same => notVar xi (there.trans (congrArg some same))]
      exact roomy.vars xi q there
    · intro pos
      simp only [Function.update_of_ne (notIntern pos)]
      exact roomy.intern pos

theorem Reachable.roomy (reachable : S.Reachable) : S.Roomy := by
  induction reachable with
  | refl => exact ⟨fun _ _ here => (by cases here), fun pos => absurd pos (Nat.lt_irrefl 0)⟩
  | tail run step ih => exact ih.step (Reachable.inv run).1 step

end GivenState

/-- In the bitmap of a variable whose group is not empty, the scan of a range of the group finds its first
missing instance within the words of the bitmap, and `S_get_missingi` asks for missing instances of the
range until none is left. -/
theorem presence_scanned {G : Graph} {α : Type} (S : GivenState G α) (reachable : S.Reachable) (xi : Fin G.nv) (p : Nat)
    (here : S.vmstate xi = some p) (inhabited : 0 < S.shape xi) (inst stop : Nat) (le : inst ≤ stop)
    (shape : stop ≤ S.shape xi) :
    (∃ r, bm_findi (S.bm p) inst stop = some r ∧ Finds (S.bm p) inst stop r) ∧
      ∀ D : Driver, D.Clearing → Getting.Gets D (S.bm p) inst stop := by
  have room : stop < 64 * (S.bm p).length := by
    have := reachable.roomy.vars xi p here
    omega
  exact ⟨bm_findi_finds le room, fun D clearing => Getting.gets clearing le room⟩

theorem presence_scanned_third :
    (∃ r, bm_findi (Overlap.third.bm 0) 1 4 = some r ∧ Finds (Overlap.third.bm 0) 1 4 r) ∧
      ∀ D : Driver, D.Clearing → Getting.Gets D (Overlap.third.bm 0) 1 4 :=
  presence_scanned Overlap.third Overlap.third_reachable Overlap.x 0 rfl (by decide +kernel) 1 4 (by decide)
    (by decide +kernel)

end M2.Fhk
