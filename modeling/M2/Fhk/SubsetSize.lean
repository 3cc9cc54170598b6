import M2.Fhk.SubsetPack

/-!
# Sizes of subsets

`ss_csize` and `S_map_size` of `src/fhk/solve.c` beside `ss_size` of `src/frontend/fhk/ctypes.lua`. A
subset is an unsigned `uint64_t` in Lua, and its order is the one of `iscomplex` there; C compares it as
an `int64_t`. A Lua number is an integer here, so a size that is counted below zero stays there, and is
converted to a `size_t` in C.
-/
namespace M2.Fhk

open M2.Mem (Word)
open M2.Lib

/-! ## In C -/

/-- The loop of `ss_csize`. -/
def csizeLoop (mem : IntervalMem) (pk : Word) (size : Word) : Nat → Option Word
  | 0 => (mem pk).map fun pki => size - ((pki >>> 16).setWidth 16).signExtend 64
  | num + 1 => do
    let pki ← mem pk
    csizeLoop mem (pk + 4) (size - ((pki >>> 16).setWidth 16).signExtend 64) num

/-- `ss_csize`. -/
def ss_csize (mem : IntervalMem) (ss : Word) : Option Word :=
  let num := SS_CNUMI ss
  csizeLoop mem (ss >>> 16) (BitVec.ofNat 64 (num + 1)) num

/-- `S_map_size` of an expanded map. -/
def S_map_size (mem : IntervalMem) (ss : Word) : Option Word :=
  if SS_ISCOMPLEX ss then ss_csize mem ss else some (BitVec.ofNat 64 (PK_N1 (ss.setWidth 32)))

/-! ## In Lua -/

/-- `iscomplex`. -/
def iscomplex (ss : Word) : Bool := SS_EMPTYSET.ult ss

/-- The loop of `ss_size`. -/
def sizeLoop (mem : IntervalMem) (pp : Word) (size : Int) : Nat → Option Int
  | 0 => (mem pp).map fun pk => size - (pk.sshiftRight 16).toInt
  | n + 1 => do
    let pk ← mem pp
    sizeLoop mem (pp + 4) (size - (pk.sshiftRight 16).toInt) n

/-- `ss_size`. -/
def ss_size (mem : IntervalMem) (ss : Word) : Option Int :=
  if iscomplex ss then
    let n := SS_CNUMI ss
    sizeLoop mem (ss >>> 16) (n + 1) n
  else some (1 + (-(ss >>> 32) &&& 0xffff)).toNat

/-! ## The subsets of the frontend -/

/-- The ways to make a subset. -/
inductive SubsetExpr
  | emptyset
  | unit (inst : Nat)
  | space (n : Nat)
  | range (start n : Nat)
  | ss1 (start stop : Nat)
  | ssfromidx (idx : List Nat)

namespace SubsetExpr

/-- The instances are those a group can have. -/
def Valid : SubsetExpr → Prop
  | emptyset => True
  | unit inst => inst ≤ G_MAXINST
  | space n => n ≤ G_MAXINST
  | range start n => start + n ≤ G_MAXINST
  | ss1 start stop => start ≤ stop ∧ stop ≤ G_MAXINST
  | ssfromidx idx => Insts idx

/-- The instances of the subset. -/
def insts : SubsetExpr → List Nat
  | emptyset => []
  | unit inst => [inst]
  | space n => List.range n
  | range start n => List.range' start n
  | ss1 start stop => List.range' start (stop + 1 - start)
  | ssfromidx idx => idx

/-- What is made. -/
def packed : SubsetExpr → Packed
  | emptyset => .word SS_EMPTYSET
  | unit inst => .word (Fhk.unit inst)
  | space n => .word (Fhk.space n)
  | range start n => .word (Fhk.range start n)
  | ss1 start stop => .word (Fhk.ss1 start stop)
  | ssfromidx idx => Fhk.ssfromidx idx

/-- The subset is an array of intervals, none of them longer than what its sign bit leaves. -/
def Counted : SubsetExpr → Prop
  | ssfromidx idx => 2 ≤ (Runs.runs (sortInsts idx)).length ∧ ∀ r ∈ Runs.runs (sortInsts idx), r.2 + 1 - r.1 ≤ 2 ^ 15 + 1
  | _ => False

/-- Both sizes are the number of instances. -/
def SizesAgree (e : SubsetExpr) (mem : IntervalMem) (ip : Word) : Prop :=
  S_map_size mem (e.packed.ss ip) = some (BitVec.ofNat 64 e.insts.length) ∧
    ss_size mem (e.packed.ss ip) = some (e.insts.length : Int)

end SubsetExpr

/-- What is mapped lies in user space, above the page at zero. -/
def UserSpace (mem : IntervalMem) : Prop := ∀ p : Word, (mem p).isSome → 2 ^ 12 ≤ p.toNat ∧ p.toNat < 2 ^ 47

/-! ## Counting the intervals -/

/-- The count that the sign of a packed interval leaves: one less than its length, and below zero for a
long one. -/
def signedCount (r : Nat × Nat) : Int := if r.2 - r.1 ≤ 2 ^ 15 then r.2 - r.1 else r.2 - r.1 - 2 ^ 16

/-- The whole of it over runs, with one instance more for each. -/
def signedSize (rs : List (Nat × Nat)) : Int := (rs.map fun r => signedCount r + 1).sum

section Counts
variable {r : Nat × Nat}

/-- The upper half as an `int16_t`. -/
theorem high_toInt (le : r.1 ≤ r.2) (small : r.2 < 2 ^ 16) : ((pkrun r >>> 16).setWidth 16).toInt = -signedCount r := by
  have high : ((pkrun r >>> 16).setWidth 16).toNat = (2 ^ 16 - (r.2 - r.1)) % 2 ^ 16 := by
    rw [BitVec.toNat_setWidth, BitVec.toNat_ushiftRight, Nat.shiftRight_eq_div_pow, pkrun, pkrange_high le small,
      Nat.mod_mod]
  rw [BitVec.toInt_eq_toNat_cond, high, signedCount]
  split <;> split <;> omega

/-- The arithmetic shift keeps the sign. -/
theorem arshift_toInt (le : r.1 ≤ r.2) (small : r.2 < 2 ^ 16) : ((pkrun r).sshiftRight 16).toInt = -signedCount r := by
  have value : (pkrun r).toNat = (2 ^ 16 - (r.2 - r.1)) % 2 ^ 16 * 2 ^ 16 + r.1 := pkrange_toNat le small
  rw [BitVec.toInt_sshiftRight, Int.shiftRight_eq_div_pow, BitVec.toInt_eq_toNat_cond, value, signedCount]
  clear value
  norm_num only [Nat.cast_ofNat]
  by_cases single : r.2 - r.1 = 0
  · rw [single]
    split <;> split <;> omega
  · rw [Nat.mod_eq_of_lt (show 65536 - (r.2 - r.1) < 65536 by omega)]
    split <;> split <;> omega

end Counts

theorem signedSize_cons (r : Nat × Nat) (rs : List (Nat × Nat)) : signedSize (r :: rs) = signedCount r + 1 + signedSize rs :=
  List.sum_cons

theorem signedSize_one (r : Nat × Nat) : signedSize [r] = signedCount r + 1 := List.sum_singleton

/-- The runs from an address on. -/
def RunsAt (mem : IntervalMem) (at' : Nat) (rs : List (Nat × Nat)) : Prop :=
  ∀ i r, rs[i]? = some r → mem (BitVec.ofNat 64 (at' + 4 * i)) = some (pkrun r)

theorem RunsAt.tail {mem : IntervalMem} {at' : Nat} {r : Nat × Nat} {rs : List (Nat × Nat)} (placed : RunsAt mem at' (r :: rs)) :
    RunsAt mem (at' + 4) rs := by
  intro i s there
  have := placed (i + 1) s there
  rwa [show at' + 4 * (i + 1) = at' + 4 + 4 * i by omega] at this

theorem RunsAt.head {mem : IntervalMem} {at' : Nat} {r : Nat × Nat} {rs : List (Nat × Nat)} (placed : RunsAt mem at' (r :: rs)) :
    mem (BitVec.ofNat 64 at') = some (pkrun r) := placed 0 r rfl

theorem next_word (at' : Nat) : BitVec.ofNat 64 at' + (4 : Word) = BitVec.ofNat 64 (at' + 4) := (BitVec.ofNat_add at' 4).symm

theorem csizeLoop_runs {mem : IntervalMem} {at' : Nat} {r : Nat × Nat} {rs : List (Nat × Nat)} (placed : RunsAt mem at' (r :: rs))
    (ok : ∀ s ∈ r :: rs, s.1 ≤ s.2 ∧ s.2 < 2 ^ 16) (size : Int) :
    csizeLoop mem (BitVec.ofNat 64 at') (BitVec.ofInt 64 (size + (rs.length + 1))) rs.length =
      some (BitVec.ofInt 64 (size + signedSize (r :: rs))) := by
  have counted (r : Nat × Nat) (le : r.1 ≤ r.2) (small : r.2 < 2 ^ 16) (total : Int) :
      BitVec.ofInt 64 total - ((pkrun r >>> 16).setWidth 16).signExtend 64 = BitVec.ofInt 64 (total + signedCount r) := by
    rw [BitVec.signExtend, high_toInt le small, BitVec.ofInt_neg, BitVec.sub_neg, BitVec.ofInt_add]
  induction rs generalizing at' r size with
  | nil =>
    obtain ⟨le, small⟩ := ok r List.mem_cons_self
    rw [List.length_nil, csizeLoop, placed.head, Option.map_some, counted r le small, signedSize_one]
    congr 2
    omega
  | cons s rest ih =>
    obtain ⟨le, small⟩ := ok r List.mem_cons_self
    rw [List.length_cons, csizeLoop, placed.head]
    simp only [Option.bind_eq_bind, Option.bind_some]
    have later := ih placed.tail (fun t mem => ok t (List.mem_cons_of_mem _ mem)) (size + (signedCount r + 1))
    have total : size + (((rest.length + 1 : Nat) : Int) + 1) + signedCount r = size + (signedCount r + 1) + (rest.length + 1) := by
      omega
    rw [counted r le small, next_word, total, later, signedSize_cons r, Int.add_assoc]

theorem sizeLoop_runs {mem : IntervalMem} {at' : Nat} {r : Nat × Nat} {rs : List (Nat × Nat)} (placed : RunsAt mem at' (r :: rs))
    (ok : ∀ s ∈ r :: rs, s.1 ≤ s.2 ∧ s.2 < 2 ^ 16) (size : Int) :
    sizeLoop mem (BitVec.ofNat 64 at') (size + (rs.length + 1)) rs.length = some (size + signedSize (r :: rs)) := by
  induction rs generalizing at' r size with
  | nil =>
    obtain ⟨le, small⟩ := ok r List.mem_cons_self
    rw [List.length_nil, sizeLoop, placed.head, Option.map_some, arshift_toInt le small, signedSize_one]
    congr 1
    omega
  | cons s rest ih =>
    obtain ⟨le, small⟩ := ok r List.mem_cons_self
    rw [List.length_cons, sizeLoop, placed.head]
    simp only [Option.bind_eq_bind, Option.bind_some]
    have later := ih placed.tail (fun t mem => ok t (List.mem_cons_of_mem _ mem)) (size + (signedCount r + 1))
    have total : size + (((rest.length + 1 : Nat) : Int) + 1) - -signedCount r = size + (signedCount r + 1) + (rest.length + 1) := by
      omega
    rw [arshift_toInt le small, next_word, total, later, signedSize_cons r, Int.add_assoc]

theorem signedCount_le {r : Nat × Nat} (le : r.1 ≤ r.2) : signedCount r + 1 ≤ ((r.2 + 1 - r.1 : Nat) : Int) := by
  rw [signedCount]
  split <;> omega

theorem signedCount_eq_iff {r : Nat × Nat} (le : r.1 ≤ r.2) :
    signedCount r + 1 = ((r.2 + 1 - r.1 : Nat) : Int) ↔ r.2 + 1 - r.1 ≤ 2 ^ 15 + 1 := by
  rw [signedCount]
  split <;> omega

theorem signedSize_le {rs : List (Nat × Nat)} (le : ∀ r ∈ rs, r.1 ≤ r.2) :
    signedSize rs ≤ ((rs.map fun r => r.2 + 1 - r.1).sum : Nat) := by
  induction rs with
  | nil => exact le_rfl
  | cons r rest ih =>
    have head := signedCount_le (le r List.mem_cons_self)
    have tail := ih fun s mem => le s (List.mem_cons_of_mem _ mem)
    rw [signedSize_cons, List.map_cons, List.sum_cons]
    omega

/-- The signed counts make up the length of the list exactly where no run is long. -/
theorem signedSize_iff {l : List Nat} {rs : List (Nat × Nat)} (maximal : Runs.Maximal l rs) :
    signedSize rs = l.length ↔ ∀ r ∈ rs, r.2 + 1 - r.1 ≤ 2 ^ 15 + 1 := by
  have le := maximal.le
  rw [maximal.length]
  clear maximal l
  induction rs with
  | nil => exact iff_of_true rfl fun r mem => absurd mem List.not_mem_nil
  | cons r rest ih =>
    have le_rest : ∀ s ∈ rest, s.1 ≤ s.2 := fun s mem => le s (List.mem_cons_of_mem _ mem)
    have head := signedCount_le (le r List.mem_cons_self)
    have tail := signedSize_le le_rest
    have head_iff := signedCount_eq_iff (le r List.mem_cons_self)
    have both : signedSize (r :: rest) = (((r :: rest).map fun r => r.2 + 1 - r.1).sum : Nat) ↔
        signedCount r + 1 = ((r.2 + 1 - r.1 : Nat) : Int) ∧ signedSize rest = ((rest.map fun r => r.2 + 1 - r.1).sum : Nat) := by
      rw [signedSize_cons, List.map_cons, List.sum_cons]
      omega
    rw [List.forall_mem_cons]
    exact both.trans (head_iff.and (ih le_rest))

/-! ## Arrays of intervals -/

section Complex
variable {ip : Word} {n : Nat}

theorem complex_num (user : ip.toNat < 2 ^ 47) (small : n < 2 ^ 16) : SS_CNUMI (complex ip n) = n := by
  rw [SS_CNUMI, low_half, complex_toNat user small]
  omega

theorem complex_isComplex (user : ip.toNat < 2 ^ 47) (small : n < 2 ^ 16) (mapped : 0 < ip.toNat) (more : 0 < n) :
    SS_ISCOMPLEX (complex ip n) = true := by
  rw [SS_ISCOMPLEX_iff, complex_toNat user small]
  omega

theorem iscomplex_iff (ss : Word) : iscomplex ss = true ↔ 0x10000 < ss.toNat := by
  rw [iscomplex, BitVec.ult_iff_lt, BitVec.lt_def]
  exact Iff.rfl

end Complex

/-- The two loops over the placed runs of a list. -/
theorem sizes_array {mem : IntervalMem} {ip : Word} {rs : List (Nat × Nat)} (many : 2 ≤ rs.length)
    (placed : (Packed.intervals (rs.map pkrun)).Placed mem ip) (few : rs.length < 2 ^ 16)
    (ok : ∀ s ∈ rs, s.1 ≤ s.2 ∧ s.2 < 2 ^ 16) :
    S_map_size mem (complex ip (rs.length - 1)) = some (BitVec.ofInt 64 (signedSize rs)) ∧
      ss_size mem (complex ip (rs.length - 1)) = some (signedSize rs) := by
  obtain ⟨mapped, room, here⟩ := placed
  rw [List.length_map] at room
  have user : ip.toNat < 2 ^ 47 := by omega
  have runs : RunsAt mem ip.toNat rs := by
    intro i r there
    rw [← placed_address]
    exact here i (pkrun r) (by rw [List.getElem?_map, there]; rfl)
  obtain _ | ⟨r, rest⟩ := rs
  · exact absurd many (by decide)
  rw [List.length_cons] at many few ⊢
  rw [Nat.add_sub_cancel]
  have small : rest.length < 2 ^ 16 := by omega
  have address : BitVec.ofNat 64 ip.toNat = ip := by rw [BitVec.ofNat_toNat, BitVec.setWidth_eq]
  have inC := csizeLoop_runs runs ok 0
  have inLua := sizeLoop_runs runs ok 0
  rw [address, Int.zero_add, Int.zero_add] at inC inLua
  constructor
  · rw [S_map_size, if_pos (complex_isComplex user small mapped (by omega)), ss_csize, complex_num user small, complex_pointer user small]
    exact inC
  · have above : iscomplex (complex ip rest.length) = true := by
      rw [iscomplex_iff, complex_toNat user small]
      omega
    rw [ss_size, if_pos above]
    simp only
    rw [complex_num user small, complex_pointer user small]
    exact inLua

/-! ## Words -/

section Unmapped
variable {mem : IntervalMem} {ss : Word}

theorem sizeLoop_unmapped {pp : Word} (unmapped : mem pp = none) (size : Int) (n : Nat) : sizeLoop mem pp size n = none := by
  cases n with
  | zero => rw [sizeLoop, unmapped, Option.map_none]
  | succ n =>
    rw [sizeLoop, unmapped]
    rfl

/-- A word that points outside of user space has no size in Lua. -/
theorem ss_size_unmapped (user : UserSpace mem) (above : 0x10000 < ss.toNat)
    (outside : ss.toNat / 2 ^ 16 < 2 ^ 12 ∨ 2 ^ 47 ≤ ss.toNat / 2 ^ 16) : ss_size mem ss = none := by
  have unmapped : mem (ss >>> 16) = none := by
    rw [← Option.not_isSome_iff_eq_none]
    intro mapped
    have := user _ mapped
    rw [BitVec.toNat_ushiftRight, Nat.shiftRight_eq_div_pow] at this
    omega
  rw [ss_size, if_pos ((iscomplex_iff ss).mpr above)]
  exact sizeLoop_unmapped unmapped _ _

/-- The same of an interval, whose high bits are set. -/
theorem ss_size_interval (user : UserSpace mem) (high : 2 ^ 63 ≤ ss.toNat) : ss_size mem ss = none :=
  ss_size_unmapped user (by omega) (.inr (by omega))

theorem ss_size_empty : ss_size mem SS_EMPTYSET = some 1 := rfl

end Unmapped

theorem unit_toNat {inst : Nat} (small : inst ≤ G_MAXINST) : (unit inst).toNat = 0xfffffffe00000000 + inst := by
  unfold G_MAXINST at small
  rw [unit, BitVec.toNat_add, BitVec.toNat_ofNat, show (0xfffffffe00000000 : Word).toNat = 0xfffffffe00000000 from rfl]
  omega

theorem space_toNat {n : Nat} (pos : 0 < n) (small : n ≤ G_MAXINST) : (space n).toNat = 0xfffffffc00010000 - n * 2 ^ 16 := by
  unfold G_MAXINST at small
  have shifted : ((~~~ BitVec.ofNat 64 n) <<< 16).toNat = 2 ^ 64 - (n + 1) * 2 ^ 16 := by
    rw [BitVec.toNat_shiftLeft, BitVec.toNat_not, BitVec.toNat_ofNat, Nat.shiftLeft_eq]
    omega
  rw [space, if_pos pos, BitVec.toNat_add, shifted, show (0xfffffffc00020000 : Word).toNat = 0xfffffffc00020000 from rfl]
  omega

theorem range_toNat {start n : Nat} (pos : 0 < n) (small : start + n ≤ G_MAXINST) :
    (range start n).toNat = 0xfffffffc00010000 - n * 2 ^ 16 + start := by
  have count := space_toNat pos (by omega)
  unfold G_MAXINST at small
  rw [range, BitVec.toNat_add, count, BitVec.toNat_ofNat]
  omega

/-- A range of nothing behind the start is not the empty set. -/
theorem range_zero_toNat {start : Nat} (small : start ≤ G_MAXINST) : (range start 0).toNat = 0x10000 + start := by
  unfold G_MAXINST at small
  rw [range, space, if_neg (by decide), BitVec.toNat_add, BitVec.toNat_ofNat, show SS_EMPTYSET.toNat = 0x10000 from rfl]
  omega

/-! ## Where the sizes agree -/

section Agree
variable {mem : IntervalMem} {ip : Word} {e : SubsetExpr}

theorem not_sizesAgree_none (none : ss_size mem (e.packed.ss ip) = none) : ¬ e.SizesAgree mem ip := by
  rintro ⟨-, size⟩
  rw [none] at size
  cases size

/-- The empty set has a size of one in Lua. -/
theorem not_sizesAgree_empty (empty : e.packed = .word SS_EMPTYSET) (nothing : e.insts = []) : ¬ e.SizesAgree mem ip := by
  rintro ⟨-, size⟩
  rw [empty, nothing] at size
  exact absurd (Option.some.inj (ss_size_empty.symm.trans size)) (by decide)

theorem not_sizesAgree_interval (user : UserSpace mem) {ss : Word} (word : e.packed = .word ss) (high : 2 ^ 63 ≤ ss.toNat) :
    ¬ e.SizesAgree mem ip := by
  apply not_sizesAgree_none
  rw [word]
  exact ss_size_interval user high

theorem not_sizesAgree_range (user : UserSpace mem) {start n : Nat} (small : start + n ≤ G_MAXINST) :
    ¬ (SubsetExpr.range start n).SizesAgree mem ip := by
  by_cases pos : 0 < n
  · have high := range_toNat pos small
    unfold G_MAXINST at small
    exact not_sizesAgree_interval user rfl (by rw [high]; omega)
  obtain rfl : n = 0 := by omega
  by_cases first : start = 0
  · subst first
    exact not_sizesAgree_empty rfl rfl
  · have low := range_zero_toNat (le_trans (Nat.le_add_right start 0) small)
    unfold G_MAXINST at small
    apply not_sizesAgree_none
    exact ss_size_unmapped user (by rw [SubsetExpr.packed, Packed.ss, low]; omega)
      (.inl (by rw [SubsetExpr.packed, Packed.ss, low]; omega))

theorem sizesAgree_ssfromidx {idx : List Nat} (insts : Insts idx) (user : UserSpace mem)
    (placed : (ssfromidx idx).Placed mem ip) :
    (SubsetExpr.ssfromidx idx).SizesAgree mem ip ↔ (SubsetExpr.ssfromidx idx).Counted := by
  by_cases nonempty : idx = []
  · subst nonempty
    refine iff_of_false (not_sizesAgree_empty ssfromidx_nil rfl) ?_
    rintro ⟨many, -⟩
    rw [sortInsts_nil] at many
    exact absurd many (by decide)
  have maximal := insts.maximal
  have few := insts.runs_lt maximal
  have counted := signedSize_iff maximal
  have run (r : Nat × Nat) := @Insts.run _ insts _ maximal r
  have packed := ssfromidx_runs nonempty
  rw [SubsetExpr.Counted]
  rw [sortInsts_length] at counted
  generalize Runs.runs (sortInsts idx) = rs at *
  obtain ⟨r, rfl, word⟩ | ⟨many, array⟩ := packed
  · refine iff_of_false (not_sizesAgree_interval user word ss1_high) ?_
    rintro ⟨many, -⟩
    exact absurd many (Nat.not_succ_le_self 1)
  · have ok : ∀ s ∈ rs, s.1 ≤ s.2 ∧ s.2 < 2 ^ 16 := by
      intro s mem
      have := run s mem
      unfold G_MAXINST at this
      omega
    rw [array] at placed
    obtain ⟨inC, inLua⟩ := sizes_array many placed few ok
    simp only [SubsetExpr.SizesAgree, SubsetExpr.packed, SubsetExpr.insts, array, Packed.ss, List.length_map]
    rw [inC, inLua, ← counted]
    constructor
    · rintro ⟨-, size⟩
      exact ⟨many, Option.some.inj size⟩
    · rintro ⟨-, size⟩
      rw [size, BitVec.ofInt_natCast]
      exact ⟨rfl, rfl⟩

end Agree

/-- In user space, the sizes of a subset of the frontend agree exactly where it is an array without long
intervals. -/
theorem sizesAgree_iff {e : SubsetExpr} (valid : e.Valid) {mem : IntervalMem} (user : UserSpace mem) {ip : Word}
    (placed : e.packed.Placed mem ip) : e.SizesAgree mem ip ↔ e.Counted := by
  cases e with
  | emptyset => exact iff_of_false (not_sizesAgree_empty rfl rfl) not_false
  | unit inst =>
    have high := unit_toNat valid
    exact iff_of_false (not_sizesAgree_interval user rfl (by rw [high]; omega)) not_false
  | space n =>
    have small : n ≤ G_MAXINST := valid
    refine iff_of_false ?_ not_false
    by_cases pos : 0 < n
    · have high := space_toNat pos small
      unfold G_MAXINST at small
      exact not_sizesAgree_interval user rfl (by rw [high]; omega)
    · obtain rfl : n = 0 := by omega
      exact not_sizesAgree_empty rfl rfl
  | range start n => exact iff_of_false (not_sizesAgree_range user valid) not_false
  | ss1 start stop => exact iff_of_false (not_sizesAgree_interval user rfl ss1_high) not_false
  | ssfromidx idx => exact sizesAgree_ssfromidx valid user placed

/-- Nothing is mapped but the two intervals of an array. -/
def twoIntervals : IntervalMem := fun p =>
  if p = 0x10000 then some (pkrange 1 2) else if p = 0x10004 then some (pkrange 4 4) else none

theorem twoIntervals_user : UserSpace twoIntervals := by
  intro p mapped
  rw [twoIntervals] at mapped
  split at mapped
  · rename_i at_first
    rw [at_first]
    decide
  · split at mapped
    · rename_i at_second
      rw [at_second]
      decide
    · cases mapped

theorem sizesAgree_twoIntervals :
    (SubsetExpr.ssfromidx [4, 1, 2]).SizesAgree twoIntervals 0x10000 ↔ (SubsetExpr.ssfromidx [4, 1, 2]).Counted := by
  have insts : Insts [4, 1, 2] := ⟨by decide, by decide⟩
  have sort : sortInsts [4, 1, 2] = [1, 2, 4] :=
    ((List.mergeSort_perm _ _).trans (by decide)).eq_of_pairwise (fun _ _ _ _ ab ba => absurd ab ba.asymm) insts.sorted
      (by decide)
  have packed : ssfromidx [4, 1, 2] = .intervals [pkrange 1 2, pkrange 4 4] := by
    rw [ssfromidx, sort]
    rfl
  refine @sizesAgree_iff (.ssfromidx [4, 1, 2]) insts _ twoIntervals_user 0x10000 ?_
  rw [SubsetExpr.packed, packed]
  refine ⟨by decide, by decide, fun i pk here => ?_⟩
  rcases i with _ | _ | i
  · exact here
  · exact here
  · cases here

/-- Lua takes a unit for an array, and reads its size through a pointer that is none. -/
theorem not_sizesAgree_unit : ¬ ∀ (e : SubsetExpr) (mem : IntervalMem) (ip : Word), e.Valid → UserSpace mem →
    e.packed.Placed mem ip → e.SizesAgree mem ip := by
  intro agree
  have nothing : UserSpace fun _ => none := fun _ mapped => by cases mapped
  have size := (agree (.unit 7) (fun _ => none) 0 (show 7 ≤ G_MAXINST by decide) nothing trivial).2
  cases size

end M2.Fhk
