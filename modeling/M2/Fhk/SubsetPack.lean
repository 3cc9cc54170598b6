import Mathlib.Data.Finset.Card
import Mathlib.Data.Finset.Range
import M2.Lib.Gather
import M2.Mem.Region
import M2.Fhk.Subset

/-!
# Packing and walking subsets

The subset constructors of `src/frontend/fhk/ctypes.lua`, and the interval walks of
`src/fhk/solve.c`: `si3_ss` with `SI3_NEXTI`, `si3_collect_ne`, `ss_cindexof` and `mapE_indexof`. Lua
numbers are integers here, their bit operations have 32-bit results, and a number is widened with its
sign where it meets a `uint64_t`. Interval memory is read by byte address.
-/
namespace M2.Fhk

open M2.Mem (Word Bytes)
open M2.Lib

/-- `PK_N(pki)`. -/
def PK_N (pki : BitVec 32) : Nat := ((-(pki >>> 16)) &&& 0xffff).toNat

/-- The 32-bit words of the intervals, by byte address; none outside of what is mapped. -/
abbrev IntervalMem := Word → Option (BitVec 32)

/-! ## The constructors -/

/-- `pkrangens`. -/
def pkrangens (start : Nat) (nsize1 : Int) : BitVec 32 := (BitVec.ofInt 32 nsize1 <<< 16) ||| BitVec.ofNat 32 start

/-- `pkrange`. -/
def pkrange (start stop : Nat) : BitVec 32 := pkrangens start ((start : Int) - stop)

/-- `ss1ns`. -/
def ss1ns (start : Nat) (nsize1 : Int) : Word := 0xfffffffe00000000 ||| (pkrangens start nsize1).signExtend 64

/-- `ss1`. -/
def ss1 (start stop : Nat) : Word := ss1ns start ((start : Int) - stop)

/-- `unit`. -/
def unit (inst : Nat) : Word := 0xfffffffe00000000 + BitVec.ofNat 64 inst

/-- `space`. -/
def space (n : Nat) : Word :=
  if n > 0 then (~~~ BitVec.ofNat 64 n) <<< 16 + 0xfffffffc00020000 else SS_EMPTYSET

/-- `range`. -/
def range (start n : Nat) : Word := BitVec.ofNat 64 start + space n

/-- `complex`. -/
def complex (ip : Word) (n : Nat) : Word := (ip <<< 16) ||| BitVec.ofNat 64 n

/-- What `ssfromidx` makes: a word, or an interval array that is yet to be placed. -/
inductive Packed
  | word (ss : Word)
  | intervals (pks : List (BitVec 32))

/-- The second loop, in `ssfromidx_complex`. -/
def complexLoop (intervals : List (BitVec 32)) (start pos : Nat) : List Nat → List (BitVec 32)
  | [] => intervals ++ [pkrange start pos]
  | p :: rest =>
    if p = pos + 1 then complexLoop intervals start p rest
    else complexLoop (intervals ++ [pkrange start pos]) p p rest

/-- The first loop, in `ssfromidx`. -/
def singleLoop (start pos : Nat) : List Nat → Packed
  | [] => .word (ss1 start pos)
  | p :: rest =>
    if p = pos + 1 then singleLoop start p rest
    else .intervals (complexLoop [pkrange start pos] p p rest)

/-- `table.sort`. -/
def sortInsts (idx : List Nat) : List Nat := idx.mergeSort fun a b => decide (a ≤ b)

/-- `ssfromidx`, before the intervals are placed. -/
def ssfromidx (idx : List Nat) : Packed :=
  match sortInsts idx with
  | [] => .word SS_EMPTYSET
  | start :: rest => singleLoop start start rest

/-- The subset, its intervals being allocated at `ip`. -/
def Packed.ss (ip : Word) : Packed → Word
  | .word ss => ss
  | .intervals pks => complex ip (pks.length - 1)

/-- The intervals are in memory from `ip` on, an address of user space. -/
def Packed.Placed (mem : IntervalMem) (ip : Word) : Packed → Prop
  | .word _ => True
  | .intervals pks => 0 < ip.toNat ∧ ip.toNat + 4 * pks.length ≤ 2 ^ 47 ∧
      ∀ i, ∀ pk ∈ pks[i]?, mem (ip + BitVec.ofNat 64 (4 * i)) = some pk

/-! ## The walks -/

/-- The registers of a non-packed iterator: `ssiter3p`, and the two `xinst`. -/
structure SI3 where
  ip : Word
  inst : Nat
  num : Nat
  deriving DecidableEq

/-- `si3_complex`. -/
def si3_complex (mem : IntervalMem) (ss : Word) : Option SI3 :=
  (mem (ss >>> 16)).map fun ival => ⟨ss, PK_FIRST ival, PK_N1 ival⟩

/-- `si3_ss`. -/
def si3_ss (mem : IntervalMem) (ss : Word) : Option SI3 :=
  if SS_ISCOMPLEX ss then si3_complex mem ss
  else
    let ival := ss.setWidth 32
    some ⟨0, PK_FIRST ival, PK_N1 ival⟩

/-- `SI3P_IINCR`. -/
def SI3P_IINCR : Word := 0x3ffff

/-- `si3_cnexti`. -/
def si3_cnexti (mem : IntervalMem) (it : SI3) : Option SI3 :=
  let p := it.ip + SI3P_IINCR
  (mem (p >>> 16)).map fun pk => ⟨p, PK_FIRST pk, PK_N1 pk⟩

/-- The low half of an incremented pointer counts down. -/
theorem iincr_low {p : Word} (more : p &&& 0xffff ≠ 0) : ((p + SI3P_IINCR) &&& 0xffff).toNat + 1 = (p &&& 0xffff).toNat := by
  have low (w : Word) : (w &&& 0xffff).toNat = w.toNat % 2 ^ 16 := by
    rw [BitVec.toNat_and]
    exact Nat.and_two_pow_sub_one_eq_mod _ 16
  have nonzero : p.toNat % 2 ^ 16 ≠ 0 := by
    rw [← low]
    exact fun zero => more (BitVec.eq_of_toNat_eq zero)
  rw [low, low, BitVec.toNat_add, show SI3P_IINCR.toNat = 0x3ffff from rfl]
  omega

/-- A loop `for(;;){ body; SI3_NEXTI(it,inst,num) }`. -/
def si3_loop {σ : Type} (mem : IntervalMem) (body : σ → Nat → Nat → σ) (s : σ) (it : SI3) : Option σ :=
  if _more : it.ip &&& 0xffff ≠ 0 then
    match _next : si3_cnexti mem it with
    | none => none
    | some it' => si3_loop mem body (body s it.inst it.num) it'
  else some (body s it.inst it.num)
termination_by (it.ip &&& 0xffff).toNat
decreasing_by
  obtain ⟨pk, -, rfl⟩ := Option.map_eq_some_iff.mp _next
  have := iincr_low _more
  simp only
  omega

/-- The intervals a walk goes through, each with its first instance and its length. -/
def si3_walk (mem : IntervalMem) (it : SI3) : Option (List (Nat × Nat)) :=
  si3_loop mem (fun l inst num => l ++ [(inst, num)]) [] it

/-- `si3_collect_ne`, between two objects. The products of a 16-bit size and a 16-bit instance stay far below `2^64`. -/
def si3_collect_ne (mem : IntervalMem) (dest src : Bytes) (sz : Nat) (it : SI3) : Option Bytes :=
  (si3_loop mem (fun (s : Bytes × Nat) inst num => (Gather.copy s.1 src s.2 (sz * inst) (sz * num), s.2 + sz * num))
    (dest, 0) it).map Prod.fst

/-- The loop of `ss_cindexof`, which ends at an interval with the instance. -/
def cindexofLoop (mem : IntervalMem) (inst : Word) : Nat → Word → BitVec 32 → Option Word
  | 0, _, _ => none
  | fuel + 1, pk, off => do
    let pki ← mem pk
    let i := BitVec.ofNat 64 (PK_FIRST pki)
    let n := PK_N pki
    if (inst - i).toNat ≤ n then some (inst - i + off.setWidth 64)
    else cindexofLoop mem inst fuel (pk + 4) (off + BitVec.ofNat 32 n + 1)

/-- `SS_ISIVAL(ss)`. -/
def SS_ISIVAL (ss : Word) : Bool := ss.slt 0

/-- `mapE_indexof` of a subset, at most `fuel` intervals being looked at. -/
def mapE_indexof (mem : IntervalMem) (fuel : Nat) (ss : Word) (inst : Word) : Option Word :=
  if SS_ISIVAL ss then some (inst - BitVec.ofNat 64 (PK_FIRST (ss.setWidth 32)))
  else cindexofLoop mem inst fuel (ss >>> 16) 0

/-! ## Packed intervals -/

section Words
variable {start stop : Nat}

theorem pkrange_toNat (le : start ≤ stop) (small : stop < 2 ^ 16) :
    (pkrange start stop).toNat = (2 ^ 16 - (stop - start)) % 2 ^ 16 * 2 ^ 16 + start := by
  have high : (BitVec.ofInt 32 ((start : Int) - stop) <<< 16).toNat = ((2 ^ 16 - (stop - start)) % 2 ^ 16) <<< 16 := by
    have count : (((start : Int) - stop) % (2 ^ 32 : Nat)).toNat = (2 ^ 32 - (stop - start)) % 2 ^ 32 := by omega
    rw [BitVec.toNat_shiftLeft, BitVec.toNat_ofInt, Nat.shiftLeft_eq, Nat.shiftLeft_eq, count]
    omega
  have low : (BitVec.ofNat 32 start).toNat = start := by
    rw [BitVec.toNat_ofNat, Nat.mod_eq_of_lt (by omega)]
  have below : start < 2 ^ 16 := by omega
  rw [pkrange, pkrangens, BitVec.toNat_or, high, low, ← Nat.shiftLeft_add_eq_or_of_lt below, Nat.shiftLeft_eq]

theorem PK_FIRST_toNat (pki : BitVec 32) : PK_FIRST pki = pki.toNat % 2 ^ 16 := by
  rw [PK_FIRST, BitVec.toNat_and]
  exact Nat.and_two_pow_sub_one_eq_mod _ 16

theorem PK_N1_toNat (pki : BitVec 32) : PK_N1 pki = (2 ^ 32 - pki.toNat / 2 ^ 16 + 1) % 2 ^ 16 := by
  have lt := pki.isLt
  have counted : (1 - pki >>> 16).toNat = (2 ^ 32 - pki.toNat / 2 ^ 16 + 1) % 2 ^ 32 := by
    rw [BitVec.toNat_sub, BitVec.toNat_ushiftRight, Nat.shiftRight_eq_div_pow]
    rfl
  rw [PK_N1, BitVec.toNat_and, counted, show (0xffff : BitVec 32).toNat = 2 ^ 16 - 1 from rfl,
    Nat.and_two_pow_sub_one_eq_mod]
  omega

theorem PK_N_toNat (pki : BitVec 32) : PK_N pki = (2 ^ 32 - pki.toNat / 2 ^ 16) % 2 ^ 16 := by
  have lt := pki.isLt
  rw [PK_N, BitVec.toNat_and, BitVec.toNat_neg, BitVec.toNat_ushiftRight, Nat.shiftRight_eq_div_pow,
    show (0xffff : BitVec 32).toNat = 2 ^ 16 - 1 from rfl, Nat.and_two_pow_sub_one_eq_mod]
  omega

/-- The upper half of a packed interval. -/
theorem pkrange_high (le : start ≤ stop) (small : stop < 2 ^ 16) :
    (pkrange start stop).toNat / 2 ^ 16 = (2 ^ 16 - (stop - start)) % 2 ^ 16 := by
  have below : start < 2 ^ 16 := by omega
  rw [pkrange_toNat le small, Nat.mul_comm, Nat.mul_add_div (by decide), Nat.div_eq_of_lt below, Nat.add_zero]

theorem pkrange_first (le : start ≤ stop) (small : stop < 2 ^ 16) : PK_FIRST (pkrange start stop) = start := by
  have below : start < 2 ^ 16 := by omega
  rw [PK_FIRST_toNat, pkrange_toNat le small, Nat.mul_comm, Nat.mul_add_mod, Nat.mod_eq_of_lt below]

theorem pkrange_n (le : start ≤ stop) (small : stop < 2 ^ 16) : PK_N (pkrange start stop) = stop - start := by
  rw [PK_N_toNat, pkrange_high le small]
  omega

theorem pkrange_n1 (le : start ≤ stop) (small : stop < 2 ^ 16 - 1) : PK_N1 (pkrange start stop) = stop + 1 - start := by
  rw [PK_N1_toNat, pkrange_high le (by omega)]
  omega

/-- A word is complex where it is positive and more than the empty set. -/
theorem SS_ISCOMPLEX_iff (ss : Word) : SS_ISCOMPLEX ss = true ↔ 0x10000 < ss.toNat ∧ ss.toNat < 2 ^ 63 := by
  have lt := ss.isLt
  rw [SS_ISCOMPLEX, BitVec.slt_iff_toInt_lt, show SS_EMPTYSET.toInt = 0x10000 from rfl, BitVec.toInt_eq_toNat_cond]
  split <;> omega

theorem SS_ISIVAL_iff (ss : Word) : SS_ISIVAL ss = true ↔ 2 ^ 63 ≤ ss.toNat := by
  have lt := ss.isLt
  rw [SS_ISIVAL, BitVec.slt_iff_toInt_lt, show (0 : Word).toInt = 0 from rfl, BitVec.toInt_eq_toNat_cond]
  split <;> omega

/-- The low half of `ss1` is the packed interval, the high half has its sign. -/
theorem ss1_setWidth : (ss1 start stop).setWidth 32 = pkrange start stop := by
  rw [ss1, ss1ns, BitVec.setWidth_or, pkrange]
  rw [show (0xfffffffe00000000 : Word).setWidth 32 = 0#32 from rfl, BitVec.zero_or]
  apply BitVec.eq_of_getLsbD_eq
  intro i lt
  rw [BitVec.getLsbD_setWidth, BitVec.getLsbD_signExtend]
  simp [lt]
  omega

theorem ss1_high : 2 ^ 63 ≤ (ss1 start stop).toNat := by
  rw [ss1, ss1ns, BitVec.toNat_or]
  exact le_trans (by decide) Nat.left_le_or

theorem complex_toNat {ip : Word} {n : Nat} (space : ip.toNat < 2 ^ 47) (small : n < 2 ^ 16) :
    (complex ip n).toNat = ip.toNat * 2 ^ 16 + n := by
  have high : (ip <<< 16).toNat = ip.toNat <<< 16 := by
    rw [BitVec.toNat_shiftLeft, Nat.shiftLeft_eq, Nat.mod_eq_of_lt (by omega)]
  have low : (BitVec.ofNat 64 n).toNat = n := by
    rw [BitVec.toNat_ofNat, Nat.mod_eq_of_lt (by omega)]
  rw [complex, BitVec.toNat_or, high, low, ← Nat.shiftLeft_add_eq_or_of_lt small, Nat.shiftLeft_eq]

end Words

/-! ## What `ssfromidx` packs -/

/-- The packed interval of a run. -/
def pkrun (r : Nat × Nat) : BitVec 32 := pkrange r.1 r.2

theorem complexLoop_eq (intervals : List (BitVec 32)) (start pos : Nat) (l : List Nat) :
    complexLoop intervals start pos l = intervals ++ (Runs.cut start pos l).map pkrun := by
  induction l generalizing intervals start pos with
  | nil => rfl
  | cons p rest ih =>
    rw [complexLoop, Runs.cut]
    split
    · exact ih intervals start p
    · rw [ih, List.map_cons, List.append_assoc]
      rfl

/-- One run is packed in a word, more than one in an array. -/
theorem singleLoop_eq (start pos : Nat) (l : List Nat) :
    (∃ r, Runs.cut start pos l = [r] ∧ singleLoop start pos l = .word (ss1 r.1 r.2)) ∨
      2 ≤ (Runs.cut start pos l).length ∧ singleLoop start pos l = .intervals ((Runs.cut start pos l).map pkrun) := by
  induction l generalizing pos with
  | nil => exact .inl ⟨(start, pos), rfl, rfl⟩
  | cons p rest ih =>
    rw [singleLoop, Runs.cut]
    split
    · exact ih p
    · refine .inr ⟨Nat.succ_le_succ (Runs.cut_length_pos p p rest), ?_⟩
      rw [complexLoop_eq]
      rfl

/-- A list of distinct instances. -/
structure Insts (idx : List Nat) : Prop where
  nodup : idx.Nodup
  small : ∀ i ∈ idx, i ≤ G_MAXINST

theorem mem_sortInsts {idx : List Nat} {i : Nat} : i ∈ sortInsts idx ↔ i ∈ idx := (List.mergeSort_perm _ _).mem_iff

theorem sortInsts_length (idx : List Nat) : (sortInsts idx).length = idx.length := List.length_mergeSort idx

theorem Insts.sorted {idx : List Nat} (insts : Insts idx) : (sortInsts idx).Pairwise (· < ·) := by
  have order : (sortInsts idx).Pairwise fun a b => decide (a ≤ b) = true :=
    List.pairwise_mergeSort (fun _ _ _ ab bc => by simp only [decide_eq_true_eq] at *; omega)
      (fun a b => by simp only [Bool.or_eq_true, decide_eq_true_eq]; omega) idx
  have distinct : (sortInsts idx).Nodup := (List.mergeSort_perm _ _).nodup_iff.mpr insts.nodup
  refine (List.Pairwise.and order distinct).imp fun both => ?_
  have := of_decide_eq_true both.1
  have := both.2
  omega

theorem Insts.maximal {idx : List Nat} (insts : Insts idx) : Runs.Maximal (sortInsts idx) (Runs.runs (sortInsts idx)) :=
  Runs.runs_maximal insts.sorted

/-- How the runs of a list of instances are packed. -/
theorem ssfromidx_runs {idx : List Nat} (nonempty : idx ≠ []) :
    (∃ r, Runs.runs (sortInsts idx) = [r] ∧ ssfromidx idx = .word (ss1 r.1 r.2)) ∨
      2 ≤ (Runs.runs (sortInsts idx)).length ∧ ssfromidx idx = .intervals ((Runs.runs (sortInsts idx)).map pkrun) := by
  unfold ssfromidx
  cases sort : sortInsts idx with
  | nil =>
    have zero := sortInsts_length idx
    rw [sort] at zero
    exact absurd (List.length_eq_zero_iff.mp zero.symm) nonempty
  | cons start rest => exact singleLoop_eq start start rest

theorem Insts.run {idx : List Nat} (insts : Insts idx) {rs : List (Nat × Nat)} (maximal : Runs.Maximal (sortInsts idx) rs)
    {r : Nat × Nat} (mem : r ∈ rs) : r.1 ≤ r.2 ∧ r.2 ≤ G_MAXINST :=
  ⟨maximal.le r mem, insts.small r.2 (mem_sortInsts.mp (maximal.mem.mpr ⟨r, mem, maximal.le r mem, le_rfl⟩))⟩

/-! ## Walking -/

/-- A walk from an iterator goes through the runs. -/
def Walks (mem : IntervalMem) (it : SI3) (rs : List (Nat × Nat)) : Prop :=
  ∀ (σ : Type) (body : σ → Nat → Nat → σ) (s : σ),
    si3_loop mem body s it = some (rs.foldl (fun s r => body s r.1 (r.2 + 1 - r.1)) s)

theorem low_half (w : Word) : (w &&& 0xffff).toNat = w.toNat % 2 ^ 16 := by
  rw [BitVec.toNat_and]
  exact Nat.and_two_pow_sub_one_eq_mod _ 16

/-- A walk of the interval in the registers only. -/
theorem walks_one {mem : IntervalMem} {ip : Word} {r : Nat × Nat} (last : ip.toNat % 2 ^ 16 = 0) :
    Walks mem ⟨ip, r.1, r.2 + 1 - r.1⟩ [r] := by
  intro σ body s
  have done : ip &&& 0xffff = 0 := BitVec.eq_of_toNat_eq (by rw [low_half, last]; rfl)
  rw [si3_loop, dif_neg (not_not.mpr done)]
  rfl

/-- The registers hold the first of the runs, and the other ones follow in memory. -/
theorem walks_placed {mem : IntervalMem} {r : Nat × Nat} {rs : List (Nat × Nat)} {ip : Word} {at' : Nat}
    (space : at' + 4 * (rs.length + 1) ≤ 2 ^ 47) (few : rs.length < 2 ^ 16) (ip_eq : ip.toNat = at' * 2 ^ 16 + rs.length)
    (ok : ∀ r ∈ rs, r.1 ≤ r.2 ∧ r.2 ≤ G_MAXINST)
    (placed : ∀ i r, rs[i]? = some r → mem (BitVec.ofNat 64 (at' + 4 + 4 * i)) = some (pkrun r)) :
    Walks mem ⟨ip, r.1, r.2 + 1 - r.1⟩ (r :: rs) := by
  induction rs generalizing r ip at' with
  | nil => exact walks_one (by rw [ip_eq]; simp)
  | cons r' rest ih =>
    intro σ body s
    have length : (r' :: rest).length = rest.length + 1 := rfl
    rw [length] at space few ip_eq
    have more : ip &&& 0xffff ≠ 0 := by
      intro zero
      have low := low_half ip
      rw [zero, ip_eq, show (0 : Word).toNat = 0 from rfl] at low
      omega
    have next_ip : (ip + SI3P_IINCR).toNat = (at' + 4) * 2 ^ 16 + rest.length := by
      rw [BitVec.toNat_add, ip_eq, show SI3P_IINCR.toNat = 0x3ffff from rfl]
      omega
    have address : (ip + SI3P_IINCR) >>> 16 = BitVec.ofNat 64 (at' + 4 + 4 * 0) := by
      apply BitVec.eq_of_toNat_eq
      rw [BitVec.toNat_ushiftRight, Nat.shiftRight_eq_div_pow, next_ip, BitVec.toNat_ofNat]
      omega
    obtain ⟨le, small⟩ := ok r' List.mem_cons_self
    unfold G_MAXINST at small
    have next : si3_cnexti mem ⟨ip, r.1, r.2 + 1 - r.1⟩ = some ⟨ip + SI3P_IINCR, r'.1, r'.2 + 1 - r'.1⟩ := by
      rw [si3_cnexti]
      simp only
      rw [address, placed 0 r' rfl, Option.map_some, pkrun, pkrange_first le (by omega), pkrange_n1 le (by omega)]
    have rest_placed : ∀ i r, rest[i]? = some r → mem (BitVec.ofNat 64 (at' + 4 + 4 + 4 * i)) = some (pkrun r) := by
      intro i r here
      have := placed (i + 1) r here
      rwa [show at' + 4 + 4 * (i + 1) = at' + 4 + 4 + 4 * i by omega] at this
    have rest_walks := @ih r' (ip + SI3P_IINCR) (at' + 4) (by omega) (by omega) next_ip
      (fun r mem => ok r (List.mem_cons_of_mem _ mem)) rest_placed
    rw [si3_loop, dif_pos more]
    simp only [List.foldl_cons]
    split
    · rename_i none
      rw [next] at none
      cases none
    · rename_i it' some
      rw [next] at some
      have same := Option.some.inj some
      subst same
      exact rest_walks σ body _

/-- The intervals of a complex subset are placed where its word points. -/
theorem placed_address (ip : Word) (i : Nat) : ip + BitVec.ofNat 64 (4 * i) = BitVec.ofNat 64 (ip.toNat + 4 * i) := by
  rw [BitVec.ofNat_add ip.toNat, BitVec.ofNat_toNat, BitVec.setWidth_eq]

theorem complex_pointer {ip : Word} {n : Nat} (space : ip.toNat < 2 ^ 47) (small : n < 2 ^ 16) : complex ip n >>> 16 = ip := by
  apply BitVec.eq_of_toNat_eq
  rw [BitVec.toNat_ushiftRight, Nat.shiftRight_eq_div_pow, complex_toNat space small]
  omega

theorem Insts.length_le {idx : List Nat} (insts : Insts idx) : idx.length ≤ G_MAXINST + 1 := by
  have subset : idx.toFinset ⊆ Finset.range (G_MAXINST + 1) := by
    intro i mem
    exact Finset.mem_range_succ_iff.mpr (insts.small i (List.mem_toFinset.mp mem))
  have := Finset.card_le_card subset
  rwa [List.toFinset_card_of_nodup insts.nodup, Finset.card_range] at this

/-- There are at most as many runs as instances. -/
theorem Insts.runs_le {idx : List Nat} {rs : List (Nat × Nat)} (maximal : Runs.Maximal (sortInsts idx) rs) :
    rs.length ≤ idx.length := by
  rw [← sortInsts_length]
  exact maximal.count_le

theorem Insts.runs_lt {idx : List Nat} (insts : Insts idx) {rs : List (Nat × Nat)} (maximal : Runs.Maximal (sortInsts idx) rs) :
    rs.length < 2 ^ 16 := by
  have words := insts.length_le
  have fewer := Insts.runs_le maximal
  unfold G_MAXINST at words
  omega

/-- Walking the subset of a list goes through its maximal runs. -/
theorem Insts.walks {idx : List Nat} (insts : Insts idx) (nonempty : idx ≠ []) {mem : IntervalMem} {ip : Word}
    (placed : (ssfromidx idx).Placed mem ip) :
    ∃ rs it, Runs.Maximal (sortInsts idx) rs ∧ si3_ss mem ((ssfromidx idx).ss ip) = some it ∧ Walks mem it rs := by
  have maximal := insts.maximal
  have packed := ssfromidx_runs nonempty
  generalize Runs.runs (sortInsts idx) = rs at maximal packed
  have few := insts.runs_lt maximal
  refine ⟨rs, ?_⟩
  obtain ⟨r, rfl, word⟩ | ⟨many, array⟩ := packed
  · obtain ⟨le, small⟩ := insts.run maximal List.mem_cons_self
    unfold G_MAXINST at small
    have high : 2 ^ 63 ≤ (ss1 r.1 r.2).toNat := ss1_high
    have simple : ¬ SS_ISCOMPLEX (ss1 r.1 r.2) = true := by
      rw [SS_ISCOMPLEX_iff]
      omega
    refine ⟨⟨0, r.1, r.2 + 1 - r.1⟩, maximal, ?_, walks_one rfl⟩
    rw [word, Packed.ss, si3_ss, if_neg simple, ss1_setWidth]
    simp only
    rw [pkrange_first le (by omega), pkrange_n1 le (by omega)]
  · rw [array] at placed ⊢
    obtain ⟨pos, room, here⟩ := placed
    rw [List.length_map] at room
    obtain _ | ⟨r, rest⟩ := rs
    · exact absurd many (by decide)
    have length : (r :: rest).length = rest.length + 1 := rfl
    rw [length] at room many few
    obtain ⟨le, small⟩ := insts.run maximal List.mem_cons_self
    unfold G_MAXINST at small
    have ss_toNat : (complex ip rest.length).toNat = ip.toNat * 2 ^ 16 + rest.length :=
      complex_toNat (by omega) (by omega)
    have isComplex : SS_ISCOMPLEX (complex ip rest.length) = true := by
      rw [SS_ISCOMPLEX_iff, ss_toNat]
      omega
    have first := here 0 (pkrun r) rfl
    rw [show BitVec.ofNat 64 (4 * 0) = (0 : Word) from rfl, show ip + (0 : Word) = ip from BitVec.add_zero ip] at first
    refine ⟨⟨complex ip rest.length, r.1, r.2 + 1 - r.1⟩, maximal, ?_, walks_placed (by omega) (by omega) ss_toNat
      (fun r mem => insts.run maximal (List.mem_cons_of_mem _ mem)) fun i r' there => ?_⟩
    · rw [Packed.ss, List.length_map, length, Nat.add_sub_cancel, si3_ss, if_pos isComplex, si3_complex,
        complex_pointer (by omega) (by omega), first, Option.map_some, pkrun, pkrange_first le (by omega),
        pkrange_n1 le (by omega)]
    · have at' := here (i + 1) (pkrun r') (by rw [List.getElem?_map, List.getElem?_cons_succ, there]; rfl)
      rw [placed_address] at at'
      rwa [show ip.toNat + 4 + 4 * i = ip.toNat + 4 * (i + 1) by omega]

/-! ## Gathering and looking up -/

/-- The search of `ss_cindexof` returns the position of an instance. -/
theorem cindexof_position {mem : IntervalMem} {rs : List (Nat × Nat)} {at' k i fuel : Nat} {off : BitVec 32}
    (ok : ∀ r ∈ rs, r.1 ≤ r.2 ∧ r.2 ≤ G_MAXINST) (gaps : rs.Pairwise fun r s => r.2 + 1 < s.1)
    (placed : ∀ j r, rs[j]? = some r → mem (BitVec.ofNat 64 (at' + 4 * j)) = some (pkrun r))
    (there : (rs.flatMap Runs.insts)[k]? = some i) (small : off.toNat + (rs.flatMap Runs.insts).length < 2 ^ 32)
    (enough : rs.length ≤ fuel) :
    cindexofLoop mem (BitVec.ofNat 64 i) fuel (BitVec.ofNat 64 at') off = some (BitVec.ofNat 64 (off.toNat + k)) := by
  induction rs generalizing at' k fuel off with
  | nil => cases there
  | cons r rest ih =>
    obtain ⟨fuel, rfl⟩ : ∃ f, fuel = f + 1 := ⟨fuel - 1, by rw [List.length_cons] at enough; omega⟩
    obtain ⟨le, last⟩ := ok r List.mem_cons_self
    unfold G_MAXINST at last
    have here := placed 0 r rfl
    rw [Nat.mul_zero, Nat.add_zero] at here
    have isWord : i < 2 ^ 16 := by
      obtain ⟨s, s_mem, in_s⟩ := List.mem_flatMap.mp (List.mem_of_getElem? there)
      have := (ok s s_mem).2
      have := (Runs.mem_insts.mp in_s).2
      unfold G_MAXINST at *
      omega
    have distance (ge : r.1 ≤ i) : BitVec.ofNat 64 i - BitVec.ofNat 64 r.1 = BitVec.ofNat 64 (i - r.1) := by
      apply BitVec.eq_of_toNat_eq
      rw [BitVec.toNat_sub, BitVec.toNat_ofNat, BitVec.toNat_ofNat, BitVec.toNat_ofNat]
      omega
    rw [List.flatMap_cons, List.length_append, Runs.insts_length] at small
    rw [List.flatMap_cons, List.getElem?_append, Runs.insts_length] at there
    rw [cindexofLoop, here, pkrun]
    simp only [Option.bind_eq_bind, Option.bind_some]
    rw [pkrange_first le (by omega), pkrange_n le (by omega)]
    split at there
    · rename_i within
      rw [Runs.insts, List.getElem?_range' within, Nat.one_mul] at there
      have inst : i = r.1 + k := (Option.some.inj there).symm
      rw [distance (by omega), if_pos (by rw [BitVec.toNat_ofNat]; omega)]
      congr 1
      apply BitVec.eq_of_toNat_eq
      rw [BitVec.toNat_add, BitVec.toNat_setWidth, BitVec.toNat_ofNat, BitVec.toNat_ofNat]
      omega
    · rename_i beyond
      obtain ⟨s, s_mem, in_s⟩ := List.mem_flatMap.mp (List.mem_of_getElem? there)
      have gap := (List.pairwise_cons.mp gaps).1 s s_mem
      have low := (Runs.mem_insts.mp in_s).1
      have short : (off + BitVec.ofNat 32 (r.2 - r.1) + 1).toNat = off.toNat + (r.2 + 1 - r.1) := by
        rw [BitVec.toNat_add, BitVec.toNat_add, BitVec.toNat_ofNat, show (1 : BitVec 32).toNat = 1 from rfl]
        omega
      have next : BitVec.ofNat 64 at' + 4 = BitVec.ofNat 64 (at' + 4) := (BitVec.ofNat_add at' 4).symm
      rw [distance (by omega), if_neg (by rw [BitVec.toNat_ofNat]; omega), next]
      rw [ih (fun r mem => ok r (List.mem_cons_of_mem _ mem)) (List.pairwise_cons.mp gaps).2 (fun j r there => ?_) there
        (by omega) (by rw [List.length_cons] at enough; omega), short]
      · congr 2
        omega
      · have := placed (j + 1) r there
        rwa [show at' + 4 * (j + 1) = at' + 4 + 4 * j by omega] at this

/-- The intervals gone through: those of the runs, and one of no instances where there is no run. -/
def walked : List (Nat × Nat) → List (Nat × Nat)
  | [] => [(0, 0)]
  | r :: rs => (r :: rs).map fun r => (r.1, r.2 + 1 - r.1)

/-- Walking a subset, gathering through it and looking instances up in it all follow the sorted list. -/
structure RoundTrips (mem : IntervalMem) (ss : Word) (idx : List Nat) : Prop where
  walk : ∃ rs it, Runs.Maximal (sortInsts idx) rs ∧ si3_ss mem ss = some it ∧ si3_walk mem it = some (walked rs)
  collect : ∀ (dest src : Bytes) (sz : Nat), ∃ it dest', si3_ss mem ss = some it ∧
    si3_collect_ne mem dest src sz it = some dest' ∧
    (∀ k i b, (sortInsts idx)[k]? = some i → b < sz → dest' (sz * k + b) = src (sz * i + b)) ∧
    ∀ a, sz * idx.length ≤ a → dest' a = dest a
  indexof : ∀ k i, (sortInsts idx)[k]? = some i → ∀ fuel, idx.length ≤ fuel →
    mapE_indexof mem fuel ss (BitVec.ofNat 64 i) = some (BitVec.ofNat 64 k)

theorem Walks.walk {mem : IntervalMem} {it : SI3} {rs : List (Nat × Nat)} (walks : Walks mem it rs) :
    si3_walk mem it = some (rs.map fun r => (r.1, r.2 + 1 - r.1)) := by
  have appended (rs l : List (Nat × Nat)) :
      rs.foldl (fun l r => l ++ [(r.1, r.2 + 1 - r.1)]) l = l ++ rs.map fun r => (r.1, r.2 + 1 - r.1) := by
    induction rs generalizing l with
    | nil => rw [List.foldl_nil, List.map_nil, List.append_nil]
    | cons r rest ih => rw [List.foldl_cons, ih, List.append_assoc, List.map_cons, List.singleton_append]
  rw [si3_walk, walks, appended, List.nil_append]

theorem Walks.collect {mem : IntervalMem} {it : SI3} {rs : List (Nat × Nat)} (walks : Walks mem it rs) (dest src : Bytes)
    (sz : Nat) : si3_collect_ne mem dest src sz it = some (rs.foldl (Gather.copyRun src sz) (dest, 0)).1 := by
  rw [si3_collect_ne, walks, Option.map_some]
  rfl

theorem sortInsts_nil : sortInsts [] = [] := List.mergeSort_nil

theorem ssfromidx_nil : ssfromidx [] = .word SS_EMPTYSET := by
  rw [ssfromidx, sortInsts_nil]

/-- The loop over the empty set: one pass, with no instances. -/
theorem si3_loop_empty {σ : Type} (mem : IntervalMem) (body : σ → Nat → Nat → σ) (s : σ) :
    si3_loop mem body s ⟨0, 0, 0⟩ = some (body s 0 0) := by
  have last : ¬ (0 : Word) &&& 0xffff ≠ 0 := not_not.mpr rfl
  rw [si3_loop, dif_neg last]

/-- The empty set: nothing is gathered, and no instance is looked up. -/
theorem roundTrips_nil (mem : IntervalMem) : RoundTrips mem SS_EMPTYSET [] := by
  have start : si3_ss mem SS_EMPTYSET = some ⟨0, 0, 0⟩ := rfl
  have nothing {k i : Nat} : (sortInsts [])[k]? ≠ some i := by
    rw [sortInsts_nil]
    exact fun there => by cases there
  constructor
  · refine ⟨[], _, ⟨?_, fun r mem => absurd mem List.not_mem_nil, List.Pairwise.nil⟩, start, si3_loop_empty mem _ _⟩
    rw [sortInsts_nil, List.flatMap_nil]
  · intro dest src sz
    refine ⟨_, dest, start, ?_, fun k i b there => absurd there nothing, fun a _ => rfl⟩
    have same : Gather.copy dest src 0 (sz * 0) (sz * 0) = dest := by
      funext a
      exact Gather.copy_outside (by omega)
    rw [si3_collect_ne, si3_loop_empty, Option.map_some]
    exact congrArg some same
  · intro k i there
    exact absurd there nothing

/-- The lookup in the subset of a nonempty list. -/
theorem Insts.indexof {idx : List Nat} (insts : Insts idx) (nonempty : idx ≠ []) {mem : IntervalMem} {ip : Word}
    (placed : (ssfromidx idx).Placed mem ip) {k i fuel : Nat} (there : (sortInsts idx)[k]? = some i)
    (enough : idx.length ≤ fuel) :
    mapE_indexof mem fuel ((ssfromidx idx).ss ip) (BitVec.ofNat 64 i) = some (BitVec.ofNat 64 k) := by
  have maximal := insts.maximal
  have packed := ssfromidx_runs nonempty
  generalize Runs.runs (sortInsts idx) = rs at maximal packed
  have few := insts.runs_lt maximal
  rw [← maximal.flat] at there
  obtain ⟨r, rfl, word⟩ | ⟨many, array⟩ := packed
  · obtain ⟨le, small⟩ := insts.run maximal List.mem_cons_self
    unfold G_MAXINST at small
    have high : SS_ISIVAL (ss1 r.1 r.2) = true := (SS_ISIVAL_iff _).mpr ss1_high
    rw [List.flatMap_singleton, Runs.insts] at there
    have within := (List.getElem?_eq_some_iff.mp there).1
    rw [List.length_range'] at within
    rw [List.getElem?_range' within, Nat.one_mul] at there
    have inst := Option.some.inj there
    rw [word, Packed.ss, mapE_indexof, if_pos high, ss1_setWidth, pkrange_first le (by omega)]
    congr 1
    apply BitVec.eq_of_toNat_eq
    rw [BitVec.toNat_sub, BitVec.toNat_ofNat, BitVec.toNat_ofNat, BitVec.toNat_ofNat]
    omega
  · rw [array] at placed ⊢
    obtain ⟨pos, room, here⟩ := placed
    rw [List.length_map] at room
    have low : ¬ SS_ISIVAL (complex ip (rs.length - 1)) = true := by
      rw [SS_ISIVAL_iff, complex_toNat (by omega) (by omega)]
      omega
    have total : (rs.flatMap Runs.insts).length = idx.length := by rw [maximal.flat, sortInsts_length]
    have words := insts.length_le
    unfold G_MAXINST at words
    have fewer := Insts.runs_le maximal
    rw [Packed.ss, List.length_map, mapE_indexof, if_neg low, complex_pointer (by omega) (by omega)]
    have from_ip : ∀ j r, rs[j]? = some r → mem (BitVec.ofNat 64 (ip.toNat + 4 * j)) = some (pkrun r) := by
      intro j r at_j
      rw [← placed_address]
      exact here j (pkrun r) (by rw [List.getElem?_map, at_j]; rfl)
    have found := @cindexof_position mem rs ip.toNat k i fuel 0 (fun r mem => insts.run maximal mem) maximal.gaps from_ip
      there (by rw [total]; change 0 + _ < _; omega) (le_trans fewer enough)
    rwa [BitVec.ofNat_toNat, BitVec.setWidth_eq, show (0 : BitVec 32).toNat = 0 from rfl, Nat.zero_add] at found

/-- The subset of a list of distinct instances, wherever its intervals are placed, follows the sorted list. -/
theorem ssfromidx_roundTrips {idx : List Nat} (insts : Insts idx) {mem : IntervalMem} {ip : Word}
    (placed : (ssfromidx idx).Placed mem ip) : RoundTrips mem ((ssfromidx idx).ss ip) idx := by
  by_cases nonempty : idx = []
  · subst nonempty
    rw [ssfromidx_nil]
    exact roundTrips_nil mem
  obtain ⟨rs, it, maximal, start, walks⟩ := insts.walks nonempty placed
  constructor
  · refine ⟨rs, it, maximal, start, ?_⟩
    rw [walks.walk]
    cases rs with
    | nil =>
      have none := maximal.flat
      have length := sortInsts_length idx
      rw [← none] at length
      exact absurd (List.length_eq_zero_iff.mp length.symm) nonempty
    | cons r rest => rfl
  · intro dest src sz
    refine ⟨it, _, start, walks.collect dest src sz, fun k i b there byte => ?_, fun a beyond => ?_⟩
    · rw [← maximal.flat] at there
      have read := Gather.read src sz rs dest 0 there byte
      rwa [Nat.zero_add] at read
    · refine Gather.frame src sz rs dest 0 a (.inr ?_)
      rwa [maximal.flat, sortInsts_length, Nat.zero_add]
  · intro k i there fuel enough
    exact insts.indexof nonempty placed there enough

/-- The intervals of an array, by address. -/
def placedAt (ip : Word) (pks : List (BitVec 32)) : IntervalMem := fun p => pks[(p - ip).toNat / 4]?

theorem ssfromidx_roundTrips_unsorted :
    RoundTrips (placedAt 0x1000 [pkrange 1 1, pkrange 3 5, pkrange 9 9]) 0x10000002 [5, 3, 9, 4, 1] := by
  have insts : Insts [5, 3, 9, 4, 1] := ⟨by decide, by decide⟩
  have sort : sortInsts [5, 3, 9, 4, 1] = [1, 3, 4, 5, 9] :=
    ((List.mergeSort_perm _ _).trans (by decide)).eq_of_pairwise (fun _ _ _ _ ab ba => absurd ab ba.asymm) insts.sorted
      (by decide)
  have packed : ssfromidx [5, 3, 9, 4, 1] = .intervals [pkrange 1 1, pkrange 3 5, pkrange 9 9] := by
    rw [ssfromidx, sort]
    rfl
  have trips := @ssfromidx_roundTrips [5, 3, 9, 4, 1] insts
    (placedAt 0x1000 [pkrange 1 1, pkrange 3 5, pkrange 9 9]) 0x1000 (by
      rw [packed]
      refine ⟨by decide, by decide, fun i pk here => ?_⟩
      rw [placedAt]
      match i, here with
      | 0, here => exact here
      | 1, here => exact here
      | 2, here => exact here)
  rw [packed] at trips
  exact trips

/-- The empty set is walked as an interval, which no run of the empty list is. -/
theorem not_walk_nil : ¬ ∃ rs it, Runs.Maximal (sortInsts []) rs ∧ si3_ss (fun _ => none) ((ssfromidx []).ss 0) = some it ∧
    si3_walk (fun _ => none) it = some (rs.map fun r => (r.1, r.2 + 1 - r.1)) := by
  rintro ⟨rs, it, maximal, start, walk⟩
  rw [ssfromidx_nil] at start
  obtain rfl := Option.some.inj start
  have same := (si3_loop_empty (fun _ => none) (fun l inst num => l ++ [(inst, num)]) []).symm.trans walk
  cases rs with
  | nil => cases same
  | cons r rest =>
    have inside : r.1 ∈ sortInsts [] := maximal.mem.mpr ⟨r, List.mem_cons_self, le_rfl, maximal.le r List.mem_cons_self⟩
    exact absurd (mem_sortInsts.mp inside) List.not_mem_nil

end M2.Fhk
