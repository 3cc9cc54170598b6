import M2.Lib.Gather
import M2.Mem.Layout

/-!
# Vectors

`struct vec` and the copying of `src/vec.c`. The bands are listed with their strides, which the info of
the vector holds; a band is `NULL` where its pointer is 0. A byte count is the product of two `uint32_t`.
The list of intervals has one place more than there are indices, counted in 32 bits too, and a write
behind it has no result.
-/
namespace M2.Mem

open M2.Lib

/-- `SIMD_ALIGN_HINT`. -/
def SIMD_ALIGN_HINT : Word := 16

/-- `info->stride[i]` and `bands[i]`. -/
structure Band where
  stride : BitVec 16
  ptr : Word
  deriving DecidableEq

/-- `struct vec`. -/
structure Vec where
  n_alloc : Uint
  n_used : Uint
  bands : List Band

/-- The stride as a `uint32_t` factor. -/
abbrev Band.size (b : Band) : Uint := b.stride.setWidth 32

/-- `simF_vec_create_band_stride`, 0 for `NULL`. -/
def simF_vec_create_band_stride (sim : Sim) (n_alloc : Uint) (stride : BitVec 16) : Word × Sim :=
  let (p, sim) := sim_alloc sim (size_t (n_alloc * stride.setWidth 32)) SIMD_ALIGN_HINT .SIM_FRAME
  (p.getD 0, sim)

/-! ## Copying around a list of indices -/

/-- `struct cpy_interval`. -/
structure CpyInterval where
  dst : Uint
  src : Uint
  num : Uint
  deriving DecidableEq

/-- `cmp_idx`. -/
def cmp_idx (a b : Uint) : Int := (a - b).toInt

/-- `qsort` of the indices. -/
def qsort (skip : List Uint) : List Uint := skip.mergeSort fun a b => decide (cmp_idx a b ≤ 0)

/-- The loop of `calc_intervals_s`. -/
def calcLoop (cpy : List CpyInterval) (next cpos : Uint) : List Uint → List CpyInterval × Uint × Uint
  | [] => (cpy, next, cpos)
  | d :: skip =>
    if next < d then
      let c : CpyInterval := ⟨cpos, next, d - next⟩
      calcLoop (cpy ++ [c]) (d + 1) (cpos + c.num) skip
    else calcLoop cpy (d + 1) cpos skip

/-- `calc_intervals_s`, from the position of its loop: the intervals, and the number of entries. -/
def calcTail (tail : Uint) : List CpyInterval × Uint × Uint → List CpyInterval × Uint
  | (cpy, next, cpos) =>
    if next < tail then
      let c : CpyInterval := ⟨cpos, next, tail - next⟩
      (cpy ++ [c], cpos + c.num)
    else (cpy, cpos)

/-- `calc_intervals_s`. -/
def calc_intervals_s (skip : List Uint) (tail : Uint) : List CpyInterval × Uint := calcTail tail (calcLoop [] 0 0 skip)

/-- `memcpy`. -/
def memcpy (bytes : Bytes) (dst src n : Nat) : Bytes := Gather.copy bytes bytes dst src n

/-- `copy_intervals`. -/
def copy_intervals (cpy : List CpyInterval) (dst src : Word) (size : Uint) (bytes : Bytes) : Bytes :=
  cpy.foldl (fun bytes c =>
    memcpy bytes (dst.toNat + (c.dst * size).toNat) (src.toNat + (c.src * size).toNat) (c.num * size).toNat) bytes

/-- The bands that are not `NULL`, with their destinations. -/
def livePairs (bands : List Band) (dst : List Word) : List (Band × Word) := (bands.zip dst).filter fun q => q.1.ptr ≠ 0

abbrev Vec.live (v : Vec) (dst : List Word) : List (Band × Word) := livePairs v.bands dst

theorem livePairs_null {b : Band} (null : b.ptr = 0) (p : Word) (bands : List Band) (dst : List Word) :
    livePairs (b :: bands) (p :: dst) = livePairs bands dst := by
  rw [livePairs, List.zip_cons_cons, List.filter_cons_of_neg (by rw [decide_eq_true_eq]; exact not_not.mpr null)]
  rfl

theorem livePairs_some {b : Band} (some_ptr : b.ptr ≠ 0) (p : Word) (bands : List Band) (dst : List Word) :
    livePairs (b :: bands) (p :: dst) = (b, p) :: livePairs bands dst := by
  rw [livePairs, List.zip_cons_cons, List.filter_cons_of_pos (by rw [decide_eq_true_eq]; exact some_ptr)]
  rfl

/-- The loop of `vec_copy_skip_s`. -/
def copyBands (cpy : List CpyInterval) (bytes : Bytes) (live : List (Band × Word)) : Bytes :=
  live.foldl (fun bytes q => copy_intervals cpy q.2 q.1.ptr q.1.size bytes) bytes

/-- `vec_copy_skip_s`. -/
def vec_copy_skip_s (bytes : Bytes) (v : Vec) (dst : List Word) (skip : List Uint) : Option (Bytes × Uint) :=
  let (cpy, tail) := calc_intervals_s skip v.n_used
  if cpy.length ≤ (BitVec.ofNat 32 skip.length + 1 : Uint).toNat then some (copyBands cpy bytes (v.live dst), tail) else none

/-- `vec_copy_skip`. -/
def vec_copy_skip (bytes : Bytes) (v : Vec) (dst : List Word) (skip : List Uint) : Option (Bytes × Uint) :=
  vec_copy_skip_s bytes v dst (qsort skip)

/-! ## The intervals -/

/-- The intervals of runs, from a position in the destination on. -/
def place (off : Nat) : List (Nat × Nat) → List CpyInterval
  | [] => []
  | r :: rs => ⟨BitVec.ofNat 32 off, BitVec.ofNat 32 r.1, BitVec.ofNat 32 (r.2 + 1 - r.1)⟩ :: place (off + (r.2 + 1 - r.1)) rs

theorem place_length (off : Nat) (rs : List (Nat × Nat)) : (place off rs).length = rs.length := by
  induction rs generalizing off with
  | nil => rfl
  | cons r rs ih => rw [place, List.length_cons, List.length_cons, ih]

theorem mem_qsort {skip : List Uint} {d : Uint} : d ∈ qsort skip ↔ d ∈ skip := (List.mergeSort_perm _ _).mem_iff

theorem qsort_length (skip : List Uint) : (qsort skip).length = skip.length := List.length_mergeSort skip

/-- The comparison orders the indices below `2^31`. -/
theorem cmp_idx_le {a b : Uint} (ha : a.toNat < 2 ^ 31) (hb : b.toNat < 2 ^ 31) : cmp_idx a b ≤ 0 ↔ a.toNat ≤ b.toNat := by
  have := a.isLt
  rw [cmp_idx, BitVec.toInt_eq_toNat_cond, BitVec.toNat_sub]
  split <;> omega

theorem qsort_sorted {skip : List Uint} (small : ∀ d ∈ skip, d.toNat < 2 ^ 31) :
    ((qsort skip).map BitVec.toNat).Pairwise (· ≤ ·) := by
  have numbers : (qsort skip).map BitVec.toNat = (skip.map BitVec.toNat).mergeSort fun a b => decide (a ≤ b) := by
    refine List.map_mergeSort fun a mem_a b mem_b => ?_
    rw [decide_eq_decide]
    exact cmp_idx_le (small a mem_a) (small b mem_b)
  have order : ((skip.map BitVec.toNat).mergeSort fun a b => decide (a ≤ b)).Pairwise fun a b => decide (a ≤ b) = true :=
    List.pairwise_mergeSort (fun _ _ _ ab bc => by simp only [decide_eq_true_eq] at *; omega)
      (fun a b => by simp only [Bool.or_eq_true, decide_eq_true_eq]; omega) _
  rw [numbers]
  exact order.imp of_decide_eq_true

/-- The intervals of a sorted list lie over the runs it leaves out. -/
theorem calc_eq {tail : Uint} (small : tail.toNat < 2 ^ 31) (cpy : List CpyInterval) (next cpos : Uint) (skip : List Uint)
    (sorted : (skip.map BitVec.toNat).Pairwise (· ≤ ·)) (within : ∀ d ∈ skip, d < tail)
    (start : ∀ d ∈ skip, next.toNat ≤ d.toNat + 1) (cpos_le : cpos.toNat ≤ next.toNat) (next_le : next.toNat ≤ tail.toNat) :
    calcTail tail (calcLoop cpy next cpos skip) =
      (cpy ++ place cpos.toNat (Runs.left tail.toNat next.toNat (skip.map BitVec.toNat)),
        cpos + BitVec.ofNat 32 ((Runs.left tail.toNat next.toNat (skip.map BitVec.toNat)).map fun r => r.2 + 1 - r.1).sum) := by
  have self (w : Uint) : BitVec.ofNat 32 w.toNat = w := by rw [BitVec.ofNat_toNat, BitVec.setWidth_eq]
  have diff {d next : Uint} (less : next.toNat < d.toNat) : d - next = BitVec.ofNat 32 (d.toNat - 1 + 1 - next.toNat) := by
    apply BitVec.eq_of_toNat_eq
    rw [BitVec.toNat_sub, BitVec.toNat_ofNat]
    omega
  induction skip generalizing cpy next cpos with
  | nil =>
    rw [calcLoop, calcTail, List.map_nil, Runs.left]
    by_cases more : next.toNat < tail.toNat
    · rw [if_pos (BitVec.lt_def.mpr more), if_pos more, List.map_singleton, List.sum_singleton, place, place, self, self,
        ← diff more]
    · rw [if_neg (fun lt => more (BitVec.lt_def.mp lt)), if_neg more, place, List.append_nil, List.map_nil, List.sum_nil]
      rw [show cpos + BitVec.ofNat 32 0 = cpos from BitVec.add_zero cpos]
  | cons d skip ih =>
    obtain ⟨above, sorted⟩ := List.pairwise_cons.mp sorted
    have less := BitVec.lt_def.mp (within d List.mem_cons_self)
    have first := start d List.mem_cons_self
    have d_next : (d + 1).toNat = d.toNat + 1 := by
      rw [BitVec.toNat_add, show (1 : Uint).toNat = 1 from rfl]
      omega
    have later : ∀ e ∈ skip, (d + 1).toNat ≤ e.toNat + 1 := by
      intro e mem
      have := above e.toNat (List.mem_map_of_mem mem)
      omega
    have rest_within : ∀ e ∈ skip, e < tail := fun e mem => within e (List.mem_cons_of_mem _ mem)
    rw [calcLoop, List.map_cons, Runs.left]
    by_cases gap : next.toNat < d.toNat
    · have total : (cpos + (d - next)).toNat = cpos.toNat + (d.toNat - 1 + 1 - next.toNat) := by
        rw [diff gap, BitVec.toNat_add, BitVec.toNat_ofNat]
        omega
      rw [if_pos (BitVec.lt_def.mpr gap), if_pos gap]
      simp only
      rw [ih _ _ _ sorted rest_within later (by omega) (by omega), d_next, total, place, self, self, diff gap,
        List.append_assoc, List.map_cons, List.sum_cons, BitVec.ofNat_add, BitVec.add_assoc]
      rfl
    · rw [if_neg (fun lt => gap (BitVec.lt_def.mp lt)), if_neg gap, ih _ _ _ sorted rest_within later (by omega) (by omega),
        d_next]

/-- The entries that stay, in order. -/
def survivors (n : Nat) (skip : List Uint) : List Nat := (List.range n).filter fun i => !(skip.map BitVec.toNat).contains i

theorem survivors_eq (n : Nat) (skip : List Uint) : survivors n skip = Runs.rest n 0 ((qsort skip).map BitVec.toNat) := by
  rw [survivors, Runs.rest, List.range_eq_range', Nat.sub_zero]
  refine List.filter_congr fun i _ => ?_
  have same : i ∈ (qsort skip).map BitVec.toNat ↔ i ∈ skip.map BitVec.toNat := by
    simp only [List.mem_map, mem_qsort]
  rw [List.contains_eq_mem, List.contains_eq_mem, decide_eq_decide.mpr same]

theorem mem_survivors {n i : Nat} {skip : List Uint} : i ∈ survivors n skip ↔ i < n ∧ i ∉ skip.map BitVec.toNat := by
  rw [survivors, List.mem_filter, List.mem_range, List.contains_eq_mem, Bool.not_eq_true', decide_eq_false_iff_not]

section Indices
variable {n : Uint} {skip : List Uint}

theorem survivors_maximal (small : n.toNat < 2 ^ 31) (below : ∀ d ∈ skip, d < n) :
    Runs.Maximal (survivors n.toNat skip) (Runs.left n.toNat 0 ((qsort skip).map BitVec.toNat)) := by
  have lt (d : Uint) (mem : d ∈ skip) : d.toNat < n.toNat := BitVec.lt_def.mp (below d mem)
  rw [survivors_eq]
  refine (Runs.left_maximal (qsort_sorted fun d mem => by have := lt d mem; omega) ?_ fun d _ => Nat.zero_le _).1
  intro d mem
  obtain ⟨e, sorted, rfl⟩ := List.mem_map.mp mem
  exact lt e (mem_qsort.mp sorted)

/-- The intervals lie over the runs of the entries that stay, and are counted. -/
theorem calc_intervals_s_eq (small : n.toNat < 2 ^ 31) (below : ∀ d ∈ skip, d < n) :
    calc_intervals_s (qsort skip) n =
      (place 0 (Runs.runs (survivors n.toNat skip)), BitVec.ofNat 32 (survivors n.toNat skip).length) := by
  have maximal := survivors_maximal small below
  have sorted := qsort_sorted fun d mem => lt_trans (BitVec.lt_def.mp (below d mem)) small
  have intervals := calc_eq small [] 0 0 (qsort skip) sorted (fun d mem => below d (mem_qsort.mp mem)) (fun d _ => Nat.zero_le _)
    le_rfl (Nat.zero_le _)
  rw [maximal.eq_runs, maximal.length]
  rw [calc_intervals_s, intervals, List.nil_append, show (0 : Uint).toNat = 0 from rfl]
  congr 1
  exact BitVec.zero_add _

/-- There is a place for each interval, but for a count of indices that wraps. -/
theorem runs_survivors_le (small : n.toNat < 2 ^ 31) (below : ∀ d ∈ skip, d < n) :
    (Runs.runs (survivors n.toNat skip)).length ≤ skip.length + 1 := by
  rw [(survivors_maximal small below).eq_runs]
  have few := Runs.left_length_le n.toNat 0 ((qsort skip).map BitVec.toNat)
  rwa [List.length_map, qsort_length] at few

theorem survivors_length_le : (survivors n.toNat skip).length ≤ n.toNat := by
  have := List.length_filter_le (fun i => !(skip.map BitVec.toNat).contains i) (List.range n.toNat)
  rwa [List.length_range] at this

end Indices

/-! ## Copying the intervals -/

/-- The byte counts of the copies do not wrap. -/
def ByteCounts (s : Nat) (rs : List (Nat × Nat)) : Prop := ∀ r ∈ rs, r.1 * s < 2 ^ 32 ∧ (r.2 + 1 - r.1) * s < 2 ^ 32

/-- The runs of entries below `n`, the first one not before its place. -/
structure Placed (n off : Nat) (rs : List (Nat × Nat)) : Prop where
  le : ∀ r ∈ rs, r.1 ≤ r.2
  below : ∀ r ∈ rs, r.2 < n
  gaps : rs.Pairwise fun r s => r.2 + 1 < s.1
  behind : ∀ r ∈ rs, off ≤ r.1

theorem Placed.tail {n off : Nat} {r : Nat × Nat} {rs : List (Nat × Nat)} (placed : Placed n off (r :: rs)) :
    Placed n (off + (r.2 + 1 - r.1)) rs := by
  obtain ⟨gap, gaps⟩ := List.pairwise_cons.mp placed.gaps
  refine ⟨fun s mem => placed.le s (List.mem_cons_of_mem _ mem), fun s mem => placed.below s (List.mem_cons_of_mem _ mem), gaps,
    fun s mem => ?_⟩
  have := gap s mem
  have := placed.le r List.mem_cons_self
  have := placed.behind r List.mem_cons_self
  omega

/-- The entries of the runs. -/
abbrev total (rs : List (Nat × Nat)) : Nat := (rs.flatMap Runs.insts).length

theorem total_cons (r : Nat × Nat) (rs : List (Nat × Nat)) : total (r :: rs) = (r.2 + 1 - r.1) + total rs := by
  rw [total, List.flatMap_cons, List.length_append, Runs.insts_length]

theorem Placed.total_le {n off : Nat} {rs : List (Nat × Nat)} (placed : Placed n off rs) (off_le : off ≤ n) :
    off + total rs ≤ n := by
  induction rs generalizing off with
  | nil => exact off_le
  | cons r rest ih =>
    have le := placed.le r List.mem_cons_self
    have below := placed.below r List.mem_cons_self
    have behind := placed.behind r List.mem_cons_self
    have := ih placed.tail (by omega)
    rw [total_cons]
    omega

section Copies
variable {dst src : Word} {size : Uint} {n off : Nat} {rs : List (Nat × Nat)}

/-- The byte count of some entries, in 32 bits. -/
theorem bytes_toNat {i : Nat} (small : i < 2 ^ 32) : (BitVec.ofNat 32 i * size : Uint).toNat = i * size.toNat % 2 ^ 32 := by
  rw [BitVec.toNat_mul, BitVec.toNat_ofNat, Nat.mod_eq_of_lt small]

theorem copy_intervals_cons (c : CpyInterval) (cpy : List CpyInterval) (bytes : Bytes) :
    copy_intervals (c :: cpy) dst src size bytes = copy_intervals cpy dst src size
      (memcpy bytes (dst.toNat + (c.dst * size).toNat) (src.toNat + (c.src * size).toNat) (c.num * size).toNat) := rfl

/-- One copy stays inside of the place of its run, also where its counts wrap. -/
theorem memcpy_frame {r : Nat × Nat} (bytes : Bytes) (start a : Nat) (off_small : off < 2 ^ 32) (le : r.1 ≤ r.2)
    (r_small : r.2 < 2 ^ 31)
    (outside : a < dst.toNat ∨ dst.toNat + (off + (r.2 + 1 - r.1)) * size.toNat ≤ a) :
    memcpy bytes (dst.toNat + (BitVec.ofNat 32 off * size : Uint).toNat) start
      (BitVec.ofNat 32 (r.2 + 1 - r.1) * size : Uint).toNat a = bytes a := by
  rw [bytes_toNat off_small, bytes_toNat (by omega)]
  rw [Nat.add_mul] at outside
  have := Nat.mod_le (off * size.toNat) (2 ^ 32)
  have := Nat.mod_le ((r.2 + 1 - r.1) * size.toNat) (2 ^ 32)
  exact Gather.copy_outside (by omega)

theorem copy_intervals_frame (small : n < 2 ^ 31) (off_le : off ≤ n) (placed : Placed n off rs) (bytes : Bytes) (a : Nat)
    (outside : a < dst.toNat ∨ dst.toNat + (off + total rs) * size.toNat ≤ a) :
    copy_intervals (place off rs) dst src size bytes a = bytes a := by
  induction rs generalizing off bytes with
  | nil => rfl
  | cons r rest ih =>
    have le := placed.le r List.mem_cons_self
    have below := placed.below r List.mem_cons_self
    have behind := placed.behind r List.mem_cons_self
    rw [total_cons, ← Nat.add_assoc] at outside
    have first : a < dst.toNat ∨ dst.toNat + (off + (r.2 + 1 - r.1)) * size.toNat ≤ a := by
      have := Nat.mul_le_mul_right size.toNat (Nat.le_add_right (off + (r.2 + 1 - r.1)) (total rest))
      omega
    rw [place, copy_intervals_cons, ih (by omega) placed.tail _ outside]
    exact memcpy_frame bytes _ a (by omega) le (by omega) first

/-- Where no count wraps the runs are gathered. -/
theorem copy_intervals_gather (small : n < 2 ^ 31) (off_le : off ≤ n) (placed : Placed n off rs)
    (counts : ByteCounts size.toNat rs) {bytes bytes0 : Bytes}
    (same : ∀ a, src.toNat ≤ a → a < src.toNat + size.toNat * n → bytes a = bytes0 a)
    (apart : dst.toNat + size.toNat * (off + total rs) ≤ src.toNat ∨ src.toNat + size.toNat * n ≤ dst.toNat) :
    copy_intervals (place off rs) dst src size bytes =
      (rs.foldl (Gather.copyRun (fun y => bytes0 (src.toNat + y)) size.toNat) (bytes, dst.toNat + size.toNat * off)).1 := by
  induction rs generalizing off bytes with
  | nil => rfl
  | cons r rest ih =>
    have le := placed.le r List.mem_cons_self
    have below := placed.below r List.mem_cons_self
    have behind := placed.behind r List.mem_cons_self
    obtain ⟨src_count, num_count⟩ := counts r List.mem_cons_self
    have dst_count : off * size.toNat ≤ r.1 * size.toNat := Nat.mul_le_mul_right _ behind
    have whole : size.toNat * r.1 + size.toNat * (r.2 + 1 - r.1) ≤ size.toNat * n := by
      rw [← Nat.mul_add]
      exact Nat.mul_le_mul_left _ (by omega)
    have ends : size.toNat * (off + total (r :: rest)) =
        size.toNat * off + size.toNat * (r.2 + 1 - r.1) + size.toNat * total rest := by
      rw [total_cons, ← Nat.add_assoc, Nat.mul_add, Nat.mul_add]
    have first : memcpy bytes (dst.toNat + (BitVec.ofNat 32 off * size : Uint).toNat)
        (src.toNat + (BitVec.ofNat 32 r.1 * size : Uint).toNat) (BitVec.ofNat 32 (r.2 + 1 - r.1) * size : Uint).toNat =
        Gather.copy bytes (fun y => bytes0 (src.toNat + y)) (dst.toNat + size.toNat * off) (size.toNat * r.1)
          (size.toNat * (r.2 + 1 - r.1)) := by
      rw [bytes_toNat (by omega), bytes_toNat (by omega), bytes_toNat (by omega), Nat.mod_eq_of_lt src_count,
        Nat.mod_eq_of_lt num_count, Nat.mod_eq_of_lt (by omega), memcpy, Nat.mul_comm off, Nat.mul_comm r.1,
        Nat.mul_comm (r.2 + 1 - r.1)]
      refine Gather.copy_congr fun j less => ?_
      rw [same _ (by omega) (by omega)]
      congr 1
      omega
    have next : dst.toNat + size.toNat * off + size.toNat * (r.2 + 1 - r.1) =
        dst.toNat + size.toNat * (off + (r.2 + 1 - r.1)) := by
      rw [Nat.mul_add]
      omega
    have same_rest : ∀ a, src.toNat ≤ a → a < src.toNat + size.toNat * n →
        Gather.copy bytes (fun y => bytes0 (src.toNat + y)) (dst.toNat + size.toNat * off) (size.toNat * r.1)
          (size.toNat * (r.2 + 1 - r.1)) a = bytes0 a := by
      intro a low high
      rw [ends] at apart
      rw [Gather.copy_outside (by omega), same a low high]
    have apart_rest : dst.toNat + size.toNat * (off + (r.2 + 1 - r.1) + total rest) ≤ src.toNat ∨
        src.toNat + size.toNat * n ≤ dst.toNat := by
      rwa [total_cons, ← Nat.add_assoc] at apart
    have counts_rest : ByteCounts size.toNat rest := fun s mem => counts s (List.mem_cons_of_mem _ mem)
    rw [place, copy_intervals_cons, List.foldl_cons, Gather.copyRun, next, ← ih (by omega) placed.tail counts_rest same_rest apart_rest,
      ← first]

/-- The shift of a copy that wraps is no longer one. -/
theorem shift_le {i j s : Nat} (le : j ≤ i) : i * s % 2 ^ 32 + j * s ≤ i * s + j * s % 2 ^ 32 := by
  have order := Nat.mul_le_mul_right s le
  generalize i * s = a at *
  generalize j * s = b at *
  omega

/-- The last of some runs ends further on than their entries make up. -/
theorem Placed.last_end {r last : Nat × Nat} (placed : Placed n off (r :: rs)) (is_last : last ∈ rs.getLast?) :
    r.1 + total (r :: rs) < last.2 + 1 := by
  induction rs generalizing r off with
  | nil => cases is_last
  | cons s rest ih =>
    have le := placed.le r List.mem_cons_self
    have gap := (List.pairwise_cons.mp placed.gaps).1 s List.mem_cons_self
    rw [total_cons]
    cases rest with
    | nil =>
      rw [List.getLast?_singleton, Option.mem_some] at is_last
      subst is_last
      have s_le := placed.le s (List.mem_cons_of_mem _ List.mem_cons_self)
      rw [total_cons, total, List.flatMap_nil, List.length_nil]
      omega
    | cons t more =>
      have := ih placed.tail (by rwa [List.getLast?_cons_cons] at is_last)
      omega

/-- A copy that wraps does not bring the last byte of the source to the end of the place. -/
theorem memcpy_misses {r last : Nat × Nat} {cur : Bytes} (small : n < 2 ^ 31) (off_le : off ≤ n) (placed : Placed n off (r :: rs))
    (is_last : last ∈ (r :: rs).getLast?) (fail : ¬ (last.1 * size.toNat < 2 ^ 32 ∧ (last.2 + 1 - last.1) * size.toNat < 2 ^ 32))
    (zero : cur (dst.toNat + (size.toNat * (off + total (r :: rs)) - 1)) = 0)
    (others : ∀ a, src.toNat ≤ a → a < src.toNat + size.toNat * n → a ≠ src.toNat + (size.toNat * (last.2 + 1) - 1) → cur a = 0) :
    memcpy cur (dst.toNat + (BitVec.ofNat 32 off * size : Uint).toNat) (src.toNat + (BitVec.ofNat 32 r.1 * size : Uint).toNat)
      (BitVec.ofNat 32 (r.2 + 1 - r.1) * size : Uint).toNat (dst.toNat + (size.toNat * (off + total (r :: rs)) - 1)) = 0 := by
  have le := placed.le r List.mem_cons_self
  have below := placed.below r List.mem_cons_self
  have behind := placed.behind r List.mem_cons_self
  rw [bytes_toNat (by omega), bytes_toNat (by omega), bytes_toNat (by omega), memcpy, Gather.copy]
  split
  case isFalse => exact zero
  rename_i covers
  have whole : r.1 * size.toNat + (r.2 + 1 - r.1) * size.toNat ≤ size.toNat * n := by
    rw [← Nat.add_mul, Nat.mul_comm]
    exact Nat.mul_le_mul_left _ (by omega)
  have src_le := Nat.mod_le (r.1 * size.toNat) (2 ^ 32)
  have num_le := Nat.mod_le ((r.2 + 1 - r.1) * size.toNat) (2 ^ 32)
  have dst_le := Nat.mod_le (off * size.toNat) (2 ^ 32)
  have shift := @shift_le r.1 off size.toNat behind
  have place_end : size.toNat * (off + total (r :: rs)) = off * size.toNat + size.toNat * total (r :: rs) := by
    rw [Nat.mul_add, Nat.mul_comm off]
  apply others
  · omega
  · omega
  cases rs with
  | nil =>
    rw [List.getLast?_singleton, Option.mem_some] at is_last
    subst is_last
    have one : size.toNat * total [r] = (r.2 + 1 - r.1) * size.toNat := by
      rw [total_cons, total, List.flatMap_nil, List.length_nil, Nat.add_zero, Nat.mul_comm]
    have last_end : size.toNat * (r.2 + 1) = r.1 * size.toNat + (r.2 + 1 - r.1) * size.toNat := by
      rw [← Nat.add_mul, Nat.mul_comm]
      congr 1
      omega
    intro same
    have dst_whole : off * size.toNat % 2 ^ 32 = off * size.toNat := by omega
    have num_whole : (r.2 + 1 - r.1) * size.toNat % 2 ^ 32 = (r.2 + 1 - r.1) * size.toNat := by omega
    have src_whole : r.1 * size.toNat % 2 ^ 32 = r.1 * size.toNat := by omega
    have bound : 0 < 2 ^ 32 := Nat.two_pow_pos 32
    exact fail ⟨src_whole ▸ Nat.mod_lt _ bound, num_whole ▸ Nat.mod_lt _ bound⟩
  | cons t more =>
    have far := placed.last_end (by rwa [List.getLast?_cons_cons] at is_last)
    have room : r.1 * size.toNat + size.toNat * total (r :: t :: more) + size.toNat ≤ size.toNat * (last.2 + 1) := by
      rw [Nat.mul_comm r.1, ← Nat.mul_add, ← Nat.mul_succ]
      exact Nat.mul_le_mul_left _ far
    have pos : 0 < size.toNat := by
      by_contra zero_size
      refine fail ⟨?_, ?_⟩ <;> rw [Nat.eq_zero_of_not_pos zero_size, Nat.mul_zero] <;> exact Nat.two_pow_pos 32
    have nonempty : size.toNat * 1 ≤ size.toNat * total (r :: t :: more) := by
      refine Nat.mul_le_mul_left _ ?_
      rw [total_cons]
      omega
    omega

theorem copy_intervals_misses {last : Nat × Nat} {cur : Bytes} (small : n < 2 ^ 31) (off_le : off ≤ n) (placed : Placed n off rs)
    (is_last : last ∈ rs.getLast?) (fail : ¬ (last.1 * size.toNat < 2 ^ 32 ∧ (last.2 + 1 - last.1) * size.toNat < 2 ^ 32))
    (zero : cur (dst.toNat + (size.toNat * (off + total rs) - 1)) = 0)
    (others : ∀ a, src.toNat ≤ a → a < src.toNat + size.toNat * n → a ≠ src.toNat + (size.toNat * (last.2 + 1) - 1) → cur a = 0)
    (apart : dst.toNat + size.toNat * (off + total rs) ≤ src.toNat ∨ src.toNat + size.toNat * n ≤ dst.toNat) :
    copy_intervals (place off rs) dst src size cur (dst.toNat + (size.toNat * (off + total rs) - 1)) = 0 := by
  induction rs generalizing off cur with
  | nil => cases is_last
  | cons r rest ih =>
    have le := placed.le r List.mem_cons_self
    have below := placed.below r List.mem_cons_self
    have behind := placed.behind r List.mem_cons_self
    have first := memcpy_misses small off_le placed is_last fail zero others
    have same_end : off + total (r :: rest) = off + (r.2 + 1 - r.1) + total rest := by rw [total_cons, Nat.add_assoc]
    rw [place, copy_intervals_cons]
    cases rest with
    | nil => exact first
    | cons t more =>
      rw [same_end] at first apart ⊢
      refine ih (by omega) placed.tail (by rwa [List.getLast?_cons_cons] at is_last) first (fun a low high differ => ?_) apart
      rw [memcpy_frame cur _ a (by omega) le (by omega) ?_]
      · exact others a low high differ
      · have := Nat.mul_le_mul_left size.toNat (Nat.le_add_right (off + (r.2 + 1 - r.1)) (total (t :: more)))
        rw [Nat.mul_comm (off + (r.2 + 1 - r.1))]
        omega

end Copies

/-! ## New bands -/

/-- The new bands cut from the region of the frame. -/
def cutBands (n_alloc : Uint) : Region → List Band → List Word × Region
  | r, [] => ([], r)
  | r, b :: bands =>
    let (p, r) := if b.ptr ≠ 0 then
        let (p, r) := reg_alloc r (size_t (n_alloc * b.size)) SIMD_ALIGN_HINT
        (p.getD 0, r)
      else (0, r)
    let (ps, r) := cutBands n_alloc r bands
    (p :: ps, r)

/-- The bytes that are asked for a band. -/
def bandBytes (n_alloc : Uint) (b : Band) : Nat := (n_alloc * b.size).toNat

theorem cutBands_null {n_alloc : Uint} {b : Band} (null : b.ptr = 0) (r : Region) (bands : List Band) :
    (cutBands n_alloc r (b :: bands)).1 = 0 :: (cutBands n_alloc r bands).1 := by
  rw [cutBands, if_neg (not_not.mpr null)]

theorem cutBands_some {n_alloc : Uint} {b : Band} (some_ptr : b.ptr ≠ 0) (r : Region) (bands : List Band) :
    (cutBands n_alloc r (b :: bands)).1 =
      (reg_alloc r (size_t (n_alloc * b.size)) SIMD_ALIGN_HINT).1.getD 0 ::
        (cutBands n_alloc (reg_alloc r (size_t (n_alloc * b.size)) SIMD_ALIGN_HINT).2 bands).1 := by
  rw [cutBands, if_pos some_ptr]

theorem cutBands_length (n_alloc : Uint) (r : Region) (bands : List Band) :
    (cutBands n_alloc r bands).1.length = bands.length := by
  induction bands generalizing r with
  | nil => rfl
  | cons b bands ih =>
    by_cases null : b.ptr = 0
    · rw [cutBands_null null, List.length_cons, List.length_cons, ih]
    · rw [cutBands_some null, List.length_cons, List.length_cons, ih]

/-- In user space no sum of a band allocation wraps. -/
theorem band_fits {ptr : Word} (user : ptr.toNat < 2 ^ 63) (n : Uint) : Fits ptr (size_t n) SIMD_ALIGN_HINT := by
  have align : SIMD_ALIGN_HINT.toNat = 16 := rfl
  have small := n.isLt
  have high := @le_add_ALIGN ptr SIMD_ALIGN_HINT (by decide) (by omega)
  refine ⟨by decide, by omega, ?_⟩
  rw [size_t_toNat]
  omega

/-- The new bands lie behind the position of the region, one behind the other. -/
theorem cutBands_spec {n_alloc : Uint} {r : Region} {bands : List Band} (inside : r.ptr.toNat ≤ r.stop.toNat)
    (user : r.stop.toNat < 2 ^ 63) (given : ∀ q ∈ livePairs bands (cutBands n_alloc r bands).1, q.2 ≠ 0) :
    (∀ q ∈ livePairs bands (cutBands n_alloc r bands).1,
        r.ptr.toNat ≤ q.2.toNat ∧ q.2.toNat + bandBytes n_alloc q.1 ≤ r.stop.toNat) ∧
      (livePairs bands (cutBands n_alloc r bands).1).Pairwise fun q q' =>
        q.2.toNat + bandBytes n_alloc q.1 ≤ q'.2.toNat := by
  induction bands generalizing r with
  | nil => exact ⟨fun q mem => absurd mem List.not_mem_nil, List.Pairwise.nil⟩
  | cons b bands ih =>
    by_cases null : b.ptr = 0
    · rw [cutBands_null null, livePairs_null null] at *
      exact ih inside user given
    · rw [cutBands_some null, livePairs_some null] at given ⊢
      obtain ⟨outcome, taken⟩ : ∃ outcome, reg_alloc r (size_t (n_alloc * b.size)) SIMD_ALIGN_HINT = outcome := ⟨_, rfl⟩
      rw [taken] at given ⊢
      obtain ⟨_ | p, r'⟩ := outcome
      · exact absurd rfl (given _ List.mem_cons_self)
      obtain ⟨-, same, low, next, below⟩ := reg_alloc_some (band_fits (by omega) _) taken
      have stop : r'.stop = r.stop := by rw [same]
      have bytes : bandBytes n_alloc b = (n_alloc * b.size).toNat := rfl
      rw [size_t_toNat] at next
      obtain ⟨each, order⟩ := @ih r' (by rw [stop]; omega) (by rw [stop]; exact user)
        fun q mem => given q (List.mem_cons_of_mem _ mem)
      rw [stop] at each
      simp only [Option.getD_some]
      refine ⟨fun q mem => ?_, List.pairwise_cons.mpr ⟨fun q mem => ?_, order⟩⟩
      · obtain rfl | mem := List.mem_cons.mp mem
        · simp only
          omega
        · have := each q mem
          omega
      · have := (each q mem).1
        simp only
        omega

theorem cutBands_zero {n_alloc : Uint} {r : Region} {bands : List Band} :
    ∀ q ∈ bands.zip (cutBands n_alloc r bands).1, q.1.ptr = 0 → q.2 = 0 := by
  induction bands generalizing r with
  | nil => exact fun q mem => absurd mem List.not_mem_nil
  | cons b bands ih =>
    intro q mem null
    by_cases first : b.ptr = 0
    · rw [cutBands_null first, List.zip_cons_cons] at mem
      obtain rfl | mem := List.mem_cons.mp mem
      · rfl
      · exact ih q mem null
    · rw [cutBands_some first, List.zip_cons_cons] at mem
      obtain rfl | mem := List.mem_cons.mp mem
      · exact absurd null first
      · exact ih q mem null

end M2.Mem
