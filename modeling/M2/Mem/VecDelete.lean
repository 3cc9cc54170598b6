import M2.Mem.Vec

/-!
# Deleting entries of a vector

`vec_copy_skip` and `simF_vec_delete` of `src/vec.c`. The copies follow the entries that stay where no byte
count of a run of them wraps; only the last run can wrap alone, and then misses the last byte.
-/
namespace M2.Mem

open M2.Lib

/-- Two ranges share no byte. -/
def BytesApart (a m b n : Nat) : Prop := a + m ≤ b ∨ b + n ≤ a

/-- The destinations lie apart, and apart from the entries of the bands. -/
structure Separate (n count : Nat) (live : List (Band × Word)) : Prop where
  sources : ∀ q ∈ live, ∀ q' ∈ live,
    BytesApart q.2.toNat (q.1.stride.toNat * count) q'.1.ptr.toNat (q'.1.stride.toNat * n)
  dests : live.Pairwise fun q q' =>
    BytesApart q.2.toNat (q.1.stride.toNat * count) q'.2.toNat (q'.1.stride.toNat * count)

/-- The entries of a list are at the start of the destination, in its order. -/
def Copied (bytes bytes' : Bytes) (l : List Nat) (q : Band × Word) : Prop :=
  ∀ k i o, l[k]? = some i → o < q.1.stride.toNat →
    bytes' (q.2.toNat + (q.1.stride.toNat * k + o)) = bytes (q.1.ptr.toNat + (q.1.stride.toNat * i + o))

/-- `vec_copy_skip` writes the entries that stay to the destinations, nothing else, and returns their
number. -/
def Copies (bytes : Bytes) (v : Vec) (dst : List Word) (skip : List Uint) : Prop :=
  ∃ bytes' tail, vec_copy_skip bytes v dst skip = some (bytes', tail) ∧
    tail.toNat = (survivors v.n_used.toNat skip).length ∧
    (∀ q ∈ v.live dst, Copied bytes bytes' (survivors v.n_used.toNat skip) q) ∧
    ∀ a, (∀ q ∈ v.live dst, BytesApart a 1 q.2.toNat (q.1.stride.toNat * (survivors v.n_used.toNat skip).length)) →
      bytes' a = bytes a

/-- There is a place for each interval, and no byte count of a run of the entries that stay wraps. -/
def CopyFits (v : Vec) (skip : List Uint) : Prop :=
  (skip.length + 1 < 2 ^ 32 ∨ survivors v.n_used.toNat skip = []) ∧
    ∀ b ∈ v.bands, b.ptr ≠ 0 → ByteCounts b.stride.toNat (Runs.runs (survivors v.n_used.toNat skip))

theorem Band.size_toNat (b : Band) : b.size.toNat = b.stride.toNat := by
  rw [BitVec.toNat_setWidth, Nat.mod_eq_of_lt (lt_trans b.stride.isLt (by decide))]

/-! ## All bands -/

section Bands
variable {n : Nat} {rs : List (Nat × Nat)} {live : List (Band × Word)}

theorem copyBands_cons (cpy : List CpyInterval) (bytes : Bytes) (q : Band × Word) :
    copyBands cpy bytes (q :: live) = copyBands cpy (copy_intervals cpy q.2 q.1.ptr q.1.size bytes) live := rfl

theorem copyBands_frame (small : n < 2 ^ 31) (placed : Placed n 0 rs) (bytes : Bytes) (a : Nat)
    (outside : ∀ q ∈ live, BytesApart a 1 q.2.toNat (q.1.stride.toNat * total rs)) :
    copyBands (place 0 rs) bytes live a = bytes a := by
  induction live generalizing bytes with
  | nil => rfl
  | cons q rest ih =>
    rw [copyBands_cons, ih _ fun r mem => outside r (List.mem_cons_of_mem _ mem)]
    have first := outside q List.mem_cons_self
    apply copy_intervals_frame small (Nat.zero_le n) placed
    rw [Band.size_toNat, Nat.zero_add, Nat.mul_comm]
    unfold BytesApart at first
    omega

/-- The bands before and behind one of them leave its entries and its place alone. -/
theorem copyBands_around (small : n < 2 ^ 31) (placed : Placed n 0 rs) (separate : Separate n (total rs) live)
    {q : Band × Word} (mem : q ∈ live) (bytes : Bytes) :
    ∃ before : Bytes,
      (∀ a, q.1.ptr.toNat ≤ a → a < q.1.ptr.toNat + q.1.stride.toNat * n → before a = bytes a) ∧
      (∀ a, q.2.toNat ≤ a → a < q.2.toNat + q.1.stride.toNat * total rs → before a = bytes a) ∧
      ∀ a, q.2.toNat ≤ a → a < q.2.toNat + q.1.stride.toNat * total rs →
        copyBands (place 0 rs) bytes live a = copy_intervals (place 0 rs) q.2 q.1.ptr q.1.size before a := by
  obtain ⟨front, rest, rfl⟩ := List.append_of_mem mem
  obtain ⟨-, dests, across⟩ := List.pairwise_append.mp separate.dests
  have behind := (List.pairwise_cons.mp dests).1
  refine ⟨copyBands (place 0 rs) bytes front, fun a low high => ?_, fun a low high => ?_, fun a low high => ?_⟩
  · refine copyBands_frame small placed bytes a fun r there => ?_
    have apart := separate.sources r (List.mem_append_left _ there) q mem
    unfold BytesApart at apart ⊢
    omega
  · refine copyBands_frame small placed bytes a fun r there => ?_
    have apart := across r there q List.mem_cons_self
    unfold BytesApart at apart ⊢
    omega
  · rw [copyBands, List.foldl_append, List.foldl_cons]
    refine copyBands_frame small placed _ a fun r there => ?_
    have apart := behind r there
    unfold BytesApart at apart ⊢
    omega

/-- Where its counts do not wrap a band is gathered. -/
theorem copyBands_read (small : n < 2 ^ 31) (placed : Placed n 0 rs) (separate : Separate n (total rs) live)
    {q : Band × Word} (mem : q ∈ live) (counts : ByteCounts q.1.stride.toNat rs) (bytes : Bytes) :
    Copied bytes (copyBands (place 0 rs) bytes live) (rs.flatMap Runs.insts) q := by
  obtain ⟨before, sources, -, dests⟩ := copyBands_around small placed separate mem bytes
  intro k i o there byte
  have k_lt := (List.getElem?_eq_some_iff.mp there).1
  have whole : q.1.stride.toNat * (k + 1) ≤ q.1.stride.toNat * total rs := Nat.mul_le_mul_left _ k_lt
  rw [Nat.mul_add, Nat.mul_one] at whole
  have apart := separate.sources q mem q mem
  unfold BytesApart at apart
  rw [dests _ (by omega) (by omega),
    copy_intervals_gather small (Nat.zero_le n) placed (by rwa [Band.size_toNat]) (by rwa [Band.size_toNat])
      (by rw [Band.size_toNat, Nat.zero_add]; exact apart),
    Band.size_toNat, Nat.mul_zero, Nat.add_zero]
  exact Gather.read _ _ rs before q.2.toNat there byte

/-- The last entry of some runs. -/
theorem last_entry {front : List (Nat × Nat)} {last : Nat × Nat} (le : last.1 ≤ last.2) :
    ((front ++ [last]).flatMap Runs.insts)[total (front ++ [last]) - 1]? = some last.2 := by
  have count : total (front ++ [last]) = total front + (last.2 + 1 - last.1) := by
    rw [total, List.flatMap_append, List.length_append, List.flatMap_singleton, Runs.insts_length]
  rw [count, List.flatMap_append, List.flatMap_singleton, List.getElem?_append_right (by unfold total; omega), Runs.insts,
    List.getElem?_range' (by unfold total; omega)]
  congr 1
  unfold total
  omega

/-- A count that wraps in some run does in the last one. -/
theorem last_wraps {front : List (Nat × Nat)} {last : Nat × Nat} {s : Nat} (placed : Placed n 0 (front ++ [last]))
    (fail : ¬ ByteCounts s (front ++ [last])) : ¬ (last.1 * s < 2 ^ 32 ∧ (last.2 + 1 - last.1) * s < 2 ^ 32) := by
  rintro ⟨src_count, num_count⟩
  refine fail fun r mem => ?_
  obtain mem | mem := List.mem_append.mp mem
  · have gap := (List.pairwise_append.mp placed.gaps).2.2 r mem last (List.mem_singleton_self last)
    have le := placed.le r (List.mem_append_left _ mem)
    have first : r.1 * s ≤ last.1 * s := Nat.mul_le_mul_right s (by omega)
    have second : (r.2 + 1 - r.1) * s ≤ last.1 * s := Nat.mul_le_mul_right s (by omega)
    omega
  · rw [List.mem_singleton.mp mem]
    exact ⟨src_count, num_count⟩

/-- Where a count wraps there are entries whose last byte is missed. -/
theorem copyBands_misses (small : n < 2 ^ 31) (placed : Placed n 0 rs) (separate : Separate n (total rs) live)
    {q : Band × Word} (mem : q ∈ live) (fail : ¬ ByteCounts q.1.stride.toNat rs) :
    ∃ bytes, ¬ Copied bytes (copyBands (place 0 rs) bytes live) (rs.flatMap Runs.insts) q := by
  obtain rfl | ⟨front, last, rfl⟩ := rs.eq_nil_or_concat'
  · exact absurd (fun r mem => absurd mem List.not_mem_nil) fail
  have wraps := last_wraps placed fail
  have le := placed.le last (List.mem_append_right _ (List.mem_singleton_self last))
  have below := placed.below last (List.mem_append_right _ (List.mem_singleton_self last))
  have pos : 0 < q.1.stride.toNat := by
    by_contra zero
    refine wraps ⟨?_, ?_⟩ <;> rw [Nat.eq_zero_of_not_pos zero, Nat.mul_zero] <;> exact Nat.two_pow_pos 32
  have entry := @last_entry front last le
  have some_entries : 0 < total (front ++ [last]) := by
    have := (List.getElem?_eq_some_iff.mp entry).1
    unfold total
    omega
  have is_last : last ∈ (front ++ [last]).getLast? := List.getLast?_concat
  generalize front ++ [last] = rs at *
  have s_total : q.1.stride.toNat * (total rs - 1) + q.1.stride.toNat = q.1.stride.toNat * total rs := by
    rw [← Nat.mul_succ, Nat.succ_eq_add_one, Nat.sub_add_cancel some_entries]
  have s_last : q.1.stride.toNat * last.2 + q.1.stride.toNat = q.1.stride.toNat * (last.2 + 1) := (Nat.mul_succ _ _).symm
  have within : q.1.stride.toNat * (last.2 + 1) ≤ q.1.stride.toNat * n := Nat.mul_le_mul_left _ below
  have apart := separate.sources q mem q mem
  unfold BytesApart at apart
  -- one byte of the source that is not zero
  obtain ⟨bytes, marked⟩ : ∃ bytes : Bytes, ∀ a, bytes a =
      if a = q.1.ptr.toNat + (q.1.stride.toNat * (last.2 + 1) - 1) then 1 else 0 := ⟨_, fun _ => rfl⟩
  obtain ⟨before, sources, dests, result⟩ := copyBands_around small placed separate mem bytes
  refine ⟨bytes, fun copied => ?_⟩
  have one := copied (total rs - 1) last.2 (q.1.stride.toNat - 1) entry (by omega)
  have missed := @copy_intervals_misses q.2 q.1.ptr q.1.size n 0 rs last before small (Nat.zero_le n) placed is_last
    (by rwa [Band.size_toNat])
    (by rw [Band.size_toNat, Nat.zero_add, dests _ (by omega) (by omega), marked, if_neg (by omega)])
    (fun a low high differ => by
      rw [Band.size_toNat] at high differ
      rw [sources a low high, marked, if_neg differ])
    (by rwa [Band.size_toNat, Nat.zero_add])
  rw [Band.size_toNat, Nat.zero_add] at missed
  rw [marked, if_pos (by omega), show q.1.stride.toNat * (total rs - 1) + (q.1.stride.toNat - 1) = q.1.stride.toNat * total rs - 1 by omega,
    result _ (by omega) (by omega), missed] at one
  exact absurd one (by decide)

end Bands

/-! ## `vec_copy_skip` -/

section CopySkip
variable {v : Vec} {dst : List Word} {skip : List Uint}

theorem survivors_placed (small : v.n_used.toNat < 2 ^ 31) (below : ∀ d ∈ skip, d < v.n_used) :
    Runs.Maximal (survivors v.n_used.toNat skip) (Runs.runs (survivors v.n_used.toNat skip)) ∧
      Placed v.n_used.toNat 0 (Runs.runs (survivors v.n_used.toNat skip)) := by
  have maximal := survivors_maximal small below
  rw [maximal.eq_runs]
  refine ⟨maximal, maximal.le, fun r mem => ?_, maximal.gaps, fun r _ => Nat.zero_le _⟩
  exact (mem_survivors.mp (maximal.mem.mpr ⟨r, mem, maximal.le r mem, le_rfl⟩)).1

/-- The places of the intervals are enough but for a count of `2^32 - 1` indices. -/
theorem places_iff (small : v.n_used.toNat < 2 ^ 31) (below : ∀ d ∈ skip, d < v.n_used) (count : skip.length < 2 ^ 32) :
    (Runs.runs (survivors v.n_used.toNat skip)).length ≤ (BitVec.ofNat 32 skip.length + 1 : Uint).toNat ↔
      skip.length + 1 < 2 ^ 32 ∨ survivors v.n_used.toNat skip = [] := by
  have few := runs_survivors_le small below
  have maximal := (survivors_placed small below).1
  have places : (BitVec.ofNat 32 skip.length + 1 : Uint).toNat = (skip.length + 1) % 2 ^ 32 := by
    rw [BitVec.toNat_add, BitVec.toNat_ofNat, Nat.mod_add_mod]
    rfl
  rw [places]
  constructor
  · intro le
    by_contra both
    push Not at both
    have some_runs : 0 < (Runs.runs (survivors v.n_used.toNat skip)).length := by
      rw [List.length_pos_iff]
      intro none
      have flat := maximal.flat
      rw [none, List.flatMap_nil] at flat
      exact both.2 flat.symm
    omega
  · rintro (less | none)
    · omega
    · rw [none]
      exact Nat.zero_le _

/-- A band that is not `NULL` has a destination. -/
theorem Vec.mem_live (bands : dst.length = v.bands.length) {b : Band} (mem : b ∈ v.bands) (some_ptr : b.ptr ≠ 0) :
    ∃ q ∈ v.live dst, q.1 = b := by
  obtain ⟨i, i_lt, rfl⟩ := List.getElem_of_mem mem
  have pair : (v.bands[i], dst[i]) ∈ v.bands.zip dst :=
    List.mem_iff_getElem.mpr ⟨i, by rw [List.length_zip]; omega, List.getElem_zip⟩
  exact ⟨_, List.mem_filter.mpr ⟨pair, decide_eq_true some_ptr⟩, rfl⟩

theorem Vec.live_mem {q : Band × Word} (mem : q ∈ v.live dst) : q.1 ∈ v.bands ∧ q.1.ptr ≠ 0 := by
  obtain ⟨pair, some_ptr⟩ := List.mem_filter.mp mem
  exact ⟨(List.of_mem_zip pair).1, of_decide_eq_true some_ptr⟩

/-- What `vec_copy_skip` does, where it has places. -/
theorem vec_copy_skip_eq (small : v.n_used.toNat < 2 ^ 31) (below : ∀ d ∈ skip, d < v.n_used) (bytes : Bytes) :
    vec_copy_skip bytes v dst skip =
      if (Runs.runs (survivors v.n_used.toNat skip)).length ≤ (BitVec.ofNat 32 skip.length + 1 : Uint).toNat then
        some (copyBands (place 0 (Runs.runs (survivors v.n_used.toNat skip))) bytes (v.live dst),
          BitVec.ofNat 32 (survivors v.n_used.toNat skip).length)
      else none := by
  rw [vec_copy_skip, vec_copy_skip_s, calc_intervals_s_eq small below, qsort_length]
  simp only [place_length]

theorem tail_toNat (small : v.n_used.toNat < 2 ^ 31) :
    (BitVec.ofNat 32 (survivors v.n_used.toNat skip).length).toNat = (survivors v.n_used.toNat skip).length := by
  have := @survivors_length_le v.n_used skip
  rw [BitVec.toNat_ofNat, Nat.mod_eq_of_lt (by omega)]

theorem total_runs (small : v.n_used.toNat < 2 ^ 31) (below : ∀ d ∈ skip, d < v.n_used) :
    total (Runs.runs (survivors v.n_used.toNat skip)) = (survivors v.n_used.toNat skip).length := by
  rw [total, (survivors_placed small below).1.flat]

/-- Where the counts do not fit some memory tells. -/
theorem copyFits_of_copied (small : v.n_used.toNat < 2 ^ 31) (below : ∀ d ∈ skip, d < v.n_used) (count : skip.length < 2 ^ 32)
    (bands : dst.length = v.bands.length)
    (separate : Separate v.n_used.toNat (survivors v.n_used.toNat skip).length (v.live dst))
    (copies : ∀ bytes, ∃ r, vec_copy_skip bytes v dst skip = some r ∧
      ∀ q ∈ v.live dst, Copied bytes r.1 (survivors v.n_used.toNat skip) q) : CopyFits v skip := by
  obtain ⟨maximal, placed⟩ := survivors_placed small below
  have result (bytes : Bytes) := @vec_copy_skip_eq v dst skip small below bytes
  have room : (Runs.runs (survivors v.n_used.toNat skip)).length ≤ (BitVec.ofNat 32 skip.length + 1 : Uint).toNat := by
    obtain ⟨r, copied, -⟩ := copies fun _ => 0
    rw [result] at copied
    by_contra full
    rw [if_neg full] at copied
    cases copied
  refine ⟨(places_iff small below count).mp room, fun b mem some_ptr => ?_⟩
  obtain ⟨q, live, rfl⟩ := Vec.mem_live bands mem some_ptr
  rw [← total_runs small below] at separate
  by_contra fail
  obtain ⟨bytes, missed⟩ := copyBands_misses small placed separate live fail
  obtain ⟨r, copied, read⟩ := copies bytes
  rw [result, if_pos room] at copied
  cases copied
  rw [maximal.flat] at missed
  exact missed (read q live)

/-- Whatever the memory holds, `vec_copy_skip` copies the entries that stay, exactly where the counts fit. -/
theorem copies_iff (small : v.n_used.toNat < 2 ^ 31) (below : ∀ d ∈ skip, d < v.n_used) (count : skip.length < 2 ^ 32)
    (bands : dst.length = v.bands.length)
    (separate : Separate v.n_used.toNat (survivors v.n_used.toNat skip).length (v.live dst)) :
    (∀ bytes, Copies bytes v dst skip) ↔ CopyFits v skip := by
  constructor
  · intro copies
    refine copyFits_of_copied small below count bands separate fun bytes => ?_
    obtain ⟨bytes', tail, copied, -, read, -⟩ := copies bytes
    exact ⟨_, copied, read⟩
  · rintro ⟨room, counts⟩ bytes
    obtain ⟨maximal, placed⟩ := survivors_placed small below
    have result := (@vec_copy_skip_eq v dst skip small below bytes).trans (if_pos ((places_iff small below count).mpr room))
    rw [← total_runs small below] at separate
    refine ⟨_, _, result, tail_toNat small, fun q live => ?_, fun a outside => ?_⟩
    · obtain ⟨mem, some_ptr⟩ := Vec.live_mem live
      have read := copyBands_read small placed separate live (counts q.1 mem some_ptr) bytes
      rwa [maximal.flat] at read
    · rw [← total_runs small below] at outside
      exact copyBands_frame small placed bytes a outside

end CopySkip

/-! ## `simF_vec_delete` -/

/-- The new bands, 0 for `NULL`. -/
def createBands (n_alloc : Uint) : Sim → List Band → List Word × Sim
  | sim, [] => ([], sim)
  | sim, b :: bands =>
    let (p, sim) := if b.ptr ≠ 0 then simF_vec_create_band_stride sim n_alloc b.stride else (0, sim)
    let (ps, sim) := createBands n_alloc sim bands
    (p :: ps, sim)

/-- `simF_vec_delete`. -/
def simF_vec_delete (sim : Sim) (v : Vec) (skip : List Uint) : Option (Sim × Vec) :=
  if skip.length = 0 then some (sim, v)
  else do
    let (newbands, sim) := createBands v.n_alloc sim v.bands
    let (bytes, tail) ← vec_copy_skip sim.bytes v newbands skip
    some ({ sim with bytes }, { v with
      n_used := tail
      bands := v.bands.zipWith (fun b p => { b with ptr := p }) newbands })

theorem Sim.setTop_self (sim : Sim) : sim.setTop sim.top = sim := by
  rw [Sim.setTop, Sim.top, Function.update_eq_self]

theorem Sim.setTop_setTop (sim : Sim) (f g : Frame) : (sim.setTop f).setTop g = sim.setTop g := by
  simp only [Sim.setTop, Function.update_idem]

/-- Only the region of the frame changes. -/
theorem createBands_eq (n_alloc : Uint) (sim : Sim) (bands : List Band) :
    createBands n_alloc sim bands =
      ((cutBands n_alloc sim.top.mem bands).1, sim.setTop { sim.top with mem := (cutBands n_alloc sim.top.mem bands).2 }) := by
  induction bands generalizing sim with
  | nil =>
    rw [createBands, cutBands]
    simp only
    rw [Sim.setTop_self]
  | cons b bands ih =>
    rw [createBands, cutBands]
    by_cases null : b.ptr = 0
    · simp only [null, ne_eq, not_true_eq_false, if_false, ih]
    · simp only [null, ne_eq, not_false_eq_true, if_true, simF_vec_create_band_stride, sim_alloc, ih, Sim.setTop_top,
        Sim.setTop_setTop]

/-- A list without repeats leaves as many entries as it has not. -/
theorem survivors_length {n : Uint} {skip : List Uint} (below : ∀ d ∈ skip, d < n) (nodup : skip.Nodup) :
    (survivors n.toNat skip).length + skip.length = n.toNat := by
  have numbers : (skip.map BitVec.toNat).Nodup := nodup.map (fun _ _ same => BitVec.eq_of_toNat_eq same)
  have gone : ((List.range n.toNat).filter fun i => (skip.map BitVec.toNat).contains i).Perm (skip.map BitVec.toNat) := by
    refine (List.perm_ext_iff_of_nodup (List.nodup_range.filter _) numbers).mpr fun i => ?_
    rw [List.mem_filter, List.mem_range, List.contains_iff_mem]
    refine and_iff_right_of_imp fun mem => ?_
    obtain ⟨d, d_mem, rfl⟩ := List.mem_map.mp mem
    exact BitVec.lt_def.mp (below d d_mem)
  have parts := (List.filter_append_perm (fun i => (skip.map BitVec.toNat).contains i) (List.range n.toNat)).length_eq
  rw [List.length_append, gone.length_eq, List.length_map, List.length_range] at parts
  rw [survivors, Nat.add_comm]
  exact parts

/-- The vector after a deletion: its bands hold the entries that stay, in blocks of enough bytes, and the
old bands are as they were. -/
structure Deleted (sim : Sim) (v : Vec) (skip : List Uint) (sim' : Sim) (v' : Vec) : Prop where
  n_used : v'.n_used.toNat + skip.length = v.n_used.toNat
  n_alloc : v'.n_alloc = v.n_alloc
  stride : v'.bands.map Band.stride = v.bands.map Band.stride
  null : ∀ q ∈ v.bands.zip (v'.bands.map Band.ptr), q.1.ptr = 0 ↔ q.2 = 0
  holds : ∀ q ∈ v.live (v'.bands.map Band.ptr), Copied sim.bytes sim'.bytes (survivors v.n_used.toNat skip) q
  room : skip ≠ [] → ∀ b ∈ v.bands, b.ptr ≠ 0 →
    b.stride.toNat * (survivors v.n_used.toNat skip).length ≤ bandBytes v.n_alloc b
  old : ∀ b ∈ v.bands, b.ptr ≠ 0 → ∀ a, b.ptr.toNat ≤ a → a < b.ptr.toNat + b.stride.toNat * v.n_alloc.toNat →
    sim'.bytes a = sim.bytes a

/-- The deletion does what it is for, on some bytes. -/
def Deletes (sim : Sim) (v : Vec) (skip : List Uint) (bytes : Bytes) : Prop :=
  ∃ sim' v', simF_vec_delete { sim with bytes } v skip = some (sim', v') ∧ Deleted { sim with bytes } v skip sim' v'

/-- A list of distinct entries, bands whose allocations succeed, and old bands that do not lie where the
frame allocates, in user space. -/
structure Deletable (sim : Sim) (v : Vec) (skip : List Uint) : Prop where
  small : v.n_used.toNat < 2 ^ 31
  used : v.n_used.toNat ≤ v.n_alloc.toNat
  below : ∀ d ∈ skip, d < v.n_used
  nodup : skip.Nodup
  inside : sim.top.mem.ptr.toNat ≤ sim.top.mem.stop.toNat
  user : sim.top.mem.stop.toNat < 2 ^ 63
  given : ∀ q ∈ v.live (createBands v.n_alloc sim v.bands).1, q.2 ≠ 0
  apart : ∀ b ∈ v.bands, b.ptr ≠ 0 → BytesApart b.ptr.toNat (b.stride.toNat * v.n_alloc.toNat) sim.top.mem.ptr.toNat
    (sim.top.mem.stop.toNat - sim.top.mem.ptr.toNat)

/-- The counts fit, and the block of a band is large enough. -/
def DeleteFits (v : Vec) (skip : List Uint) : Prop :=
  skip = [] ∨ CopyFits v skip ∧ ∀ b ∈ v.bands, b.ptr ≠ 0 →
    b.stride.toNat * (survivors v.n_used.toNat skip).length ≤ bandBytes v.n_alloc b

section Deletion
variable {sim : Sim} {v : Vec} {skip : List Uint}

/-- Nothing is deleted. -/
theorem deleted_nil (sim : Sim) (v : Vec) : Deleted sim v [] sim v where
  n_used := rfl
  n_alloc := rfl
  stride := rfl
  null := by
    intro q mem
    obtain ⟨i, i_lt, rfl⟩ := List.mem_iff_getElem.mp mem
    rw [List.getElem_zip, List.getElem_map]
  holds := by
    intro q mem k i o there byte
    obtain ⟨j, j_lt, rfl⟩ := List.mem_iff_getElem.mp (List.mem_filter.mp mem).1
    have all : survivors v.n_used.toNat [] = List.range v.n_used.toNat := List.filter_eq_self.mpr fun _ _ => rfl
    rw [all] at there
    obtain ⟨k_lt, rfl⟩ := List.getElem?_eq_some_iff.mp there
    rw [List.getElem_zip, List.getElem_map, List.getElem_range]
  room := fun some_skip => absurd rfl some_skip
  old := fun _ _ _ _ _ _ => rfl

/-- The pointers of the bands after a deletion. -/
theorem zipWith_ptr {bands : List Band} {ps : List Word} (same : ps.length = bands.length) :
    (bands.zipWith (fun b p => { b with ptr := p }) ps).map Band.ptr = ps ∧
      (bands.zipWith (fun b p => { b with ptr := p }) ps).map Band.stride = bands.map Band.stride := by
  induction bands generalizing ps with
  | nil => exact ⟨(List.length_eq_zero_iff.mp same).symm, rfl⟩
  | cons b bands ih =>
    obtain _ | ⟨p, ps⟩ := ps
    · cases same
    · obtain ⟨ptrs, strides⟩ := ih (Nat.succ.inj same)
      rw [List.zipWith_cons_cons, List.map_cons, List.map_cons, ptrs, strides, List.map_cons]
      exact ⟨rfl, rfl⟩

namespace Deletable

/-- The pointers of the new bands. -/
abbrev dst (_ : Deletable sim v skip) : List Word := (cutBands v.n_alloc sim.top.mem v.bands).1

theorem dst_given (d : Deletable sim v skip) : ∀ q ∈ v.live d.dst, q.2 ≠ 0 := by
  have given := d.given
  rwa [createBands_eq] at given

/-- New bands with room for the entries that stay are separate. -/
theorem separate (d : Deletable sim v skip) (room : ∀ b ∈ v.bands, b.ptr ≠ 0 →
    b.stride.toNat * (survivors v.n_used.toNat skip).length ≤ bandBytes v.n_alloc b) :
    Separate v.n_used.toNat (survivors v.n_used.toNat skip).length (v.live d.dst) := by
  obtain ⟨each, order⟩ := cutBands_spec d.inside d.user d.dst_given
  have used := d.used
  have fits (q : Band × Word) (mem : q ∈ v.live d.dst) := room q.1 (Vec.live_mem mem).1 (Vec.live_mem mem).2
  constructor
  · intro q mem q' mem'
    have bounds := each q mem
    have := fits q mem
    have apart := d.apart q'.1 (Vec.live_mem mem').1 (Vec.live_mem mem').2
    have entries := Nat.mul_le_mul_left q'.1.stride.toNat used
    have inside := d.inside
    unfold BytesApart at apart ⊢
    omega
  · refine order.imp_of_mem fun {q q'} mem mem' before => .inl ?_
    have := fits q mem
    omega

/-- What a deletion of something does. -/
theorem result (d : Deletable sim v skip) (some_skip : skip ≠ []) (bytes : Bytes) :
    simF_vec_delete { sim with bytes } v skip =
      (vec_copy_skip bytes v d.dst skip).map fun r =>
        ({ sim.setTop { sim.top with mem := (cutBands v.n_alloc sim.top.mem v.bands).2 } with bytes := r.1 },
          { v with n_used := r.2, bands := v.bands.zipWith (fun b p => { b with ptr := p }) d.dst }) := by
  have length : skip.length ≠ 0 := fun zero => some_skip (List.length_eq_zero_iff.mp zero)
  rw [simF_vec_delete, if_neg length, createBands_eq]
  simp only [Sim.setTop_bytes]
  cases copied : vec_copy_skip bytes v d.dst skip with
  | none =>
    rw [show vec_copy_skip bytes v (cutBands v.n_alloc ({ sim with bytes } : Sim).top.mem v.bands).1 skip = none from copied]
    rfl
  | some r =>
    rw [show vec_copy_skip bytes v (cutBands v.n_alloc ({ sim with bytes } : Sim).top.mem v.bands).1 skip = some r from copied]
    rfl

end Deletable

/-- Whatever the memory holds, a deletion of distinct entries does what it is for, exactly where the counts
and the blocks fit. -/
theorem deletes_iff (d : Deletable sim v skip) : (∀ bytes, Deletes sim v skip bytes) ↔ DeleteFits v skip := by
  by_cases none : skip = []
  · subst none
    exact iff_of_true (fun bytes => ⟨_, _, rfl, deleted_nil _ _⟩) (.inl rfl)
  obtain ⟨maximal, placed⟩ := survivors_placed d.small d.below
  have length := cutBands_length v.n_alloc sim.top.mem v.bands
  have total := survivors_length d.below d.nodup
  have count : skip.length < 2 ^ 32 := by
    have := d.small
    omega
  obtain ⟨ptrs, strides⟩ := zipWith_ptr length
  rw [DeleteFits, or_iff_right none]
  constructor
  · intro deletes
    have room : ∀ b ∈ v.bands, b.ptr ≠ 0 →
        b.stride.toNat * (survivors v.n_used.toNat skip).length ≤ bandBytes v.n_alloc b := by
      obtain ⟨sim', v', -, deleted⟩ := deletes fun _ => 0
      exact deleted.room none
    refine ⟨copyFits_of_copied d.small d.below count length (d.separate room) fun bytes => ?_, room⟩
    obtain ⟨sim', v', done, deleted⟩ := deletes bytes
    rw [d.result none] at done
    obtain ⟨r, copied, same⟩ := Option.map_eq_some_iff.mp done
    refine ⟨r, copied, fun q mem => ?_⟩
    cases same
    refine deleted.holds q ?_
    rw [ptrs]
    exact mem
  · rintro ⟨counts, room⟩ bytes
    have separate := d.separate room
    obtain ⟨bytes', tail, copied, tail_eq, read, frame⟩ := (copies_iff d.small d.below count length separate).mpr counts bytes
    refine ⟨_, _, by rw [d.result none, copied]; rfl, ?_⟩
    obtain ⟨each, -⟩ := cutBands_spec d.inside d.user d.dst_given
    refine ⟨by simp only; omega, rfl, strides, fun q mem => ?_, fun q mem => ?_, fun _ => room, fun b mem some_ptr a low high => ?_⟩
    · rw [ptrs] at mem
      refine ⟨cutBands_zero q mem, fun zero => ?_⟩
      by_contra some_ptr
      exact d.dst_given q (List.mem_filter.mpr ⟨mem, decide_eq_true some_ptr⟩) zero
    · rw [ptrs] at mem
      exact read q mem
    · refine frame a fun q mem_q => ?_
      have bounds := each q mem_q
      have fits := room q.1 (Vec.live_mem mem_q).1 (Vec.live_mem mem_q).2
      have apart := d.apart b mem some_ptr
      have inside := d.inside
      unfold BytesApart at apart ⊢
      omega

end Deletion

/-- Whatever the memory holds, the entries that stay are copied exactly where the counts fit, and a
deletion of distinct entries does what it is for exactly where the counts and the blocks fit. -/
theorem vec_delete_iff {v : Vec} {skip : List Uint} (small : v.n_used.toNat < 2 ^ 31) (below : ∀ d ∈ skip, d < v.n_used)
    (count : skip.length < 2 ^ 32) :
    (∀ dst : List Word, dst.length = v.bands.length →
      Separate v.n_used.toNat (survivors v.n_used.toNat skip).length (v.live dst) →
        ((∀ bytes, Copies bytes v dst skip) ↔ CopyFits v skip)) ∧
      ∀ sim : Sim, Deletable sim v skip → ((∀ bytes, Deletes sim v skip bytes) ↔ DeleteFits v skip) :=
  ⟨fun _ bands separate => copies_iff small below count bands separate, fun _ d => deletes_iff d⟩

namespace Rows

/-- Three entries of two bands, the second one `NULL`. -/
def three : Vec := ⟨4, 3, [⟨8, 4096⟩, ⟨2, 0⟩]⟩

/-- Two frames, regions of 256 bytes. -/
def sim : Sim := f_enter (newSim 65536 (fun _ => 0) 2 256)

theorem survivors_three : survivors 3 [2, 0] = [1] := by decide

theorem sim_ptr : sim.top.mem.ptr.toNat = 65792 := by rfl

theorem sim_stop : sim.top.mem.stop.toNat = 66048 := by rfl

theorem three_below : ∀ d ∈ [(2 : Uint), 0], d < three.n_used :=
  List.forall_mem_cons.mpr ⟨by decide, List.forall_mem_singleton.mpr (by decide)⟩

theorem deletable_three : Deletable sim three [2, 0] where
  small := by decide
  used := by decide
  below := three_below
  nodup := by decide
  inside := by
    rw [sim_ptr, sim_stop]
    decide
  user := by
    rw [sim_stop]
    decide
  given := by
    have created : three.live (createBands three.n_alloc sim three.bands).1 = [(⟨8, 4096⟩, 65792)] := by decide +kernel
    rw [created]
    exact List.forall_mem_singleton.mpr (by decide)
  apart := by
    rw [sim_ptr, sim_stop]
    refine List.forall_mem_cons.mpr ⟨fun _ => .inl (by decide), List.forall_mem_singleton.mpr fun some_ptr => ?_⟩
    exact absurd rfl some_ptr

theorem vec_delete_iff_three :
    ((∀ bytes, Copies bytes three [8192, 0] [2, 0]) ↔ CopyFits three [2, 0]) ∧
      ((∀ bytes, Deletes sim three [2, 0] bytes) ↔ DeleteFits three [2, 0]) := by
  have both := @vec_delete_iff three [2, 0] (by decide) three_below (by decide)
  refine ⟨both.1 [8192, 0] rfl ?_, both.2 sim deletable_three⟩
  have count : (survivors three.n_used.toNat [2, 0]).length = 1 := congrArg List.length survivors_three
  have live : three.live [8192, 0] = [(⟨8, 4096⟩, 8192)] := by decide
  rw [count, live]
  refine ⟨?_, List.pairwise_singleton _ _⟩
  exact List.forall_mem_singleton.mpr (List.forall_mem_singleton.mpr (.inr (by decide)))

/-- A band of a little more than four gigabytes. -/
def large : Vec := ⟨536870913, 536870913, [⟨8, 0x1000000000⟩]⟩

/-- All but the first entry of the band are one run, whose bytes are counted as none. -/
theorem not_copies_large : ¬ ∀ (v : Vec) (dst : List Word) (skip : List Uint), v.n_used.toNat < 2 ^ 31 →
    (∀ d ∈ skip, d < v.n_used) → skip.length < 2 ^ 32 → dst.length = v.bands.length →
      Separate v.n_used.toNat (survivors v.n_used.toNat skip).length (v.live dst) → ∀ bytes, Copies bytes v dst skip := by
  intro always
  have small : large.n_used.toNat < 2 ^ 31 := by decide
  have below : ∀ d ∈ [(0 : Uint)], d < large.n_used := List.forall_mem_singleton.mpr (by decide)
  have n_used : large.n_used.toNat = 536870913 := by decide +kernel
  have runs : Runs.runs (survivors large.n_used.toNat [0]) = [(1, 536870912)] := by
    have skipped : List.map BitVec.toNat [(0 : Uint)] = [0] := rfl
    rw [(survivors_maximal small below).eq_runs, qsort, List.mergeSort_singleton, skipped, n_used, Runs.left,
      if_neg (Nat.lt_irrefl 0), Runs.left, if_pos (by decide +kernel)]
  have count : (survivors large.n_used.toNat [0]).length = 536870912 := by
    have total := survivors_length below (List.nodup_singleton 0)
    rw [List.length_singleton] at total
    omega
  have separate : Separate large.n_used.toNat (survivors large.n_used.toNat [0]).length (large.live [0x2000000000]) := by
    have live : large.live [0x2000000000] = [(⟨8, 0x1000000000⟩, 0x2000000000)] := by decide
    rw [count, live]
    refine ⟨?_, List.pairwise_singleton _ _⟩
    exact List.forall_mem_singleton.mpr (List.forall_mem_singleton.mpr (.inr (by decide +kernel)))
  have fits := copyFits_of_copied small below (by decide) rfl separate fun bytes => by
    obtain ⟨bytes', tail, copied, -, read, -⟩ := always large [0x2000000000] [0] small below (by decide) rfl separate bytes
    exact ⟨_, copied, read⟩
  have counts := fits.2 ⟨8, 0x1000000000⟩ List.mem_cons_self (by decide)
  rw [runs] at counts
  exact absurd (counts (1, 536870912) List.mem_cons_self).2 (by decide +kernel)

end Rows
end M2.Mem
