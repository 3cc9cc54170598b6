import M2.Lib.Doubling
import M2.Mem.VecDelete

/-!
# Growing a vector

`F_ensure_capacity` and `simF_vec_alloc` of `src/vec.c`. The capacity is doubled in 32 bits until it holds the
entries, and each band that is not `NULL` gets a new block of the frame. The outcome of an allocation is not
looked at: `memcpy` of some bytes to `NULL` has no result here.
-/
namespace M2.Mem

open M2.Lib

/-- The capacity `F_ensure_capacity` begins with. -/
def firstCapacity (n_alloc : Uint) : Uint := if n_alloc = 0 then 32 else n_alloc

/-- The last loop of `F_ensure_capacity`. -/
def growBands (n_alloc n_used : Uint) : Sim → List Band → Option (Sim × List Band)
  | sim, [] => some (sim, [])
  | sim, old :: bands =>
    if old.ptr ≠ 0 then do
      let (p, sim) := simF_vec_create_band_stride sim n_alloc old.stride
      let count := (n_used * old.size).toNat
      if p = 0 ∧ count ≠ 0 then none
      else
        let (sim, rest) ← growBands n_alloc n_used { sim with bytes := memcpy sim.bytes p.toNat old.ptr.toNat count } bands
        some (sim, { old with ptr := p } :: rest)
    else do
      let (sim, rest) ← growBands n_alloc n_used sim bands
      some (sim, old :: rest)

/-- `F_ensure_capacity`, with a bound on the tests of its first loop. -/
def F_ensure_capacity (fuel : Nat) (sim : Sim) (v : Vec) (n : Uint) : Option (Sim × Vec) :=
  if v.n_used + n ≤ v.n_alloc then some (sim, v)
  else do
    let na ← Doubling.grow fuel (firstCapacity v.n_alloc) (n + v.n_used)
    let (sim, bands) ← growBands na v.n_used sim v.bands
    some (sim, { v with n_alloc := na, bands })

/-- `simF_vec_alloc`. -/
def simF_vec_alloc (fuel : Nat) (sim : Sim) (v : Vec) (n : Uint) : Option (Uint × Sim × Vec) := do
  let (sim, v) ← F_ensure_capacity fuel sim v n
  some (v.n_used, sim, { v with n_used := v.n_used + n })

/-- The bytes of a band with a place for each entry. -/
def Band.room (b : Band) (n_alloc : Uint) : Nat := b.stride.toNat * n_alloc.toNat

/-- Each band that is not `NULL` has a block of its own with a place for each entry, and the frame does not
give a byte of it to anyone else. -/
structure Blocks (sim : Sim) (v : Vec) : Prop where
  taken : ∀ b ∈ v.bands, b.ptr ≠ 0 →
    BytesApart b.ptr.toNat (b.room v.n_alloc) sim.top.mem.ptr.toNat (sim.top.mem.stop.toNat - sim.top.mem.ptr.toNat)
  own : v.bands.Pairwise fun b b' => b.ptr ≠ 0 → b'.ptr ≠ 0 →
    BytesApart b.ptr.toNat (b.room v.n_alloc) b'.ptr.toNat (b'.room v.n_alloc)

/-- The vector has `n` entries more, and the bands hold what they held. -/
structure Grown (sim : Sim) (v : Vec) (n ret : Uint) (sim' : Sim) (v' : Vec) : Prop where
  ret : ret = v.n_used
  n_used : v'.n_used.toNat = v.n_used.toNat + n.toNat
  capacity : v'.n_used.toNat ≤ v'.n_alloc.toNat
  stride : v'.bands.map Band.stride = v.bands.map Band.stride
  null : ∀ q ∈ v.bands.zip (v'.bands.map Band.ptr), q.1.ptr = 0 ↔ q.2 = 0
  blocks : Blocks sim' v'
  holds : ∀ q ∈ v.live (v'.bands.map Band.ptr), ∀ o < q.1.room v.n_used,
    sim'.bytes (q.2.toNat + o) = sim.bytes (q.1.ptr.toNat + o)

/-- The call ends, and the vector has grown or is as it was. -/
def Allocates (sim : Sim) (v : Vec) (n : Uint) : Prop :=
  ∃ fuel ret sim' v', simF_vec_alloc fuel sim v n = some (ret, sim', v') ∧ (Grown sim v n ret sim' v' ∨ v' = v)

/-- The blocks of the bands that are not `NULL` fit between two positions of the frame, at multiples of 16. -/
def BandsFit (n_alloc : Uint) (stop : Nat) : Nat → List Band → Prop
  | _, [] => True
  | pos, b :: bands =>
    if b.ptr ≠ 0 then (pos + 15) / 16 * 16 + b.room n_alloc < stop ∧ BandsFit n_alloc stop ((pos + 15) / 16 * 16 + b.room n_alloc) bands
    else BandsFit n_alloc stop pos bands

/-- The number of entries does not wrap, and is not above the capacity or some doubling of it, for which no
byte count of a band wraps and the frame has room. -/
def GrowFits (sim : Sim) (v : Vec) (n : Uint) : Prop :=
  v.n_used.toNat + n.toNat < 2 ^ 32 ∧ (v.n_used.toNat + n.toNat ≤ v.n_alloc.toNat ∨
    ∃ na, Doubling.First (firstCapacity v.n_alloc) (n + v.n_used) na ∧
      (∀ b ∈ v.bands, b.ptr ≠ 0 → b.room na < 2 ^ 32) ∧ BandsFit na sim.top.mem.stop.toNat sim.top.mem.ptr.toNat v.bands)

/-! ## The region -/

section Cut
variable {na : Uint} {r : Region} {b : Band} {bands : List Band}

theorem cutBands_null_region (null : b.ptr = 0) : (cutBands na r (b :: bands)).2 = (cutBands na r bands).2 := by
  rw [cutBands, if_neg (not_not.mpr null)]

theorem cutBands_some_region (some_ptr : b.ptr ≠ 0) :
    (cutBands na r (b :: bands)).2 = (cutBands na (reg_alloc r (size_t (na * b.size)) SIMD_ALIGN_HINT).2 bands).2 := by
  rw [cutBands, if_pos some_ptr]

theorem bandBytes_eq (b : Band) : bandBytes na b = b.room na % 2 ^ 32 := by
  rw [bandBytes, BitVec.toNat_mul, Band.size_toNat, Band.room, Nat.mul_comm]

/-- An aligned position in user space. -/
theorem ALIGN_hint {ptr : Word} (user : ptr.toNat < 2 ^ 63) : (ALIGN ptr SIMD_ALIGN_HINT).toNat = (ptr.toNat + 15) / 16 * 16 := by
  have align : SIMD_ALIGN_HINT.toNat = 16 := rfl
  have low := @le_ALIGN ptr SIMD_ALIGN_HINT (by decide) (by omega)
  have high := @le_add_ALIGN ptr SIMD_ALIGN_HINT (by decide) (by omega)
  have power := @ALIGN_power ptr SIMD_ALIGN_HINT 4 (by decide) rfl
  omega

/-- An allocation for a band has a block exactly where it ends below the end of the region. -/
theorem band_alloc (inside : r.ptr.toNat ≤ r.stop.toNat) (user : r.stop.toNat < 2 ^ 63) (b : Band) :
    (∃ p r', reg_alloc r (size_t (na * b.size)) SIMD_ALIGN_HINT = (some p, r') ∧ r' = { r with ptr := r'.ptr } ∧
        p.toNat = (r.ptr.toNat + 15) / 16 * 16 ∧ r'.ptr.toNat = p.toNat + bandBytes na b ∧ r'.ptr.toNat < r.stop.toNat) ∨
      reg_alloc r (size_t (na * b.size)) SIMD_ALIGN_HINT = (none, r) ∧
        r.stop.toNat ≤ (r.ptr.toNat + 15) / 16 * 16 + bandBytes na b := by
  have fits := @band_fits r.ptr (by omega) (na * b.size)
  have aligned := @ALIGN_hint r.ptr (by omega)
  have bytes : (size_t (na * b.size)).toNat = bandBytes na b := size_t_toNat _
  obtain ⟨outcome, taken⟩ : ∃ outcome, reg_alloc r (size_t (na * b.size)) SIMD_ALIGN_HINT = outcome := ⟨_, rfl⟩
  obtain ⟨_ | p, r'⟩ := outcome
  · right
    obtain rfl := reg_alloc_none taken
    refine ⟨taken, ?_⟩
    rw [reg_alloc, bump] at taken
    split at taken
    · cases taken
    · rename_i failed
      split at failed
      · cases failed
      · rename_i full
        rw [BitVec.lt_def, BitVec.toNat_add, Nat.mod_eq_of_lt fits.2.2, aligned, bytes] at full
        omega
  · left
    obtain ⟨start, same, -, next, below⟩ := reg_alloc_some fits taken
    rw [start] at next
    exact ⟨p, r', taken, same, by rw [start, aligned], by rw [start, next, bytes], below⟩

/-- The region after the new bands: each of them ends in front of the new position. -/
theorem cutBands_region (inside : r.ptr.toNat ≤ r.stop.toNat) (user : r.stop.toNat < 2 ^ 63)
    (given : ∀ q ∈ livePairs bands (cutBands na r bands).1, q.2 ≠ 0) :
    (cutBands na r bands).2.stop = r.stop ∧ r.ptr.toNat ≤ (cutBands na r bands).2.ptr.toNat ∧
      (cutBands na r bands).2.ptr.toNat ≤ r.stop.toNat ∧
      ∀ q ∈ livePairs bands (cutBands na r bands).1, q.2.toNat + bandBytes na q.1 ≤ (cutBands na r bands).2.ptr.toNat := by
  induction bands generalizing r with
  | nil => exact ⟨rfl, le_rfl, inside, fun q mem => absurd mem List.not_mem_nil⟩
  | cons b bands ih =>
    by_cases null : b.ptr = 0
    · rw [cutBands_null null, livePairs_null null] at *
      rw [cutBands_null_region null]
      exact ih inside user given
    · rw [cutBands_some null, livePairs_some null] at given ⊢
      rw [cutBands_some_region null]
      obtain ⟨p, r', taken, same, start, next, below⟩ | ⟨failed, -⟩ := @band_alloc na r inside user b
      · rw [taken] at given ⊢
        simp only [Option.getD_some] at given ⊢
        have stop : r'.stop = r.stop := by rw [same]
        obtain ⟨stop', low, high, each⟩ := @ih r' (by rw [stop]; omega) (by rw [stop]; exact user)
          fun q mem => given q (List.mem_cons_of_mem _ mem)
        rw [stop] at stop' high
        refine ⟨stop', by omega, high, fun q mem => ?_⟩
        obtain rfl | mem := List.mem_cons.mp mem
        · simp only
          omega
        · exact each q mem
      · rw [failed] at given
        exact absurd rfl (given _ List.mem_cons_self)

/-- The allocations succeed exactly where the blocks fit. -/
theorem bandsFit_iff (positive : 0 < r.ptr.toNat) (inside : r.ptr.toNat ≤ r.stop.toNat) (user : r.stop.toNat < 2 ^ 63)
    (counts : ∀ b ∈ bands, b.ptr ≠ 0 → b.room na < 2 ^ 32) :
    (∀ q ∈ livePairs bands (cutBands na r bands).1, q.2 ≠ 0) ↔ BandsFit na r.stop.toNat r.ptr.toNat bands := by
  induction bands generalizing r with
  | nil => exact iff_of_true (fun q mem => absurd mem List.not_mem_nil) trivial
  | cons b bands ih =>
    have rest := fun c mem => counts c (List.mem_cons_of_mem _ mem)
    rw [BandsFit]
    by_cases null : b.ptr = 0
    · rw [cutBands_null null, livePairs_null null, if_neg (not_not.mpr null)]
      exact ih positive inside user rest
    · rw [cutBands_some null, livePairs_some null, if_pos null, List.forall_mem_cons]
      have bytes : bandBytes na b = b.room na := by
        rw [bandBytes_eq, Nat.mod_eq_of_lt (counts b List.mem_cons_self null)]
      obtain ⟨p, r', taken, same, start, next, below⟩ | ⟨failed, full⟩ := @band_alloc na r inside user b
      · rw [taken, ← bytes, ← start, ← next]
        have stop : r'.stop = r.stop := by rw [same]
        have tail := @ih r' (by omega) (by rw [stop]; omega) (by rw [stop]; exact user) rest
        rw [stop] at tail
        simp only [Option.getD_some]
        rw [tail, and_iff_right below, and_iff_right]
        intro zero
        rw [zero, show (0 : Word).toNat = 0 from rfl] at start
        omega
      · rw [failed]
        exact iff_of_false (fun given => given.1 rfl) fun fit => by rw [← bytes] at fit; omega

/-- Bands with a place for no byte between two positions do not move the region to the second one. -/
theorem cutBands_stays {start len : Nat} (inside : r.ptr.toNat ≤ r.stop.toNat) (user : r.stop.toNat < 2 ^ 63)
    (low : start ≤ r.ptr.toNat) (high : r.ptr.toNat + 15 < start + len)
    (given : ∀ q ∈ livePairs bands (cutBands na r bands).1, q.2 ≠ 0)
    (apart : ∀ q ∈ livePairs bands (cutBands na r bands).1, BytesApart start len q.2.toNat (q.1.room na)) :
    (cutBands na r bands).2.ptr = r.ptr := by
  induction bands generalizing r with
  | nil => rfl
  | cons b bands ih =>
    by_cases null : b.ptr = 0
    · rw [cutBands_null null, livePairs_null null] at *
      rw [cutBands_null_region null]
      exact ih inside user low high given apart
    · rw [cutBands_some null, livePairs_some null] at given apart
      rw [cutBands_some_region null]
      obtain ⟨p, r', taken, same, aligned, next, below⟩ | ⟨failed, -⟩ := @band_alloc na r inside user b
      · rw [taken] at given apart ⊢
        simp only [Option.getD_some] at given apart ⊢
        have first := apart _ List.mem_cons_self
        simp only at first
        have bytes := Nat.mod_le (b.room na) (2 ^ 32)
        rw [← bandBytes_eq] at bytes
        unfold BytesApart at first
        have stays : r'.ptr = r.ptr := BitVec.eq_of_toNat_eq (by omega)
        have stop : r'.stop = r.stop := by rw [same]
        rw [← stays]
        exact ih (by rw [stop]; omega) (by rw [stop]; exact user) (by omega) (by omega)
          (fun q mem => given q (List.mem_cons_of_mem _ mem)) fun q mem => apart q (List.mem_cons_of_mem _ mem)
      · rw [failed] at given
        exact absurd rfl (given _ List.mem_cons_self)

/-- Where each band has a block of its own behind which the region goes on, no byte count wraps. -/
theorem counts_of_apart (inside : r.ptr.toNat ≤ r.stop.toNat) (user : r.stop.toNat < 2 ^ 63)
    (given : ∀ q ∈ livePairs bands (cutBands na r bands).1, q.2 ≠ 0)
    (own : (livePairs bands (cutBands na r bands).1).Pairwise fun q q' =>
      BytesApart q.2.toNat (q.1.room na) q'.2.toNat (q'.1.room na))
    (free : ∀ q ∈ livePairs bands (cutBands na r bands).1, BytesApart q.2.toNat (q.1.room na) (cutBands na r bands).2.ptr.toNat
      (r.stop.toNat - (cutBands na r bands).2.ptr.toNat)) :
    ∀ b ∈ bands, b.ptr ≠ 0 → b.room na < 2 ^ 32 := by
  induction bands generalizing r with
  | nil => exact fun b mem => absurd mem List.not_mem_nil
  | cons b bands ih =>
    by_cases null : b.ptr = 0
    · rw [cutBands_null null, livePairs_null null] at *
      rw [cutBands_null_region null] at free
      intro c mem some_ptr
      obtain rfl | mem := List.mem_cons.mp mem
      · exact absurd null some_ptr
      · exact ih inside user given own free c mem some_ptr
    · rw [cutBands_some null, livePairs_some null] at given own free
      rw [cutBands_some_region null] at free
      obtain ⟨p, r', taken, same, aligned, next, below⟩ | ⟨failed, -⟩ := @band_alloc na r inside user b
      · rw [taken] at given own free
        simp only [Option.getD_some] at given own free
        have stop : r'.stop = r.stop := by rw [same]
        have inside' : r'.ptr.toNat ≤ r'.stop.toNat := by
          rw [stop]
          omega
        have user' : r'.stop.toNat < 2 ^ 63 := by
          rw [stop]
          exact user
        obtain ⟨first, own⟩ := List.pairwise_cons.mp own
        have given' : ∀ q ∈ livePairs bands (cutBands na r' bands).1, q.2 ≠ 0 := fun q mem => given q (List.mem_cons_of_mem _ mem)
        have behind : ∀ c ∈ bands, c.ptr ≠ 0 → c.room na < 2 ^ 32 := by
          refine ih inside' user' given' own fun q mem => ?_
          rw [stop]
          exact free q (List.mem_cons_of_mem _ mem)
        intro c mem some_ptr
        obtain rfl | mem := List.mem_cons.mp mem
        · by_contra wraps
          have bytes := @bandBytes_eq na c
          have stays := @cutBands_stays na r' bands p.toNat (c.room na) inside' user' (by omega) (by omega) given' first
          have apart := free _ List.mem_cons_self
          rw [stays] at apart
          simp only at apart
          unfold BytesApart at apart
          omega
        · exact behind c mem some_ptr
      · rw [failed] at given
        exact absurd rfl (given _ List.mem_cons_self)

end Cut

/-! ## The bands -/

section Bands
variable {na n_used : Uint} {sim sim' : Sim} {bands bands' : List Band}

/-- The bytes `F_ensure_capacity` copies for a band. -/
def moveOf (n_used : Uint) (q : Band × Word) : Gather.Move := ⟨q.2.toNat, q.1.ptr.toNat, (n_used * q.1.size).toNat⟩

/-- Another region and other bytes in the top frame. -/
def Sim.framed (sim : Sim) (mem : Region) (bytes : Bytes) : Sim := { sim.setTop { sim.top with mem } with bytes }

theorem Sim.framed_top (sim : Sim) (mem : Region) (bytes : Bytes) : (sim.framed mem bytes).top = { sim.top with mem } := by
  show (sim.setTop { sim.top with mem }).top = { sim.top with mem }
  exact Sim.setTop_top _ _

theorem Sim.framed_framed (sim : Sim) (mem mem' : Region) (bytes bytes' : Bytes) :
    (sim.framed mem bytes).framed mem' bytes' = sim.framed mem' bytes' := by
  rw [Sim.framed, Sim.framed_top]
  simp only [Sim.framed, Sim.setTop, Function.update_idem]

theorem Sim.framed_self (sim : Sim) : sim.framed sim.top.mem sim.bytes = sim := by
  rw [Sim.framed]
  exact Sim.setTop_self sim

theorem growBands_null {b : Band} (null : b.ptr = 0) :
    growBands na n_used sim (b :: bands) = (growBands na n_used sim bands).map fun r => (r.1, b :: r.2) := by
  rw [growBands, if_neg (not_not.mpr null)]
  cases growBands na n_used sim bands <;> rfl

/-- A band that is not `NULL` is copied to its new block, if it has one or no bytes. -/
theorem growBands_live {b : Band} (some_ptr : b.ptr ≠ 0) {p : Option Word} {mem : Region}
    (taken : reg_alloc sim.top.mem (size_t (na * b.size)) SIMD_ALIGN_HINT = (p, mem)) :
    growBands na n_used sim (b :: bands) =
      if p.getD 0 = 0 ∧ (n_used * b.size).toNat ≠ 0 then none
      else (growBands na n_used (sim.framed mem
          (memcpy sim.bytes (p.getD 0).toNat b.ptr.toNat (n_used * b.size).toNat)) bands).map
        fun r => (r.1, { b with ptr := p.getD 0 } :: r.2) := by
  have created : simF_vec_create_band_stride sim na b.stride = (p.getD 0, sim.setTop { sim.top with mem }) := by
    rw [simF_vec_create_band_stride, sim_alloc, taken]
  rw [growBands, if_pos some_ptr, created]
  dsimp only
  congr 1
  rw [Sim.setTop_bytes, Sim.framed]
  cases growBands na n_used _ bands <;> rfl

/-- The new pointers are those of the cut, and the position of the frame is behind them. -/
theorem growBands_some (grown : growBands na n_used sim bands = some (sim', bands')) :
    bands'.map Band.ptr = (cutBands na sim.top.mem bands).1 ∧ sim'.top.mem = (cutBands na sim.top.mem bands).2 := by
  induction bands generalizing sim bands' with
  | nil =>
    cases grown
    exact ⟨rfl, rfl⟩
  | cons b bands ih =>
    by_cases null : b.ptr = 0
    · rw [growBands_null null] at grown
      obtain ⟨r, tail, same⟩ := Option.map_eq_some_iff.mp grown
      cases same
      obtain ⟨ptrs, region⟩ := ih tail
      rw [cutBands_null null, cutBands_null_region null, List.map_cons, ptrs, null]
      exact ⟨rfl, region⟩
    · obtain ⟨⟨p, mem⟩, taken⟩ : ∃ outcome, reg_alloc sim.top.mem (size_t (na * b.size)) SIMD_ALIGN_HINT = outcome := ⟨_, rfl⟩
      rw [growBands_live null taken] at grown
      split at grown
      · cases grown
      · obtain ⟨r, tail, same⟩ := Option.map_eq_some_iff.mp grown
        cases same
        obtain ⟨ptrs, region⟩ := ih tail
        rw [Sim.framed_top] at ptrs region
        rw [cutBands_some null, cutBands_some_region null, List.map_cons, ptrs, taken]
        exact ⟨rfl, region⟩

/-- Where all allocations succeed each band is copied to its new block. -/
theorem growBands_given (given : ∀ q ∈ livePairs bands (cutBands na sim.top.mem bands).1, q.2 ≠ 0) :
    growBands na n_used sim bands = some
      (sim.framed (cutBands na sim.top.mem bands).2
          (Gather.moves sim.bytes ((livePairs bands (cutBands na sim.top.mem bands).1).map (moveOf n_used))),
        bands.zipWith (fun b p => { b with ptr := p }) (cutBands na sim.top.mem bands).1) := by
  induction bands generalizing sim with
  | nil =>
    rw [growBands, cutBands]
    congr 2
    exact (Sim.framed_self sim).symm
  | cons b bands ih =>
    by_cases null : b.ptr = 0
    · rw [cutBands_null null, livePairs_null null] at given ⊢
      rw [growBands_null null, ih given, cutBands_null_region null, List.zipWith_cons_cons, ← null]
      rfl
    · obtain ⟨⟨p, mem⟩, taken⟩ : ∃ outcome, reg_alloc sim.top.mem (size_t (na * b.size)) SIMD_ALIGN_HINT = outcome := ⟨_, rfl⟩
      rw [cutBands_some null, livePairs_some null, taken] at given
      obtain ⟨first, given⟩ := List.forall_mem_cons.mp given
      rw [growBands_live null taken, if_neg fun failed => first failed.1, ih (by rw [Sim.framed_top]; exact given),
        Sim.framed_top, Sim.framed_framed, cutBands_some null, cutBands_some_region null, livePairs_some null, taken]
      rfl

theorem moveOf_n {na n_used : Uint} {q : Band × Word} (count : q.1.room na < 2 ^ 32) (used : n_used.toNat ≤ na.toNat) :
    (moveOf n_used q).n = q.1.room n_used ∧ q.1.room n_used ≤ q.1.room na := by
  have le : q.1.room n_used ≤ q.1.room na := Nat.mul_le_mul_left _ used
  refine ⟨?_, le⟩
  rw [moveOf, BitVec.toNat_mul, Band.size_toNat, Nat.mul_comm]
  exact Nat.mod_eq_of_lt (by unfold Band.room at le count; omega)

/-- The blocks of the bands with other pointers. -/
theorem blocks_zip {ps : List Word} (null : ∀ q ∈ bands.zip ps, q.1.ptr = 0 ↔ q.2 = 0) (n : Uint) :
    Blocks sim ⟨na, n, bands.zipWith (fun b p => { b with ptr := p }) ps⟩ ↔
      (∀ q ∈ livePairs bands ps, BytesApart q.2.toNat (q.1.room na) sim.top.mem.ptr.toNat
        (sim.top.mem.stop.toNat - sim.top.mem.ptr.toNat)) ∧
      (livePairs bands ps).Pairwise fun q q' => BytesApart q.2.toNat (q.1.room na) q'.2.toNat (q'.1.room na) := by
  have mapped : bands.zipWith (fun b p => { b with ptr := p }) ps = (bands.zip ps).map fun q => { q.1 with ptr := q.2 } := by
    rw [List.map_zip_eq_zipWith]
    rfl
  have live {q : Band × Word} (mem : q ∈ bands.zip ps) : decide (q.1.ptr ≠ 0) = true ↔ q.2 ≠ 0 := by
    rw [decide_eq_true_eq]
    exact not_congr (null q mem)
  have own : (bands.zipWith (fun b p => { b with ptr := p }) ps).Pairwise (fun b b' : Band => b.ptr ≠ 0 → b'.ptr ≠ 0 →
        BytesApart b.ptr.toNat (b.room na) b'.ptr.toNat (b'.room na)) ↔
      (livePairs bands ps).Pairwise fun q q' => BytesApart q.2.toNat (q.1.room na) q'.2.toNat (q'.1.room na) := by
    rw [mapped, List.pairwise_map, livePairs, List.pairwise_filter]
    apply List.Pairwise.iff_of_mem
    intro q q' mem mem'
    rw [live mem, live mem']
    rfl
  have taken : (∀ b ∈ bands.zipWith (fun b p => { b with ptr := p }) ps, b.ptr ≠ 0 → BytesApart b.ptr.toNat (b.room na)
        sim.top.mem.ptr.toNat (sim.top.mem.stop.toNat - sim.top.mem.ptr.toNat)) ↔
      ∀ q ∈ livePairs bands ps, BytesApart q.2.toNat (q.1.room na) sim.top.mem.ptr.toNat
        (sim.top.mem.stop.toNat - sim.top.mem.ptr.toNat) := by
    rw [mapped, List.forall_mem_map, livePairs]
    constructor
    · intro each q mem
      obtain ⟨pair, some_ptr⟩ := List.mem_filter.mp mem
      exact each q pair ((live pair).mp some_ptr)
    · intro each q mem some_ptr
      exact each q (List.mem_filter.mpr ⟨mem, (live mem).mpr some_ptr⟩)
  exact ⟨fun blocks => ⟨taken.mp blocks.taken, own.mp blocks.own⟩, fun both => ⟨taken.mpr both.1, own.mpr both.2⟩⟩

end Bands

/-! ## `simF_vec_alloc` -/

/-- A vector with a block for each of its bands, in a frame in user space. -/
structure Growable (sim : Sim) (v : Vec) : Prop where
  used : v.n_used.toNat ≤ v.n_alloc.toNat
  blocks : Blocks sim v
  positive : 0 < sim.top.mem.ptr.toNat
  inside : sim.top.mem.ptr.toNat ≤ sim.top.mem.stop.toNat
  user : sim.top.mem.stop.toNat < 2 ^ 63

section Alloc
variable {sim : Sim} {v : Vec} {n : Uint}

/-- There are places for the new entries. -/
theorem simF_vec_alloc_within (room : v.n_used + n ≤ v.n_alloc) (fuel : Nat) :
    simF_vec_alloc fuel sim v n = some (v.n_used, sim, { v with n_used := v.n_used + n }) := by
  rw [simF_vec_alloc, F_ensure_capacity, if_pos room]
  rfl

theorem simF_vec_alloc_beyond (full : ¬ v.n_used + n ≤ v.n_alloc) (fuel : Nat) :
    simF_vec_alloc fuel sim v n = (Doubling.grow fuel (firstCapacity v.n_alloc) (n + v.n_used)).bind fun na =>
      (growBands na v.n_used sim v.bands).map fun r => (v.n_used, r.1, ⟨na, v.n_used + n, r.2⟩) := by
  rw [simF_vec_alloc, F_ensure_capacity, if_neg full]
  cases Doubling.grow fuel (firstCapacity v.n_alloc) (n + v.n_used) with
  | none => rfl
  | some na =>
    simp only [Option.bind_eq_bind, Option.bind_some]
    cases growBands na v.n_used sim v.bands <;> rfl

theorem sum_toNat (whole : v.n_used.toNat + n.toNat < 2 ^ 32) : (v.n_used + n).toNat = v.n_used.toNat + n.toNat := by
  rw [BitVec.toNat_add, Nat.mod_eq_of_lt whole]

/-- The pointers of the bands themselves. -/
theorem zip_ptr {bands : List Band} : ∀ q ∈ bands.zip (bands.map Band.ptr), q.2 = q.1.ptr := by
  intro q mem
  obtain ⟨i, i_lt, rfl⟩ := List.mem_iff_getElem.mp mem
  rw [List.getElem_zip, List.getElem_map]

theorem grown_within (g : Growable sim v) (whole : v.n_used.toNat + n.toNat < 2 ^ 32)
    (room : v.n_used.toNat + n.toNat ≤ v.n_alloc.toNat) : Grown sim v n v.n_used sim { v with n_used := v.n_used + n } where
  ret := rfl
  n_used := sum_toNat whole
  capacity := by
    rw [sum_toNat whole]
    exact room
  stride := rfl
  null := by
    intro q mem
    rw [zip_ptr q mem]
  blocks := ⟨g.blocks.taken, g.blocks.own⟩
  holds := by
    intro q mem o _
    rw [zip_ptr q (List.mem_filter.mp mem).1]

section Growth
variable {na : Uint}

/-- The new blocks lie apart and behind the old ones, and hold what the old ones held. -/
theorem grown_beyond (g : Growable sim v) (whole : v.n_used.toNat + n.toNat < 2 ^ 32)
    (enough : (n + v.n_used).toNat ≤ na.toNat) (counts : ∀ b ∈ v.bands, b.ptr ≠ 0 → b.room na < 2 ^ 32)
    (given : ∀ q ∈ v.live (cutBands na sim.top.mem v.bands).1, q.2 ≠ 0) :
    Grown sim v n v.n_used
      (sim.framed (cutBands na sim.top.mem v.bands).2
        (Gather.moves sim.bytes ((v.live (cutBands na sim.top.mem v.bands).1).map (moveOf v.n_used))))
      ⟨na, v.n_used + n, v.bands.zipWith (fun b p => { b with ptr := p }) (cutBands na sim.top.mem v.bands).1⟩ := by
  obtain ⟨ptrs, strides⟩ := zipWith_ptr (cutBands_length na sim.top.mem v.bands)
  obtain ⟨each, order⟩ := cutBands_spec g.inside g.user given
  obtain ⟨stop, -, -, before⟩ := cutBands_region g.inside g.user given
  have bytes (q : Band × Word) (mem : q ∈ v.live (cutBands na sim.top.mem v.bands).1) : bandBytes na q.1 = q.1.room na := by
    rw [bandBytes_eq, Nat.mod_eq_of_lt (counts q.1 (Vec.live_mem mem).1 (Vec.live_mem mem).2)]
  have null : ∀ q ∈ v.bands.zip (cutBands na sim.top.mem v.bands).1, q.1.ptr = 0 ↔ q.2 = 0 := by
    intro q mem
    refine ⟨cutBands_zero q mem, fun zero => ?_⟩
    by_contra some_ptr
    exact given q (List.mem_filter.mpr ⟨mem, decide_eq_true some_ptr⟩) zero
  have sum : (n + v.n_used).toNat = v.n_used.toNat + n.toNat := by
    rw [BitVec.add_comm, sum_toNat whole]
  refine ⟨rfl, sum_toNat whole, by rw [sum_toNat whole]; simp only; omega, strides, ?_, ?_, ?_⟩
  · rw [ptrs]
    exact null
  · rw [blocks_zip null, Sim.framed_top]
    refine ⟨fun q mem => .inl ?_, order.imp_of_mem fun {q q'} mem _ le => .inl ?_⟩
    · rw [← bytes q mem]
      exact before q mem
    · rwa [← bytes q mem]
  · rw [ptrs]
    intro q mem o low
    have size (q : Band × Word) (mem : q ∈ v.live (cutBands na sim.top.mem v.bands).1) :=
      @moveOf_n na v.n_used q (counts q.1 (Vec.live_mem mem).1 (Vec.live_mem mem).2) (by omega)
    refine Gather.moves_inside ?_ ?_ (List.mem_map_of_mem mem) (by rwa [(size q mem).1])
    · rw [List.forall_mem_map]
      intro q mem
      rw [List.forall_mem_map]
      intro q' mem'
      have apart := g.blocks.taken q'.1 (Vec.live_mem mem').1 (Vec.live_mem mem').2
      have entries : q'.1.room v.n_used ≤ q'.1.room v.n_alloc := Nat.mul_le_mul_left _ g.used
      have inside := g.inside
      have place := each q mem
      have := size q mem
      rw [bytes q mem] at place
      rw [(size q mem).1, (size q' mem').1]
      unfold BytesApart at apart
      simp only [moveOf]
      omega
    · rw [List.pairwise_map]
      refine order.imp_of_mem fun {q q'} mem _ le => .inl ?_
      rw [bytes q mem] at le
      rw [(size q mem).1]
      have := size q mem
      simp only [moveOf]
      omega

/-- What growth leaves tells that no byte count wrapped and the blocks fit. -/
theorem fits_of_grown {ret : Uint} {sim' : Sim} {v' : Vec} (g : Growable sim v)
    (grown_bands : growBands na v.n_used sim v.bands = some (sim', v'.bands)) (capacity : v'.n_alloc = na)
    (grown : Grown sim v n ret sim' v') :
    (∀ b ∈ v.bands, b.ptr ≠ 0 → b.room na < 2 ^ 32) ∧ BandsFit na sim.top.mem.stop.toNat sim.top.mem.ptr.toNat v.bands := by
  obtain ⟨ptrs, -⟩ := growBands_some grown_bands
  have null := grown.null
  rw [ptrs] at null
  have given : ∀ q ∈ v.live (cutBands na sim.top.mem v.bands).1, q.2 ≠ 0 := by
    intro q mem
    obtain ⟨pair, some_ptr⟩ := List.mem_filter.mp mem
    exact fun zero => of_decide_eq_true some_ptr ((null q pair).mpr zero)
  rw [growBands_given given] at grown_bands
  obtain ⟨same_sim, same_bands⟩ := Prod.mk.inj (Option.some.inj grown_bands)
  have blocks : Blocks sim' ⟨na, v'.n_used, v'.bands⟩ := by
    have blocks := grown.blocks
    exact ⟨capacity ▸ blocks.taken, capacity ▸ blocks.own⟩
  rw [← same_sim, ← same_bands, blocks_zip null, Sim.framed_top] at blocks
  obtain ⟨stop, -, -, -⟩ := cutBands_region g.inside g.user given
  have free := blocks.1
  rw [stop] at free
  have counts := counts_of_apart g.inside g.user given blocks.2 free
  exact ⟨counts, (bandsFit_iff g.positive g.inside g.user counts).mp given⟩

end Growth

/-- `simF_vec_alloc` ends, and the vector has grown or is as it was, exactly where its sums and products
fit 32 bits, some capacity is large enough, and the frame has room. -/
theorem simF_vec_alloc_iff (g : Growable sim v) : Allocates sim v n ↔ GrowFits sim v n := by
  have self (same : v.n_used + n = v.n_used) : (v.n_used + n).toNat = v.n_used.toNat + n.toNat := by
    have value := congrArg BitVec.toNat same
    have := n.isLt
    rw [BitVec.toNat_add] at value ⊢
    omega
  constructor
  · rintro ⟨fuel, ret, sim', v', result, outcome⟩
    by_cases room : v.n_used + n ≤ v.n_alloc
    · rw [simF_vec_alloc_within room] at result
      cases result
      have sum : (v.n_used + n).toNat = v.n_used.toNat + n.toNat := by
        obtain grown | same := outcome
        · exact grown.n_used
        · exact self (congrArg Vec.n_used same)
      have small := (v.n_used + n).isLt
      have le := BitVec.le_def.mp room
      exact ⟨by omega, .inl (by omega)⟩
    · rw [simF_vec_alloc_beyond room] at result
      obtain ⟨na, loop, rest⟩ := Option.bind_eq_some_iff.mp result
      obtain ⟨⟨sim1, bands⟩, grown_bands, same⟩ := Option.map_eq_some_iff.mp rest
      cases same
      have first := Doubling.grow_first loop
      obtain grown | same := outcome
      · have sum := grown.n_used
        simp only at sum
        have small := (v.n_used + n).isLt
        exact ⟨by omega, .inr ⟨na, first, fits_of_grown g grown_bands rfl grown⟩⟩
      · have enough := first.ge
        rw [show na = v.n_alloc from congrArg Vec.n_alloc same, BitVec.add_comm] at enough
        exact absurd (BitVec.le_def.mpr enough) room
  · rintro ⟨whole, room | ⟨na, first, counts, fit⟩⟩
    · have within : v.n_used + n ≤ v.n_alloc := by
        rw [BitVec.le_def, sum_toNat whole]
        exact room
      exact ⟨0, _, _, _, simF_vec_alloc_within within 0, .inl (grown_within g whole room)⟩
    · by_cases within : v.n_used + n ≤ v.n_alloc
      · have room := BitVec.le_def.mp within
        rw [sum_toNat whole] at room
        exact ⟨0, _, _, _, simF_vec_alloc_within within 0, .inl (grown_within g whole room)⟩
      · have given := (bandsFit_iff g.positive g.inside g.user counts).mpr fit
        refine ⟨33, _, _, _, ?_, .inl (grown_beyond g whole first.ge counts given)⟩
        rw [simF_vec_alloc_beyond within, first.grow (by decide), Option.bind_some, growBands_given given]
        rfl

end Alloc

namespace Rows

theorem growable_three : Growable sim three where
  used := by decide
  blocks := by
    constructor
    · rw [sim_ptr, sim_stop]
      refine List.forall_mem_cons.mpr ⟨fun _ => .inl (by decide), List.forall_mem_singleton.mpr fun some_ptr => ?_⟩
      exact absurd rfl some_ptr
    · refine List.pairwise_cons.mpr ⟨?_, List.pairwise_singleton _ _⟩
      exact List.forall_mem_singleton.mpr fun _ some_ptr => absurd rfl some_ptr
  positive := by
    rw [sim_ptr]
    decide
  inside := by
    rw [sim_ptr, sim_stop]
    decide
  user := by
    rw [sim_stop]
    decide

theorem simF_vec_alloc_iff_three : Allocates sim three 5 ↔ GrowFits sim three 5 := simF_vec_alloc_iff growable_three

/-- There is no room for 64 entries of the first band, which is then copied to `NULL`. -/
theorem not_allocates_three : ¬ ∀ (sim : Sim) (v : Vec) (n : Uint), Growable sim v → Allocates sim v n := by
  intro always
  obtain ⟨fuel, ret, sim', v', result, -⟩ := always sim three 33 growable_three
  have beyond : ¬ three.n_used + 33 ≤ three.n_alloc := by decide
  have full : (growBands 64 three.n_used sim three.bands).isNone = true := by decide +kernel
  rw [simF_vec_alloc_beyond beyond] at result
  obtain ⟨na, loop, rest⟩ := Option.bind_eq_some_iff.mp result
  have capacity : na = 64 := by
    obtain _ | _ | _ | _ | _ | fuel := fuel
    case succ.succ.succ.succ.succ => exact (Option.some.inj loop).symm
    all_goals cases loop
  subst capacity
  rw [Option.isNone_iff_eq_none.mp full] at rest
  cases rest

end Rows
end M2.Mem
