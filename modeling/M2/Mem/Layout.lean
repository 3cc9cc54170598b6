import M2.Mem.Frames
import Mathlib.Tactic.Linarith

/-!
# The layout of a sim

The regions of a sim lie apart, at multiples of the block size, and each position is in its
region. `sim_create` establishes it where the record of the sim fits the static region; the
operations keep the bounds of the regions and move the positions.
-/
namespace M2.Mem

/-- The regions of a sim. -/
inductive Home where
  | stat
  | frame (i : Nat)
  | vstack
  deriving DecidableEq

def Sim.home (sim : Sim) : Home → Region
  | .stat => sim.stat
  | .frame i => (sim.fstack i).mem
  | .vstack => sim.vstack

def Sim.Has (sim : Sim) : Home → Prop
  | .frame i => i < sim.nframe.toNat
  | _ => True

/-- The region allocations of a lifetime go to. -/
def Sim.target (sim : Sim) : Lifetime → Option Home
  | .SIM_STATIC => some .stat
  | .SIM_FRAME => some (.frame sim.fp.toNat)
  | .SIM_VSTACK => some .vstack
  | .other => none

/-- Two regions share no address. -/
def Region.Apart (r s : Region) : Prop := r.stop.toNat ≤ s.mem.toNat ∨ s.stop.toNat ≤ r.mem.toNat

/-- A region at block boundaries, with its position inside. -/
structure Region.Sound (r : Region) : Prop where
  positive : 0 < r.mem.toNat
  mem_aligned : r.mem.toNat % 64 = 0
  stop_aligned : r.stop.toNat % 64 = 0
  mem_le : r.mem.toNat ≤ r.ptr.toNat
  ptr_le : r.ptr.toNat ≤ r.stop.toNat

/-- The record of the sim fits its static region, and there is a first frame. -/
def Sim.RecordFits (sim : Sim) : Prop :=
  0 < sim.nframe.toNat ∧ 72 + 48 * sim.nframe.toNat < sim.rsize.toNat

structure Sim.Laid (sim : Sim) : Prop where
  top : sim.fp.toNat < sim.nframe.toNat
  sound : ∀ h, sim.Has h → (sim.home h).Sound
  apart : ∀ h h', sim.Has h → sim.Has h' → h ≠ h' → (sim.home h).Apart (sim.home h')
  above : ∀ h, sim.Has h → h ≠ .vstack → (sim.home h).stop.toNat ≤ sim.vstack.mem.toNat

/-- The bounds of a region, without its position. -/
def Region.SameBounds (r s : Region) : Prop := r.mem = s.mem ∧ r.stop = s.stop

theorem Region.SameBounds.apart {r r' s s' : Region} (left : r'.SameBounds r) (right : s'.SameBounds s)
    (apart : r.Apart s) : r'.Apart s' := by
  unfold Region.Apart
  rw [left.1, left.2, right.1, right.2]
  exact apart

theorem Region.Sound.move {r r' : Region} (sound : r.Sound) (same : r'.SameBounds r)
    (mem_le : r.mem.toNat ≤ r'.ptr.toNat) (ptr_le : r'.ptr.toNat ≤ r.stop.toNat) : r'.Sound :=
  ⟨same.1 ▸ sound.positive, same.1 ▸ sound.mem_aligned, same.2 ▸ sound.stop_aligned, same.1 ▸ mem_le,
    same.2 ▸ ptr_le⟩

/-- A sim with the bounds of a laid out sim and its positions inside is laid out. -/
theorem Sim.Laid.move {sim sim' : Sim} (laid : sim.Laid) (top : sim'.fp.toNat < sim'.nframe.toNat)
    (nframe : sim'.nframe = sim.nframe) (bounds : ∀ h, (sim'.home h).SameBounds (sim.home h))
    (inside : ∀ h, sim.Has h → (sim.home h).mem.toNat ≤ (sim'.home h).ptr.toNat ∧
      (sim'.home h).ptr.toNat ≤ (sim.home h).stop.toNat) : sim'.Laid := by
  have has : ∀ h, sim'.Has h → sim.Has h := by
    intro h present
    cases h with
    | frame i =>
      have : i < sim'.nframe.toNat := present
      rwa [nframe] at this
    | _ => trivial
  exact ⟨top,
    fun h present => (laid.sound h (has h present)).move (bounds h) (inside h (has h present)).1
      (inside h (has h present)).2,
    fun h h' present present' differ =>
      (bounds h).apart (bounds h') (laid.apart h h' (has h present) (has h' present') differ),
    fun h present other => by
      rw [(bounds h).2, show sim'.vstack.mem = sim.vstack.mem from (bounds .vstack).1]
      exact laid.above h (has h present) other⟩

theorem Region.Sound.distance {r : Region} (sound : r.Sound) :
    (r.ptr - r.mem).toNat = r.ptr.toNat - r.mem.toNat := by
  rw [BitVec.toNat_sub]
  have := sound.mem_le
  have := r.ptr.isLt
  omega

/-- The sim with another region in the place of one. -/
def Sim.setHome (sim : Sim) : Home → Region → Sim
  | .stat, stat => { sim with stat }
  | .frame i, mem => { sim with fstack := Function.update sim.fstack i { sim.fstack i with mem } }
  | .vstack, vstack => { sim with vstack }

theorem Sim.setHome_home (sim : Sim) (h h' : Home) (r : Region) :
    (sim.setHome h r).home h' = if h' = h then r else sim.home h' := by
  cases h <;> cases h' <;> simp [Sim.setHome, Sim.home, Function.update_apply, apply_ite Frame.mem]

@[simp] theorem Sim.setHome_nframe (sim : Sim) (h : Home) (r : Region) :
    (sim.setHome h r).nframe = sim.nframe := by
  cases h <;> rfl

@[simp] theorem Sim.setHome_fp (sim : Sim) (h : Home) (r : Region) : (sim.setHome h r).fp = sim.fp := by
  cases h <;> rfl

@[simp] theorem Sim.setHome_bytes (sim : Sim) (h : Home) (r : Region) :
    (sim.setHome h r).bytes = sim.bytes := by
  cases h <;> rfl

/-- Storing a region leaves the rest of each frame. -/
theorem Sim.setHome_fstack (sim : Sim) (h : Home) (r : Region) (i : Nat) :
    (sim.setHome h r).fstack i = { sim.fstack i with mem := ((sim.setHome h r).fstack i).mem } := by
  cases h with
  | frame j =>
    by_cases same : i = j
    · subst same
      simp [Sim.setHome]
    · simp [Sim.setHome, same]
  | _ => rfl

theorem sim_alloc_none {sim : Sim} {sz align : Word} {lifetime : Lifetime} (other : sim.target lifetime = none) :
    sim_alloc sim sz align lifetime = (none, sim) := by
  cases lifetime <;> first | rfl | cases other

/-- `sim_alloc` is `reg_alloc` on the region of the lifetime. -/
theorem sim_alloc_some {sim : Sim} {sz align : Word} {lifetime : Lifetime} {h : Home}
    (target : sim.target lifetime = some h) :
    sim_alloc sim sz align lifetime =
      ((reg_alloc (sim.home h) sz align).1, sim.setHome h (reg_alloc (sim.home h) sz align).2) := by
  cases lifetime <;> cases target <;> rfl

/-! ## `sim_create` -/

theorem size_t_toNat (n : Uint) : (size_t n).toNat = n.toNat := by
  rw [size_t, BitVec.toNat_setWidth]
  exact Nat.mod_eq_of_lt (lt_trans n.isLt (by decide))

/-- The start of region `k`. -/
theorem offset_toNat {base : Word} {rsize k : Uint} (room : base.toNat + rsize.toNat * k.toNat < 2 ^ 64) :
    (base + size_t rsize * size_t k).toNat = base.toNat + rsize.toNat * k.toNat := by
  rw [BitVec.toNat_add, BitVec.toNat_mul, size_t_toNat, size_t_toNat, Nat.mod_eq_of_lt, Nat.mod_eq_of_lt]
  · omega
  · rw [Nat.mod_eq_of_lt (by omega)]
    exact room

/-- A size that passes the test of `sim_create` is a multiple of any smaller power of two. -/
theorem rsize_power {rsize : Uint} (power : rsize &&& (rsize - 1) = 0) (least : 64 ≤ rsize.toNat) :
    ∃ k, 6 ≤ k ∧ rsize.toNat = 2 ^ k := by
  have less : (rsize - 1).toNat = rsize.toNat - 1 := by
    rw [BitVec.toNat_sub, show (1 : Uint).toNat = 1 from rfl]
    have := rsize.isLt
    omega
  have zero : rsize.toNat &&& (rsize.toNat - 1) = 0 := by
    have := congrArg BitVec.toNat power
    rwa [BitVec.toNat_and, less] at this
  obtain ⟨k, power⟩ := (Nat.and_sub_one_eq_zero_iff_isPowerOfTwo (by omega)).mp zero
  refine ⟨k, ?_, power⟩
  by_contra small
  have : 2 ^ k ≤ 2 ^ 5 := Nat.pow_le_pow_right (by decide) (by omega)
  omega

theorem f_enter_bounds (sim : Sim) (h : Home) : ((f_enter sim).home h).SameBounds (sim.home h) := by
  cases h with
  | frame i =>
    unfold f_enter Sim.home
    simp only [Sim.setTop_fstack]
    split
    · subst i
      exact ⟨rfl, rfl⟩
    · exact ⟨rfl, rfl⟩
  | _ => exact ⟨rfl, rfl⟩

/-- The regions `sim_create` cuts out of the mapping: number `k` starts at `base + k * rsize`. -/
structure Sim.Cut (sim : Sim) (base : Nat) : Prop where
  base_pos : 0 < base
  block : ∃ q, sim.rsize.toNat = 64 * q ∧ 0 < q
  aligned : base % 64 = 0
  bound : base + sim.rsize.toNat * (sim.nframe.toNat + 2) < 2 ^ 64

def Home.number (nframe : Nat) : Home → Nat
  | .stat => 0
  | .frame i => i + 1
  | .vstack => nframe + 1

theorem Home.number_inj {sim : Sim} {h h' : Home} (present : sim.Has h) (present' : sim.Has h')
    (same : h.number sim.nframe.toNat = h'.number sim.nframe.toNat) : h = h' := by
  cases h <;> cases h' <;> simp only [Home.number, Sim.Has] at * <;> first | rfl | omega | (congr 1; omega)

theorem Home.number_le {sim : Sim} {h : Home} (present : sim.Has h) :
    h.number sim.nframe.toNat ≤ sim.nframe.toNat + 1 := by
  cases h <;> simp only [Home.number, Sim.Has] at * <;> omega

/-- A sim whose regions lie as cut, and whose positions are inside, is laid out. -/
theorem Sim.Cut.laid {sim : Sim} {base : Nat} (cut : sim.Cut base) (top : sim.fp.toNat < sim.nframe.toNat)
    (mem : ∀ h, sim.Has h → (sim.home h).mem.toNat = base + sim.rsize.toNat * h.number sim.nframe.toNat)
    (stop : ∀ h, sim.Has h → (sim.home h).stop.toNat = (sim.home h).mem.toNat + sim.rsize.toNat)
    (inside : ∀ h, sim.Has h → (sim.home h).mem.toNat ≤ (sim.home h).ptr.toNat ∧
      (sim.home h).ptr.toNat ≤ (sim.home h).stop.toNat) : sim.Laid := by
  obtain ⟨q, size, pos⟩ := cut.block
  have order : ∀ h h', sim.Has h → sim.Has h' → h.number sim.nframe.toNat < h'.number sim.nframe.toNat →
      (sim.home h).stop.toNat ≤ (sim.home h').mem.toNat := by
    intro h h' present present' less
    rw [stop h present, mem h present, mem h' present', Nat.add_assoc, ← Nat.mul_succ]
    exact Nat.add_le_add_left (Nat.mul_le_mul_left _ less) base
  refine ⟨top, fun h present => ?_, fun h h' present present' differ => ?_, fun h present other => ?_⟩
  · have start := mem h present
    have finish := stop h present
    have base_pos := cut.base_pos
    have aligned := cut.aligned
    rw [size, Nat.mul_assoc] at start
    exact ⟨by omega, by omega, by omega, (inside h present).1, (inside h present).2⟩
  · rcases Nat.lt_trichotomy (h.number sim.nframe.toNat) (h'.number sim.nframe.toNat) with less | same | more
    · exact .inl (order h h' present present' less)
    · exact absurd (Home.number_inj present present' same) differ
    · exact .inr (order h' h present' present more)
  · refine order h .vstack present trivial (lt_of_le_of_ne (Home.number_le present) fun same => other ?_)
    exact Home.number_inj present trivial same

theorem recordSize_toNat {nframe rsize : Uint} (fits : 72 + 48 * nframe.toNat < rsize.toNat) :
    (recordSize nframe).toNat = 72 + 48 * nframe.toNat := by
  have := rsize.isLt
  rw [recordSize, sizeofSim, sizeofFrame, BitVec.toNat_add, BitVec.toNat_mul, size_t_toNat,
    show (72 : Word).toNat = 72 from rfl, show (48 : Word).toNat = 48 from rfl,
    Nat.mod_eq_of_lt (a := nframe.toNat * 48) (by omega)]
  omega

theorem MAPPING_SIZE_toNat {n r : Uint} (fits : 72 + 48 * n.toNat < r.toNat) :
    (MAPPING_SIZE n r).toNat = r.toNat * (n.toNat + 3) := by
  have := r.isLt
  have bound : r.toNat * (n.toNat + 3) ≤ 2 ^ 32 * 2 ^ 31 := Nat.mul_le_mul (by omega) (by omega)
  rw [MAPPING_SIZE, BitVec.toNat_mul, BitVec.toNat_add, size_t_toNat, size_t_toNat,
    show (3 : Word).toNat = 3 from rfl, Nat.mod_eq_of_lt (a := n.toNat + 3) (by omega), Nat.mod_eq_of_lt (by omega)]

/-- The start, the end and the position of each region of a new sim. -/
theorem newSim_home {base : Word} {bytes : Bytes} {nframe rsize : Uint}
    (cut : (newSim base bytes nframe rsize).Cut base.toNat) (fits : 72 + 48 * nframe.toNat < rsize.toNat)
    {h : Home} (present : (newSim base bytes nframe rsize).Has h) :
    ((newSim base bytes nframe rsize).home h).mem.toNat = base.toNat + rsize.toNat * h.number nframe.toNat ∧
      ((newSim base bytes nframe rsize).home h).stop.toNat =
        ((newSim base bytes nframe rsize).home h).mem.toNat + rsize.toNat ∧
      ((newSim base bytes nframe rsize).home h).ptr.toNat =
        ((newSim base bytes nframe rsize).home h).mem.toNat +
          if h = .stat then 72 + 48 * nframe.toNat else 0 := by
  have below := rsize.isLt
  have bound : base.toNat + rsize.toNat * (nframe.toNat + 2) < 2 ^ 64 := cut.bound
  have stops : ∀ k ≤ nframe.toNat + 1, base.toNat + rsize.toNat * k + rsize.toNat < 2 ^ 64 := by
    intro k le
    have : rsize.toNat * (k + 1) ≤ rsize.toNat * (nframe.toNat + 2) := Nat.mul_le_mul_left _ (by omega)
    rw [Nat.mul_succ] at this
    omega
  have init : ∀ (k : Uint), k.toNat ≤ nframe.toNat + 1 →
      (reg_init (base + size_t rsize * size_t k) (size_t rsize)).mem.toNat = base.toNat + rsize.toNat * k.toNat ∧
        (reg_init (base + size_t rsize * size_t k) (size_t rsize)).stop.toNat =
          base.toNat + rsize.toNat * k.toNat + rsize.toNat := by
    intro k le
    have room := stops k.toNat le
    have start : (base + size_t rsize * size_t k).toNat = base.toNat + rsize.toNat * k.toNat :=
      offset_toNat (by omega)
    refine ⟨start, ?_⟩
    rw [reg_init, BitVec.toNat_add, start, size_t_toNat, Nat.mod_eq_of_lt room]
  cases h with
  | stat =>
    have room := stops 0 (by omega)
    have record := recordSize_toNat fits
    have aligned : ALIGN base 8 = base := ALIGN_of_block cut.aligned
    have stop : (base + size_t rsize).toNat = base.toNat + rsize.toNat := by
      rw [BitVec.toNat_add, size_t_toNat, Nat.mod_eq_of_lt (by omega)]
    have next : (base + recordSize nframe).toNat = base.toNat + (72 + 48 * nframe.toNat) := by
      rw [BitVec.toNat_add, record, Nat.mod_eq_of_lt (by omega)]
    have taken : reg_alloc (reg_init base (size_t rsize)) (recordSize nframe) 8 =
        (some base, ⟨base + recordSize nframe, base + size_t rsize, base⟩) := by
      rw [reg_alloc, bump, reg_init]
      simp only [aligned]
      rw [if_pos]
      rw [BitVec.lt_def, next, stop]
      omega
    simp only [Sim.home, newSim, taken, Home.number]
    refine ⟨by omega, stop, ?_⟩
    rw [next, if_pos trivial]
  | frame i =>
    have inside : i < nframe.toNat := present
    have number : (BitVec.ofNat 32 i + 1).toNat = i + 1 := by
      rw [BitVec.toNat_add, BitVec.toNat_ofNat, show (1 : Uint).toNat = 1 from rfl]
      omega
    obtain ⟨start, stop⟩ := init (BitVec.ofNat 32 i + 1) (by omega)
    rw [number] at start stop
    simp only [Sim.home, newSim, if_pos inside, Home.number]
    refine ⟨start, by omega, ?_⟩
    rw [if_neg (by simp)]
    rfl
  | vstack =>
    have number : (nframe + 1).toNat = nframe.toNat + 1 := by
      rw [BitVec.toNat_add, show (1 : Uint).toNat = 1 from rfl]
      omega
    obtain ⟨start, stop⟩ := init (nframe + 1) (by omega)
    rw [number] at start stop
    simp only [Sim.home, newSim, Home.number]
    refine ⟨start, by omega, ?_⟩
    rw [if_neg (by simp)]
    rfl

theorem sim_create_sizes {vm_map_probe : Word → Word} {bytes : Bytes} {nframe rsize : Uint} {sim : Sim}
    (created : sim_create vm_map_probe bytes nframe rsize = some sim) : sim.nframe = nframe ∧ sim.rsize = rsize := by
  unfold sim_create at created
  simp only [ne_eq, ite_not] at created
  split at created
  case isFalse => cases created
  split at created
  · cases created
  · cases created
    exact ⟨rfl, rfl⟩

/-- What `sim_create` returns where the record fits: a sim cut out of the mapping. -/
theorem sim_create_cut {vm_map_probe : Word → Word} {bytes : Bytes} {nframe rsize : Uint} {sim : Sim}
    (mapped : ∀ size, (vm_map_probe size).toNat + size.toNat ≤ 2 ^ 64)
    (created : sim_create vm_map_probe bytes nframe rsize = some sim) (fits : 72 + 48 * nframe.toNat < rsize.toNat) :
    ∃ base, sim = f_enter (newSim base bytes nframe rsize) ∧ (newSim base bytes nframe rsize).Cut base.toNat ∧
      (vm_map_probe (MAPPING_SIZE nframe rsize)).toNat ≤ base.toNat ∧
      base.toNat + rsize.toNat * (nframe.toNat + 2) ≤
        (vm_map_probe (MAPPING_SIZE nframe rsize)).toNat + (MAPPING_SIZE nframe rsize).toNat := by
  unfold sim_create at created
  simp only [ne_eq, ite_not] at created
  split at created
  case isFalse => cases created
  rename_i power
  split at created
  · cases created
  rename_i mem_ne
  cases created
  have below := rsize.isLt
  have mapping := mapped (MAPPING_SIZE nframe rsize)
  rw [MAPPING_SIZE_toNat fits] at mapping ⊢
  generalize vm_map_probe (MAPPING_SIZE nframe rsize) = mem at mapping mem_ne ⊢
  have mem_pos : 0 < mem.toNat := Nat.pos_of_ne_zero fun zero => mem_ne (BitVec.eq_of_toNat_eq zero)
  obtain ⟨k, six, size⟩ := rsize_power power (by omega)
  have k_le : k ≤ 64 := by
    by_contra large
    have : 2 ^ 65 ≤ 2 ^ k := Nat.pow_le_pow_right (by decide) (by omega)
    omega
  have three : rsize.toNat * (nframe.toNat + 3) = rsize.toNat * (nframe.toNat + 2) + rsize.toNat := Nat.mul_succ _ _
  have two : rsize.toNat ≤ rsize.toNat * (nframe.toNat + 2) := Nat.le_mul_of_pos_right _ (by omega)
  have room : mem.toNat + ((size_t rsize).toNat - 1) < 2 ^ 64 := by
    rw [size_t_toNat]
    omega
  have low := le_ALIGN (by rw [size_t_toNat]; omega) room
  have high := le_add_ALIGN (by rw [size_t_toNat]; omega) room
  rw [size_t_toNat] at high
  have power_dvd := ALIGN_power (n := mem) (m := size_t rsize) k_le (by rw [size_t_toNat, size])
  have block_dvd : 64 ∣ 2 ^ k := (by decide : 64 = 2 ^ 6) ▸ pow_dvd_pow 2 six
  refine ⟨ALIGN mem (size_t rsize), rfl, ⟨by omega, ?_, Nat.mod_eq_zero_of_dvd (block_dvd.trans power_dvd), ?_⟩, low, by omega⟩
  · obtain ⟨q, eq⟩ := block_dvd
    exact ⟨q, by rw [← eq]; exact size, Nat.pos_of_ne_zero fun zero => by
      subst zero
      omega⟩
  · show (ALIGN mem (size_t rsize)).toNat + rsize.toNat * (nframe.toNat + 2) < 2 ^ 64
    omega

/-- `sim_create` lays the sim out, with the record at the start of the static region, where the
record fits and the mapping does not wrap. -/
theorem sim_create_laid {vm_map_probe : Word → Word} {bytes : Bytes} {nframe rsize : Uint} {sim : Sim}
    (mapped : ∀ size, (vm_map_probe size).toNat + size.toNat ≤ 2 ^ 64)
    (created : sim_create vm_map_probe bytes nframe rsize = some sim) (fits : sim.RecordFits) :
    sim.Laid ∧ sim.stat.mem.toNat + (72 + 48 * sim.nframe.toNat) ≤ sim.stat.ptr.toNat ∧
      ∀ i, (sim.fstack i).has_savepoint = false := by
  obtain ⟨nframe_eq, rsize_eq⟩ := sim_create_sizes created
  obtain ⟨frames, record⟩ : 0 < nframe.toNat ∧ 72 + 48 * nframe.toNat < rsize.toNat := by
    rwa [Sim.RecordFits, nframe_eq, rsize_eq] at fits
  obtain ⟨base, rfl, cut, -, -⟩ := sim_create_cut mapped created record
  have homes := fun h present => newSim_home cut record (h := h) present
  have laid : (newSim base bytes nframe rsize).Laid := cut.laid frames (fun h present => (homes h present).1)
    (fun h present => (homes h present).2.1) fun h present => by
      obtain ⟨-, stop, ptr⟩ := homes h present
      rw [ptr, stop]
      split <;> omega
  refine ⟨laid.move frames rfl (f_enter_bounds _) fun h present => ?_, ?_, fun i => ?_⟩
  · have sound := laid.sound h present
    cases h with
    | frame i =>
      simp only [Sim.home, f_enter, Sim.setTop_fstack]
      split
      · rename_i top
        subst top
        exact ⟨le_rfl, sound.mem_le.trans sound.ptr_le⟩
      · exact ⟨sound.mem_le, sound.ptr_le⟩
    | _ => exact ⟨sound.mem_le, sound.ptr_le⟩
  · exact ((homes .stat trivial).2.2).ge
  · simp only [f_enter, Sim.setTop_fstack, newSim]
    split
    · rfl
    · split <;> rfl

end M2.Mem
