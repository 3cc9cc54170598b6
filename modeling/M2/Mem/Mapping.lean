import M2.Mem.Savepoint

/-!
# The mapping of a sim

Where `sim_create` has put the regions and the record, and where the blocks of later allocations lie. The
outcome of the reservation for the record is not looked at, so the record is inside what the static region
has given away exactly where it fits the region.
-/
namespace M2.Mem

/-- The regions lie apart inside of the mapping, and the record inside of what the static region has given
away. -/
structure Sim.Mapped (sim : Sim) (mapping size : Nat) : Prop where
  apart : ∀ h h', sim.Has h → sim.Has h' → h ≠ h' → (sim.home h).Apart (sim.home h')
  inside : ∀ h, sim.Has h → mapping ≤ (sim.home h).mem.toNat ∧ (sim.home h).stop.toNat ≤ mapping + size
  sizes : ∀ h, sim.Has h → (sim.home h).stop.toNat = (sim.home h).mem.toNat + sim.rsize.toNat
  record : sim.stat.mem.toNat + (72 + 48 * sim.nframe.toNat) ≤ sim.stat.ptr.toNat
  given : sim.stat.ptr.toNat ≤ sim.stat.stop.toNat

/-- A block inside of its own region, not over the record. -/
structure Sim.Places (sim : Sim) (b : Block) : Prop where
  has : sim.Has b.home
  low : (sim.home b.home).mem.toNat ≤ b.start
  high : b.start + b.size ≤ (sim.home b.home).stop.toNat
  clear : sim.stat.mem.toNat + (72 + 48 * sim.nframe.toNat) ≤ b.start ∨ b.start + b.size ≤ sim.stat.mem.toNat
  others : ∀ h, sim.Has h → h ≠ b.home → b.start + b.size ≤ (sim.home h).mem.toNat ∨ (sim.home h).stop.toNat ≤ b.start

/-! ## The bounds of the regions -/

/-- A sim whose regions lie where those of another one do. -/
structure Sim.SameBounds (sim' sim : Sim) : Prop where
  nframe : sim'.nframe = sim.nframe
  rsize : sim'.rsize = sim.rsize
  home : ∀ h, (sim'.home h).SameBounds (sim.home h)

theorem Sim.SameBounds.refl (sim : Sim) : sim.SameBounds sim := ⟨rfl, rfl, fun _ => ⟨rfl, rfl⟩⟩

theorem Sim.SameBounds.trans {sim sim' sim'' : Sim} (second : sim''.SameBounds sim') (first : sim'.SameBounds sim) :
    sim''.SameBounds sim :=
  ⟨second.nframe.trans first.nframe, second.rsize.trans first.rsize, fun h =>
    ⟨(second.home h).1.trans (first.home h).1, (second.home h).2.trans (first.home h).2⟩⟩

/-- The fields the bounds depend on. -/
theorem Sim.SameBounds.of_frames {sim sim' : Sim} (nframe : sim'.nframe = sim.nframe) (rsize : sim'.rsize = sim.rsize)
    (stat : sim'.stat.SameBounds sim.stat) (vstack : sim'.vstack.SameBounds sim.vstack)
    (frames : ∀ i, (sim'.fstack i).mem.SameBounds (sim.fstack i).mem) : sim'.SameBounds sim := by
  refine ⟨nframe, rsize, fun h => ?_⟩
  cases h with
  | stat => exact stat
  | frame i => exact frames i
  | vstack => exact vstack

theorem Sim.SameBounds.setTop {sim : Sim} {f : Frame} (mem : f.mem.SameBounds sim.top.mem) : (sim.setTop f).SameBounds sim := by
  refine .of_frames rfl rfl ⟨rfl, rfl⟩ ⟨rfl, rfl⟩ fun i => ?_
  rw [Sim.setTop_fstack]
  split
  · rename_i top
    rw [top]
    exact mem
  · exact ⟨rfl, rfl⟩

theorem Sim.SameBounds.bytes {sim sim' : Sim} (same : sim'.SameBounds sim) (bytes : Bytes) :
    ({ sim' with bytes } : Sim).SameBounds sim := by
  refine ⟨same.nframe, same.rsize, fun h => ?_⟩
  have home := same.home h
  cases h <;> exact home

theorem reg_alloc_bounds (r : Region) (sz align : Word) : (reg_alloc r sz align).2.SameBounds r := by
  unfold reg_alloc
  split <;> exact ⟨rfl, rfl⟩

theorem sim_alloc_bounds (sim : Sim) (sz align : Word) (lifetime : Lifetime) :
    (sim_alloc sim sz align lifetime).2.SameBounds sim := by
  cases lifetime with
  | SIM_STATIC => exact .of_frames rfl rfl (reg_alloc_bounds _ _ _) ⟨rfl, rfl⟩ fun _ => ⟨rfl, rfl⟩
  | SIM_FRAME => exact .setTop (reg_alloc_bounds _ _ _)
  | SIM_VSTACK => exact .of_frames rfl rfl ⟨rfl, rfl⟩ (reg_alloc_bounds _ _ _) fun _ => ⟨rfl, rfl⟩
  | other => exact .refl sim

theorem sim_savepoint_bounds (sim : Sim) : (sim_savepoint sim).2.SameBounds sim := by
  have mem := reg_alloc_bounds sim.top.mem (sim.vstack.ptr - sim.vstack.mem) 64
  unfold sim_savepoint
  dsimp only
  split
  · exact .refl sim
  · split
    · exact .setTop mem
    · exact Sim.SameBounds.bytes (.setTop mem) _

theorem sim_up_bounds (sim : Sim) (fp : Uint) : (sim_up sim fp).2.SameBounds sim := by
  unfold sim_up
  split <;> exact .of_frames rfl rfl ⟨rfl, rfl⟩ ⟨rfl, rfl⟩ fun _ => ⟨rfl, rfl⟩

theorem sim_reload_bounds (sim : Sim) : (sim_reload sim).2.SameBounds sim := by
  unfold sim_reload
  dsimp only
  split <;> exact .of_frames rfl rfl ⟨rfl, rfl⟩ ⟨rfl, rfl⟩ fun _ => ⟨rfl, rfl⟩

theorem sim_load_bounds (sim : Sim) (fp : Uint) : (sim_load sim fp).2.SameBounds sim := by
  by_cases less : sim.fp < fp
  · rw [sim_load_error less]
    exact .refl sim
  · rw [sim_load_ok less]
    exact (sim_reload_bounds _).trans (.of_frames rfl rfl ⟨rfl, rfl⟩ ⟨rfl, rfl⟩ fun _ => ⟨rfl, rfl⟩)

theorem f_enter_same (sim : Sim) : (f_enter sim).SameBounds sim := ⟨rfl, rfl, f_enter_bounds sim⟩

theorem sim_enter_bounds (sim : Sim) : (sim_enter sim).2.SameBounds sim := by
  unfold sim_enter
  split
  · exact .refl sim
  · exact (f_enter_same _).trans (.of_frames rfl rfl ⟨rfl, rfl⟩ ⟨rfl, rfl⟩ fun _ => ⟨rfl, rfl⟩)

theorem sim_branch_bounds (sim : Sim) : (sim_branch sim).2.SameBounds sim := by
  unfold sim_branch
  split
  · exact .refl sim
  · exact (sim_savepoint_bounds _).trans (.setTop ⟨rfl, rfl⟩)

theorem sim_enter_branch_bounds (sim : Sim) (fp : Uint) : (sim_enter_branch sim fp).2.SameBounds sim := by
  have loaded : (enter_branch_load sim fp).2.SameBounds sim := by
    unfold enter_branch_load
    split
    · exact .refl sim
    · exact sim_load_bounds sim fp
  rcases sim_enter_branch_cases sim fp with ⟨-, same⟩ | ⟨-, entered⟩
  · rw [same]
    exact loaded
  · rw [entered]
    exact (sim_enter_bounds _).trans loaded

theorem State.entering_sim (s : State) (outcome : Status × Sim) : (s.entering outcome).sim = outcome.2 := by
  unfold State.entering
  split <;> rfl

theorem State.taking_sim (s : State) (sz : Word) (home : Option Home) (outcome : Option Word × Sim) :
    (s.taking sz home outcome).sim = outcome.2 := by
  rcases outcome with ⟨_ | p, sim⟩ <;> cases home <;> rfl

/-- No call moves a region. -/
theorem State.call_bounds (s : State) (c : Call) : (s.call c).sim.SameBounds s.sim := by
  cases c with
  | alloc sz align lifetime =>
    rw [State.call, State.taking_sim]
    exact sim_alloc_bounds _ _ _ _
  | savepoint => exact sim_savepoint_bounds s.sim
  | branch => exact sim_branch_bounds s.sim
  | up fp => exact sim_up_bounds s.sim fp
  | load fp => exact sim_load_bounds s.sim fp
  | reload => exact sim_reload_bounds s.sim
  | enter =>
    rw [State.call, State.entering_sim]
    exact sim_enter_bounds s.sim
  | enter_branch fp =>
    rw [State.call, State.entering_sim]
    exact sim_enter_branch_bounds s.sim fp
  | write address value => exact Sim.SameBounds.bytes (.refl s.sim) _

theorem State.Run.bounds {condition : State → Call → Prop} {s t : State} (run : State.Run condition s t) :
    t.sim.SameBounds s.sim := by
  induction run with
  | refl => exact .refl s.sim
  | tail _ step ih =>
    obtain ⟨c, -, rfl⟩ := step
    exact (State.call_bounds _ c).trans ih

/-! ## Creation -/

section Creation
variable {vm_map_probe : Word → Word} {bytes : Bytes} {nframe rsize : Uint} {sim : Sim}

/-- Where the record fits, the regions are inside of the mapping. -/
theorem sim_create_inside (mapped : ∀ size, (vm_map_probe size).toNat + size.toNat ≤ 2 ^ 64)
    (created : sim_create vm_map_probe bytes nframe rsize = some sim) (fits : 72 + 48 * nframe.toNat < rsize.toNat) {h : Home}
    (present : sim.Has h) :
    (vm_map_probe (MAPPING_SIZE nframe rsize)).toNat ≤ (sim.home h).mem.toNat ∧
      (sim.home h).stop.toNat ≤ (vm_map_probe (MAPPING_SIZE nframe rsize)).toNat + (MAPPING_SIZE nframe rsize).toNat ∧
      (sim.home h).stop.toNat = (sim.home h).mem.toNat + rsize.toNat := by
  obtain ⟨base, rfl, cut, low, high⟩ := sim_create_cut mapped created fits
  have bounds := f_enter_bounds (newSim base bytes nframe rsize) h
  obtain ⟨start, stop, -⟩ := @newSim_home base bytes nframe rsize cut fits h present
  have number : h.number nframe.toNat ≤ nframe.toNat + 1 := @Home.number_le (newSim base bytes nframe rsize) h present
  have whole : rsize.toNat * (h.number nframe.toNat + 1) ≤ rsize.toNat * (nframe.toNat + 2) := Nat.mul_le_mul_left _ (by omega)
  rw [Nat.mul_add, Nat.mul_one] at whole
  rw [bounds.1, bounds.2]
  omega

/-- A record inside of what the static region has given away fits the region. -/
theorem fits_of_record (created : sim_create vm_map_probe bytes nframe rsize = some sim)
    (record : sim.stat.mem.toNat + (72 + 48 * sim.nframe.toNat) ≤ sim.stat.ptr.toNat) :
    72 + 48 * nframe.toNat < rsize.toNat := by
  obtain ⟨nframe_eq, -⟩ := sim_create_sizes created
  unfold sim_create at created
  simp only [ne_eq, ite_not] at created
  split at created
  case isFalse => cases created
  split at created
  · cases created
  cases created
  generalize ALIGN _ (size_t rsize) = base at record
  have start : (reg_alloc (reg_init base (size_t rsize)) (recordSize nframe) 8).2.mem = base := (reg_alloc_bounds _ _ _).1
  have reserved : ∀ r, reg_alloc (reg_init base (size_t rsize)) (recordSize nframe) 8 = r →
      base.toNat + (72 + 48 * nframe.toNat) ≤ r.2.ptr.toNat := by
    rintro r rfl
    have record : (reg_alloc (reg_init base (size_t rsize)) (recordSize nframe) 8).2.mem.toNat + (72 + 48 * nframe.toNat) ≤
        (reg_alloc (reg_init base (size_t rsize)) (recordSize nframe) 8).2.ptr.toNat := record
    rwa [start] at record
  have stop : (base + size_t rsize).toNat ≤ base.toNat + rsize.toNat := by
    rw [BitVec.toNat_add, size_t_toNat]
    exact Nat.mod_le _ _
  unfold reg_alloc bump reg_init at reserved
  dsimp only at reserved
  split at reserved
  · rename_i p ptr bumped
    split at bumped
    · rename_i below
      cases bumped
      have le := reserved _ rfl
      have below := BitVec.lt_def.mp below
      simp only at le
      omega
    · cases bumped
  · have le := reserved _ rfl
    simp only at le
    omega

end Creation

/-! ## Runs -/

/-- Under the invariant the regions of a sim lie where they were cut. -/
theorem State.Inv.mapped {s : State} (inv : s.Inv) {sim : Sim} (same : s.sim.SameBounds sim) {mapping size : Nat}
    (inside : ∀ h, sim.Has h → mapping ≤ (sim.home h).mem.toNat ∧ (sim.home h).stop.toNat ≤ mapping + size ∧
      (sim.home h).stop.toNat = (sim.home h).mem.toNat + sim.rsize.toNat) : s.sim.Mapped mapping size := by
  have has : ∀ h, s.sim.Has h → sim.Has h := by
    intro h present
    cases h with
    | frame i =>
      have present : i < s.sim.nframe.toNat := present
      rwa [same.nframe] at present
    | _ => trivial
  refine ⟨inv.laid.apart, fun h present => ?_, fun h present => ?_, inv.record, (inv.laid.sound .stat trivial).ptr_le⟩
  · rw [(same.home h).1, (same.home h).2]
    exact ⟨(inside h (has h present)).1, (inside h (has h present)).2.1⟩
  · rw [(same.home h).1, (same.home h).2, same.rsize]
    exact (inside h (has h present)).2.2

/-- An allocation that does not wrap returns a block of its own region, not over the record. -/
theorem State.Inv.places {s : State} (inv : s.Inv) {sz align : Word} {lifetime : Lifetime} {p : Word}
    (noWrap : s.NoWrap (.alloc sz align lifetime)) (given : (sim_alloc s.sim sz align lifetime).1 = some p) :
    ∃ h, s.sim.target lifetime = some h ∧ s.sim.Places ⟨h, p.toNat, sz.toNat⟩ := by
  cases target : s.sim.target lifetime with
  | none =>
    rw [sim_alloc_none target] at given
    cases given
  | some h =>
    have present := target_has inv.laid target
    have sound := inv.laid.sound h present
    rw [sim_alloc_some target] at given
    obtain ⟨r, taken⟩ : ∃ r, reg_alloc (s.sim.home h) sz align = (some p, r) := ⟨_, Prod.ext given rfl⟩
    obtain ⟨-, -, low, next, below⟩ := reg_alloc_some (noWrap h target) taken
    have mem_le := sound.mem_le
    have record := inv.record
    have stat_le := (inv.laid.sound .stat trivial).ptr_le
    refine ⟨h, rfl, present, by simp only; omega, by simp only; omega, ?_, fun h' present' other => ?_⟩
    · by_cases stat : h = .stat
      · subst stat
        exact .inl (record.trans low)
      · have apart := inv.laid.apart h .stat present trivial stat
        have home : s.sim.home .stat = s.sim.stat := rfl
        unfold Region.Apart at apart
        rw [home] at apart stat_le
        simp only
        omega
    · have apart := inv.laid.apart h h' present present' (Ne.symm other)
      unfold Region.Apart at apart
      simp only
      omega

/-- The regions and the record of a created sim lie as they should exactly where the record fits; then they do
in every run in which no allocation wraps, and each block that is returned lies in its own region and not over
the record. -/
theorem sim_create_mapped_iff {vm_map_probe : Word → Word} {bytes : Bytes} {nframe rsize : Uint} {sim : Sim}
    (mapped : ∀ size, (vm_map_probe size).toNat + size.toNat ≤ 2 ^ 64) (frames : 0 < nframe.toNat)
    (created : sim_create vm_map_probe bytes nframe rsize = some sim) :
    (sim.Mapped (vm_map_probe (MAPPING_SIZE nframe rsize)).toNat (MAPPING_SIZE nframe rsize).toNat ↔
        72 + 48 * nframe.toNat < rsize.toNat) ∧
      (72 + 48 * nframe.toNat < rsize.toNat →
        ∀ t, State.Run (fun s c => s.Legal c ∧ s.NoWrap c) ⟨sim, [], fun _ => none⟩ t →
          t.sim.Mapped (vm_map_probe (MAPPING_SIZE nframe rsize)).toNat (MAPPING_SIZE nframe rsize).toNat ∧
            ∀ sz align lifetime p, t.NoWrap (.alloc sz align lifetime) → (sim_alloc t.sim sz align lifetime).1 = some p →
              ∃ h, t.sim.target lifetime = some h ∧ t.sim.Places ⟨h, p.toNat, sz.toNat⟩) := by
  obtain ⟨nframe_eq, rsize_eq⟩ := sim_create_sizes created
  have run_inv (fits : 72 + 48 * nframe.toNat < rsize.toNat) (t : State)
      (run : State.Run (fun s c => s.Legal c ∧ s.NoWrap c) ⟨sim, [], fun _ => none⟩ t) : t.Inv := by
    have start : State.Created ⟨sim, [], fun _ => none⟩ :=
      ⟨vm_map_probe, bytes, nframe, rsize, mapped, by omega, created, rfl, rfl⟩
    refine run.inv (start.inv ?_)
    unfold Sim.RecordFits
    rw [nframe_eq, rsize_eq]
    exact ⟨frames, fits⟩
  have run_mapped (fits : 72 + 48 * nframe.toNat < rsize.toNat) (t : State)
      (run : State.Run (fun s c => s.Legal c ∧ s.NoWrap c) ⟨sim, [], fun _ => none⟩ t) :
      t.sim.Mapped (vm_map_probe (MAPPING_SIZE nframe rsize)).toNat (MAPPING_SIZE nframe rsize).toNat := by
    refine (run_inv fits t run).mapped run.bounds fun h present => ?_
    rw [rsize_eq]
    exact sim_create_inside mapped created fits present
  refine ⟨⟨fun lies => fits_of_record created lies.record, fun fits => run_mapped fits _ .refl⟩, fun fits t run => ?_⟩
  exact ⟨run_mapped fits t run, fun sz align lifetime p noWrap given => (run_inv fits t run).places noWrap given⟩

namespace Mapping

/-- A mapping of four regions of the size. -/
def probe (base : Word) (rsize : Uint) (size : Word) : Word := if size = MAPPING_SIZE 1 rsize then base else 0

theorem probe_mapped {base : Word} {rsize : Uint} (room : base.toNat + (MAPPING_SIZE 1 rsize).toNat ≤ 2 ^ 64) (size : Word) :
    (probe base rsize size).toNat + size.toNat ≤ 2 ^ 64 := by
  unfold probe
  split
  · rename_i eq
    rw [eq]
    exact room
  · rw [show (0 : Word).toNat = 0 from rfl]
    have := size.isLt
    omega

/-- One frame, and regions that the record fits. -/
def roomy : Sim := f_enter (newSim 65536 (fun _ => 0) 1 256)

/-- One frame, and regions of half the size of the record. -/
def narrow : Sim := f_enter (newSim 65536 (fun _ => 0) 1 64)

theorem roomy_created : sim_create (probe 65536 256) (fun _ => 0) 1 256 = some roomy := by
  have mem : probe 65536 256 (MAPPING_SIZE 1 256) = 65536 := if_pos rfl
  have base : ALIGN 65536 (size_t 256) = 65536 := by decide
  rw [sim_create, if_neg (by decide)]
  simp only [mem]
  rw [if_neg (by decide), base]
  rfl

theorem narrow_created : sim_create (probe 65536 64) (fun _ => 0) 1 64 = some narrow := by
  have mem : probe 65536 64 (MAPPING_SIZE 1 64) = 65536 := if_pos rfl
  have base : ALIGN 65536 (size_t 64) = 65536 := by decide
  rw [sim_create, if_neg (by decide)]
  simp only [mem]
  rw [if_neg (by decide), base]
  rfl

theorem sim_create_mapped_iff_roomy :
    (roomy.Mapped (probe 65536 256 (MAPPING_SIZE 1 256)).toNat (MAPPING_SIZE 1 256).toNat ↔ 72 + 48 * (1 : Uint).toNat < (256 : Uint).toNat) ∧
      roomy.Mapped (probe 65536 256 (MAPPING_SIZE 1 256)).toNat (MAPPING_SIZE 1 256).toNat := by
  have both := sim_create_mapped_iff (probe_mapped (by decide)) (by decide) roomy_created
  exact ⟨both.1, both.1.mpr (by decide)⟩

/-- The record is not reserved: the first block of the static region lies over it. -/
theorem not_mapped_narrow : ¬ ∀ (vm_map_probe : Word → Word) (bytes : Bytes) (nframe rsize : Uint) (sim : Sim),
    (∀ size, (vm_map_probe size).toNat + size.toNat ≤ 2 ^ 64) → 0 < nframe.toNat →
      sim_create vm_map_probe bytes nframe rsize = some sim →
        sim.Mapped (vm_map_probe (MAPPING_SIZE nframe rsize)).toNat (MAPPING_SIZE nframe rsize).toNat ∧
          ∀ sz align p, (sim_alloc sim sz align .SIM_STATIC).1 = some p → sim.Places ⟨.stat, p.toNat, sz.toNat⟩ := by
  intro always
  have mapped := (always _ _ _ _ _ (probe_mapped (by decide)) (by decide) narrow_created).1
  exact absurd mapped.record (by decide +kernel)

end Mapping
end M2.Mem
