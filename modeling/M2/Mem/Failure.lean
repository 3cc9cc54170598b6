import M2.Mem.Savepoint

/-!
# Failing operations

What an operation that returns an error leaves behind. `sim_branch` sets the branch point before
it takes the savepoint, and `sim_load` jumps before it reloads, so these change the sim although
they fail.
-/
namespace M2.Mem

/-- Frame pointer, frame flags and virtual stack are those of `sim`. -/
structure Sim.Kept (sim sim' : Sim) : Prop where
  fp : sim'.fp = sim.fp
  has_savepoint : ∀ i, (sim'.fstack i).has_savepoint = (sim.fstack i).has_savepoint
  has_branchpoint : ∀ i, (sim'.fstack i).has_branchpoint = (sim.fstack i).has_branchpoint
  ptr : sim'.vstack.ptr = sim.vstack.ptr
  contents : ∀ a, sim.vstack.mem.toNat ≤ a → a < sim.vstack.ptr.toNat → sim'.bytes a = sim.bytes a

theorem Sim.Kept.refl (sim : Sim) : sim.Kept sim := ⟨rfl, fun _ => rfl, fun _ => rfl, rfl, fun _ _ _ => rfl⟩

/-- The operations with a status. -/
inductive Operation where
  | savepoint
  | branch
  | up (fp : Uint)
  | load (fp : Uint)
  | reload
  | enter
  | enter_branch (fp : Uint)

def Operation.run (sim : Sim) : Operation → Status × Sim
  | .savepoint => sim_savepoint sim
  | .branch => sim_branch sim
  | .up fp => sim_up sim fp
  | .load fp => sim_load sim fp
  | .reload => sim_reload sim
  | .enter => sim_enter sim
  | .enter_branch fp => sim_enter_branch sim fp

/-- A savepoint of the top frame would find room for the copy. -/
def Sim.Room (sim : Sim) : Prop :=
  (reg_alloc sim.top.mem (sim.vstack.ptr - sim.vstack.mem) 64).1.getD 0 ≠ 0

/-- The operation does not get stuck halfway: a branch point is only missing where the savepoint
can be taken, a jump up only goes to a frame that can be restored (and entered). -/
def Operation.Whole (sim : Sim) : Operation → Prop
  | .branch => sim.top.has_branchpoint = true ∨ sim.top.has_savepoint = false ∧ sim.Room
  | .load fp => sim.fp ≤ fp ∨ (sim.fstack fp.toNat).has_savepoint = true
  | .enter_branch fp =>
    sim.fp ≤ fp ∨
      (sim.fstack fp.toNat).has_savepoint = true ∧ (sim.fstack fp.toNat).has_branchpoint = true ∧
        fp + 1 < sim.nframe
  | _ => True

/-! ## The operations one by one -/

theorem sim_savepoint_ok_iff (sim : Sim) :
    (sim_savepoint sim).1 = .SIM_OK ↔ sim.top.has_savepoint = false ∧ sim.Room := by
  unfold sim_savepoint Sim.Room
  cases has : sim.top.has_savepoint with
  | true => simp [has]
  | false =>
    by_cases null : (reg_alloc sim.top.mem (sim.vstack.ptr - sim.vstack.mem) 64).1.getD 0 = 0
    · simp only [has, Bool.false_eq_true, if_false, null, if_true]
      simp
    · simp only [has, Bool.false_eq_true, if_false, null, ne_eq, not_false_eq_true, and_self]

theorem sim_savepoint_failed {sim : Sim} (failed : (sim_savepoint sim).1 ≠ .SIM_OK) :
    sim.Kept (sim_savepoint sim).2 := by
  have missing := mt (sim_savepoint_ok_iff sim).mpr failed
  unfold sim_savepoint
  cases has : sim.top.has_savepoint with
  | true =>
    simp only [has, if_true]
    exact .refl sim
  | false =>
    have null : (reg_alloc sim.top.mem (sim.vstack.ptr - sim.vstack.mem) 64).1.getD 0 = 0 := by
      by_contra room
      exact missing ⟨has, room⟩
    simp only [has, Bool.false_eq_true, if_false, null, if_true]
    refine ⟨rfl, fun i => ?_, fun i => ?_, rfl, fun _ _ _ => rfl⟩
    · rw [Sim.setTop_fstack]
      split
      · rename_i top
        rw [top]
        exact has.symm
      · rfl
    · rw [Sim.setTop_fstack]
      split
      · rename_i top
        rw [top]
        rfl
      · rfl

theorem sim_up_failed {sim : Sim} {fp : Uint} (failed : (sim_up sim fp).1 ≠ .SIM_OK) :
    sim.Kept (sim_up sim fp).2 := by
  unfold sim_up at failed ⊢
  by_cases less : sim.fp < fp
  · rw [if_pos less]
    exact .refl sim
  · simp [less] at failed

theorem sim_reload_ok_iff (sim : Sim) : (sim_reload sim).1 = .SIM_OK ↔ sim.top.has_savepoint = true := by
  unfold sim_reload
  cases has : sim.top.has_savepoint <;> simp [has]

theorem sim_reload_failed {sim : Sim} (failed : (sim_reload sim).1 ≠ .SIM_OK) : (sim_reload sim).2 = sim := by
  have has : sim.top.has_savepoint = false := by
    rw [← Bool.not_eq_true]
    exact fun has => failed ((sim_reload_ok_iff sim).mpr has)
  unfold sim_reload
  simp [has]

theorem sim_enter_ok_iff (sim : Sim) : (sim_enter sim).1 = .SIM_OK ↔ sim.fp + 1 < sim.nframe := by
  unfold sim_enter
  rw [← BitVec.not_le]
  by_cases overflow : sim.nframe ≤ sim.fp + 1
  · rw [if_pos overflow]
    exact ⟨fun ok => (nomatch ok), fun room => absurd overflow room⟩
  · rw [if_neg overflow]
    exact ⟨fun _ => overflow, fun _ => rfl⟩

theorem sim_enter_failed {sim : Sim} (failed : (sim_enter sim).1 ≠ .SIM_OK) : (sim_enter sim).2 = sim := by
  have overflow : sim.nframe ≤ sim.fp + 1 := by
    rw [← BitVec.not_lt]
    exact mt (sim_enter_ok_iff sim).mpr failed
  unfold sim_enter
  rw [if_pos overflow]

/-- The frames after a load or a reload are those before it. -/
theorem sim_reload_frames (sim : Sim) :
    (sim_reload sim).2.fstack = sim.fstack ∧ (sim_reload sim).2.fp = sim.fp ∧ (sim_reload sim).2.nframe = sim.nframe := by
  unfold sim_reload
  cases has : sim.top.has_savepoint <;> simp [has]

theorem sim_load_frames {sim : Sim} {fp : Uint} (le : ¬ sim.fp < fp) :
    (sim_load sim fp).2.fstack = sim.fstack ∧ (sim_load sim fp).2.fp = fp ∧
      (sim_load sim fp).2.nframe = sim.nframe := by
  rw [sim_load_ok le]
  exact sim_reload_frames { sim with fp }

theorem sim_load_ok_iff {sim : Sim} {fp : Uint} (le : ¬ sim.fp < fp) :
    (sim_load sim fp).1 = .SIM_OK ↔ (sim.fstack fp.toNat).has_savepoint = true := by
  rw [sim_load_ok le, sim_reload_ok_iff]
  rfl

/-- A load that fails keeps the sim exactly where it does not jump. -/
theorem sim_load_failed {sim : Sim} {fp : Uint} (failed : (sim_load sim fp).1 ≠ .SIM_OK) :
    sim.Kept (sim_load sim fp).2 ↔ sim.fp ≤ fp := by
  by_cases less : sim.fp < fp
  · rw [sim_load_error less]
    exact ⟨fun _ => BitVec.le_of_lt less, fun _ => .refl sim⟩
  · constructor
    · intro kept
      rw [← kept.fp, (sim_load_frames less).2.1]
      exact BitVec.le_refl fp
    · intro le
      obtain rfl : sim.fp = fp := BitVec.le_antisymm le (BitVec.not_lt.mp less)
      rw [sim_load_ok less] at failed ⊢
      rw [sim_reload_failed failed]
      exact .refl sim

/-- A branch that fails keeps the sim exactly where the frame has a branch point already. -/
theorem sim_branch_failed {sim : Sim} (failed : (sim_branch sim).1 ≠ .SIM_OK) :
    sim.Kept (sim_branch sim).2 ↔ sim.top.has_branchpoint = true := by
  cases has : sim.top.has_branchpoint with
  | true =>
    simp only [sim_branch, has, if_true, iff_true]
    exact .refl sim
  | false =>
    simp only [sim_branch, has, Bool.false_eq_true, if_false, iff_false] at failed ⊢
    intro kept
    have set := (sim_savepoint_failed failed).has_branchpoint sim.fp.toNat
    rw [kept.has_branchpoint, Sim.setTop_fstack, if_pos rfl] at set
    rw [Sim.top] at has
    simp [has] at set

theorem sim_branch_ok_iff (sim : Sim) :
    (sim_branch sim).1 = .SIM_OK ↔
      sim.top.has_branchpoint = false ∧ sim.top.has_savepoint = false ∧ sim.Room := by
  cases has : sim.top.has_branchpoint with
  | true => simp [sim_branch, has]
  | false =>
    simp only [sim_branch, has, Bool.false_eq_true, if_false, true_and]
    rw [sim_savepoint_ok_iff, Sim.Room, Sim.setTop_top]
    rfl

theorem sim_enter_branch_above {sim : Sim} {fp : Uint} (less : sim.fp < fp) :
    sim_enter_branch sim fp = (.SIM_EFRAME, sim) := by
  have other : fp ≠ sim.fp := by
    rintro rfl
    exact BitVec.lt_irrefl _ less
  rw [sim_enter_branch, enter_branch_load, if_neg other, sim_load_error less]

/-- Entering a branch of the top frame fails before anything is done. -/
theorem sim_enter_branch_top_failed {sim : Sim} (failed : (sim_enter_branch sim sim.fp).1 ≠ .SIM_OK) :
    (sim_enter_branch sim sim.fp).2 = sim := by
  rw [sim_enter_branch, enter_branch_load, if_pos rfl] at failed ⊢
  cases has : sim.top.has_branchpoint with
  | true =>
    simp only [has, if_true] at failed ⊢
    exact sim_enter_failed failed
  | false => simp [has]

/-- Entering a branch of a lower frame that fails has jumped to it. -/
theorem sim_enter_branch_below_fp {sim : Sim} {fp : Uint} (less : fp < sim.fp)
    (failed : (sim_enter_branch sim fp).1 ≠ .SIM_OK) : (sim_enter_branch sim fp).2.fp = fp := by
  have other : fp ≠ sim.fp := by
    rintro rfl
    exact BitVec.lt_irrefl _ less
  have le : ¬ sim.fp < fp := BitVec.not_lt.mpr (BitVec.le_of_lt less)
  have jumped := (sim_load_frames le).2.1
  rcases sim_enter_branch_cases sim fp with ⟨-, same⟩ | ⟨-, entered⟩
  · rw [same, enter_branch_load, if_neg other, jumped]
  · rw [entered] at failed ⊢
    rw [sim_enter_failed failed, enter_branch_load, if_neg other, jumped]

theorem sim_enter_branch_failed {sim : Sim} {fp : Uint} (failed : (sim_enter_branch sim fp).1 ≠ .SIM_OK) :
    sim.Kept (sim_enter_branch sim fp).2 ↔ sim.fp ≤ fp := by
  by_cases above : sim.fp < fp
  · rw [sim_enter_branch_above above]
    exact ⟨fun _ => BitVec.le_of_lt above, fun _ => .refl sim⟩
  by_cases below : fp < sim.fp
  · constructor
    · intro kept
      have jumped := sim_enter_branch_below_fp below failed
      rw [← kept.fp, jumped]
      exact BitVec.le_refl fp
    · exact fun le => absurd le (BitVec.not_le.mpr below)
  · obtain rfl : sim.fp = fp := BitVec.le_antisymm (BitVec.not_lt.mp below) (BitVec.not_lt.mp above)
    rw [sim_enter_branch_top_failed failed]
    exact ⟨fun _ => BitVec.le_refl _, fun _ => .refl sim⟩

/-- Entering a branch of a lower frame works exactly where that frame has both points and there is
a frame to enter. -/
theorem sim_enter_branch_ok_iff {sim : Sim} {fp : Uint} (less : fp < sim.fp) :
    (sim_enter_branch sim fp).1 = .SIM_OK ↔
      (sim.fstack fp.toNat).has_savepoint = true ∧ (sim.fstack fp.toNat).has_branchpoint = true ∧
        fp + 1 < sim.nframe := by
  have other : fp ≠ sim.fp := by
    rintro rfl
    exact BitVec.lt_irrefl _ less
  have le : ¬ sim.fp < fp := BitVec.not_lt.mpr (BitVec.le_of_lt less)
  obtain ⟨frames, fp_eq, nframe⟩ := sim_load_frames le
  have loaded := sim_load_ok_iff le
  rw [sim_enter_branch, enter_branch_load, if_neg other]
  rcases load : sim_load sim fp with ⟨status, sim'⟩
  rw [load] at frames fp_eq nframe loaded
  replace frames : sim'.fstack = sim.fstack := frames
  replace fp_eq : sim'.fp = fp := fp_eq
  replace nframe : sim'.nframe = sim.nframe := nframe
  have top : sim'.top = sim.fstack fp.toNat := by
    simp only [Sim.top, frames, fp_eq]
  have entered := sim_enter_ok_iff sim'
  rw [fp_eq, nframe] at entered
  cases status with
  | SIM_OK =>
    have has := loaded.mp rfl
    simp only [top]
    cases branchpoint : (sim.fstack fp.toNat).has_branchpoint with
    | true => simp only [has, if_true, true_and, entered]
    | false => simp
  | _ =>
    constructor
    · intro ok
      cases ok
    · intro point
      cases loaded.mpr point.1

/-! ## All operations -/

/-- An operation that fails keeps the sim exactly where it does not get stuck halfway. -/
theorem Operation.kept_iff (sim : Sim) (op : Operation) :
    ((op.run sim).1 ≠ .SIM_OK → sim.Kept (op.run sim).2) ↔ op.Whole sim := by
  cases op with
  | savepoint => exact ⟨fun _ => trivial, fun _ => sim_savepoint_failed⟩
  | up fp => exact ⟨fun _ => trivial, fun _ => sim_up_failed⟩
  | reload =>
    refine ⟨fun _ => trivial, fun _ failed => ?_⟩
    rw [Operation.run, sim_reload_failed failed]
    exact .refl sim
  | enter =>
    refine ⟨fun _ => trivial, fun _ failed => ?_⟩
    rw [Operation.run, sim_enter_failed failed]
    exact .refl sim
  | branch =>
    have ok := sim_branch_ok_iff sim
    simp only [Operation.run, Operation.Whole]
    cases has : sim.top.has_branchpoint with
    | true =>
      simp only [true_or, iff_true]
      exact fun failed => (sim_branch_failed failed).mpr has
    | false =>
      simp only [has, true_and] at ok
      rw [← ok]
      simp only [Bool.false_eq_true, false_or]
      constructor
      · intro kept
        by_contra failed
        rw [sim_branch_failed failed, has] at kept
        cases kept failed
      · exact fun ok failed => absurd ok failed
  | load fp =>
    simp only [Operation.run, Operation.Whole]
    by_cases le : sim.fp ≤ fp
    · simp only [le, true_or, iff_true]
      exact fun failed => (sim_load_failed failed).mpr le
    · rw [← sim_load_ok_iff (fun less => le (BitVec.le_of_lt less))]
      simp only [le, false_or]
      constructor
      · intro kept
        by_contra failed
        exact le ((sim_load_failed failed).mp (kept failed))
      · exact fun ok failed => absurd ok failed
  | enter_branch fp =>
    simp only [Operation.run, Operation.Whole]
    by_cases le : sim.fp ≤ fp
    · simp only [le, true_or, iff_true]
      exact fun failed => (sim_enter_branch_failed failed).mpr le
    · rw [← sim_enter_branch_ok_iff (BitVec.not_le.mp le)]
      simp only [le, false_or]
      constructor
      · intro kept
        by_contra failed
        exact le ((sim_enter_branch_failed failed).mp (kept failed))
      · exact fun ok failed => absurd ok failed

/-! ## Branch points and savepoints -/

/-- Every branch point has its savepoint. -/
def Sim.Paired (sim : Sim) : Prop :=
  ∀ i, (sim.fstack i).has_branchpoint = true → (sim.fstack i).has_savepoint = true

theorem Sim.Paired.frames {sim sim' : Sim} (paired : sim.Paired) (same : sim'.fstack = sim.fstack) : sim'.Paired := by
  unfold Sim.Paired
  rw [same]
  exact paired

theorem Sim.Paired.setTop {sim : Sim} (paired : sim.Paired) {f : Frame}
    (top : f.has_branchpoint = true → f.has_savepoint = true) : (sim.setTop f).Paired := by
  intro i
  rw [Sim.setTop_fstack]
  split
  · exact top
  · exact paired i

theorem Sim.Paired.setHome {sim : Sim} (paired : sim.Paired) (h : Home) (r : Region) : (sim.setHome h r).Paired := by
  intro i
  rw [Sim.setHome_fstack]
  exact paired i

theorem Sim.Paired.alloc {sim : Sim} (paired : sim.Paired) (sz align : Word) (lifetime : Lifetime) :
    (sim_alloc sim sz align lifetime).2.Paired := by
  cases target : sim.target lifetime with
  | none =>
    rw [sim_alloc_none target]
    exact paired
  | some h =>
    rw [sim_alloc_some target]
    exact paired.setHome h _

theorem Sim.Paired.enter {sim : Sim} (paired : sim.Paired) : (sim_enter sim).2.Paired := by
  unfold sim_enter
  split
  · exact paired
  · have entered : Sim.Paired { sim with fp := sim.fp + 1 } := paired
    exact entered.setTop fun point => by cases point

theorem Sim.Paired.load {sim : Sim} (paired : sim.Paired) (fp : Uint) : (sim_load sim fp).2.Paired := by
  by_cases less : sim.fp < fp
  · rw [sim_load_error less]
    exact paired
  · exact paired.frames (sim_load_frames less).1

theorem Sim.Paired.enter_branch {sim : Sim} (paired : sim.Paired) (fp : Uint) :
    (sim_enter_branch sim fp).2.Paired := by
  have loaded : (enter_branch_load sim fp).2.Paired := by
    unfold enter_branch_load
    split
    · exact paired
    · exact paired.load fp
  rcases sim_enter_branch_cases sim fp with ⟨-, same⟩ | ⟨-, entered⟩
  · rw [same]
    exact loaded
  · rw [entered]
    exact loaded.enter

/-- A savepoint that is taken sets its flag, one that fails keeps the flags. -/
theorem sim_savepoint_flags (sim : Sim) (i : Nat) :
    ((sim_savepoint sim).2.fstack i).has_branchpoint = (sim.fstack i).has_branchpoint ∧
      ((sim.fstack i).has_savepoint = true → ((sim_savepoint sim).2.fstack i).has_savepoint = true) ∧
      ((sim_savepoint sim).1 = .SIM_OK → i = sim.fp.toNat →
        ((sim_savepoint sim).2.fstack i).has_savepoint = true) := by
  by_cases ok : (sim_savepoint sim).1 = .SIM_OK
  · obtain ⟨has, room⟩ := (sim_savepoint_ok_iff sim).mp ok
    have null : ¬ (reg_alloc sim.top.mem (sim.vstack.ptr - sim.vstack.mem) 64).1.getD 0 = 0 := room
    unfold sim_savepoint
    simp only [has, Bool.false_eq_true, if_false, null, Sim.setTop_fstack]
    by_cases top : i = sim.fp.toNat
    · subst top
      simp only [if_true, implies_true, and_self, and_true]
      rfl
    · simp only [if_neg top]
      exact ⟨trivial, id, fun _ eq => absurd eq top⟩
  · have kept := sim_savepoint_failed ok
    exact ⟨kept.has_branchpoint i, fun has => (kept.has_savepoint i).trans has, fun yes => absurd yes ok⟩

theorem Sim.Paired.savepoint {sim : Sim} (paired : sim.Paired) : (sim_savepoint sim).2.Paired := by
  intro i point
  obtain ⟨same, keeps, -⟩ := sim_savepoint_flags sim i
  exact keeps (paired i (same ▸ point))

theorem Sim.Paired.branch {sim : Sim} (paired : sim.Paired) (whole : Operation.Whole sim .branch) :
    (sim_branch sim).2.Paired := by
  by_cases has : sim.top.has_branchpoint = true
  · rw [sim_branch, if_pos has]
    exact paired
  · have ok : (sim_branch sim).1 = .SIM_OK :=
      (sim_branch_ok_iff sim).mpr ⟨by simpa using has, whole.resolve_left has⟩
    rw [sim_branch, if_neg has] at ok ⊢
    intro i point
    obtain ⟨same, keeps, taken⟩ := sim_savepoint_flags (sim.setTop { sim.top with has_branchpoint := true }) i
    by_cases top : i = sim.fp.toNat
    · exact taken ok top
    · rw [same, Sim.setTop_fstack, if_neg top] at point
      refine keeps ?_
      rw [Sim.setTop_fstack, if_neg top]
      exact paired i point

theorem Sim.Paired.run {sim : Sim} (paired : sim.Paired) {op : Operation} (whole : op.Whole sim) :
    (op.run sim).2.Paired := by
  cases op with
  | savepoint => exact paired.savepoint
  | branch => exact paired.branch whole
  | up fp =>
    unfold Operation.run sim_up
    simp only
    split
    · exact paired
    · exact paired.frames rfl
  | load fp => exact paired.load fp
  | reload => exact paired.frames (sim_reload_frames sim).1
  | enter => exact paired.enter
  | enter_branch fp => exact paired.enter_branch fp

/-- The sims of the runs whose operations satisfy `condition`, with any allocations and writes. -/
inductive Sim.Reached (condition : Sim → Operation → Prop) : Sim → Prop
  | create {vm_map_probe : Word → Word} {bytes : Bytes} {nframe rsize : Uint} {sim : Sim}
      (created : sim_create vm_map_probe bytes nframe rsize = some sim) : Reached condition sim
  | op {sim : Sim} (op : Operation) (reached : Reached condition sim) (met : condition sim op) :
      Reached condition (op.run sim).2
  | alloc {sim : Sim} (sz align : Word) (lifetime : Lifetime) (reached : Reached condition sim) :
      Reached condition (sim_alloc sim sz align lifetime).2
  | write {sim : Sim} (address : Nat) (value : BitVec 8) (reached : Reached condition sim) :
      Reached condition { sim with bytes := Function.update sim.bytes address value }

theorem sim_create_paired {vm_map_probe : Word → Word} {bytes : Bytes} {nframe rsize : Uint} {sim : Sim}
    (created : sim_create vm_map_probe bytes nframe rsize = some sim) : sim.Paired := by
  unfold sim_create at created
  simp only [ne_eq, ite_not] at created
  split at created
  case isFalse => cases created
  split at created
  · cases created
  cases created
  refine Sim.Paired.setTop (fun i point => ?_) (fun point => by cases point)
  have none : ((newSim (ALIGN (vm_map_probe (MAPPING_SIZE nframe rsize)) (size_t rsize)) bytes nframe rsize).fstack
      i).has_branchpoint = false := by
    simp only [newSim]
    split <;> rfl
  rw [none] at point
  cases point

theorem Sim.Reached.paired {sim : Sim} (reached : sim.Reached fun sim op => op.Whole sim) : sim.Paired := by
  induction reached with
  | create created => exact sim_create_paired created
  | op op _ met ih => exact ih.run met
  | alloc sz align lifetime _ ih => exact ih.alloc sz align lifetime
  | write address value _ ih => exact ih.frames rfl

/-- In every sim a failing operation keeps what the client sees exactly where it does not get
stuck halfway, and in every run whose operations do not, each branch point has its savepoint. -/
theorem failing_operations (sim : Sim) :
    (∀ op : Operation, ((op.run sim).1 ≠ .SIM_OK → sim.Kept (op.run sim).2) ↔ op.Whole sim) ∧
      (sim.Reached (fun sim op => op.Whole sim) → ∀ i,
        (sim.fstack i).has_branchpoint = true → (sim.fstack i).has_savepoint = true) :=
  ⟨Operation.kept_iff sim, fun reached => reached.paired⟩

namespace Halfway

/-- Two frames, regions of 256 bytes. -/
def created : Sim := f_enter (newSim 65536 (fun _ => 0) 2 256)

def probe (size : Word) : Word := if size = 1280 then 65536 else 0

theorem sim_create_created : sim_create probe (fun _ => 0) 2 256 = some created := by
  have mem : probe (MAPPING_SIZE 2 256) = 65536 := by decide
  have base : ALIGN 65536 (size_t 256) = 65536 := by decide
  rw [sim_create, if_neg (by decide)]
  simp only [mem]
  rw [if_neg (by decide), base]
  rfl

theorem failing_operations_branch (i : Nat) :
    (created.fstack i).has_branchpoint = true → (created.fstack i).has_savepoint = true :=
  (failing_operations created).2 (.create sim_create_created) i

/-- In the second frame, the first one having no savepoint. -/
def entered : Sim := (Operation.enter.run created).2

/-- More than half of the stack and of the frame in use. -/
def full : Sim := (sim_alloc (sim_alloc created 129 1 .SIM_VSTACK).2 129 1 .SIM_FRAME).2

/-- A load that fails after the jump, and a branch that fails after the flag is set. -/
theorem halfway :
    (entered.Reached (fun _ _ => True) ∧ ((Operation.load 0).run entered).1 = .SIM_ESAVE ∧
        ((Operation.load 0).run entered).2.fp ≠ entered.fp) ∧
      (Operation.branch.run full).2.Reached (fun _ _ => True) ∧ (Operation.branch.run full).1 = .SIM_EALLOC ∧
        ((Operation.branch.run full).2.fstack 0).has_branchpoint = true ∧
        ((Operation.branch.run full).2.fstack 0).has_savepoint = false := by
  refine ⟨⟨.op _ (.create sim_create_created) trivial, by decide +kernel, by decide +kernel⟩,
    .op _ (.alloc _ _ _ (.alloc _ _ _ (.create sim_create_created))) trivial, ?_, ?_, ?_⟩
  · decide +kernel
  · decide +kernel
  · decide +kernel

end Halfway
end M2.Mem
