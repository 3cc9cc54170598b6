import Mathlib
import M2.Mem.Restore

/-!
# Savepoint restore

The invariant over whole runs, and what a restore gives back. Every call of a run keeps the
invariant where the record fits and no allocation wraps.
-/
namespace M2.Mem

/-! ## Jumps -/

theorem State.Inv.up_ok {s : State} (inv : s.Inv) {fp : Uint} (le : ¬ s.sim.fp < fp) :
    State.Inv { s with sim := { s.sim with fp } } := by
  refine inv.view ⟨?_, rfl, fun h => ?_, rfl, fun _ has => ⟨has, rfl, rfl⟩⟩
  · have := inv.laid.top
    rw [BitVec.not_lt, BitVec.le_def] at le
    exact lt_of_le_of_lt le this
  · cases h <;> rfl

theorem State.Inv.up {s : State} (inv : s.Inv) (fp : Uint) : (s.settle (sim_up s.sim fp).2).Inv := by
  unfold sim_up
  split
  · exact inv.settled
  · rename_i le
    exact (inv.up_ok le).settled

theorem sim_load_ok {sim : Sim} {fp : Uint} (le : ¬ sim.fp < fp) :
    sim_load sim fp = sim_reload { sim with fp } := by
  rw [sim_load, sim_up, if_neg le]

theorem sim_load_error {sim : Sim} {fp : Uint} (less : sim.fp < fp) : sim_load sim fp = (.SIM_EFRAME, sim) := by
  rw [sim_load, sim_up, if_pos less]

theorem State.Inv.load {s : State} (inv : s.Inv) (fp : Uint) : (s.settle (sim_load s.sim fp).2).Inv := by
  by_cases less : s.sim.fp < fp
  · rw [sim_load_error less]
    exact inv.settled
  · rw [sim_load_ok less]
    exact (inv.up_ok less).reload

theorem sim_load_spec {s : State} (inv : s.Inv) {fp : Uint} (ok : (sim_load s.sim fp).1 = .SIM_OK) :
    ∃ snap, s.saved fp.toNat = some snap ∧ (sim_load s.sim fp).2.Restored snap := by
  by_cases less : s.sim.fp < fp
  · rw [sim_load_error less] at ok
    cases ok
  · rw [sim_load_ok less] at ok ⊢
    obtain ⟨snap, saved, restored, -⟩ := sim_reload_spec (inv.up_ok less) ok
    exact ⟨snap, saved, restored⟩

/-- A reload, and so a load, writes into the virtual stack only. -/
theorem sim_reload_below {s : State} (inv : s.Inv) {a : Nat} (below : a < s.sim.vstack.mem.toNat) :
    (sim_reload s.sim).2.bytes a = s.sim.bytes a := by
  by_cases ok : (sim_reload s.sim).1 = .SIM_OK
  · obtain ⟨-, -, -, kept, -⟩ := sim_reload_spec inv ok
    exact kept a below
  · unfold sim_reload at ok ⊢
    cases has : s.sim.top.has_savepoint with
    | true => simp [has] at ok
    | false => simp [has]

theorem sim_load_below {s : State} (inv : s.Inv) (fp : Uint) {a : Nat} (below : a < s.sim.vstack.mem.toNat) :
    (sim_load s.sim fp).2.bytes a = s.sim.bytes a := by
  by_cases less : s.sim.fp < fp
  · rw [sim_load_error less]
  · rw [sim_load_ok less]
    exact sim_reload_below (inv.up_ok less) below

/-! ## Entering -/

theorem sim_enter_keeps (sim : Sim) :
    (sim_enter sim).2.vstack = sim.vstack ∧ (sim_enter sim).2.bytes = sim.bytes := by
  unfold sim_enter
  split <;> exact ⟨rfl, rfl⟩

theorem State.Inv.enters {s : State} (inv : s.Inv) : (s.entering (sim_enter s.sim)).Inv := by
  unfold sim_enter
  by_cases overflow : s.sim.nframe ≤ s.sim.fp + 1
  · rw [if_pos overflow, State.entering, if_neg (by simp)]
    exact inv.settled
  rw [if_neg overflow, State.entering, if_pos rfl]
  have top : (s.sim.fp + 1).toNat < s.sim.nframe.toNat := by
    rw [BitVec.not_le, BitVec.lt_def] at overflow
    exact overflow
  generalize fp_eq : s.sim.fp + 1 = fp at top
  set sim := f_enter { s.sim with fp } with sim_eq
  have frame : ∀ i, sim.fstack i = if i = fp.toNat then
      { s.sim.fstack fp.toNat with
        fid := s.sim.next_fid
        has_savepoint := false
        has_branchpoint := false
        mem := REG_RESET (s.sim.fstack fp.toNat).mem } else s.sim.fstack i := by
    intro i
    simp only [sim_eq, f_enter, Sim.setTop_fstack, Sim.top]
  have kept : ∀ h, h ≠ .frame fp.toNat → sim.home h = s.sim.home h := by
    intro h other
    cases h with
    | frame i =>
      have other : i ≠ fp.toNat := fun eq => other (eq ▸ rfl)
      simp only [Sim.home, frame, if_neg other]
    | _ => rfl
  refine ⟨inv.laid.move top rfl (fun h => ?_) fun h present => ?_, inv.record, fun b live => ?_, fun b live => ?_,
    fun i less has => ?_⟩
  · exact f_enter_bounds _ h
  · have sound := inv.laid.sound h present
    by_cases entered : h = .frame fp.toNat
    · subst entered
      have home : sim.home (.frame fp.toNat) = REG_RESET (s.sim.home (.frame fp.toNat)) := by
        simp only [Sim.home, frame, if_true]
      rw [State.enter, home]
      exact ⟨le_rfl, sound.mem_le.trans sound.ptr_le⟩
    · rw [State.enter, kept h entered]
      exact ⟨sound.mem_le, sound.ptr_le⟩
  · obtain ⟨live, other⟩ := List.mem_filter.mp live
    obtain ⟨live, -⟩ := List.mem_filter.mp live
    have inside := inv.inside b live
    have other : b.home ≠ .frame fp.toNat := of_decide_eq_true other
    simp only [State.enter, kept _ other]
    refine ⟨?_, inside.2⟩
    have present := inside.1
    revert present
    cases b.home <;> exact id
  · exact inv.clear b (List.mem_filter.mp (List.mem_filter.mp live).1).1
  · have other : i ≠ fp.toNat := by
      rintro rfl
      simp [State.enter, frame] at has
    simp only [State.enter, frame, if_neg other] at has
    obtain ⟨snap, saved, held, apart⟩ := inv.held i less has
    have same : sim.fstack i = s.sim.fstack i := by rw [frame, if_neg other]
    have saved : Function.update s.saved fp.toNat none i = some snap := by rwa [Function.update_of_ne other]
    refine ⟨snap, saved, ?_, fun b live => ?_⟩
    · refine ⟨?_, held.low, held.high, ?_, ?_, ?_, ?_⟩ <;> simp only [State.enter, same]
      · exact held.ptr
      · exact held.aligned
      · exact held.data_low
      · exact held.data_high
      · exact held.bytes
    · simp only [State.enter, same]
      exact apart b (List.mem_filter.mp (List.mem_filter.mp live).1).1

/-- What is gone after two operations is gone after the second. -/
theorem State.Inv.of_settled {s : State} {sim : Sim} {outcome : Status × Sim}
    (vstack : outcome.2.vstack = sim.vstack) (inv : ((s.settle sim).entering outcome).Inv) :
    (s.entering outcome).Inv := by
  unfold State.entering at inv ⊢
  split
  · rename_i ok
    rw [if_pos ok] at inv
    refine inv.fewer fun b live => ?_
    obtain ⟨live, other⟩ := List.mem_filter.mp live
    exact List.mem_filter.mpr ⟨List.mem_filter.mpr ⟨by
      rw [State.settle, ← vstack]
      exact live, (List.mem_filter.mp live).2⟩, other⟩
  · rename_i failed
    rw [if_neg failed] at inv
    refine inv.fewer fun b live => List.mem_filter.mpr ⟨?_, (List.mem_filter.mp live).2⟩
    rw [State.settle, ← vstack]
    exact live

theorem State.Inv.enter_branch_load {s : State} (inv : s.Inv) (fp : Uint) :
    (s.settle (enter_branch_load s.sim fp).2).Inv := by
  unfold Mem.enter_branch_load
  split
  · exact inv.settled
  · exact inv.load fp

/-- What `sim_enter_branch` does after its first part. -/
theorem sim_enter_branch_cases (sim : Sim) (fp : Uint) :
    (sim_enter_branch sim fp).1 ≠ .SIM_OK ∧ (sim_enter_branch sim fp).2 = (enter_branch_load sim fp).2 ∨
      (enter_branch_load sim fp).1 = .SIM_OK ∧
        sim_enter_branch sim fp = sim_enter (enter_branch_load sim fp).2 := by
  unfold sim_enter_branch
  rcases enter_branch_load sim fp with ⟨_ | _ | _ | _ | _, sim'⟩
  · by_cases branchpoint : sim'.top.has_branchpoint = true
    · exact .inr ⟨rfl, by simp [branchpoint]⟩
    · exact .inl ⟨by simp [branchpoint], by simp [branchpoint]⟩
  all_goals exact .inl ⟨by simp, rfl⟩

theorem State.Inv.enter_branch {s : State} (inv : s.Inv) (fp : Uint) :
    (s.entering (sim_enter_branch s.sim fp)).Inv := by
  have loaded := inv.enter_branch_load fp
  rcases sim_enter_branch_cases s.sim fp with ⟨failed, same⟩ | ⟨-, entered⟩
  · rw [State.entering, if_neg failed, same]
    exact loaded
  · rw [entered]
    exact loaded.enters.of_settled (sim_enter_keeps _).1

/-- A branch entered from below restores before it enters. -/
theorem sim_enter_branch_spec {s : State} (inv : s.Inv) {fp : Uint} (other : fp ≠ s.sim.fp)
    (ok : (sim_enter_branch s.sim fp).1 = .SIM_OK) :
    ∃ snap, s.saved fp.toNat = some snap ∧ (sim_enter_branch s.sim fp).2.Restored snap := by
  rcases sim_enter_branch_cases s.sim fp with ⟨failed, -⟩ | ⟨loaded, entered⟩
  · exact absurd ok failed
  · rw [enter_branch_load, if_neg other] at loaded entered
    obtain ⟨snap, saved, ptr, bytes⟩ := sim_load_spec inv loaded
    obtain ⟨vstack, same⟩ := sim_enter_keeps (sim_load s.sim fp).2
    rw [entered]
    exact ⟨snap, saved, by rw [vstack, ptr], fun a => by rw [vstack, same]; exact bytes a⟩

theorem sim_enter_branch_below {s : State} (inv : s.Inv) (fp : Uint) {a : Nat}
    (below : a < s.sim.vstack.mem.toNat) : (sim_enter_branch s.sim fp).2.bytes a = s.sim.bytes a := by
  have loaded : (enter_branch_load s.sim fp).2.bytes a = s.sim.bytes a := by
    unfold enter_branch_load
    split
    · rfl
    · exact sim_load_below inv fp below
  rcases sim_enter_branch_cases s.sim fp with ⟨-, same⟩ | ⟨-, entered⟩
  · rw [same, loaded]
  · rw [entered, (sim_enter_keeps _).2, loaded]

/-! ## Branch points and writes -/

/-- The state in which `sim_branch` takes its savepoint. -/
def State.flagged (s : State) : State :=
  { s with sim := s.sim.setTop { s.sim.top with has_branchpoint := true } }

theorem State.Inv.flag {s : State} (inv : s.Inv) : s.flagged.Inv :=
  inv.view (.setTop inv.laid.top rfl fun has => ⟨has, rfl, rfl⟩)

theorem State.Inv.branch {s : State} (inv : s.Inv) : (s.saving (sim_branch s.sim)).Inv := by
  unfold sim_branch
  split
  · rw [State.saving, if_neg (by simp)]
    exact inv
  · exact inv.flag.savepoint

/-- A live block shares no byte with a savepoint that is held. -/
theorem State.Inv.write {s : State} (inv : s.Inv) {address : Nat} {value : BitVec 8}
    (legal : s.Legal (.write address value)) : (s.call (.write address value)).Inv := by
  obtain ⟨b, live, first, last⟩ := legal
  obtain ⟨present, low, high⟩ := inv.inside b live
  have ptr_le := (inv.laid.sound _ present).ptr_le
  refine inv.rewrite fun i less has snap saved k lt => Function.update_of_ne ?_ _ _
  obtain ⟨snap', saved', held, apart⟩ := inv.held i less has
  cases saved.symm.trans saved'
  have data_low := held.data_low
  have data_high := held.data_high
  have frame_le : (s.sim.fstack i).mem.ptr.toNat ≤ (s.sim.fstack i).mem.stop.toNat :=
    (inv.laid.sound (.frame i) less).ptr_le
  by_cases same : b.home = .frame i
  · have := apart b live same
    omega
  · have regions : (s.sim.home b.home).stop.toNat ≤ (s.sim.fstack i).mem.mem.toNat ∨
        (s.sim.fstack i).mem.stop.toNat ≤ (s.sim.home b.home).mem.toNat :=
      inv.laid.apart _ (.frame i) present less same
    omega

/-! ## Runs -/

theorem State.Inv.call {s : State} (inv : s.Inv) {c : Call} (legal : s.Legal c) (noWrap : s.NoWrap c) :
    (s.call c).Inv := by
  cases c with
  | alloc sz align lifetime => exact inv.alloc noWrap
  | savepoint => exact inv.savepoint
  | branch => exact inv.branch
  | up fp => exact inv.up fp
  | load fp => exact inv.load fp
  | reload => exact inv.reload
  | enter => exact inv.enters
  | enter_branch fp => exact inv.enter_branch fp
  | write address value => exact inv.write legal

theorem State.Created.inv {s : State} (created : s.Created) (fits : s.sim.RecordFits) : s.Inv := by
  obtain ⟨vm_map_probe, bytes, nframe, rsize, mapped, -, created, blocks, saved⟩ := created
  obtain ⟨laid, record, fresh⟩ := sim_create_laid mapped created fits
  refine ⟨laid, record, by simp [blocks], by simp [blocks], fun i _ has => ?_⟩
  rw [fresh] at has
  cases has

theorem State.Run.inv {s t : State} (run : State.Run (fun s c => s.Legal c ∧ s.NoWrap c) s t) (inv : s.Inv) :
    t.Inv := by
  induction run with
  | refl => exact inv
  | tail _ step ih =>
    obtain ⟨c, ⟨legal, noWrap⟩, rfl⟩ := step
    exact ih.call legal noWrap

/-- An operation of the sim, not a write of the client. -/
def Call.Operation : Call → Prop
  | .write _ _ => False
  | _ => True

/-- An address of the record. -/
def Sim.InRecord (sim : Sim) (a : Nat) : Prop :=
  sim.stat.mem.toNat ≤ a ∧ a < sim.stat.mem.toNat + (72 + 48 * sim.nframe.toNat)

/-- What the client relies on: restores give back what was saved, and the operations leave the
live static and frame blocks alone. That the record is never written over is what keeping it
apart from the bytes relies on. -/
structure State.Restores (s : State) : Prop where
  reload : (sim_reload s.sim).1 = .SIM_OK →
    ∃ snap, s.saved s.sim.fp.toNat = some snap ∧ (s.call .reload).sim.Restored snap
  load : ∀ fp, (sim_load s.sim fp).1 = .SIM_OK →
    ∃ snap, s.saved fp.toNat = some snap ∧ (s.call (.load fp)).sim.Restored snap
  enter_branch : ∀ fp ≠ s.sim.fp, (sim_enter_branch s.sim fp).1 = .SIM_OK →
    ∃ snap, s.saved fp.toNat = some snap ∧ (s.call (.enter_branch fp)).sim.Restored snap
  blocks : ∀ c : Call, c.Operation → ∀ b ∈ s.blocks, b.home ≠ .vstack → ∀ a, b.Covers a →
    (s.call c).sim.bytes a = s.sim.bytes a
  record : ∀ c, s.Legal c → ∀ a, s.sim.InRecord a → (s.call c).sim.bytes a = s.sim.bytes a

theorem sim_alloc_bytes (sim : Sim) (sz align : Word) (lifetime : Lifetime) :
    (sim_alloc sim sz align lifetime).2.bytes = sim.bytes := by
  cases target : sim.target lifetime with
  | none => rw [sim_alloc_none target]
  | some h => rw [sim_alloc_some target, Sim.setHome_bytes]

theorem State.taking_bytes (s : State) (sz : Word) (home : Option Home) (outcome : Option Word × Sim) :
    (s.taking sz home outcome).sim.bytes = outcome.2.bytes := by
  rcases outcome with ⟨_ | p, sim⟩ <;> cases home <;> rfl

/-- A savepoint keeps what lies outside the room left in the top frame. -/
theorem State.Inv.savepoint_bytes {s : State} (inv : s.Inv) {a : Nat}
    (outside : a < s.sim.top.mem.ptr.toNat ∨ s.sim.top.mem.stop.toNat ≤ a) :
    (sim_savepoint s.sim).2.bytes a = s.sim.bytes a := by
  rcases sim_savepoint_cases inv with ⟨-, same⟩ | ⟨p, r, taken⟩
  · rw [same.bytes]
  · exact taken.bytes inv a outside

theorem State.Inv.branch_bytes {s : State} (inv : s.Inv) {a : Nat}
    (outside : a < s.sim.top.mem.ptr.toNat ∨ s.sim.top.mem.stop.toNat ≤ a) :
    (sim_branch s.sim).2.bytes a = s.sim.bytes a := by
  unfold sim_branch
  split
  · rfl
  · refine inv.flag.savepoint_bytes ?_
    rwa [State.flagged, Sim.setTop_top]

/-- What an operation keeps: all below the virtual stack but the room left in the top frame. -/
theorem State.Inv.operation_bytes {s : State} (inv : s.Inv) {c : Call} (operation : c.Operation) {a : Nat}
    (below : a < s.sim.vstack.mem.toNat)
    (outside : a < s.sim.top.mem.ptr.toNat ∨ s.sim.top.mem.stop.toNat ≤ a) :
    (s.call c).sim.bytes a = s.sim.bytes a := by
  have entering : ∀ outcome, (s.entering outcome).sim = outcome.2 := by
    intro outcome
    unfold State.entering
    split <;> rfl
  cases c with
  | alloc sz align lifetime => rw [State.call, State.taking_bytes, sim_alloc_bytes]
  | savepoint => exact inv.savepoint_bytes outside
  | branch => exact inv.branch_bytes outside
  | up fp =>
    show (sim_up s.sim fp).2.bytes a = _
    unfold sim_up
    split <;> rfl
  | load fp => exact sim_load_below inv fp below
  | reload => exact sim_reload_below inv below
  | enter => rw [State.call, entering, (sim_enter_keeps _).2]
  | enter_branch fp =>
    rw [State.call, entering]
    exact sim_enter_branch_below inv fp below
  | write address value => exact operation.elim

theorem State.Inv.live_bytes {s : State} (inv : s.Inv) {c : Call} (operation : c.Operation) {b : Block}
    (live : b ∈ s.blocks) (other : b.home ≠ .vstack) {a : Nat} (covers : b.Covers a) :
    (s.call c).sim.bytes a = s.sim.bytes a := by
  refine inv.operation_bytes operation (inv.below live other covers) ?_
  obtain ⟨present, low, high⟩ := inv.inside b live
  have ptr_le := (inv.laid.sound _ present).ptr_le
  obtain ⟨first, last⟩ := covers
  by_cases same : b.home = .frame s.sim.fp.toNat
  · rw [same] at high
    exact .inl (lt_of_lt_of_le last high)
  · have apart : (s.sim.home b.home).stop.toNat ≤ s.sim.top.mem.mem.toNat ∨
        s.sim.top.mem.stop.toNat ≤ (s.sim.home b.home).mem.toNat :=
      inv.laid.apart _ (.frame s.sim.fp.toNat) present inv.laid.top same
    have mem_le : s.sim.top.mem.mem.toNat ≤ s.sim.top.mem.ptr.toNat :=
      (inv.laid.sound (.frame s.sim.fp.toNat) inv.laid.top).mem_le
    omega

theorem State.Inv.record_bytes {s : State} (inv : s.Inv) {c : Call} (legal : s.Legal c) {a : Nat}
    (inRecord : s.sim.InRecord a) : (s.call c).sim.bytes a = s.sim.bytes a := by
  obtain ⟨first, last⟩ := inRecord
  have record := inv.record
  have ptr_le : s.sim.stat.ptr.toNat ≤ s.sim.stat.stop.toNat := (inv.laid.sound .stat trivial).ptr_le
  have above : s.sim.stat.stop.toNat ≤ s.sim.vstack.mem.toNat := inv.laid.above .stat trivial (by simp)
  have apart : s.sim.stat.stop.toNat ≤ s.sim.top.mem.mem.toNat ∨ s.sim.top.mem.stop.toNat ≤ s.sim.stat.mem.toNat :=
    inv.laid.apart .stat (.frame s.sim.fp.toNat) trivial inv.laid.top (by simp)
  have mem_le : s.sim.top.mem.mem.toNat ≤ s.sim.top.mem.ptr.toNat :=
    (inv.laid.sound (.frame s.sim.fp.toNat) inv.laid.top).mem_le
  by_cases operation : c.Operation
  · exact inv.operation_bytes operation (by omega) (by omega)
  · cases c with
    | write address value =>
      obtain ⟨b, live, low, last⟩ := legal
      obtain ⟨present, mem_low, high⟩ := inv.inside b live
      refine Function.update_of_ne ?_ _ _
      by_cases same : b.home = .stat
      · have := inv.clear b live same
        omega
      · have regions : (s.sim.home b.home).stop.toNat ≤ s.sim.stat.mem.toNat ∨
            s.sim.stat.stop.toNat ≤ (s.sim.home b.home).mem.toNat := inv.laid.apart _ .stat present trivial same
        have := (inv.laid.sound _ present).ptr_le
        omega
    | _ => exact absurd trivial operation

theorem State.Inv.restores {s : State} (inv : s.Inv) : s.Restores where
  reload ok := by
    obtain ⟨snap, saved, restored, -⟩ := sim_reload_spec inv ok
    exact ⟨snap, saved, restored⟩
  load _ ok := sim_load_spec inv ok
  enter_branch fp other ok := by
    obtain ⟨snap, saved, restored⟩ := sim_enter_branch_spec inv other ok
    refine ⟨snap, saved, ?_⟩
    rw [State.call, State.entering, if_pos ok]
    exact restored
  blocks _ operation _ live other _ covers := inv.live_bytes operation live other covers
  record _ legal _ inRecord := inv.record_bytes legal inRecord

/-- In every run from `sim_create` in which the record fits and no allocation wraps, restores
give back what was saved and the live blocks stay as they are. -/
theorem savepoint_restores {start s : State} (created : start.Created) (fits : start.sim.RecordFits)
    (run : State.Run (fun s c => s.Legal c ∧ s.NoWrap c) start s) : s.Restores :=
  (run.inv (created.inv fits)).restores

/-! ## A size that wraps

One frame, regions of 256 bytes from address 65536 on. A savepoint of one block, then an
allocation of `2 ^ 64 - 64` bytes, after which the position of the frame region is the start of
the saved block again. -/
namespace Wrap

def newState : State := ⟨f_enter (newSim 65536 (fun _ => 0) 1 256), [], fun _ => none⟩

/-- A block of the virtual stack holding a 1, and a savepoint. -/
def saved : State :=
  ((newState.call (.alloc 64 1 .SIM_VSTACK)).call (.write 66048 1)).call .savepoint

/-- The block written with a 2. -/
def changed : State := saved.call (.write 66048 2)

/-- The frame position moved back, and a new frame block in the place of the saved one. -/
def overwritten : State :=
  ((saved.call (.alloc (2 ^ 64 - 64) 1 .SIM_FRAME)).call (.alloc 64 1 .SIM_FRAME)).call (.write 65792 2)

def probe (size : Word) : Word := if size = 1024 then 65536 else 0

theorem newState_created : newState.Created := by
  refine ⟨probe, fun _ => 0, 1, 256, fun size => ?_, by decide, ?_, rfl, rfl⟩
  · unfold probe
    split
    · rename_i eq
      rw [eq]
      decide
    · have := size.isLt
      rw [show (0 : Word).toNat = 0 from rfl]
      omega
  · have mem : probe (MAPPING_SIZE 1 256) = 65536 := by decide
    have base : ALIGN 65536 (size_t 256) = 65536 := by decide
    rw [sim_create, if_neg (by decide)]
    simp only [mem]
    rw [if_neg (by decide), base]
    rfl

theorem newState_fits : newState.sim.RecordFits := by
  unfold Sim.RecordFits
  decide

theorem saved_blocks : saved.blocks = [⟨.vstack, 66048, 64⟩] := by decide +kernel

/-- A run to the savepoint, whatever else its condition asks of the two operations. -/
theorem run_saved {c : State → Call → Prop}
    (alloc : c newState (.alloc 64 1 .SIM_VSTACK))
    (write : c (newState.call (.alloc 64 1 .SIM_VSTACK)) (.write 66048 1))
    (savepoint : c ((newState.call (.alloc 64 1 .SIM_VSTACK)).call (.write 66048 1)) .savepoint) :
    State.Run c newState saved :=
  ((Relation.ReflTransGen.single ⟨_, alloc, rfl⟩).tail ⟨_, write, rfl⟩).tail ⟨_, savepoint, rfl⟩

theorem write_legal {value : BitVec 8} :
    (newState.call (.alloc 64 1 .SIM_VSTACK)).Legal (.write 66048 value) :=
  ⟨⟨.vstack, 66048, 64⟩, by decide +kernel, by simp [Block.Covers]⟩

theorem changed_restores : changed.Restores := by
  refine savepoint_restores newState_created newState_fits (.tail (run_saved ⟨trivial, ?_⟩ ⟨write_legal, trivial⟩
    ⟨trivial, trivial⟩) ⟨.write 66048 2, ⟨⟨⟨.vstack, 66048, 64⟩, ?_, ?_⟩, trivial⟩, rfl⟩)
  · rintro h ⟨⟩
    decide +kernel
  · rw [saved_blocks]
    exact List.mem_cons_self
  · simp [Block.Covers]

/-- The reload copies the byte of the new frame block. -/
theorem reloaded_two : (overwritten.call .reload).sim.bytes 66048 = 2 := by
  have has : overwritten.sim.top.has_savepoint = true := by decide +kernel
  have mem : overwritten.sim.vstack.mem.toNat = 66048 := by decide +kernel
  have data : overwritten.sim.top.sp_data.toNat = 65792 := by decide +kernel
  have size : (overwritten.sim.top.sp_ptr - overwritten.sim.vstack.mem).toNat = 64 := by decide +kernel
  have two : overwritten.sim.bytes 65792 = 2 := by decide +kernel
  simp only [State.call, State.settle, sim_reload, has, if_true, mem, data, size]
  exact (blockcpy_read _ 66048 65792 64 0 (by decide) (by decide)).trans two

/-- Nothing but a wrapped size: the reload gives a 2 where the savepoint had a 1. -/
theorem overwritten_not_restored :
    newState.Created ∧ newState.sim.RecordFits ∧ State.Run State.Legal newState overwritten ∧
      ¬ overwritten.Restores := by
  refine ⟨newState_created, newState_fits, ?_, fun restores => ?_⟩
  · refine (((run_saved (c := State.Legal) trivial write_legal trivial).tail
      ⟨.alloc (2 ^ 64 - 64) 1 .SIM_FRAME, trivial, rfl⟩).tail ⟨.alloc 64 1 .SIM_FRAME, trivial, rfl⟩).tail
      ⟨.write 65792 2, ⟨⟨.frame 0, 65792, 64⟩, ?_, ?_⟩, rfl⟩
    · decide +kernel
    · simp [Block.Covers]
  · have ok : (sim_reload overwritten.sim).1 = .SIM_OK := by decide +kernel
    obtain ⟨snap, taken, ptr, bytes⟩ := restores.reload ok
    have one : snap.ptr = 66112 ∧ snap.bytes 66048 = 1 := by
      have both : (overwritten.saved overwritten.sim.fp.toNat).map (fun s => (s.ptr, s.bytes 66048)) =
          some (66112, 1) := by decide +kernel
      rw [taken] at both
      simpa using both
    have mem : (overwritten.call .reload).sim.vstack.mem.toNat = 66048 := by decide +kernel
    have same := bytes 66048 mem.le (by rw [one.1]; decide)
    rw [reloaded_two, one.2] at same
    cases same

end Wrap
end M2.Mem
