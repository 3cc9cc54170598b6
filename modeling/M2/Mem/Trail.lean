import M2.Lib.Checkpoint
import M2.Mem.Failure
import M2.Mem.Mapping

/-!
# Trails

What a client knows of the virtual stack, next to the savepoints: it is saved with a savepoint, comes back with
a load, and is kept when a frame is entered or left. A trail holds in a run as far as it depends on the bytes of
the stack below its position only.
-/
namespace M2.Mem

open M2.Lib

variable {τ : Type*}

/-- After `sim_load`: where only the jump succeeds nothing is restored. -/
def followLoad (g : Checkpoints τ) (sim : Sim) (fp : Uint) : Checkpoints τ :=
  if sim.fp < fp then g
  else if (sim_load sim fp).1 = .SIM_OK then g.load fp.toNat
  else g.up fp.toNat

def followEnter (g : Checkpoints τ) (status : Status) : Checkpoints τ := if status = .SIM_OK then g.enter else g

/-- A trail after a call. -/
def follow (g : Checkpoints τ) (sim : Sim) : Call → Checkpoints τ
  | .savepoint => if (sim_savepoint sim).1 = .SIM_OK then g.save else g
  | .branch => if (sim_branch sim).1 = .SIM_OK then g.save else g
  | .up fp => if sim.fp < fp then g else g.up fp.toNat
  | .load fp => followLoad g sim fp
  | .reload => if (sim_reload sim).1 = .SIM_OK then g.load sim.fp.toNat else g
  | .enter => followEnter g (sim_enter sim).1
  | .enter_branch fp =>
    followEnter (if fp = sim.fp then g else followLoad g sim fp) (sim_enter_branch sim fp).1
  | .alloc _ _ _ | .write _ _ => g

/-! ## What a trail says -/

/-- A predicate of the virtual stack that says nothing of other bytes, and holds on with more of them. -/
structure OfStack (mem : Nat) (P : Word → Bytes → τ → Prop) : Prop where
  local_bytes : ∀ {ptr b b' v}, (∀ a, mem ≤ a → a < ptr.toNat → b' a = b a) → P ptr b v → P ptr b' v
  mono : ∀ {ptr ptr' b v}, ptr.toNat ≤ ptr'.toNat → P ptr b v → P ptr' b v

/-- The trail says something true of the virtual stack, now and for each savepoint that can be loaded. -/
structure Tracks (P : Word → Bytes → τ → Prop) (sim : Sim) (saved : Nat → Option Snapshot) (g : Checkpoints τ) : Prop where
  top : g.top = sim.fp.toNat
  cur : P sim.vstack.ptr sim.bytes g.cur
  saved : ∀ j ≤ g.top, (sim.fstack j).has_savepoint = true → ∀ snap, saved j = some snap →
    ∃ v, g.saved j = some v ∧ P snap.ptr snap.bytes v

section Tracking
variable {P : Word → Bytes → τ → Prop} {s : State} {g : Checkpoints τ} {sim : Sim} {saved : Nat → Option Snapshot}

/-- Frames that lose no other savepoint, and the virtual stack as it was. -/
theorem Tracks.keep (tracks : Tracks P sim saved g) {sim' : Sim} (fp : sim'.fp = sim.fp)
    (cur : P sim'.vstack.ptr sim'.bytes g.cur)
    (flags : ∀ i, (sim'.fstack i).has_savepoint = true → (sim.fstack i).has_savepoint = true) : Tracks P sim' saved g :=
  ⟨fp ▸ tracks.top, cur, fun j le has => tracks.saved j le (flags j has)⟩

theorem Tracks.up (tracks : Tracks P sim saved g) {fp : Uint} (le : ¬ sim.fp < fp) :
    Tracks P { sim with fp } saved (g.up fp.toNat) := by
  have below : fp.toNat ≤ g.top := by
    rw [tracks.top]
    exact BitVec.le_def.mp (BitVec.not_lt.mp le)
  exact ⟨rfl, tracks.cur, fun j le has => tracks.saved j (le.trans below) has⟩

theorem Tracks.reload (tracks : Tracks P s.sim s.saved g) (of_stack : OfStack s.sim.vstack.mem.toNat P) (inv : s.Inv)
    (ok : (sim_reload s.sim).1 = .SIM_OK) : Tracks P (sim_reload s.sim).2 s.saved (g.load s.sim.fp.toNat) := by
  obtain ⟨snap, taken, ⟨ptr, bytes⟩, -⟩ := sim_reload_spec inv ok
  obtain ⟨frames, fp, -⟩ := sim_reload_frames s.sim
  have vstack := (sim_reload_bounds s.sim).home .vstack
  have has := (sim_reload_ok_iff s.sim).mp ok
  obtain ⟨v, held, true_of⟩ := tracks.saved s.sim.fp.toNat tracks.top.ge has snap taken
  have mem : (sim_reload s.sim).2.vstack.mem = s.sim.vstack.mem := vstack.1
  rw [mem] at bytes
  refine ⟨by rw [fp]; rfl, ?_, fun j le has => ?_⟩
  · rw [ptr, Checkpoints.load, held]
    exact of_stack.local_bytes bytes true_of
  · rw [frames] at has
    exact tracks.saved j (le.trans tracks.top.ge) has

theorem Tracks.load (tracks : Tracks P s.sim s.saved g) (of_stack : OfStack s.sim.vstack.mem.toNat P) (inv : s.Inv)
    (fp : Uint) : Tracks P (sim_load s.sim fp).2 s.saved (followLoad g s.sim fp) := by
  unfold followLoad
  by_cases less : s.sim.fp < fp
  · rw [sim_load_error less, if_pos less]
    exact tracks
  · have moved := tracks.up less
    rw [sim_load_ok less, if_neg less]
    by_cases ok : (sim_reload { s.sim with fp }).1 = .SIM_OK
    · rw [if_pos ok]
      exact @Tracks.reload _ P { s with sim := { s.sim with fp } } (g.up fp.toNat) moved of_stack (inv.up_ok less) ok
    · rw [if_neg ok, sim_reload_failed ok]
      exact moved

theorem Tracks.savepoint (tracks : Tracks P s.sim s.saved g) (of_stack : OfStack s.sim.vstack.mem.toNat P) (inv : s.Inv) :
    Tracks P (sim_savepoint s.sim).2 (s.saving (sim_savepoint s.sim)).saved
      (if (sim_savepoint s.sim).1 = .SIM_OK then g.save else g) := by
  have below : s.sim.top.mem.stop.toNat ≤ s.sim.vstack.mem.toNat :=
    inv.laid.above (.frame s.sim.fp.toNat) inv.laid.top (by simp)
  have bytes (a : Nat) (low : s.sim.vstack.mem.toNat ≤ a) : (sim_savepoint s.sim).2.bytes a = s.sim.bytes a :=
    inv.savepoint_bytes (.inr (below.trans low))
  rcases sim_savepoint_cases inv with ⟨failed, same⟩ | ⟨p, r, taken⟩
  · have kept := sim_savepoint_failed failed
    have vstack : (sim_savepoint s.sim).2.vstack = s.sim.vstack := same.home .vstack
    rw [State.saving, if_neg failed, if_neg failed]
    refine tracks.keep kept.fp ?_ fun i has => (same.held i has).1
    rw [vstack, same.bytes]
    exact tracks.cur
  · rw [taken.result] at bytes ⊢
    rw [State.saving, if_pos rfl, if_pos rfl]
    refine ⟨tracks.top, of_stack.local_bytes (fun a low _ => bytes a low) tracks.cur, fun j le has snap found => ?_⟩
    have found : Function.update s.saved s.sim.fp.toNat (some ⟨s.sim.vstack.ptr, s.sim.bytes⟩) j = some snap := found
    rw [Checkpoints.save_saved, tracks.top]
    by_cases top : j = s.sim.fp.toNat
    · rw [top, Function.update_self] at found
      rw [if_pos top]
      cases found
      exact ⟨g.cur, rfl, tracks.cur⟩
    · have has : ((s.sim.setTop (savedFrame s.sim p r)).fstack j).has_savepoint = true := has
      rw [Sim.setTop_fstack, if_neg top] at has
      rw [Function.update_of_ne top] at found
      rw [if_neg top]
      exact tracks.saved j le has snap found

theorem Tracks.branch (tracks : Tracks P s.sim s.saved g) (of_stack : OfStack s.sim.vstack.mem.toNat P) (inv : s.Inv) :
    Tracks P (sim_branch s.sim).2 (s.saving (sim_branch s.sim)).saved
      (if (sim_branch s.sim).1 = .SIM_OK then g.save else g) := by
  unfold sim_branch
  by_cases branchpoint : s.sim.top.has_branchpoint = true
  · rw [if_pos branchpoint, if_neg (by simp), State.saving, if_neg (by simp)]
    exact tracks
  · rw [if_neg branchpoint]
    have flagged : Tracks P s.flagged.sim s.flagged.saved g := by
      refine tracks.keep rfl tracks.cur fun i has => ?_
      rw [State.flagged, Sim.setTop_fstack] at has
      split at has
      · rename_i top
        rwa [top]
      · exact has
    exact flagged.savepoint of_stack inv.flag

theorem f_enter_fstack (sim : Sim) (i : Nat) :
    ((f_enter sim).fstack i).has_savepoint = if i = sim.fp.toNat then false else (sim.fstack i).has_savepoint := by
  unfold f_enter
  rw [Sim.setTop_fstack]
  split <;> rfl

theorem Tracks.enter (tracks : Tracks P s.sim s.saved g) (top : s.sim.fp.toNat < s.sim.nframe.toNat) :
    Tracks P (sim_enter s.sim).2 (s.entering (sim_enter s.sim)).saved (followEnter g (sim_enter s.sim).1) := by
  by_cases ok : (sim_enter s.sim).1 = .SIM_OK
  · have room := (sim_enter_ok_iff s.sim).mp ok
    have small := s.sim.nframe.isLt
    have next : (s.sim.fp + 1).toNat = s.sim.fp.toNat + 1 := by
      rw [BitVec.toNat_add, show (1 : Uint).toNat = 1 from rfl]
      omega
    rw [State.entering, if_pos ok, followEnter, if_pos ok]
    have entered : (sim_enter s.sim).2 = f_enter { s.sim with fp := s.sim.fp + 1 } := by
      rw [sim_enter, if_neg (BitVec.not_le.mpr room)]
    rw [entered]
    have above : g.top + 1 = (s.sim.fp + 1).toNat := by rw [tracks.top, next]
    refine ⟨above, tracks.cur, fun j le has snap taken => ?_⟩
    rw [f_enter_fstack] at has
    by_cases new : j = (s.sim.fp + 1).toNat
    · rw [if_pos new] at has
      cases has
    · have taken : Function.update s.saved (s.sim.fp + 1).toNat none j = some snap := taken
      rw [if_neg new] at has
      rw [Function.update_of_ne new] at taken
      rw [Checkpoints.enter_saved, above, if_neg new]
      have le : j ≤ g.top + 1 := le
      exact tracks.saved j (by omega) has snap taken
  · rw [State.entering, if_neg ok, followEnter, if_neg ok, sim_enter_failed ok]
    exact tracks

theorem Tracks.enter_branch (tracks : Tracks P s.sim s.saved g) (of_stack : OfStack s.sim.vstack.mem.toNat P) (inv : s.Inv)
    (fp : Uint) : Tracks P (sim_enter_branch s.sim fp).2 (s.entering (sim_enter_branch s.sim fp)).saved
      (followEnter (if fp = s.sim.fp then g else followLoad g s.sim fp) (sim_enter_branch s.sim fp).1) := by
  have loaded : Tracks P (enter_branch_load s.sim fp).2 s.saved (if fp = s.sim.fp then g else followLoad g s.sim fp) := by
    unfold enter_branch_load
    split
    · exact tracks
    · exact tracks.load of_stack inv fp
  rcases sim_enter_branch_cases s.sim fp with ⟨failed, same⟩ | ⟨-, entered⟩
  · rw [State.entering, if_neg failed, followEnter, if_neg failed, same]
    exact loaded
  · have laid := (inv.enter_branch_load fp).laid
    rw [entered]
    exact @Tracks.enter _ P { s with sim := (enter_branch_load s.sim fp).2 } _ loaded laid.top

/-- An allocation that does not wrap moves the position of the stack up, if it moves it. -/
theorem sim_alloc_stack {sz align : Word} {lifetime : Lifetime} (noWrap : s.NoWrap (.alloc sz align lifetime)) :
    s.sim.vstack.ptr.toNat ≤ (sim_alloc s.sim sz align lifetime).2.vstack.ptr.toNat := by
  cases lifetime with
  | SIM_VSTACK =>
    rw [sim_alloc]
    rcases taken : reg_alloc s.sim.vstack sz align with ⟨_ | p, r⟩
    · rw [reg_alloc_none taken]
    · obtain ⟨-, -, low, next, -⟩ := reg_alloc_some (noWrap .vstack rfl) taken
      have low : s.sim.vstack.ptr.toNat ≤ p.toNat := low
      simp only
      omega
  | _ => exact le_rfl

theorem sim_alloc_flags (sim : Sim) (sz align : Word) (lifetime : Lifetime) :
    (sim_alloc sim sz align lifetime).2.fp = sim.fp ∧
      ∀ i, ((sim_alloc sim sz align lifetime).2.fstack i).has_savepoint = (sim.fstack i).has_savepoint := by
  cases target : sim.target lifetime with
  | none =>
    rw [sim_alloc_none target]
    exact ⟨rfl, fun _ => rfl⟩
  | some h =>
    rw [sim_alloc_some target, Sim.setHome_fp]
    refine ⟨rfl, fun i => ?_⟩
    rw [Sim.setHome_fstack]

theorem Tracks.alloc (tracks : Tracks P s.sim s.saved g) (of_stack : OfStack s.sim.vstack.mem.toNat P) {sz align : Word}
    {lifetime : Lifetime} (noWrap : s.NoWrap (.alloc sz align lifetime)) :
    Tracks P (s.call (.alloc sz align lifetime)).sim (s.call (.alloc sz align lifetime)).saved g := by
  have saved : (s.call (.alloc sz align lifetime)).saved = s.saved := by
    rw [State.call]
    unfold State.taking
    split <;> rfl
  obtain ⟨fp, flags⟩ := sim_alloc_flags s.sim sz align lifetime
  rw [saved, State.call, State.taking_sim]
  refine tracks.keep fp ?_ fun i has => flags i ▸ has
  rw [sim_alloc_bytes]
  exact of_stack.mono (sim_alloc_stack noWrap) tracks.cur

/-- A trail that says something true does after a call, if a write of the client does not make it false. -/
theorem Tracks.call (tracks : Tracks P s.sim s.saved g) (of_stack : OfStack s.sim.vstack.mem.toNat P) (inv : s.Inv) {c : Call}
    (noWrap : s.NoWrap c)
    (write : ∀ a v, c = .write a v → P s.sim.vstack.ptr (Function.update s.sim.bytes a v) g.cur) :
    Tracks P (s.call c).sim (s.call c).saved (follow g s.sim c) := by
  cases c with
  | alloc sz align lifetime => exact tracks.alloc of_stack noWrap
  | savepoint => exact tracks.savepoint of_stack inv
  | branch => exact tracks.branch of_stack inv
  | up fp =>
    show Tracks P (sim_up s.sim fp).2 s.saved (if s.sim.fp < fp then g else g.up fp.toNat)
    unfold sim_up
    split
    · exact tracks
    · rename_i le
      exact tracks.up le
  | load fp => exact tracks.load of_stack inv fp
  | reload =>
    show Tracks P (sim_reload s.sim).2 s.saved (if (sim_reload s.sim).1 = .SIM_OK then g.load s.sim.fp.toNat else g)
    split
    · rename_i ok
      exact tracks.reload of_stack inv ok
    · rename_i failed
      rw [sim_reload_failed failed]
      exact tracks
  | enter =>
    have entered := tracks.enter inv.laid.top
    rwa [← State.entering_sim s] at entered
  | enter_branch fp =>
    have entered := tracks.enter_branch of_stack inv fp
    rwa [← State.entering_sim s] at entered
  | write a v => exact tracks.keep rfl (write a v rfl) fun _ has => has

/-- A call keeps what the frames have saved in order. -/
theorem ordered_follow {r : τ → τ → Prop} (refl : ∀ v, r v v) (ordered : g.Ordered r) (top : g.top = sim.fp.toNat) (c : Call) :
    (follow g sim c).Ordered r := by
  have below {fp : Uint} (le : ¬ sim.fp < fp) : fp.toNat ≤ g.top := by
    rw [top]
    exact BitVec.le_def.mp (BitVec.not_lt.mp le)
  have load (fp : Uint) : (followLoad g sim fp).Ordered r := by
    unfold followLoad
    split
    · exact ordered
    · rename_i le
      split
      · exact ordered.load (below le)
      · exact ordered.up (below le)
  have enter {g : Checkpoints τ} (ordered : g.Ordered r) (status : Status) : (followEnter g status).Ordered r := by
    unfold followEnter
    split
    · exact ordered.enter
    · exact ordered
  cases c with
  | alloc | write => exact ordered
  | savepoint | branch =>
    rw [follow]
    split
    · exact ordered.save refl
    · exact ordered
  | up fp =>
    rw [follow]
    split
    · exact ordered
    · rename_i le
      exact ordered.up (below le)
  | load fp => exact load fp
  | reload =>
    rw [follow]
    split
    · exact ordered.load top.ge
    · exact ordered
  | enter => exact enter ordered _
  | enter_branch fp =>
    apply enter
    split
    · exact ordered
    · exact load fp

/-- A call leaves the current value, or goes back to one that is below it. -/
theorem follow_le {r : τ → τ → Prop} (refl : ∀ v, r v v) (ordered : g.Ordered r) (top : g.top = sim.fp.toNat) (c : Call) :
    r (follow g sim c).cur g.cur := by
  have load (fp : Uint) : r (followLoad g sim fp).cur g.cur := by
    unfold followLoad
    split
    · exact refl _
    · rename_i le
      split
      · apply ordered.load_le refl
        rw [top]
        exact BitVec.le_def.mp (BitVec.not_lt.mp le)
      · exact refl _
  have enter (g' : Checkpoints τ) (status : Status) : (followEnter g' status).cur = g'.cur := by
    unfold followEnter
    split <;> rfl
  cases c with
  | alloc | write => exact refl _
  | savepoint | branch | up =>
    rw [follow]
    split <;> exact refl _
  | load fp => exact load fp
  | reload =>
    rw [follow]
    split
    · exact ordered.load_le refl top.ge
    · exact refl _
  | enter =>
    rw [follow, enter]
    exact refl _
  | enter_branch fp =>
    rw [follow, enter]
    split
    · exact refl _
    · exact load fp

end Tracking
end M2.Mem
