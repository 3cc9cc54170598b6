import M2.Control.Run
import M2.Mem.Savepoint

/-!
The simulator that branches is the one of the memory model. Its frames and the contents of its virtual stack, read
off the bytes of the mapping, are those that the compiled functions run on: in every run in which the record fits
and no allocation wraps, each operation does on them what it does on the bytes, with the same error where it fails.
An allocation or a write of the client changes the contents of the virtual stack and nothing else.
-/
namespace M2.Control

open Mem Lib.Dfs

/-! ## Reading the bytes -/

/-- The bytes of a block. -/
def content (bytes : Bytes) (start size : Nat) : List (BitVec 8) := (List.range size).map fun k => bytes (start + k)

theorem content_congr {bytes bytes' : Bytes} {start start' size : Nat}
    (same : ∀ k < size, bytes (start + k) = bytes' (start' + k)) : content bytes start size = content bytes' start' size := by
  apply List.map_congr_left
  intro k mem
  exact same k (List.mem_range.mp mem)

/-- The savepoint that a frame holds. -/
def held (sim : Sim) (i : Nat) : Option (List (BitVec 8)) :=
  if i < sim.nframe.toNat ∧ (sim.fstack i).has_savepoint = true then
    some (content sim.bytes (sim.fstack i).sp_data.toNat ((sim.fstack i).sp_ptr.toNat - sim.vstack.mem.toNat))
  else none

/-- The frames of a simulator, with what is on the virtual stack. -/
def frames (sim : Sim) : Frames (List (BitVec 8)) where
  nframe := sim.nframe.toNat
  fp := sim.fp.toNat
  branchpoint i := (sim.fstack i).has_branchpoint
  savepoint := held sim
  v := content sim.bytes sim.vstack.mem.toNat (sim.vstack.ptr.toNat - sim.vstack.mem.toNat)

/-- The messages of `sim.lua`. -/
def errors : Status → String
  | .SIM_OK => ""
  | .SIM_EFRAME => "invalid frame"
  | .SIM_ESAVE => "invalid save state"
  | .SIM_EALLOC => "failed to allocate memory"
  | .SIM_EBRANCH => "invalid branch point"

/-- `check`, behind an operation. -/
def check (r : Status × Sim) : Except (Stop String) (Frames (List (BitVec 8))) :=
  match r.1 with
  | .SIM_OK => .ok (frames r.2)
  | status => .error (.error (errors status))

section

variable {s : State}

/-- What was on the virtual stack when the savepoint was taken. -/
def seen (s : State) (snap : Snapshot) : List (BitVec 8) :=
  content snap.bytes s.sim.vstack.mem.toNat (snap.ptr.toNat - s.sim.vstack.mem.toNat)

theorem held_eq (inv : s.Inv) (i : Nat) : held s.sim i =
    if i < s.sim.nframe.toNat ∧ (s.sim.fstack i).has_savepoint = true then (s.saved i).map (seen s) else none := by
  unfold held
  split
  · rename_i has
    obtain ⟨snap, saved, held, -⟩ := inv.held i has.1 has.2
    rw [saved, Option.map_some, held.ptr]
    congr 1
    exact content_congr held.bytes
  · rfl

/-- A frame that keeps its savepoint holds the same. -/
theorem held_congr {t : State} (inv : s.Inv) (inv' : t.Inv) (mem : t.sim.vstack.mem = s.sim.vstack.mem)
    (nframe : t.sim.nframe = s.sim.nframe) {i : Nat} (has : (t.sim.fstack i).has_savepoint = (s.sim.fstack i).has_savepoint)
    (saved : t.saved i = s.saved i) : held t.sim i = held s.sim i := by
  rw [held_eq inv, held_eq inv', nframe, has, saved]
  unfold seen
  rw [mem]

theorem held_isSome (inv : s.Inv) : ((frames s.sim).savepoint (frames s.sim).fp).isSome = s.sim.top.has_savepoint := by
  change (held s.sim s.sim.fp.toNat).isSome = _
  unfold held Sim.top
  cases (s.sim.fstack s.sim.fp.toNat).has_savepoint with
  | false => simp
  | true => simp [inv.laid.top]

/-! ## The operations -/

/-- A savepoint is a copy of the virtual stack. -/
theorem Taken.frames (inv : s.Inv) {p : Word} {r : Region} (taken : Taken s.sim p r) : frames (sim_savepoint s.sim).2 =
    { frames s.sim with savepoint := Function.update (frames s.sim).savepoint (frames s.sim).fp (some (frames s.sim).v) } := by
  have ok : (sim_savepoint s.sim).1 = .SIM_OK := by rw [taken.result]
  have inv' := inv.savepoint
  rw [State.saving, if_pos ok] at inv'
  have kept (a : Nat) (above : s.sim.vstack.mem.toNat ≤ a) : (sim_savepoint s.sim).2.bytes a = s.sim.bytes a := by
    have below : s.sim.top.mem.stop.toNat ≤ s.sim.vstack.mem.toNat :=
      inv.laid.above (.frame s.sim.fp.toNat) inv.laid.top (by simp)
    exact taken.bytes inv a (.inr (below.trans above))
  have fstack (i : Nat) : (sim_savepoint s.sim).2.fstack i = if i = s.sim.fp.toNat then savedFrame s.sim p r else s.sim.fstack i := by
    rw [taken.result]
    exact s.sim.setTop_fstack _ i
  have vstack : (sim_savepoint s.sim).2.vstack = s.sim.vstack := by rw [taken.result]; rfl
  have nframe : (sim_savepoint s.sim).2.nframe = s.sim.nframe := by rw [taken.result]; rfl
  apply Frames.ext
  · exact congrArg BitVec.toNat nframe
  · change (sim_savepoint s.sim).2.fp.toNat = s.sim.fp.toNat
    rw [taken.result]
    rfl
  · funext i
    change ((sim_savepoint s.sim).2.fstack i).has_branchpoint = (s.sim.fstack i).has_branchpoint
    rw [fstack]
    split
    · rename_i top
      rw [top]
      rfl
    · rfl
  · funext i
    change held (sim_savepoint s.sim).2 i = Function.update (held s.sim) s.sim.fp.toNat (some (Control.frames s.sim).v) i
    rw [Function.update_apply]
    split
    · rename_i top
      have has : ((sim_savepoint s.sim).2.fstack i).has_savepoint = true := by
        rw [fstack, if_pos top]
        rfl
      rw [held_eq inv', if_pos ⟨by rw [nframe, top]; exact inv.laid.top, has⟩]
      simp only [top, Function.update_self, Option.map_some, seen, vstack]
      rfl
    · rename_i other
      apply held_congr inv inv'
      · exact congrArg Region.mem vstack
      · exact nframe
      · rw [fstack, if_neg other]
      · exact Function.update_of_ne other _ _
  · change content _ _ _ = content _ _ _
    rw [vstack]
    exact content_congr fun k _ => kept _ (Nat.le_add_right _ k)

theorem savepoint_refines (inv : s.Inv) : ∃ room, check (sim_savepoint s.sim) = (frames s.sim).take_savepoint fun _ => room := by
  have some' := held_isSome inv
  unfold Frames.take_savepoint
  cases has : s.sim.top.has_savepoint with
  | true =>
    rw [has] at some'
    refine ⟨true, ?_⟩
    rw [sim_savepoint_double has, if_pos some']
    rfl
  | false =>
    rw [has] at some'
    rcases sim_savepoint_cases inv with ⟨failed, -⟩ | ⟨p, r, taken⟩
    · -- what is left is that the frame has no room
      have full : (sim_savepoint s.sim).1 = .SIM_EALLOC := by
        unfold sim_savepoint at failed ⊢
        simp only [has, Bool.false_eq_true, if_false] at failed ⊢
        split at failed
        · rename_i none'
          rw [if_pos none']
        · exact absurd rfl failed
      refine ⟨false, ?_⟩
      rw [if_neg (by simp [some']), check, full]
      rfl
    · refine ⟨true, ?_⟩
      have ok : (sim_savepoint s.sim).1 = .SIM_OK := by rw [taken.result]
      rw [if_neg (by simp [some']), check, ok, if_pos rfl]
      exact congrArg Except.ok (Taken.frames inv taken)

theorem flagged_frames (inv : s.Inv) : frames s.flagged.sim =
    { frames s.sim with branchpoint := Function.update (frames s.sim).branchpoint (frames s.sim).fp true } := by
  apply Frames.ext
  · rfl
  · rfl
  · funext i
    change ((s.sim.setTop _).fstack i).has_branchpoint = Function.update (frames s.sim).branchpoint s.sim.fp.toNat true i
    rw [Sim.setTop_fstack, Function.update_apply]
    split
    · rfl
    · rfl
  · funext i
    apply held_congr inv inv.flag rfl rfl _ rfl
    change ((s.sim.setTop _).fstack i).has_savepoint = _
    rw [Sim.setTop_fstack]
    split
    · rename_i top
      rw [top]
      rfl
    · rfl
  · rfl

theorem branch_refines (inv : s.Inv) : ∃ room, check (sim_branch s.sim) = (frames s.sim).branch fun _ => room := by
  have point : (frames s.sim).branchpoint (frames s.sim).fp = s.sim.top.has_branchpoint := rfl
  unfold sim_branch Frames.branch
  rw [point]
  cases s.sim.top.has_branchpoint with
  | true => exact ⟨true, rfl⟩
  | false =>
    obtain ⟨room, same⟩ := savepoint_refines inv.flag
    refine ⟨room, ?_⟩
    rw [if_neg (by simp), if_neg (by simp)]
    exact same.trans (congrArg _ (flagged_frames inv))

/-- A reload copies back what the savepoint holds. -/
theorem reload_refines (inv : s.Inv) : check (sim_reload s.sim) =
    match (frames s.sim).savepoint (frames s.sim).fp with
    | none => .error (.error "invalid save state")
    | some v => .ok { frames s.sim with v } := by
  change _ = match held s.sim s.sim.fp.toNat with
    | none => _
    | some v => _
  rw [held_eq inv]
  cases has : s.sim.top.has_savepoint with
  | false =>
    have fails : sim_reload s.sim = (.SIM_ESAVE, s.sim) := by
      unfold sim_reload
      simp [has]
    rw [fails, if_neg fun both => by
      have : s.sim.top.has_savepoint = true := both.2
      rw [has] at this
      cases this]
    rfl
  | true =>
    have ok : (sim_reload s.sim).1 = .SIM_OK := by
      unfold sim_reload
      simp [has]
    obtain ⟨snap, saved, ⟨ptr, bytes⟩, -, inv'⟩ := sim_reload_spec inv ok
    rw [if_pos ⟨inv.laid.top, has⟩, saved, check, ok]
    have fields : (sim_reload s.sim).2.nframe = s.sim.nframe ∧ (sim_reload s.sim).2.fp = s.sim.fp ∧
        (sim_reload s.sim).2.fstack = s.sim.fstack ∧ (sim_reload s.sim).2.vstack.mem = s.sim.vstack.mem := by
      unfold sim_reload
      simp [has]
    obtain ⟨nframe, fp, fstack, mem⟩ := fields
    simp only [Option.map_some, Except.ok.injEq]
    apply Frames.ext
    · exact congrArg BitVec.toNat nframe
    · exact congrArg BitVec.toNat fp
    · funext i
      exact congrArg (fun fstack : Nat → Frame => (fstack i).has_branchpoint) fstack
    · funext i
      exact held_congr inv inv' mem nframe (congrArg (fun fstack : Nat → Frame => (fstack i).has_savepoint) fstack) rfl
    · change content _ _ _ = content _ _ _
      rw [ptr, mem]
      apply content_congr
      intro k lt
      apply bytes
      · rw [mem]
        exact Nat.le_add_right _ k
      · omega

theorem load_refines (inv : s.Inv) (fp : Uint) : check (sim_load s.sim fp) = (frames s.sim).load fp.toNat := by
  unfold Frames.load
  by_cases less : s.sim.fp < fp
  · rw [sim_load_error less, if_pos (by exact BitVec.lt_def.mp less)]
    rfl
  · rw [sim_load_ok less, if_neg (by exact fun lt => less (BitVec.lt_def.mpr lt))]
    have reloaded := reload_refines (inv.up_ok less)
    change check (sim_reload { s.sim with fp }) = match (frames s.sim).savepoint fp.toNat with
      | none => _
      | some v => .ok { frames s.sim with fp := fp.toNat, v } at reloaded
    cases saved : (frames s.sim).savepoint fp.toNat with
    | none =>
      rw [saved] at reloaded
      exact reloaded
    | some v =>
      rw [saved] at reloaded
      exact reloaded

theorem f_enter_fstack (sim : Sim) (i : Nat) : ((f_enter sim).fstack i).has_savepoint =
      (if i = sim.fp.toNat then false else (sim.fstack i).has_savepoint) ∧
    ((f_enter sim).fstack i).has_branchpoint = if i = sim.fp.toNat then false else (sim.fstack i).has_branchpoint := by
  simp only [f_enter, Sim.setTop_fstack]
  split
  · exact ⟨rfl, rfl⟩
  · exact ⟨rfl, rfl⟩

theorem enter_refines (inv : s.Inv) : check (sim_enter s.sim) = (frames s.sim).enter := by
  have top := inv.laid.top
  have next : (s.sim.fp + 1).toNat = s.sim.fp.toNat + 1 := by
    have := s.sim.nframe.isLt
    bv_omega
  unfold sim_enter Frames.enter
  by_cases overflow : s.sim.nframe ≤ s.sim.fp + 1
  · rw [if_pos overflow, if_pos (by
      change s.sim.nframe.toNat ≤ s.sim.fp.toNat + 1
      rw [← next]
      exact BitVec.le_def.mp overflow)]
    rfl
  · rw [if_neg overflow, if_neg (by
      change ¬ s.sim.nframe.toNat ≤ s.sim.fp.toNat + 1
      rw [← next]
      exact fun le => overflow (BitVec.le_def.mpr le))]
    have inv' := inv.enters
    have entered : sim_enter s.sim = (.SIM_OK, f_enter { s.sim with fp := s.sim.fp + 1 }) := by
      unfold sim_enter
      rw [if_neg overflow]
    rw [entered, State.entering, if_pos rfl] at inv'
    have flags := f_enter_fstack { s.sim with fp := s.sim.fp + 1 }
    rw [check]
    simp only [Except.ok.injEq]
    apply Frames.ext
    · rfl
    · exact next
    · funext i
      change ((f_enter { s.sim with fp := s.sim.fp + 1 }).fstack i).has_branchpoint =
        Function.update (frames s.sim).branchpoint (s.sim.fp.toNat + 1) false i
      rw [(flags i).2, Function.update_apply, next]
      rfl
    · funext i
      change held (f_enter { s.sim with fp := s.sim.fp + 1 }) i = Function.update (held s.sim) (s.sim.fp.toNat + 1) none i
      rw [Function.update_apply, ← next]
      split
      · rename_i new
        have bare := (flags i).1
        rw [if_pos new] at bare
        rw [held, bare]
        simp
      · rename_i other
        apply held_congr inv inv' rfl rfl
        · exact (flags i).1.trans (if_neg other)
        · exact Function.update_of_ne other _ _
    · rfl

theorem enter_branch_bind (sim : Frames (List (BitVec 8))) (fp : Nat) : sim.enter_branch fp =
    (if fp ≠ sim.fp then sim.load fp else .ok sim).bind fun sim =>
      if sim.branchpoint sim.fp then sim.enter else .error (.error "invalid branch point") := by
  unfold Frames.enter_branch
  split
  · rfl
  · rfl

theorem enter_branch_refines (inv : s.Inv) (fp : Uint) :
    check (sim_enter_branch s.sim fp) = (frames s.sim).enter_branch fp.toNat := by
  have first : check (enter_branch_load s.sim fp) =
      if fp.toNat ≠ (frames s.sim).fp then (frames s.sim).load fp.toNat else .ok (frames s.sim) := by
    unfold enter_branch_load
    by_cases same : fp = s.sim.fp
    · rw [if_pos same, if_neg (by simp [same, frames])]
      rfl
    · rw [if_neg same, if_pos (by exact fun eq => same (BitVec.eq_of_toNat_eq eq))]
      exact load_refines inv fp
  have inv' := inv.enter_branch_load fp
  rw [enter_branch_bind, ← first, sim_enter_branch]
  generalize enter_branch_load s.sim fp = loaded at inv'
  obtain ⟨status, sim⟩ := loaded
  cases status with
  | SIM_OK =>
    change check (if sim.top.has_branchpoint then sim_enter sim else (.SIM_EBRANCH, sim)) =
      if sim.top.has_branchpoint then (frames sim).enter else _
    cases sim.top.has_branchpoint with
    | true => exact enter_refines inv'
    | false => rfl
  | _ => rfl

/-! ## The client -/

theorem alloc_state (sz align : Word) (lifetime : Lifetime) :
    (s.call (.alloc sz align lifetime)).sim = (sim_alloc s.sim sz align lifetime).2 ∧
      (s.call (.alloc sz align lifetime)).saved = s.saved := by
  rw [State.call]
  rcases sim_alloc s.sim sz align lifetime with ⟨_ | p, sim⟩
  · cases s.sim.target lifetime with
    | none => exact ⟨rfl, rfl⟩
    | some h => exact ⟨rfl, rfl⟩
  · cases s.sim.target lifetime with
    | none => exact ⟨rfl, rfl⟩
    | some h => exact ⟨rfl, rfl⟩

theorem setHome_vstack_mem (sim : Sim) (h : Home) (sz align : Word) :
    (sim.setHome h (reg_alloc (sim.home h) sz align).2).vstack.mem = sim.vstack.mem := by
  cases h with
  | vstack =>
    change (reg_alloc sim.vstack sz align).2.mem = sim.vstack.mem
    unfold reg_alloc
    split
    · rfl
    · rfl
  | _ => rfl

/-- An allocation moves the position of a region. -/
theorem sim_alloc_keeps (sim : Sim) (sz align : Word) (lifetime : Lifetime) :
    (sim_alloc sim sz align lifetime).2.nframe = sim.nframe ∧ (sim_alloc sim sz align lifetime).2.fp = sim.fp ∧
      (sim_alloc sim sz align lifetime).2.vstack.mem = sim.vstack.mem ∧
      ∀ i, ((sim_alloc sim sz align lifetime).2.fstack i).has_savepoint = (sim.fstack i).has_savepoint ∧
        ((sim_alloc sim sz align lifetime).2.fstack i).has_branchpoint = (sim.fstack i).has_branchpoint := by
  cases target : sim.target lifetime with
  | none =>
    rw [sim_alloc_none target]
    exact ⟨rfl, rfl, rfl, fun _ => ⟨rfl, rfl⟩⟩
  | some h =>
    rw [sim_alloc_some target]
    refine ⟨sim.setHome_nframe h _, sim.setHome_fp h _, setHome_vstack_mem sim h sz align, fun i => ?_⟩
    rw [sim.setHome_fstack h _ i]
    exact ⟨rfl, rfl⟩

/-- What is not an operation on frames changes what is on the virtual stack at most. -/
theorem client_refines (inv : s.Inv) {c : Call} (legal : s.Legal c) (noWrap : s.NoWrap c)
    (client : (∃ sz align lifetime, c = .alloc sz align lifetime) ∨ ∃ address value, c = .write address value) :
    frames (s.call c).sim = { frames s.sim with v := (frames (s.call c).sim).v } := by
  have inv' := inv.call legal noWrap
  rcases client with ⟨sz, align, lifetime, rfl⟩ | ⟨address, value, rfl⟩
  · obtain ⟨sim, saved⟩ := alloc_state (s := s) sz align lifetime
    obtain ⟨nframe, fp, mem, flags⟩ := sim_alloc_keeps s.sim sz align lifetime
    rw [← sim] at nframe fp mem flags
    apply Frames.ext
    · exact congrArg BitVec.toNat nframe
    · exact congrArg BitVec.toNat fp
    · funext i
      exact (flags i).2
    · funext i
      exact held_congr inv inv' mem nframe (flags i).1 (congrFun saved i)
    · rfl
  · apply Frames.ext
    · rfl
    · rfl
    · rfl
    · funext i
      exact held_congr inv inv' rfl rfl rfl rfl
    · rfl

/-- What the operations do on bytes is what they do on frames. -/
structure Refined (s : State) : Prop where
  savepoint : ∃ room, check (sim_savepoint s.sim) = (frames s.sim).take_savepoint fun _ => room
  branch : ∃ room, check (sim_branch s.sim) = (frames s.sim).branch fun _ => room
  load : ∀ fp, check (sim_load s.sim fp) = (frames s.sim).load fp.toNat
  enter : check (sim_enter s.sim) = (frames s.sim).enter
  enter_branch : ∀ fp, check (sim_enter_branch s.sim fp) = (frames s.sim).enter_branch fp.toNat
  alloc : ∀ sz align lifetime, s.NoWrap (.alloc sz align lifetime) → frames (s.call (.alloc sz align lifetime)).sim =
    { frames s.sim with v := (frames (s.call (.alloc sz align lifetime)).sim).v }
  write : ∀ address value, s.Legal (.write address value) → frames (s.call (.write address value)).sim =
    { frames s.sim with v := (frames (s.call (.write address value)).sim).v }

end

/-- In every run from `sim_create` in which the record fits and no allocation wraps, the simulator refines its
frames. -/
theorem sim_refines {start s : State} (created : start.Created) (fits : start.sim.RecordFits)
    (run : State.Run (fun s c => s.Legal c ∧ s.NoWrap c) start s) : Refined s := by
  have inv := run.inv (created.inv fits)
  constructor
  · exact savepoint_refines inv
  · exact branch_refines inv
  · exact load_refines inv
  · exact enter_refines inv
  · exact enter_branch_refines inv
  · intro sz align lifetime noWrap
    exact client_refines inv trivial noWrap (.inl ⟨sz, align, lifetime, rfl⟩)
  · intro address value legal
    exact client_refines inv legal trivial (.inr ⟨address, value, rfl⟩)

theorem sim_refines_saved : Refined Wrap.saved :=
  sim_refines Wrap.newState_created Wrap.newState_fits
    (Wrap.run_saved ⟨trivial, by rintro h ⟨⟩; decide +kernel⟩ ⟨Wrap.write_legal, trivial⟩ ⟨trivial, trivial⟩)

end M2.Control
