import M2.Mem.Layout
import Mathlib.Logic.Relation

/-!
# Savepoints

The runs of a sim next to what the client may rely on: the live blocks that `sim_alloc`
returned, and for every frame the state in which its savepoint was taken. In a run whose
allocations do not wrap, a reload gives that state back, and no operation writes into a live
static or frame block. A wrapping size moves the position of a region back, over the savepoint.
-/
namespace M2.Mem

/-- A block returned by `sim_alloc`. -/
structure Block where
  home : Home
  start : Nat
  size : Nat
  deriving DecidableEq

/-- The virtual stack at the time of a savepoint. -/
structure Snapshot where
  ptr : Word
  bytes : Bytes

structure State where
  sim : Sim
  /-- The live blocks. -/
  blocks : List Block
  /-- The current savepoint of each frame. -/
  saved : Nat → Option Snapshot

/-- The operations, and a write of the client. -/
inductive Call where
  | alloc (sz align : Word) (lifetime : Lifetime)
  | savepoint
  | branch
  | up (fp : Uint)
  | load (fp : Uint)
  | reload
  | enter
  | enter_branch (fp : Uint)
  | write (address : Nat) (value : BitVec 8)

/-- After an operation that does not enter a frame: a stack block above the position is gone. -/
def State.settle (s : State) (sim : Sim) : State :=
  { s with
    sim
    blocks := s.blocks.filter fun b => b.home ≠ .vstack ∨ b.start + b.size ≤ sim.vstack.ptr.toNat }

/-- After an operation that has entered a frame: its blocks and its savepoint are gone. -/
def State.enter (s : State) (sim : Sim) : State :=
  { sim
    blocks := (s.settle sim).blocks.filter fun b => b.home ≠ .frame sim.fp.toNat
    saved := Function.update s.saved sim.fp.toNat none }

/-- After an attempt to enter a frame. -/
def State.entering (s : State) (outcome : Status × Sim) : State :=
  if outcome.1 = .SIM_OK then s.enter outcome.2 else s.settle outcome.2

/-- After an attempt to take a savepoint. -/
def State.saving (s : State) (outcome : Status × Sim) : State :=
  { s with
    sim := outcome.2
    saved :=
      if outcome.1 = .SIM_OK then
        Function.update s.saved s.sim.fp.toNat (some ⟨s.sim.vstack.ptr, s.sim.bytes⟩)
      else s.saved }

/-- After an allocation. -/
def State.taking (s : State) (sz : Word) : Option Home → Option Word × Sim → State
  | some home, (some p, sim) => { s with sim, blocks := ⟨home, p.toNat, sz.toNat⟩ :: s.blocks }
  | _, (_, sim) => { s with sim }

def State.call (s : State) : Call → State
  | .alloc sz align lifetime => s.taking sz (s.sim.target lifetime) (sim_alloc s.sim sz align lifetime)
  | .savepoint => s.saving (sim_savepoint s.sim)
  | .branch => s.saving (sim_branch s.sim)
  | .up fp => s.settle (sim_up s.sim fp).2
  | .load fp => s.settle (sim_load s.sim fp).2
  | .reload => s.settle (sim_reload s.sim).2
  | .enter => s.entering (sim_enter s.sim)
  | .enter_branch fp => s.entering (sim_enter_branch s.sim fp)
  | .write address value => { s with sim := { s.sim with bytes := Function.update s.sim.bytes address value } }

/-- An address inside a block. -/
def Block.Covers (b : Block) (a : Nat) : Prop := b.start ≤ a ∧ a < b.start + b.size

/-- The client writes into live blocks only. -/
def State.Legal (s : State) : Call → Prop
  | .write address _ => ∃ b ∈ s.blocks, b.Covers address
  | _ => True

/-- An allocation does not wrap. -/
def State.NoWrap (s : State) : Call → Prop
  | .alloc sz align lifetime => ∀ h, s.sim.target lifetime = some h → Fits (s.sim.home h).ptr sz align
  | _ => True

/-- A sim that `sim_create` has just returned. -/
def State.Created (s : State) : Prop :=
  ∃ (vm_map_probe : Word → Word) (bytes : Bytes) (nframe rsize : Uint),
    (∀ size, (vm_map_probe size).toNat + size.toNat ≤ 2 ^ 64) ∧ 64 ≤ rsize.toNat ∧
      sim_create vm_map_probe bytes nframe rsize = some s.sim ∧ s.blocks = [] ∧ s.saved = fun _ => none

/-- Runs whose calls satisfy a condition. -/
abbrev State.Run (condition : State → Call → Prop) : State → State → Prop :=
  Relation.ReflTransGen fun s t => ∃ c, condition s c ∧ t = s.call c

/-- The virtual stack is as it was in the snapshot. -/
def Sim.Restored (sim : Sim) (snap : Snapshot) : Prop :=
  sim.vstack.ptr = snap.ptr ∧
    ∀ a, sim.vstack.mem.toNat ≤ a → a < snap.ptr.toNat → sim.bytes a = snap.bytes a

/-! ## The invariant -/

/-- The savepoint of frame `i` is held in its region. -/
structure Held (sim : Sim) (i : Nat) (snap : Snapshot) : Prop where
  ptr : (sim.fstack i).sp_ptr = snap.ptr
  low : sim.vstack.mem.toNat ≤ snap.ptr.toNat
  high : snap.ptr.toNat ≤ sim.vstack.stop.toNat
  aligned : (sim.fstack i).sp_data.toNat % 64 = 0
  data_low : (sim.fstack i).mem.mem.toNat ≤ (sim.fstack i).sp_data.toNat
  data_high : (sim.fstack i).sp_data.toNat + (snap.ptr.toNat - sim.vstack.mem.toNat) ≤ (sim.fstack i).mem.ptr.toNat
  bytes : ∀ k < snap.ptr.toNat - sim.vstack.mem.toNat,
    sim.bytes ((sim.fstack i).sp_data.toNat + k) = snap.bytes (sim.vstack.mem.toNat + k)

structure State.Inv (s : State) : Prop where
  laid : s.sim.Laid
  record : s.sim.stat.mem.toNat + (72 + 48 * s.sim.nframe.toNat) ≤ s.sim.stat.ptr.toNat
  inside : ∀ b ∈ s.blocks, s.sim.Has b.home ∧ (s.sim.home b.home).mem.toNat ≤ b.start ∧
    b.start + b.size ≤ (s.sim.home b.home).ptr.toNat
  clear : ∀ b ∈ s.blocks, b.home = .stat → s.sim.stat.mem.toNat + (72 + 48 * s.sim.nframe.toNat) ≤ b.start
  held : ∀ i < s.sim.nframe.toNat, (s.sim.fstack i).has_savepoint = true →
    ∃ snap, s.saved i = some snap ∧ Held s.sim i snap ∧
      ∀ b ∈ s.blocks, b.home = .frame i → b.start + b.size ≤ (s.sim.fstack i).sp_data.toNat ∨
        (s.sim.fstack i).sp_data.toNat + (snap.ptr.toNat - s.sim.vstack.mem.toNat) ≤ b.start

/-- Fewer blocks keep the invariant. -/
theorem State.Inv.fewer {s : State} (inv : s.Inv) {blocks : List Block} (fewer : ∀ b ∈ blocks, b ∈ s.blocks) :
    State.Inv { s with blocks } :=
  ⟨inv.laid, inv.record, fun b mem => inv.inside b (fewer b mem), fun b mem => inv.clear b (fewer b mem),
    fun i less has => by
      obtain ⟨snap, saved, held, apart⟩ := inv.held i less has
      exact ⟨snap, saved, held, fun b mem => apart b (fewer b mem)⟩⟩

/-- A sim the invariant cannot tell from another one. -/
structure SameView (sim sim' : Sim) : Prop where
  top : sim'.fp.toNat < sim'.nframe.toNat
  nframe : sim'.nframe = sim.nframe
  home : ∀ h, sim'.home h = sim.home h
  bytes : sim'.bytes = sim.bytes
  held : ∀ i, (sim'.fstack i).has_savepoint = true → (sim.fstack i).has_savepoint = true ∧
    (sim'.fstack i).sp_ptr = (sim.fstack i).sp_ptr ∧ (sim'.fstack i).sp_data = (sim.fstack i).sp_data

theorem State.Inv.view {s : State} (inv : s.Inv) {sim : Sim} (same : SameView s.sim sim) :
    State.Inv { s with sim } := by
  have stat : sim.stat = s.sim.stat := same.home .stat
  have vstack : sim.vstack = s.sim.vstack := same.home .vstack
  have mem : ∀ i, (sim.fstack i).mem = (s.sim.fstack i).mem := fun i => same.home (.frame i)
  refine ⟨inv.laid.move same.top same.nframe (fun h => ?_) fun h present => ?_, ?_, fun b live => ?_, ?_,
    fun i less has => ?_⟩
  · rw [same.home]
    exact ⟨rfl, rfl⟩
  · rw [same.home]
    exact ⟨(inv.laid.sound h present).mem_le, (inv.laid.sound h present).ptr_le⟩
  · simpa only [stat, same.nframe] using inv.record
  · have inside := inv.inside b live
    simp only [same.home]
    refine ⟨?_, inside.2⟩
    have present := inside.1
    cases home : b.home with
    | frame i =>
      rw [home] at present
      show i < sim.nframe.toNat
      rwa [same.nframe]
    | _ => trivial
  · simpa only [stat, same.nframe] using inv.clear
  · obtain ⟨has, ptr, data⟩ := same.held i has
    obtain ⟨snap, saved, held, apart⟩ := inv.held i (same.nframe ▸ less) has
    simp only [vstack, data]
    refine ⟨snap, saved, ?_, apart⟩
    refine ⟨by rw [ptr, held.ptr], ?_, ?_, ?_, ?_, ?_, ?_⟩ <;> simp only [vstack, data, mem, same.bytes]
    · exact held.low
    · exact held.high
    · exact held.aligned
    · exact held.data_low
    · exact held.data_high
    · exact held.bytes

/-- Other bytes that agree where savepoints are held. -/
theorem State.Inv.rewrite {s : State} (inv : s.Inv) {b : Bytes}
    (agree : ∀ i < s.sim.nframe.toNat, (s.sim.fstack i).has_savepoint = true → ∀ snap, s.saved i = some snap →
      ∀ k < snap.ptr.toNat - s.sim.vstack.mem.toNat,
        b ((s.sim.fstack i).sp_data.toNat + k) = s.sim.bytes ((s.sim.fstack i).sp_data.toNat + k)) :
    State.Inv { s with sim := { s.sim with bytes := b } } := by
  refine ⟨inv.laid.move inv.laid.top rfl (fun h => ?_) fun h present => ?_, inv.record, fun b live => ?_, inv.clear,
    fun i less has => ?_⟩
  · cases h <;> exact ⟨rfl, rfl⟩
  · have sound := inv.laid.sound h present
    cases h <;> exact ⟨sound.mem_le, sound.ptr_le⟩
  · have inside := inv.inside b live
    revert inside
    cases b.home <;> exact id
  · obtain ⟨snap, saved, held, apart⟩ := inv.held i less has
    exact ⟨snap, saved, ⟨held.ptr, held.low, held.high, held.aligned, held.data_low, held.data_high,
      fun k lt => (agree i less has snap saved k lt).trans (held.bytes k lt)⟩, apart⟩

/-- The position of a region moves up. -/
theorem State.Inv.advance {s : State} (inv : s.Inv) {h : Home} {r : Region} (bounds : r.SameBounds (s.sim.home h))
    (up : (s.sim.home h).ptr.toNat ≤ r.ptr.toNat) (below : r.ptr.toNat ≤ (s.sim.home h).stop.toNat) :
    State.Inv { s with sim := s.sim.setHome h r } := by
  have home := s.sim.setHome_home h (r := r)
  have same : ∀ h', ((s.sim.setHome h r).home h').SameBounds (s.sim.home h') := by
    intro h'
    rw [home]
    split
    · rename_i eq
      exact eq ▸ bounds
    · exact ⟨rfl, rfl⟩
  have ptr : ∀ h', (s.sim.home h').ptr.toNat ≤ ((s.sim.setHome h r).home h').ptr.toNat := by
    intro h'
    rw [home]
    split
    · rename_i eq
      exact eq ▸ up
    · exact le_rfl
  have vstack : (s.sim.setHome h r).vstack.SameBounds s.sim.vstack := same .vstack
  have stat : (s.sim.setHome h r).stat.mem = s.sim.stat.mem := (same .stat).1
  have frame := s.sim.setHome_fstack h r
  refine ⟨inv.laid.move (by simpa using inv.laid.top) (by simp) same fun h' present => ?_, ?_, fun b live => ?_, ?_,
    fun i less has => ?_⟩
  · have sound := inv.laid.sound h' present
    refine ⟨sound.mem_le.trans (ptr h'), ?_⟩
    rw [home]
    split
    · rename_i eq
      exact eq ▸ below
    · exact sound.ptr_le
  · have := inv.record
    have := ptr .stat
    simp only [Sim.home] at this
    simp only [stat, Sim.setHome_nframe]
    omega
  · obtain ⟨present, low, high⟩ := inv.inside b live
    refine ⟨?_, by rw [(same b.home).1]; exact low, high.trans (ptr b.home)⟩
    revert present
    cases b.home <;> simp [Sim.Has]
  · simpa only [stat, Sim.setHome_nframe] using inv.clear
  · simp only [Sim.setHome_nframe] at less
    rw [frame] at has
    obtain ⟨snap, saved, held, apart⟩ := inv.held i less has
    have data : ((s.sim.setHome h r).fstack i).sp_data = (s.sim.fstack i).sp_data := by rw [frame]
    have mem : ((s.sim.setHome h r).fstack i).mem.mem = (s.sim.fstack i).mem.mem := (same (.frame i)).1
    refine ⟨snap, saved, ⟨by rw [frame]; exact held.ptr, ?_, ?_, ?_, ?_, ?_, ?_⟩, ?_⟩ <;>
      simp only [data, vstack.1, vstack.2, mem, Sim.setHome_bytes]
    · exact held.low
    · exact held.high
    · exact held.aligned
    · exact held.data_low
    · exact held.data_high.trans (ptr (.frame i))
    · exact held.bytes
    · exact apart

/-- A block above all that its region holds becomes live. -/
theorem State.Inv.push {s : State} (inv : s.Inv) {b : Block} (present : s.sim.Has b.home)
    (low : (s.sim.home b.home).mem.toNat ≤ b.start) (high : b.start + b.size ≤ (s.sim.home b.home).ptr.toNat)
    (clear : b.home = .stat → s.sim.stat.mem.toNat + (72 + 48 * s.sim.nframe.toNat) ≤ b.start)
    (apart : ∀ i, b.home = .frame i → (s.sim.fstack i).has_savepoint = true → ∀ snap, s.saved i = some snap →
      (s.sim.fstack i).sp_data.toNat + (snap.ptr.toNat - s.sim.vstack.mem.toNat) ≤ b.start) :
    State.Inv { s with blocks := b :: s.blocks } := by
  refine ⟨inv.laid, inv.record, fun b' live => ?_, fun b' live is_stat => ?_, fun i less has => ?_⟩
  · rcases List.mem_cons.mp live with rfl | live
    · exact ⟨present, low, high⟩
    · exact inv.inside b' live
  · rcases List.mem_cons.mp live with rfl | live
    · exact clear is_stat
    · exact inv.clear b' live is_stat
  · obtain ⟨snap, saved, held, others⟩ := inv.held i less has
    refine ⟨snap, saved, held, fun b' live is_frame => ?_⟩
    rcases List.mem_cons.mp live with rfl | live
    · exact .inr (apart i is_frame has snap saved)
    · exact others b' live is_frame

/-! ## The operations -/

theorem target_has {sim : Sim} (laid : sim.Laid) {lifetime : Lifetime} {h : Home}
    (target : sim.target lifetime = some h) : sim.Has h := by
  cases lifetime <;> cases target
  · trivial
  · exact laid.top
  · trivial

theorem State.Inv.alloc {s : State} (inv : s.Inv) {sz align : Word} {lifetime : Lifetime}
    (noWrap : s.NoWrap (.alloc sz align lifetime)) : (s.call (.alloc sz align lifetime)).Inv := by
  simp only [State.call]
  cases target : s.sim.target lifetime with
  | none =>
    rw [sim_alloc_none target]
    exact inv
  | some h =>
    have present := target_has inv.laid target
    rw [sim_alloc_some target]
    rcases taken : reg_alloc (s.sim.home h) sz align with ⟨_ | p, r⟩
    · simp only [State.taking]
      rw [reg_alloc_none taken]
      exact inv.advance ⟨rfl, rfl⟩ le_rfl (inv.laid.sound h present).ptr_le
    · obtain ⟨-, same, low, next, below⟩ := reg_alloc_some (noWrap h target) taken
      have bounds : r.SameBounds (s.sim.home h) := by
        rw [same]
        exact ⟨rfl, rfl⟩
      have moved := inv.advance bounds (by omega) (by omega)
      have home := s.sim.setHome_home h (r := r)
      have stat : (s.sim.setHome h r).stat.mem = s.sim.stat.mem := by
        have := home .stat
        simp only [Sim.home] at this
        rw [this]
        split
        · rename_i eq
          cases eq
          exact bounds.1
        · rfl
      show State.Inv { sim := s.sim.setHome h r, blocks := ⟨h, p.toNat, sz.toNat⟩ :: s.blocks, saved := s.saved }
      refine moved.push ?_ ?_ ?_ ?_ ?_
      · revert present
        cases h <;> simp [Sim.Has]
      · simp only [home, if_true, bounds.1]
        exact (inv.laid.sound h present).mem_le.trans low
      · simp only [home, if_true]
        exact next.ge
      · rintro rfl
        simp only [stat, Sim.setHome_nframe]
        exact inv.record.trans low
      · rintro i rfl has snap saved
        have less : i < s.sim.nframe.toNat := present
        have data : ((s.sim.setHome (.frame i) r).fstack i).sp_data = (s.sim.fstack i).sp_data := by
          rw [Sim.setHome_fstack]
        rw [Sim.setHome_fstack] at has
        obtain ⟨snap', saved', held, -⟩ := inv.held i less has
        cases saved.symm.trans saved'
        simp only [data]
        exact held.data_high.trans low

/-- The room a savepoint asks for does not wrap: the virtual stack lies above the frames. -/
theorem State.Inv.savepoint_fits {s : State} (inv : s.Inv) :
    Fits s.sim.top.mem.ptr (s.sim.vstack.ptr - s.sim.vstack.mem) 64 := by
  have sound := inv.laid.sound (.frame s.sim.fp.toNat) inv.laid.top
  have vstack := inv.laid.sound .vstack trivial
  have above : s.sim.top.mem.stop.toNat ≤ s.sim.vstack.mem.toNat :=
    inv.laid.above (.frame s.sim.fp.toNat) inv.laid.top (by simp)
  have ptr_le : s.sim.top.mem.ptr.toNat ≤ s.sim.top.mem.stop.toNat := sound.ptr_le
  have stop_aligned : s.sim.top.mem.stop.toNat % 64 = 0 := sound.stop_aligned
  have mem_le : s.sim.vstack.mem.toNat ≤ s.sim.vstack.ptr.toNat := vstack.mem_le
  have distance : (s.sim.vstack.ptr - s.sim.vstack.mem).toNat = s.sim.vstack.ptr.toNat - s.sim.vstack.mem.toNat :=
    vstack.distance
  have := s.sim.vstack.ptr.isLt
  have := s.sim.top.mem.stop.isLt
  have size : (64 : Word).toNat = 64 := rfl
  have room : s.sim.top.mem.ptr.toNat + ((64 : Word).toNat - 1) < 2 ^ 64 := by omega
  have high := le_add_ALIGN (m := 64) (by decide) room
  have aligned := ALIGN_block s.sim.top.mem.ptr
  refine ⟨by decide, room, ?_⟩
  rw [distance]
  omega

theorem sim_savepoint_double {sim : Sim} (has : sim.top.has_savepoint = true) :
    sim_savepoint sim = (.SIM_ESAVE, sim) := by
  simp [sim_savepoint, has]

theorem sim_savepoint_full {sim : Sim} {r : Region} (has : sim.top.has_savepoint = false)
    (full : reg_alloc sim.top.mem (sim.vstack.ptr - sim.vstack.mem) 64 = (none, r)) :
    sim_savepoint sim =
      (.SIM_EALLOC, sim.setTop { sim.top with mem := r, sp_data := 0, sp_ptr := sim.vstack.ptr }) := by
  unfold sim_savepoint
  simp only [has, full, Bool.false_eq_true, if_false, Option.getD_none, if_true]

theorem sim_savepoint_taken {sim : Sim} {p : Word} {r : Region} (has : sim.top.has_savepoint = false)
    (taken : reg_alloc sim.top.mem (sim.vstack.ptr - sim.vstack.mem) 64 = (some p, r)) (positive : p ≠ 0) :
    sim_savepoint sim = (.SIM_OK,
      { sim.setTop { sim.top with mem := r, sp_data := p, sp_ptr := sim.vstack.ptr, has_savepoint := true } with
        bytes := blockcpy sim.bytes p.toNat sim.vstack.mem.toNat (sim.vstack.ptr - sim.vstack.mem).toNat }) := by
  unfold sim_savepoint
  simp only [has, taken, Bool.false_eq_true, if_false, Option.getD_some, positive]

/-- Storing a top frame with the same memory, and a savepoint only where it had one. -/
theorem SameView.setTop {sim : Sim} (top : sim.fp.toNat < sim.nframe.toNat) {f : Frame}
    (mem : f.mem = sim.top.mem) (held : f.has_savepoint = true → sim.top.has_savepoint = true ∧
      f.sp_ptr = sim.top.sp_ptr ∧ f.sp_data = sim.top.sp_data) : SameView sim (sim.setTop f) := by
  refine ⟨top, rfl, fun h => ?_, rfl, fun i has => ?_⟩
  · cases h with
    | frame i =>
      simp only [Sim.home, Sim.setTop_fstack]
      split
      · rename_i eq
        rw [mem, eq, Sim.top]
      · rfl
    | _ => rfl
  · simp only [Sim.setTop_fstack] at has ⊢
    split at has
    · rename_i eq
      rw [if_pos eq, eq]
      exact held has
    · rename_i other
      rw [if_neg other]
      exact ⟨has, rfl, rfl⟩

theorem SameView.refl {sim : Sim} (top : sim.fp.toNat < sim.nframe.toNat) : SameView sim sim :=
  ⟨top, rfl, fun _ => rfl, rfl, fun _ has => ⟨has, rfl, rfl⟩⟩

/-- The top frame after a savepoint at `p`. -/
def savedFrame (sim : Sim) (p : Word) (r : Region) : Frame :=
  { sim.top with mem := r, sp_data := p, sp_ptr := sim.vstack.ptr, has_savepoint := true }

/-- The bytes after a savepoint at `p`. -/
def savedBytes (sim : Sim) (p : Word) : Bytes :=
  blockcpy sim.bytes p.toNat sim.vstack.mem.toNat (sim.vstack.ptr.toNat - sim.vstack.mem.toNat)

/-- What a savepoint does where it succeeds. -/
structure Taken (sim : Sim) (p : Word) (r : Region) : Prop where
  fresh : sim.top.has_savepoint = false
  bounds : r.SameBounds sim.top.mem
  low : sim.top.mem.ptr.toNat ≤ p.toNat
  next : r.ptr.toNat = p.toNat + (sim.vstack.ptr.toNat - sim.vstack.mem.toNat)
  below : r.ptr.toNat < sim.top.mem.stop.toNat
  aligned : p.toNat % 64 = 0
  result : sim_savepoint sim = (.SIM_OK, { sim.setTop (savedFrame sim p r) with bytes := savedBytes sim p })

/-- What `sim_savepoint` can do. -/
theorem sim_savepoint_cases {s : State} (inv : s.Inv) :
    (sim_savepoint s.sim).1 ≠ .SIM_OK ∧ SameView s.sim (sim_savepoint s.sim).2 ∨ ∃ p r, Taken s.sim p r := by
  have sound := inv.laid.sound (.frame s.sim.fp.toNat) inv.laid.top
  have distance : (s.sim.vstack.ptr - s.sim.vstack.mem).toNat = s.sim.vstack.ptr.toNat - s.sim.vstack.mem.toNat :=
    (inv.laid.sound .vstack trivial).distance
  cases has : s.sim.top.has_savepoint with
  | true =>
    rw [sim_savepoint_double has]
    exact .inl ⟨by simp, .refl inv.laid.top⟩
  | false =>
    rcases taken : reg_alloc s.sim.top.mem (s.sim.vstack.ptr - s.sim.vstack.mem) 64 with ⟨_ | p, r⟩
    · rw [sim_savepoint_full has taken]
      refine .inl ⟨by simp, .setTop inv.laid.top (reg_alloc_none taken) fun held => ?_⟩
      rw [has] at held
      cases held
    · obtain ⟨start, same, low, next, below⟩ := reg_alloc_some inv.savepoint_fits taken
      have positive : p ≠ 0 := by
        rintro rfl
        have : 0 < s.sim.top.mem.mem.toNat := sound.positive
        have : s.sim.top.mem.mem.toNat ≤ s.sim.top.mem.ptr.toNat := sound.mem_le
        have : s.sim.top.mem.ptr.toNat ≤ 0 := low
        omega
      refine .inr ⟨p, r, has, ?_, low, by omega, below, start ▸ ALIGN_block _, ?_⟩
      · rw [same]
        exact ⟨rfl, rfl⟩
      · rw [sim_savepoint_taken has taken positive, distance]
        rfl

/-- A savepoint is recorded in the top frame. -/
theorem State.Inv.install {s : State} (inv : s.Inv) {f : Frame} {snap : Snapshot} (mem : f.mem = s.sim.top.mem)
    (held : Held (s.sim.setTop f) s.sim.fp.toNat snap)
    (clear : ∀ b ∈ s.blocks, b.home = .frame s.sim.fp.toNat → b.start + b.size ≤ f.sp_data.toNat) :
    State.Inv { s with
      sim := s.sim.setTop f
      saved := Function.update s.saved s.sim.fp.toNat (some snap) } := by
  -- without the new savepoint, the top frame is one that has none
  have bare := inv.view (.setTop (f := { f with has_savepoint := false }) inv.laid.top mem (by simp))
  have home : ∀ h, (s.sim.setTop f).home h = (s.sim.setTop { f with has_savepoint := false }).home h := by
    intro h
    cases h with
    | frame i =>
      simp only [Sim.home, Sim.setTop_fstack]
      split <;> rfl
    | _ => rfl
  refine ⟨bare.laid.move inv.laid.top rfl (fun h => home h ▸ ⟨rfl, rfl⟩) fun h present => ?_, inv.record,
    fun b live => ?_, inv.clear, fun i less has => ?_⟩
  · rw [home h]
    exact ⟨(bare.laid.sound h present).mem_le, (bare.laid.sound h present).ptr_le⟩
  · simp only [home]
    obtain ⟨present, within⟩ := bare.inside b live
    refine ⟨?_, within⟩
    revert present
    cases b.home <;> exact id
  · by_cases top : i = s.sim.fp.toNat
    · subst top
      refine ⟨snap, by simp, held, fun b live is_frame => .inl ?_⟩
      simpa only [Sim.setTop_fstack, if_true] using clear b live is_frame
    · simp only [Sim.setTop_fstack, if_neg top] at has
      obtain ⟨snap', saved, held', apart⟩ := bare.held i less (by simpa only [Sim.setTop_fstack, if_neg top])
      have frame : (s.sim.setTop f).fstack i = (s.sim.setTop { f with has_savepoint := false }).fstack i := by
        simp only [Sim.setTop_fstack, if_neg top]
      refine ⟨snap', by simpa only [Function.update_of_ne top], ?_, ?_⟩
      · refine ⟨?_, held'.low, held'.high, ?_, ?_, ?_, ?_⟩ <;> simp only [frame]
        · exact held'.ptr
        · exact held'.aligned
        · exact held'.data_low
        · exact held'.data_high
        · exact held'.bytes
      · simp only [frame]
        exact apart

/-- The whole blocks of a savepoint lie in its region. -/
theorem Taken.room {sim : Sim} (laid : sim.Laid) {p : Word} {r : Region} (taken : Taken sim p r) :
    p.toNat + copied (sim.vstack.ptr.toNat - sim.vstack.mem.toNat) ≤ sim.top.mem.stop.toNat := by
  have next := taken.next
  have below := taken.below
  exact copied_within taken.aligned (laid.sound (.frame sim.fp.toNat) laid.top).stop_aligned (by omega)

/-- A savepoint writes above what its region holds. -/
theorem Taken.bytes {s : State} (inv : s.Inv) {p : Word} {r : Region} (taken : Taken s.sim p r) (a : Nat)
    (outside : a < s.sim.top.mem.ptr.toNat ∨ s.sim.top.mem.stop.toNat ≤ a) :
    (sim_savepoint s.sim).2.bytes a = s.sim.bytes a := by
  rw [taken.result]
  have := taken.room inv.laid
  have := taken.low
  exact blockcpy_frame _ _ _ _ _ (by omega)

theorem State.Inv.savepoint {s : State} (inv : s.Inv) : (s.saving (sim_savepoint s.sim)).Inv := by
  rcases sim_savepoint_cases inv with ⟨failed, same⟩ | ⟨p, r, taken⟩
  · rw [State.saving, if_neg failed]
    exact inv.view same
  · have sound := inv.laid.sound (.frame s.sim.fp.toNat) inv.laid.top
    have vstack := inv.laid.sound .vstack trivial
    have above := inv.laid.above (.frame s.sim.fp.toNat) inv.laid.top (by simp)
    have outside := taken.bytes inv
    have next := taken.next
    have low := taken.low
    have below := taken.below
    have mem_le : s.sim.top.mem.mem.toNat ≤ s.sim.top.mem.ptr.toNat := sound.mem_le
    have stop_le : s.sim.top.mem.stop.toNat ≤ s.sim.vstack.mem.toNat := above
    rw [taken.result] at outside ⊢
    -- the room is taken, then the bytes are copied, then the frame records the savepoint
    have moved := inv.advance (h := .frame s.sim.fp.toNat) taken.bounds
      (show s.sim.top.mem.ptr.toNat ≤ r.ptr.toNat by omega)
      (show r.ptr.toNat ≤ s.sim.top.mem.stop.toNat by omega)
    have copied := moved.rewrite (b := savedBytes s.sim p) (fun i less has snap saved k lt => by
      have other : i ≠ s.sim.fp.toNat := by
        rintro rfl
        rw [Sim.setHome_fstack] at has
        exact absurd (taken.fresh.symm.trans has) (by simp)
      have data : ((s.sim.setHome (.frame s.sim.fp.toNat) r).fstack i) = s.sim.fstack i := by
        simp [Sim.setHome, other]
      simp only [data, Sim.setHome_nframe, Sim.setHome_bytes] at *
      obtain ⟨snap', saved', held, -⟩ := inv.held i less has
      cases saved.symm.trans saved'
      have there := inv.laid.sound (.frame i) less
      have apart := inv.laid.apart (.frame i) (.frame s.sim.fp.toNat) less inv.laid.top (by simpa using other)
      have data_low := held.data_low
      have data_high := held.data_high
      have ptr_le := there.ptr_le
      have lt : k < snap.ptr.toNat - s.sim.vstack.mem.toNat := lt
      apply outside
      simp only [Region.Apart, Sim.home, Sim.top] at *
      omega)
    have eq : ({ s.sim.setHome (.frame s.sim.fp.toNat) r with bytes := savedBytes s.sim p } : Sim).setTop
        (savedFrame s.sim p r) = { s.sim.setTop (savedFrame s.sim p r) with bytes := savedBytes s.sim p } := by
      simp [Sim.setTop, Sim.setHome, Function.update_idem]
    have top : (s.sim.setTop (savedFrame s.sim p r)).fstack s.sim.fp.toNat = savedFrame s.sim p r :=
      s.sim.setTop_top _
    have held : Held { s.sim.setTop (savedFrame s.sim p r) with bytes := savedBytes s.sim p } s.sim.fp.toNat
        ⟨s.sim.vstack.ptr, s.sim.bytes⟩ := by
      refine ⟨?_, vstack.mem_le, vstack.ptr_le, ?_, ?_, ?_, fun k lt => ?_⟩ <;> simp only [top]
      · rfl
      · exact taken.aligned
      · show r.mem.toNat ≤ p.toNat
        rw [taken.bounds.1]
        omega
      · exact next.ge
      · exact blockcpy_read _ _ _ _ _ (lt_of_lt_of_le lt (le_copied _))
          (.inr ((taken.room inv.laid).trans stop_le))
    rw [← eq] at held
    have installed := copied.install (by simp [Sim.top, Sim.setHome, savedFrame]) held fun b live is_frame => by
      have inside := (inv.inside b live).2.2
      rw [show b.home = .frame s.sim.fp.toNat from is_frame] at inside
      exact inside.trans low
    rwa [eq] at installed

/-- The live static and frame blocks lie below the virtual stack. -/
theorem State.Inv.below {s : State} (inv : s.Inv) {b : Block} (live : b ∈ s.blocks) (other : b.home ≠ .vstack)
    {a : Nat} (covers : b.Covers a) : a < s.sim.vstack.mem.toNat := by
  obtain ⟨present, -, high⟩ := inv.inside b live
  have := (inv.laid.sound _ present).ptr_le
  have := inv.laid.above _ present other
  have := covers.2
  omega

/-- The position of the virtual stack moves down, to one inside the region. -/
theorem State.Inv.retreat {s : State} (inv : s.Inv) {ptr : Word} (low : s.sim.vstack.mem.toNat ≤ ptr.toNat)
    (high : ptr.toNat ≤ s.sim.vstack.stop.toNat) :
    (s.settle { s.sim with vstack := { s.sim.vstack with ptr } }).Inv := by
  refine ⟨inv.laid.move inv.laid.top rfl (fun h => ?_) fun h present => ?_, inv.record, fun b live => ?_,
    fun b live => inv.clear b (List.mem_filter.mp live).1, fun i less has => ?_⟩
  · cases h <;> exact ⟨rfl, rfl⟩
  · have sound := inv.laid.sound h present
    cases h with
    | vstack => exact ⟨low, high⟩
    | _ => exact ⟨sound.mem_le, sound.ptr_le⟩
  · obtain ⟨live, below⟩ := List.mem_filter.mp live
    have inside := inv.inside b live
    simp only [ne_eq, decide_eq_true_eq] at below
    revert inside below
    cases b.home with
    | vstack => exact fun inside below => ⟨trivial, inside.2.1, below.resolve_left (by simp)⟩
    | _ => exact fun inside _ => inside
  · obtain ⟨snap, saved, held, apart⟩ := inv.held i less has
    exact ⟨snap, saved, ⟨held.ptr, held.low, held.high, held.aligned, held.data_low, held.data_high, held.bytes⟩,
      fun b live => apart b (List.mem_filter.mp live).1⟩

/-- What a successful reload does. -/
theorem sim_reload_spec {s : State} (inv : s.Inv) (ok : (sim_reload s.sim).1 = .SIM_OK) :
    ∃ snap, s.saved s.sim.fp.toNat = some snap ∧ (sim_reload s.sim).2.Restored snap ∧
      (∀ a < s.sim.vstack.mem.toNat, (sim_reload s.sim).2.bytes a = s.sim.bytes a) ∧
      (s.settle (sim_reload s.sim).2).Inv := by
  unfold sim_reload at ok ⊢
  cases has : s.sim.top.has_savepoint with
  | false => simp [has] at ok
  | true =>
    obtain ⟨snap, saved, held, -⟩ := inv.held _ inv.laid.top has
    have sound := inv.laid.sound (.frame s.sim.fp.toNat) inv.laid.top
    have stop_le : s.sim.top.mem.stop.toNat ≤ s.sim.vstack.mem.toNat :=
      inv.laid.above (.frame s.sim.fp.toNat) inv.laid.top (by simp)
    have ptr : s.sim.top.sp_ptr = snap.ptr := held.ptr
    have size : (snap.ptr - s.sim.vstack.mem).toNat = snap.ptr.toNat - s.sim.vstack.mem.toNat := by
      rw [BitVec.toNat_sub]
      have := held.low
      have := snap.ptr.isLt
      omega
    have data_high : s.sim.top.sp_data.toNat + (snap.ptr.toNat - s.sim.vstack.mem.toNat) ≤
        s.sim.top.mem.ptr.toNat := held.data_high
    have room : s.sim.top.sp_data.toNat + copied (snap.ptr.toNat - s.sim.vstack.mem.toNat) ≤
        s.sim.top.mem.stop.toNat :=
      copied_within held.aligned sound.stop_aligned (data_high.trans sound.ptr_le)
    have frame : ∀ a < s.sim.vstack.mem.toNat, blockcpy s.sim.bytes s.sim.vstack.mem.toNat
        s.sim.top.sp_data.toNat (snap.ptr.toNat - s.sim.vstack.mem.toNat) a = s.sim.bytes a :=
      fun a below => blockcpy_frame _ _ _ _ _ (.inl below)
    simp only [has, if_true, ptr, size]
    refine ⟨snap, saved, ⟨rfl, fun a low high => ?_⟩, frame, ?_⟩
    · have low : s.sim.vstack.mem.toNat ≤ a := low
      obtain ⟨k, rfl⟩ := Nat.exists_eq_add_of_le low
      have less : k < snap.ptr.toNat - s.sim.vstack.mem.toNat := by omega
      exact (blockcpy_read _ _ _ _ _ (lt_of_lt_of_le less (le_copied _)) (.inl (room.trans stop_le))).trans
        (held.bytes k less)
    · exact (inv.retreat held.low held.high).rewrite fun i less has' snap' saved' k lt => by
        obtain ⟨snap'', saved'', held', -⟩ := inv.held i less has'
        cases saved'.symm.trans saved''
        have := (inv.laid.sound (.frame i) less).ptr_le
        have := inv.laid.above (.frame i) less (by simp)
        have := held'.data_high
        have lt : k < snap'.ptr.toNat - s.sim.vstack.mem.toNat := lt
        apply frame
        simp only [State.settle, Sim.home] at *
        omega

theorem State.Inv.settled {s : State} (inv : s.Inv) : (s.settle s.sim).Inv :=
  inv.fewer fun _ live => (List.mem_filter.mp live).1

theorem State.Inv.reload {s : State} (inv : s.Inv) : (s.settle (sim_reload s.sim).2).Inv := by
  by_cases ok : (sim_reload s.sim).1 = .SIM_OK
  · obtain ⟨-, -, -, -, kept⟩ := sim_reload_spec inv ok
    exact kept
  · unfold sim_reload at ok ⊢
    cases has : s.sim.top.has_savepoint with
    | true => simp [has] at ok
    | false =>
      simp only [has, Bool.false_eq_true, if_false]
      exact inv.settled

end M2.Mem
