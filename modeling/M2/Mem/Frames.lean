import M2.Mem.Region
import Mathlib.Logic.Function.Basic

/-!
# Simulator frames

The operations of `src/sim.c` (release build). The record `struct sim` is kept apart from
the bytes of the mapping: that no operation and no client writes over it is part of what is
proved of the runs.
-/
namespace M2.Mem

/-- `uint32_t`. -/
abbrev Uint := BitVec 32

/-- The status codes of `sim.h`. -/
inductive Status where
  | SIM_OK | SIM_EFRAME | SIM_ESAVE | SIM_EALLOC | SIM_EBRANCH
  deriving DecidableEq

/-- The lifetimes of `sim.h`, and any other value of the argument. -/
inductive Lifetime where
  | SIM_STATIC | SIM_FRAME | SIM_VSTACK
  | other
  deriving DecidableEq

/-- `struct frame`. -/
structure Frame where
  has_savepoint : Bool
  has_branchpoint : Bool
  fid : Uint
  mem : Region
  sp_data : Word
  sp_ptr : Word

/-- `struct sim`, with the bytes of its mapping. -/
structure Sim where
  stat : Region
  vstack : Region
  bytes : Bytes
  nframe : Uint
  rsize : Uint
  next_fid : Uint
  fp : Uint
  fstack : Nat → Frame

/-- `TOP`. -/
def Sim.top (sim : Sim) : Frame := sim.fstack sim.fp.toNat

/-- Stores through `TOP`. -/
def Sim.setTop (sim : Sim) (f : Frame) : Sim :=
  { sim with fstack := Function.update sim.fstack sim.fp.toNat f }

@[simp] theorem Sim.setTop_fp (sim : Sim) (f : Frame) : (sim.setTop f).fp = sim.fp := rfl
@[simp] theorem Sim.setTop_stat (sim : Sim) (f : Frame) : (sim.setTop f).stat = sim.stat := rfl
@[simp] theorem Sim.setTop_vstack (sim : Sim) (f : Frame) : (sim.setTop f).vstack = sim.vstack := rfl
@[simp] theorem Sim.setTop_bytes (sim : Sim) (f : Frame) : (sim.setTop f).bytes = sim.bytes := rfl
@[simp] theorem Sim.setTop_nframe (sim : Sim) (f : Frame) : (sim.setTop f).nframe = sim.nframe := rfl
@[simp] theorem Sim.setTop_top (sim : Sim) (f : Frame) : (sim.setTop f).top = f := by
  simp [Sim.top, Sim.setTop]

theorem Sim.setTop_fstack (sim : Sim) (f : Frame) (i : Nat) :
    (sim.setTop f).fstack i = if i = sim.fp.toNat then f else sim.fstack i := by
  simp [Sim.setTop, Function.update_apply]

/-- `f_enter`, on the top frame. -/
def f_enter (sim : Sim) : Sim :=
  let f := { sim.top with
    fid := sim.next_fid
    has_savepoint := false
    has_branchpoint := false
    mem := REG_RESET sim.top.mem }
  { sim.setTop f with next_fid := sim.next_fid + 1 }

/-- `size_t` of a `uint32_t`. -/
abbrev size_t (n : Uint) : Word := n.setWidth 64

/-- `MAPPING_SIZE`. -/
def MAPPING_SIZE (n r : Uint) : Word := size_t r * (size_t n + 3)

/-- `sizeof(struct sim)` and `sizeof(struct frame)`. -/
def sizeofSim : Word := 72
def sizeofFrame : Word := 48

/-- The size of the record at the start of the static region. -/
def recordSize (nframe : Uint) : Word := sizeofSim + size_t nframe * sizeofFrame

/-- A frame whose memory is still zero. -/
def zeroFrame : Frame := ⟨false, false, 0, ⟨0, 0, 0⟩, 0, 0⟩

/-- What `sim_create` stores before it enters frame 0. The outcome of `reg_alloc` for the record
is not looked at. -/
def newSim (mem_align : Word) (bytes : Bytes) (nframe rsize : Uint) : Sim where
  stat := (reg_alloc (reg_init mem_align (size_t rsize)) (recordSize nframe) 8).2
  vstack := reg_init (mem_align + size_t rsize * size_t (nframe + 1)) (size_t rsize)
  bytes := bytes
  nframe := nframe
  rsize := rsize
  next_fid := 1
  fp := 0
  fstack := fun i =>
    if i < nframe.toNat then
      { zeroFrame with
        mem := reg_init (mem_align + size_t rsize * size_t (BitVec.ofNat 32 i + 1)) (size_t rsize) }
    else zeroFrame

/-- `sim_create`. `vm_map_probe` gives the mapping, 0 for `NULL`. -/
def sim_create (vm_map_probe : Word → Word) (bytes : Bytes) (nframe rsize : Uint) : Option Sim :=
  if rsize &&& (rsize - 1) ≠ 0 then none
  else
    let mem := vm_map_probe (MAPPING_SIZE nframe rsize)
    if mem = 0 then none
    else some (f_enter (newSim (ALIGN mem (size_t rsize)) bytes nframe rsize))

/-- `sim_alloc`, none for `NULL`. -/
def sim_alloc (sim : Sim) (sz align : Word) : Lifetime → Option Word × Sim
  | .SIM_STATIC =>
    let (p, stat) := reg_alloc sim.stat sz align
    (p, { sim with stat })
  | .SIM_FRAME =>
    let (p, mem) := reg_alloc sim.top.mem sz align
    (p, sim.setTop { sim.top with mem })
  | .SIM_VSTACK =>
    let (p, vstack) := reg_alloc sim.vstack sz align
    (p, { sim with vstack })
  | .other => (none, sim)

/-- `sim_savepoint`. -/
def sim_savepoint (sim : Sim) : Status × Sim :=
  let f := sim.top
  let size := sim.vstack.ptr - sim.vstack.mem
  if f.has_savepoint then (.SIM_ESAVE, sim)
  else
    let (p, mem) := reg_alloc f.mem size 64
    let f := { f with mem, sp_data := p.getD 0, sp_ptr := sim.vstack.ptr }
    if f.sp_data = 0 then (.SIM_EALLOC, sim.setTop f)
    else
      (.SIM_OK, { sim.setTop { f with has_savepoint := true } with
        bytes := blockcpy sim.bytes f.sp_data.toNat sim.vstack.mem.toNat size.toNat })

/-- `sim_up`. -/
def sim_up (sim : Sim) (fp : Uint) : Status × Sim :=
  if sim.fp < fp then (.SIM_EFRAME, sim) else (.SIM_OK, { sim with fp })

/-- `sim_reload`. -/
def sim_reload (sim : Sim) : Status × Sim :=
  let f := sim.top
  if f.has_savepoint then
    let vstack := { sim.vstack with ptr := f.sp_ptr }
    let size := vstack.ptr - vstack.mem
    (.SIM_OK, { sim with
      vstack
      bytes := blockcpy sim.bytes vstack.mem.toNat f.sp_data.toNat size.toNat })
  else (.SIM_ESAVE, sim)

/-- `sim_load`. -/
def sim_load (sim : Sim) (fp : Uint) : Status × Sim :=
  match sim_up sim fp with
  | (.SIM_OK, sim) => sim_reload sim
  | (r, sim) => (r, sim)

/-- `sim_enter`. -/
def sim_enter (sim : Sim) : Status × Sim :=
  if sim.nframe ≤ sim.fp + 1 then (.SIM_EFRAME, sim)
  else (.SIM_OK, f_enter { sim with fp := sim.fp + 1 })

/-- `sim_branch`. -/
def sim_branch (sim : Sim) : Status × Sim :=
  if sim.top.has_branchpoint then (.SIM_EBRANCH, sim)
  else sim_savepoint (sim.setTop { sim.top with has_branchpoint := true })

/-- The first part of `sim_enter_branch`: nothing to load on the frame itself. -/
def enter_branch_load (sim : Sim) (fp : Uint) : Status × Sim :=
  if fp = sim.fp then (.SIM_OK, sim) else sim_load sim fp

/-- `sim_enter_branch`. -/
def sim_enter_branch (sim : Sim) (fp : Uint) : Status × Sim :=
  match enter_branch_load sim fp with
  | (.SIM_OK, sim) => if sim.top.has_branchpoint then sim_enter sim else (.SIM_EBRANCH, sim)
  | (r, sim) => (r, sim)

end M2.Mem
