import M2.Lib.Writes
import M2.Fhk.Memory

/-!
# Computing values

`S_compute_value` of `src/fhk/solve.c` and what it calls. A model whose flag `M_NORETBUF` is set writes its returns where
the values of the variables are; the returns of the others go to buffers, out of which each variable instance takes
its own value. The recursion is bounded by the coroutine stack. With these functions, the surroundings of
`S_select_chain` are those of the source, and only the caller is left open.
-/
namespace M2.Fhk
open M2.Lib
open M2.Mem (Word)

namespace Search
variable {G : Graph}

/-- `sp->state |= SP_VALUE`. -/
def setValue (s : Search G) (x : G.VI) : Search G :=
  { s with vs := Function.update s.vs x { s.vs x with value := true } }

/-- `m_sp->state |= SP_VALUE`. -/
def setModelValue (s : Search G) (m : G.MI) : Search G :=
  { s with ms := Function.update s.ms m { s.ms m with value := true } }

end Search

namespace Solver
variable {G : Graph} {D E : Type} (maps : Maps) (caller : Caller G D E)

/-- The size of an `fhk_modcall` with `n` edges. -/
def sizeof_modcall (n : Nat) : Word := BitVec.ofNat 64 (8 + 16 * n)

/-- `S_get_computed_si`. -/
def S_get_computed_si (compute : Search G × Memory G D E → G.VI → Except Exit (Search G × Memory G D E)) (xi : Fin G.nv)
    (insts : List Inst) (w : Search G × Memory G D E) : Except Exit (Search G × Memory G D E) :=
  insts.foldlM (fun w inst => if (w.1.vs (xi, inst)).value then .ok w else compute w (xi, inst)) w

/-- `S_mapE_collect`: a complex subset is copied to scratch memory. -/
def S_mapE_collect (xi : Fin G.nv) (map : Int) (m_inst : Inst) (mem : Memory G D E) : Except Exit (List D × Memory G D E) :=
  let insts := maps.mapE map m_inst
  let values := insts.map fun inst => mem.read (xi, inst)
  if map ≠ MAP_IDENT ∧ caller.complex map m_inst = true then
    match S_sbuf_alloc caller.arena_alloc mem.scratch (BitVec.ofNat 64 ((G.vars xi).size * insts.length)) with
    | none => .error .nbuf
    | some (_, scratch) => .ok (values, { mem with scratch })
  else .ok (values, mem)

/-- The argument edges of a model call, each with its place. -/
def collect (mi : G.MI) (mem : Memory G D E) : Except Exit (List (Nat × List D) × Memory G D E) :=
  (G.models mi.1).params.foldlM (fun (args, mem) e => do
    let (values, mem) ← S_mapE_collect maps caller e.idx e.map mi.2 mem
    .ok (args ++ [(e.ex, values)], mem)) ([], mem)

/-- `mapE_directref`: the instances behind the pointer, which start at zero for a space map. -/
def mapE_directref (map : Int) (m_inst : Inst) : List Inst :=
  if map = MAP_IDENT then [m_inst] else (List.range (maps.mapE map m_inst).length).map (Fin.ofNat 65536)

/-- `mapE_indexof`. -/
def mapE_indexof (map : Int) (m_inst inst : Inst) : Nat :=
  if map = MAP_IDENT then 0 else (maps.mapE map m_inst).idxOf inst

/-- The buffers of the return edges. -/
def expandReturns (mi : G.MI) (mem : Memory G D E) : Except Exit (Memory G D E) :=
  if (G.models mi.1).noretbuf then (G.models mi.1).returns.foldlM (fun mem e => S_vexpandvp caller e.idx mem) mem
  else do
    let mem ← S_mexpandvp caller mi.1 mem
    -- the map of a return edge need not be expanded, `S_map_size` does it
    (G.models mi.1).returns.foldlM (fun mem e => do
      let mem ← S_vexpandvp caller e.idx mem
      S_expandmap caller e.map mi.2 mem) mem

/-- What is written to the return edges of a model instance that has direct references. -/
def directReturns (mi : G.MI) (ret : Nat → Nat → D) : List (G.VI × D) :=
  (G.models mi.1).returns.zipIdx.flatMap fun e =>
    (mapE_directref maps e.1.map mi.2).zipIdx.map fun i => ((e.1.idx, i.1), ret e.2 i.2)

/-- `J_modcall`, and what the caller writes to the return edges. -/
def J_modcall (mi : G.MI) (args : List (Nat × List D)) (mem : Memory G D E) : Memory G D E :=
  let ret := caller.model mem.out mi args
  let mem := mem.yield caller (.modcall mi args ret)
  if (G.models mi.1).noretbuf then { mem with value := writes mem.value (directReturns maps mi ret) }
  else { mem with rbuf := Function.update mem.rbuf mi ret }

/-- `S_compute_value` up to `unpackvalue`, of a model instance that was not called. -/
def callModel (compute : Search G × Memory G D E → G.VI → Except Exit (Search G × Memory G D E)) (mi : G.MI)
    (w : Search G × Memory G D E) : Except Exit (Search G × Memory G D E) := do
  let m := G.models mi.1
  let w ← m.cparams.foldlM (fun w e => S_get_computed_si compute e.idx (maps.mapE e.map mi.2) w) (w.1.setModelValue mi, w.2)
  let mem ← m.gparams.foldlM (fun mem e => S_get_given maps caller e.idx e.map mi.2 mem) w.2
  let mem := { mem with scratch := (sbuf_alloc_init mem.scratch (sizeof_modcall (m.params.length + m.returns.length))).2 }
  let (args, mem) ← collect maps caller mi mem
  let mem ← expandReturns caller mi mem
  .ok (w.1, J_modcall maps caller mi args mem)

/-- `unpackvalue`. -/
def unpackvalue (x : G.VI) (m_e : Edge G.nm) (m_inst : Inst) (mem : Memory G D E) : Memory G D E :=
  let m := G.models m_e.idx
  if m.noretbuf then mem
  else
    match m.returns[m_e.ex]? with
    | none => mem
    | some r =>
      { mem with
        value := Function.update mem.value x (mem.rbuf (m_e.idx, m_inst) m_e.ex (mapE_indexof maps r.map m_inst x.2)) }

/-- `S_compute_value`. A state without a chain reads as the first edge and instance 0. -/
def S_compute_value : Nat → Search G × Memory G D E → G.VI → Except Exit (Search G × Memory G D E)
  | 0, _, _ => .error .costack
  | depth + 1, (s, mem), x => do
    let (m_ei, m_inst) := (s.vs x).chain.getD (0, 0)
    let s := s.setValue x
    match (G.vars x.1).models[m_ei]? with
    | none => .ok (s, mem)
    | some m_e =>
      let (s, mem) ←
        if (s.ms (m_e.idx, m_inst)).value then .ok (s, mem)
        else callModel maps caller (S_compute_value depth) (m_e.idx, m_inst) (s, mem)
      .ok (s, unpackvalue maps x m_e m_inst mem)

/-- The surroundings of `S_select_chain`. -/
def ops (depth : Nat) : Ops G (Memory G D E) where
  vexpandsp mem xi := S_vexpandsp caller xi mem
  vexpandbe mem xi inst := S_vexpandbe caller xi inst mem
  mexpandbe mem mi inst := S_mexpandbe caller mi inst mem
  compute s mem x := S_compute_value maps caller depth (s, mem) x
  given1 mem x := S_get_given1 caller x mem
  scanGiven mem wi inst := scanGiven (G.shadows wi).xi (maps.shape (G.shadows wi).group) inst mem
  guard mem wi inst := caller.guard wi (mem.read ((G.shadows wi).xi, inst))

/-- What happens between two calls of the solver: the loops of `S_solve` over given roots and over the roots to be solved
expand them, and the caller sets values, shapes and maps as it likes. -/
inductive Between : Memory G D E → Memory G D E → Prop
  | given (xi : Fin G.nv) (given : G.given xi = true) (insts : List Inst) (mem mem' : Memory G D E)
      (returned : S_get_given_si3 caller xi insts mem = .ok mem') : Between mem mem'
  | expand (xi : Fin G.nv) (mem mem' : Memory G D E) (returned : S_vexpandsp caller xi mem = .ok mem') : Between mem mem'
  | caller (mem : Memory G D E) (out : Answers G D E) (le : mem.out.Le out) : Between mem { mem with out }

/-! ## What these functions do -/

variable {maps caller} {mem mem' : Memory G D E}

theorem Same.read (same : mem.Same mem') (x : G.VI) : mem'.read x = mem.read x := by
  rw [Memory.read, Memory.read, same.out, same.value]

variable (maps) in
/-- The values at the argument edges of a model instance, each with its place. -/
def arguments (mem : Memory G D E) (mi : G.MI) : List (Nat × List D) :=
  (G.models mi.1).params.map fun e => (e.ex, (maps.mapE e.map mi.2).map fun inst => mem.read (e.idx, inst))

theorem S_mapE_collect_post (xi : Fin G.nv) (map : Int) (m_inst : Inst) : Post (S_mapE_collect maps caller xi map m_inst mem)
    (fun r => r.1 = (maps.mapE map m_inst).map (fun inst => mem.read (xi, inst)) ∧ mem.Same r.2) caller.Fails := by
  unfold S_mapE_collect
  apply Post.ite
  · rintro ⟨-, complex⟩
    split
    · exact ⟨map, m_inst, complex⟩
    · exact ⟨rfl, rfl, rfl, rfl, rfl⟩
  · intro _
    exact ⟨rfl, .refl⟩

theorem collect_post (mi : G.MI) : Post (collect maps caller mi mem)
    (fun r => r.1 = arguments maps mem mi ∧ mem.Same r.2) caller.Fails := by
  unfold collect arguments
  apply Post.foldlM fun (done : List (Edge G.nv)) (r : List (Nat × List D) × Memory G D E) =>
    r.1 = done.map (fun e => (e.ex, (maps.mapE e.map mi.2).map fun inst => mem.read (e.idx, inst))) ∧ mem.Same r.2
  · exact ⟨rfl, .refl⟩
  · rintro done e rest ⟨args, mem'⟩ - ⟨rfl, same⟩
    apply (S_mapE_collect_post e.idx e.map mi.2).bind
    rintro ⟨values, mem''⟩ ⟨rfl, more⟩
    refine ⟨?_, same.trans more⟩
    simp only [Same.read same, List.map_append, List.map_cons, List.map_nil]

theorem expandReturns_post (mi : G.MI) : Post (expandReturns caller mi mem) (mem.Asks caller) caller.Fails := by
  unfold expandReturns
  apply Post.ite
  · intro _
    exact asks_foldlM fun _ _ => S_vexpandvp_post _
  · intro _
    exact asks_bind (S_mexpandvp_post _) fun _ => asks_foldlM fun _ _ => asks_bind (S_vexpandvp_post _) fun _ =>
      S_expandmap_post _ _

end Solver
end M2.Fhk
