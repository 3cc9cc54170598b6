import M2.Fhk.BuiltGraph
import M2.Fhk.Transform

/-!
# Node sets in built graphs

From the node set to the definition, and from the definition to the graph: the solver finds in the graph the edges of the node
set, and what it asks the driver for is what the edges of the node set say.
-/
namespace M2.Fhk.Transform
open M2.Lib

variable {N : NodeSet} {order : List NodeVar} {M : Mapping} {D : Def}

/-- What one end of an edge is about: the instance itself, the space of a group, or what a function returns. -/
inductive Half
  | ident
  | space (group : List Char)
  | ufunc (f : UFunc)

/-- The end of an edge to a node of this group. -/
def EdgeMap.forward (group : List Char) : EdgeMap → Half
  | .ident => .ident
  | .space => .space group
  | .user map _ => .ufunc map

/-- The end of an edge back to a node of this group. -/
def EdgeMap.backward (group : List Char) : EdgeMap → Half
  | .ident => .ident
  | .space => .space group
  | .user _ inverse => .ufunc inverse

/-- The map of a code, as the solver and the tables of `driver.build` have it: `S_expandmap` asks for the space of a group,
or for the function with the external number. -/
def Mapping.readCode (M : Mapping) (H : Graph) (code : Int) : Option Half :=
  if code = MAP_IDENT then some .ident
  else if 0 ≤ code ∧ code < H.ng then M.groups[code.toNat]?.map .space
  else (M.ufunc (map_toext H code)).map .ufunc

/-- The map of a kind of map. -/
def Mapping.readKind (M : Mapping) : MapKind → Option Half
  | .ident => some .ident
  | .space group => M.groups[group]?.map .space
  | .const k => (M.ufunc k).map .ufunc
  | .nonconst i => (M.ufunc i).map .ufunc

theorem readKind_userKind (M : Mapping) (x : BitVec 8) : M.readKind (userKind x) = (M.ufunc x.toInt).map .ufunc := by
  unfold userKind
  split <;> rfl

/-- A code is read as what it was made for. -/
theorem readCode_of_uses {H : Graph} (inv : D.Inv) (fits : D.CodesFit) (ng : H.ng = D.ng) {kind : MapKind} {code : Int}
    {source : Nat} (uses : D.Uses kind code source) : M.readCode H code = M.readKind kind := by
  obtain ⟨bounded, code_eq⟩ := inv.uses uses
  obtain ⟨narrow, coded⟩ := inv.wide_fits bounded (fits _ _ _ uses)
  rw [narrow] at code_eq
  rw [← code_eq] at coded
  have ident : MAP_IDENT = -128 := rfl
  have nimap_eq := inv.nimap_eq
  obtain ⟨low, -⟩ := inv.minimap
  rw [Mapping.readCode, ng]
  cases kind with
  | ident =>
    have same : code = MAP_IDENT := coded
    rw [if_pos same]
    rfl
  | space group =>
    obtain ⟨rfl, lt⟩ := coded
    rw [if_neg (by omega), if_pos (by omega), Int.toNat_natCast]
    rfl
  | const k =>
    obtain ⟨nonneg, -⟩ := bounded
    have wide : code = k + D.ng := code_eq
    rw [if_neg (by omega), if_neg (by omega), map_toext, if_pos (by omega), ng, wide, Int.add_sub_cancel]
    rfl
  | nonconst i =>
    have wide : code = i := code_eq
    obtain ⟨low', high, -⟩ := coded
    rw [if_neg (by omega), if_neg (by omega), map_toext, if_neg (by omega), wide]
    rfl

theorem Mapping.Fits.forward (fits : M.Fits) {map : EdgeMap} {ext : ExtMap} {g : List Char} {dst : Nat}
    (passed : M.edgemap map = some ext) (group : M.groups[dst]? = some g) :
    M.readKind (ext.kind dst) = some (map.forward g) := by
  have read := fits.edgemap passed
  cases ext with
  | FHKMAP_IDENT =>
    cases read
    rfl
  | FHKMAP_SPACE =>
    cases read
    rw [ExtMap.kind, Mapping.readKind, group]
    rfl
  | FHKMAP_USER x y =>
    obtain ⟨a, here, read⟩ := Option.bind_eq_some_iff.mp read
    obtain ⟨b, -, rfl⟩ := Option.map_eq_some_iff.mp read
    rw [ExtMap.kind, readKind_userKind, here]
    rfl

theorem Mapping.Fits.backward (fits : M.Fits) {map : EdgeMap} {ext : ExtMap} {g : List Char} {src : Nat}
    (passed : M.edgemap map = some ext) (group : M.groups[src]? = some g) :
    M.readKind (ext.kindInverse src) = some (map.backward g) := by
  have read := fits.edgemap passed
  cases ext with
  | FHKMAP_IDENT =>
    cases read
    rfl
  | FHKMAP_SPACE =>
    cases read
    rw [ExtMap.kindInverse, Mapping.readKind, group]
    rfl
  | FHKMAP_USER x y =>
    obtain ⟨a, -, read⟩ := Option.bind_eq_some_iff.mp read
    obtain ⟨b, here, rfl⟩ := Option.map_eq_some_iff.mp read
    rw [ExtMap.kindInverse, readKind_userKind, here]
    rfl

section Carries
variable (order : List NodeVar) (M : Mapping) (H : Graph)

/-- The variable has this name, and the code is read as the map to its group. -/
def Forward (name : List Char) (map : EdgeMap) (xi : Nat) (code : Int) : Prop :=
  ∃ v g, order[xi]? = some v ∧ v.name = name ∧ groupof name = some g ∧ M.readCode H code = some (map.forward g)

/-- The code is read as the map back to the group of the model. -/
def Backward (m : NodeModel) (map : EdgeMap) (code : Int) : Prop :=
  ∃ g, groupof m.name = some g ∧ M.readCode H code = some (map.backward g)

/-- The graph is that of the node set: each of its edges is one of the node set's, with the same ends and a code that is
read as the edge's map. -/
structure Carries (N : NodeSet) : Prop where
  nm : H.nm = N.models.length
  nv : H.nv = order.length
  nw : H.nw = N.shadows.length
  params : ∀ (m : Fin H.nm) (nm : NodeModel), N.models[m.val]? = some nm →
    ((H.models m).params.map Edge.ex).Perm (List.range nm.params.length) ∧
      ∀ r ∈ (H.models m).params, ∃ e, nm.params[r.ex]? = some e ∧ Forward order M H e.target e.map r.idx r.map
  returns : ∀ (m : Fin H.nm) (nm : NodeModel), N.models[m.val]? = some nm →
    (H.models m).returns.length = nm.returns.length ∧ ∀ (k : Nat) (r : Edge H.nv), (H.models m).returns[k]? = some r →
      ∃ e, nm.returns[k]? = some e ∧ Forward order M H e.target e.map r.idx r.map
  models : ∀ (x : Fin H.nv), ∀ r ∈ (H.vars x).models, ∃ nm e v, N.models[r.idx.val]? = some nm ∧ nm.returns[r.ex]? = some e ∧
    order[x.val]? = some v ∧ v.name = e.target ∧ Backward M H nm e.map r.map
  fwds : ∀ (x : Fin H.nv), ∀ r ∈ (H.vars x).fwds, ∃ nm, ∃ e ∈ nm.params, ∃ v, N.models[r.idx.val]? = some nm ∧
    order[x.val]? = some v ∧ v.name = e.target ∧ Backward M H nm e.map r.map
  checks : ∀ (m : Fin H.nm) (nm : NodeModel), N.models[m.val]? = some nm → ∃ l : List NodeCheck, l.Perm nm.shadows ∧
    List.Forall₂ (fun e r => ∃ s, N.shadows[r.idx.val]? = some s ∧ s.name = e.target ∧
      Forward order M H s.var e.map (H.shadows r.idx).xi r.map ∧ e.penalty = .ofCost r.penalty) l (H.models m).shadows

end Carries

theorem varObj_some {name : List Char} {xi : Nat} (here : varObj order name = some xi) :
    ∃ v, order[xi]? = some v ∧ v.name = name := by
  obtain ⟨lt, same, -⟩ := List.findIdx?_eq_some_iff_getElem.mp here
  exact ⟨order[xi], List.getElem?_eq_getElem lt, of_decide_eq_true same⟩

theorem shadowObj_some {name : List Char} {wi : Nat} (here : shadowObj N name = some wi) :
    ∃ s, N.shadows[wi]? = some s ∧ s.name = name := by
  obtain ⟨lt, same, -⟩ := List.findIdx?_eq_some_iff_getElem.mp here
  exact ⟨N.shadows[wi], List.getElem?_eq_getElem lt, of_decide_eq_true same⟩

/-- What holds of a definition that was made from a node set without a refusal, where in addition every code fits its byte. -/
structure Made (N : NodeSet) (order : List NodeVar) (M : Mapping) (D : Def) : Prop extends Shown N order M D where
  models : List.Forall₂ (ModelOf N order M) N.models D.models
  fits : M.Fits
  codes : D.CodesFit

namespace Made
variable {B : Build} {H : Graph} {start : EdgeArray → Nat} {base stop : Nat} (made : Made N order M D) (shows : D.Shows B H)
include made

theorem model_of_node {i : Nat} {nm : NodeModel} (here : N.models[i]? = some nm) :
    i < D.models.length ∧ ModelOf N order M nm (D.model i) := by
  obtain ⟨dm, there, model⟩ := forall₂_at made.models.flip here
  have same : D.model i = dm := by rw [Def.model, List.getD_eq_getElem?_getD, there, Option.getD_some]
  rw [same]
  exact ⟨(List.getElem?_eq_some_iff.mp there).1, model⟩

theorem node_of_model {i : Nat} (lt : i < D.models.length) :
    ∃ nm, N.models[i]? = some nm ∧ ModelOf N order M nm (D.model i) := by
  apply forall₂_at made.models
  rw [Def.model, List.getD_eq_getElem?_getD, List.getElem?_eq_getElem lt, Option.getD_some]

/-- What an edge to a variable is built to. -/
theorem forward {name : List Char} {map : EdgeMap} {ext : ExtMap} {xi source : Nat} (ng : H.ng = D.ng)
    (obj : varObj order name = some xi) (passed : M.edgemap map = some ext)
    (uses : ∀ dx, D.vars[xi]? = some dx → D.Uses (ext.kind dx.group) (D.g_extmap dx.group ext) source) :
    Forward order M H name map xi (D.g_extmap (D.var xi).group ext) := by
  obtain ⟨v, here, rfl⟩ := varObj_some obj
  obtain ⟨dx, there, group, -⟩ := forall₂_at made.vars.flip here
  have same : D.var xi = dx := by rw [Def.var, List.getD_eq_getElem?_getD, there, Option.getD_some]
  obtain ⟨g, own, number⟩ := made.fits.group group
  refine ⟨v, g, here, rfl, own, ?_⟩
  rw [same, readCode_of_uses made.defined.inv made.codes ng (uses dx there)]
  exact made.fits.forward passed number

/-- What an edge back to a model is built to. -/
theorem backward {nm : NodeModel} {map : EdgeMap} {d : DefEdge} {i : Nat} (ng : H.ng = D.ng) (lt : i < D.models.length)
    (model : ModelOf N order M nm (D.model i)) (mem : d ∈ (D.model i).params ++ (D.model i).returns)
    (passed : M.edgemap map = some d.map) :
    Backward M H nm map (D.g_extmapi (D.model i).group d.map) := by
  have inv := made.defined.inv
  have here := Def.model_mem lt
  obtain ⟨dx, there, -⟩ := (inv.models _ here).edges d mem
  obtain ⟨g, own, number⟩ := made.fits.group model.group
  refine ⟨g, own, ?_⟩
  rw [readCode_of_uses inv made.codes ng (.inverse here mem there)]
  exact made.fits.backward passed number

include shows

theorem param {m : Fin H.nm} {nm : NodeModel} {r : Edge H.nv} (faithful : D.Faithful B base stop)
    (model : ModelOf N order M nm (D.model m)) (mem : r ∈ (H.models m).params) :
    ∃ e, nm.params[r.ex]? = some e ∧ Forward order M H e.target e.map r.idx r.map := by
  have lt := shows.model_lt m
  have cell : Cell.edge r.idx r.map r.ex ∈ B.params m := shows.params m ▸ List.mem_map_of_mem mem
  obtain ⟨d, there, same⟩ := (faithful.params m lt).2 _ cell
  obtain ⟨idx, map, -⟩ := Cell.edge.inj same
  obtain ⟨e, here, obj, passed⟩ := forall₂_at model.params there
  refine ⟨e, here, ?_⟩
  rw [map, Int.ofNat_inj.mp idx]
  exact made.forward shows.ng obj passed fun dx var =>
    .edge (Def.model_mem lt) (List.mem_append_left _ (List.mem_of_getElem? there)) var

theorem returned {m : Fin H.nm} {nm : NodeModel} {k : Nat} {r : Edge H.nv} (contents : D.Contents B start)
    (model : ModelOf N order M nm (D.model m)) (at_k : (H.models m).returns[k]? = some r) :
    ∃ e, nm.returns[k]? = some e ∧ Forward order M H e.target e.map r.idx r.map := by
  have lt := shows.model_lt m
  have cell := shows.returns_at contents m k
  rw [at_k, Option.map_some] at cell
  obtain ⟨d, there, same⟩ := Option.map_eq_some_iff.mp cell.symm
  obtain ⟨idx, map, -⟩ := Cell.edge.inj same
  obtain ⟨e, here, obj, passed⟩ := forall₂_at model.returns there
  refine ⟨e, here, ?_⟩
  rw [← map, ← Int.ofNat_inj.mp idx]
  exact made.forward shows.ng obj passed fun dx var =>
    .edge (Def.model_mem lt) (List.mem_append_right _ (List.mem_of_getElem? there)) var

theorem model {x : Fin H.nv} {r : Edge H.nm} (contents : D.Contents B start) (mem : r ∈ (H.vars x).models) :
    ∃ nm e v, N.models[r.idx.val]? = some nm ∧ nm.returns[r.ex]? = some e ∧ order[x.val]? = some v ∧ v.name = e.target ∧
      Backward M H nm e.map r.map := by
  have cell : Cell.edge (~~~(r.idx : Int)) r.map r.ex ∈ D.modEdges x := by
    rw [← contents.varModels x (shows.var_lt x), ← shows.varModels x]
    exact List.mem_map_of_mem mem
  obtain ⟨i, lt, cell⟩ := List.mem_flatMap.mp cell
  obtain ⟨w, kept, same⟩ := List.mem_map.mp cell
  obtain ⟨there, own⟩ := List.mem_filter.mp kept
  obtain ⟨idx, map, place⟩ := Cell.edge.inj same
  have there := List.mem_zipIdx_iff_getElem?.mp there
  obtain ⟨nm, here, model⟩ := made.node_of_model (List.mem_range.mp lt)
  obtain ⟨e, edge, obj, passed⟩ := forall₂_at model.returns there
  obtain ⟨v, var, name⟩ := varObj_some obj
  rw [of_decide_eq_true own] at var
  refine ⟨nm, e, v, ?_, ?_, var, name, ?_⟩
  · rw [← Def.complement_inj.mp idx]
    exact here
  · rw [← place]
    exact edge
  · rw [← map]
    exact made.backward shows.ng (List.mem_range.mp lt) model
      (List.mem_append_right _ (List.mem_of_getElem? there)) passed

theorem fwd {x : Fin H.nv} {r : Edge H.nm} (contents : D.Contents B start) (mem : r ∈ (H.vars x).fwds) :
    ∃ nm, ∃ e ∈ nm.params, ∃ v, N.models[r.idx.val]? = some nm ∧ order[x.val]? = some v ∧ v.name = e.target ∧
      Backward M H nm e.map r.map := by
  have cell : (~~~(r.idx : Int), r.map) ∈ D.fwdEdges x := by
    rw [← contents.varFwds x (shows.var_lt x), ← shows.varFwds x]
    exact List.mem_map_of_mem (f := fun e : Edge H.nm => (~~~(e.idx : Int), e.map)) mem
  obtain ⟨i, lt, cell⟩ := List.mem_flatMap.mp cell
  obtain ⟨d, kept, same⟩ := List.mem_map.mp cell
  obtain ⟨there, own⟩ := List.mem_filter.mp kept
  obtain ⟨idx, map⟩ := Prod.mk.inj same
  obtain ⟨nm, here, model⟩ := made.node_of_model (List.mem_range.mp lt)
  obtain ⟨e, edge, obj, passed⟩ := forall₂_mem model.params.flip there
  obtain ⟨v, var, name⟩ := varObj_some obj
  rw [of_decide_eq_true own] at var
  refine ⟨nm, e, edge, v, ?_, var, name, ?_⟩
  · rw [← Def.complement_inj.mp idx]
    exact here
  · rw [← map]
    exact made.backward shows.ng (List.mem_range.mp lt) model (List.mem_append_left _ there) passed

theorem check {m : Fin H.nm} {e : NodeCheck} {d : DefShEdge} {r : ShEdge H.nw} {mem : Nat → Cell}
    (nodes : Def.SameNodes (D.g_copy_nodes mem) B) (there : d ∈ (D.model m).shadows) (of : CheckOf N M e d)
    (same : (Cell.edge (D.vars.length + r.idx) r.map (if r.computed then Def.W_COMPUTED else 0), FloatVal.ofCost r.penalty) =
      (D.shedge d, d.penalty)) :
    ∃ s, N.shadows[r.idx.val]? = some s ∧ s.name = e.target ∧
      Forward order M H s.var e.map (H.shadows r.idx).xi r.map ∧ e.penalty = .ofCost r.penalty := by
  have here := Def.model_mem (shows.model_lt m)
  obtain ⟨obj, passed, penalty⟩ := of
  obtain ⟨front, behind⟩ := Prod.mk.inj same
  obtain ⟨idx, map, -⟩ := Cell.edge.inj front
  have idx : r.idx.val = d.idx := by omega
  obtain ⟨s, place, name⟩ := shadowObj_some obj
  obtain ⟨w, shadow, var, -⟩ := forall₂_at made.shadows.flip place
  have w_eq : D.shadow d.idx = w := by rw [Def.shadow, List.getD_eq_getElem?_getD, shadow, Option.getD_some]
  have xi : ((H.shadows r.idx).xi : Nat) = w.xi := by
    rw [(shows.shadow r.idx).1, nodes.shadows, idx, ← w_eq]
    rfl
  refine ⟨s, by rw [idx, place], name, ?_, by rw [behind, penalty]⟩
  rw [map, xi, w_eq]
  exact made.forward shows.ng var passed fun dx there' => .check here there shadow there'

theorem checks {m : Fin H.nm} {nm : NodeModel} {mem : Nat → Cell} (faithful : D.Faithful B base stop)
    (nodes : Def.SameNodes (D.g_copy_nodes mem) B) (model : ModelOf N order M nm (D.model m)) :
    ∃ l : List NodeCheck, l.Perm nm.shadows ∧ List.Forall₂ (fun e r => ∃ s, N.shadows[r.idx.val]? = some s ∧
      s.name = e.target ∧ Forward order M H s.var e.map (H.shadows r.idx).xi r.map ∧ e.penalty = .ofCost r.penalty)
      l (H.models m).shadows := by
  have cells := (shows.checks m).symm ▸ (faithful.checks m (shows.model_lt m)).1
  have each := (List.forall₂_and_left _ _).mpr ⟨fun d there => there, model.shadows.flip⟩
  have each : List.Forall₂ (fun c e => ∃ d ∈ (D.model m).shadows, CheckOf N M e d ∧ c = (D.shedge d, d.penalty))
      ((D.model m).shadows.map fun d => (D.shedge d, d.penalty)) nm.shadows := by
    rw [List.forall₂_map_left_iff]
    exact each.imp fun d e of => ⟨d, of.1, of.2, rfl⟩
  obtain ⟨l, same, perm⟩ := List.perm_comp_forall₂ cells each
  refine ⟨l, perm, ?_⟩
  rw [List.forall₂_map_left_iff] at same
  refine (same.imp fun r e of => ?_).flip
  obtain ⟨d, there, of, cell⟩ := of
  exact made.check shows nodes there of cell

/-- The graph built from the definition of a node set is that of the node set, where every code fits a byte. -/
theorem carries {mem : Nat → Cell} (contents : D.Contents B start) (faithful : D.Faithful B base stop)
    (nodes : Def.SameNodes (D.g_copy_nodes mem) B) : Carries order M H N := by
  constructor
  · rw [shows.nm, made.models.length_eq]
  · rw [shows.nv, made.vars.length_eq]
  · rw [shows.nw, made.shadows.length_eq]
  · intro m nm here
    obtain ⟨lt, model⟩ := made.model_of_node here
    constructor
    · have perm := (faithful.params m lt).1
      rw [← shows.params m, List.map_map, ← model.params.length_eq] at perm
      exact perm
    · exact fun r => made.param shows faithful model
  · intro m nm here
    obtain ⟨lt, model⟩ := made.model_of_node here
    constructor
    · have length := congrArg List.length ((shows.returns m).trans (contents.returns m lt))
      rw [List.length_map, List.length_map, List.length_zipIdx, ← model.returns.length_eq] at length
      exact length
    · exact fun k r => made.returned shows contents model
  · exact fun x r => made.model shows contents
  · exact fun x r => made.fwd shows contents
  · intro m nm here
    obtain ⟨lt, model⟩ := made.model_of_node here
    exact made.checks shows faithful nodes model

end Made

/-- Where no call refuses what `build` passes to it, no number has wrapped. With no more groups and constant functions than
128, the graph built from the definition carries the node set: the solver and the driver read each of its edges as what the
edge is in the node set. One more is still accepted, but its code may be that of the identity. -/
theorem node_set_carried (N : NodeSet) (order : List NodeVar) (all : ∀ v ∈ N.vars, v ∈ order) (D : Def) (M : Mapping)
    (ok : N.build order = some (D, M)) : D.Defined ∧ M.Fits ∧ (M.groups.length + M.kmaps.length ≤ 128 →
      ∀ (mem : Nat → Cell) (base : Nat), base % 8 = 0 → ∀ H : Graph, D.Shows (D.fhk_build_graph mem base).1 H →
        Carries order M H N) := by
  obtain ⟨inv, shown, made⟩ := NodeSet.build_shown ok
  have fits := shown.fits made all inv
  refine ⟨shown.defined, fits, fun room mem base aligned H shows => ?_⟩
  obtain ⟨start, contents, faithful, -⟩ := Def.built shown.defined mem aligned
  have codes := shown.codes made fits room
  exact Made.carries ⟨shown, made, fits, codes⟩ shows contents faithful (Def.SameNodes.fhk_build_graph D mem base)

/-- A model with one parameter behind a constant map. -/
def oneMap : NodeSet where
  models := [⟨['a', '#', 'm'], [⟨['a', '#', 'x'], .user ⟨0, ['k']⟩ ⟨1, []⟩⟩], [], [], 0, 1, none⟩]
  vars := [⟨['a', '#', 'x'], some 8, none⟩]
  shadows := []

/-- The numbers of `oneMap`. -/
def oneMapping : Mapping := ⟨[['a']], [⟨0, ['k']⟩], [⟨1, []⟩]⟩

theorem oneMap_build : oneMap.build oneMap.vars = some (UserMap.oneParam 0, oneMapping) := rfl

theorem oneMap_costs : (UserMap.oneParam 0).Costs := by
  constructor
  · intro dm mem
    rw [List.mem_singleton.mp mem]
    exact ⟨0, 1, (0 : ℚ), rfl, rfl, rfl⟩
  · intro dm mem e here
    rw [List.mem_singleton.mp mem] at here
    cases here

theorem node_set_carried_oneMap : ∃ H : Graph, H.nm = 1 ∧ Carries oneMap.vars oneMapping H oneMap := by
  obtain ⟨defined, -, carried⟩ := node_set_carried oneMap oneMap.vars (fun v mem => mem) _ _ oneMap_build
  obtain ⟨start, contents, -⟩ := Def.built defined (fun _ => .penalty 0) (by decide : 4096 % 8 = 0)
  obtain ⟨H, shows⟩ := Def.exists_shows contents defined.inv oneMap_costs (Def.SameNodes.fhk_build_graph _ _ _)
  exact ⟨H, shows.nm, carried (by decide) _ 4096 (by decide) H shows⟩

end M2.Fhk.Transform
