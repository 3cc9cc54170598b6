import M2.Lib.Places
import M2.Fhk.MapCodes

/-!
# From node sets to definitions

`build` of `src/frontend/fhk/transform.lua`, which numbers the groups and the functions of a materialized node set and then
makes the calls that define its graph. A table of nodes is the list of its nodes in the order of `pairs`. The numbers are
narrowed to the bytes of the calls. Nothing in `build` looks at their size, the calls have to refuse what does not fit. Left
out are the memory of the graph and the debug symbols.
-/
namespace M2.Fhk.Transform
open M2.Lib

/-- `graph.ufunc`. Two tables are told apart by `id`. -/
structure UFunc where
  id : Nat
  flags : List Char
  deriving DecidableEq

/-- `edge.map`: one of the two constants, or `graph.umap(map, inverse)`. -/
inductive EdgeMap
  | ident
  | space
  | user (map inverse : UFunc)

/-- The functions of a map, in the order they are numbered. -/
def EdgeMap.halves : EdgeMap → List UFunc
  | .ident => []
  | .space => []
  | .user map inverse => [map, inverse]

/-- `graph.edge`. -/
structure NodeEdge where
  target : List Char
  map : EdgeMap

/-- `graph.shedge`. -/
structure NodeCheck where
  target : List Char
  map : EdgeMap
  penalty : FloatVal

/-- `graph.var`, with the size of its `ctype`. -/
structure NodeVar where
  name : List Char
  size : Option (BitVec 16)
  cdiff : Option FloatVal

/-- `graph.shadow`. -/
structure NodeShadow where
  name : List Char
  var : List Char
  guard : BitVec 8
  arg : BitVec 64

/-- `graph.model`. -/
structure NodeModel where
  name : List Char
  params : List NodeEdge
  returns : List NodeEdge
  shadows : List NodeCheck
  k : FloatVal
  c : FloatVal
  cmin : Option FloatVal

/-- `graph.nodeset`. -/
structure NodeSet where
  models : List NodeModel
  vars : List NodeVar
  shadows : List NodeShadow

/-- `graph.groupof`, what stands before the first `#`. -/
def groupof (name : List Char) : Option (List Char) :=
  if '#' ∈ name then some (name.takeWhile (· ≠ '#')) else none

/-- `graph.isconst`. -/
def isconst (flags : List Char) : Bool := 'k' ∈ flags

/-! ## Numbers -/

/-- `mapping`. The number of a group or of a constant map is its place in the list, the other maps are numbered downwards
from -1. -/
structure Mapping where
  groups : List (List Char)
  kmaps : List UFunc
  imaps : List UFunc

namespace Mapping
variable (M : Mapping)

/-- `mapping.groups[group]`. -/
def group (group : List Char) : Option Nat := M.groups.idxOf? group

/-- `mapping.umaps[ufunc]`. -/
def umap (f : UFunc) : Option Int :=
  if isconst f.flags then (M.kmaps.idxOf? f).map fun i : Nat => (i : Int)
  else (M.imaps.idxOf? f).map fun i : Nat => -1 - (i : Int)

/-- `mapping.umaps[idx]`. -/
def ufunc (idx : Int) : Option UFunc :=
  if 0 ≤ idx then M.kmaps[idx.toNat]? else M.imaps[(-1 - idx).toNat]?

/-- `map_group`, none where the group is nil. -/
def map_group (name : List Char) : Option Mapping :=
  (groupof name).map fun g => if g ∈ M.groups then M else { M with groups := M.groups ++ [g] }

/-- `map_ufunc`. -/
def map_ufunc (f : UFunc) : Mapping :=
  if isconst f.flags then if f ∈ M.kmaps then M else { M with kmaps := M.kmaps ++ [f] }
  else if f ∈ M.imaps then M else { M with imaps := M.imaps ++ [f] }

/-- The functions of one edge. -/
def map_edge (map : EdgeMap) : Mapping := map.halves.foldl map_ufunc M

/-- `edgemap`. -/
def edgemap : EdgeMap → Option ExtMap
  | .ident => some .FHKMAP_IDENT
  | .space => some .FHKMAP_SPACE
  | .user map inverse => (M.umap map).bind fun m => (M.umap inverse).map fun i =>
    .FHKMAP_USER (BitVec.ofInt 8 m) (BitVec.ofInt 8 i)

end Mapping

/-- The maps of a model's edges, in the order they are numbered. -/
def NodeModel.maps (m : NodeModel) : List EdgeMap :=
  m.params.map NodeEdge.map ++ m.returns.map NodeEdge.map ++ m.shadows.map NodeCheck.map

/-- The numbers of a model's group and functions. -/
def Mapping.map_model (M : Mapping) (m : NodeModel) : Option Mapping :=
  (M.map_group m.name).map fun M => m.maps.foldl Mapping.map_edge M

/-- The numbers of all nodes. -/
def NodeSet.mapping (N : NodeSet) : Option Mapping := do
  let M ← N.vars.foldlM (fun M v => M.map_group v.name) (⟨[], [], []⟩ : Mapping)
  N.models.foldlM Mapping.map_model M

/-! ## Calls -/

section Calls
variable (N : NodeSet) (order : List NodeVar) (M : Mapping) (D : Def)

/-- `objs[nodeset.vars[name]]`, variables are added in the given order. -/
def varObj (name : List Char) : Option Nat := order.findIdx? fun v => v.name = name

/-- `objs[nodeset.shadows[name]]`. -/
def shadowObj (name : List Char) : Option Nat := N.shadows.findIdx? fun s => s.name = name

/-- `mapping.groups[graph.groupof(name)]`, as the byte that is passed. -/
def groupArg (name : List Char) : Option (BitVec 8) := ((groupof name).bind M.group).map (BitVec.ofNat 8)

/-- `D:add_var`. -/
def add_var (v : NodeVar) : Option Def :=
  (groupArg M v.name).bind fun g => D.fhk_def_add_var g.toNat (v.size.getD 0) (v.cdiff.getD 0)

/-- `D:add_shadow`. -/
def add_shadow (s : NodeShadow) : Option Def :=
  (varObj order s.var).bind fun xi => D.fhk_def_add_shadow xi s.guard s.arg

/-- `D:add_param`. -/
def add_param (obj : Nat) (D : Def) (e : NodeEdge) : Option Def :=
  (varObj order e.target).bind fun xi => (M.edgemap e.map).bind fun map => D.fhk_def_add_param obj xi map

/-- `D:add_return`. -/
def add_return (obj : Nat) (D : Def) (e : NodeEdge) : Option Def :=
  (varObj order e.target).bind fun xi => (M.edgemap e.map).bind fun map => D.fhk_def_add_return obj xi map

/-- `D:add_check`. -/
def add_check (obj : Nat) (D : Def) (e : NodeCheck) : Option Def :=
  (shadowObj N e.target).bind fun wi => (M.edgemap e.map).bind fun map => D.fhk_def_add_check obj wi map e.penalty

/-- `D:add_model` and the edges of the model. -/
def add_model (m : NodeModel) : Option Def := do
  let g ← groupArg M m.name
  let obj := D.models.length
  let D ← D.fhk_def_add_model g.toNat m.k m.c (m.cmin.getD m.k)
  let D ← m.params.foldlM (add_param order M obj) D
  let D ← m.returns.foldlM (add_return order M obj) D
  m.shadows.foldlM (add_check N M obj) D

/-- `build` up to the calls, with the variables in the given order. -/
def NodeSet.build : Option (Def × Mapping) := do
  let M ← N.mapping
  let D ← order.foldlM (add_var M) fhk_create_def
  let D ← N.shadows.foldlM (add_shadow order) D
  let D ← N.models.foldlM (add_model N order M) D
  some (D, M)

end Calls

/-! ## Numbered -/

/-- A group of the node set. -/
def NodeSet.Group (N : NodeSet) (g : List Char) : Prop :=
  (∃ v ∈ N.vars, groupof v.name = some g) ∨ ∃ m ∈ N.models, groupof m.name = some g

/-- A function of the node set. -/
def NodeSet.Function (N : NodeSet) (f : UFunc) : Prop := ∃ m ∈ N.models, ∃ map ∈ m.maps, f ∈ map.halves

/-- Each group and each function has one number, and no other things have numbers. -/
structure Mapping.Inv (N : NodeSet) (M : Mapping) : Prop where
  groups : M.groups.Nodup
  kmaps : M.kmaps.Nodup
  imaps : M.imaps.Nodup
  group : ∀ g ∈ M.groups, N.Group g
  kmap : ∀ f ∈ M.kmaps, isconst f.flags = true ∧ N.Function f
  imap : ∀ f ∈ M.imaps, isconst f.flags = false ∧ N.Function f

variable {N : NodeSet} {M M' : Mapping}

theorem Mapping.Inv.map_group {name : List Char} (inv : M.Inv N) (own : ∀ g, groupof name = some g → N.Group g)
    (ok : M.map_group name = some M') : M'.Inv N := by
  obtain ⟨g, here, rfl⟩ := Option.map_eq_some_iff.mp ok
  split
  · exact inv
  · rename_i new
    refine ⟨nodup_concat inv.groups new, inv.kmaps, inv.imaps, fun g' mem => ?_, inv.kmap, inv.imap⟩
    obtain mem | mem := List.mem_append.mp mem
    · exact inv.group g' mem
    · rw [List.mem_singleton.mp mem]
      exact own g here

theorem Mapping.Inv.map_ufunc {f : UFunc} (inv : M.Inv N) (own : N.Function f) : (M.map_ufunc f).Inv N := by
  unfold Mapping.map_ufunc
  split
  · rename_i const
    split
    · exact inv
    · rename_i new
      refine ⟨inv.groups, nodup_concat inv.kmaps new, inv.imaps, inv.group, fun f' mem => ?_, inv.imap⟩
      obtain mem | mem := List.mem_append.mp mem
      · exact inv.kmap f' mem
      · rw [List.mem_singleton.mp mem]
        exact ⟨const, own⟩
  · rename_i nonconst
    split
    · exact inv
    · rename_i new
      refine ⟨inv.groups, inv.kmaps, nodup_concat inv.imaps new, inv.group, inv.kmap, fun f' mem => ?_⟩
      obtain mem | mem := List.mem_append.mp mem
      · exact inv.imap f' mem
      · rw [List.mem_singleton.mp mem]
        exact ⟨Bool.eq_false_iff.mpr nonconst, own⟩

theorem Mapping.Inv.foldl {α : Type} {f : Mapping → α → Mapping} {l : List α} (inv : M.Inv N)
    (step : ∀ a ∈ l, ∀ M : Mapping, M.Inv N → (f M a).Inv N) : (l.foldl f M).Inv N := by
  induction l generalizing M with
  | nil => exact inv
  | cons a l ih =>
    exact ih (step a List.mem_cons_self M inv) fun b mem => step b (List.mem_cons_of_mem _ mem)

theorem Mapping.Inv.map_model {m : NodeModel} (inv : M.Inv N) (mem : m ∈ N.models) (ok : M.map_model m = some M') :
    M'.Inv N := by
  obtain ⟨M1, group, rfl⟩ := Option.map_eq_some_iff.mp ok
  have grouped := inv.map_group (fun g here => .inr ⟨m, mem, here⟩) group
  exact grouped.foldl fun map here M inv => inv.foldl fun f half M inv => inv.map_ufunc ⟨m, mem, map, here, half⟩

theorem NodeSet.mapping_inv (ok : N.mapping = some M) : M.Inv N := by
  obtain ⟨M1, vars, models⟩ := Option.bind_eq_some_iff.mp ok
  have start : Mapping.Inv N ⟨[], [], []⟩ := by
    constructor <;> simp
  have first := foldlM_rule (fun _ M => M.Inv N) vars start fun _ v M M' mem inv ok =>
    inv.map_group (fun g here => .inl ⟨v, mem, here⟩) ok
  exact foldlM_rule (fun _ M => M.Inv N) models first fun _ m M M' mem inv ok => inv.map_model mem ok

/-! ## Defined -/

section Defined
variable (N : NodeSet) (order : List NodeVar) (M : Mapping)

/-- The variable of the definition that `D:add_var` leaves. -/
def VarOf (v : NodeVar) (dx : DefVar) : Prop :=
  (groupArg M v.name).map BitVec.toNat = some dx.group ∧ dx.size = v.size.getD 0 ∧ dx.cdiff = v.cdiff.getD 0

/-- The shadow that `D:add_shadow` leaves. -/
def ShadowOf (s : NodeShadow) (w : DefShadow) : Prop :=
  varObj order s.var = some w.xi ∧ w.guard = s.guard ∧ w.arg = s.arg

/-- The edge that `D:add_param` or `D:add_return` leaves. -/
def EdgeOf (e : NodeEdge) (d : DefEdge) : Prop := varObj order e.target = some d.idx ∧ M.edgemap e.map = some d.map

/-- The check that `D:add_check` leaves. -/
def CheckOf (e : NodeCheck) (d : DefShEdge) : Prop :=
  shadowObj N e.target = some d.idx ∧ M.edgemap e.map = some d.map ∧ d.penalty = e.penalty

/-- The model of the definition with its edges. -/
structure ModelOf (m : NodeModel) (dm : DefModel) : Prop where
  group : (groupArg M m.name).map BitVec.toNat = some dm.group
  params : List.Forall₂ (EdgeOf order M) m.params dm.params
  returns : List.Forall₂ (EdgeOf order M) m.returns dm.returns
  shadows : List.Forall₂ (CheckOf N M) m.shadows dm.shadows
  costs : dm.k = m.k ∧ dm.c = m.c ∧ dm.cmin = m.cmin.getD m.k

/-- The definition has the variables and the shadows of the node set. -/
structure Shown (D : Def) : Prop where
  defined : D.Defined
  maxg : D.maxg < M.groups.length
  vars : List.Forall₂ (VarOf M) order D.vars
  shadows : List.Forall₂ (ShadowOf order) N.shadows D.shadows

end Defined

variable {order : List NodeVar} {D D' : Def} {L : List DefModel}

/-- A group's number as a byte is below the number of groups. -/
theorem groupArg_lt {name : List Char} {g : BitVec 8} (group : groupArg M name = some g) : g.toNat < M.groups.length := by
  obtain ⟨i, number, rfl⟩ := Option.map_eq_some_iff.mp group
  obtain ⟨name', -, place⟩ := Option.bind_eq_some_iff.mp number
  obtain ⟨lt, -⟩ := List.idxOf?_eq_some_iff.mp place
  rw [BitVec.toNat_ofNat]
  exact (Nat.mod_le _ _).trans_lt lt

theorem add_var_some {v : NodeVar} (ok : add_var M D v = some D') :
    D.Add D' ∧ D'.models = D.models ∧ D'.shadows = D.shadows ∧ (D.maxg < M.groups.length → D'.maxg < M.groups.length) ∧
      ∃ dx, VarOf M v dx ∧ D'.vars = D.vars ++ [dx] := by
  obtain ⟨g, group, ok⟩ := Option.bind_eq_some_iff.mp ok
  have add := Def.Add.var g _ _ ok
  unfold Def.fhk_def_add_var at ok
  split at ok
  · cases ok
  split at ok
  · cases ok
  split at ok
  · cases ok
  cases ok
  exact ⟨add, rfl, rfl, fun before => max_lt before (Int.ofNat_lt.mpr (groupArg_lt group)), _,
    ⟨by rw [group, Option.map_some], rfl, rfl⟩, rfl⟩

theorem varObj_lt {name : List Char} {xi : Nat} (here : varObj order name = some xi) : xi < order.length :=
  (List.findIdx?_eq_some_iff_getElem.mp here).1

theorem add_shadow_some {s : NodeShadow} (vars : List.Forall₂ (VarOf M) order D.vars) (ok : add_shadow order D s = some D') :
    D.Add D' ∧ D'.models = D.models ∧ D'.vars = D.vars ∧ D'.maxg = D.maxg ∧
      ∃ w, ShadowOf order s w ∧ D'.shadows = D.shadows ++ [w] := by
  obtain ⟨xi, obj, ok⟩ := Option.bind_eq_some_iff.mp ok
  have add := Def.Add.shadow xi (vars.length_eq ▸ varObj_lt obj) _ _ ok
  unfold Def.fhk_def_add_shadow at ok
  split at ok
  · cases ok
  split at ok
  · cases ok
  cases ok
  exact ⟨add, rfl, rfl, rfl, _, ⟨obj, rfl, rfl⟩, rfl⟩

/-- An edge goes to the model that was added last. -/
theorem Shown.addEdge {full : DefModel → DefVar → Bool} {link : DefModel → DefEdge → DefModel} {count : DefVar → DefVar}
    {xi : Nat} {map : ExtMap} {dm : DefModel} (shown : Shown N order M D) (models : D.models = L ++ [dm]) (add : D.Add D')
    (ok : D.addEdge full link count L.length xi map = some D')
    (keep : ∀ dx, (count dx).group = dx.group ∧ (count dx).size = dx.size ∧ (count dx).cdiff = dx.cdiff) :
    Shown N order M D' ∧ D'.models = L ++ [link dm ⟨xi, map⟩] := by
  obtain ⟨dn, dx, D1, model, var, -, checked, rfl⟩ := Def.addEdge_some ok
  have checked := Def.d_checkmap_some checked
  have same : dn = dm := by simpa [models] using model.symm
  subst same
  refine ⟨⟨shown.defined.tail add, checked.maxg.symm ▸ shown.maxg, ?_, ?_⟩, ?_⟩
  · rw [checked.vars]
    apply forall₂_set shown.vars var
    intro v holds
    obtain ⟨group, size, cdiff⟩ := keep dx
    rw [VarOf, group, size, cdiff]
    exact holds
  · rw [checked.shadows]
    exact shown.shadows
  · rw [checked.models, models, List.set_append_right _ _ le_rfl, Nat.sub_self, List.set_cons_zero]

theorem Shown.add_param {e : NodeEdge} {dm : DefModel} (shown : Shown N order M D) (models : D.models = L ++ [dm])
    (ok : add_param order M L.length D e = some D') :
    ∃ d, EdgeOf order M e d ∧ Shown N order M D' ∧ D'.models = L ++ [{ dm with params := dm.params ++ [d] }] := by
  obtain ⟨xi, obj, ok⟩ := Option.bind_eq_some_iff.mp ok
  obtain ⟨map, here, ok⟩ := Option.bind_eq_some_iff.mp ok
  exact ⟨⟨xi, map⟩, ⟨obj, here⟩, shown.addEdge models (.param _ _ _ ok) ok fun _ => ⟨rfl, rfl, rfl⟩⟩

theorem Shown.add_return {e : NodeEdge} {dm : DefModel} (shown : Shown N order M D) (models : D.models = L ++ [dm])
    (ok : add_return order M L.length D e = some D') :
    ∃ d, EdgeOf order M e d ∧ Shown N order M D' ∧ D'.models = L ++ [{ dm with returns := dm.returns ++ [d] }] := by
  obtain ⟨xi, obj, ok⟩ := Option.bind_eq_some_iff.mp ok
  obtain ⟨map, here, ok⟩ := Option.bind_eq_some_iff.mp ok
  exact ⟨⟨xi, map⟩, ⟨obj, here⟩, shown.addEdge models (.returns _ _ _ ok) ok fun _ => ⟨rfl, rfl, rfl⟩⟩

theorem Shown.add_check {e : NodeCheck} {dm : DefModel} (shown : Shown N order M D) (models : D.models = L ++ [dm])
    (ok : add_check N M L.length D e = some D') :
    ∃ d, CheckOf N M e d ∧ Shown N order M D' ∧ D'.models = L ++ [{ dm with shadows := dm.shadows ++ [d] }] := by
  obtain ⟨wi, obj, ok⟩ := Option.bind_eq_some_iff.mp ok
  obtain ⟨map, here, ok⟩ := Option.bind_eq_some_iff.mp ok
  have add := Def.Add.check _ _ _ _ ok
  obtain ⟨dn, model, ok⟩ := Option.bind_eq_some_iff.mp ok
  obtain ⟨w, shadow, ok⟩ := Option.bind_eq_some_iff.mp ok
  obtain ⟨dx, var, ok⟩ := Option.bind_eq_some_iff.mp ok
  split at ok
  · cases ok
  obtain ⟨D1, checked, ok⟩ := Option.bind_eq_some_iff.mp ok
  cases ok
  have checked := Def.d_checkmap_some checked
  have same : dn = dm := by simpa [models] using model.symm
  subst same
  refine ⟨⟨wi, map, e.penalty⟩, ⟨obj, here, rfl⟩, ⟨shown.defined.tail add, checked.maxg.symm ▸ shown.maxg, ?_, ?_⟩, ?_⟩
  · rw [checked.vars]
    exact shown.vars
  · rw [checked.shadows]
    exact shown.shadows
  · rw [checked.models, models, List.set_append_right _ _ le_rfl, Nat.sub_self, List.set_cons_zero]

/-- The loop over the edges of one kind, which are put in the model that was added last. -/
theorem Shown.edges {ε δ : Type} {R : ε → δ → Prop} {call : Def → ε → Option Def} {l : List ε} (put : List δ → DefModel)
    (shown : Shown N order M D) (models : D.models = L ++ [put []]) (ok : l.foldlM call D = some D')
    (step : ∀ ds e D D', Shown N order M D → D.models = L ++ [put ds] → call D e = some D' →
      ∃ d, R e d ∧ Shown N order M D' ∧ D'.models = L ++ [put (ds ++ [d])]) :
    ∃ ds, List.Forall₂ R l ds ∧ Shown N order M D' ∧ D'.models = L ++ [put ds] :=
  foldlM_rule (fun done (D : Def) => ∃ ds, List.Forall₂ R done ds ∧ Shown N order M D ∧ D.models = L ++ [put ds]) ok
    ⟨[], .nil, shown, models⟩ fun done e D D' _ before taken => by
      obtain ⟨ds, all, shown, models⟩ := before
      obtain ⟨d, last, shown', models'⟩ := step ds e D D' shown models taken
      exact ⟨ds ++ [d], forall₂_concat all last, shown', models'⟩

theorem Shown.add_model {m : NodeModel} (shown : Shown N order M D) (ok : add_model N order M D m = some D') :
    ∃ dm, ModelOf N order M m dm ∧ Shown N order M D' ∧ D'.models = D.models ++ [dm] := by
  obtain ⟨g, group, ok⟩ := Option.bind_eq_some_iff.mp ok
  obtain ⟨D1, added, ok⟩ := Option.bind_eq_some_iff.mp ok
  obtain ⟨D2, params, ok⟩ := Option.bind_eq_some_iff.mp ok
  obtain ⟨D3, returns, checks⟩ := Option.bind_eq_some_iff.mp ok
  have add := Def.Add.model g _ _ _ added
  unfold Def.fhk_def_add_model at added
  split at added
  · cases added
  split at added
  · cases added
  split at added
  · cases added
  cases added
  have shown1 : Shown N order M _ :=
    ⟨shown.defined.tail add, max_lt shown.maxg (Int.ofNat_lt.mpr (groupArg_lt group)), shown.vars, shown.shadows⟩
  obtain ⟨ps, all_params, shown2, models2⟩ := shown1.edges (L := D.models) (R := EdgeOf order M)
    (fun ds => ⟨ds, [], [], g.toNat, m.k, m.c, m.cmin.getD m.k⟩) rfl params
    fun ds e D D' shown models ok => shown.add_param models ok
  obtain ⟨rs, all_returns, shown3, models3⟩ := shown2.edges (R := EdgeOf order M)
    (fun ds => ⟨ps, ds, [], g.toNat, m.k, m.c, m.cmin.getD m.k⟩) models2 returns
    fun ds e D D' shown models ok => shown.add_return models ok
  obtain ⟨cs, all_checks, shown4, models4⟩ := shown3.edges (R := CheckOf N M)
    (fun ds => ⟨ps, rs, ds, g.toNat, m.k, m.c, m.cmin.getD m.k⟩) models3 checks
    fun ds e D D' shown models ok => shown.add_check models ok
  exact ⟨_, ⟨by rw [group, Option.map_some], all_params, all_returns, all_checks, rfl, rfl, rfl⟩, shown4, models4⟩

/-- The definition is the node set, call by call. -/
theorem NodeSet.build_shown (ok : N.build order = some (D, M)) :
    M.Inv N ∧ Shown N order M D ∧ List.Forall₂ (ModelOf N order M) N.models D.models := by
  obtain ⟨M1, mapping, ok⟩ := Option.bind_eq_some_iff.mp ok
  obtain ⟨D1, vars, ok⟩ := Option.bind_eq_some_iff.mp ok
  obtain ⟨D2, shadows, ok⟩ := Option.bind_eq_some_iff.mp ok
  obtain ⟨D3, models, ok⟩ := Option.bind_eq_some_iff.mp ok
  cases ok
  have empty : fhk_create_def.maxg < M.groups.length := (Int.negSucc_lt_zero 0).trans_le (Int.natCast_nonneg _)
  have first := foldlM_rule (fun done (D : Def) => D.Defined ∧ D.models = [] ∧ D.shadows = [] ∧ D.maxg < M.groups.length ∧
      List.Forall₂ (VarOf M) done D.vars) vars ⟨.refl, rfl, rfl, empty, .nil⟩ fun done v D D' _ before taken => by
      obtain ⟨defined, no_models, no_shadows, maxg, all⟩ := before
      obtain ⟨add, models, shadows, grown, dx, last, vars⟩ := add_var_some taken
      refine ⟨defined.tail add, models.trans no_models, shadows.trans no_shadows, grown maxg, ?_⟩
      rw [vars]
      exact forall₂_concat all last
  obtain ⟨defined, no_models, no_shadows, maxg, all_vars⟩ := first
  have second := foldlM_rule (fun done (D : Def) => D.Defined ∧ D.models = [] ∧ D.maxg < M.groups.length ∧
      List.Forall₂ (VarOf M) order D.vars ∧ List.Forall₂ (ShadowOf order) done D.shadows) shadows
    ⟨defined, no_models, maxg, all_vars, no_shadows ▸ .nil⟩ fun done s D D' _ before taken => by
      obtain ⟨defined, no_models, maxg, all_vars, all⟩ := before
      obtain ⟨add, models, vars, same, w, last, shadows⟩ := add_shadow_some all_vars taken
      refine ⟨defined.tail add, models.trans no_models, same.symm ▸ maxg, vars ▸ all_vars, ?_⟩
      rw [shadows]
      exact forall₂_concat all last
  obtain ⟨defined, no_models, maxg, all_vars, all_shadows⟩ := second
  have third := foldlM_rule (fun done (D : Def) => Shown N order M D ∧ List.Forall₂ (ModelOf N order M) done D.models) models
    ⟨⟨defined, maxg, all_vars, all_shadows⟩, no_models ▸ .nil⟩ fun done m D D' _ before taken => by
      obtain ⟨shown, all⟩ := before
      obtain ⟨dm, last, shown', models⟩ := shown.add_model taken
      refine ⟨shown', ?_⟩
      rw [models]
      exact forall₂_concat all last
  exact ⟨NodeSet.mapping_inv mapping, third⟩

/-! ## Read -/

/-- The map that an external map stands for, by the tables of the mapping. -/
def Mapping.read (M : Mapping) : ExtMap → Option EdgeMap
  | .FHKMAP_IDENT => some .ident
  | .FHKMAP_SPACE => some .space
  | .FHKMAP_USER map inverse => (M.ufunc map.toInt).bind fun m => (M.ufunc inverse.toInt).map (EdgeMap.user m)

theorem ufunc_umap {f : UFunc} {i : Int} (here : M.umap f = some i) : M.ufunc i = some f := by
  unfold Mapping.umap at here
  unfold Mapping.ufunc
  split at here
  · obtain ⟨n, place, rfl⟩ := Option.map_eq_some_iff.mp here
    rw [if_pos (Int.natCast_nonneg n), Int.toNat_natCast]
    exact getElem_of_idxOf place
  · obtain ⟨n, place, rfl⟩ := Option.map_eq_some_iff.mp here
    rw [if_neg (by omega), show (-1 - (-1 - (n : Int))).toNat = n by omega]
    exact getElem_of_idxOf place

/-- The numbers fit the bytes they are narrowed to. -/
structure Mapping.Fits (M : Mapping) : Prop where
  groups : M.groups.length ≤ 129
  kmaps : M.kmaps.length ≤ 128
  imaps : M.imaps.length ≤ 127

theorem Mapping.Fits.umap (fits : M.Fits) {f : UFunc} {i : Int} (here : M.umap f = some i) : Def.int8 i = i := by
  have kmaps := fits.kmaps
  have imaps := fits.imaps
  unfold Mapping.umap at here
  split at here
  · obtain ⟨n, place, rfl⟩ := Option.map_eq_some_iff.mp here
    obtain ⟨lt, -⟩ := List.idxOf?_eq_some_iff.mp place
    exact Def.int8_eq (by omega) (by omega)
  · obtain ⟨n, place, rfl⟩ := Option.map_eq_some_iff.mp here
    obtain ⟨lt, -⟩ := List.idxOf?_eq_some_iff.mp place
    exact Def.int8_eq (by omega) (by omega)

/-- What an edge is passed with is read back as the edge's map. -/
theorem Mapping.Fits.edgemap (fits : M.Fits) {map : EdgeMap} {ext : ExtMap} (here : M.edgemap map = some ext) :
    M.read ext = some map := by
  cases map with
  | ident =>
    cases here
    rfl
  | space =>
    cases here
    rfl
  | user a b =>
    obtain ⟨m, forward, here⟩ := Option.bind_eq_some_iff.mp here
    obtain ⟨i, inverse, rfl⟩ := Option.map_eq_some_iff.mp here
    have m_eq : (BitVec.ofInt 8 m).toInt = m := fits.umap forward
    have i_eq : (BitVec.ofInt 8 i).toInt = i := fits.umap inverse
    rw [Mapping.read, m_eq, i_eq, ufunc_umap forward, ufunc_umap inverse]
    rfl

/-- The number in a node is that of its group. -/
def Mapping.InGroup (M : Mapping) (name : List Char) (group : Nat) : Prop :=
  ∃ g, groupof name = some g ∧ M.groups[group]? = some g

theorem Mapping.Fits.group (fits : M.Fits) {name : List Char} {group : Nat}
    (here : (groupArg M name).map BitVec.toNat = some group) : M.InGroup name group := by
  obtain ⟨x, arg, rfl⟩ := Option.map_eq_some_iff.mp here
  obtain ⟨i, number, rfl⟩ := Option.map_eq_some_iff.mp arg
  obtain ⟨g, own, place⟩ := Option.bind_eq_some_iff.mp number
  have groups := fits.groups
  obtain ⟨lt, -⟩ := List.idxOf?_eq_some_iff.mp place
  refine ⟨g, own, ?_⟩
  rw [BitVec.toNat_ofNat, Nat.mod_eq_of_lt (by omega)]
  exact getElem_of_idxOf place

/-! ## No number wraps -/

/-- The calls have recorded every map of the node set. -/
theorem ModelOf.recorded {m : NodeModel} {dm : DefModel} (made : ModelOf N order M m dm) (ok : D.ModelOk dm) {map : EdgeMap}
    (mem : map ∈ m.maps) : ∃ ext src dst, M.edgemap map = some ext ∧ D.Recorded ext src dst := by
  have edge {d : DefEdge} (there : d ∈ dm.params ++ dm.returns) : ∃ src dst, D.Recorded d.map src dst := by
    obtain ⟨dx, -, recorded⟩ := ok.edges d there
    exact ⟨_, _, recorded⟩
  obtain mem | mem := List.mem_append.mp mem
  · obtain mem | mem := List.mem_append.mp mem
    · obtain ⟨e, here, rfl⟩ := List.mem_map.mp mem
      obtain ⟨d, there, -, passed⟩ := forall₂_mem made.params here
      obtain ⟨src, dst, recorded⟩ := edge (List.mem_append_left _ there)
      exact ⟨_, src, dst, passed, recorded⟩
    · obtain ⟨e, here, rfl⟩ := List.mem_map.mp mem
      obtain ⟨d, there, -, passed⟩ := forall₂_mem made.returns here
      obtain ⟨src, dst, recorded⟩ := edge (List.mem_append_right _ there)
      exact ⟨_, src, dst, passed, recorded⟩
  · obtain ⟨e, here, rfl⟩ := List.mem_map.mp mem
    obtain ⟨d, there, -, passed, -⟩ := forall₂_mem made.shadows here
    obtain ⟨w, dx, -, -, recorded⟩ := ok.checks d there
    exact ⟨_, _, _, passed, recorded⟩

/-- A function's number is above the lower limit, as the byte it is passed as. -/
theorem function_byte (inv : D.Inv) (made : List.Forall₂ (ModelOf N order M) N.models D.models) {f : UFunc} {i : Int}
    (own : N.Function f) (here : M.umap f = some i) : -127 ≤ Def.int8 i := by
  obtain ⟨m, mem, map, edge, half⟩ := own
  obtain ⟨dm, there, model⟩ := forall₂_mem made mem
  obtain ⟨ext, src, dst, passed, recorded⟩ := model.recorded (inv.models dm there) edge
  obtain ⟨low, -⟩ := inv.minimap
  cases map with
  | ident => cases half
  | space => cases half
  | user a b =>
    obtain ⟨ma, forward, passed⟩ := Option.bind_eq_some_iff.mp passed
    obtain ⟨ib, inverse, rfl⟩ := Option.map_eq_some_iff.mp passed
    obtain ⟨⟨-, ge, -⟩, -, ge', -⟩ := recorded _ _ rfl
    rw [EdgeMap.halves, List.mem_pair] at half
    obtain rfl | rfl := half
    · rw [forward, Option.some.injEq] at here
      rw [← here]
      exact low.trans ge
    · rw [inverse, Option.some.injEq] at here
      rw [← here]
      exact low.trans ge'

/-- A group's number is within the limit, as the byte it is passed as. -/
theorem group_byte (shown : Shown N order M D) (made : List.Forall₂ (ModelOf N order M) N.models D.models)
    (all : ∀ v ∈ N.vars, v ∈ order) {g : List Char} {i : Nat} (own : N.Group g) (here : M.group g = some i) :
    (BitVec.ofNat 8 i).toNat ≤ 128 := by
  have inv := shown.defined.inv
  have limit := inv.limit
  have maxkmap := inv.maxkmap
  have arg {name : List Char} (named : groupof name = some g) :
      (groupArg M name).map BitVec.toNat = some (BitVec.ofNat 8 i).toNat := by
    rw [groupArg, named, Option.bind_some, here, Option.map_some, Option.map_some]
  obtain ⟨v, mem, named⟩ | ⟨m, mem, named⟩ := own
  · obtain ⟨dx, there, group, -⟩ := forall₂_mem shown.vars (all v mem)
    have le := inv.varGroup dx there
    rw [arg named, Option.some.injEq] at group
    omega
  · obtain ⟨dm, there, model⟩ := forall₂_mem made mem
    have le := inv.modelGroup dm there
    have group := model.group
    rw [arg named, Option.some.injEq] at group
    omega

/-- The first number that does not fit its byte is refused by some call, since each number is passed. -/
theorem Shown.fits (shown : Shown N order M D) (made : List.Forall₂ (ModelOf N order M) N.models D.models)
    (all : ∀ v ∈ N.vars, v ∈ order) (inv : M.Inv N) : M.Fits := by
  constructor
  · by_contra long
    have lt : 129 < M.groups.length := Nat.not_le.mp long
    have number : M.group M.groups[129] = some 129 := idxOf_getElem inv.groups lt
    exact absurd (group_byte shown made all (inv.group _ (List.getElem_mem lt)) number) (by decide)
  · by_contra long
    have lt : 128 < M.kmaps.length := Nat.not_le.mp long
    obtain ⟨const, own⟩ := inv.kmap _ (List.getElem_mem lt)
    have number : M.umap M.kmaps[128] = some 128 := by
      rw [Mapping.umap, if_pos const, idxOf_getElem inv.kmaps lt]
      rfl
    exact absurd (function_byte shown.defined.inv made own number) (by decide)
  · by_contra long
    have lt : 127 < M.imaps.length := Nat.not_le.mp long
    obtain ⟨nonconst, own⟩ := inv.imap _ (List.getElem_mem lt)
    have number : M.umap M.imaps[127] = some (-128) := by
      rw [Mapping.umap, nonconst, if_neg Bool.false_ne_true, idxOf_getElem inv.imaps lt]
      rfl
    exact absurd (function_byte shown.defined.inv made own number) (by decide)

/-! ## Codes -/

theorem umap_lt {f : UFunc} {i : Int} (here : M.umap f = some i) : i < M.kmaps.length := by
  unfold Mapping.umap at here
  split at here
  · obtain ⟨n, place, rfl⟩ := Option.map_eq_some_iff.mp here
    obtain ⟨lt, -⟩ := List.idxOf?_eq_some_iff.mp place
    exact Int.ofNat_lt.mpr lt
  · obtain ⟨n, -, rfl⟩ := Option.map_eq_some_iff.mp here
    omega

theorem const_of_userKind {x : BitVec 8} {k : Int} (kind : userKind x = .const k) : x.toInt = k := by
  unfold userKind at kind
  split at kind
  · exact MapKind.const.inj kind
  · cases kind

/-- A constant map is numbered below the number of constant maps. -/
theorem Mapping.Fits.const (fits : M.Fits) {map : EdgeMap} {ext : ExtMap} {group : Nat} {k : Int}
    (passed : M.edgemap map = some ext) (kind : ext.kind group = .const k ∨ ext.kindInverse group = .const k) :
    k < M.kmaps.length := by
  cases map with
  | ident =>
    cases passed
    obtain kind | kind := kind <;> cases kind
  | space =>
    cases passed
    obtain kind | kind := kind <;> cases kind
  | user a b =>
    obtain ⟨m, forward, passed⟩ := Option.bind_eq_some_iff.mp passed
    obtain ⟨i, inverse, rfl⟩ := Option.map_eq_some_iff.mp passed
    have m_eq : (BitVec.ofInt 8 m).toInt = m := fits.umap forward
    have i_eq : (BitVec.ofInt 8 i).toInt = i := fits.umap inverse
    obtain kind | kind := kind
    · rw [← const_of_userKind kind, m_eq]
      exact umap_lt forward
    · rw [← const_of_userKind kind, i_eq]
      exact umap_lt inverse

theorem ModelOf.passed {m : NodeModel} {dm : DefModel} (made : ModelOf N order M m dm) {d : DefEdge}
    (mem : d ∈ dm.params ++ dm.returns) : ∃ map, M.edgemap map = some d.map := by
  obtain mem | mem := List.mem_append.mp mem
  · obtain ⟨e, -, -, passed⟩ := forall₂_mem made.params.flip mem
    exact ⟨_, passed⟩
  · obtain ⟨e, -, -, passed⟩ := forall₂_mem made.returns.flip mem
    exact ⟨_, passed⟩

/-- The codes of the graph fit their bytes where there are no more groups and constant maps than 128. -/
theorem Shown.codes (shown : Shown N order M D) (made : List.Forall₂ (ModelOf N order M) N.models D.models) (fits : M.Fits)
    (room : M.groups.length + M.kmaps.length ≤ 128) : D.CodesFit := by
  intro kind code source uses
  have inv := shown.defined.inv
  have ng_eq := inv.ng_eq
  have maxg := shown.maxg
  constructor
  · rintro group rfl
    have bounded : (group : Int) ≤ D.maxg := (inv.uses uses).1
    omega
  · intro k const
    have lt : k < M.kmaps.length := by
      cases uses with
      | edge model edge var =>
        obtain ⟨m, -, made⟩ := forall₂_mem made.flip model
        obtain ⟨map, passed⟩ := made.passed edge
        exact fits.const passed (.inl const)
      | inverse model edge var =>
        obtain ⟨m, -, made⟩ := forall₂_mem made.flip model
        obtain ⟨map, passed⟩ := made.passed edge
        exact fits.const passed (.inr const)
      | check model edge shadow var =>
        obtain ⟨m, -, made⟩ := forall₂_mem made.flip model
        obtain ⟨e, -, -, passed, -⟩ := forall₂_mem made.shadows.flip edge
        exact fits.const passed (.inl const)
    omega

end M2.Fhk.Transform
