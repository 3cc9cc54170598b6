import Mathlib.Tactic.Linarith
import M2.Fhk.Define

/-!
# Map codes of built graphs

Which external maps the 8-bit codes of a built graph stand for. The limit checks keep the largest
group and the largest constant map together at 127, but the codes of constant maps start behind the
last group: at the limit a code is 128, which as a signed byte is `MAP_IDENT`.
-/
namespace M2.Fhk
open M2.Lib

/-- What an edge says about the instances it maps to. -/
inductive MapKind
  | ident
  | space (group : Nat)
  | const (k : Int)
  | nonconst (i : Int)

/-- The half of a user map. -/
def userKind (m : BitVec 8) : MapKind := if 0 ≤ m.toInt then .const m.toInt else .nonconst m.toInt

/-- The map of an edge to a variable of group `dst`. -/
def ExtMap.kind (dst : Nat) : ExtMap → MapKind
  | .FHKMAP_IDENT => .ident
  | .FHKMAP_SPACE => .space dst
  | .FHKMAP_USER map _ => userKind map

/-- The inverse map, to a model of group `src`. -/
def ExtMap.kindInverse (src : Nat) : ExtMap → MapKind
  | .FHKMAP_IDENT => .ident
  | .FHKMAP_SPACE => .space src
  | .FHKMAP_USER _ inverse => userKind inverse

namespace Def
variable (D : Def)

/-- The built graph has an edge end with this map under this code, from an instance of `source`. -/
inductive Uses : MapKind → Int → Nat → Prop
  | edge {dm : DefModel} {e : DefEdge} {dx : DefVar} (model : dm ∈ D.models) (edge : e ∈ dm.params ++ dm.returns)
      (var : D.vars[e.idx]? = some dx) : Uses (e.map.kind dx.group) (D.g_extmap dx.group e.map) dm.group
  | inverse {dm : DefModel} {e : DefEdge} {dx : DefVar} (model : dm ∈ D.models) (edge : e ∈ dm.params ++ dm.returns)
      (var : D.vars[e.idx]? = some dx) : Uses (e.map.kindInverse dm.group) (D.g_extmapi dm.group e.map) dx.group
  | check {dm : DefModel} {e : DefShEdge} {w : DefShadow} {dx : DefVar} (model : dm ∈ D.models) (edge : e ∈ dm.shadows)
      (shadow : D.shadows[e.idx]? = some w) (var : D.vars[w.xi]? = some dx) :
      Uses (e.map.kind dx.group) (D.g_extmap dx.group e.map) dm.group

/-- The code is one of those set aside for its kind of map, and a nonconstant map is recorded with its
source group. -/
def Coded : MapKind → Int → Nat → Prop
  | .ident, code, _ => code = MAP_IDENT
  | .space group, code, _ => code = group ∧ group < D.ng
  | .const _, code, _ => D.ng ≤ code ∧ code < D.nkmap
  | .nonconst _, code, source => -(D.nimap : Int) ≤ code ∧ code ≤ -1 ∧ D.umap_assoc code = source

/-- The translation of maps to codes is injective, and into the ranges of the codes. -/
def Unambiguous : Prop :=
  (∀ kind code source, D.Uses kind code source → D.Coded kind code source) ∧
    ∀ kind kind' code source source', D.Uses kind code source → D.Uses kind' code source' → kind = kind'

/-- Every code fits a signed byte. -/
def CodesFit : Prop :=
  ∀ kind code source, D.Uses kind code source →
    (∀ group, kind = .space group → group ≤ 127) ∧ ∀ k, kind = .const k → k + D.ng ≤ 127

/-! ## What the calls keep -/

/-- A map that `d_checkmap` let through is within the maxima, and its nonconstant halves belong to
their groups. -/
def Recorded (map : ExtMap) (src dst : Nat) : Prop :=
  ∀ m i, map = .FHKMAP_USER m i →
    (m.toInt ≤ D.maxkmap ∧ D.minimap ≤ m.toInt ∧ (m.toInt < 0 → D.umap_assoc m.toInt = src)) ∧
      i.toInt ≤ D.maxkmap ∧ D.minimap ≤ i.toInt ∧ (i.toInt < 0 → D.umap_assoc i.toInt = dst)

/-- The edges of a model have handles of the definition, and recorded maps. -/
structure ModelOk (dm : DefModel) : Prop where
  edges : ∀ e ∈ dm.params ++ dm.returns, ∃ dx, D.vars[e.idx]? = some dx ∧ D.Recorded e.map dm.group dx.group
  checks : ∀ e ∈ dm.shadows, ∃ w dx, D.shadows[e.idx]? = some w ∧ D.vars[w.xi]? = some dx ∧
    D.Recorded e.map dm.group dx.group

/-- The invariant of the calls. -/
structure Inv : Prop where
  maxg : -1 ≤ D.maxg
  maxkmap : -1 ≤ D.maxkmap
  limit : D.maxg + D.maxkmap ≤ 127
  minimap : -127 ≤ D.minimap ∧ D.minimap ≤ 0
  modelGroup : ∀ dm ∈ D.models, dm.group ≤ D.maxg
  varGroup : ∀ dx ∈ D.vars, dx.group ≤ D.maxg
  shadows : ∀ w ∈ D.shadows, w.xi < D.vars.length
  models : ∀ dm ∈ D.models, D.ModelOk dm

/-- What a call leaves of the definition before it. -/
structure Grows (D D' : Def) : Prop where
  maxkmap : D.maxkmap ≤ D'.maxkmap
  minimap : D'.minimap ≤ D.minimap
  assoc : ∀ m, D.umap_assoc m ≠ FHK_NGRP → D'.umap_assoc m = D.umap_assoc m
  vars : ∀ (i : Nat) (dx : DefVar), D.vars[i]? = some dx → ∃ dx' : DefVar, D'.vars[i]? = some dx' ∧ dx'.group = dx.group
  shadows : ∀ (i : Nat) (w : DefShadow), D.shadows[i]? = some w → D'.shadows[i]? = some w

variable {D} {D' D'' : Def}

theorem Recorded.grows {map : ExtMap} {src dst : Nat} (recorded : D.Recorded map src dst) (grows : Grows D D')
    (src_lt : src < FHK_NGRP) (dst_lt : dst < FHK_NGRP) : D'.Recorded map src dst := by
  intro m i user
  obtain ⟨⟨m_le, le_m, m_assoc⟩, i_le, le_i, i_assoc⟩ := recorded m i user
  have le := grows.maxkmap
  have ge := grows.minimap
  refine ⟨⟨by omega, by omega, fun neg => ?_⟩, by omega, by omega, fun neg => ?_⟩
  · rw [grows.assoc _ (by rw [m_assoc neg]; omega), m_assoc neg]
  · rw [grows.assoc _ (by rw [i_assoc neg]; omega), i_assoc neg]

theorem Inv.group_lt (inv : D.Inv) {group : Nat} (le : (group : Int) ≤ D.maxg) : group < FHK_NGRP := by
  have := inv.limit
  have := inv.maxkmap
  unfold FHK_NGRP
  omega

theorem Inv.var_lt (inv : D.Inv) {i : Nat} {dx : DefVar} (here : D.vars[i]? = some dx) : dx.group < FHK_NGRP :=
  inv.group_lt (inv.varGroup dx (List.mem_of_getElem? here))

theorem ModelOk.grows {dm : DefModel} (ok : D.ModelOk dm) (inv : D.Inv) (le : (dm.group : Int) ≤ D.maxg)
    (grows : Grows D D') : D'.ModelOk dm := by
  refine ⟨fun e mem => ?_, fun e mem => ?_⟩
  · obtain ⟨dx, here, recorded⟩ := ok.edges e mem
    obtain ⟨dx', here', same⟩ := grows.vars _ _ here
    refine ⟨dx', here', ?_⟩
    rw [same]
    exact recorded.grows grows (inv.group_lt le) (inv.var_lt here)
  · obtain ⟨w, dx, shadow, here, recorded⟩ := ok.checks e mem
    obtain ⟨dx', here', same⟩ := grows.vars _ _ here
    refine ⟨w, dx', grows.shadows _ _ shadow, here', ?_⟩
    rw [same]
    exact recorded.grows grows (inv.group_lt le) (inv.var_lt here)

/-- What `associate` leaves, but for the record of the map. -/
theorem associate_some {m : Int} {group : Nat} (ok : D.associate m group = some D') :
    D' = { D with umap_assoc := D'.umap_assoc } ∧ (∀ j, D.umap_assoc j ≠ FHK_NGRP → D'.umap_assoc j = D.umap_assoc j) ∧
      (m < 0 → D'.umap_assoc m = group) := by
  unfold associate at ok
  split at ok
  · rename_i nonneg
    cases ok
    exact ⟨rfl, fun _ _ => rfl, fun neg => absurd nonneg (Int.not_le.mpr neg)⟩
  split at ok
  · rename_i free
    cases ok
    refine ⟨rfl, fun j taken => Function.update_of_ne (fun same => ?_) _ _, fun _ => Function.update_self ..⟩
    rw [same] at taken
    exact taken free
  split at ok
  · cases ok
  · rename_i same
    cases ok
    exact ⟨rfl, fun _ _ => rfl, fun _ => not_not.mp same⟩

/-- What `d_checkmap` leaves: the nodes as they are, the map recorded and the limits kept. -/
structure Checked (D D' : Def) (map : ExtMap) (src dst : Nat) : Prop where
  models : D'.models = D.models
  vars : D'.vars = D.vars
  shadows : D'.shadows = D.shadows
  maxg : D'.maxg = D.maxg
  grows : Grows D D'
  recorded : src < FHK_NGRP → dst < FHK_NGRP → D'.Recorded map src dst
  limit : D.maxg + D.maxkmap ≤ 127 → D'.maxg + D'.maxkmap ≤ 127
  minimap : -127 ≤ D.minimap → -127 ≤ D'.minimap

theorem d_checkmap_some {map : ExtMap} {src dst : Nat} (ok : D.d_checkmap map src dst = some D') :
    Checked D D' map src dst := by
  have same : Grows D D :=
    ⟨le_rfl, le_rfl, fun _ _ => rfl, fun _ dx here => ⟨dx, here, rfl⟩, fun _ _ here => here⟩
  cases map with
  | FHKMAP_IDENT =>
    cases ok
    exact ⟨rfl, rfl, rfl, rfl, same, fun _ _ _ _ user => (by cases user), id, id⟩
  | FHKMAP_SPACE =>
    cases ok
    exact ⟨rfl, rfl, rfl, rfl, same, fun _ _ _ _ user => (by cases user), id, id⟩
  | FHKMAP_USER m i =>
    obtain ⟨D1, first, ok⟩ := Option.bind_eq_some_iff.mp ok
    obtain ⟨D2, second, ok⟩ := Option.bind_eq_some_iff.mp ok
    obtain ⟨shape1, keep1, record1⟩ := associate_some first
    obtain ⟨shape2, keep2, record2⟩ := associate_some second
    rw [shape1] at shape2
    simp only at ok
    split at ok
    · cases ok
    rename_i limit
    split at ok
    · cases ok
    rename_i low
    have maxg : D2.maxg = D.maxg := by rw [shape2]
    have maxkmap : D2.maxkmap = D.maxkmap := by rw [shape2]
    have minimap : D2.minimap = D.minimap := by rw [shape2]
    have models : D2.models = D.models := by rw [shape2]
    have vars : D2.vars = D.vars := by rw [shape2]
    have shadows : D2.shadows = D.shadows := by rw [shape2]
    rw [maxg, maxkmap] at limit
    rw [minimap] at low
    cases ok
    unfold G_MAXUMAP at limit
    unfold G_MINUMAP at low
    refine ⟨models, vars, shadows, maxg, ⟨?_, ?_, fun j taken => ?_, fun j dx here => ?_, fun j w here => ?_⟩,
      fun src_lt _ m' i' user => ?_, fun _ => ?_, fun _ => ?_⟩
    · simp only
      omega
    · simp only
      omega
    · rw [← keep1 j taken]
      exact keep2 j (by rwa [keep1 j taken])
    · exact ⟨dx, by rw [vars]; exact here, rfl⟩
    · rw [shadows]
      exact here
    · cases user
      simp only
      refine ⟨⟨by omega, by omega, fun neg => ?_⟩, by omega, by omega, record2⟩
      rw [keep2 _ (by rw [record1 neg]; omega), record1 neg]
    · simp only
      omega
    · simp only
      omega

/-- A new edge list of a model, after its map was checked. -/
theorem Inv.set_model {mi : Nat} {dm dm' : DefModel} {map : ExtMap} {src dst : Nat} (inv : D.Inv)
    (here : D.models[mi]? = some dm) (checked : Checked D D' map src dst) (grows : Grows D' D'')
    (models : D''.models = D'.models.set mi dm') (limits : D''.maxg = D'.maxg ∧ D''.maxkmap = D'.maxkmap ∧
      D''.minimap = D'.minimap) (groups : D''.vars.map DefVar.group = D'.vars.map DefVar.group)
    (shadows : D''.shadows = D'.shadows) (group : dm'.group = dm.group) (ok : D''.ModelOk dm') : D''.Inv := by
  have all : Grows D D'' := by
    have first := checked.grows
    refine ⟨le_trans first.maxkmap grows.maxkmap, le_trans grows.minimap first.minimap, fun m taken => ?_,
      fun j dx at' => ?_, fun j w at' => grows.shadows j w (first.shadows j w at')⟩
    · rw [← first.assoc m taken]
      exact grows.assoc m (by rwa [first.assoc m taken])
    · obtain ⟨dx', at', same⟩ := first.vars j dx at'
      obtain ⟨dx'', at'', same'⟩ := grows.vars j dx' at'
      exact ⟨dx'', at'', same'.trans same⟩
  obtain ⟨maxg, maxkmap, minimap⟩ := limits
  have old (dn : DefModel) (mem : dn ∈ D''.models) : dn = dm' ∨ dn ∈ D.models := by
    rw [models, checked.models] at mem
    exact (List.mem_or_eq_of_mem_set mem).symm
  have dm_mem : dm ∈ D.models := List.mem_of_getElem? here
  refine ⟨?_, ?_, ?_, ⟨?_, ?_⟩, fun dn mem => ?_, fun dx mem => ?_, fun w mem => ?_, fun dn mem => ?_⟩
  · rw [maxg, checked.maxg]
    exact inv.maxg
  · exact le_trans inv.maxkmap all.maxkmap
  · rw [maxg, maxkmap]
    exact checked.limit inv.limit
  · rw [minimap]
    exact checked.minimap inv.minimap.1
  · exact le_trans all.minimap inv.minimap.2
  · rw [maxg, checked.maxg]
    obtain rfl | mem := old dn mem
    · rw [group]
      exact inv.modelGroup dm dm_mem
    · exact inv.modelGroup dn mem
  · rw [maxg, checked.maxg]
    have mem : dx.group ∈ D.vars.map DefVar.group := by
      rw [← checked.vars, ← groups]
      exact List.mem_map_of_mem mem
    obtain ⟨dy, mem_dy, same⟩ := List.mem_map.mp mem
    rw [← same]
    exact inv.varGroup dy mem_dy
  · rw [shadows, checked.shadows] at mem
    have length := congrArg List.length groups
    rw [List.length_map, List.length_map, checked.vars] at length
    rw [length]
    exact inv.shadows w mem
  · obtain rfl | mem := old dn mem
    · exact ok
    · exact (inv.models dn mem).grows inv (inv.modelGroup dn mem) all

/-- What an accepted parameter or return edge leaves. -/
theorem addEdge_some {full : DefModel → DefVar → Bool} {link : DefModel → DefEdge → DefModel} {count : DefVar → DefVar}
    {mi xi : Nat} {map : ExtMap} (ok : D.addEdge full link count mi xi map = some D') :
    ∃ dm dx D1, D.models[mi]? = some dm ∧ D.vars[xi]? = some dx ∧ full dm dx = false ∧
      D.d_checkmap map dm.group dx.group = some D1 ∧
      D' = { D1 with models := D1.models.set mi (link dm ⟨xi, map⟩), vars := D1.vars.set xi (count dx) } := by
  obtain ⟨dm, model, ok⟩ := Option.bind_eq_some_iff.mp ok
  obtain ⟨dx, var, ok⟩ := Option.bind_eq_some_iff.mp ok
  split at ok
  · cases ok
  rename_i room
  obtain ⟨D1, checked, ok⟩ := Option.bind_eq_some_iff.mp ok
  cases ok
  exact ⟨dm, dx, D1, model, var, by simpa using room, checked, rfl⟩

theorem Inv.addEdge {full : DefModel → DefVar → Bool} {link : DefModel → DefEdge → DefModel} {count : DefVar → DefVar}
    {mi xi : Nat} {map : ExtMap} (inv : D.Inv) (ok : D.addEdge full link count mi xi map = some D')
    (group : ∀ dx, (count dx).group = dx.group)
    (linked : ∀ dm e, (link dm e).group = dm.group ∧ (link dm e).shadows = dm.shadows ∧
      ∀ e' ∈ (link dm e).params ++ (link dm e).returns, e' = e ∨ e' ∈ dm.params ++ dm.returns) : D'.Inv := by
  obtain ⟨dm, dx, D1, model, var, -, checked, rfl⟩ := addEdge_some ok
  have checked := d_checkmap_some checked
  obtain ⟨link_group, link_shadows, link_edges⟩ := linked dm ⟨xi, map⟩
  have var1 : D1.vars[xi]? = some dx := by rw [checked.vars]; exact var
  have set_var (j : Nat) (dy : DefVar) (here : D1.vars[j]? = some dy) :
      ∃ dy', (D1.vars.set xi (count dx))[j]? = some dy' ∧ dy'.group = dy.group := by
    rw [List.getElem?_set]
    by_cases same : xi = j
    · subst same
      rw [if_pos rfl, if_pos (List.getElem?_eq_some_iff.mp here).1]
      rw [var1] at here
      cases here
      exact ⟨_, rfl, group dx⟩
    · rw [if_neg same]
      exact ⟨dy, here, rfl⟩
  have dm_le := inv.modelGroup dm (List.mem_of_getElem? model)
  have grows : Grows D1 { D1 with models := D1.models.set mi (link dm ⟨xi, map⟩), vars := D1.vars.set xi (count dx) } :=
    ⟨le_rfl, le_rfl, fun _ _ => rfl, set_var, fun _ _ here => here⟩
  have recorded := checked.recorded (inv.group_lt dm_le) (inv.var_lt var)
  have old : ({ D1 with models := D1.models.set mi (link dm ⟨xi, map⟩), vars := D1.vars.set xi (count dx) } : Def).ModelOk dm := by
    refine (inv.models dm (List.mem_of_getElem? model)).grows inv dm_le ⟨checked.grows.maxkmap, checked.grows.minimap,
      checked.grows.assoc, fun j dy here => ?_, checked.grows.shadows⟩
    exact set_var j dy (by rw [checked.vars]; exact here)
  refine inv.set_model model checked grows rfl ⟨rfl, rfl, rfl⟩ ?_ rfl link_group ⟨fun e mem => ?_, fun e mem => ?_⟩
  · refine List.ext_getElem? fun j => ?_
    simp only [List.getElem?_map, List.getElem?_set]
    by_cases same : xi = j
    · subst same
      rw [if_pos rfl, if_pos (List.getElem?_eq_some_iff.mp var1).1, var1]
      simp only [Option.map_some, group]
    · rw [if_neg same]
  · obtain rfl | mem := link_edges e mem
    · obtain ⟨dx', here', same⟩ := set_var xi dx var1
      refine ⟨dx', here', ?_⟩
      rw [link_group, same]
      exact recorded
    · rw [link_group]
      exact old.edges e mem
  · rw [link_shadows] at mem
    rw [link_group]
    exact old.checks e mem

theorem Inv.check {mi wi : Nat} {map : ExtMap} {penalty : FloatVal} (inv : D.Inv)
    (ok : D.fhk_def_add_check mi wi map penalty = some D') : D'.Inv := by
  obtain ⟨dm, model, ok⟩ := Option.bind_eq_some_iff.mp ok
  obtain ⟨w, shadow, ok⟩ := Option.bind_eq_some_iff.mp ok
  obtain ⟨dx, var, ok⟩ := Option.bind_eq_some_iff.mp ok
  split at ok
  · cases ok
  obtain ⟨D1, checked, ok⟩ := Option.bind_eq_some_iff.mp ok
  cases ok
  have checked := d_checkmap_some checked
  have dm_le := inv.modelGroup dm (List.mem_of_getElem? model)
  have grows : Grows D1 { D1 with models := D1.models.set mi { dm with shadows := dm.shadows ++ [⟨wi, map, penalty⟩] } } :=
    ⟨le_rfl, le_rfl, fun _ _ => rfl, fun _ dy here => ⟨dy, here, rfl⟩, fun _ _ here => here⟩
  have recorded := checked.recorded (inv.group_lt dm_le) (inv.var_lt var)
  have old : ({ D1 with models := D1.models.set mi { dm with shadows := dm.shadows ++ [⟨wi, map, penalty⟩] } } : Def).ModelOk dm :=
    (inv.models dm (List.mem_of_getElem? model)).grows inv dm_le ⟨checked.grows.maxkmap, checked.grows.minimap,
      checked.grows.assoc, checked.grows.vars, checked.grows.shadows⟩
  refine inv.set_model model checked grows rfl ⟨rfl, rfl, rfl⟩ rfl rfl rfl ⟨old.edges, fun e mem => ?_⟩
  obtain mem | mem := List.mem_append.mp mem
  · exact old.checks e mem
  · rw [List.mem_singleton.mp mem]
    exact ⟨w, dx, by simp only [checked.shadows]; exact shadow, by simp only [checked.vars]; exact var, recorded⟩

theorem Inv.add_model {group : Nat} {k c cmin : FloatVal} (inv : D.Inv)
    (ok : D.fhk_def_add_model group k c cmin = some D') : D'.Inv := by
  unfold fhk_def_add_model at ok
  split at ok
  · cases ok
  split at ok
  · cases ok
  rename_i limit
  split at ok
  · cases ok
  cases ok
  unfold G_MAXUMAP at limit
  have limit' := inv.limit
  have maxg := inv.maxg
  have grows : Grows D { D with maxg := max D.maxg group, models := D.models ++ [⟨[], [], [], group, k, c, cmin⟩] } :=
    ⟨le_rfl, le_rfl, fun _ _ => rfl, fun _ dy here => ⟨dy, here, rfl⟩, fun _ _ here => here⟩
  refine ⟨by simp only; omega, inv.maxkmap, by simp only; omega, inv.minimap, fun dm mem => ?_, fun dx mem => ?_,
    inv.shadows, fun dm mem => ?_⟩
  · obtain mem | mem := List.mem_append.mp mem
    · have := inv.modelGroup dm mem
      simp only
      omega
    · rw [List.mem_singleton.mp mem]
      simp only
      omega
  · have := inv.varGroup dx mem
    simp only
    omega
  · obtain mem | mem := List.mem_append.mp mem
    · exact (inv.models dm mem).grows inv (inv.modelGroup dm mem) grows
    · rw [List.mem_singleton.mp mem]
      exact ⟨fun e mem => (by cases mem), fun e mem => by cases mem⟩

theorem Inv.add_var {group : Nat} {size : BitVec 16} {cdiff : FloatVal} (inv : D.Inv)
    (ok : D.fhk_def_add_var group size cdiff = some D') : D'.Inv := by
  unfold fhk_def_add_var at ok
  split at ok
  · cases ok
  split at ok
  · cases ok
  rename_i limit
  split at ok
  · cases ok
  cases ok
  unfold G_MAXUMAP at limit
  have limit' := inv.limit
  have maxg := inv.maxg
  have grows : Grows D { D with maxg := max D.maxg group, vars := D.vars ++ [⟨group, size, 0, 0, cdiff⟩] } := by
    refine ⟨le_rfl, le_rfl, fun _ _ => rfl, fun j dy here => ⟨dy, ?_, rfl⟩, fun _ _ here => here⟩
    rw [List.getElem?_append_left (List.getElem?_eq_some_iff.mp here).1]
    exact here
  refine ⟨by simp only; omega, inv.maxkmap, by simp only; omega, inv.minimap, fun dm mem => ?_, fun dx mem => ?_,
    fun w mem => ?_, fun dm mem => (inv.models dm mem).grows inv (inv.modelGroup dm mem) grows⟩
  · have := inv.modelGroup dm mem
    simp only
    omega
  · obtain mem | mem := List.mem_append.mp mem
    · have := inv.varGroup dx mem
      simp only
      omega
    · rw [List.mem_singleton.mp mem]
      simp only
      omega
  · have := inv.shadows w mem
    simp only [List.length_append]
    omega

theorem Inv.add_shadow {xi : Nat} {guard : BitVec 8} {arg : BitVec 64} (inv : D.Inv) (handle : xi < D.vars.length)
    (ok : D.fhk_def_add_shadow xi guard arg = some D') : D'.Inv := by
  unfold fhk_def_add_shadow at ok
  split at ok
  · cases ok
  split at ok
  · cases ok
  cases ok
  have grows : Grows D { D with shadows := D.shadows ++ [⟨arg, xi, guard⟩] } := by
    refine ⟨le_rfl, le_rfl, fun _ _ => rfl, fun _ dy here => ⟨dy, here, rfl⟩, fun j w here => ?_⟩
    rw [List.getElem?_append_left (List.getElem?_eq_some_iff.mp here).1]
    exact here
  refine ⟨inv.maxg, inv.maxkmap, inv.limit, inv.minimap, inv.modelGroup, inv.varGroup, fun w mem => ?_,
    fun dm mem => (inv.models dm mem).grows inv (inv.modelGroup dm mem) grows⟩
  obtain mem | mem := List.mem_append.mp mem
  · exact inv.shadows w mem
  · rw [List.mem_singleton.mp mem]
    exact handle

theorem create_inv : fhk_create_def.Inv := by
  refine ⟨le_rfl, le_rfl, by decide, by decide, ?_, ?_, ?_, ?_⟩ <;> intro _ mem <;> cases mem

theorem Inv.add (inv : D.Inv) (add : D.Add D') : D'.Inv := by
  cases add with
  | model group k c cmin ok => exact inv.add_model ok
  | var group size cdiff ok => exact inv.add_var ok
  | shadow xi handle guard arg ok => exact inv.add_shadow handle ok
  | param mi xi map ok =>
    refine inv.addEdge ok (fun _ => rfl) fun dm e => ⟨rfl, rfl, fun e' mem => ?_⟩
    simp only [List.mem_append, List.mem_singleton] at mem ⊢
    tauto
  | returns mi xi map ok =>
    refine inv.addEdge ok (fun _ => rfl) fun dm e => ⟨rfl, rfl, fun e' mem => ?_⟩
    simp only [List.mem_append, List.mem_singleton] at mem ⊢
    tauto
  | check mi wi map penalty ok => exact inv.check ok

theorem Defined.inv (defined : D.Defined) : D.Inv := by
  induction defined with
  | refl => exact create_inv
  | tail _ add ih => exact ih.add add

/-! ## Codes -/

theorem int8_eq {x : Int} (low : -128 ≤ x) (high : x ≤ 127) : int8 x = x := by
  rw [int8, BitVec.toInt_ofInt, Int.bmod_def]
  split <;> omega

theorem int8_top : int8 128 = MAP_IDENT := rfl

theorem Inv.ng_eq (inv : D.Inv) : (D.ng : Int) = D.maxg + 1 := by
  have := inv.limit
  have := inv.maxkmap
  have := inv.maxg
  rw [ng, BitVec.toNat_ofInt]
  omega

theorem Inv.nkmap_eq (inv : D.Inv) : (D.nkmap : Int) = D.ng + D.maxkmap + 1 := by
  have := inv.limit
  have := inv.maxkmap
  have := inv.maxg
  have := inv.ng_eq
  rw [nkmap, BitVec.toNat_ofInt]
  omega

theorem Inv.nimap_eq (inv : D.Inv) : (D.nimap : Int) = -D.minimap := by
  obtain ⟨low, high⟩ := inv.minimap
  rw [nimap, BitVec.toNat_ofInt]
  omega

/-- What a code is, before it is narrowed to a byte. -/
def wide (D : Def) : MapKind → Int
  | .ident => MAP_IDENT
  | .space group => group
  | .const k => k + D.ng
  | .nonconst i => i

theorem wide_userKind (D : Def) (m : BitVec 8) : D.wide (userKind m) = D.MAP_UMAP m.toInt := by
  unfold userKind MAP_UMAP
  split
  · rfl
  · rw [wide, Nat.cast_zero, Int.add_zero]

/-- The bounds of a map that is used, and its record. -/
def Bounded (D : Def) (source : Nat) : MapKind → Prop
  | .ident => True
  | .space group => group ≤ D.maxg
  | .const k => 0 ≤ k ∧ k ≤ D.maxkmap
  | .nonconst i => D.minimap ≤ i ∧ i < 0 ∧ D.umap_assoc i = source

theorem bounded_userKind {m : BitVec 8} {source : Nat}
    (recorded : m.toInt ≤ D.maxkmap ∧ D.minimap ≤ m.toInt ∧ (m.toInt < 0 → D.umap_assoc m.toInt = source)) :
    D.Bounded source (userKind m) := by
  obtain ⟨le, ge, assoc⟩ := recorded
  unfold userKind
  split
  · rename_i nonneg
    exact ⟨nonneg, le⟩
  · rename_i neg
    have neg := Int.not_le.mp neg
    exact ⟨ge, neg, assoc neg⟩

/-- The codes of a definition: a map that is used is within bounds, and its code is the wide one as a
byte. -/
theorem Inv.uses (inv : D.Inv) {kind : MapKind} {code : Int} {source : Nat} (uses : D.Uses kind code source) :
    D.Bounded source kind ∧ code = int8 (D.wide kind) := by
  have forward {map : ExtMap} {src dst : Nat} (recorded : D.Recorded map src dst) (le : (dst : Int) ≤ D.maxg) :
      D.Bounded src (map.kind dst) ∧ D.g_extmap dst map = int8 (D.wide (map.kind dst)) := by
    cases map with
    | FHKMAP_IDENT => exact ⟨trivial, rfl⟩
    | FHKMAP_SPACE => exact ⟨le, rfl⟩
    | FHKMAP_USER m i => exact ⟨bounded_userKind (recorded m i rfl).1, by rw [ExtMap.kind, wide_userKind]; rfl⟩
  have backward {map : ExtMap} {src dst : Nat} (recorded : D.Recorded map src dst) (le : (src : Int) ≤ D.maxg) :
      D.Bounded dst (map.kindInverse src) ∧ D.g_extmapi src map = int8 (D.wide (map.kindInverse src)) := by
    cases map with
    | FHKMAP_IDENT => exact ⟨trivial, rfl⟩
    | FHKMAP_SPACE => exact ⟨le, rfl⟩
    | FHKMAP_USER m i => exact ⟨bounded_userKind (recorded m i rfl).2, by rw [ExtMap.kindInverse, wide_userKind]; rfl⟩
  cases uses with
  | edge model edge var =>
    obtain ⟨dx, here, recorded⟩ := (inv.models _ model).edges _ edge
    cases here.symm.trans var
    exact forward recorded (inv.varGroup _ (List.mem_of_getElem? var))
  | inverse model edge var =>
    obtain ⟨dx, here, recorded⟩ := (inv.models _ model).edges _ edge
    cases here.symm.trans var
    exact backward recorded (inv.modelGroup _ model)
  | check model edge shadow var =>
    obtain ⟨w, dx, here_w, here, recorded⟩ := (inv.models _ model).checks _ edge
    cases here_w.symm.trans shadow
    cases here.symm.trans var
    exact forward recorded (inv.varGroup _ (List.mem_of_getElem? var))

/-- A wide code that fits keeps its kind apart from the others. -/
theorem Inv.wide_fits (inv : D.Inv) {kind : MapKind} {source : Nat} (bounded : D.Bounded source kind)
    (fits : (∀ group, kind = .space group → group ≤ 127) ∧ ∀ k, kind = .const k → k + D.ng ≤ 127) :
    int8 (D.wide kind) = D.wide kind ∧ D.Coded kind (D.wide kind) source := by
  have ng_eq := inv.ng_eq
  have nkmap_eq := inv.nkmap_eq
  have nimap_eq := inv.nimap_eq
  obtain ⟨low, -⟩ := inv.minimap
  cases kind with
  | ident => exact ⟨rfl, rfl⟩
  | space group =>
    have le : (group : Int) ≤ D.maxg := bounded
    have := fits.1 group rfl
    exact ⟨int8_eq (by rw [wide]; omega) (by rw [wide]; omega), rfl, by omega⟩
  | const k =>
    obtain ⟨nonneg, le⟩ := bounded
    have := fits.2 k rfl
    exact ⟨int8_eq (by rw [wide]; omega) (by rw [wide]; omega), by rw [wide]; omega, by rw [wide]; omega⟩
  | nonconst i =>
    obtain ⟨ge, neg, assoc⟩ := bounded
    exact ⟨int8_eq (by rw [wide]; omega) (by rw [wide]; omega), by rw [wide]; omega, by rw [wide]; omega, assoc⟩

theorem Inv.wide_injective (inv : D.Inv) {kind kind' : MapKind} {source source' : Nat} (bounded : D.Bounded source kind)
    (bounded' : D.Bounded source' kind') (same : D.wide kind = D.wide kind') : kind = kind' := by
  have ng_eq := inv.ng_eq
  obtain ⟨low, -⟩ := inv.minimap
  have ident : MAP_IDENT = -128 := rfl
  cases kind <;> cases kind' <;> simp only [Bounded] at bounded bounded' <;> simp only [wide] at same
  case ident.ident => rfl
  case space.space => rw [Int.ofNat_inj.mp same]
  case const.const => rw [add_right_cancel same]
  case nonconst.nonconst => rw [same]
  all_goals omega

/-- For every definition that accepted calls reach, the codes are unambiguous exactly where they fit
a signed byte. -/
theorem unambiguous_iff (defined : D.Defined) : D.Unambiguous ↔ D.CodesFit := by
  have inv := defined.inv
  constructor
  · rintro ⟨coded, -⟩ kind code source uses
    obtain ⟨bounded, code_eq⟩ := inv.uses uses
    have coded := coded kind code source uses
    refine ⟨fun group space => ?_, fun k const => ?_⟩
    · subst space
      have le : (group : Int) ≤ D.maxg := bounded
      by_contra large
      have := inv.limit
      have := inv.maxkmap
      obtain rfl : group = 128 := by omega
      rw [code_eq, wide] at coded
      exact absurd coded.1 (by decide)
    · subst const
      obtain ⟨nonneg, le⟩ := bounded
      by_contra large
      have := inv.limit
      have ng_eq := inv.ng_eq
      have top : k + D.ng = 128 := by omega
      rw [code_eq, wide, top, int8_top] at coded
      have := coded.1
      unfold MAP_IDENT at this
      omega
  · intro fits
    refine ⟨fun kind code source uses => ?_, fun kind kind' code source source' uses uses' => ?_⟩
    · obtain ⟨bounded, rfl⟩ := inv.uses uses
      obtain ⟨narrow, coded⟩ := inv.wide_fits bounded (fits _ _ _ uses)
      rwa [narrow]
    · obtain ⟨bounded, code_eq⟩ := inv.uses uses
      obtain ⟨bounded', code_eq'⟩ := inv.uses uses'
      refine inv.wide_injective bounded bounded' ?_
      rw [← (inv.wide_fits bounded (fits _ _ _ uses)).1, ← (inv.wide_fits bounded' (fits _ _ _ uses')).1, ← code_eq,
        ← code_eq']

end Def

namespace UserMap

/-- One model with one parameter, behind the constant user map `k` with the inverse -1. -/
def oneParam (k : BitVec 8) : Def where
  models := [⟨[⟨0, .FHKMAP_USER k 255⟩], [], [], 0, 0, 1, 0⟩]
  vars := [⟨0, 8, 1, 0, 0⟩]
  shadows := []
  maxg := 0
  minimap := -1
  maxkmap := k.toInt
  umap_assoc := Function.update (fun _ => FHK_NGRP) (-1) 0

/-- The definition before the edge is added. -/
def twoNodes : Def :=
  { fhk_create_def with maxg := 0, models := [⟨[], [], [], 0, 0, 1, 0⟩], vars := [⟨0, 8, 0, 0, 0⟩] }

theorem twoNodes_defined : twoNodes.Defined := by
  have model : fhk_create_def.Add { fhk_create_def with maxg := 0, models := [⟨[], [], [], 0, 0, 1, 0⟩] } :=
    .model 0 0 1 0 rfl
  exact (Relation.ReflTransGen.single model).tail (.var 0 8 0 rfl)

theorem oneParam_defined {k : BitVec 8} (ok : twoNodes.fhk_def_add_param 0 0 (.FHKMAP_USER k 255) = some (oneParam k)) :
    (oneParam k).Defined :=
  twoNodes_defined.tail (.param 0 0 _ ok)

theorem unambiguous_iff_five : (oneParam 5).Unambiguous ↔ (oneParam 5).CodesFit :=
  Def.unambiguous_iff (oneParam_defined rfl)

/-- Map 127 next to one group has the code of the identity. -/
theorem not_unambiguous_limit : (oneParam 127).Defined ∧ ¬ (oneParam 127).Unambiguous := by
  refine ⟨oneParam_defined rfl, fun unambiguous => ?_⟩
  have coded := unambiguous.1 _ _ _ (.edge (D := oneParam 127) List.mem_cons_self List.mem_cons_self rfl)
  exact absurd coded.1 (by decide)

end UserMap
end M2.Fhk
