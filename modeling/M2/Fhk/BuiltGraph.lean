import M2.Fhk.PruneLink
import M2.Fhk.Returns

/-!
# Built graphs for the solver

The graph that `fhk_build_graph` leaves in memory is one that the solver can walk. Whatever calls the definition was made
by, its edges lead back and forth, its parameters are split where the solver expects it, a model without a return buffer
writes alone, and its costs are those that the calls have checked. What the calls do not check are the penalties.
-/
namespace M2.Fhk
open M2.Lib

/-- The `float` of a cost. -/
def FloatVal.ofCost : Cost → FloatVal
  | ⊤ => .inf
  | (q : ℚ) => .num q

theorem FloatVal.ofCost_injective {a b : Cost} (same : FloatVal.ofCost a = .ofCost b) : a = b := by
  induction a using WithTop.recTopCoe with
  | top =>
    induction b using WithTop.recTopCoe with
    | top => rfl
    | coe q => cases same
  | coe p =>
    induction b using WithTop.recTopCoe with
    | top => cases same
    | coe q =>
      cases same
      rfl

namespace Build
variable (G : Build) (i : Nat)

@[simp] theorem setVar_self (x : VarNode) : (G.setVar i x).vars i = x := by
  simp only [setVar, Function.update_self]

@[simp] theorem setVar_of_ne {j : Nat} (ne : j ≠ i) (x : VarNode) : (G.setVar i x).vars j = G.vars j := by
  simp only [setVar, Function.update_of_ne ne]

@[simp] theorem setModel_self (m : ModelNode) : (G.setModel i m).models i = m := by
  simp only [setModel, Function.update_self]

@[simp] theorem setModel_of_ne {j : Nat} (ne : j ≠ i) (m : ModelNode) : (G.setModel i m).models j = G.models j := by
  simp only [setModel, Function.update_of_ne ne]

end Build

namespace Def

/-- The graph is what stands in the memory of the builder. -/
structure Shows (D : Def) (B : Build) (G : Graph) : Prop extends D.Stands B G where
  nw : G.nw = D.shadows.length
  checks : ∀ m : Fin G.nm, ((G.models m).shadows.map fun e =>
    (Cell.edge (D.vars.length + e.idx) e.map (if e.computed then W_COMPUTED else 0), FloatVal.ofCost e.penalty)) = B.checks m
  model : ∀ m : Fin G.nm, (G.models m).group = (B.models m).group ∧ (G.models m).p_cparam = (B.models m).p_cparam ∧
    (G.models m).noretbuf = (B.models m).noretbuf
  costs : ∀ m : Fin G.nm, .num (G.models m).k = (B.models m).k ∧ .num (G.models m).c = (B.models m).c ∧
    .ofCost (G.models m).cmin = (B.models m).cmin
  var : ∀ x : Fin G.nv, (G.vars x).group = (B.vars x).group ∧ (G.vars x).size = (B.vars x).size.toNat
  shadow : ∀ w : Fin G.nw, ((G.shadows w).xi : Nat) = (B.shadows w).xi ∧ (G.shadows w).group = (B.shadows w).group

/-- The costs that the calls were given are numbers, and penalties are not negative. -/
structure Costs (D : Def) : Prop where
  model : ∀ dm ∈ D.models, ∃ (k c : ℚ) (cmin : Cost), dm.k = .num k ∧ dm.c = .num c ∧ dm.cmin = .ofCost cmin
  penalty : ∀ dm ∈ D.models, ∀ e ∈ dm.shadows, ∃ p : Cost, e.penalty = .ofCost p ∧ 0 ≤ p

variable {D D' : Def} {B L G : Build}

/-! ## Costs -/

/-- What `fhk_def_add_model` has checked holds of every model later on. -/
theorem Add.checked (add : D.Add D') (before : ∀ dm ∈ D.models, dm.k.lt 0 = false ∧ dm.c.lt 1 = false) :
    ∀ dm ∈ D'.models, dm.k.lt 0 = false ∧ dm.c.lt 1 = false := by
  have edge {full : DefModel → DefVar → Bool} {link : DefModel → DefEdge → DefModel} {count : DefVar → DefVar} {mi xi : Nat}
      {map : ExtMap} (ok : D.addEdge full link count mi xi map = some D')
      (kept : ∀ dm e, (link dm e).k = dm.k ∧ (link dm e).c = dm.c) : ∀ dm ∈ D'.models, dm.k.lt 0 = false ∧ dm.c.lt 1 = false := by
    obtain ⟨dm, dx, D1, model, -, -, checked, rfl⟩ := addEdge_some ok
    intro dn mem
    rw [(d_checkmap_some checked).models] at mem
    obtain mem | rfl := List.mem_or_eq_of_mem_set mem
    · exact before dn mem
    · rw [(kept dm _).1, (kept dm _).2]
      exact before dm (List.mem_of_getElem? model)
  cases add with
  | model group k c cmin ok =>
    unfold fhk_def_add_model at ok
    split at ok
    · cases ok
    split at ok
    · cases ok
    split at ok
    · cases ok
    rename_i costs
    cases ok
    intro dm mem
    obtain mem | mem := List.mem_append.mp mem
    · exact before dm mem
    · rw [List.mem_singleton.mp mem]
      simpa using costs
  | var group size cdiff ok =>
    unfold fhk_def_add_var at ok
    split at ok
    · cases ok
    split at ok
    · cases ok
    split at ok
    · cases ok
    cases ok
    exact before
  | shadow xi handle guard arg ok =>
    unfold fhk_def_add_shadow at ok
    split at ok
    · cases ok
    split at ok
    · cases ok
    cases ok
    exact before
  | param mi xi map ok =>
    rw [fhk_def_add_param] at ok
    exact edge ok fun _ _ => ⟨rfl, rfl⟩
  | returns mi xi map ok =>
    rw [fhk_def_add_return] at ok
    exact edge ok fun _ _ => ⟨rfl, rfl⟩
  | check mi wi map penalty ok =>
    obtain ⟨dm, model, ok⟩ := Option.bind_eq_some_iff.mp ok
    obtain ⟨w, shadow, ok⟩ := Option.bind_eq_some_iff.mp ok
    obtain ⟨dx, var, ok⟩ := Option.bind_eq_some_iff.mp ok
    split at ok
    · cases ok
    obtain ⟨D1, checked, ok⟩ := Option.bind_eq_some_iff.mp ok
    cases ok
    intro dn mem
    rw [(d_checkmap_some checked).models] at mem
    obtain mem | rfl := List.mem_or_eq_of_mem_set mem
    · exact before dn mem
    · exact before dm (List.mem_of_getElem? model)

theorem Defined.checked (defined : D.Defined) : ∀ dm ∈ D.models, dm.k.lt 0 = false ∧ dm.c.lt 1 = false := by
  induction defined with
  | refl => exact fun dm mem => absurd mem List.not_mem_nil
  | tail _ add ih => exact add.checked ih

/-! ## Nodes -/

/-- The fields of the nodes that are copied from the definition are the same. -/
structure SameNodes (B G : Build) : Prop where
  shadows : G.shadows = B.shadows
  models : ∀ i, (G.models i).group = (B.models i).group ∧ (G.models i).k = (B.models i).k ∧ (G.models i).c = (B.models i).c ∧
    (G.models i).cmin = (B.models i).cmin
  vars : ∀ x, (G.vars x).group = (B.vars x).group ∧ (G.vars x).size = (B.vars x).size

theorem SameNodes.refl (B : Build) : SameNodes B B := ⟨rfl, fun _ => ⟨rfl, rfl, rfl, rfl⟩, fun _ => ⟨rfl, rfl⟩⟩

theorem SameNodes.trans (first : SameNodes B L) (second : SameNodes L G) : SameNodes B G := by
  constructor
  · exact second.shadows.trans first.shadows
  · intro i
    obtain ⟨group, k, c, cmin⟩ := first.models i
    obtain ⟨group', k', c', cmin'⟩ := second.models i
    exact ⟨group'.trans group, k'.trans k, c'.trans c, cmin'.trans cmin⟩
  · intro x
    exact ⟨(second.vars x).1.trans (first.vars x).1, (second.vars x).2.trans (first.vars x).2⟩

theorem SameNodes.store (same : SameNodes B G) (a : Nat) (f : Cell → Cell) : SameNodes B (G.store a f) :=
  ⟨same.shadows, same.models, same.vars⟩

theorem SameNodes.setVar (same : SameNodes B G) (i : Nat) {x : VarNode} (group : x.group = (G.vars i).group)
    (size : x.size = (G.vars i).size) : SameNodes B (G.setVar i x) := by
  constructor
  · exact same.shadows
  · exact same.models
  · intro j
    by_cases here : j = i
    · subst here
      rw [Build.setVar_self, group, size]
      exact same.vars j
    · rw [Build.setVar_of_ne G i here]
      exact same.vars j

theorem SameNodes.setModel (same : SameNodes B G) (i : Nat) {m : ModelNode} (group : m.group = (G.models i).group)
    (k : m.k = (G.models i).k) (c : m.c = (G.models i).c) (cmin : m.cmin = (G.models i).cmin) :
    SameNodes B (G.setModel i m) := by
  constructor
  · exact same.shadows
  · intro j
    by_cases here : j = i
    · subst here
      rw [Build.setModel_self, group, k, c, cmin]
      exact same.models j
    · rw [Build.setModel_of_ne G i here]
      exact same.models j
  · exact same.vars

/-- A loop whose body keeps the nodes keeps them. -/
theorem SameNodes.foldl {σ α : Type} {s : σ} (build : σ → Build) (same : SameNodes B (build s)) (body : σ → α → σ)
    (l : List α) (keeps : ∀ s a, SameNodes B (build s) → SameNodes B (build (body s a))) : SameNodes B (build (l.foldl body s)) := by
  induction l generalizing s with
  | nil => exact same
  | cons a l ih => exact ih (keeps s a same)

theorem SameNodes.scratchVar {st : Build × Nat} (same : SameNodes B st.1) (i : Nat) : SameNodes B (Def.scratchVar st i).1 :=
  same.setVar i rfl rfl

theorem SameNodes.scratchModel (same : SameNodes B G) (i : Nat) : SameNodes B (D.scratchModel G i) := by
  have fwds : SameNodes B ((D.model i).params.foldl (scratchFwd i) G) :=
    same.foldl id (scratchFwd i) _ fun G e kept => (kept.store _ _).setVar _ rfl rfl
  exact fwds.foldl id (scratchMod i) _ fun G e kept => (kept.store _ _).setVar _ rfl rfl

theorem SameNodes.assignParams {st : Build × Nat} (same : SameNodes B st.1) (i : Nat) :
    SameNodes B (Def.assignParams st i).1 := by
  unfold Def.assignParams
  simp only
  split
  · exact same.setModel i rfl rfl rfl rfl
  · exact same

theorem SameNodes.assignReturns {st : Build × Nat} (same : SameNodes B st.1) (i : Nat) :
    SameNodes B (Def.assignReturns st i).1 := by
  unfold Def.assignReturns
  simp only
  split
  · exact same.setModel i rfl rfl rfl rfl
  · exact same

theorem SameNodes.assignModels {st : Build × Nat} (same : SameNodes B st.1) (i : Nat) :
    SameNodes B (Def.assignModels st i).1 := by
  have placed := same.setVar i (x := { st.1.vars i with models := st.2 }) rfl rfl
  have models := placed.foldl Prod.fst
    (fun st' j => Def.assignParams st' (Build.modelOf (st'.1.load ((st.1.vars i).models + j * 4)).idx))
    (List.range (st.1.vars i).n_mod) (s := (_, st.2 + (st.1.vars i).n_mod * 4)) fun st' j kept => kept.assignParams _
  exact models.setVar i rfl rfl

theorem SameNodes.assignFwds {st : Build × Nat} (same : SameNodes B st.1) (i : Nat) :
    SameNodes B (Def.assignFwds st i).1 := by
  have placed := same.setVar i (x := { st.1.vars i with fwds := st.2 }) rfl rfl
  have returns := placed.foldl Prod.fst
    (fun st' j => Def.assignReturns st' (Build.modelOf (st'.1.load ((st.1.vars i).fwds + j * 4)).idx))
    (List.range (st.1.vars i).n_fwd) (s := (_, st.2 + (st.1.vars i).n_fwd * 4)) fun st' j kept => kept.assignReturns _
  exact returns.setVar i rfl rfl

theorem SameNodes.buildModel (same : SameNodes B G) (i : Nat) : SameNodes B (D.buildModel G i) := by
  have checks := same.foldl Prod.fst (D.buildCheck i) (D.model i).shadows (s := (G, 0))
    fun st e kept => ⟨kept.shadows, kept.models, kept.vars⟩
  have params := checks.foldl Prod.fst (D.buildParam i) (D.model i).params.zipIdx
    (s := (_, 0, ((((D.model i).shadows.foldl (D.buildCheck i) (G, 0)).1).models i).p_cparam))
    fun st e kept => ((kept.store _ _).store _ _).setVar _ rfl rfl
  exact params.foldl id (D.buildReturn i) (D.model i).returns.zipIdx
    fun G e kept => ((kept.store _ _).store _ _).setVar _ rfl rfl

theorem SameNodes.g_build_edges (same : SameNodes B G) (p : Nat) : SameNodes B (D.g_build_edges G p).1 := by
  have vars := same.foldl Prod.fst Def.scratchVar (List.range D.vars.length) (s := (G, p)) fun st i kept => kept.scratchVar i
  have scratch := vars.foldl id D.scratchModel (List.range D.models.length) fun G i kept => kept.scratchModel i
  have counted := scratch.foldl id D.countModel (List.range D.models.length) fun G i kept => kept.setModel i rfl rfl rfl rfl
  have models := counted.foldl Prod.fst Def.assignModels (List.range D.vars.length) (s := (_, p))
    fun st i kept => kept.assignModels i
  have fwds := models.foldl Prod.fst Def.assignFwds (List.range D.vars.length) fun st i kept => kept.assignFwds i
  have rest := fwds.foldl Prod.fst Def.assignRest (List.range D.models.length)
    fun st i kept => (kept.assignParams i).assignReturns i
  exact rest.foldl id D.buildModel (List.range D.models.length) fun G i kept => kept.buildModel i

/-- The nodes of the built graph are those of the definition. -/
theorem SameNodes.fhk_build_graph (D : Def) (mem : Nat → Cell) (base : Nat) :
    SameNodes (D.g_copy_nodes mem) (D.fhk_build_graph mem base).1 := by
  have edges := (SameNodes.refl (D.g_copy_nodes mem)).g_build_edges (D := D) (base + D.nodeBytes)
  have reordered := edges.foldl id D.reorderModel (List.range D.models.length)
    fun G i kept => ⟨kept.shadows, kept.models, kept.vars⟩
  exact reordered.foldl id D.flagModel (List.range D.models.length) fun G i kept => kept.setModel i rfl rfl rfl rfl

/-! ## Flags -/

theorem SameArrays.trans (first : SameArrays B L) (second : SameArrays L G) : SameArrays B G :=
  ⟨second.mem.trans first.mem, second.vars.trans first.vars, second.shadows.trans first.shadows, fun i => by
    rw [second.models i, first.models i]⟩

theorem flagModel_arrays (D : Def) (G : Build) (i : Nat) : SameArrays G (D.flagModel G i) := by
  refine ⟨rfl, rfl, rfl, fun j => ?_⟩
  by_cases same : j = i
  · subst same
    rw [flagModel, Build.setModel_self]
  · rw [flagModel, Build.setModel_of_ne _ i same]

theorem SameArrays.g_mretbuf (same : SameArrays B G) (i : Nat) : D.g_mretbuf G i = D.g_mretbuf B i := by
  rw [Def.g_mretbuf, Def.g_mretbuf, (same.arrays i).2.1, same.vars]

/-- After the loop of `g_mflags`, each flag is what `g_mretbuf` says of the graph. -/
theorem flags (D : Def) (G : Build) : ∀ i < D.models.length,
    (((List.range D.models.length).foldl D.flagModel G).models i).noretbuf =
      !D.g_mretbuf ((List.range D.models.length).foldl D.flagModel G) i := by
  have loop := Run.foldl_range (fun t G' => SameArrays G G' ∧ ∀ i < t, (G'.models i).noretbuf = !D.g_mretbuf G i) D.flagModel
    (n := D.models.length) (s := G) ⟨⟨rfl, rfl, rfl, fun _ => rfl⟩, fun i lt => absurd lt (Nat.not_lt_zero i)⟩
    fun i _ G' before => by
      refine ⟨before.1.trans (flagModel_arrays D G' i), fun j lt => ?_⟩
      by_cases same : j = i
      · subst same
        rw [flagModel, Build.setModel_self, before.1.g_mretbuf]
      · rw [flagModel, Build.setModel_of_ne _ i same]
        exact before.2 j (by omega)
  intro i lt
  rw [loop.2 i lt, loop.1.g_mretbuf]

/-! ## Contents -/

/-- What stands in the memory of the builder in the end. -/
theorem built (defined : D.Defined) (mem : Nat → Cell) {base : Nat} (aligned : base % 8 = 0) :
    ∃ start, D.Contents (D.fhk_build_graph mem base).1 start ∧
      D.Faithful (D.fhk_build_graph mem base).1 base (D.fhk_build_graph mem base).2 ∧
      ∀ i < D.models.length, ((D.fhk_build_graph mem base).1.models i).noretbuf =
        !D.g_mretbuf (D.fhk_build_graph mem base).1 i := by
  have inv := defined.inv
  have counted := defined.counted
  have first : (base + D.nodeBytes) % 4 = 0 := by
    unfold nodeBytes
    omega
  have pos : 0 < base + D.nodeBytes := by
    unfold nodeBytes
    omega
  obtain ⟨L, p, laid, stop, filled⟩ := g_build_edges_filled counted inv mem first pos
  obtain ⟨total, start, starts, apart⟩ := laid.tiles
  have graph : D.fhk_build_graph mem base = ((List.range D.models.length).foldl D.flagModel
      ((List.range D.models.length).foldl D.reorderModel (D.g_build_edges (D.g_copy_nodes mem) (base + D.nodeBytes)).1),
      p + (-D.minimap).toNat) := by
    rw [Def.fhk_build_graph, ← stop]
  generalize (D.g_build_edges (D.g_copy_nodes mem) (base + D.nodeBytes)).1 = F at filled graph
  have bw (i : Nat) (lt : i < D.models.length) : D.Bw F i (start (.bw i)) := by
    obtain ⟨-, p_shadow, p_cparam, p_param, -⟩ := laid.nodes i lt
    obtain ⟨placed, -, -, align⟩ := starts (.bw i) lt
    rw [← filled.models] at p_shadow p_cparam p_param
    refine ⟨?_, align first, p_shadow, ?_, p_param⟩
    · rw [filled.models]
      exact placed
    · rw [p_cparam]
      exact List.length_filter_le _ _
  have reorder := reordered bw fun i lt j lt' ne a here there => by
    have before := apart (.bw i) (.bw j) lt lt' fun same => ne (EdgeArray.bw.inj same)
    simp only [InBw] at here there
    omega
  have contents := (reorder.contents laid filled (fun k array => ⟨(starts k array).1, (starts k array).2.2.2 first⟩)
    apart).flagged (flagged D _)
  rw [graph]
  exact ⟨start, contents, contents.faithful inv counted total (fun k array => ⟨(starts k array).2.1, (starts k array).2.2.1⟩) apart,
    flags D _⟩

/-! ## What is shown -/

section Shown
variable {H : Graph} {start : EdgeArray → Nat}

theorem Stands.model_lt (stands : D.Stands B H) (m : Fin H.nm) : m.val < D.models.length := stands.nm ▸ m.isLt

theorem Stands.var_lt (stands : D.Stands B H) (x : Fin H.nv) : x.val < D.vars.length := stands.nv ▸ x.isLt

/-- The return edges, one by one. -/
theorem Stands.returns_at (stands : D.Stands B H) (contents : D.Contents B start) (m : Fin H.nm) (k : Nat) :
    ((H.models m).returns[k]?.map fun e => Cell.edge e.idx e.map e.ex) = (D.model m).returns[k]?.map fun d => D.edge d k := by
  have here := congrArg (·[k]?) ((stands.returns m).trans (contents.returns m (stands.model_lt m)))
  simp only [List.getElem?_map, List.getElem?_zipIdx, Option.map_map, Function.comp_def, Nat.zero_add] at here
  exact here

/-- The backward edges of a variable. -/
theorem Stands.mem_models (stands : D.Stands B H) (contents : D.Contents B start) (x : Fin H.nv) (m : Fin H.nm) (k : Nat) :
    (∃ e ∈ (H.vars x).models, e.idx = m ∧ e.ex = k) ↔ ∃ d, (D.model m).returns[k]? = some d ∧ d.idx = x.val := by
  have cells : (∃ e ∈ (H.vars x).models, e.idx = m ∧ e.ex = k) ↔ ∃ c ∈ D.modEdges x, c.idx = ~~~(m : Int) ∧ c.ex = k := by
    rw [← contents.varModels x (stands.var_lt x), ← stands.varModels x]
    simp only [List.mem_map, exists_exists_and_eq_and, Cell.idx, Cell.ex, complement_inj, Fin.val_inj]
  rw [cells]
  simp only [modEdges, List.mem_flatMap, List.mem_map, List.mem_filter, List.mem_range, decide_eq_true_eq]
  constructor
  · rintro ⟨c, ⟨i, lt, w, ⟨mem, same⟩, rfl⟩, idx, rfl⟩
    obtain rfl := complement_inj.mp idx
    exact ⟨w.1, List.mem_zipIdx_iff_getElem?.mp mem, same⟩
  · rintro ⟨d, here, same⟩
    exact ⟨_, ⟨m, stands.model_lt m, (d, k), ⟨List.mem_zipIdx_iff_getElem?.mpr here, same⟩, rfl⟩, rfl, rfl⟩

theorem Stands.length_models (stands : D.Stands B H) (contents : D.Contents B start) (x : Fin H.nv) :
    (H.vars x).models.length = D.returnVars.count x.val := by
  rw [← length_modEdges, ← contents.varModels x (stands.var_lt x), ← stands.varModels x, List.length_map]

/-- A variable is given where no return names it. -/
theorem Stands.given_iff (stands : D.Stands B H) (contents : D.Contents B start) (counted : D.Counted) (x : Fin H.nv) :
    H.given x = true ↔ (D.var x).n_mod = 0 := by
  rw [Graph.given, List.isEmpty_iff, ← List.length_eq_zero_iff, stands.length_models contents x,
    (counted.var (stands.var_lt x)).n_mod]

/-- The parameters behind the split are given. -/
theorem Shows.gparams (shows : D.Shows B H) (contents : D.Contents B start) (counted : D.Counted) (m : Fin H.nm) :
    ∀ e ∈ (H.models m).gparams, H.given e.idx = true := by
  intro e mem
  have lt := shows.model_lt m
  have cells : ((H.models m).gparams.map fun e => Cell.edge e.idx e.map e.ex) = D.givenEdges m := by
    rw [Model.gparams, List.map_drop, shows.params m, contents.params m lt, (shows.model m).2.1, contents.p_cparam m lt,
      ← (exchangeSort_perm D.later (D.computedEdges m)).length_eq, List.drop_left]
  have cell : Cell.edge e.idx e.map e.ex ∈ D.givenEdges m := cells ▸ List.mem_map_of_mem mem
  obtain ⟨w, kept, same⟩ := List.mem_map.mp cell
  have uncomputed : (D.var w.1.idx).n_mod = 0 := by simpa using (List.mem_filter.mp kept).2
  obtain ⟨idx, -, -⟩ := Cell.edge.inj same
  rw [shows.given_iff contents counted, ← Int.ofNat_inj.mp idx]
  exact uncomputed

/-- A model code is a byte. -/
theorem g_extmap_range (group : Nat) (map : ExtMap) : -128 ≤ D.g_extmap group map ∧ D.g_extmap group map ≤ 127 := by
  have byte (x : Int) : -128 ≤ int8 x ∧ int8 x ≤ 127 := by
    rw [int8, BitVec.toInt_ofInt, Int.bmod_def]
    split <;> omega
  cases map with
  | FHKMAP_IDENT => exact (by decide : -128 ≤ MAP_IDENT ∧ MAP_IDENT ≤ 127)
  | FHKMAP_SPACE => exact byte _
  | FHKMAP_USER map inverse => exact byte _

/-- What the flag of a model promises. -/
theorem Shows.direct (shows : D.Shows B H) (contents : D.Contents B start) (inv : D.Inv) (m : Fin H.nm)
    (unbuffered : D.g_mretbuf B m = false) : (∃ r : Edge H.nv, (H.models m).returns = [r] ∧ r.map = MAP_IDENT) ∨
      ∀ r ∈ (H.models m).returns, (H.vars r.idx).models.length = 1 ∧ (r.map = MAP_IDENT ∨ 0 ≤ r.map ∧ r.map < H.ng) := by
  rw [g_mretbuf, ← shows.returns m, List.map_map] at unbuffered
  split at unbuffered
  · rename_i alone
    left
    obtain ⟨r, only, map⟩ := List.map_eq_singleton_iff.mp alone
    exact ⟨r, only, map⟩
  · right
    intro r mem
    have each := List.any_eq_false.mp unbuffered _ (List.mem_map_of_mem mem)
    simp only [Cell.idx, Cell.map, Int.toNat_natCast, contents.n_mod, ← shows.length_models contents] at each
    have code : ∃ d : DefEdge, r.map = D.g_extmap (D.var d.idx).group d.map := by
      obtain ⟨k, lt, rfl⟩ := List.getElem_of_mem mem
      have here := shows.returns_at contents m k
      rw [List.getElem?_eq_getElem lt, Option.map_some] at here
      obtain ⟨d, -, same⟩ := Option.map_eq_some_iff.mp here.symm
      exact ⟨d, (congrArg Cell.map same).symm⟩
    obtain ⟨d, code⟩ := code
    have range := g_extmap_range (D := D) (D.var d.idx).group d.map
    rw [← code] at range
    have limit := inv.limit
    have maxkmap := inv.maxkmap
    have ng_eq := inv.ng_eq
    have byte : ((BitVec.ofInt 8 r.map).toNat : Int) = r.map % 256 := by
      rw [BitVec.toNat_ofInt]
      omega
    rw [shows.ng]
    simp only [ne_eq, Bool.or_eq_true, decide_eq_true_eq, Bool.and_eq_true, not_or, not_not, not_and] at each
    obtain ⟨one, fits⟩ := each
    constructor
    · exact one
    · by_cases ident : r.map = MAP_IDENT
      · exact .inl ident
      · right
        have small : (BitVec.ofInt 8 r.map).toNat < D.ng := by simpa using fits (decide_eq_true ident)
        rw [MAP_IDENT] at ident
        omega

/-- A built graph is wired. -/
theorem Shows.wired (shows : D.Shows B H) (contents : D.Contents B start) (inv : D.Inv) (counted : D.Counted)
    (flags : ∀ i < D.models.length, (B.models i).noretbuf = !D.g_mretbuf B i) : H.Wired := by
  -- a return edge and the definition's edge at the same place name the same variable
  have named {m : Fin H.nm} {k : Nat} {d : DefEdge} {r : Edge H.nv} (here : (H.models m).returns[k]? = some r)
      (there : (D.model m).returns[k]? = some d) : r.idx.val = d.idx := by
    have same := shows.returns_at contents m k
    rw [here, there, Option.map_some, Option.map_some, Option.some.injEq] at same
    obtain ⟨idx, -, -⟩ := Cell.edge.inj same
    exact Int.ofNat_inj.mp idx
  constructor
  · intro x ei e here
    obtain ⟨d, there, idx⟩ := (shows.mem_models contents x e.idx e.ex).mp ⟨e, List.mem_of_getElem? here, rfl, rfl⟩
    have cell := shows.returns_at contents e.idx e.ex
    rw [there, Option.map_some] at cell
    obtain ⟨r, back, -⟩ := Option.map_eq_some_iff.mp cell
    exact ⟨r, back, Fin.ext ((named back there).trans idx)⟩
  · intro m k r here
    have cell := shows.returns_at contents m k
    rw [here, Option.map_some] at cell
    obtain ⟨d, there, -⟩ := Option.map_eq_some_iff.mp cell.symm
    exact (shows.mem_models contents r.idx m k).mpr ⟨d, there, (named here there).symm⟩
  · exact shows.gparams contents counted
  · intro m noretbuf
    apply shows.direct contents inv m
    rw [(shows.model m).2.2, flags m (shows.model_lt m)] at noretbuf
    simpa using noretbuf

/-- The built graph passes the solver's checks where penalties are not negative. -/
theorem Shows.valid (shows : D.Shows B H) (contents : D.Contents B start) (defined : D.Defined) (costs : D.Costs)
    {mem : Nat → Cell} (nodes : SameNodes (D.g_copy_nodes mem) B) : H.Valid := by
  have counted := defined.counted
  obtain ⟨shadows, models, -⟩ := nodes
  -- a check of the graph is one of the definition
  have check (m : Fin H.nm) (e : ShEdge H.nw) (mem : e ∈ (H.models m).shadows) : ∃ d ∈ (D.model m).shadows,
      e.idx.val = d.idx ∧ ((D.var (D.shadow d.idx).xi).n_mod ≠ 0 ↔ e.computed = true) ∧ d.penalty = .ofCost e.penalty := by
    have cells := (shows.checks m).trans (contents.checks m (shows.model_lt m))
    have cell := List.mem_map_of_mem (f := fun e : ShEdge H.nw => (Cell.edge (D.vars.length + e.idx) e.map
      (if e.computed then W_COMPUTED else 0), FloatVal.ofCost e.penalty)) mem
    rw [cells, (exchangeSort_perm _ _).mem_iff, List.mem_reverse] at cell
    obtain ⟨d, there, same⟩ := List.mem_map.mp cell
    obtain ⟨front, penalty⟩ := Prod.mk.inj same
    obtain ⟨idx, -, flag⟩ := Cell.edge.inj front
    refine ⟨d, there, by omega, ?_, penalty⟩
    cases kind : e.computed <;> rw [kind] at flag <;> by_cases none : (D.var (D.shadow d.idx).xi).n_mod = 0 <;>
      simp [none, W_COMPUTED] at flag ⊢
  constructor
  · intro m
    have here := model_mem (shows.model_lt m)
    obtain ⟨k_num, c_num, -⟩ := shows.costs m
    obtain ⟨-, k, c, -⟩ := models m
    obtain ⟨k_low, c_low⟩ := defined.checked _ here
    rw [← (k_num.trans k : FloatVal.num _ = (D.model m).k)] at k_low
    rw [← (c_num.trans c : FloatVal.num _ = (D.model m).c)] at c_low
    refine ⟨?_, ?_, fun e mem => ?_⟩
    · exact not_lt.mp (by simpa [FloatVal.lt] using k_low)
    · exact not_lt.mp (by simpa [FloatVal.lt] using c_low)
    · obtain ⟨d, there, -, -, penalty⟩ := check m e mem
      obtain ⟨p, same, low⟩ := costs.penalty _ here d there
      rw [FloatVal.ofCost_injective (penalty.symm.trans same)]
      exact low
  · intro m e mem
    obtain ⟨d, -, idx, computed, -⟩ := check m e mem
    have xi : ((H.shadows e.idx).xi : Nat) = (D.shadow d.idx).xi := by
      rw [(shows.shadow e.idx).1, shadows, idx]
      rfl
    have given := shows.given_iff contents counted (H.shadows e.idx).xi
    rw [xi] at given
    cases kind : H.given (H.shadows e.idx).xi with
    | true => simpa [given.mp kind] using computed
    | false =>
      rw [kind] at given
      simpa using computed.mp fun none => absurd (given.mpr none) Bool.false_ne_true

end Shown

theorem exists_map {α β : Type*} (f : α → β) {l : List β} (each : ∀ b ∈ l, ∃ a, f a = b) : ∃ l' : List α, l'.map f = l := by
  have range : l ∈ Set.range (List.map f) := by
    rw [Set.range_list_map]
    exact each
  exact range

section Exists
variable {start : EdgeArray → Nat}

/-- The ends of the edges of a model are variables of the definition. -/
theorem exists_edge (inv : D.Inv) {i : Nat} (lt : i < D.models.length) {e : DefEdge}
    (mem : e ∈ (D.model i).params ++ (D.model i).returns) (j : Nat) :
    ∃ e' : Edge D.vars.length, Cell.edge e'.idx e'.map e'.ex = D.edge e j := by
  obtain ⟨dx, here, -⟩ := (inv.models _ (model_mem lt)).edges e mem
  exact ⟨⟨⟨e.idx, (List.getElem?_eq_some_iff.mp here).1⟩, _, j⟩, rfl⟩

theorem exists_params (contents : D.Contents B start) (inv : D.Inv) (m : Fin D.models.length) :
    ∃ l : List (Edge D.vars.length), (l.map fun e => Cell.edge e.idx e.map e.ex) = B.params m := by
  apply exists_map
  intro c mem
  rw [contents.params m m.isLt] at mem
  obtain ⟨e, here, same⟩ := mem_unordered (((exchangeSort_perm _ _).append_right _).mem_iff.mp mem)
  rw [same]
  exact exists_edge inv m.isLt (List.mem_append_left _ (List.mem_of_getElem? here)) _

theorem exists_returns (contents : D.Contents B start) (inv : D.Inv) (m : Fin D.models.length) :
    ∃ l : List (Edge D.vars.length), (l.map fun e => Cell.edge e.idx e.map e.ex) = B.returns m := by
  apply exists_map
  intro c mem
  rw [contents.returns m m.isLt] at mem
  obtain ⟨w, here, rfl⟩ := List.mem_map.mp mem
  have edge := List.mem_of_getElem? (List.mem_zipIdx_iff_getElem?.mp here)
  exact exists_edge inv m.isLt (List.mem_append_right _ edge) _

theorem exists_checks (contents : D.Contents B start) (inv : D.Inv) (costs : D.Costs) (m : Fin D.models.length) :
    ∃ l : List (ShEdge D.shadows.length), (l.map fun e => (Cell.edge (D.vars.length + e.idx) e.map
      (if e.computed then W_COMPUTED else 0), FloatVal.ofCost e.penalty)) = B.checks m := by
  apply exists_map
  intro c mem
  rw [contents.checks m m.isLt, (exchangeSort_perm _ _).mem_iff, List.mem_reverse] at mem
  obtain ⟨e, here, rfl⟩ := List.mem_map.mp mem
  obtain ⟨w, dx, shadow, -⟩ := (inv.models _ (model_mem m.isLt)).checks e here
  obtain ⟨p, penalty, -⟩ := costs.penalty _ (model_mem m.isLt) e here
  refine ⟨⟨⟨e.idx, (List.getElem?_eq_some_iff.mp shadow).1⟩, D.g_extmap (D.var (D.shadow e.idx).xi).group e.map,
    decide ((D.var (D.shadow e.idx).xi).n_mod ≠ 0), p⟩, ?_⟩
  simp only [shedge, penalty, decide_eq_true_eq]

theorem exists_varModels (contents : D.Contents B start) (x : Fin D.vars.length) :
    ∃ l : List (Edge D.models.length), (l.map fun e => Cell.edge (~~~(e.idx : Int)) e.map e.ex) = B.varModels x := by
  apply exists_map
  intro c mem
  rw [contents.varModels x x.isLt] at mem
  obtain ⟨i, lt, mem⟩ := List.mem_flatMap.mp mem
  obtain ⟨w, -, rfl⟩ := List.mem_map.mp mem
  exact ⟨⟨⟨i, List.mem_range.mp lt⟩, _, w.2⟩, rfl⟩

theorem exists_varFwds (contents : D.Contents B start) (x : Fin D.vars.length) : ∃ l : List (Edge D.models.length),
    (l.map fun e => (~~~(e.idx : Int), e.map)) = (B.varFwds x).map fun c => (c.idx, c.map) := by
  apply exists_map
  intro c mem
  rw [contents.varFwds x x.isLt] at mem
  obtain ⟨i, lt, mem⟩ := List.mem_flatMap.mp mem
  obtain ⟨e, -, rfl⟩ := List.mem_map.mp mem
  exact ⟨⟨⟨i, List.mem_range.mp lt⟩, _, 0⟩, rfl⟩

/-- A shadow's variable is one of the definition. -/
theorem shadow_xi_lt (inv : D.Inv) {w : Nat} (lt : w < D.shadows.length) : (D.shadow w).xi < D.vars.length := by
  have mem : D.shadow w ∈ D.shadows := by
    rw [Def.shadow, List.getD_eq_getElem?_getD, List.getElem?_eq_getElem lt]
    exact List.getElem_mem lt
  exact inv.shadows _ mem

/-- There is such a graph. -/
theorem exists_shows (contents : D.Contents B start) (inv : D.Inv) (costs : D.Costs) {mem : Nat → Cell}
    (nodes : SameNodes (D.g_copy_nodes mem) B) : ∃ H : Graph, D.Shows B H := by
  choose params params_eq using exists_params contents inv
  choose returns returns_eq using exists_returns contents inv
  choose checks checks_eq using exists_checks contents inv costs
  choose varModels varModels_eq using exists_varModels contents
  choose varFwds varFwds_eq using exists_varFwds contents
  choose k c cmin k_eq c_eq cmin_eq using fun m : Fin D.models.length => costs.model _ (model_mem m.isLt)
  refine ⟨{ nv := D.vars.length, nm := D.models.length, nw := D.shadows.length, ng := D.ng
            vars := fun x => ⟨varModels x, varFwds x, (B.vars x).group, (B.vars x).size.toNat⟩
            models := fun m => ⟨(B.models m).group, checks m, params m, (B.models m).p_cparam, returns m, (B.models m).noretbuf,
              k m, c m, cmin m⟩
            shadows := fun w => ⟨⟨(D.shadow w).xi, shadow_xi_lt inv w.isLt⟩, (B.shadows w).group⟩ },
    ⟨rfl, rfl, rfl, params_eq, returns_eq, varModels_eq, varFwds_eq⟩, rfl, checks_eq, fun m => ⟨rfl, rfl, rfl⟩, fun m => ?_,
    fun x => ⟨rfl, rfl⟩, fun w => ⟨?_, rfl⟩⟩
  · obtain ⟨-, same_k, same_c, same_cmin⟩ := nodes.models m
    rw [same_k, same_c, same_cmin]
    exact ⟨(k_eq m).symm, (c_eq m).symm, (cmin_eq m).symm⟩
  · rw [nodes.shadows]
    rfl

end Exists

/-- Whatever accepted calls made a definition whose costs are numbers and whose penalties are not negative, what
`fhk_build_graph` leaves in the memory is a graph, and it has all that the solver takes for granted of its graph. Where no
map code is ambiguous, it has what the pruner takes for granted as well. -/
theorem built_graph_solvable (D : Def) (defined : D.Defined) (costs : D.Costs) (mem : Nat → Cell) (base : Nat)
    (aligned : base % 8 = 0) : (∃ H : Graph, D.Shows (D.fhk_build_graph mem base).1 H) ∧
      ∀ H : Graph, D.Shows (D.fhk_build_graph mem base).1 H → H.Wired ∧ H.Valid ∧ H.Ends ∧
        (D.CodesFit → H.Linked ∧ H.Returned) := by
  obtain ⟨start, contents, faithful, flags⟩ := built defined mem aligned
  have nodes := SameNodes.fhk_build_graph D mem base
  constructor
  · exact exists_shows contents defined.inv costs nodes
  · intro H shows
    have wired := shows.wired contents defined.inv defined.counted flags
    have valid := shows.valid contents defined costs nodes
    exact ⟨wired, valid, shows.ends faithful, fun fits => ⟨shows.linked faithful defined.inv fits,
      shows.returned faithful defined.inv fits⟩⟩

end Def

namespace TwoParams

theorem twoParams_costs : twoParams.Costs := by
  constructor
  · intro dm mem
    obtain rfl | mem := List.mem_cons.mp mem
    · exact ⟨1, 1, (0 : ℚ), rfl, rfl, rfl⟩
    · rw [List.mem_singleton.mp mem]
      exact ⟨0, 2, (0 : ℚ), rfl, rfl, rfl⟩
  · intro dm mem e here
    obtain rfl | mem := List.mem_cons.mp mem
    · cases here
    · rw [List.mem_singleton.mp mem] at here
      rw [List.mem_singleton.mp here]
      exact ⟨(5 : ℚ), rfl, by decide⟩

theorem built_graph_solvable_twoParams : ∃ H : Graph, H.nm = 2 ∧ H.Wired ∧ H.Valid := by
  obtain ⟨⟨H, shows⟩, each⟩ :=
    Def.built_graph_solvable twoParams twoParams_defined twoParams_costs (fun _ => .penalty 0) 4096 (by decide)
  obtain ⟨wired, valid, -⟩ := each H shows
  exact ⟨H, shows.nm, wired, valid⟩

end TwoParams
end M2.Fhk
