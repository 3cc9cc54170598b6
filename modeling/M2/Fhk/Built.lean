import M2.Fhk.BuildEdges

/-!
# Built graphs

The graph that `fhk_build_graph` returns, against its definition. Reordering and flags come after the
edges; they move edges only within the computed parameters and the checks of one model.
-/
namespace M2.Fhk
open M2.Lib

namespace Def

/-! ## Reordering -/

theorem storeCells_outside {mem : Nat → Cell} {w a : Nat} {cells : List Cell} (outside : a < w ∨ w + cells.length ≤ a) :
    storeCells mem w cells a = mem a := by
  induction cells generalizing mem w with
  | nil => rfl
  | cons c cells ih =>
    rw [List.length_cons] at outside
    rw [storeCells, ih (by omega), Function.update_of_ne (by omega)]

theorem storeCells_inside {mem : Nat → Cell} {w j : Nat} {c : Cell} {cells : List Cell} (here : cells[j]? = some c) :
    storeCells mem w cells (w + j) = c := by
  induction cells generalizing mem w j with
  | nil => cases here
  | cons c' cells ih =>
    rw [storeCells]
    cases j with
    | zero =>
      cases here
      rw [storeCells_outside (by omega), Nat.add_zero, Function.update_self]
    | succ j =>
      rw [← ih here]
      congr 1
      omega

/-- A list of records of two words. -/
theorem getElem?_pairs {α β : Type*} (f g : α → β) (l : List α) (j : Nat) :
    (l.flatMap fun e => [f e, g e])[j * 2]? = l[j]?.map f ∧ (l.flatMap fun e => [f e, g e])[j * 2 + 1]? = l[j]?.map g := by
  induction l generalizing j with
  | nil => exact ⟨rfl, rfl⟩
  | cons e l ih =>
    cases j with
    | zero => exact ⟨rfl, rfl⟩
    | succ j =>
      rw [Nat.succ_mul]
      exact ih j

variable {D : Def} {G F : Build}

/-- The bounds of the checks and parameters of a model. -/
structure Bw (D : Def) (F : Build) (i s : Nat) : Prop where
  params : (F.models i).params = s + (D.model i).shadows.length * 8
  aligned : s % 4 = 0
  p_shadow : (F.models i).p_shadow = -((D.model i).shadows.length : Int)
  p_cparam : (F.models i).p_cparam ≤ (D.model i).params.length
  p_param : (F.models i).p_param = (D.model i).params.length

/-- A word of the checks and parameters of a model that start at `s`. -/
def InBw (D : Def) (i s a : Nat) : Prop := s ≤ a * 4 ∧ a * 4 + 4 ≤ s + D.bytes (.bw i)

theorem Bw.check_address {i s j : Nat} (bw : D.Bw F i s) :
    ((F.models i).params + ((F.models i).p_shadow + j) * 8 : Int).toNat = s + j * 8 := by
  have := bw.params
  have := bw.p_shadow
  omega

theorem Bw.checks {i s : Nat} (bw : D.Bw F i s) : F.checks i =
    (List.range (D.model i).shadows.length).map fun j => (F.mem (s / 4 + j * 2), (F.mem (s / 4 + j * 2 + 1)).value) := by
  have count : (-(F.models i).p_shadow).toNat = (D.model i).shadows.length := by
    rw [bw.p_shadow]
    omega
  rw [Build.checks, count]
  refine List.map_congr_left fun j _ => ?_
  have aligned := bw.aligned
  have front : (s + j * 8) / 4 = s / 4 + j * 2 := by omega
  have back : (s + j * 8 + 4) / 4 = s / 4 + j * 2 + 1 := by omega
  simp only [bw.check_address, Build.load, front, back]

theorem Bw.params_words {i s : Nat} (bw : D.Bw F i s) : F.params i =
    (List.range (D.model i).params.length).map fun j => F.mem (s / 4 + (D.model i).shadows.length * 2 + j) := by
  rw [Build.params, bw.p_param]
  refine List.map_congr_left fun j _ => ?_
  have params := bw.params
  have aligned := bw.aligned
  have word : (F.models i).params / 4 = s / 4 + (D.model i).shadows.length * 2 := by omega
  rw [Build.load, Build.word_add, word]

/-- Checks and parameters depend on their words alone. -/
theorem Bw.congr {i s : Nat} (bw : D.Bw F i s) (models : G.models i = F.models i)
    (words : ∀ a, D.InBw i s a → G.mem a = F.mem a) : G.params i = F.params i ∧ G.checks i = F.checks i := by
  have bw' : D.Bw G i s := ⟨models ▸ bw.params, bw.aligned, models ▸ bw.p_shadow, models ▸ bw.p_cparam, models ▸ bw.p_param⟩
  have aligned := bw.aligned
  rw [bw.params_words, bw'.params_words, bw.checks, bw'.checks]
  constructor
  · refine List.map_congr_left fun j mem => words _ ?_
    have lt := List.mem_range.mp mem
    simp only [InBw, bytes]
    omega
  · refine List.map_congr_left fun j mem => ?_
    have lt := List.mem_range.mp mem
    rw [words (s / 4 + j * 2) (by simp only [InBw, bytes]; omega),
      words (s / 4 + j * 2 + 1) (by simp only [InBw, bytes]; omega)]

/-- The order of computed parameters. -/
def later (D : Def) (a b : Cell) : Bool := (D.var b.idx.toNat).cdiff.lt (D.var a.idx.toNat).cdiff

/-- The order of checks. -/
def smaller (a b : Cell × FloatVal) : Bool := a.2.lt b.2

theorem later_irrefl (a : Cell) : D.later a a = false := FloatVal.lt_irrefl _

theorem later_trans (a b c : Cell) (ab : D.later a b = true) (bc : D.later b c = true) : D.later a c = true :=
  FloatVal.lt_trans bc ab

theorem smaller_irrefl (a : Cell × FloatVal) : smaller a a = false := FloatVal.lt_irrefl _

theorem smaller_trans (a b c : Cell × FloatVal) (ab : smaller a b = true) (bc : smaller b c = true) :
    smaller a c = true := FloatVal.lt_trans ab bc

/-- What reordering a model does. -/
structure ReorderedModel (D : Def) (G G' : Build) (i s : Nat) : Prop where
  models : G'.models = G.models
  vars : G'.vars = G.vars
  shadows : G'.shadows = G.shadows
  frame : ∀ a, ¬ D.InBw i s a → G'.mem a = G.mem a
  params : G'.params i = exchangeSort D.later ((G.params i).take (G.models i).p_cparam) ++
    (G.params i).drop (G.models i).p_cparam
  checks : G'.checks i = exchangeSort smaller (G.checks i)

theorem reorderModel_spec {i s : Nat} (bw : D.Bw G i s) : D.ReorderedModel G (D.reorderModel G i) i s := by
  have params := bw.params
  have aligned := bw.aligned
  have p_shadow := bw.p_shadow
  have p_cparam := bw.p_cparam
  have word : (G.models i).params / 4 = s / 4 + (D.model i).shadows.length * 2 := by omega
  have first : ((G.models i).params + (G.models i).p_shadow * 8 : Int).toNat / 4 = s / 4 := by omega
  have length : (exchangeSort D.later ((G.params i).take (G.models i).p_cparam)).length = (G.models i).p_cparam := by
    rw [(exchangeSort_perm _ _).length_eq, List.length_take, bw.params_words, List.length_map, List.length_range]
    omega
  -- the checks do not see the new order of the parameters
  let sorted := exchangeSort D.later ((G.params i).take (G.models i).p_cparam)
  let G1 : Build := { G with mem := storeCells G.mem ((G.models i).params / 4) sorted }
  have bw1 : D.Bw G1 i s := ⟨bw.params, bw.aligned, bw.p_shadow, bw.p_cparam, bw.p_param⟩
  have checks1 : G1.checks i = G.checks i := by
    rw [bw1.checks, bw.checks]
    refine List.map_congr_left fun j mem => ?_
    have lt := List.mem_range.mp mem
    simp only [G1, word]
    rw [storeCells_outside (by omega), storeCells_outside (by omega)]
  have words : (D.reorderModel G i).mem = storeCells (storeCells G.mem (s / 4 + (D.model i).shadows.length * 2)
      (exchangeSort D.later ((G.params i).take (G.models i).p_cparam))) (s / 4)
      ((exchangeSort smaller (G.checks i)).flatMap fun e => [e.1, .penalty e.2]) := by
    have unfolded : (D.reorderModel G i).mem = storeCells G1.mem
        (((G.models i).params + (G.models i).p_shadow * 8 : Int).toNat / 4)
        ((exchangeSort smaller (G1.checks i)).flatMap fun e => [e.1, .penalty e.2]) := rfl
    rw [unfolded, checks1, first]
    simp only [G1, sorted, word]
  have count : (exchangeSort smaller (G.checks i)).length = (D.model i).shadows.length := by
    rw [(exchangeSort_perm _ _).length_eq, bw.checks, List.length_map, List.length_range]
  have pairs : ((exchangeSort smaller (G.checks i)).flatMap fun e => [e.1, .penalty e.2]).length =
      (D.model i).shadows.length * 2 := by
    rw [List.length_flatMap]
    simp [count]
  have bw' : D.Bw (D.reorderModel G i) i s := ⟨bw.params, bw.aligned, bw.p_shadow, bw.p_cparam, bw.p_param⟩
  refine ⟨rfl, rfl, rfl, fun a outside => ?_, ?_, ?_⟩
  · simp only [InBw, bytes, not_and_or] at outside
    rw [words, storeCells_outside (by omega), storeCells_outside (by omega)]
  · rw [bw'.params_words, words]
    apply List.ext_getElem
    · rw [List.length_map, List.length_range, List.length_append, length, List.length_drop, bw.params_words, List.length_map,
        List.length_range]
      omega
    · intro j low high
      rw [List.length_map, List.length_range] at low
      rw [List.getElem_map, List.getElem_range, storeCells_outside (by omega)]
      by_cases lt : j < (G.models i).p_cparam
      · rw [storeCells_inside (List.getElem?_eq_getElem (by omega)), List.getElem_append_left (by omega)]
      · have entry (n : Nat) (h : n < (G.params i).length) :
            (G.params i)[n] = G.mem (s / 4 + (D.model i).shadows.length * 2 + n) := by
          simp [bw.params_words]
        rw [storeCells_outside (by omega), List.getElem_append_right (by omega), List.getElem_drop, entry]
        congr 1
        omega
  · rw [bw'.checks, words]
    apply List.ext_getElem
    · rw [List.length_map, List.length_range, count]
    · intro j low high
      rw [List.length_map, List.length_range] at low
      rw [← count] at low
      obtain ⟨front, back⟩ := getElem?_pairs (fun e : Cell × FloatVal => e.1) (fun e => .penalty e.2)
        (exchangeSort smaller (G.checks i)) j
      rw [List.getElem?_eq_getElem low, Option.map_some] at front back
      rw [List.getElem_map, List.getElem_range, storeCells_inside front, Nat.add_assoc, storeCells_inside back]
      rfl

/-- The first `t` models are reordered, and the rest of the memory is as it was. -/
structure Reordered (D : Def) (F : Build) (start : EdgeArray → Nat) (t : Nat) (G : Build) : Prop where
  models : G.models = F.models
  vars : G.vars = F.vars
  shadows : G.shadows = F.shadows
  mem : ∀ a, (∀ i < t, ¬ D.InBw i (start (.bw i)) a) → G.mem a = F.mem a
  params : ∀ i < t, G.params i = exchangeSort D.later ((F.params i).take (F.models i).p_cparam) ++
    (F.params i).drop (F.models i).p_cparam
  checks : ∀ i < t, G.checks i = exchangeSort smaller (F.checks i)

theorem reordered {start : EdgeArray → Nat} (bw : ∀ i < D.models.length, D.Bw F i (start (.bw i)))
    (apart : ∀ i < D.models.length, ∀ j < D.models.length, i ≠ j → ∀ a, D.InBw i (start (.bw i)) a →
      ¬ D.InBw j (start (.bw j)) a) :
    D.Reordered F start D.models.length ((List.range D.models.length).foldl D.reorderModel F) := by
  apply Run.foldl_range (D.Reordered F start)
  · exact ⟨rfl, rfl, rfl, fun _ _ => rfl, fun i lt => absurd lt (Nat.not_lt_zero i), fun i lt => absurd lt (Nat.not_lt_zero i)⟩
  intro i lt G before
  have bounds {j : Nat} (lt : j < D.models.length) : D.Bw G j (start (.bw j)) := by
    obtain ⟨params, aligned, p_shadow, p_cparam, p_param⟩ := bw j lt
    rw [← before.models] at params p_shadow p_cparam p_param
    exact ⟨params, aligned, p_shadow, p_cparam, p_param⟩
  have step := reorderModel_spec (bounds lt)
  obtain ⟨own_params, own_checks⟩ := (bw i lt).congr (congrFun before.models i) fun a inside =>
    before.mem a fun j earlier => apart i lt j (by omega) (by omega) a inside
  have others {j : Nat} (earlier : j < i) := (bounds (by omega : j < D.models.length)).congr
    (congrFun step.models j) fun a inside => step.frame a (apart j (by omega) i lt (by omega) a inside)
  refine ⟨step.models.trans before.models, step.vars.trans before.vars, step.shadows.trans before.shadows,
    fun a outside => ?_, fun j earlier => ?_, fun j earlier => ?_⟩
  · rw [step.frame a (outside i (Nat.lt_succ_self i))]
    exact before.mem a fun j earlier => outside j (by omega)
  · by_cases same : j = i
    · subst same
      rw [step.params, own_params, before.models]
    · rw [(others (by omega)).1]
      exact before.params j (by omega)
  · by_cases same : j = i
    · subst same
      rw [step.checks, own_checks]
    · rw [(others (by omega)).2]
      exact before.checks j (by omega)

/-! ## Flags -/

/-- Graphs that differ in the flags of models only. -/
structure SameArrays (G G' : Build) : Prop where
  mem : G'.mem = G.mem
  vars : G'.vars = G.vars
  shadows : G'.shadows = G.shadows
  models : ∀ i, G'.models i = { G.models i with noretbuf := (G'.models i).noretbuf }

theorem flagged (D : Def) (G : Build) : SameArrays G ((List.range D.models.length).foldl D.flagModel G) := by
  apply Run.foldl_range (fun _ => SameArrays G)
  · exact ⟨rfl, rfl, rfl, fun _ => rfl⟩
  intro i _ G' before
  refine ⟨before.mem, before.vars, before.shadows, fun j => ?_⟩
  by_cases same : j = i
  · subst same
    simp only [flagModel, Build.setModel, Function.update_self]
    rw [before.models j]
  · simp only [flagModel, Build.setModel, Function.update_of_ne same]
    exact before.models j

theorem SameArrays.arrays {G G' : Build} (same : SameArrays G G') (i : Nat) :
    G'.params i = G.params i ∧ G'.returns i = G.returns i ∧ G'.checks i = G.checks i ∧
      G'.varModels i = G.varModels i ∧ G'.varFwds i = G.varFwds i := by
  refine ⟨?_, ?_, ?_, ?_, ?_⟩
  · rw [Build.params, Build.params, same.models i]
    simp only [Build.load, same.mem]
  · rw [Build.returns, Build.returns, same.models i]
    simp only [Build.load, same.mem]
  · rw [Build.checks, Build.checks, same.models i]
    simp only [Build.load, same.mem]
  · simp only [Build.varModels, Build.load, same.mem, same.vars]
  · simp only [Build.varFwds, Build.load, same.mem, same.vars]

/-! ## The graph -/

/-- The arrays of a graph, address and size. -/
def extents (D : Def) (G : Build) : List (Nat × Nat) :=
  ((List.range D.vars.length).flatMap fun x =>
    let v := G.vars x
    [(v.models, v.n_mod * 4), (v.fwds, v.n_fwd * 4)]) ++
  (List.range D.models.length).flatMap fun i =>
    let m := G.models i
    [((m.params + m.p_shadow * 8 : Int).toNat, (-m.p_shadow).toNat * 8), (m.params, m.p_param * 4),
      (m.returns, m.p_return * 4)]

/-- Two arrays that do not overlap. -/
def Disjoint (a b : Nat × Nat) : Prop := a.1 + a.2 ≤ b.1 ∨ b.1 + b.2 ≤ a.1

/-- The built graph is that of the definition. -/
structure Faithful (D : Def) (G : Build) (base stop : Nat) : Prop where
  params : ∀ i < D.models.length, ((G.params i).map Cell.ex).Perm (List.range (D.model i).params.length) ∧
    ∀ c ∈ G.params i, ∃ e, (D.model i).params[c.ex]? = some e ∧ c = D.edge e c.ex
  computed : ∀ i < D.models.length, ∀ j c, (G.params i)[j]? = some c →
    (j < (G.models i).p_cparam ↔ ∃ x ∈ D.returnVars, c.idx = (x : Int))
  ascending : ∀ i < D.models.length, ((G.params i).take (G.models i).p_cparam).Pairwise fun a b => D.later a b = false
  returns : ∀ i < D.models.length, G.returns i = (D.model i).returns.zipIdx.map fun w => D.edge w.1 w.2
  checks : ∀ i < D.models.length, (G.checks i).Perm ((D.model i).shadows.map fun e => (D.shedge e, e.penalty)) ∧
    ∀ e ∈ (D.model i).shadows, (D.shedge e).ex = W_COMPUTED ↔ (D.shadow e.idx).xi ∈ D.returnVars
  nonincreasing : ∀ i < D.models.length, (G.checks i).Pairwise fun a b => smaller a b = false
  varModels : ∀ x < D.vars.length, G.varModels x = D.modEdges x
  varFwds : ∀ x < D.vars.length, (G.varFwds x).map (fun c => (c.idx, c.map)) = D.fwdEdges x
  disjoint : (D.extents G).Pairwise Disjoint
  inside : ∀ a ∈ D.extents G, base + D.nodeBytes ≤ a.1 ∧ a.1 + a.2 + (-D.minimap).toNat ≤ stop
  total : stop = base + D.fhk_graph_size ∧
    D.nodeBytes + ((D.extents G).map Prod.snd).sum + (-D.minimap).toNat = D.fhk_graph_size
  fits : (∀ i < D.models.length, ModelCounted (D.model i)) ∧ (∀ x < D.vars.length, D.VarCounted x (D.var x)) ∧
    D.models.length ≤ G_MAXIDX ∧ D.vars.length + D.shadows.length ≤ G_MAXIDX

theorem g_build_edges_filled (counted : D.Counted) (inv : D.Inv) (mem : Nat → Cell) {p0 : Nat} (first : p0 % 4 = 0)
    (pos : 0 < p0) : ∃ L p, D.Laid p0 L p ∧ (D.g_build_edges (D.g_copy_nodes mem) p0).2 = p ∧
      D.Filled L (D.g_build_edges (D.g_copy_nodes mem) p0).1 := by
  obtain ⟨L, p, laid, run⟩ := laid inv (ready (scratched counted inv mem first)) first pos
  refine ⟨L, p, laid, ?_⟩
  rw [g_build_edges]
  simp only [run, true_and]
  exact filled inv laid first

/-- The edges of a model that the built graph lists before it reorders them. -/
theorem mem_unordered {i : Nat} {c : Cell} (mem : c ∈ D.computedEdges i ++ D.givenEdges i) :
    ∃ e, (D.model i).params[c.ex]? = some e ∧ c = D.edge e c.ex := by
  have entry {w : DefEdge × Nat} (mem : w ∈ (D.model i).params.zipIdx) : (D.model i).params[w.2]? = some w.1 :=
    List.mem_zipIdx_iff_getElem?.mp mem
  obtain mem | mem := List.mem_append.mp mem
  · obtain ⟨w, kept, rfl⟩ := List.mem_map.mp mem
    exact ⟨w.1, entry (List.mem_filter.mp kept).1, rfl⟩
  · obtain ⟨w, kept, rfl⟩ := List.mem_map.mp mem
    exact ⟨w.1, entry (List.mem_filter.mp kept).1, rfl⟩

theorem perm_unordered (i : Nat) :
    ((D.computedEdges i ++ D.givenEdges i).map Cell.ex).Perm (List.range (D.model i).params.length) := by
  have split := List.filter_append_perm (fun w : DefEdge × Nat => decide ((D.var w.1.idx).n_mod ≠ 0))
    (D.model i).params.zipIdx
  have places : (D.model i).params.zipIdx.map Prod.snd = List.range (D.model i).params.length := by
    rw [List.zipIdx_map_snd, List.range_eq_range']
  have computed : (D.computedEdges i).map Cell.ex =
      ((D.model i).params.zipIdx.filter fun w => decide ((D.var w.1.idx).n_mod ≠ 0)).map Prod.snd := by
    rw [computedEdges, List.map_map]
    rfl
  have given : (D.givenEdges i).map Cell.ex =
      ((D.model i).params.zipIdx.filter fun w => !decide ((D.var w.1.idx).n_mod ≠ 0)).map Prod.snd := by
    rw [givenEdges, List.map_map]
    simp only [decide_not]
    rfl
  rw [← places, List.map_append, computed, given, ← List.map_append]
  exact split.map Prod.snd

/-- A variable has models exactly where a return names it. -/
theorem has_models (counted : D.Counted) {x : Nat} (lt : x < D.vars.length) : (D.var x).n_mod ≠ 0 ↔ x ∈ D.returnVars := by
  rw [(counted.var lt).n_mod, ← List.count_pos_iff, Nat.pos_iff_ne_zero]

/-- The arrays of the finished graph and their places. -/
structure Contents (D : Def) (G : Build) (start : EdgeArray → Nat) : Prop where
  starts : ∀ k, D.HasArray k → D.Starts G k (start k)
  p_shadow : ∀ i < D.models.length, (G.models i).p_shadow = -((D.model i).shadows.length : Int)
  p_cparam : ∀ i < D.models.length, (G.models i).p_cparam = (D.computedEdges i).length
  p_param : ∀ i < D.models.length, (G.models i).p_param = (D.model i).params.length
  p_return : ∀ i < D.models.length, (G.models i).p_return = (D.model i).returns.length
  n_mod : ∀ x, (G.vars x).n_mod = D.returnVars.count x
  n_fwd : ∀ x, (G.vars x).n_fwd = D.paramVars.count x
  params : ∀ i < D.models.length, G.params i = exchangeSort D.later (D.computedEdges i) ++ D.givenEdges i
  returns : ∀ i < D.models.length, G.returns i = (D.model i).returns.zipIdx.map fun w => D.edge w.1 w.2
  checks : ∀ i < D.models.length, G.checks i =
    exchangeSort smaller ((D.model i).shadows.map fun e => (D.shedge e, e.penalty)).reverse
  varModels : ∀ x < D.vars.length, G.varModels x = D.modEdges x
  varFwds : ∀ x < D.vars.length, (G.varFwds x).map (fun c => (c.idx, c.map)) = D.fwdEdges x

theorem Reordered.contents {L R : Build} {p0 p : Nat} {start : EdgeArray → Nat} (laid : D.Laid p0 L p) (filled : D.Filled L F)
    (starts : ∀ k, D.HasArray k → D.Starts L k (start k) ∧ start k % 4 = 0)
    (apart : ∀ k k', D.HasArray k → D.HasArray k' → k ≠ k' →
      start k + D.bytes k ≤ start k' ∨ start k' + D.bytes k' ≤ start k)
    (reordered : D.Reordered F start D.models.length R) : D.Contents R start := by
  have models : R.models = L.models := reordered.models.trans filled.models
  have vars (x : Nat) : (R.vars x).models = (L.vars x).models ∧ (R.vars x).fwds = (L.vars x).fwds ∧
      (R.vars x).n_mod = D.returnVars.count x ∧ (R.vars x).n_fwd = D.paramVars.count x := by
    rw [reordered.vars]
    exact filled.vars x
  have cparam (i : Nat) (lt : i < D.models.length) : (L.models i).p_cparam = (D.computedEdges i).length := by
    rw [(laid.nodes i lt).2.2.1, length_computedEdges]
  -- the arrays of variables and the returns lie outside of what is reordered
  have kept {k : EdgeArray} (array : D.HasArray k) (other : ∀ i, k ≠ .bw i) {j : Nat} (inside : j * 4 + 4 ≤ D.bytes k) :
      R.mem ((start k + j * 4) / 4) = F.mem ((start k + j * 4) / 4) := by
    refine reordered.mem _ fun i lt within => ?_
    have aligned := (starts k array).2
    simp only [InBw] at within
    obtain before | behind := apart k (.bw i) array lt (other i) <;> omega
  refine ⟨fun k array => ?_, fun i lt => ?_, fun i lt => ?_, fun i lt => ?_, fun i lt => ?_, fun x => (vars x).2.2.1,
    fun x => (vars x).2.2.2, fun i lt => ?_, fun i lt => ?_, fun i lt => ?_, fun x lt => ?_, fun x lt => ?_⟩
  · have placed := (starts k array).1
    cases k with
    | models x => exact (vars x).1.trans placed
    | fwds x => exact (vars x).2.1.trans placed
    | bw i => simpa only [Starts, models] using placed
    | returns i => simpa only [Starts, models] using placed
  · rw [models]
    exact (laid.nodes i lt).2.1
  · rw [models]
    exact cparam i lt
  · rw [models]
    exact (laid.nodes i lt).2.2.2.1
  · rw [models]
    exact (laid.nodes i lt).2.2.2.2
  · rw [reordered.params i lt, filled.params i lt, filled.models, cparam i lt, List.take_left, List.drop_left]
  · have pointer : (L.models i).returns = start (.returns i) := (starts (.returns i) lt).1
    have count := (laid.nodes i lt).2.2.2.2
    rw [← filled.returns i lt, Build.returns, Build.returns, reordered.models, filled.models, pointer, count]
    refine List.map_congr_left fun j mem => kept (k := .returns i) lt (fun i h => by cases h) ?_
    have lt := List.mem_range.mp mem
    simp only [bytes]
    omega
  · rw [reordered.checks i lt, filled.checks i lt]
  · have pointer : (L.vars x).models = start (.models x) := (starts (.models x) lt).1
    rw [← filled.varModels x, Build.varModels, Build.varModels, (vars x).1, (vars x).2.2.1, (filled.vars x).1,
      (filled.vars x).2.2.1, pointer]
    refine List.map_congr_left fun j mem => kept (k := .models x) lt (fun i h => by cases h) ?_
    have lt := List.mem_range.mp mem
    simp only [bytes]
    omega
  · have pointer : (L.vars x).fwds = start (.fwds x) := (starts (.fwds x) lt).1
    rw [← filled.varFwds x, Build.varFwds, Build.varFwds, (vars x).2.1, (vars x).2.2.2, (filled.vars x).2.1,
      (filled.vars x).2.2.2, pointer]
    congr 1
    refine List.map_congr_left fun j mem => kept (k := .fwds x) lt (fun i h => by cases h) ?_
    have lt := List.mem_range.mp mem
    simp only [bytes]
    omega

theorem Contents.flagged {R : Build} {start : EdgeArray → Nat} (contents : D.Contents R start) (same : SameArrays R G) :
    D.Contents G start := by
  refine ⟨fun k array => ?_, fun i lt => ?_, fun i lt => ?_, fun i lt => ?_, fun i lt => ?_, fun x => ?_, fun x => ?_,
    fun i lt => ?_, fun i lt => ?_, fun i lt => ?_, fun x lt => ?_, fun x lt => ?_⟩
  · have placed := contents.starts k array
    cases k with
    | models x => simpa only [Starts, same.vars] using placed
    | fwds x => simpa only [Starts, same.vars] using placed
    | bw i =>
      rw [Starts, same.models i]
      exact placed
    | returns i =>
      rw [Starts, same.models i]
      exact placed
  · rw [same.models i]
    exact contents.p_shadow i lt
  · rw [same.models i]
    exact contents.p_cparam i lt
  · rw [same.models i]
    exact contents.p_param i lt
  · rw [same.models i]
    exact contents.p_return i lt
  · rw [same.vars]
    exact contents.n_mod x
  · rw [same.vars]
    exact contents.n_fwd x
  · rw [(same.arrays i).1]
    exact contents.params i lt
  · rw [(same.arrays i).2.1]
    exact contents.returns i lt
  · rw [(same.arrays i).2.2.1]
    exact contents.checks i lt
  · rw [(same.arrays x).2.2.2.1]
    exact contents.varModels x lt
  · rw [(same.arrays x).2.2.2.2]
    exact contents.varFwds x lt

/-- An extent within the place of an array. -/
def Within (D : Def) (start : EdgeArray → Nat) (a : Nat × Nat) (k : EdgeArray) : Prop :=
  D.HasArray k ∧ start k ≤ a.1 ∧ a.1 + a.2 ≤ start k + D.bytes k

variable {start : EdgeArray → Nat}

/-- The extents of a finished graph, array by array. -/
theorem Contents.extents_eq (contents : D.Contents G start) : D.extents G =
    ((List.range D.vars.length).flatMap fun x =>
      [(start (.models x), D.bytes (.models x)), (start (.fwds x), D.bytes (.fwds x))]) ++
    (List.range D.models.length).flatMap fun i =>
      [(start (.bw i), (D.model i).shadows.length * 8),
        (start (.bw i) + (D.model i).shadows.length * 8, (D.model i).params.length * 4),
        (start (.returns i), D.bytes (.returns i))] := by
  rw [extents]
  congr 1
  · refine List.flatMap_congr fun x mem => ?_
    have lt := List.mem_range.mp mem
    have models : (G.vars x).models = start (.models x) := contents.starts (.models x) lt
    have fwds : (G.vars x).fwds = start (.fwds x) := contents.starts (.fwds x) lt
    simp only [models, fwds, contents.n_mod, contents.n_fwd, bytes]
  · refine List.flatMap_congr fun i mem => ?_
    have lt := List.mem_range.mp mem
    have params : (G.models i).params = start (.bw i) + (D.model i).shadows.length * 8 := contents.starts (.bw i) lt
    have returns : (G.models i).returns = start (.returns i) := contents.starts (.returns i) lt
    have first : ((start (.bw i) + (D.model i).shadows.length * 8 : Nat) + -((D.model i).shadows.length : Int) * 8).toNat =
        start (.bw i) := by omega
    simp only [params, returns, contents.p_shadow i lt, contents.p_param i lt, contents.p_return i lt, bytes, first,
      neg_neg, Int.toNat_natCast]

theorem pairwise_range {n : Nat} {R : Nat → Nat → Prop} (each : ∀ i < n, ∀ j < n, i ≠ j → R i j) :
    (List.range n).Pairwise R :=
  List.nodup_range.imp_of_mem fun mem mem' ne => each _ (List.mem_range.mp mem) _ (List.mem_range.mp mem') ne

theorem Contents.disjoint (contents : D.Contents G start)
    (apart : ∀ k k', D.HasArray k → D.HasArray k' → k ≠ k' →
      start k + D.bytes k ≤ start k' ∨ start k' + D.bytes k' ≤ start k) : (D.extents G).Pairwise Disjoint := by
  have separate {a b : Nat × Nat} {k k' : EdgeArray} (within : D.Within start a k) (within' : D.Within start b k')
      (ne : k ≠ k') : Disjoint a b := by
    obtain ⟨array, low, high⟩ := within
    obtain ⟨array', low', high'⟩ := within'
    unfold Disjoint
    obtain before | behind := apart k k' array array' ne <;> omega
  have var {x : Nat} (lt : x < D.vars.length) {a : Nat × Nat}
      (mem : a ∈ [(start (.models x), D.bytes (.models x)), (start (.fwds x), D.bytes (.fwds x))]) :
      D.Within start a (.models x) ∨ D.Within start a (.fwds x) := by
    simp only [List.mem_cons, List.not_mem_nil, or_false] at mem
    obtain rfl | rfl := mem
    · exact .inl ⟨lt, Nat.le_refl _, Nat.le_refl _⟩
    · exact .inr ⟨lt, Nat.le_refl _, Nat.le_refl _⟩
  have checks {i : Nat} (lt : i < D.models.length) :
      D.Within start (start (.bw i), (D.model i).shadows.length * 8) (.bw i) :=
    ⟨lt, Nat.le_refl _, by simp only [bytes]; omega⟩
  have params {i : Nat} (lt : i < D.models.length) :
      D.Within start (start (.bw i) + (D.model i).shadows.length * 8, (D.model i).params.length * 4) (.bw i) :=
    ⟨lt, by simp only; omega, by simp only [bytes]; omega⟩
  have returns {i : Nat} (lt : i < D.models.length) :
      D.Within start (start (.returns i), D.bytes (.returns i)) (.returns i) :=
    ⟨lt, Nat.le_refl _, Nat.le_refl _⟩
  have model {i : Nat} (lt : i < D.models.length) {a : Nat × Nat}
      (mem : a ∈ [(start (.bw i), (D.model i).shadows.length * 8),
        (start (.bw i) + (D.model i).shadows.length * 8, (D.model i).params.length * 4),
        (start (.returns i), D.bytes (.returns i))]) :
      D.Within start a (.bw i) ∨ D.Within start a (.returns i) := by
    simp only [List.mem_cons, List.not_mem_nil, or_false] at mem
    obtain rfl | rfl | rfl := mem
    · exact .inl (checks lt)
    · exact .inl (params lt)
    · exact .inr (returns lt)
  rw [contents.extents_eq, List.pairwise_append, List.pairwise_flatMap, List.pairwise_flatMap]
  refine ⟨⟨fun x mem => ?_, pairwise_range fun x lt y lt' ne a mem b mem' => ?_⟩,
    ⟨fun i mem => ?_, pairwise_range fun i lt j lt' ne a mem b mem' => ?_⟩, fun a mem b mem' => ?_⟩
  · have lt := List.mem_range.mp mem
    simp only [List.pairwise_cons, List.mem_singleton, List.not_mem_nil, List.Pairwise.nil, forall_eq]
    refine ⟨?_, fun _ h => h.elim, trivial⟩
    have models : D.Within start (start (.models x), D.bytes (.models x)) (.models x) :=
      ⟨lt, Nat.le_refl _, Nat.le_refl _⟩
    have fwds : D.Within start (start (.fwds x), D.bytes (.fwds x)) (.fwds x) := ⟨lt, Nat.le_refl _, Nat.le_refl _⟩
    exact separate models fwds fun h => by cases h
  · obtain within | within := var lt mem <;> obtain within' | within' := var lt' mem' <;>
      refine separate within within' fun h => ?_ <;> cases h <;> exact ne rfl
  · have lt := List.mem_range.mp mem
    simp only [List.pairwise_cons, List.mem_cons, List.not_mem_nil, or_false, List.Pairwise.nil, forall_eq_or_imp, forall_eq]
    refine ⟨⟨.inl (Nat.le_refl _), ?_⟩, ?_, fun _ h => h.elim, trivial⟩
    · exact separate (checks lt) (returns lt) fun h => by cases h
    · exact separate (params lt) (returns lt) fun h => by cases h
  · obtain within | within := model lt mem <;> obtain within' | within' := model lt' mem' <;>
      refine separate within within' fun h => ?_ <;> cases h <;> exact ne rfl
  · obtain ⟨x, var_mem, mem⟩ := List.mem_flatMap.mp mem
    obtain ⟨i, model_mem, mem'⟩ := List.mem_flatMap.mp mem'
    obtain within | within := var (List.mem_range.mp var_mem) mem <;>
      obtain within' | within' := model (List.mem_range.mp model_mem) mem' <;>
      exact separate within within' fun h => by cases h

theorem Contents.inside (contents : D.Contents G start) {p0 p : Nat}
    (placed : ∀ k, D.HasArray k → p0 ≤ start k ∧ start k + D.bytes k ≤ p) :
    ∀ a ∈ D.extents G, p0 ≤ a.1 ∧ a.1 + a.2 ≤ p := by
  intro a mem
  rw [contents.extents_eq] at mem
  obtain mem | mem := List.mem_append.mp mem
  · obtain ⟨x, var, mem⟩ := List.mem_flatMap.mp mem
    have lt := List.mem_range.mp var
    simp only [List.mem_cons, List.not_mem_nil, or_false] at mem
    obtain rfl | rfl := mem
    · exact placed (.models x) lt
    · exact placed (.fwds x) lt
  · obtain ⟨i, model, mem⟩ := List.mem_flatMap.mp mem
    have lt := List.mem_range.mp model
    obtain ⟨low, high⟩ := placed (.bw i) lt
    simp only [bytes] at high
    simp only [List.mem_cons, List.not_mem_nil, or_false] at mem
    obtain rfl | rfl | rfl := mem
    · exact ⟨low, by simp only; omega⟩
    · exact ⟨by simp only; omega, by simp only; omega⟩
    · exact placed (.returns i) lt

theorem Contents.sum (contents : D.Contents G start) :
    ((D.extents G).map Prod.snd).sum = (D.arrays.map D.bytes).sum := by
  rw [contents.extents_eq, List.map_append, List.sum_append, List.map_flatMap, List.map_flatMap, arrays]
  simp only [List.map_cons, List.map_nil, List.flatMap, List.sum_flatten, List.sum_cons, List.sum_nil, Nat.add_zero, List.map_append,
    List.sum_append, List.map_map, Function.comp_def, List.sum_map_add, bytes]
  omega

/-- The contents of a graph are those of the definition. -/
theorem Contents.faithful (contents : D.Contents G start) (inv : D.Inv) (counted : D.Counted) {base p : Nat}
    (total : p = base + D.nodeBytes + (D.arrays.map D.bytes).sum)
    (placed : ∀ k, D.HasArray k → base + D.nodeBytes ≤ start k ∧ start k + D.bytes k ≤ p)
    (apart : ∀ k k', D.HasArray k → D.HasArray k' → k ≠ k' →
      start k + D.bytes k ≤ start k' ∨ start k' + D.bytes k' ≤ start k) :
    D.Faithful G base (p + (-D.minimap).toNat) := by
  have sizes := sum_arrays inv
  have cparams (i : Nat) (lt : i < D.models.length) : (G.params i).take (G.models i).p_cparam =
      exchangeSort D.later (D.computedEdges i) := by
    rw [contents.params i lt, contents.p_cparam i lt, ← (exchangeSort_perm D.later _).length_eq, List.take_left]
  have perm (i : Nat) (lt : i < D.models.length) : (G.params i).Perm (D.computedEdges i ++ D.givenEdges i) := by
    rw [contents.params i lt]
    exact (exchangeSort_perm D.later _).append_right _
  have named {i : Nat} {w : DefEdge × Nat} (lt : i < D.models.length) (mem : w ∈ (D.model i).params.zipIdx) :
      w.1.idx < D.vars.length := by
    have model : D.model i ∈ D.models := by
      rw [← range_models]
      exact List.mem_map_of_mem (List.mem_range.mpr lt)
    obtain ⟨dx, here, -⟩ := (inv.models _ model).edges w.1
      (List.mem_append_left _ (List.mem_of_getElem? (List.mem_zipIdx_iff_getElem?.mp mem)))
    exact (List.getElem?_eq_some_iff.mp here).1
  refine ⟨fun i lt => ⟨((perm i lt).map _).trans (perm_unordered i), fun c mem => ?_⟩, fun i lt j c here => ?_,
    fun i lt => ?_, contents.returns, fun i lt => ⟨?_, fun e mem => ?_⟩, fun i lt => ?_, contents.varModels,
    contents.varFwds, contents.disjoint apart, fun a mem => ?_, ⟨by omega, ?_⟩,
    ⟨fun i lt => ?_, fun x lt => counted.var lt, counted.nm, counted.nx⟩⟩
  · exact mem_unordered ((perm i lt).mem_iff.mp mem)
  · rw [contents.params i lt] at here
    rw [contents.p_cparam i lt, ← (exchangeSort_perm D.later _).length_eq]
    constructor
    · intro front
      rw [List.getElem?_append_left front] at here
      obtain ⟨w, kept, rfl⟩ := List.mem_map.mp ((exchangeSort_perm D.later _).mem_iff.mp (List.mem_of_getElem? here))
      obtain ⟨mem, computed⟩ := List.mem_filter.mp kept
      exact ⟨w.1.idx, (has_models counted (named lt mem)).mp (of_decide_eq_true computed), rfl⟩
    · rintro ⟨x, returned, same⟩
      by_contra back
      rw [List.getElem?_append_right (Nat.le_of_not_lt back)] at here
      obtain ⟨w, kept, rfl⟩ := List.mem_map.mp (List.mem_of_getElem? here)
      obtain ⟨mem, given⟩ := List.mem_filter.mp kept
      obtain rfl : w.1.idx = x := Int.ofNat.inj same
      exact of_decide_eq_true given ((has_models counted (named lt mem)).mpr returned)
  · rw [cparams i lt]
    exact exchangeSort_sorted later_irrefl later_trans _
  · rw [contents.checks i lt]
    exact (exchangeSort_perm smaller _).trans (List.reverse_perm _)
  · have model : D.model i ∈ D.models := by
      rw [← range_models]
      exact List.mem_map_of_mem (List.mem_range.mpr lt)
    obtain ⟨w, dx, shadow, var, -⟩ := (inv.models _ model).checks e mem
    have here : D.shadow e.idx = w := by
      rw [Def.shadow, List.getD_eq_getElem?_getD, shadow, Option.getD_some]
    have xi : (D.shadow e.idx).xi < D.vars.length := by
      rw [here]
      exact (List.getElem?_eq_some_iff.mp var).1
    rw [← has_models counted xi]
    simp only [shedge, Cell.ex, W_COMPUTED]
    split
    · rename_i computed
      exact ⟨fun _ => computed, fun _ => rfl⟩
    · rename_i given
      exact ⟨fun h => (by cases h), fun computed => absurd computed given⟩
  · rw [contents.checks i lt]
    exact exchangeSort_sorted smaller_irrefl smaller_trans _
  · obtain ⟨low, high⟩ := contents.inside placed a mem
    exact ⟨low, by omega⟩
  · rw [contents.sum]
    exact sizes
  · refine counted.models _ ?_
    rw [← range_models]
    exact List.mem_map_of_mem (List.mem_range.mpr lt)

end Def

namespace TwoParams

/-- A model that returns the second variable, and one with both variables as parameters. -/
def twoParams : Def where
  models := [⟨[], [⟨1, .FHKMAP_IDENT⟩], [], 0, 1, 1, 0⟩,
    ⟨[⟨0, .FHKMAP_IDENT⟩, ⟨1, .FHKMAP_SPACE⟩], [], [⟨0, .FHKMAP_IDENT, 5⟩], 0, 0, 2, 0⟩]
  vars := [⟨0, 8, 1, 0, 0⟩, ⟨0, 4, 1, 1, 3⟩]
  shadows := [⟨7, 0, 1⟩]
  maxg := 0
  minimap := 0
  maxkmap := -1
  umap_assoc _ := FHK_NGRP

/-- The nodes before the edges are added. -/
def nodes : Def :=
  { fhk_create_def with maxg := 0, models := [⟨[], [], [], 0, 1, 1, 0⟩, ⟨[], [], [], 0, 0, 2, 0⟩], vars :=
    [⟨0, 8, 0, 0, 0⟩, ⟨0, 4, 0, 0, 3⟩], shadows := [⟨7, 0, 1⟩] }

theorem nodes_defined : nodes.Defined := by
  have one : fhk_create_def.Add { fhk_create_def with maxg := 0, models := [⟨[], [], [], 0, 1, 1, 0⟩] } :=
    .model 0 1 1 0 rfl
  have two := (Relation.ReflTransGen.single one).tail (.model 0 0 2 0 rfl)
  have three := (two.tail (.var 0 8 0 rfl)).tail (.var 0 4 3 rfl)
  exact three.tail (.shadow 0 (by decide) 1 7 rfl)

theorem twoParams_defined : twoParams.Defined := by
  have returns := nodes_defined.tail (.returns 0 1 .FHKMAP_IDENT rfl)
  have params := (returns.tail (.param 1 0 .FHKMAP_IDENT rfl)).tail (.param 1 1 .FHKMAP_SPACE rfl)
  exact params.tail (.check 1 0 .FHKMAP_IDENT 5 rfl)

end TwoParams
end M2.Fhk
