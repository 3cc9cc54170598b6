import M2.Fhk.Instances

/-!
# The bounds enclose the costs

The low bound of a node is below the cost of each of its instances, the high bound above, whatever the user
maps hold. A parameter that the low bound counts has an instance as long as its group has one, and so has
a candidate that the high bound goes through. A check on a skipped variable fails, but costs nothing where
its subset is empty.
-/
namespace M2.Fhk
open M2.Lib

/-- The costs lie between the bounds. -/
structure Encloses (low high : Cost) (costs : Set Cost) : Prop where
  low : low ∈ lowerBounds costs
  high : high ≠ ⊤ → ∃ t ∈ costs, t ≤ high

/-- Only some elements of a list count on the left, and the others are not negative on the right. -/
theorem sum_filter_le {α : Type*} (p : α → Bool) (f g : α → Cost) (l : List α) (le : ∀ a ∈ l, p a → f a ≤ g a)
    (nonneg : ∀ a ∈ l, 0 ≤ g a) : ((l.filter p).map f).sum ≤ (l.map g).sum := by
  induction l with
  | nil => exact le_rfl
  | cons a l ih =>
    have rest := ih (fun b mem => le b (List.mem_cons_of_mem _ mem)) fun b mem => nonneg b (List.mem_cons_of_mem _ mem)
    rw [List.map_cons, List.sum_cons]
    cases counts : p a with
    | true =>
      rw [List.filter_cons_of_pos counts, List.map_cons, List.sum_cons]
      exact add_le_add (le a List.mem_cons_self counts) rest
    | false =>
      rw [List.filter_cons_of_neg (by rw [counts]; exact Bool.false_ne_true)]
      exact rest.trans (le_add_of_nonneg_left (nonneg a List.mem_cons_self))

/-- A check on a skipped variable fails, and has instances. -/
structure Instantiation.Fails {G : Graph} (S : Scope G) (I : Instantiation G) : Prop where
  pass : ∀ w i, S.skip (.var (G.shadows w).xi) → I.pass w i = false
  nonempty : ∀ m, S.skip (.model m) = false → ∀ e ∈ (G.models m).shadows, S.skip (.var (G.shadows e.idx).xi) →
    ∀ j, I.maps.mapE e.map j ≠ []

section
variable {G : Graph} {priced : G.Priced} {S : Scope G} {I : Instantiation G} {b : Node G × Color → Cost}

/-! ## The low bound -/

/-- A bound of the variables as a cost of their instances. -/
def spread (b : Node G × Color → Cost) (c : Color) (u : G.VI) : Cost := b (.var u.1, c)

/-- A model instance costs at least the low bound of the model, where its parameters do. -/
theorem gray_le_sum (priced : G.Priced) (populated : I.Populated) (accepted : I.Accepted) (fails : I.Fails S) {m : G.MI}
    (kept : S.skip (.model m.1) = false) :
    ((G.needs .GRAY m.1).map fun x => b (.var x, .GRAY)).sum + G.penalties S .GRAY m.1 ≤ G.instSum I m (spread b .GRAY) := by
  have params : ((G.needs .GRAY m.1).map fun x => b (.var x, .GRAY)).sum ≤
      ((G.models m.1).params.map (G.paramCost I.maps m.2 (spread b .GRAY))).sum := by
    rw [Graph.needs, List.map_map]
    apply sum_filter_le
    · intro e mem counts
      have fixed : G.xnonempty e.map := by simpa [Graph.counts] using counts
      obtain ⟨i, there⟩ := List.exists_mem_of_ne_nil _ (accepted.nonempty fixed (populated.params m.1 e mem) m.2)
      exact Graph.le_paramCost there
    · exact fun e _ => Graph.paramCost_nonneg m.2 _ e
  have penalties : G.penalties S .GRAY m.1 ≤ ((G.models m.1).shadows.map (G.penaltyOf I.maps I.pass m.2)).sum := by
    apply sum_filter_le
    · intro e mem skipped
      have skip : S.skip (.var (G.shadows e.idx).xi) = true := by simpa using skipped
      obtain ⟨i, there⟩ := List.exists_mem_of_ne_nil _ (fails.nonempty m.1 kept e mem skip m.2)
      have failing : (I.maps.mapE e.map m.2).all (I.pass e.idx) = false := by
        rw [List.all_eq_false]
        exact ⟨i, there, by rw [fails.pass e.idx i skip]; exact Bool.false_ne_true⟩
      rw [Graph.penaltyOf, failing]
      exact le_rfl
    · intro e mem
      unfold Graph.penaltyOf
      split
      · exact le_rfl
      · exact (priced m.1).penalty_nonneg e mem
  rw [add_comm]
  exact add_le_add penalties params

theorem gray_le_cost (populated : I.Populated) (accepted : I.Accepted) (fails : I.Fails S)
    (least : S.LeastSolution priced .GRAY fun i => b (i, .GRAY)) {m : G.MI} (kept : S.skip (.model m.1) = false) :
    b (.model m.1, .GRAY) ≤ G.instCost I (spread b .GRAY) (some m) := by
  rw [least.model m.1 kept]
  exact (priced m.1).costf_mono (gray_le_sum priced populated accepted fails kept)

/-- No candidate undercuts the low bound of its variable. -/
theorem gray_prefixed (ends : G.Ends) (populated : I.Populated) (accepted : I.Accepted) (fails : I.Fails S)
    (least : S.LeastSolution priced .GRAY fun i => b (i, .GRAY)) (x : G.VI) (s : Option G.MI)
    (source : s ∈ (G.instSystem priced S I).alts x) : spread b .GRAY x ≤ G.instCost I (spread b .GRAY) s := by
  cases s with
  | none =>
    have given := Graph.mem_instSources_none.mp source
    exact (least.given x.1 given).le
  | some m =>
    obtain ⟨ungiven, kept, e, mem, model, -⟩ := Graph.mem_instSources.mp source
    obtain ⟨e', returned, var⟩ := (ends.models x.1 m.1).mp ⟨e, mem, model⟩
    have reach : x.1 ∈ G.reaches .GRAY m.1 :=
      List.mem_map.mpr ⟨e', List.mem_filter.mpr ⟨returned, by simp [Graph.covers]⟩, var⟩
    have below : b (.var x.1, .GRAY) ≤ b (.model m.1, .GRAY) := by
      rw [least.var x.1 ungiven]
      exact AndOr.listMin_le (List.mem_map.mpr ⟨m.1, by simp [kept, reach], rfl⟩)
    exact below.trans (gray_le_cost populated accepted fails least kept)

/-! ## The high bound -/

theorem Scope.LeastSolution.nonneg {f : Node G → Cost} {c : Color} (solution : S.LeastSolution priced c f) (x : Fin G.nv) :
    0 ≤ f (.var x) := by
  rcases solution.least x with least | ⟨-, top⟩
  · exact Graph.bound_nonneg priced least.1
  · rw [top]
    exact le_top

/-- A parameter with an infinite bound makes the bound of the model infinite. -/
theorem Graph.modelBound_top {c : Color} {m : Fin G.nm} {f : Fin G.nv → Cost} {u : Fin G.nv}
    (need : u ∈ G.needs c m) (top : f u = ⊤) : G.modelBound S c m f = ⊤ := by
  have sum : ((G.needs c m).map f).sum = ⊤ := Cost.sum_eq_top (List.mem_map.mpr ⟨u, need, top⟩)
  rw [Graph.modelBound, sum, top_add]
  rfl

/-- A model instance costs at most what the model does with every parameter and every penalty. -/
theorem inst_le_black (priced : G.Priced) {m : G.MI} {f : Fin G.nv → Cost} {g : G.VI → Cost}
    (nonneg : ∀ u ∈ G.needs .BLACK m.1, 0 ≤ f u) (le : ∀ u ∈ G.instNeeds I (some m), g u ≤ f u.1) :
    G.instCost I g (some m) ≤ G.modelBound S .BLACK m.1 f := by
  have all : G.needs .BLACK m.1 = (G.models m.1).params.map Edge.idx := by
    rw [Graph.needs, List.filter_eq_self.mpr fun e _ => by simp [Graph.counts]]
  rw [all] at nonneg
  apply (priced m.1).costf_mono
  rw [Graph.instSum, Graph.penalties, all, List.map_map, List.filter_eq_self.mpr fun e _ => by simp, add_comm]
  apply add_le_add
  · apply Cost.sum_map_mono
    intro e mem
    apply Cost.listMax_le (nonneg e.idx (List.mem_map_of_mem mem))
    intro t there
    obtain ⟨i, inst, rfl⟩ := List.mem_map.mp there
    exact le (e.idx, i) (Graph.mem_instNeeds.mpr ⟨e, mem, rfl, inst⟩)
  · apply Cost.sum_map_mono
    intro e mem
    unfold Graph.penaltyOf
    split
    · exact (priced m.1).penalty_nonneg e mem
    · exact le_rfl

/-- What a high bound derives, every instance derives at no higher cost. -/
theorem black_derives (returned : G.Returned) (populated : I.Populated) (accepted : I.Accepted) {x : Fin G.nv} {t : Cost}
    (derived : (G.boundSystem priced S .BLACK).Derives x t) {i : Inst} (inst : I.In (G.vars x).group i) :
    ∃ t', (G.instSystem priced S I).Derives (x, i) t' ∧ t' ≤ t := by
  apply derived.transfer (fun v w => w.1 = v ∧ I.In (G.vars v).group w.2) _ ⟨rfl, inst⟩
  rintro v ⟨w, i⟩ s f ⟨rfl, inst⟩ source derives ih
  cases s with
  | none =>
    have given := Graph.mem_sources_none.mp source
    exact ⟨_, .intro _ none (fun _ => 0) (Graph.mem_instSources_none.mpr given) fun u need => absurd need List.not_mem_nil,
      le_rfl⟩
  | some m =>
    obtain ⟨ungiven, kept, reach⟩ := Graph.mem_sources.mp source
    obtain ⟨e, covers, var⟩ := List.mem_map.mp reach
    obtain ⟨mem, fixed⟩ := List.mem_filter.mp covers
    have fixed : G.xnonempty e.map := by simpa [Graph.covers] using fixed
    obtain ⟨e', back, model, fixed'⟩ := returned m e mem fixed
    rw [var] at back
    obtain ⟨j, candidate⟩ := List.exists_mem_of_ne_nil _ (accepted.nonempty fixed' (populated.models w e' back) i)
    have inst_j := accepted.models w e' back i inst j candidate
    rw [model] at inst_j
    have each (u : G.VI) (need : u ∈ G.instNeeds I (some (m, j))) :
        ∃ t', (G.instSystem priced S I).Derives u t' ∧ t' ≤ f u.1 := by
      obtain ⟨p, param, same, there⟩ := Graph.mem_instNeeds.mp need
      have inst_u := accepted.params m p param j inst_j u.2 there
      rw [same] at inst_u
      apply ih u.1 _ u ⟨rfl, inst_u⟩
      exact List.mem_map.mpr ⟨p, List.mem_filter.mpr ⟨param, by simp [Graph.counts]⟩, same⟩
    choose! g derived' below using each
    refine ⟨_, .intro _ (some (m, j)) g (Graph.mem_instSources.mpr ⟨ungiven, kept, e', back, model, candidate⟩) derived', ?_⟩
    exact inst_le_black priced (fun u need => Graph.bound_nonneg priced (derives u need)) below

end

namespace Prune
variable {G : Graph}

/-- The bounds of a run that succeeds enclose the costs of the instances of the nodes that are not skipped. -/
theorem prune_bounds_enclose (priced : G.Priced) (linked : G.Linked) (returned : G.Returned) (P : Prune G) (fresh : P.Fresh)
    (fuel : Nat) (P' : Prune G) (ok : P.fhk_prune_run fuel = .ok P') (I : Instantiation G) (accepted : I.Accepted)
    (populated : I.Populated) (fails : I.Fails P.scope) :
    (∀ x i, I.In (G.vars x).group i →
      Encloses (P'.bound (.var x, .GRAY)) (P'.bound (.var x, .BLACK)) ((G.instSystem priced P.scope I).costs (x, i))) ∧
    ∀ m j, P.scope.skip (.model m) = false → I.In (G.models m).group j →
      Encloses (P'.bound (.model m, .GRAY)) (P'.bound (.model m, .BLACK)) ((G.instSystem priced P.scope I).altCosts (some (m, j))) := by
  have gray : P.scope.LeastSolution priced .GRAY fun i => P'.bound (i, .GRAY) := solution_of_run linked fresh ok .GRAY
  have black : P.scope.LeastSolution priced .BLACK fun i => P'.bound (i, .BLACK) := solution_of_run linked fresh ok .BLACK
  have low (u : G.VI) : spread P'.bound .GRAY u ∈ lowerBounds ((G.instSystem priced P.scope I).costs u) :=
    AndOr.lower_of_prefixed _ _ (gray_prefixed linked.toEnds populated accepted fails gray) u
  have high (x : Fin G.nv) (i : Inst) (inst : I.In (G.vars x).group i) (finite : P'.bound (.var x, .BLACK) ≠ ⊤) :
      ∃ t, (G.instSystem priced P.scope I).Derives (x, i) t ∧ t ≤ P'.bound (.var x, .BLACK) := by
    rcases black.least x with least | ⟨-, top⟩
    · exact black_derives returned populated accepted least.1 inst
    · exact absurd top finite
  constructor
  · exact fun x i inst => ⟨low (x, i), high x i inst⟩
  · intro m j kept inst
    constructor
    · intro t through
      have sum : G.instCost I (spread P'.bound .GRAY) (some (m, j)) ≤ t :=
        AndOr.value_lower _ _ (spread P'.bound .GRAY) (fun u _ => low u) through
      exact (gray_le_cost populated accepted fails gray kept).trans sum
    · intro finite
      rw [black.model m kept] at finite ⊢
      have each (u : G.VI) (need : u ∈ G.instNeeds I (some (m, j))) :
          ∃ t, (G.instSystem priced P.scope I).Derives u t ∧ t ≤ P'.bound (.var u.1, .BLACK) := by
        obtain ⟨e, param, same, there⟩ := Graph.mem_instNeeds.mp need
        have inst_u := accepted.params m e param j inst u.2 there
        rw [same] at inst_u
        apply high u.1 u.2 inst_u
        intro top
        apply finite
        have needed : u.1 ∈ G.needs .BLACK m :=
          List.mem_map.mpr ⟨e, List.mem_filter.mpr ⟨param, by simp [Graph.counts]⟩, same⟩
        exact Graph.modelBound_top needed top
      choose! g derived below using each
      apply Exists.intro (G.instCost I g (some (m, j)))
      constructor
      · exact ⟨g, derived, rfl⟩
      · exact inst_le_black priced (fun u _ => black.nonneg u) below

end Prune

namespace EmptySubset

/-- The second variable has a model that costs one, with parameters and checks on the first, which has a
model that costs five and a group of its own. -/
def graph (params : List (Edge 2)) (shadows : List (ShEdge 1)) : Graph where
  nv := 2
  nm := 2
  nw := 1
  ng := 2
  vars x := if x.val = 0 then ⟨[⟨⟨1, Nat.one_lt_two⟩, MAP_IDENT, 0⟩], params.map fun _ => ⟨⟨0, Nat.two_pos⟩, 0, 0⟩, 1, 8⟩
    else ⟨[⟨⟨0, Nat.two_pos⟩, MAP_IDENT, 0⟩], [], 0, 8⟩
  models m := if m.val = 0 then ⟨0, shadows, params, params.length, [⟨⟨1, Nat.one_lt_two⟩, MAP_IDENT, 0⟩], true, 1, 1, 0⟩
    else ⟨1, [], [], 0, [⟨⟨0, Nat.two_pos⟩, MAP_IDENT, 0⟩], true, 5, 1, 0⟩
  shadows _ := ⟨⟨0, Nat.two_pos⟩, 1⟩

/-- The second variable is selected, and the first one skipped or not. -/
def start (params : List (Edge 2)) (shadows : List (ShEdge 1)) (skip : Bool) : Prune (graph params shadows) where
  flags
    | .var x => ⟨false, decide (x.val = 0) && skip, decide (x.val = 1), fun _ => false, false, false⟩
    | .model _ => ⟨false, false, false, fun _ => false, false, false⟩
  bound _ := 0
  p_miss _ := 0
  heap := ⟨0, fun _ => ⟨0, .GRAY, (⟨0, Nat.two_pos⟩ : Fin 2)⟩⟩

/-- The first group has one instance and the second one `n`, and the subsets of the user maps are empty. -/
def sized (params : List (Edge 2)) (shadows : List (ShEdge 1)) (n : Nat) : Instantiation (graph params shadows) where
  maps :=
    { shape := fun g => if g = 0 then 1 else n
      subset := fun map _ =>
        if (BitVec.ofInt 8 map).toNat < 2 then
          (List.range (if (BitVec.ofInt 8 map).toNat = 0 then 1 else n)).map (Fin.ofNat 65536)
        else [] }
  pass _ _ := false

theorem start_fresh (params : List (Edge 2)) (shadows : List (ShEdge 1)) (skip : Bool) : (start params shadows skip).Fresh := by
  constructor
  · intro i
    cases i <;> exact ⟨rfl, rfl, rfl⟩
  · exact fun _ => rfl
  · rfl

theorem graph_priced (params : List (Edge 2)) (shadows : List (ShEdge 1)) (nonneg : ∀ e ∈ shadows, 0 ≤ e.penalty) :
    (graph params shadows).Priced := by
  intro (m : Fin 2)
  cases m using Fin.cases with
  | zero => exact ⟨(by decide : (0 : ℚ) ≤ 1), (by decide : (1 : ℚ) ≤ 1), nonneg⟩
  | succ m =>
    rw [Fin.fin_one_eq_zero m]
    exact ⟨(by decide : (0 : ℚ) ≤ 5), (by decide : (1 : ℚ) ≤ 1), fun e mem => absurd mem List.not_mem_nil⟩

/-- The links of a graph with one parameter behind a map, and with or without a check behind another. -/
theorem graph_linked (params : List (Edge 2)) (shadows : List (ShEdge 1))
    (fwds : ∀ x m : Fin 2, ((graph params shadows).vars x).fwds.countP (fun e => e.idx = m) =
      ((graph params shadows).models m).params.countP fun e => e.idx = x)
    (counted : ∀ x m : Fin 2, ((graph params shadows).vars x).fwds.countP (fun e => e.idx = m ∧ (graph params shadows).xnonempty e.map) =
      ((graph params shadows).models m).params.countP fun e => e.idx = x ∧ (graph params shadows).xnonempty e.map)
    (p_param : ∀ m : Fin 2, ((graph params shadows).models m).params.length < 256) : (graph params shadows).Linked := by
  have models : ∀ x m : Fin 2, ((graph params shadows).vars x).models.any (fun e => decide (e.idx.val = m.val)) =
      ((graph params shadows).models m).returns.any fun e => decide (e.idx.val = x.val) := by
    rw [Fin.forall_fin_two, Fin.forall_fin_two, Fin.forall_fin_two]
    exact ⟨⟨rfl, rfl⟩, rfl, rfl⟩
  exact ⟨⟨fwds, fun x m => Graph.models_iff_of_any (models x m), p_param⟩, counted⟩

theorem space_linked : (graph [⟨0, 1, 0⟩] []).Linked :=
  graph_linked _ _ (by decide) (by decide) (by decide)

theorem check_linked : (graph [] [⟨0, 2, true, 5⟩]).Linked :=
  graph_linked _ _ (by decide) (by decide) (by decide)

theorem sized_accepted (params : List (Edge 2)) (shadows : List (ShEdge 1)) (n : Nat)
    (params' : ∀ e ∈ params, e.idx = 0 ∧ e.map = 1) : (sized params shadows n).Accepted := by
  constructor
  · intro map mapped group j
    have lt : (BitVec.ofInt 8 map).toNat < 2 := by
      by_contra beyond
      have user : MAP_ISUSER map (graph params shadows).ng = true := MAP_ISUSER_iff.mpr ⟨mapped, not_lt.mp beyond⟩
      rw [user] at group
      cases group
    exact if_pos lt
  · intro (m : Fin 2) e mem j _ i there
    cases m using Fin.cases with
    | zero =>
      obtain ⟨idx, map⟩ := params' e mem
      rw [map] at there
      obtain ⟨k, range, rfl⟩ := List.mem_map.mp (show i ∈ (List.range n).map (Fin.ofNat 65536) by exact there)
      have small : k < n := List.mem_range.mp range
      have group : ((graph params shadows).vars e.idx).group = 1 := by
        rw [idx]
        rfl
      rw [group]
      exact (Nat.mod_le k 65536).trans_lt small
    | succ m =>
      rw [Fin.fin_one_eq_zero m] at mem
      exact absurd mem List.not_mem_nil
  · intro (x : Fin 2)
    cases x using Fin.cases with
    | zero =>
      intro e mem i inst j there
      obtain rfl := List.mem_singleton.mp mem
      obtain rfl := List.mem_singleton.mp there
      exact inst
    | succ x =>
      rw [Fin.fin_one_eq_zero x]
      intro e mem i inst j there
      obtain rfl := List.mem_singleton.mp mem
      obtain rfl := List.mem_singleton.mp there
      exact inst

theorem graph_returned (params : List (Edge 2)) (shadows : List (ShEdge 1)) : (graph params shadows).Returned := by
  intro (m : Fin 2)
  cases m using Fin.cases with
  | zero =>
    intro e mem fixed
    obtain rfl := List.mem_singleton.mp mem
    exact ⟨_, List.mem_singleton_self _, rfl, fixed⟩
  | succ m =>
    rw [Fin.fin_one_eq_zero m]
    intro e mem fixed
    obtain rfl := List.mem_singleton.mp mem
    exact ⟨_, List.mem_singleton_self _, rfl, fixed⟩

/-- The second variable costs one, where its model needs nothing and pays no penalty. -/
theorem derives_one {params : List (Edge 2)} {shadows : List (ShEdge 1)} {n : Nat} {S : Scope (graph params shadows)}
    (priced : (graph params shadows).Priced) (given : S.given (1 : Fin 2) = false) (kept : S.skip (.model (0 : Fin 2)) = false)
    (needs : (graph params shadows).instNeeds (sized params shadows n) (some ((0 : Fin 2), 0)) = [])
    (sum : (graph params shadows).instSum (sized params shadows n) ((0 : Fin 2), 0) (fun _ => 0) = 0) :
    ((graph params shadows).instSystem priced S (sized params shadows n)).Derives ((1 : Fin 2), 0) 1 := by
  have cost : (graph params shadows).instCost (sized params shadows n) (fun _ => 0) (some ((0 : Fin 2), 0)) = 1 := by
    have value : Cost.affine 1 1 0 = 1 := by decide +kernel
    rw [Graph.instCost, sum]
    exact value
  apply (AndOr.derives_iff _ _ _).mpr
  apply Exists.intro (some ((0 : Fin 2), 0))
  constructor
  · apply Graph.mem_instSources.mpr
    exact ⟨given, kept, _, List.mem_singleton_self _, rfl, List.mem_singleton_self _⟩
  · apply Exists.intro fun _ => 0
    constructor
    · intro u need
      have none : u ∈ ([] : List (graph params shadows).VI) := needs ▸ need
      exact absurd none List.not_mem_nil
    · exact cost.symm

theorem space_fails (S : Scope (graph [⟨0, 1, 0⟩] [])) : (sized [⟨0, 1, 0⟩] [] 1).Fails S := by
  constructor
  · exact fun _ _ _ => rfl
  · intro (m : Fin 2) _ e mem
    cases m using Fin.cases with
    | zero => exact absurd mem List.not_mem_nil
    | succ m =>
      rw [Fin.fin_one_eq_zero m] at mem
      exact absurd mem List.not_mem_nil

theorem sized_populated (params : List (Edge 2)) (shadows : List (ShEdge 1)) : (sized params shadows 1).Populated := by
  have pos (g : Nat) : 0 < (sized params shadows 1).maps.shape g := by
    show 0 < if g = 0 then 1 else 1
    rw [ite_self]
    exact Nat.one_pos
  exact ⟨fun _ _ _ _ _ => pos _, fun _ _ _ _ _ => pos _⟩

theorem prune_bounds_enclose_one : ∃ priced : (graph [⟨0, 1, 0⟩] []).Priced, ∃ P', (start [⟨0, 1, 0⟩] [] false).fhk_prune_run 20 = .ok P' ∧
    ∀ m j, (start [⟨0, 1, 0⟩] [] false).scope.skip (.model m) = false → (sized [⟨0, 1, 0⟩] [] 1).In ((graph [⟨0, 1, 0⟩] []).models m).group j →
      Encloses (P'.bound (.model m, .GRAY)) (P'.bound (.model m, .BLACK))
        (((graph [⟨0, 1, 0⟩] []).instSystem priced (start [⟨0, 1, 0⟩] [] false).scope (sized [⟨0, 1, 0⟩] [] 1)).altCosts (some (m, j))) := by
  have computed : (match (start [⟨0, 1, 0⟩] [] false).fhk_prune_run 20 with
    | .ok _ => true
    | .error _ => false) = true := by decide +kernel
  split at computed
  · rename_i P' run
    have priced := graph_priced [⟨0, 1, 0⟩] [] fun e mem => absurd mem List.not_mem_nil
    exact ⟨priced, P', run, (Prune.prune_bounds_enclose priced space_linked (graph_returned _ _) _ (start_fresh _ _ _) 20 P' run _
      (sized_accepted _ _ _ (by decide)) (sized_populated _ _) (space_fails _)).2⟩
  · cases computed

/-- A parameter in a group without instances, and a check of a skipped variable in an empty subset, cost
nothing, but the low bound counts them. -/
theorem not_encloses :
    (∃ priced : (graph [⟨0, 1, 0⟩] []).Priced, ∃ P', (start [⟨0, 1, 0⟩] [] false).fhk_prune_run 20 = .ok P' ∧
      (sized [⟨0, 1, 0⟩] [] 0).Accepted ∧ (sized [⟨0, 1, 0⟩] [] 0).In 0 0 ∧
      ¬ Encloses (P'.bound (.var (1 : Fin 2), .GRAY)) (P'.bound (.var (1 : Fin 2), .BLACK))
        (((graph [⟨0, 1, 0⟩] []).instSystem priced (start [⟨0, 1, 0⟩] [] false).scope (sized [⟨0, 1, 0⟩] [] 0)).costs
          ((1 : Fin 2), 0))) ∧
    ∃ priced : (graph [] [⟨0, 2, true, 5⟩]).Priced, ∃ P', (start [] [⟨0, 2, true, 5⟩] true).fhk_prune_run 20 = .ok P' ∧
      (sized [] [⟨0, 2, true, 5⟩] 1).Accepted ∧ (sized [] [⟨0, 2, true, 5⟩] 1).In 0 0 ∧
      ¬ Encloses (P'.bound (.var (1 : Fin 2), .GRAY)) (P'.bound (.var (1 : Fin 2), .BLACK))
        (((graph [] [⟨0, 2, true, 5⟩]).instSystem priced (start [] [⟨0, 2, true, 5⟩] true).scope (sized [] [⟨0, 2, true, 5⟩] 1)).costs
          ((1 : Fin 2), 0)) := by
  constructor
  · have computed : (match (start [⟨0, 1, 0⟩] [] false).fhk_prune_run 20 with
      | .ok P' => decide (P'.bound (.var (1 : Fin 2), .GRAY) = 6)
      | .error _ => false) = true := by decide +kernel
    split at computed
    · rename_i P' run
      have priced := graph_priced [⟨0, 1, 0⟩] [] fun e mem => absurd mem List.not_mem_nil
      have low : P'.bound (.var (1 : Fin 2), .GRAY) = 6 := of_decide_eq_true computed
      have one := derives_one (n := 0) (S := (start [⟨0, 1, 0⟩] [] false).scope) priced rfl rfl rfl (by decide +kernel)
      refine ⟨priced, P', run, sized_accepted _ _ _ (by decide), Nat.one_pos, fun encloses => ?_⟩
      have le := encloses.low one
      rw [low] at le
      exact absurd le (by decide)
    · cases computed
  · have computed : (match (start [] [⟨0, 2, true, 5⟩] true).fhk_prune_run 20 with
      | .ok P' => decide (P'.bound (.var (1 : Fin 2), .GRAY) = 6)
      | .error _ => false) = true := by decide +kernel
    split at computed
    · rename_i P' run
      have priced := graph_priced [] [⟨0, 2, true, 5⟩] (by decide)
      have low : P'.bound (.var (1 : Fin 2), .GRAY) = 6 := of_decide_eq_true computed
      have one := derives_one (n := 1) (S := (start [] [⟨0, 2, true, 5⟩] true).scope) priced rfl rfl rfl (by decide +kernel)
      refine ⟨priced, P', run, sized_accepted _ _ _ (by decide), Nat.one_pos, fun encloses => ?_⟩
      have le := encloses.low one
      rw [low] at le
      exact absurd le (by decide)
    · cases computed

end EmptySubset
end M2.Fhk
