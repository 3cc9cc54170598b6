import M2.Fhk.PruneClosed
import M2.Fhk.PruneEnclose

/-!
# What pruning preserves

A variable drops the models whose low bound is not below its high bound, except for one at the high bound.
As long as that one still has its chain among the models that are kept, no instance loses its cheapest
chain. The chain is gone where the models at the high bounds go round in a cycle that costs nothing, and
where a cheaper model behind a user map stands in for the one at the high bound.
-/
namespace M2.Fhk
open M2.Lib

/-- Only these models are left. -/
def Scope.only {G : Graph} (S : Scope G) (models : Fin G.nm → Bool) : Scope G where
  given := S.given
  skip
    | .var x => S.skip (.var x)
    | .model m => !models m

section
variable {G : Graph} {priced : G.Priced} {S : Scope G} {I : Instantiation G}

/-- A model that costs something has a higher bound than each of its parameters. -/
theorem Graph.lt_modelBound {c : Color} {m : Fin G.nm} {f : Fin G.nv → Cost} {u : Fin G.nv} (priced : G.Priced)
    (positive : 0 < (G.models m).k) (need : u ∈ G.needs c m) (nonneg : ∀ v ∈ G.needs c m, 0 ≤ f v)
    (finite : G.modelBound S c m f ≠ ⊤) : f u < G.modelBound S c m f := by
  have one : f u ≤ ((G.needs c m).map f).sum := by
    apply List.single_le_sum
    · intro t mem
      obtain ⟨v, need, rfl⟩ := List.mem_map.mp mem
      exact nonneg v need
    · exact List.mem_map_of_mem need
  have more : ((G.needs c m).map f).sum ≤ ((G.needs c m).map f).sum + G.penalties S c m :=
    le_add_of_nonneg_right (Graph.penalties_nonneg priced m)
  have sum : ((G.needs c m).map f).sum + G.penalties S c m ≠ ⊤ := by
    intro top
    apply finite
    rw [Graph.modelBound, top]
    rfl
  have pos : 0 ≤ ((G.needs c m).map f).sum + G.penalties S c m := (Cost.sum_map_nonneg _ nonneg).trans more
  exact (one.trans more).trans_lt (Cost.self_lt_affine positive (priced m).one_le_c pos sum)

end

namespace Prune
variable {G : Graph} {priced : G.Priced} {P P' : Prune G}

open Classical in
/-- Every kept variable with a finite high bound has a chain at the high bound through the kept models. -/
def Backed (priced : G.Priced) (P : Prune G) : Prop := ∀ x, P.Keep priced (.var x) → P.scope.bounds priced (.var x, .BLACK) ≠ ⊤ →
  ∃ t ≤ P.scope.bounds priced (.var x, .BLACK),
    (G.boundSystem priced (P.scope.only fun m => decide (P.Keep priced (.model m))) .BLACK).Derives x t

/-- A variable takes a model at its high bound, where none of its models is below. -/
theorem taken_attains {b : Node G × Color → Cost} {beta : Cost} {l : List (Edge G.nm)}
    (above : ∀ e ∈ l, beta ≤ b (.model e.idx, .BLACK)) (attained : ∃ e ∈ l, b (.model e.idx, .BLACK) = beta) :
    ∃ e ∈ l, e.idx ∈ Graph.taken b beta true l ∧ b (.model e.idx, .BLACK) = beta := by
  induction l with
  | nil =>
    obtain ⟨e, mem, -⟩ := attained
    cases mem
  | cons e l ih =>
    rw [Graph.taken]
    by_cases here : b (.model e.idx, .BLACK) = beta
    · rw [if_pos (by simp [takes, here])]
      exact ⟨e, List.mem_cons_self, List.mem_cons_self, here⟩
    · have rest : ∃ e ∈ l, b (.model e.idx, .BLACK) = beta := by
        obtain ⟨e', mem, same⟩ := attained
        rcases List.mem_cons.mp mem with rfl | later
        · exact absurd same here
        · exact ⟨e', later, same⟩
      obtain ⟨e', mem, taken, same⟩ := ih (fun e' mem => above e' (List.mem_cons_of_mem _ mem)) rest
      have more : (true && decide (b (.model e.idx, .BLACK) > beta)) = true := by
        rw [Bool.true_and, decide_eq_true_eq]
        exact lt_of_le_of_ne (above e List.mem_cons_self) (Ne.symm here)
      split
      · rw [more]
        exact ⟨e', List.mem_cons_of_mem _ mem, List.mem_cons_of_mem _ taken, same⟩
      · exact ⟨e', List.mem_cons_of_mem _ mem, taken, same⟩

/-- High bounds are backed where every model costs something and no variable is returned behind a user map. -/
theorem backed_of_positive (priced : G.Priced) (linked : G.Linked) (positive : ∀ m, 0 < (G.models m).k)
    (covered : ∀ m, ∀ e ∈ (G.models m).returns, G.xnonempty e.map)
    (black : P.scope.LeastSolution priced .BLACK fun i => P.scope.bounds priced (i, .BLACK))
    (alive : ∀ m, P.Keep priced (.model m) → P.scope.skip (.model m) = false) : P.Backed priced := by
  classical
  have finite : WellFounded fun x y : Fin G.nv => P.scope.bounds priced (.var x, .BLACK) < P.scope.bounds priced (.var y, .BLACK) := by
    have : IsTrans (Fin G.nv) fun x y => P.scope.bounds priced (.var x, .BLACK) < P.scope.bounds priced (.var y, .BLACK) :=
      ⟨fun _ _ _ => lt_trans⟩
    have : Std.Irrefl fun x y : Fin G.nv => P.scope.bounds priced (.var x, .BLACK) < P.scope.bounds priced (.var y, .BLACK) :=
      ⟨fun _ => lt_irrefl _⟩
    exact Finite.wellFounded_of_trans_of_irrefl _
  intro x
  induction x using finite.induction with
  | h x ih =>
    intro inside high
    cases given : P.scope.given x with
    | true =>
      rw [black.given x given]
      exact ⟨0, le_rfl, .intro x none (fun _ => 0) (Graph.mem_sources_none.mpr given) fun u need => absurd need List.not_mem_nil⟩
    | false =>
      have equation := black.var x given
      have reach (e : Edge G.nm) (mem : e ∈ (G.vars x).models) : x ∈ G.reaches .BLACK e.idx := by
        obtain ⟨r, returned, var⟩ := (linked.models x e.idx).mp ⟨e, mem, rfl⟩
        exact List.mem_map.mpr ⟨r, List.mem_filter.mpr ⟨returned, by simp [Graph.covers, covered e.idx r returned]⟩, var⟩
      have above : ∀ e ∈ (G.vars x).models, P.scope.bounds priced (.var x, .BLACK) ≤ P.scope.bounds priced (.model e.idx, .BLACK) := by
        intro e mem
        cases skip : P.scope.skip (.model e.idx) with
        | true =>
          have top : P.scope.bounds priced (.model e.idx, .BLACK) = ⊤ := by rw [Scope.bounds, if_pos skip]
          rw [top]
          exact le_top
        | false =>
          rw [equation]
          exact AndOr.listMin_le (List.mem_map.mpr ⟨e.idx, by simp [skip, reach e mem], rfl⟩)
      have attained : ∃ e ∈ (G.vars x).models, P.scope.bounds priced (.model e.idx, .BLACK) = P.scope.bounds priced (.var x, .BLACK) := by
        have mem := high
        rw [equation] at mem
        obtain ⟨m, source, same⟩ := List.mem_map.mp (AndOr.listMin_mem mem)
        rw [← equation] at same
        have returned : x ∈ G.reaches .BLACK m := (of_decide_eq_true (List.mem_filter.mp source).2).2
        obtain ⟨r, covers, var⟩ := List.mem_map.mp returned
        obtain ⟨e, edge, rfl⟩ := (linked.models x m).mpr ⟨r, (List.mem_filter.mp covers).1, var⟩
        exact ⟨e, edge, same⟩
      obtain ⟨e, mem, taken, same⟩ := taken_attains above attained
      have kept : P.Keep priced (.model e.idx) := by
        apply Graph.Kept.along inside
        apply List.mem_map_of_mem
        rwa [decide_eq_true (lt_top_iff_ne_top.mpr high)]
      have unskipped := alive e.idx kept
      have cost := black.model e.idx unskipped
      have nonneg (u : Fin G.nv) : 0 ≤ P.scope.bounds priced (.var u, .BLACK) := black.nonneg u
      have each (u : Fin G.nv) (need : u ∈ G.needs .BLACK e.idx) : ∃ t ≤ P.scope.bounds priced (.var u, .BLACK),
          (G.boundSystem priced (P.scope.only fun m => decide (P.Keep priced (.model m))) .BLACK).Derives u t := by
        obtain ⟨p, counted, rfl⟩ := List.mem_map.mp need
        have less : P.scope.bounds priced (.var p.idx, .BLACK) < P.scope.bounds priced (.var x, .BLACK) := by
          rw [← same, cost]
          apply Graph.lt_modelBound priced (positive e.idx) need fun u _ => nonneg u
          rw [← cost, same]
          exact high
        exact ih p.idx less (kept.param (List.mem_filter.mp counted).1) less.ne_top
      choose! g below derived using each
      have source : some e.idx ∈ G.sources (P.scope.only fun m => decide (P.Keep priced (.model m))) .BLACK x := by
        apply Graph.mem_sources.mpr
        exact ⟨given, by simp [Scope.only, kept], reach e mem⟩
      refine ⟨_, ?_, .intro x (some e.idx) g source derived⟩
      rw [← same, cost]
      exact (priced e.idx).costf_mono (add_le_add (Cost.sum_map_mono _ below) le_rfl)

theorem Selection.unskipped (selection : Selection priced P P') {m : Fin G.nm} (kept : P.Keep priced (.model m)) :
    P.scope.skip (.model m) = false := by
  have alive := selection.alive m kept
  rw [Scope.dead, Bool.or_eq_false_iff] at alive
  exact alive.1

theorem Selection.solution (selection : Selection priced P P') {color : Color}
    (solution : P.scope.LeastSolution priced color fun i => P'.bound (i, color)) :
    P.scope.LeastSolution priced color fun i => P.scope.bounds priced (i, color) := by
  rw [← selection.bound]
  exact solution

/-- A run that succeeds keeps a chain at the high bound of every variable that it keeps, where every model
costs something and no variable is returned behind a user map. -/
theorem fhk_prune_run_backed (priced : G.Priced) (linked : G.Linked) (P : Prune G) (fresh : P.Fresh)
    (positive : ∀ m, 0 < (G.models m).k) (covered : ∀ m, ∀ e ∈ (G.models m).returns, G.xnonempty e.map) (fuel : Nat)
    (P' : Prune G) (ok : P.fhk_prune_run fuel = .ok P') : P.Backed priced := by
  have selection := selection_of_run priced linked fresh ok
  apply backed_of_positive priced linked positive covered
  · exact selection.solution (solution_of_run linked fresh ok .BLACK)
  · exact fun m kept => selection.unskipped kept

end Prune

namespace EmptySubset

theorem space_positive (m : Fin 2) : 0 < ((graph [⟨0, 1, 0⟩] []).models m).k := by
  cases m using Fin.cases with
  | zero => exact (by decide : (0 : ℚ) < 1)
  | succ m =>
    rw [Fin.fin_one_eq_zero m]
    exact (by decide : (0 : ℚ) < 5)

theorem space_covered (m : Fin 2) : ∀ e ∈ ((graph [⟨0, 1, 0⟩] []).models m).returns, (graph [⟨0, 1, 0⟩] []).xnonempty e.map := by
  cases m using Fin.cases with
  | zero =>
    intro e mem
    obtain rfl := List.mem_singleton.mp mem
    decide
  | succ m =>
    rw [Fin.fin_one_eq_zero m]
    intro e mem
    obtain rfl := List.mem_singleton.mp mem
    decide

theorem space_run : ∃ P', (start [⟨0, 1, 0⟩] [] false).fhk_prune_run 20 = .ok P' := by
  have computed : (match (start [⟨0, 1, 0⟩] [] false).fhk_prune_run 20 with
    | .ok _ => true
    | .error _ => false) = true := by decide +kernel
  split at computed
  · rename_i P' run
    exact ⟨P', run⟩
  · cases computed

theorem space_priced : (graph [⟨0, 1, 0⟩] []).Priced :=
  graph_priced [⟨0, 1, 0⟩] [] fun _ mem => absurd mem List.not_mem_nil

theorem fhk_prune_run_backed_space : (start [⟨0, 1, 0⟩] [] false).Backed space_priced := by
  obtain ⟨P', run⟩ := space_run
  exact Prune.fhk_prune_run_backed space_priced space_linked _ (start_fresh _ _ _) space_positive space_covered 20 P' run

end EmptySubset
end M2.Fhk
