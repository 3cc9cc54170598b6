import Mathlib.Data.Set.Card
import Mathlib.Data.Set.Finite.Lattice
import Mathlib.Algebra.Order.BigOperators.Group.Finset
import Mathlib.Data.Fintype.Prod
import M2.Fhk.SearchSteps

/-!
# The potential of a search

On a graph without cycles through parameters and computed shadows only finitely many
costs can ever be written: a model instance gets a cost from a partial sum of its
position in the loops, a variable instance from a model instance. The potential counts
what the search can still raise, evaluate or solve; no step increases it.
-/
namespace M2.Fhk
open M2.Lib

namespace Graph
variable (G : Graph)

/-- `y` is a computed parameter or a computed shadow variable of a model of `x`. -/
def Depends (y x : Fin G.nv) : Prop :=
  ∃ edge ∈ (G.vars x).models,
    (∃ e ∈ (G.models edge.idx).cparams, e.idx = y) ∨
    (∃ e ∈ (G.models edge.idx).shadows, e.computed = true ∧ (G.shadows e.idx).xi = y)

/-- No cycles through parameters and shadows. -/
def Acyclic : Prop := WellFounded G.Depends

variable {G}

theorem candInsts_edge {maps : Maps} {x : G.VI} {ei : Nat} {m : G.MI}
    (cand : (ei, m) ∈ candInsts (xcands maps x)) : ∃ edge ∈ (G.vars x.1).models, edge.idx = m.1 := by
  simp only [candInsts, xcands, List.mem_flatMap, List.mem_filter, List.mem_map] at cand
  obtain ⟨_, ⟨⟨e, he, rfl⟩, _⟩, i, _, same⟩ := cand
  refine ⟨e.1, ?_, congrArg (fun p => p.2.1) same⟩
  exact List.mem_iff_getElem?.mpr ⟨e.2, List.mem_zipIdx_iff_getElem?.mp he⟩

theorem alts_edge {maps : Maps} {x : G.VI} {m : G.MI} (alt : m ∈ G.alts maps x) :
    ∃ edge ∈ (G.vars x.1).models, edge.idx = m.1 := by
  obtain ⟨c, hc, rfl⟩ := List.mem_map.mp alt
  exact candInsts_edge hc

theorem prems_depends {maps : Maps} {x u : G.VI} {m : G.MI} (alt : m ∈ G.alts maps x)
    (prem : u ∈ G.prems maps m) : G.Depends u.1 x.1 := by
  obtain ⟨edge, he, same⟩ := alts_edge alt
  obtain ⟨e, mem, hu, _⟩ := mem_prems.mp prem
  exact ⟨edge, he, .inl ⟨e, by rw [same]; exact List.mem_reverse.mp mem, hu⟩⟩

end Graph

namespace Problem
variable (P : Problem)

/-- The penalties of the shadow edges `done` of a model instance. -/
noncomputable def penalties (m : P.G.MI) (done : List (ShEdge P.G.nw)) : Cost :=
  (done.map (P.G.penaltyOf P.maps P.pass m.2)).sum

/-- The true costs of the parameter edges `done` of a model instance. -/
noncomputable def paramCosts (m : P.G.MI) (done : List (Edge P.G.nv)) : Cost :=
  (done.map (P.G.paramCost P.maps m.2 P.sys.opt)).sum

mutual
/-- The costs that can be written to a variable instance. -/
inductive VarVal : P.G.VI → Cost → Prop
  | zero (u) : VarVal u 0
  | top (u) : VarVal u ⊤
  | mark (u) : VarVal u SP_MARK
  | model (u m t) (alt : m ∈ P.G.alts P.maps u) (val : ModelVal m t) : VarVal u t

/-- The costs that can be written to a model instance. -/
inductive ModelVal : P.G.MI → Cost → Prop
  | cmin (m) : ModelVal m (P.G.models m.1).cmin
  | penalty (m done e) (before : done <+: (P.G.models m.1).shadows) (edge : e ∈ (P.G.models m.1).shadows) :
      ModelVal m ((P.G.models m.1).costf (P.penalties m done + e.penalty))
  | param (m done u w) (before : done <+: (P.G.models m.1).cparams.reverse) (prem : u ∈ P.G.prems P.maps m)
      (val : VarVal u w) :
      ModelVal m ((P.G.models m.1).costf
        (P.penalties m (P.G.models m.1).shadows + P.paramCosts m done + w))
  | solved (m) :
      ModelVal m ((P.G.models m.1).costf
        (P.penalties m (P.G.models m.1).shadows + P.paramCosts m (P.G.models m.1).cparams.reverse))
end

variable {P}

theorem finite_prefixes {α : Type*} (l : List α) : {done : List α | done <+: l}.Finite := by
  refine (List.finite_toSet l.inits).subset fun done before => ?_
  exact (List.mem_inits done l).mpr before

theorem modelVal_finite {m : P.G.MI} (prems : ∀ u ∈ P.G.prems P.maps m, {t | P.VarVal u t}.Finite) :
    {t | P.ModelVal m t}.Finite := by
  let costf := (P.G.models m.1).costf
  let shadows := (P.G.models m.1).shadows
  let params := (P.G.models m.1).cparams.reverse
  have penalty : (Set.image2 (fun done (e : ShEdge P.G.nw) => costf (P.penalties m done + e.penalty))
      {done | done <+: shadows} {e | e ∈ shadows}).Finite :=
    (finite_prefixes shadows).image2 _ (List.finite_toSet shadows)
  have param : (Set.image2 (fun done w => costf (P.penalties m shadows + P.paramCosts m done + w))
      {done | done <+: params} (⋃ u ∈ {u | u ∈ P.G.prems P.maps m}, {w | P.VarVal u w})).Finite :=
    (finite_prefixes params).image2 _ (Set.Finite.biUnion (List.finite_toSet _) prems)
  refine ((Set.finite_singleton (P.G.models m.1).cmin).union (penalty.union (param.union
    (Set.finite_singleton (costf (P.penalties m shadows + P.paramCosts m params)))))).subset ?_
  intro t val
  cases val with
  | cmin => exact .inl rfl
  | penalty _ done e before edge => exact .inr (.inl ⟨done, before, e, edge, rfl⟩)
  | param _ done u w before prem val =>
    exact .inr (.inr (.inl ⟨done, before, w, Set.mem_biUnion prem val, rfl⟩))
  | solved => exact .inr (.inr (.inr rfl))

theorem varVal_finite (acyclic : P.G.Acyclic) (u : P.G.VI) : {t | P.VarVal u t}.Finite := by
  obtain ⟨x, i⟩ := u
  induction x using acyclic.induction generalizing i with
  | h x ih =>
    have models : (⋃ m ∈ {m | m ∈ P.G.alts P.maps (x, i)}, {t | P.ModelVal m t}).Finite :=
      Set.Finite.biUnion (List.finite_toSet _) fun m alt => modelVal_finite fun u prem =>
        ih u.1 (Graph.prems_depends alt prem) u.2
    refine ((Set.toFinite {0, ⊤, SP_MARK}).union models).subset ?_
    intro t val
    cases val with
    | zero => exact .inl (by simp)
    | top => exact .inl (by simp)
    | mark => exact .inl (by simp)
    | model _ m t alt val => exact .inr (Set.mem_biUnion alt val)

theorem modelVal_finite' (acyclic : P.G.Acyclic) (m : P.G.MI) : {t | P.ModelVal m t}.Finite :=
  modelVal_finite fun u _ => varVal_finite acyclic u

variable (P)

/-- The costs a model instance can still be raised to. -/
noncomputable def above (s : Search P.G) (m : P.G.MI) : Nat :=
  {t | P.ModelVal m t ∧ (s.ms m).cost < t}.ncard

/-- What is left to raise, to check and to solve. -/
noncomputable def potential (s : Search P.G) : Nat :=
  (∑ m : P.G.MI, P.above s m) + {w : P.G.WI | (s.ss w).eval = false}.ncard +
    {u : P.G.VI | (s.vs u).chain = none}.ncard

/-- A change that lowers no cost of a model instance, clears no evaluated bit and drops
no chain. -/
structure Rises {P : Problem} (s s' : Search P.G) : Prop where
  cost : ∀ m, (s.ms m).cost ≤ (s'.ms m).cost
  eval : ∀ w, (s.ss w).eval = true → (s'.ss w).eval = true
  chain : ∀ u, (s.vs u).chain.isSome = true → (s'.vs u).chain.isSome = true

variable {P} {s s' : Search P.G}

theorem Rises.of_eq (ms : ∀ m, (s'.ms m).cost = (s.ms m).cost) (ss : s'.ss = s.ss)
    (chain : ∀ u, (s'.vs u).chain = (s.vs u).chain) : Rises s s' :=
  ⟨fun m => (ms m).ge, fun w => by rw [ss]; exact id, fun u => by rw [chain]; exact id⟩

theorem Rises.above_le (acyclic : P.G.Acyclic) (rises : Rises s s') (m : P.G.MI) :
    P.above s' m ≤ P.above s m :=
  Set.ncard_le_ncard (fun _ h => ⟨h.1, (rises.cost m).trans_lt h.2⟩)
    ((modelVal_finite' acyclic m).subset fun _ h => h.1)

theorem Rises.evals_subset (rises : Rises s s') :
    {w : P.G.WI | (s'.ss w).eval = false} ⊆ {w | (s.ss w).eval = false} := by
  intro w unset
  by_contra set
  have := rises.eval w (by simpa using set)
  rw [show (s'.ss w).eval = false from unset] at this
  cases this

theorem Rises.chains_subset (rises : Rises s s') :
    {u : P.G.VI | (s'.vs u).chain = none} ⊆ {u | (s.vs u).chain = none} := by
  intro u unset
  by_contra set
  have := rises.chain u (Option.ne_none_iff_isSome.mp set)
  rw [show (s'.vs u).chain = none from unset] at this
  cases this

/-- The potential never rises. -/
theorem Rises.potential_le (acyclic : P.G.Acyclic) (rises : Rises s s') :
    P.potential s' ≤ P.potential s :=
  add_le_add (add_le_add (Finset.sum_le_sum fun m _ => rises.above_le acyclic m)
    (Set.ncard_le_ncard rises.evals_subset)) (Set.ncard_le_ncard rises.chains_subset)

/-- Raising the cost of a model instance lowers the potential. -/
theorem Rises.potential_lt_of_cost (acyclic : P.G.Acyclic) (rises : Rises s s') {m : P.G.MI}
    (val : P.ModelVal m (s'.ms m).cost) (raised : (s.ms m).cost < (s'.ms m).cost) :
    P.potential s' < P.potential s := by
  have strict : P.above s' m < P.above s m := by
    refine Set.ncard_lt_ncard ⟨fun _ h => ⟨h.1, (rises.cost m).trans_lt h.2⟩, fun sub => ?_⟩
      ((modelVal_finite' acyclic m).subset fun _ h => h.1)
    exact absurd (sub (a := (s'.ms m).cost) ⟨val, raised⟩).2 (lt_irrefl _)
  have sum : ∑ m : P.G.MI, P.above s' m < ∑ m : P.G.MI, P.above s m :=
    Finset.sum_lt_sum (fun m _ => rises.above_le acyclic m) ⟨m, Finset.mem_univ m, strict⟩
  exact add_lt_add_of_lt_of_le (add_lt_add_of_lt_of_le sum (Set.ncard_le_ncard rises.evals_subset))
    (Set.ncard_le_ncard rises.chains_subset)

/-- Evaluating a shadow instance lowers the potential. -/
theorem Rises.potential_lt_of_eval (acyclic : P.G.Acyclic) (rises : Rises s s') {w : P.G.WI}
    (before : (s.ss w).eval = false) (after : (s'.ss w).eval = true) :
    P.potential s' < P.potential s := by
  have strict : {w : P.G.WI | (s'.ss w).eval = false}.ncard < {w : P.G.WI | (s.ss w).eval = false}.ncard := by
    refine Set.ncard_lt_ncard ⟨rises.evals_subset, fun sub => ?_⟩
    have unset : (s'.ss w).eval = false := sub (a := w) before
    rw [after] at unset
    cases unset
  exact add_lt_add_of_lt_of_le
    (add_lt_add_of_le_of_lt (Finset.sum_le_sum fun m _ => rises.above_le acyclic m) strict)
    (Set.ncard_le_ncard rises.chains_subset)

/-- Solving a variable instance lowers the potential. -/
theorem Rises.potential_lt_of_chain (acyclic : P.G.Acyclic) (rises : Rises s s') {u : P.G.VI}
    (before : (s.vs u).chain = none) (after : (s'.vs u).chain.isSome = true) :
    P.potential s' < P.potential s := by
  have strict : {u : P.G.VI | (s'.vs u).chain = none}.ncard < {u : P.G.VI | (s.vs u).chain = none}.ncard := by
    refine Set.ncard_lt_ncard ⟨rises.chains_subset, fun sub => ?_⟩
    have unset : (s'.vs u).chain = none := sub (a := u) before
    rw [unset] at after
    cases after
  exact add_lt_add_of_le_of_lt
    (add_le_add (Finset.sum_le_sum fun m _ => rises.above_le acyclic m)
      (Set.ncard_le_ncard rises.evals_subset)) strict

end Problem
end M2.Fhk
