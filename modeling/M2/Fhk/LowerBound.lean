import Mathlib
import M2.Fhk.SearchSteps

/-!
# Lower bounds over a whole session

A session is a sequence of `S_select_chain` calls on one solver, with `S_compute_value`
calls in between. In every state of a session, also inside a call and after an exit, the
costs are lower bounds and the recorded chains are exact, as long as the block after the
loops is entered below its bound. With `cmin` below `k` it need not be.
-/
namespace M2.Fhk
open M2.Lib

/-- The states of a session, each with the instance of its last call, where every state
that a step leaves satisfies `good`. -/
inductive Session (P : Problem) {V : Type} (ops : Ops P.G V) (good : Config P.G V → Prop) :
    P.G.VI → Config P.G V → Prop
  | start (v : V) (x : P.G.VI) (computed : P.G.given x.1 = false) :
      Session P ops good x (selectChain (Search.init P.G) v x)
  | step {root : P.G.VI} {c c' : Config P.G V} (before : Session P ops good root c) (ok : good c)
      (taken : step P.maps ops c = some c') : Session P ops good root c'
  | compute {root : P.G.VI} {c : Config P.G V} (before : Session P ops good root c)
      (returned : c.pc = .done none) (v : V) (x : P.G.VI) (chain : (c.s.vs x).chain.isSome = true)
      (s' : Search P.G) (v' : V) (computed : ops.compute c.s v x = .ok (s', v')) :
      Session P ops good root { c with s := s', v := v' }
  | call {root : P.G.VI} {c : Config P.G V} (before : Session P ops good root c)
      (returned : c.pc = .done none) (v : V) (x : P.G.VI) (computed : P.G.given x.1 = false)
      (fresh : c.s.done x = false) : Session P ops good x (selectChain c.s v x)

namespace Session
variable {P : Problem} {V : Type} {ops : Ops P.G V} {good : Config P.G V → Prop} {root : P.G.VI}
  {c : Config P.G V}

theorem run {c' : Config P.G V} (before : Session P ops (fun _ => True) root c)
    (steps : Run.Reaches (Fhk.step P.maps ops) c c') : Session P ops (fun _ => True) root c' := by
  induction steps with
  | refl => exact before
  | tail _ last ih => exact ih.step trivial last

/-- A call starts with the invariant. -/
theorem start_inv {s : Search P.G} {v : V} {x : P.G.VI} (search : P.SearchOk s)
    (settled : P.Settled s []) (marks : P.Tight → ∀ u, s.marked u = false)
    (unchained : (s.vs x).chain = none) : P.Inv x (selectChain s v x) where
  search := search
  nodup := List.nodup_nil
  at' := ⟨⟨rfl, rfl⟩, unchained⟩
  settled := settled
  marks tight u marked := by
    rw [show (selectChain s v x).s = s from rfl, marks tight u] at marked
    cases marked

theorem unmarked (inv : P.Inv root c) (returned : c.pc = .done none) :
    P.Tight → ∀ u, c.s.marked u = false := by
  intro tight u
  have at' := inv.at'
  rw [returned] at at'
  by_contra marked
  rcases inv.marks tight u (by simpa using marked) with ⟨e, exited⟩ | mem
  · rw [returned] at exited; cases exited
  · rw [returned, at'.1] at mem
    cases mem

theorem settled (inv : P.Inv root c) (returned : c.pc = .done none) : P.Settled c.s [] := by
  have := inv.settled
  rwa [returned] at this

theorem inv (around : P.Surroundings ops) (low : P.CminLow) (solvable : P.Solvable)
    (session : Session P ops P.Good root c) : P.Inv root c := by
  induction session with
  | start v x _ =>
    have clear : ∀ u, (Search.init P.G).marked u = false := fun u => by simp [Search.marked, Search.init]
    exact start_inv (.init low) (fun u some => by simp [Search.init] at some) (fun _ => clear) rfl
  | step _ ok taken ih => exact ih.step around solvable ok taken
  | compute _ returned v x chain s' v' computed ih =>
    obtain ⟨same, value⟩ := around.compute _ _ _ _ _ ih.search chain computed
    refine ih.update (ih.search.same same value) same.marked (fun u => by rw [same.chain]; exact id)
      ih.nodup ?_ rfl (by rw [returned]; rfl) (by rw [returned]; simp)
    have at' := ih.at'
    rw [returned] at at' ⊢
    exact ⟨at'.1, by rw [same.chain]; exact at'.2.1, by rw [same.marked]; exact at'.2.2.1,
      by rw [same.cost]; exact at'.2.2.2⟩
  | call _ returned v x _ fresh ih =>
    refine start_inv ih.search (settled ih returned) (unmarked ih returned) ?_
    simp only [Search.done, Bool.or_eq_false_iff] at fresh
    exact Option.isNone_iff_eq_none.mp (by simpa using fresh.1)

/-- Where every bound covers the constant of its model, every session is good. -/
theorem good_of_tight (around : P.Surroundings ops) (low : P.CminLow) (solvable : P.Solvable)
    (tight : P.Tight) (session : Session P ops (fun _ => True) root c) :
    Session P ops P.Good root c := by
  induction session with
  | start v x computed => exact .start v x computed
  | step _ _ taken ih => exact ih.step ((ih.inv around low solvable).good tight) taken
  | compute _ returned v x chain s' v' computed ih => exact ih.compute returned v x chain s' v' computed
  | call _ returned v x computed fresh ih => exact ih.call returned v x computed fresh

end Session

/-- In every state of a session in which each chain is solved below the bound of its
frame, every cost is at most the true cost, and it is the true cost where a chain is
recorded and the instance is not being searched. -/
theorem session_costs (P : Problem) {V : Type} (ops : Ops P.G V) (around : P.Surroundings ops)
    (low : P.CminLow) (solvable : P.Solvable) (root : P.G.VI) (c : Config P.G V)
    (session : Session P ops P.Good root c) :
    (∀ u, (c.s.vs u).cost ∈ lowerBounds (P.sys.costs u)) ∧
    (∀ m, (c.s.ms m).cost ∈ lowerBounds (P.sys.altCosts m)) ∧
    (∀ u, (c.s.vs u).chain.isSome = true → c.s.marked u = false →
      IsLeast (P.sys.costs u) (c.s.vs u).cost) ∧
    (∀ m, (c.s.ms m).chain = true → IsLeast (P.sys.altCosts m) (c.s.ms m).cost) := by
  have search := (session.inv around low solvable).search
  exact ⟨search.var_low, search.model_low, search.var_exact, search.model_exact⟩

namespace LowBound

/-- Two models of one variable: `k = 5` started at `cmin`, and `k = 1`. -/
def graph (cmin : Cost) : Graph where
  nv := 1
  nm := 2
  nw := 0
  ng := 1
  vars _ := ⟨[⟨0, MAP_IDENT, 0⟩, ⟨1, MAP_IDENT, 0⟩], [], 0, 8⟩
  models m := ⟨0, [], [], 0, [⟨0, MAP_IDENT, 0⟩], true, if m.val = 0 then 5 else 1, 1,
    if m.val = 0 then cmin else 1⟩
  shadows w := w.elim0

theorem graph_valid (cmin : Cost) : (graph cmin).Valid where
  model m := by
    refine ⟨?_, le_rfl, fun e he => by cases he⟩
    simp only [graph]
    split <;> norm_num
  computed m e := e.idx.elim0

def problem (cmin : Cost) : Problem where
  G := graph cmin
  valid := graph_valid cmin
  maps := ⟨fun _ => 1, fun _ _ => []⟩
  pass w := w.elim0

def ops (cmin : Cost) : Ops (problem cmin).G Unit where
  vexpandsp _ _ := .ok ()
  vexpandbe _ _ _ := .ok ()
  mexpandbe _ _ _ := .ok ()
  compute s _ _ := .ok (s, ())
  given1 _ _ := .ok ()
  scanGiven _ _ _ := []
  guard _ w := w.elim0

def root (cmin : Cost) : (problem cmin).G.VI := (⟨0, Nat.one_pos⟩, 0)

theorem around (cmin : Cost) : (problem cmin).Surroundings (ops cmin) where
  guard _ w := w.elim0
  compute s _ _ s' _ ok _ taken := by
    cases taken
    exact ⟨⟨rfl, fun _ => rfl, fun _ => rfl, fun _ => rfl, fun _ => rfl⟩, ok.value_chain⟩
  exits e h := by cases h <;> rename_i exited <;> cases exited

theorem low {cmin : Cost} (h : cmin ≤ 5) : (problem cmin).CminLow := by
  intro m t through
  refine le_trans ?_ (Problem.k_low m through)
  simp only [problem, graph]
  split
  · exact h
  · exact le_rfl

theorem tight {cmin : Cost} (h : 5 ≤ cmin) : (problem cmin).Tight := by
  intro m
  simp only [problem, graph]
  split
  · exact h
  · exact le_rfl

theorem solvable (cmin : Cost) : (problem cmin).Solvable := fun w => w.elim0

/-- The second model derives the variable at cost 1. -/
theorem derives_one (cmin : Cost) : (problem cmin).sys.Derives (root cmin) 1 := by
  have value : (problem cmin).sys.value (⟨1, Nat.one_lt_two⟩, 0) (fun _ => 0) = 1 := by
    show Cost.affine 1 1 (0 + 0) = 1
    rw [add_zero, ← WithTop.coe_zero, Cost.affine_coe]
    norm_num
  rw [← value]
  exact .intro _ _ _ (List.mem_cons_of_mem _ (List.mem_singleton.mpr rfl)) (fun u hu => by cases hu)

/-- The run of the call for the variable. -/
def run (cmin : Cost) : Option (Config (problem cmin).G Unit) :=
  Run.steps (step (problem cmin).maps (ops cmin)) 6
    (selectChain (Search.init (problem cmin).G) () (root cmin))

/-- The chain the call records, with its cost. -/
def chosen (cmin : Cost) : Option VSp := (run cmin).map fun c => c.s.vs (root cmin)

theorem run_session {cmin : Cost} {c : Config (problem cmin).G Unit} (taken : run cmin = some c) :
    Session (problem cmin) (ops cmin) (fun _ => True) (root cmin) c :=
  (Session.start (P := problem cmin) () (root cmin) rfl).run (Run.steps_reaches taken)

end LowBound

/-- With `cmin` equal to `k`, the call selects the second model at its true cost. -/
theorem session_costs_tight : ∃ c : Config (LowBound.problem 5).G Unit,
    (c.s.vs (LowBound.root 5)).cost = 1 ∧
    IsLeast ((LowBound.problem 5).sys.costs (LowBound.root 5)) (c.s.vs (LowBound.root 5)).cost := by
  have chosen : LowBound.chosen 5 = some ⟨1, some (1, 0), false, true⟩ := by decide +kernel
  obtain ⟨c, taken, record⟩ := Option.map_eq_some_iff.mp chosen
  have session := (LowBound.run_session taken).good_of_tight (LowBound.around 5) (LowBound.low le_rfl)
    (LowBound.solvable 5) (LowBound.tight le_rfl)
  have exact' := (session_costs (LowBound.problem 5) (LowBound.ops 5) (LowBound.around 5)
    (LowBound.low le_rfl) (LowBound.solvable 5) _ c session).2.2.1 (LowBound.root 5)
  refine ⟨c, by rw [record], exact' (by rw [record]; rfl) ?_⟩
  rw [Search.marked_false_iff, record]
  exact zero_le_one

/-- With `cmin` 0 and `k` 5, the call records the first model at cost 5 although the
variable has a chain of cost 1. -/
theorem low_bound_unsound :
    (LowBound.problem 0).Surroundings (LowBound.ops 0) ∧ (LowBound.problem 0).CminLow ∧
    (LowBound.problem 0).Solvable ∧
    ∃ c : Config (LowBound.problem 0).G Unit,
      Session (LowBound.problem 0) (LowBound.ops 0) (fun _ => True) (LowBound.root 0) c ∧
      (c.s.vs (LowBound.root 0)).chain.isSome = true ∧ c.s.marked (LowBound.root 0) = false ∧
      (c.s.vs (LowBound.root 0)).cost = 5 ∧
      (c.s.vs (LowBound.root 0)).cost ∉ lowerBounds ((LowBound.problem 0).sys.costs (LowBound.root 0)) := by
  have chosen : LowBound.chosen 0 = some ⟨5, some (0, 0), false, true⟩ := by decide +kernel
  obtain ⟨c, taken, record⟩ := Option.map_eq_some_iff.mp chosen
  refine ⟨LowBound.around 0, LowBound.low (by decide +kernel), LowBound.solvable 0, c,
    LowBound.run_session taken, by rw [record]; rfl, ?_, by rw [record], fun low => ?_⟩
  · rw [Search.marked_false_iff, record]
    decide +kernel
  · have := low (LowBound.derives_one 0)
    rw [record] at this
    exact absurd this (by decide +kernel)

end M2.Fhk
