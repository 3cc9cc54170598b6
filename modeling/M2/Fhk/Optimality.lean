import Mathlib
import M2.Fhk.Progress
import M2.Fhk.LowerBound

/-!
# The chain solver finds a cheapest chain

On an acyclic graph a call of `S_select_chain`, made in any state that earlier successful
calls have left, ends. Unless a depth limit or one of the operations it calls stops it, it
returns the recursive minimum over the candidate model instances, or exits through
`JE_nchain` where that minimum is above `MAX_COST`.
-/
namespace M2.Fhk
open M2.Lib

namespace Problem
variable {P : Problem} {V : Type} {ops : Ops P.G V} {root : P.G.VI} {c : Config P.G V}

theorem before_wf (acyclic : P.G.Acyclic) : WellFounded P.sys.Before :=
  Subrelation.wf (fun ⟨_, alt, prem⟩ => Graph.prems_depends alt prem) (InvImage.wf Prod.fst acyclic)

/-- The recursive minimum over the candidate model instances, of `k` plus `c` times the
penalties and the largest cost in each mapped subset. -/
noncomputable def minCost (P : Problem) (acyclic : P.G.Acyclic) : P.G.VI → Cost :=
  P.sys.minCost (before_wf acyclic)

theorem minCost_eq (acyclic : P.G.Acyclic) (x : P.G.VI) :
    P.minCost acyclic x =
      AndOr.listMin ((P.G.alts P.maps x).map fun m => P.G.modelCost P.maps P.pass m (P.minCost acyclic)) :=
  P.sys.minCost_eq (before_wf acyclic) x

theorem value_strict (m : P.G.MI) (f : P.G.VI → Cost) (finite : P.sys.value m f ≠ ⊤) (u : P.G.VI)
    (prem : u ∈ P.sys.prems m) : f u ≠ ⊤ := by
  intro top
  refine finite ?_
  obtain ⟨e, he, hu, hi⟩ := Graph.mem_prems.mp prem
  have param : P.G.paramCost P.maps m.2 f e = ⊤ := by
    refine top_le_iff.mp ?_
    rw [← top, show u = (e.idx, u.2) from Prod.ext hu.symm rfl]
    exact Graph.le_paramCost hi
  have sum : ((P.G.models m.1).cparams.reverse.map (P.G.paramCost P.maps m.2 f)).sum = ⊤ := by
    refine top_le_iff.mp ?_
    rw [← param]
    exact List.single_le_sum (by
      intro t ht
      obtain ⟨e', _, rfl⟩ := List.mem_map.mp ht
      exact Graph.paramCost_nonneg _ _ _) _ (List.mem_map.mpr ⟨e, he, rfl⟩)
  show Cost.affine _ _ (_ + _) = ⊤
  rw [sum, add_top]
  rfl

theorem init_tame : (∀ u, P.VarVal u ((Search.init P.G).vs u).cost) ∧
    ∀ m, P.ModelVal m ((Search.init P.G).ms m).cost :=
  ⟨fun u => .zero u, fun m => .cmin m⟩

theorem start_tame {s : Search P.G} {v : V} {x : P.G.VI} (vars : ∀ u, P.VarVal u (s.vs u).cost)
    (models : ∀ m, P.ModelVal m (s.ms m).cost) : P.Tame ops (selectChain s v x) :=
  ⟨vars, models, fun f hf => (by cases hf), trivial⟩

/-- The states of a session are tame. -/
theorem session_tame (around : P.Surroundings ops) (low : P.CminLow) (solvable : P.Solvable)
    (tight : P.Tight) (acyclic : P.G.Acyclic) (session : Session P ops (fun _ => True) root c) :
    P.Tame ops c := by
  induction session with
  | start v x _ => exact start_tame init_tame.1 init_tame.2
  | step before _ taken ih =>
    have inv := (before.good_of_tight around low solvable tight).inv around low solvable
    exact (Advance.step around acyclic tight inv ih taken).tame
  | compute before returned v x chain s' v' computed ih =>
    have inv := (before.good_of_tight around low solvable tight).inv around low solvable
    obtain ⟨same, _⟩ := around.compute _ _ _ _ _ inv.search chain computed
    have at' := ih.at'
    refine ⟨fun u => by rw [same.cost]; exact ih.vars u, fun m => by rw [same.mcost]; exact ih.models m,
      fun f hf => by rw [same.mcost]; exact ih.frames f hf, ?_⟩
    rw [returned]
    trivial
  | call _ _ v x _ _ ih => exact start_tame ih.vars ih.models

end Problem

/-- How a call for `x` can end. -/
inductive Outcome (P : Problem) {V : Type} (ops : Ops P.G V) (acyclic : P.G.Acyclic) (x : P.G.VI)
    (c : Config P.G V) : Prop
  | solved (ei : Nat) (m : P.G.MI) (returned : c.pc = .done none)
      (recorded : (c.s.vs x).chain = some (ei, m.2)) (cand : (ei, m) ∈ candInsts (xcands P.maps x))
      (cost : (c.s.vs x).cost = P.minCost acyclic x)
      (attained : P.G.modelCost P.maps P.pass m (P.minCost acyclic) = P.minCost acyclic x)
      (bound : P.minCost acyclic x ≤ (MAX_COST : Cost))
  | failed (exited : c.pc = .done (some (.nchain x.1 x.2))) (exceeds : (MAX_COST : Cost) < P.minCost acyclic x)
  | depth (xi : Nat) (inst : Inst) (exited : c.pc = .done (some (.maxdepth xi inst)))
  | surroundings (e : Exit) (exited : c.pc = .done (some e)) (exits : ops.Exits e)
      (notNyi : e ≠ .nyi)

open Problem in
/-- `S_select_chain` ends, and where no depth limit or operation stops it, with a cheapest
chain or, if none costs at most `MAX_COST`, with `JE_nchain`. -/
theorem select_chain_optimal (P : Problem) {V : Type} (ops : Ops P.G V) (around : P.Surroundings ops)
    (low : P.CminLow) (solvable : P.Solvable) (tight : P.Tight) (acyclic : P.G.Acyclic)
    (s : Search P.G) (v : V) (x : P.G.VI)
    (session : Session P ops (fun _ => True) x (selectChain s v x)) :
    ∃ c, Run.Reaches (step P.maps ops) (selectChain s v x) c ∧ step P.maps ops c = none ∧
      Outcome P ops acyclic x c := by
  have inv := (session.good_of_tight around low solvable tight).inv around low solvable
  have tame := session_tame around low solvable tight acyclic session
  obtain ⟨c, run, ⟨inv, tame⟩, halted⟩ := Run.halts_of_decreasing (P.smaller_wf acyclic)
    (I := fun c => P.Inv x c ∧ P.Tame ops c) (P.size x)
    (fun a b ⟨inv, tame⟩ taken =>
      ⟨inv.step around solvable (inv.good tight) taken, (Advance.step around acyclic tight inv tame taken).tame⟩)
    (fun a b ⟨inv, tame⟩ taken => (Advance.step around acyclic tight inv tame taken).smaller)
    (selectChain s v x) ⟨inv, tame⟩
  refine ⟨c, run, halted, ?_⟩
  have at' := inv.at'
  have tameAt := tame.at'
  cases pc : c.pc with
  | done e =>
    rw [pc] at at' tameAt
    cases e with
    | none =>
      obtain ⟨_, chain, clear, bound⟩ := at'
      have least := inv.search.var_exact x chain clear
      have cost := P.sys.minCost_of_least (before_wf acyclic) value_strict least
      obtain ⟨⟨ei, j⟩, recorded⟩ := Option.isSome_iff_exists.mp chain
      obtain ⟨m_i, cand, _, t, leastVar, leastModel⟩ := inv.search.chain_model x ei j recorded
      have alt : (m_i, j) ∈ P.sys.alts x := List.mem_map.mpr ⟨_, cand, rfl⟩
      refine .solved ei (m_i, j) pc recorded cand cost ?_ (cost.symm.trans_le bound)
      exact P.sys.minCost_attained (before_wf acyclic) value_strict alt leastVar leastModel.1
    | some e =>
      rcases tameAt with exits | ⟨xi, inst, rfl⟩ | ⟨xi, inst, rfl⟩
      · exact .surroundings e pc exits (by rintro rfl; cases around.exits _ exits)
      · exact .depth xi inst pc
      · obtain ⟨_, rfl, rfl, b, exceeds, low⟩ := at'
        refine .failed pc ?_
        by_cases finite : P.minCost acyclic x = ⊤
        · rw [finite]
          exact WithTop.coe_lt_top _
        · exact exceeds.trans_le (low (P.sys.minCost_derives (before_wf acyclic) value_strict x finite))
  | _ =>
    unfold step at halted
    simp [pc] at halted

namespace LowBound

theorem acyclic (cmin : Cost) : (problem cmin).G.Acyclic := by
  refine ⟨fun x => ⟨x, fun y depends => ?_⟩⟩
  obtain ⟨edge, _, ⟨e, he, _⟩ | ⟨e, he, _⟩⟩ := depends <;> cases he

end LowBound

/-- The call on two models without parameters ends, with the outcome stated above. -/
theorem select_chain_optimal_two : ∃ c : Config (LowBound.problem 5).G Unit,
    Run.Reaches (step (LowBound.problem 5).maps (LowBound.ops 5))
      (selectChain (Search.init (LowBound.problem 5).G) () (LowBound.root 5)) c ∧
    step (LowBound.problem 5).maps (LowBound.ops 5) c = none ∧
    Outcome (LowBound.problem 5) (LowBound.ops 5) (LowBound.acyclic 5) (LowBound.root 5) c :=
  select_chain_optimal (LowBound.problem 5) (LowBound.ops 5) (LowBound.around 5)
    (LowBound.low le_rfl) (LowBound.solvable 5) (LowBound.tight le_rfl) (LowBound.acyclic 5)
    (Search.init (LowBound.problem 5).G) () (LowBound.root 5) (.start () (LowBound.root 5) rfl)

namespace OverLimit

/-- One model of a variable with `k = MAX_COST` and a check on a given variable that costs
1 when it fails. -/
def graph : Graph where
  nv := 2
  nm := 1
  nw := 1
  ng := 1
  vars x := if x.val = 0 then ⟨[⟨⟨0, Nat.one_pos⟩, MAP_IDENT, 0⟩], [], 0, 8⟩ else ⟨[], [], 0, 8⟩
  models _ := ⟨0, [⟨⟨0, Nat.one_pos⟩, MAP_IDENT, false, (1 : ℚ)⟩], [], 0, [⟨⟨0, Nat.two_pos⟩, MAP_IDENT, 0⟩], true,
    MAX_COST, 1, (MAX_COST : Cost)⟩
  shadows _ := ⟨⟨1, Nat.one_lt_two⟩, 0⟩

def problem : Problem where
  G := graph
  valid := {
    model := fun m => ⟨show (0 : ℚ) ≤ MAX_COST by norm_num [MAX_COST], le_rfl, by
      intro e he
      cases List.mem_singleton.mp he
      exact WithTop.coe_le_coe.mpr zero_le_one⟩
    computed := by
      intro m e he
      cases List.mem_singleton.mp he
      rfl }
  maps := ⟨fun _ => 1, fun _ _ => []⟩
  pass _ _ := false

def ops : Ops problem.G Unit where
  vexpandsp _ _ := .ok ()
  vexpandbe _ _ _ := .ok ()
  mexpandbe _ _ _ := .ok ()
  compute s _ _ := .ok (s, ())
  given1 _ _ := .ok ()
  scanGiven _ _ _ := []
  guard _ _ _ := false

def root : problem.G.VI := (⟨0, Nat.two_pos⟩, 0)

theorem around : problem.Surroundings ops where
  guard _ _ _ := rfl
  compute s _ _ s' _ ok _ taken := by
    cases taken
    exact ⟨⟨rfl, fun _ => rfl, fun _ => rfl, fun _ => rfl, fun _ => rfl⟩, ok.value_chain⟩
  exits e h := by cases h <;> rename_i exited <;> cases exited

theorem low : problem.CminLow := fun m _ through => Problem.k_low m through

theorem solvable : problem.Solvable := fun _ _ passed => by cases passed

theorem tight : problem.Tight := fun _ => le_rfl

theorem acyclic : problem.G.Acyclic := by
  refine ⟨fun x => ⟨x, fun y depends => ?_⟩⟩
  obtain ⟨edge, _, ⟨e, he, _⟩ | ⟨e, he, computed, _⟩⟩ := depends
  · cases he
  · cases List.mem_singleton.mp he
    cases computed

theorem minCost_root : problem.minCost acyclic root = ((MAX_COST + 1 : ℚ) : Cost) := by
  rw [Problem.minCost_eq]
  show AndOr.listMin [Cost.affine MAX_COST 1 (1 + 0 + 0)] = _
  decide +kernel

end OverLimit

/-- A variable whose only chain costs `MAX_COST + 1`: the call does not return it but exits
through `JE_nchain`. -/
theorem select_chain_over_limit :
    OverLimit.problem.Surroundings OverLimit.ops ∧ OverLimit.problem.CminLow ∧
    OverLimit.problem.Solvable ∧ OverLimit.problem.Tight ∧
    OverLimit.problem.minCost OverLimit.acyclic OverLimit.root = ((MAX_COST + 1 : ℚ) : Cost) ∧
    Session OverLimit.problem OverLimit.ops (fun _ => True) OverLimit.root
      (selectChain (Search.init OverLimit.problem.G) () OverLimit.root) ∧
    ∃ c : Config OverLimit.problem.G Unit,
      Run.Reaches (step OverLimit.problem.maps OverLimit.ops)
        (selectChain (Search.init OverLimit.problem.G) () OverLimit.root) c ∧
      step OverLimit.problem.maps OverLimit.ops c = none ∧
      (c.s.vs OverLimit.root).chain = none ∧ c.pc = .done (some (.nchain 0 0)) := by
  have ends : ((Run.steps (step OverLimit.problem.maps OverLimit.ops) 8
      (selectChain (Search.init OverLimit.problem.G) () OverLimit.root)).map fun c =>
        ((c.s.vs OverLimit.root).chain, match c.pc with | .done e => e | _ => none)) =
      some (none, some (.nchain 0 0)) := by decide +kernel
  refine ⟨OverLimit.around, OverLimit.low, OverLimit.solvable, OverLimit.tight, OverLimit.minCost_root,
    .start _ _ rfl, ?_⟩
  obtain ⟨c, taken, same⟩ := Option.map_eq_some_iff.mp ends
  obtain ⟨chain, exited⟩ := Prod.ext_iff.mp same
  have pc : c.pc = .done (some (.nchain 0 0)) := by
    cases at' : c.pc <;> simp [at'] at exited
    rw [exited]
  refine ⟨c, Run.steps_reaches taken, ?_, chain, pc⟩
  unfold step
  rw [pc]

end M2.Fhk
