import Mathlib
import M2.Fhk.GroundedSteps

/-!
# Chains over a whole session

A session starts with an empty search state. `S_solve` calls `S_select_chain` for roots that are not done and
`S_compute_value` for those with a chain and no value, and the driver acts between the calls. Nothing is assumed of
costs, bounds or guards: in every state, also inside a call and after an exit, no chain leads back to itself.
-/
namespace M2.Fhk
open M2.Lib

namespace Problem
variable (P : Problem)

/-- The states of a session. `init` are the surroundings it starts in, `client` is what happens to them between the
calls, and `root` are the instances that are asked for. -/
inductive Solving {V : Type} (ops : Ops P.G V) (init : V → Prop) (client : V → V → Prop) (root : P.G.VI → Prop) :
    Config P.G V → Prop
  | start (v : V) (fresh : init v) : Solving ops init client root ⟨Search.init P.G, v, [], .done none⟩
  | step {c c' : Config P.G V} (before : Solving ops init client root c) (taken : Fhk.step P.maps ops c = some c') :
      Solving ops init client root c'
  | call {c : Config P.G V} (before : Solving ops init client root c) (returned : c.pc = .done none) (x : P.G.VI)
      (asked : root x) (computed : P.G.given x.1 = false) (undone : c.s.done x = false) :
      Solving ops init client root (selectChain c.s c.v x)
  | compute {c : Config P.G V} (before : Solving ops init client root c) (returned : c.pc = .done none) (x : P.G.VI)
      (chain : (c.s.vs x).chain.isSome = true) (unvalued : (c.s.vs x).value = false) (s' : Search P.G) (v' : V)
      (computed : ops.compute c.s c.v x = .ok (s', v')) : Solving ops init client root { c with s := s', v := v' }
  | client {c : Config P.G V} (before : Solving ops init client root c) (returned : c.pc = .done none) (v' : V)
      (changed : client c.v v') : Solving ops init client root { c with v := v' }

variable {P} {V : Type} {ops : Ops P.G V} {init : V → Prop} {client : V → V → Prop} {root : P.G.VI → Prop} {c : Config P.G V}

theorem Solving.run {c' : Config P.G V} (before : P.Solving ops init client root c)
    (steps : Run.Reaches (Fhk.step P.maps ops) c c') : P.Solving ops init client root c' := by
  induction steps with
  | refl => exact before
  | tail _ last ih => exact ih.step last

/-- A call for an instance that is not done. -/
theorem Linked.call (linked : Linked c) {x : P.G.VI} (undone : c.s.done x = false) : Linked (selectChain c.s c.v x) := by
  have unchained : (c.s.vs x).chain = none := by
    simp only [Search.done, Bool.or_eq_false_iff] at undone
    simpa using undone.1
  exact ⟨linked.chained, .inr ⟨trivial, unchained⟩⟩

/-- In every state of a session the recorded chains end. -/
theorem Solving.linked (quiet : Quiet ops) (session : P.Solving ops init client root c) : Linked c := by
  induction session with
  | start v _ => exact ⟨.init, trivial⟩
  | step _ taken ih => exact ih.step (quiet _ _ ih.chained) taken
  | call _ _ x _ _ undone ih => exact ih.call undone
  | compute _ returned x chain unvalued s' v' computed ih =>
    obtain ⟨same, value⟩ := quiet _ _ ih.chained _ _ _ chain unvalued computed
    refine ⟨ih.chained.computed same value, ?_⟩
    rw [returned]
    trivial
  | client _ returned v' _ ih =>
    refine ⟨ih.chained, ?_⟩
    rw [returned]
    trivial

/-- In every state of every session, the instances that the recorded chain of an instance needs have chains, these
chains come to an end, and none of them leads back to itself. -/
theorem chains_end (P : Problem) {V : Type} (ops : Ops P.G V) (init : V → Prop) (client : V → V → Prop) (root : P.G.VI → Prop)
    (quiet : Quiet ops) (c : Config P.G V) (session : P.Solving ops init client root c) :
    (∀ u, (c.s.vs u).chain.isSome = true → P.Grounded c.s u) ∧ (∀ u v, P.Uses c.s u v → (c.s.vs v).chain.isSome = true) ∧
      ∀ u, ¬ Relation.TransGen (P.Uses c.s) u u := by
  have chained := (session.linked quiet).chained
  have closed (u v : P.G.VI) (uses : P.Uses c.s u v) : (c.s.vs v).chain.isSome = true := by
    obtain ⟨m, model, mem⟩ := uses
    exact chained.closed m (chained.solved u m model) v mem
  refine ⟨chained.grounded, closed, ?_⟩
  intro u cycle
  obtain ⟨v, -, last⟩ := Relation.TransGen.tail'_iff.mp cycle
  exact (chained.grounded u (closed v u last)).irrefl cycle

end Problem

namespace Ladder

/-- The model of `y` needs `x` and checks it, the model of `x` needs the given variable `a`. -/
def graph : Graph where
  nv := 3
  nm := 2
  nw := 1
  ng := 1
  vars v :=
    if v.val = 0 then ⟨[⟨⟨0, Nat.two_pos⟩, MAP_IDENT, 0⟩], [], 0, 8⟩
    else if v.val = 1 then ⟨[⟨⟨1, Nat.one_lt_two⟩, MAP_IDENT, 0⟩], [], 0, 8⟩
    else ⟨[], [], 0, 8⟩
  models m :=
    if m.val = 0 then
      ⟨0, [⟨⟨0, Nat.one_pos⟩, MAP_IDENT, true, 1⟩], [⟨⟨1, by decide⟩, MAP_IDENT, 0⟩], 1, [⟨⟨0, by decide⟩, MAP_IDENT, 0⟩], true,
        1, 1, 1⟩
    else ⟨0, [], [⟨⟨2, by decide⟩, MAP_IDENT, 0⟩], 0, [⟨⟨1, by decide⟩, MAP_IDENT, 0⟩], true, 1, 1, 1⟩
  shadows _ := ⟨⟨1, by decide⟩, 0⟩

theorem graph_valid : graph.Valid where
  model m := by
    simp only [graph]
    split
    · refine ⟨zero_le_one, le_rfl, fun e mem => ?_⟩
      cases List.mem_singleton.mp mem
      exact zero_le_one
    · exact ⟨zero_le_one, le_rfl, fun e mem => absurd mem List.not_mem_nil⟩
  computed m e mem := by
    simp only [graph] at mem
    split at mem
    · cases List.mem_singleton.mp mem
      rfl
    · exact absurd mem List.not_mem_nil

/-- One instance. -/
def problem : Problem where
  G := graph
  valid := graph_valid
  maps := ⟨fun _ => 1, fun _ _ => [0]⟩
  pass _ _ := true

def ops : Ops problem.G Unit where
  vexpandsp _ _ := .ok ()
  vexpandbe _ _ _ := .ok ()
  mexpandbe _ _ _ := .ok ()
  compute s _ _ := .ok (s, ())
  given1 _ _ := .ok ()
  scanGiven _ _ _ := []
  guard _ _ _ := true

theorem quiet : Problem.Quiet ops := by
  intro s v chained x s' v' _ _ taken
  cases taken
  exact ⟨⟨rfl, fun _ => rfl, fun _ => rfl, fun _ => rfl, fun _ => rfl⟩, chained.value⟩

def y : problem.G.VI := (⟨0, by decide⟩, 0)

def x : problem.G.VI := (⟨1, by decide⟩, 0)

def called : Config problem.G Unit := selectChain (Search.init problem.G) () y

end Ladder

/-- The call for `y` records a chain that needs `x`. -/
theorem chains_end_ladder : ∃ c : Config Ladder.problem.G Unit, Ladder.problem.Uses c.s Ladder.y Ladder.x ∧
    (c.s.vs Ladder.x).chain.isSome = true ∧ ∀ u, ¬ Relation.TransGen (Ladder.problem.Uses c.s) u u := by
  have chosen : ((Run.steps (step Ladder.problem.maps Ladder.ops) 17 Ladder.called).bind fun c => c.s.model Ladder.y) =
      some (⟨0, by decide⟩, 0) := by decide +kernel
  obtain ⟨c, taken, model⟩ := Option.bind_eq_some_iff.mp chosen
  have session : Ladder.problem.Solving Ladder.ops (fun _ => True) (fun _ _ => False) (fun _ => True) c :=
    (Problem.Solving.call (.start () trivial) rfl Ladder.y trivial rfl (by decide +kernel)).run (Run.steps_reaches taken)
  have uses : Ladder.problem.Uses c.s Ladder.y Ladder.x := by
    refine ⟨_, model, ?_⟩
    decide +kernel
  have ends := Problem.chains_end Ladder.problem Ladder.ops _ _ _ Ladder.quiet c session
  exact ⟨c, uses, ends.2.1 _ _ uses, ends.2.2⟩

end M2.Fhk
