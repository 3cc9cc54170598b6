import Mathlib
import M2.Fhk.Potential

/-!
# Every step makes progress

On an acyclic graph whose bounds cover the constants, each step of `S_select_chain`
decreases a measure: the potential, then the variable that is searched, then the position
in the loops of the current frame. The loops move on, a push goes to a variable the
current one depends on, and whatever returns to `candidate` has raised, checked or solved
something. `JE_nyi` is not reached: a marked variable would depend on itself, and a bound
that was crossed is above the selection bound.
-/
namespace M2.Fhk
open M2.Lib

namespace Problem
variable (P : Problem) {V : Type}

/-- Steps left in the parameter loop of a model instance. -/
def paramWork (m : P.G.MI) (edges : List (Edge P.G.nv)) : Nat :=
  (edges.map fun e => (P.maps.mapE e.map m.2).length + 1).sum

/-- Steps left in the shadow loop. -/
def shadowWork (m : P.G.MI) (edges : List (ShEdge P.G.nw)) : Nat :=
  (edges.map fun e => 3 * (P.maps.mapE e.map m.2).length + 1).sum

/-- Steps left when the shadow loop is done. -/
def loopWork (m : P.G.MI) : Nat := P.paramWork m (P.G.models m.1).cparams.reverse + 3

/-- Steps left when a candidate is selected. -/
def selectWork : Nat :=
  Finset.univ.sup fun m : P.G.MI => P.loopWork m + P.shadowWork m (P.G.models m.1).shadows

/-- Steps left before the current frame is left, a candidate is selected again or a frame
is pushed. -/
def work : Pc P.G → Nat
  | .x_solve _ _ => P.selectWork + 2
  | .candidate _ => P.selectWork + 1
  | .shadow X edges _ _ => P.loopWork X.mi + P.shadowWork X.mi edges
  | .shadow_inst X _ edges _ insts _ _ =>
      P.loopWork X.mi + P.shadowWork X.mi edges + 3 * (insts.length + 1)
  | .shadow_compute X _ edges _ insts _ _ =>
      P.loopWork X.mi + P.shadowWork X.mi edges + 3 * insts.length + 2
  | .shadow_penalty X _ edges _ _ => P.loopWork X.mi + P.shadowWork X.mi edges + 1
  | .param X edges _ _ => P.paramWork X.mi edges + 2
  | .param_inst X _ edges _ insts _ _ _ => P.paramWork X.mi edges + 2 + (insts.length + 1)
  | .solved _ _ _ => 1
  | _ => 0

/-- The variable that is searched. -/
def pcVar (root : P.G.VI) : Pc P.G → Fin P.G.nv
  | .x_solve x _ => x.1
  | .x_chosen t _ | .x_failed t _ | .candidate t => t.x.1
  | .x_bound X _ | .shadow X _ _ _ | .shadow_inst X _ _ _ _ _ _
  | .shadow_compute X _ _ _ _ _ _ | .shadow_penalty X _ _ _ _ | .param X _ _ _
  | .param_inst X _ _ _ _ _ _ _ | .solved X _ _ => X.x.1
  | .done _ => root.1

/-- The potential, one more where a recorded chain is still to be returned. -/
noncomputable def left (c : Config P.G V) : Nat :=
  match c.pc with
  | .done _ => 0
  | .x_chosen _ _ => P.potential c.s + 2
  | _ => P.potential c.s + 1

/-- The measure. -/
noncomputable def size (root : P.G.VI) (c : Config P.G V) : Nat × Fin P.G.nv × Nat :=
  (P.left c, P.pcVar root c.pc, P.work c.pc)

/-- The order it decreases in. -/
abbrev Smaller : Nat × Fin P.G.nv × Nat → Nat × Fin P.G.nv × Nat → Prop :=
  Prod.Lex (· < ·) (Prod.Lex P.G.Depends (· < ·))

theorem smaller_wf (acyclic : P.G.Acyclic) : WellFounded P.Smaller :=
  WellFounded.prod_lex Nat.lt_wfRel.wf (WellFounded.prod_lex acyclic Nat.lt_wfRel.wf)

/-- What holds at a program point next to the invariant. -/
def TameAt (ops : Ops P.G V) (s : Search P.G) : Pc P.G → Prop
  | .x_chosen t cost | .x_failed t cost => P.VarVal t.x cost
  | .x_bound X M_costS =>
      P.ModelVal X.mi (X.m.costf M_costS) ∧ (s.ms X.mi).cost ≤ (X.m_beta : Cost)
  | .shadow X _ _ _ | .shadow_inst X _ _ _ _ _ _ | .shadow_compute X _ _ _ _ _ _
  | .shadow_penalty X _ _ _ _ | .param X _ _ _ | .param_inst X _ _ _ _ _ _ _
  | .solved X _ _ => (s.ms X.mi).cost ≤ (X.m_beta : Cost)
  | .done (some e) =>
      ops.Exits e ∨ (∃ xi inst, e = .maxdepth xi inst) ∨ ∃ xi inst, e = .nchain xi inst
  | .x_solve _ _ | .candidate _ | .done none => True

/-- All costs are among the values that can be written, and the frames are below their
selection bounds. -/
structure Tame (ops : Ops P.G V) (c : Config P.G V) : Prop where
  vars : ∀ u, P.VarVal u (c.s.vs u).cost
  models : ∀ m, P.ModelVal m (c.s.ms m).cost
  frames : ∀ f ∈ c.stack, (c.s.ms f.mi).cost ≤ (f.m_beta : Cost)
  at' : P.TameAt ops c.s c.pc

/-- The next state is tame and smaller. -/
structure Advance (ops : Ops P.G V) (root : P.G.VI) (c c' : Config P.G V) : Prop where
  tame : P.Tame ops c'
  smaller : P.Smaller (P.size root c') (P.size root c)

variable {P} {ops : Ops P.G V} {root : P.G.VI} {c c' : Config P.G V} {s s' : Search P.G}
  {stack : List (Suspended P.G)} {t : XTarget P.G} {X : XState P.G}

theorem smaller_of_left (less : P.left c' < P.left c) : P.Smaller (P.size root c') (P.size root c) :=
  Prod.Lex.left _ _ less

theorem smaller_of_inner (le : P.left c' ≤ P.left c)
    (inner : Prod.Lex P.G.Depends (· < ·) (P.pcVar root c'.pc, P.work c'.pc)
      (P.pcVar root c.pc, P.work c.pc)) : P.Smaller (P.size root c') (P.size root c) := by
  rcases lt_or_eq_of_le le with less | same
  · exact smaller_of_left less
  · unfold size
    rw [same]
    exact Prod.Lex.right _ inner

theorem smaller_of_work (le : P.left c' ≤ P.left c) (same : P.pcVar root c'.pc = P.pcVar root c.pc)
    (less : P.work c'.pc < P.work c.pc) : P.Smaller (P.size root c') (P.size root c) := by
  refine smaller_of_inner le ?_
  rw [same]
  exact Prod.Lex.right _ less

theorem left_of_running (pc : Pc P.G) (v : V) (running : ∀ e, pc ≠ .done e)
    (chosen : P.pcChosen pc = []) : P.left ⟨s, v, stack, pc⟩ = P.potential s + 1 := by
  cases pc with
  | done e => exact absurd rfl (running e)
  | x_chosen t cost => cases chosen
  | _ => rfl

theorem left_le (pc : Pc P.G) (v : V) (chosen : P.pcChosen pc = []) :
    P.left ⟨s, v, stack, pc⟩ ≤ P.potential s + 1 := by
  cases pc with
  | done e => exact Nat.zero_le _
  | x_chosen t cost => cases chosen
  | _ => exact le_rfl

/-- An exit is the end. -/
theorem advance_exit (tame : P.Tame ops c) (running : ∀ e, c.pc ≠ .done e)
    (vars : ∀ u, P.VarVal u (s'.vs u).cost) (ms : ∀ m, (s'.ms m).cost = (c.s.ms m).cost) {v : V}
    {exit : Option Exit} (at' : P.TameAt ops s' (.done exit)) :
    P.Advance ops root c ⟨s', v, c.stack, .done exit⟩ where
  tame := ⟨vars, fun m => by rw [ms]; exact tame.models m, fun f hf => by rw [ms]; exact tame.frames f hf, at'⟩
  smaller := by
    refine smaller_of_left ?_
    obtain ⟨s, v, stack, pc⟩ := c
    cases pc with
    | done e => exact absurd rfl (running e)
    | _ => exact Nat.succ_pos _

/-- A move within the loops of the current frame. -/
theorem advance_loop (acyclic : P.G.Acyclic) (tame : P.Tame ops c) {pc : Pc P.G} {v : V}
    (rises : Rises c.s s') (ms : ∀ m, (s'.ms m).cost = (c.s.ms m).cost)
    (vars : ∀ u, P.VarVal u (s'.vs u).cost) (at' : P.TameAt ops s' pc)
    (running : ∀ e, c.pc ≠ .done e) (chosen : P.pcChosen c.pc = []) (chosen' : P.pcChosen pc = [])
    (same : P.pcVar root pc = P.pcVar root c.pc) (less : P.work pc < P.work c.pc) :
    P.Advance ops root c ⟨s', v, c.stack, pc⟩ where
  tame := ⟨vars, fun m => by rw [ms]; exact tame.models m, fun f hf => by rw [ms]; exact tame.frames f hf, at'⟩
  smaller := by
    refine smaller_of_work ?_ same less
    refine (left_le pc v chosen').trans ?_
    rw [show c = ⟨c.s, c.v, c.stack, c.pc⟩ from rfl, left_of_running c.pc c.v running chosen]
    exact Nat.succ_le_succ (rises.potential_le acyclic)

/-- A push to a variable the current one depends on. -/
theorem advance_push (tame : P.Tame ops c) {f : Suspended P.G} {x : P.G.VI} {beta : ℚ} {v : V}
    (below : (c.s.ms f.mi).cost ≤ (f.m_beta : Cost)) (running : ∀ e, c.pc ≠ .done e)
    (chosen : P.pcChosen c.pc = []) (depends : P.G.Depends x.1 (P.pcVar root c.pc)) :
    P.Advance ops root c ⟨c.s, v, f :: c.stack, .x_solve x beta⟩ where
  tame := ⟨tame.vars, tame.models, fun g hg => by
    rcases List.mem_cons.mp hg with rfl | old
    · exact below
    · exact tame.frames g old, trivial⟩
  smaller := by
    refine smaller_of_inner ?_ (Prod.Lex.left _ _ depends)
    rw [show c = ⟨c.s, c.v, c.stack, c.pc⟩ from rfl, left_of_running c.pc c.v running chosen]
    exact le_rfl

section Acyclic

/-- A computed shadow variable of a selected candidate. -/
theorem Selected.depends_shadow (selected : P.Selected X) {e : ShEdge P.G.nw} (mem : e ∈ X.m.shadows)
    (computed : e.computed = true) : P.G.Depends (P.G.shadows e.idx).xi X.x.1 := by
  obtain ⟨edge, he, same⟩ := Graph.candInsts_edge (selected.cands ▸ selected.cand)
  exact ⟨edge, he, .inr ⟨e, by rw [same]; exact mem, computed, rfl⟩⟩

/-- A parameter of a selected candidate. -/
theorem Selected.depends_param (selected : P.Selected X) {e : Edge P.G.nv} (mem : e ∈ X.m.cparams) :
    P.G.Depends e.idx X.x.1 := by
  obtain ⟨edge, he, same⟩ := Graph.candInsts_edge (selected.cands ▸ selected.cand)
  exact ⟨edge, he, .inl ⟨e, by rw [same]; exact mem, rfl⟩⟩

theorem ParamInstAt.mem {e : Edge P.G.nv} {edges : List (Edge P.G.nv)} {i : Inst} {insts : List Inst}
    {p_ssmax M_costS : Cost} (at' : P.ParamInstAt s X e edges i insts p_ssmax M_costS) :
    e ∈ X.m.cparams := by
  obtain ⟨done, pre, at', _, _⟩ := at'
  rw [← List.mem_reverse, at'.split]
  simp

/-- A frame depends on what it waits for, in each variable its model instance returns. -/
theorem SuspendedOk.depends {f : Suspended P.G} (frame : P.SuspendedOk s f) {y : P.G.VI}
    (edge : ∃ edge ∈ (P.G.vars y.1).models, edge.idx = f.m_i) :
    P.G.Depends (awaited f).1 y.1 := by
  obtain ⟨edge, he, same⟩ := edge
  have resume := frame.resume
  unfold ResumeAt at resume
  unfold awaited
  split at resume
  · rename_i e _ _ _ _
    exact ⟨edge, he, .inr ⟨e, by rw [same]; exact resume.1.mem, resume.2.2.2, rfl⟩⟩
  · rename_i e _ _ _ _ _
    exact ⟨edge, he, .inl ⟨e, by rw [same]; exact resume.1.mem, rfl⟩⟩

theorem Selected.edge (selected : P.Selected X) : ∃ edge ∈ (P.G.vars X.x.1).models, edge.idx = X.m_i :=
  Graph.candInsts_edge (selected.cands ▸ selected.cand)

/-- What is searched on top is at or below what each frame waits for. -/
theorem StackOk.below_awaited {x : P.G.VI} {beta : ℚ} (h : P.StackOk s root x beta stack)
    {f : Suspended P.G} (hf : f ∈ stack) :
    Relation.ReflTransGen P.G.Depends x.1 (awaited f).1 := by
  induction stack generalizing x beta with
  | nil => cases hf
  | cons g stack ih =>
    obtain ⟨frame, waits, _, rest⟩ := h
    rcases List.mem_cons.mp hf with rfl | tail
    · rw [waits]
    · refine .trans ?_ (ih rest tail)
      rw [← waits]
      exact .single (frame.depends frame.selected.edge)

theorem no_cycle (acyclic : P.G.Acyclic) {x y : Fin P.G.nv} (up : Relation.ReflTransGen P.G.Depends x y)
    (down : P.G.Depends y x) : False := by
  have loop : Relation.TransGen P.G.Depends x x := Relation.TransGen.tail' up down
  exact (WellFounded.transGen acyclic).irrefl.irrefl x loop

/-- What is searched on top is searched nowhere below. -/
theorem StackOk.fresh (acyclic : P.G.Acyclic) {x : P.G.VI} {beta : ℚ}
    (h : P.StackOk s root x beta stack) : x ∉ P.targets stack := by
  intro mem
  obtain ⟨f, hf, same⟩ := List.mem_map.mp mem
  have frame := h.frame hf
  have depends := frame.depends frame.selected.edge
  rw [show f.x = x from same] at depends
  exact no_cycle acyclic (h.below_awaited hf) depends

/-- The candidate on top is not the candidate of a frame below. -/
theorem StackOk.mi_fresh (acyclic : P.G.Acyclic) {beta : ℚ}
    (h : P.StackOk s root X.x beta stack) (selected : P.Selected X) : ∀ f ∈ stack, f.mi ≠ X.mi := by
  intro f hf same
  have edge := selected.edge
  rw [← show f.m_i = X.m_i from congrArg Prod.fst same] at edge
  exact no_cycle acyclic (h.below_awaited hf) ((h.frame hf).depends edge)

end Acyclic

end Problem
end M2.Fhk
