import M2.Fhk.SearchSteps
import M2.Fhk.Grounded

/-!
# Every step records chains that end

One lemma for each label of `S_select_chain`. Costs, bounds and the outcomes of guards play no part: only what the
surroundings do to the chains is assumed.
-/
namespace M2.Fhk
open M2.Lib

namespace Problem
variable {P : Problem} {V : Type} {ops : Ops P.G V} {c : Config P.G V} {s s' : Search P.G} {stack : List (Suspended P.G)}
  {t : XTarget P.G} {X : XState P.G}

/-- Evaluating a variable instance that has a chain and no value changes value bits only, and sets them on instances with a
chain. -/
def QuietAt (ops : Ops P.G V) (s : Search P.G) (v : V) : Prop :=
  ∀ x s' v', (s.vs x).chain.isSome = true → (s.vs x).value = false → ops.compute s v x = .ok (s', v') →
    P.SameSearch s s' ∧ ∀ u, (s'.vs u).value = true → (s'.vs u).chain.isSome = true

def Quiet (ops : Ops P.G V) : Prop := ∀ s v, P.Chained s → QuietAt ops s v

theorem Chained.unchanged (chained : P.Chained s) (vs : ∀ u, (s'.vs u).chain = (s.vs u).chain ∧ (s'.vs u).value = (s.vs u).value)
    (ms : ∀ m, (s'.ms m).chain = (s.ms m).chain) : P.Chained s' :=
  chained.same (fun u => (vs u).1) ms fun u set => chained.value u ((vs u).2 ▸ set)

theorem Chained.computed (chained : P.Chained s) (same : P.SameSearch s s')
    (value : ∀ u, (s'.vs u).value = true → (s'.vs u).chain.isSome = true) : P.Chained s' :=
  chained.same same.chain same.mchain fun u set => same.chain u ▸ value u set

theorem StackAt.fresh {x y : P.G.VI} (below : StackAt s x stack) (unmarked : s.marked y = false) : y ∉ P.targets stack := by
  intro mem
  obtain ⟨f, there, rfl⟩ := List.mem_map.mp mem
  rw [(below.frame there).marked] at unmarked
  cases unmarked

/-! ## Two frames at one model instance -/

/-- Two frames with as many edges left are at the same edge. -/
theorem shadow_edge_eq {f : Suspended P.G} {e e' : ShEdge P.G.nw} {edges edges' : List (ShEdge P.G.nw)}
    {done done' : List (ShEdge P.G.nw)} (same : f.mi = X.mi) (there : f.m.shadows = done' ++ e' :: edges')
    (here : X.m.shadows = done ++ e :: edges) (len : edges'.length = edges.length) : e' = e ∧ edges' = edges := by
  rw [show f.m = X.m by rw [XState.m, XState.m, show f.m_i = X.m_i from congrArg Prod.fst same], here] at there
  have tails := (List.append_inj' there (by simp [len])).2
  cases tails
  exact ⟨rfl, rfl⟩

theorem mem_of_shorter {α : Type} {i : α} {pre insts pre' insts' : List α} (same : pre ++ i :: insts = pre' ++ insts')
    (shorter : insts'.length ≤ insts.length) : i ∈ pre' := by
  rcases List.append_eq_append_iff.mp same with ⟨mid, rfl, rest⟩ | ⟨mid, rfl, rest⟩
  · cases mid with
    | nil =>
      rw [List.nil_append] at rest
      rw [← rest, List.length_cons] at shorter
      omega
    | cons j mid =>
      rw [List.cons_append] at rest
      cases rest
      simp
  · have len := congrArg List.length rest
    simp only [List.length_cons, List.length_append] at len
    omega

section Positions
variable {f : Suspended P.G} {e e' : ShEdge P.G.nw} {edges edges' : List (ShEdge P.G.nw)} {i i' : Inst} {insts insts' : List Inst}

/-- A frame that is further along the same edge has seen the instance pass. -/
theorem shadow_past (same : f.mi = X.mi) (there : ShadowPos s f.toXState e' edges' i' insts') (here : ShadowPos s X e edges i insts)
    (len : edges'.length = edges.length) (past : (i' :: insts').length ≤ insts.length) : (s.ss (e.idx, i)).pass = true := by
  obtain ⟨done', pre', shadows', list', passed'⟩ := there
  obtain ⟨done, pre, shadows, list, -⟩ := here
  obtain ⟨rfl, -⟩ := shadow_edge_eq same shadows' shadows len
  rw [show f.m_inst = X.m_inst from congrArg Prod.snd same, list] at list'
  exact passed' i (mem_of_shorter list' past)

/-- A frame that is as far is at the same instance. -/
theorem shadow_level (same : f.mi = X.mi) (there : ShadowPos s f.toXState e' edges' i' insts') (here : ShadowPos s X e edges i insts)
    (len : edges'.length = edges.length) (level : insts'.length = insts.length) : e' = e ∧ i' = i := by
  obtain ⟨done', pre', shadows', list', -⟩ := there
  obtain ⟨done, pre, shadows, list, -⟩ := here
  obtain ⟨rfl, -⟩ := shadow_edge_eq same shadows' shadows len
  rw [show f.m_inst = X.m_inst from congrArg Prod.snd same, list] at list'
  have tails := (List.append_inj' list' (by simp [level])).2
  cases tails
  exact ⟨rfl, rfl⟩

end Positions

theorem FrameOk.pending {f : Suspended P.G} (h : FrameOk s f) {e : ShEdge P.G.nw} {edges : List (ShEdge P.G.nw)} {i : Inst}
    {insts : List Inst} (resume : f.resume = .shadow e edges i insts) :
    ShadowPos s f.toXState e edges i insts ∧ (s.ss (e.idx, i)).eval = false ∧ (s.ss (e.idx, i)).pass = false ∧ e.computed = true := by
  have waits := h.waits
  unfold WaitsAt at waits
  simpa only [resume] using waits

theorem behind_iff {f : Suspended P.G} {edges : List (ShEdge P.G.nw)} {insts : List Inst} : Behind f edges insts ↔
    ∀ e' edges' i' insts', f.resume = .shadow e' edges' i' insts' → edges'.length < edges.length ∨
      edges'.length = edges.length ∧ (i' :: insts').length ≤ insts.length := by
  unfold Behind
  cases f.resume with
  | shadow e edges i insts =>
    constructor
    · intro h e' edges' i' insts' resume
      cases resume
      exact h
    · exact fun h => h e edges i insts rfl
  | param e edges i insts p_ssmax => simp

/-- The current frame moves past an instance that no frame at its model instance waits at. -/
theorem FrameAt.advance {e : ShEdge P.G.nw} {edges : List (ShEdge P.G.nw)} {i : Inst} {insts : List Inst}
    (h : FrameAt s stack X edges (i :: insts)) (at' : ShadowPos s X e edges i insts)
    (free : ∀ f ∈ stack, ∀ edges' insts', f.resume ≠ .shadow e edges' i insts') : FrameAt s stack X edges insts := by
  refine ⟨h.toTopAt, h.picked, h.unsolved, ?_⟩
  intro f mem same
  rw [behind_iff]
  intro e' edges' i' insts' resume
  rcases behind_iff.mp (h.behind f mem same) e' edges' i' insts' resume with fewer | ⟨len, further⟩
  · exact .inl fewer
  · rcases Nat.lt_or_eq_of_le further with past | level
    · exact .inr ⟨len, Nat.le_of_lt_succ past⟩
    · obtain ⟨rfl, rfl⟩ := shadow_level same ((h.below.frame mem).pending resume).1 at' len (Nat.succ.inj level)
      exact absurd resume (free f mem edges' insts')

/-- The current frame drops the rest of an edge, once an instance has failed. -/
theorem FrameAt.drop {e : ShEdge P.G.nw} {edges : List (ShEdge P.G.nw)} {i : Inst} {insts : List Inst}
    (h : FrameAt s stack X edges insts) (at' : ShadowPos s X e edges i insts) (failed : (s.ss (e.idx, i)).pass = false) :
    FrameAt s stack X edges [] := by
  refine ⟨h.toTopAt, h.picked, h.unsolved, ?_⟩
  intro f mem same
  rw [behind_iff]
  intro e' edges' i' insts' resume
  rcases behind_iff.mp (h.behind f mem same) e' edges' i' insts' resume with fewer | ⟨len, further⟩
  · exact .inl fewer
  · rw [shadow_past same ((h.below.frame mem).pending resume).1 at' len further] at failed
    cases failed

/-- The current frame enters an edge. -/
theorem FrameAt.enter {e : ShEdge P.G.nw} {edges done : List (ShEdge P.G.nw)} (h : FrameAt s stack X (e :: edges) [])
    (split : X.m.shadows = done ++ e :: edges) : FrameAt s stack X edges (P.maps.mapE e.map X.m_inst) := by
  refine ⟨h.toTopAt, h.picked, h.unsolved, ?_⟩
  intro f mem same
  rw [behind_iff]
  intro e' edges' i' insts' resume
  rcases behind_iff.mp (h.behind f mem same) e' edges' i' insts' resume with fewer | ⟨-, further⟩
  · rcases Nat.lt_or_eq_of_le (Nat.le_of_lt_succ fewer) with less | len
    · exact .inl less
    · obtain ⟨done', pre', shadows', list', -⟩ := ((h.below.frame mem).pending resume).1
      obtain ⟨rfl, -⟩ := shadow_edge_eq same shadows' split len
      rw [show f.m_inst = X.m_inst from congrArg Prod.snd same] at list'
      refine .inr ⟨len, ?_⟩
      rw [list', List.length_append]
      omega
  · simp at further

/-! ## Steps -/

section Steps
variable {V : Type} {ops : Ops P.G V} {c : Config P.G V}

/-- `x_solve`. -/
theorem Linked.x_solve (linked : Linked c) {x : P.G.VI} {beta : ℚ} (pc : c.pc = .x_solve x beta) :
    Linked (c.x_solve P.maps ops x beta) := by
  have chained : P.Chained (c.s.setExpanded x) := linked.chained.unchanged (fun u => by simp) fun _ => rfl
  unfold Config.x_solve
  split
  · exact ⟨linked.chained, trivial⟩
  split
  · exact ⟨linked.chained, trivial⟩
  rename_i unmarked
  rw [Bool.not_eq_true] at unmarked
  have at' := linked.at'
  rw [pc] at at'
  rcases at' with marked | ⟨below, unchained⟩
  · rw [unmarked] at marked
    cases marked
  simp only
  split
  · exact ⟨chained, trivial⟩
  · have chained' : P.Chained ((c.s.setExpanded x).setCost x SP_MARK) := chained.unchanged (fun u => by simp) fun _ => rfl
    have fresh := below.fresh unmarked
    have mark : ((c.s.setExpanded x).setCost x SP_MARK).marked x = true := by
      rw [Search.marked_iff]
      simpa using SP_MARK_neg
    have below' : StackAt (c.s.setExpanded x) x c.stack :=
      below.same (fun u => by simp) (fun _ => rfl) rfl fun f _ => by simp [Search.marked]
    have top (t : XTarget P.G) (target : t.x = x) (cands : t.cands = xcands P.maps x) :
        TopAt ((c.s.setExpanded x).setCost x SP_MARK) c.stack t := by
      subst target
      exact ⟨below'.setCost SP_MARK fresh, fresh, mark, by simpa using unchained, cands⟩
    split
    · exact ⟨chained', trivial⟩
    split
    · exact ⟨chained', top _ rfl rfl⟩
    · exact ⟨chained', top _ rfl rfl⟩

theorem nextShadow_at {e : ShEdge P.G.nw} {edges done : List (ShEdge P.G.nw)} (pre : List Inst) {insts : List Inst}
    (frame : FrameAt s stack X edges insts) (split : X.m.shadows = done ++ e :: edges)
    (list : P.maps.mapE e.map X.m_inst = pre ++ insts) (passed : ∀ i ∈ pre, (s.ss (e.idx, i)).pass = true) (M_costS : Cost)
    (M_betaS : ℚ) : PcAt s stack (Config.nextShadow X e edges insts M_costS M_betaS) := by
  cases insts with
  | nil =>
    apply And.intro frame
    exact ⟨done ++ [e], by simp [split]⟩
  | cons i rest => exact ⟨frame, done, pre, split, list, passed⟩

theorem nextParam_at {e : Edge P.G.nv} {edges : List (Edge P.G.nv)} (pre : List Inst) {insts : List Inst}
    (frame : FrameAt s stack X [] []) (done : ParamDone s X (e :: edges)) (list : P.maps.mapE e.map X.m_inst = pre ++ insts)
    (chained : ∀ i ∈ pre, (s.vs (e.idx, i)).chain.isSome = true) (p_ssmax M_costS : Cost) (M_betaS : ℚ) :
    PcAt s stack (Config.nextParam X e edges insts p_ssmax M_costS M_betaS) := by
  cases insts with
  | nil =>
    rw [List.append_nil] at list
    obtain ⟨past, split, earlier⟩ := done
    apply And.intro frame
    refine ⟨past ++ [e], by simp [split], ?_⟩
    intro d mem
    rcases List.mem_append.mp mem with old | new
    · exact earlier d old
    · cases List.mem_singleton.mp new
      rw [list]
      exact chained
  | cons i rest => exact ⟨frame, done, pre, list, chained⟩

/-- One more instance of a parameter edge has a chain. -/
theorem nextParam_after {e : Edge P.G.nv} {edges : List (Edge P.G.nv)} {i : Inst} {insts : List Inst}
    (frame : FrameAt s stack X [] []) (at' : ParamPos s X e edges i insts) (chain : (s.vs (e.idx, i)).chain.isSome = true)
    (p_ssmax M_costS : Cost) (M_betaS : ℚ) : PcAt s stack (Config.nextParam X e edges insts p_ssmax M_costS M_betaS) := by
  obtain ⟨done, pre, list, chained⟩ := at'
  apply nextParam_at (pre ++ [i]) frame done
  · rw [list, List.append_assoc]
    rfl
  · intro j mem
    rcases List.mem_append.mp mem with old | new
    · exact chained j old
    · cases List.mem_singleton.mp new
      exact chain

/-- One more instance of a shadow edge passes. -/
theorem nextShadow_after {e : ShEdge P.G.nw} {edges : List (ShEdge P.G.nw)} {i : Inst} {insts : List Inst}
    (frame : FrameAt s stack X edges insts) (at' : ShadowPos s X e edges i insts) (pass : (s.ss (e.idx, i)).pass = true)
    (M_costS : Cost) (M_betaS : ℚ) : PcAt s stack (Config.nextShadow X e edges insts M_costS M_betaS) := by
  obtain ⟨done, pre, split, list, passed⟩ := at'
  apply nextShadow_at (pre ++ [i]) frame split
  · rw [list, List.append_assoc]
    rfl
  · intro j mem
    rcases List.mem_append.mp mem with old | new
    · exact passed j old
    · cases List.mem_singleton.mp new
      exact pass

/-- `x_chosen`. -/
theorem Linked.x_chosen (linked : Linked c) {cost : Cost} (pc : c.pc = .x_chosen t cost) : Linked (c.x_chosen t cost) := by
  obtain ⟨below, fresh, chain, unvalued⟩ : PcAt c.s c.stack (.x_chosen t cost) := pc ▸ linked.at'
  have chained : P.Chained (c.s.setCost t.x cost) := linked.chained.unchanged (fun u => by simp) fun _ => rfl
  have chain' : ((c.s.setCost t.x cost).vs t.x).chain.isSome = true := by simpa using chain
  have unvalued' : ((c.s.setCost t.x cost).vs t.x).value = false := by simpa using unvalued
  have below := below.setCost cost fresh
  unfold Config.x_chosen
  split
  · exact ⟨chained, trivial⟩
  · rename_i f stack cons
    rw [cons] at below
    obtain ⟨frame, waits, behind, fresh', below⟩ := below
    have top := frame.top below fresh'
    have waiting := frame.waits
    unfold WaitsAt at waiting
    split
    · rename_i e edges i insts p_ssmax resume
      simp only [resume] at waiting
      simp only [awaited, resume] at waits
      have here : FrameAt (c.s.setCost t.x cost) stack f.toXState [] [] := by
        refine ⟨top, frame.picked, frame.unsolved, ?_⟩
        simpa only [ahead, resume] using behind
      exact ⟨chained, nextParam_after here waiting (waits ▸ chain') _ _ _⟩
    · rename_i e edges i insts resume
      simp only [resume] at waiting
      simp only [awaited, resume] at waits
      have here : FrameAt (c.s.setCost t.x cost) stack f.toXState edges insts := by
        refine ⟨top, frame.picked, frame.unsolved, ?_⟩
        simpa only [ahead, resume] using behind
      exact ⟨chained, here, waiting.1, waiting.2.2.2, waits ▸ chain', waits ▸ unvalued'⟩

/-- `x_failed`. -/
theorem Linked.x_failed (linked : Linked c) {cost : Cost} (pc : c.pc = .x_failed t cost) : Linked (c.x_failed t cost) := by
  have top : TopAt c.s c.stack t := by
    have at' := linked.at'
    rwa [pc] at at'
  have chained : P.Chained (c.s.setCost t.x cost) := linked.chained.unchanged (fun u => by simp) fun _ => rfl
  have below := top.below.setCost cost top.fresh
  have fresh := top.fresh
  unfold Config.x_failed
  split
  · exact ⟨chained, trivial⟩
  · rename_i f stack cons
    rw [cons] at below fresh
    obtain ⟨frame, waits, behind, fresh', below⟩ := below
    have top := frame.top below fresh'
    split
    · refine ⟨chained.unchanged (fun _ => ⟨rfl, rfl⟩) fun m => by simp, ?_⟩
      exact top.keep (below.same (fun _ => rfl) (fun m => by simp) rfl fun _ _ => id) rfl rfl
    · rename_i e edges i insts resume
      simp only [awaited, resume] at waits
      obtain ⟨position, -, pass, computed⟩ := frame.pending resume
      -- what the frame waits for is searched once
      have alone : ∀ g ∈ stack, awaited g ≠ ((P.G.shadows e.idx).xi, i) := by
        intro g mem same
        rcases below.awaited_mem mem with here | there
        · exact fresh (List.mem_cons.mpr (.inl (by rw [← waits, ← same, here])))
        · exact fresh (List.mem_cons_of_mem _ (by rwa [← waits, ← same]))
      have here : FrameAt (c.s.setCost t.x cost) stack f.toXState edges insts := by
        refine ⟨top, frame.picked, frame.unsolved, ?_⟩
        simpa only [ahead, resume] using behind
      obtain ⟨done, pre, split, -, -⟩ := position
      refine ⟨chained.unchanged (fun _ => ⟨rfl, rfl⟩) fun _ => rfl, ?_, done, split⟩
      exact (here.drop (frame.pending resume).1 pass).keep (below.setEval alone) rfl rfl rfl

/-- `x_bound`. -/
theorem Linked.x_bound (linked : Linked c) {M_costS : Cost} (pc : c.pc = .x_bound X M_costS) : Linked (c.x_bound X M_costS) := by
  have top : TopAt c.s c.stack X.toXTarget := by
    have at' := linked.at'
    rwa [pc] at at'
  have chained : P.Chained (c.s.setModelCost X.mi (X.m.costf M_costS)) :=
    linked.chained.unchanged (fun _ => ⟨rfl, rfl⟩) fun m => by simp
  unfold Config.x_bound
  simp only
  split
  · exact ⟨chained, trivial⟩
  · exact ⟨chained, top.keep (top.below.same (fun _ => rfl) (fun m => c.s.setModelCost_chain X.mi m _) rfl fun _ _ => id) rfl rfl⟩

/-- `candidate`. -/
theorem Linked.candidate (linked : Linked c) (pc : c.pc = .candidate t) : Linked (c.candidate ops t) := by
  have top : TopAt c.s c.stack t := by
    have at' := linked.at'
    rwa [pc] at at'
  unfold Config.candidate
  simp only
  split
  · exact ⟨linked.chained, top⟩
  split
  · exact ⟨linked.chained, top⟩
  · rename_i m_ei m best
    have cand : (m_ei, m) ∈ candInsts t.cands := ((scan_ok c.s t).best _ best).1
    split
    · rename_i solved
      have chain : ((c.s.setChain t.x m_ei m.2).vs t.x).chain.isSome = true := by
        rw [Search.setChain_self]
        rfl
      have unvalued : ((c.s.setChain t.x m_ei m.2).vs t.x).value = false := by rw [Search.setChain_self]
      exact ⟨linked.chained.setChain top.unchained (top.cands ▸ cand) solved, top.below.setChain m_ei m.2 top.fresh, top.fresh,
        chain, unvalued⟩
    rename_i unsolved
    have chained : P.Chained (c.s.setModelExpanded m) := linked.chained.unchanged (fun _ => ⟨rfl, rfl⟩) fun m => by simp
    split
    · exact ⟨chained, trivial⟩
    · have below : StackAt (c.s.setModelExpanded m) t.x c.stack :=
        top.below.same (fun _ => rfl) (fun m => by simp) rfl fun _ _ => id
      refine ⟨chained, ⟨top.keep below rfl rfl, ⟨top.cands, cand⟩, ?_, ?_⟩, [], rfl⟩
      · rw [Bool.not_eq_true] at unsolved
        rw [← unsolved]
        exact Search.setModelExpanded_chain ..
      · intro f mem same
        rw [behind_iff]
        intro e edges i insts resume
        obtain ⟨done, pre, split, -, -⟩ := ((top.below.frame mem).pending resume).1
        apply Or.inl
        have len := congrArg List.length split
        rw [XState.m, show f.m_i = m.1 from congrArg Prod.fst same, List.length_append, List.length_cons] at len
        simp only [XState.m]
        omega

/-- One shadow edge. -/
theorem Linked.shadow (linked : Linked c) {edges : List (ShEdge P.G.nw)} {M_costS : Cost} {M_betaS : ℚ}
    (pc : c.pc = .shadow X edges M_costS M_betaS) : Linked (c.shadow P.maps X edges M_costS M_betaS) := by
  obtain ⟨frame, done, split⟩ : PcAt c.s c.stack (.shadow X edges M_costS M_betaS) := pc ▸ linked.at'
  unfold Config.shadow
  split
  · exact ⟨linked.chained, frame, [], rfl, fun _ mem => by cases mem⟩
  · exact ⟨linked.chained, nextShadow_at [] (frame.enter split) split rfl (fun _ mem => by cases mem) _ _⟩

section Shadows
variable {e : ShEdge P.G.nw} {edges : List (ShEdge P.G.nw)} {i : Inst} {insts : List Inst} {M_costS : Cost} {M_betaS : ℚ}

/-- The check, when no frame waits for a scanned instance. -/
theorem Linked.scanCheck {scanned : List Inst} (chained : P.Chained c.s) (frame : FrameAt c.s c.stack X edges insts)
    (at' : ShadowPos c.s X e edges i insts)
    (fresh : ∀ f ∈ c.stack, ∀ e' edges' i' insts', f.resume = .shadow e' edges' i' insts' → ¬ (e'.idx = e.idx ∧ i' ∈ scanned)) :
    Linked (c.scanCheck ops X e edges i insts scanned M_costS M_betaS) := by
  have grows : Extends c.s (c.s.checkscan (ops.guard c.v) e.idx scanned) := by
    refine ⟨fun _ => id, fun w old => ?_⟩
    by_cases inside : w.1 = e.idx ∧ w.2 ∈ scanned
    · have checked := congrArg SwBits.pass (c.s.checkscan_of_mem (g := ops.guard c.v) (w := e.idx) inside.2)
      rw [← inside.1, old, Bool.true_or] at checked
      rw [← inside.1]
      exact checked
    · rwa [c.s.checkscan_of_not inside]
  have chained' : P.Chained (c.s.checkscan (ops.guard c.v) e.idx scanned) :=
    chained.unchanged (fun _ => ⟨rfl, rfl⟩) fun _ => rfl
  have below : StackAt (c.s.checkscan (ops.guard c.v) e.idx scanned) X.x c.stack := frame.below.checkscan fresh
  have frame' := frame.keep below rfl rfl rfl
  have at'' := at'.mono grows
  unfold Config.scanCheck
  simp only
  split
  · rename_i pass
    exact ⟨chained', nextShadow_after frame' at'' pass _ _⟩
  · rename_i failed
    rw [Bool.not_eq_true] at failed
    obtain ⟨done, pre, split, -, -⟩ := at'
    exact ⟨chained', frame'.drop at'' failed, done, split⟩

/-- No frame waits for an instance with a chain. -/
theorem FrameAt.scanned_fresh (chained : P.Chained s) (top : TopAt s stack X.toXTarget)
    (chain : (s.vs ((P.G.shadows e.idx).xi, i)).chain.isSome = true) (shape : Nat) :
    ∀ f ∈ stack, ∀ e' edges' i' insts', f.resume = .shadow e' edges' i' insts' →
      ¬ (e'.idx = e.idx ∧ i' ∈ s.scanComputed (P.G.shadows e.idx).xi shape i) := by
  rintro f mem e' edges' i' insts' resume ⟨same, inside⟩
  have waits : awaited f = ((P.G.shadows e.idx).xi, i') := by simp only [awaited, resume, same]
  have unchained := top.below.awaited_unchained top.unchained mem
  have some' : (s.vs ((P.G.shadows e.idx).xi, i')).chain.isSome = true := by
    rcases List.mem_cons.mp inside with rfl | later
    · exact chain
    · have run := List.all_takeWhile (l := (List.range' (i.val + 1) (shape - (i.val + 1))).map (Fin.ofNat 65536))
        (p := fun i => (s.vs ((P.G.shadows e.idx).xi, i)).value)
      exact chained.value _ (List.all_eq_true.mp run i' later)
  rw [waits] at unchained
  rw [unchained] at some'
  cases some'

/-- No frame waits at an instance whose variable instance has a chain. -/
theorem FrameAt.nowhere (top : TopAt s stack X.toXTarget) (chain : (s.vs ((P.G.shadows e.idx).xi, i)).chain.isSome = true) :
    ∀ f ∈ stack, ∀ edges' insts', f.resume ≠ .shadow e edges' i insts' := by
  intro f mem edges' insts' resume
  have unchained := top.below.awaited_unchained top.unchained mem
  simp only [awaited, resume] at unchained
  rw [unchained] at chain
  cases chain

/-- `S_compute_value` for a checked instance with a chain. -/
theorem Linked.shadow_compute (quiet : QuietAt ops c.s c.v) (linked : Linked c)
    (pc : c.pc = .shadow_compute X e edges i insts M_costS M_betaS) :
    Linked (c.shadow_compute P.maps ops X e edges i insts M_costS M_betaS) := by
  obtain ⟨frame, at', -, chain, unvalued⟩ : PcAt c.s c.stack (.shadow_compute X e edges i insts M_costS M_betaS) :=
    pc ▸ linked.at'
  unfold Config.shadow_compute
  simp only
  split
  · exact ⟨linked.chained, trivial⟩
  · rename_i s v computed
    obtain ⟨same, value⟩ := quiet _ _ _ chain unvalued computed
    have marks (u : P.G.VI) : s.marked u = c.s.marked u := by rw [Search.marked, Search.marked, same.cost]
    have below : StackAt s X.x c.stack := frame.below.same same.chain same.mchain same.ss fun f _ => by rw [marks]; exact id
    have frame' := frame.keep below (marks _) (same.chain _) (same.mchain _)
    have chained := linked.chained.computed same value
    have chain' : (s.vs ((P.G.shadows e.idx).xi, i)).chain.isSome = true := by rw [same.chain]; exact chain
    have at'' : ShadowPos s X e edges i insts := by
      apply at'.mono
      exact ⟨fun u => by rw [same.chain]; exact id, fun w => by rw [same.ss]; exact id⟩
    exact Linked.scanCheck (c := { c with s, v }) chained frame' at'' (FrameAt.scanned_fresh chained frame'.toTopAt chain' _)

/-- One instance of a shadow edge. -/
theorem Linked.shadow_inst (linked : Linked c) (pc : c.pc = .shadow_inst X e edges i insts M_costS M_betaS) :
    Linked (c.shadow_inst P.maps ops X e edges i insts M_costS M_betaS) := by
  obtain ⟨frame, at'⟩ : PcAt c.s c.stack (.shadow_inst X e edges i insts M_costS M_betaS) := pc ▸ linked.at'
  have pending {f : Suspended P.G} (mem : f ∈ c.stack) {edges' : List (ShEdge P.G.nw)} {insts' : List Inst}
      (resume : f.resume = .shadow e edges' i insts') := (frame.below.frame mem).pending resume
  unfold Config.shadow_inst
  simp only
  split
  · rename_i pass
    refine ⟨linked.chained, nextShadow_after (frame.advance at' ?_) at' pass _ _⟩
    intro f mem edges' insts' resume
    rw [(pending mem resume).2.2.1] at pass
    cases pass
  rename_i unpassed
  rw [Bool.not_eq_true] at unpassed
  split
  · rename_i eval
    have free := frame.advance at' fun f mem edges' insts' resume => by
      rw [(pending mem resume).2.1] at eval
      cases eval
    have dropped := free.drop at' unpassed
    obtain ⟨done, pre, split, -, -⟩ := at'
    exact ⟨linked.chained, dropped, done, split⟩
  rename_i unevaluated
  rw [Bool.not_eq_true] at unevaluated
  split
  · rename_i computed
    split
    · exact ⟨linked.chained, trivial⟩
    split
    · rename_i unchained
      rw [Option.isNone_iff_eq_none] at unchained
      -- a frame that waits at this instance makes it a target below, which `x_solve` refuses
      by_cases marked : c.s.marked ((P.G.shadows e.idx).xi, i) = true
      · exact ⟨linked.chained, .inl marked⟩
      · have free := frame.advance at' fun f mem edges' insts' resume => by
          apply marked
          have waits : awaited f = ((P.G.shadows e.idx).xi, i) := by simp only [awaited, resume]
          rw [← waits]
          rcases frame.below.awaited_mem mem with here | there
          · rw [here]
            exact frame.marked
          · obtain ⟨g, below, same⟩ := List.mem_map.mp there
            rw [← same]
            exact (frame.below.frame below).marked
        refine ⟨linked.chained, .inr ⟨⟨⟨frame.picked, ?_, frame.marked, frame.unchained, frame.unsolved⟩, rfl, free.behind,
          frame.fresh, frame.below⟩, unchained⟩⟩
        exact ⟨at', unevaluated, unpassed, computed⟩
    · rename_i chain
      rw [Option.isNone_iff_eq_none, ← ne_eq, Option.ne_none_iff_isSome] at chain
      have free := frame.advance at' (FrameAt.nowhere frame.toTopAt chain)
      split
      · exact Linked.scanCheck linked.chained free at' (FrameAt.scanned_fresh linked.chained frame.toTopAt chain _)
      · rename_i unvalued
        rw [Bool.not_eq_true] at unvalued
        exact ⟨linked.chained, free, at', computed, chain, unvalued⟩
  · rename_i given
    rw [Bool.not_eq_true] at given
    split
    · exact ⟨linked.chained, trivial⟩
    · have free := frame.advance at' fun f mem edges' insts' resume => by
        rw [(pending mem resume).2.2.2] at given
        cases given
      refine Linked.scanCheck linked.chained free at' ?_
      rintro f mem e' edges' i' insts' resume ⟨same, -⟩
      -- frames wait for checks of computed variables only
      obtain ⟨⟨done', pre', split', -, -⟩, -, -, computed⟩ := (frame.below.frame mem).pending resume
      obtain ⟨done, pre, split, -, -⟩ := at'
      have theirs := P.valid.computed f.m_i e' (by rw [show (P.G.models f.m_i).shadows = _ from split']; simp)
      have ours := P.valid.computed X.m_i e (by rw [show (P.G.models X.m_i).shadows = _ from split]; simp)
      rw [computed, same, ← ours, given] at theirs
      cases theirs

/-- `shadow_penalty`. -/
theorem Linked.shadow_penalty (linked : Linked c) (pc : c.pc = .shadow_penalty X e edges M_costS M_betaS) :
    Linked (c.shadow_penalty X e edges M_costS M_betaS) := by
  obtain ⟨frame, done, split⟩ : PcAt c.s c.stack (.shadow_penalty X e edges M_costS M_betaS) := pc ▸ linked.at'
  unfold Config.shadow_penalty
  simp only
  split
  · exact ⟨linked.chained, frame.toTopAt⟩
  · exact ⟨linked.chained, frame, done ++ [e], by simp [split]⟩

end Shadows

section Params
variable {e : Edge P.G.nv} {edges : List (Edge P.G.nv)} {i : Inst} {insts : List Inst} {p_ssmax M_costS : Cost} {M_betaS : ℚ}

/-- One parameter edge. -/
theorem Linked.param (linked : Linked c) (pc : c.pc = .param X edges M_costS M_betaS) :
    Linked (c.param P.maps X edges M_costS M_betaS) := by
  obtain ⟨frame, done⟩ : PcAt c.s c.stack (.param X edges M_costS M_betaS) := pc ▸ linked.at'
  unfold Config.param
  split
  · exact ⟨linked.chained, frame, done⟩
  · exact ⟨linked.chained, nextParam_at [] frame done rfl (fun _ mem => by cases mem) _ _ _⟩

/-- One instance of a parameter edge. -/
theorem Linked.param_inst (linked : Linked c) (pc : c.pc = .param_inst X e edges i insts p_ssmax M_costS M_betaS) :
    Linked (c.param_inst X e edges i insts p_ssmax M_costS M_betaS) := by
  obtain ⟨frame, at'⟩ : PcAt c.s c.stack (.param_inst X e edges i insts p_ssmax M_costS M_betaS) := pc ▸ linked.at'
  unfold Config.param_inst
  simp only
  split
  · exact ⟨linked.chained, frame.toTopAt⟩
  split
  · rename_i chain
    exact ⟨linked.chained, nextParam_after frame at' chain _ _ _⟩
  · rename_i unchained
    rw [Bool.not_eq_true, Option.isSome_eq_false_iff, Option.isNone_iff_eq_none] at unchained
    exact ⟨linked.chained, .inr ⟨⟨⟨frame.picked, at', frame.marked, frame.unchained, frame.unsolved⟩, rfl, frame.behind,
      frame.fresh, frame.below⟩, unchained⟩⟩

/-- No frame below tries a model instance that has finished its loops. -/
theorem FrameAt.alone (frame : FrameAt s stack X [] []) (done : ParamDone s X []) : ∀ f ∈ stack, f.mi ≠ X.mi := by
  intro f mem same
  have behind := frame.behind f mem same
  have waits := (frame.below.frame mem).waits
  have unchained := frame.below.awaited_unchained frame.unchained mem
  unfold Behind at behind
  unfold WaitsAt at waits
  split at behind
  · simp at behind
  · rename_i e edges i insts p_ssmax resume
    simp only [resume] at waits
    simp only [awaited, resume] at unchained
    obtain ⟨⟨past, split, -⟩, pre, list, -⟩ := waits
    obtain ⟨all, all', chained⟩ := done
    rw [List.append_nil] at all'
    have inside : e ∈ all := by
      rw [← all', show X.m = f.m by rw [XState.m, XState.m, show f.m_i = X.m_i from congrArg Prod.fst same], split]
      simp
    have chain := chained e inside i (by rw [← show f.m_inst = X.m_inst from congrArg Prod.snd same, list]; simp)
    rw [unchained] at chain
    cases chain

/-- All parameters of the model instance have a chain. -/
theorem Linked.solved (linked : Linked c) (pc : c.pc = .solved X M_costS M_betaS) : Linked (c.solved X M_costS) := by
  obtain ⟨frame, done⟩ : PcAt c.s c.stack (.solved X M_costS M_betaS) := pc ▸ linked.at'
  have closed : ∀ v ∈ P.G.prems P.maps X.mi, (c.s.vs v).chain.isSome = true := by
    intro v mem
    obtain ⟨all, split, chained⟩ := done
    rw [List.append_nil] at split
    obtain ⟨e, there, listed⟩ := Graph.mem_prems.mp mem
    have chain := chained e (split ▸ there) v.2 listed.2
    rwa [listed.1] at chain
  have below := frame.below.setModelChain (X.m.costf M_costS) (frame.alone done)
  have chained := (linked.chained.setModelChain closed (X.m.costf M_costS)).setChain (u := X.x) (m := X.mi) frame.unchained
    (frame.picked.cands ▸ frame.picked.cand) (by rw [Search.setModelChain_self])
  have chain : (((c.s.setModelChain X.mi (X.m.costf M_costS)).setChain X.x X.m_ei X.m_inst).vs X.x).chain.isSome = true := by
    rw [Search.setChain_self]
    rfl
  have unvalued : (((c.s.setModelChain X.mi (X.m.costf M_costS)).setChain X.x X.m_ei X.m_inst).vs X.x).value = false := by
    rw [Search.setChain_self]
  unfold Config.solved
  exact ⟨chained, below.setChain X.m_ei X.m_inst frame.fresh, frame.fresh, chain, unvalued⟩

end Params

/-- Every step keeps the invariant. -/
theorem Linked.step {c' : Config P.G V} (quiet : QuietAt ops c.s c.v) (linked : Linked c) (taken : Fhk.step P.maps ops c = some c') :
    Linked c' := by
  unfold Fhk.step at taken
  split at taken
  · rename_i pc; cases taken; exact linked.x_solve pc
  · rename_i pc; cases taken; exact linked.x_chosen pc
  · rename_i pc; cases taken; exact linked.x_failed pc
  · rename_i pc; cases taken; exact linked.x_bound pc
  · rename_i pc; cases taken; exact linked.candidate pc
  · rename_i pc; cases taken; exact linked.shadow pc
  · rename_i pc; cases taken; exact linked.shadow_inst pc
  · rename_i pc; cases taken; exact linked.shadow_compute quiet pc
  · rename_i pc; cases taken; exact linked.shadow_penalty pc
  · rename_i pc; cases taken; exact linked.param pc
  · rename_i pc; cases taken; exact linked.param_inst pc
  · rename_i pc; cases taken; exact linked.solved pc
  · cases taken

end Steps

end Problem
end M2.Fhk
