import M2.Fhk.Termination

/-!
# Progress of each label

One lemma for each label of `S_select_chain`: from a state with the invariant, the next
state is tame and smaller.
-/
namespace M2.Fhk
open M2.Lib

namespace Problem
variable {P : Problem} {V : Type} {ops : Ops P.G V} {root : P.G.VI} {c c' : Config P.G V}
  {s s' : Search P.G} {t : XTarget P.G} {X : XState P.G}

/-- `x_solve`. -/
theorem Advance.x_solve (acyclic : P.G.Acyclic) (tight : P.Tight) (inv : P.Inv root c)
    (tame : P.Tame ops c) {x : P.G.VI} {beta : ℚ} (pc : c.pc = .x_solve x beta) :
    P.Advance ops root c (c.x_solve P.maps ops x beta) := by
  have below : P.StackOk c.s root x beta c.stack := by
    have := inv.at'
    rw [pc] at this
    exact this.1
  have running : ∀ e, c.pc ≠ .done e := by rw [pc]; simp
  have chosen : P.pcChosen c.pc = [] := by rw [pc]; rfl
  unfold Config.x_solve
  split
  · exact advance_exit tame running tame.vars (fun _ => rfl) (Or.inr (Or.inl ⟨_, _, rfl⟩))
  split
  · rename_i marked
    -- a marked instance would be searched below, on a cycle
    rcases inv.marks tight x marked with ⟨e, exited⟩ | mem
    · exact absurd exited (running _)
    · rw [pc] at mem
      exact absurd mem (below.fresh acyclic)
  simp only
  split
  · rename_i e failed
    have vars : ∀ u, P.VarVal u ((c.s.setExpanded x).vs u).cost := fun u => by simpa using tame.vars u
    have exits : ops.Exits e := by
      split at failed
      · cases failed
      · exact .vexpandbe _ _ _ _ failed
    exact advance_exit tame running vars (fun _ => rfl) (Or.inl exits)
  · rename_i v _
    have vars : ∀ u, P.VarVal u (((c.s.setExpanded x).setCost x SP_MARK).vs u).cost := by
      intro u
      by_cases same : u = x
      · subst same
        rw [Search.setCost_self]
        exact .mark u
      · rw [Search.setCost_of_ne _ _ same, Search.setExpanded_cost]
        exact tame.vars u
    have rises : Rises c.s ((c.s.setExpanded x).setCost x SP_MARK) :=
      Rises.of_eq (fun _ => rfl) rfl fun u => by simp
    split
    · exact advance_exit tame running vars (fun _ => rfl) (Or.inr (Or.inl ⟨_, _, rfl⟩))
    · split
      · refine advance_loop acyclic tame rises (fun _ => rfl) vars (VarVal.top _) running chosen rfl
          (by rw [pc]; rfl) ?_
        rw [pc]
        exact Nat.succ_pos _
      · refine advance_loop acyclic tame rises (fun _ => rfl) vars trivial running chosen rfl
          (by rw [pc]; rfl) ?_
        rw [pc]
        exact Nat.lt_succ_self _

/-- `x_chosen`. -/
theorem Advance.x_chosen (acyclic : P.G.Acyclic) (tame : P.Tame ops c) {cost : Cost}
    (pc : c.pc = .x_chosen t cost) : P.Advance ops root c (c.x_chosen t cost) := by
  have val : P.VarVal t.x cost := by
    have := tame.at'
    rwa [pc] at this
  have running : ∀ e, c.pc ≠ .done e := by rw [pc]; simp
  have vars : ∀ u, P.VarVal u ((c.s.setCost t.x cost).vs u).cost := by
    intro u
    by_cases same : u = t.x
    · subst same; rw [Search.setCost_self]; exact val
    · rw [Search.setCost_of_ne _ _ same]; exact tame.vars u
  have rises : Rises c.s (c.s.setCost t.x cost) := Rises.of_eq (fun _ => rfl) rfl fun u => by simp
  have popped : ∀ (f : Suspended P.G) (stack : List (Suspended P.G)) (pc' : Pc P.G),
      c.stack = f :: stack → P.pcChosen pc' = [] → P.TameAt ops (c.s.setCost t.x cost) pc' →
      P.Advance ops root c ⟨c.s.setCost t.x cost, c.v, stack, pc'⟩ := by
    intro f stack pc' cons chosen at'
    refine ⟨⟨vars, tame.models, fun g hg => tame.frames g (by rw [cons]; exact List.mem_cons_of_mem _ hg), at'⟩,
      smaller_of_left ?_⟩
    refine (left_le pc' c.v chosen).trans_lt ?_
    unfold left
    rw [pc]
    exact Nat.lt_succ_of_le (Nat.succ_le_succ (rises.potential_le acyclic))
  unfold Config.x_chosen
  split
  · exact advance_exit tame running vars (fun _ => rfl) trivial
  · rename_i f stack cons
    have below : (c.s.ms f.mi).cost ≤ (f.m_beta : Cost) := tame.frames f (by rw [cons]; exact List.mem_cons_self ..)
    split
    · rename_i e edges i insts p_ssmax _
      refine popped f stack _ cons ?_ ?_ <;> cases insts <;> first | rfl | exact below
    · exact popped f stack _ cons rfl below

/-- Raising the cost of the candidate of the current frame. -/
theorem advance_raise (acyclic : P.G.Acyclic) (tame : P.Tame ops c) {stack : List (Suspended P.G)}
    {m : P.G.MI} {cost : Cost} {v : V} {t' : XTarget P.G} (rises : Rises c.s s)
    (ms : s.ms = c.s.ms) (vars : ∀ u, P.VarVal u (s.vs u).cost) (sub : ∀ f ∈ stack, f ∈ c.stack)
    (val : P.ModelVal m cost) (raised : (c.s.ms m).cost < cost) (fresh : ∀ f ∈ stack, f.mi ≠ m)
    (running : ∀ e, c.pc ≠ .done e) (chosen : P.pcChosen c.pc = []) :
    P.Advance ops root c ⟨s.setModelCost m cost, v, stack, .candidate t'⟩ where
  tame := {
    vars := vars
    models := fun m' => by
      by_cases same : m' = m
      · subst same
        rw [Search.setModelCost_self]
        exact val
      · rw [Search.setModelCost_of_ne _ _ same, ms]
        exact tame.models m'
    frames := fun f hf => by
      rw [Search.setModelCost_of_ne _ _ (fresh f hf), ms]
      exact tame.frames f (sub f hf)
    at' := trivial }
  smaller := by
    have rises' : Rises c.s (s.setModelCost m cost) := by
      refine ⟨fun m' => ?_, rises.eval, rises.chain⟩
      by_cases same : m' = m
      · subst same
        rw [Search.setModelCost_self]
        exact raised.le
      · rw [Search.setModelCost_of_ne _ _ same]
        exact rises.cost m'
    refine smaller_of_left ?_
    rw [show c = ⟨c.s, c.v, c.stack, c.pc⟩ from rfl, left_of_running c.pc c.v running chosen]
    exact Nat.succ_lt_succ (rises'.potential_lt_of_cost (m := m) acyclic
      (by rw [Search.setModelCost_self]; exact val) (by rw [Search.setModelCost_self]; exact raised))

/-- `x_failed`. -/
theorem Advance.x_failed (acyclic : P.G.Acyclic) (inv : P.Inv root c) (tame : P.Tame ops c)
    {cost : Cost} (pc : c.pc = .x_failed t cost) : P.Advance ops root c (c.x_failed t cost) := by
  obtain ⟨top, low, exceeds, _⟩ : P.PcOk root c.s c.stack (.x_failed t cost) := by
    rw [← pc]
    exact inv.at'
  have val : P.VarVal t.x cost := by
    have := tame.at'
    rwa [pc] at this
  have running : ∀ e, c.pc ≠ .done e := by rw [pc]; simp
  have chosen : P.pcChosen c.pc = [] := by rw [pc]; rfl
  have vars : ∀ u, P.VarVal u ((c.s.setCost t.x cost).vs u).cost := by
    intro u
    by_cases same : u = t.x
    · subst same; rw [Search.setCost_self]; exact val
    · rw [Search.setCost_of_ne _ _ same]; exact tame.vars u
  have rises : Rises c.s (c.s.setCost t.x cost) := Rises.of_eq (fun _ => rfl) rfl fun u => by simp
  have below := top.below
  unfold Config.x_failed
  split
  · exact advance_exit tame running vars (fun _ => rfl) (Or.inr (Or.inr ⟨_, _, rfl⟩))
  · rename_i f stack cons
    rw [cons] at below
    obtain ⟨frame, waits, betas, rest⟩ := below
    have sub : ∀ g ∈ stack, g ∈ c.stack := fun g hg => by rw [cons]; exact List.mem_cons_of_mem _ hg
    have under : (c.s.ms f.mi).cost ≤ (f.m_beta : Cost) := tame.frames f (by rw [cons]; exact List.mem_cons_self ..)
    have resume := frame.resume
    unfold ResumeAt at resume
    split
    · rename_i e edges i insts p_ssmax at'
      simp only [at'] at resume
      simp only [awaited, awaitedBeta, at'] at waits betas
      obtain ⟨⟨done, pre, position, list, _, _⟩, regs⟩ := resume
      have finite : f.m_costS ≠ ⊤ := fun top => regs.finite (by rw [top, top_add])
      obtain ⟨q, eq⟩ := WithTop.ne_top_iff_exists.mp finite
      have exceeds' : (f.m_betaS : Cost) < f.m_costS + cost := by
        rw [← betas, ← eq] at exceeds
        rw [← eq]
        calc (f.m_betaS : Cost) = (q : Cost) + ((f.m_betaS - q : ℚ) : Cost) := by
              rw [← WithTop.coe_add]; congr 1; ring
          _ < (q : Cost) + cost := WithTop.add_lt_add_left WithTop.coe_ne_top exceeds
      have raised : (c.s.ms f.mi).cost < f.m.costf (f.m_costS + cost) := by
        refine under.trans_lt (((P.valid.model f.m_i).lt_costf_iff _ _).mpr ?_)
        rw [regs.betaS] at exceeds'
        exact exceeds'
      have value : P.ModelVal f.mi (f.m.costf (f.m_costS + cost)) := by
        rw [position.sum]
        have prem : t.x ∈ P.G.prems P.maps f.mi := by
          rw [← waits]
          refine Graph.mem_prems_of (m := f.mi) ?_ (by rw [show P.maps.mapE e.map f.mi.2 = _ from list]; simp)
          rw [show (P.G.models f.mi.1).cparams.reverse = _ from position.split]
          simp
        exact .param f.mi done t.x cost ⟨_, position.split.symm⟩ prem val
      exact advance_raise acyclic tame rises rfl vars sub value raised (rest.mi_fresh acyclic frame.selected)
        running chosen
    · rename_i e edges i insts at'
      simp only [at'] at resume
      have after : ((c.s.setCost t.x cost).setEval (e.idx, i)).ss (e.idx, i) = ⟨(c.s.ss (e.idx, i)).pass, true⟩ := by
        rw [Search.setEval_self]; rfl
      have rises' : Rises c.s ((c.s.setCost t.x cost).setEval (e.idx, i)) := by
        refine ⟨fun _ => le_rfl, fun w old => ?_, fun u => by simp⟩
        by_cases same : w = (e.idx, i)
        · subst same; rw [after]
        · rwa [Search.setEval_of_ne _ same]
      refine ⟨⟨vars, tame.models, fun g hg => tame.frames g (sub g hg), under⟩, smaller_of_left ?_⟩
      rw [show c = ⟨c.s, c.v, c.stack, c.pc⟩ from rfl, left_of_running c.pc c.v running chosen]
      exact Nat.succ_lt_succ (rises'.potential_lt_of_eval acyclic resume.2.2.1 (by rw [after]))

/-- `x_bound`. -/
theorem Advance.x_bound (acyclic : P.G.Acyclic) (inv : P.Inv root c) (tame : P.Tame ops c)
    {M_costS : Cost} (pc : c.pc = .x_bound X M_costS) : P.Advance ops root c (c.x_bound X M_costS) := by
  obtain ⟨top, _, exceeds, _⟩ : P.PcOk root c.s c.stack (.x_bound X M_costS) := by
    rw [← pc]
    exact inv.at'
  obtain ⟨value, under⟩ : P.TameAt ops c.s (.x_bound X M_costS) := by
    rw [← pc]
    exact tame.at'
  unfold Config.x_bound
  simp only [if_neg (not_le.mpr exceeds)]
  exact advance_raise acyclic tame (Rises.of_eq (fun _ => rfl) rfl fun _ => rfl) rfl tame.vars
    (fun f hf => hf) value (under.trans_lt exceeds) (top.below.mi_fresh acyclic top.selected)
    (by rw [pc]; simp) (by rw [pc]; rfl)

/-- Recording the chain of the current target. -/
theorem advance_choose (acyclic : P.G.Acyclic) (tame : P.Tame ops c) {ei : Nat} {j : Inst} {cost : Cost}
    (vs : s.vs = c.s.vs) (unchained : (c.s.vs t.x).chain = none) (rises : Rises c.s s)
    (models : ∀ m, P.ModelVal m (s.ms m).cost) (frames : ∀ f ∈ c.stack, (s.ms f.mi).cost ≤ (f.m_beta : Cost))
    (val : P.VarVal t.x cost) (running : ∀ e, c.pc ≠ .done e) (chosen : P.pcChosen c.pc = [])
    (same : t.x.1 = P.pcVar root c.pc) (works : 0 < P.work c.pc) :
    P.Advance ops root c ⟨s.setChain t.x ei j, c.v, c.stack, .x_chosen t cost⟩ where
  tame := ⟨fun u => by simpa [vs] using tame.vars u, models, frames, val⟩
  smaller := by
    have after : ((s.setChain t.x ei j).vs t.x).chain.isSome = true := by rw [Search.setChain_self]; rfl
    have rises' : Rises c.s (s.setChain t.x ei j) := by
      refine ⟨rises.cost, rises.eval, fun u old => ?_⟩
      by_cases here : u = t.x
      · subst here; exact after
      · rw [Search.setChain_of_ne _ _ _ here, vs]; exact old
    refine smaller_of_work ?_ same works
    rw [show c = ⟨c.s, c.v, c.stack, c.pc⟩ from rfl, left_of_running c.pc c.v running chosen]
    exact Nat.succ_le_succ (rises'.potential_lt_of_chain acyclic unchained after)

/-- `candidate`. -/
theorem Advance.candidate (acyclic : P.G.Acyclic) (inv : P.Inv root c) (tame : P.Tame ops c)
    (pc : c.pc = .candidate t) : P.Advance ops root c (c.candidate ops t) := by
  have top : P.Top root c.s c.stack t := by
    have := inv.at'
    rwa [pc] at this
  have running : ∀ e, c.pc ≠ .done e := by rw [pc]; simp
  have chosen : P.pcChosen c.pc = [] := by rw [pc]; rfl
  have same : t.x.1 = P.pcVar root c.pc := by rw [pc]; rfl
  have scan := scan_ok c.s t
  have val : P.VarVal t.x (t.scan c.s).m_cost := by
    cases best : (t.scan c.s).best with
    | none => rw [scan.unset best]; exact .top _
    | some b =>
      obtain ⟨cand, cost⟩ := scan.best b best
      rw [← cost]
      exact .model t.x b.2 _ (List.mem_map.mpr ⟨b, top.cands ▸ cand, rfl⟩) (tame.models b.2)
  have failed : P.Advance ops root c (c.goto (.x_failed t (t.scan c.s).m_cost)) :=
    advance_loop acyclic tame (Rises.of_eq (fun _ => rfl) rfl fun _ => rfl) (fun _ => rfl) tame.vars val
      running chosen rfl same (by rw [pc]; exact Nat.succ_pos _)
  unfold Config.candidate
  simp only
  split
  · exact failed
  rename_i under
  split
  · exact failed
  · rename_i m_ei m best
    obtain ⟨cand, cost⟩ := scan.best _ best
    split
    · exact advance_choose acyclic tame rfl top.unchained (Rises.of_eq (fun _ => rfl) rfl fun _ => rfl)
        tame.models tame.frames val running chosen same (by rw [pc]; exact Nat.succ_pos _)
    · have rises : Rises c.s (c.s.setModelExpanded m) := Rises.of_eq (fun _ => by simp) rfl fun _ => rfl
      split
      · rename_i e exited
        have exits : ops.Exits e := by
          split at exited
          · cases exited
          · exact .mexpandbe _ _ _ _ exited
        have vars : ∀ u, P.VarVal u ((c.s.setModelExpanded m).vs u).cost := tame.vars
        exact advance_exit tame running vars (fun _ => by simp) (Or.inl exits)
      · refine advance_loop acyclic tame rises (fun _ => by simp) tame.vars ?_ running chosen rfl same ?_
        · have low := scan.le_beta
          rw [min_eq_left (not_lt.mp under), ← cost] at low
          show ((c.s.setModelExpanded m).ms m).cost ≤ _
          rwa [Search.setModelExpanded_cost]
        · rw [pc]
          exact Nat.lt_succ_of_le (Finset.le_sup
            (f := fun m : P.G.MI => P.loopWork m + P.shadowWork m (P.G.models m.1).shadows)
            (Finset.mem_univ m))

section ShadowSteps
variable {e : ShEdge P.G.nw} {edges : List (ShEdge P.G.nw)} {i : Inst} {insts : List Inst}
  {M_costS : Cost} {M_betaS : ℚ}

theorem work_nextShadow : P.work (Config.nextShadow X e edges insts M_costS M_betaS) =
    P.loopWork X.mi + P.shadowWork X.mi edges + 3 * insts.length := by
  cases insts <;> simp [Config.nextShadow, work]

theorem tameAt_nextShadow (below : (s.ms X.mi).cost ≤ (X.m_beta : Cost)) :
    P.TameAt ops s (Config.nextShadow X e edges insts M_costS M_betaS) := by
  cases insts <;> exact below

theorem pcVar_nextShadow : P.pcVar root (Config.nextShadow X e edges insts M_costS M_betaS) = X.x.1 := by
  cases insts <;> rfl

theorem pcChosen_nextShadow : P.pcChosen (Config.nextShadow X e edges insts M_costS M_betaS) = [] := by
  cases insts <;> rfl

/-- Going on in the shadow loop. -/
theorem advance_nextShadow (acyclic : P.G.Acyclic) (tame : P.Tame ops c) {v : V} (rises : Rises c.s s)
    (ms : ∀ m, (s.ms m).cost = (c.s.ms m).cost) (vars : ∀ u, P.VarVal u (s.vs u).cost)
    (below : (c.s.ms X.mi).cost ≤ (X.m_beta : Cost)) (running : ∀ e, c.pc ≠ .done e)
    (chosen : P.pcChosen c.pc = []) (same : X.x.1 = P.pcVar root c.pc)
    (less : P.loopWork X.mi + P.shadowWork X.mi edges + 3 * insts.length < P.work c.pc) :
    P.Advance ops root c ⟨s, v, c.stack, Config.nextShadow X e edges insts M_costS M_betaS⟩ :=
  advance_loop acyclic tame rises ms vars (tameAt_nextShadow (by rw [ms]; exact below)) running chosen
    pcChosen_nextShadow (pcVar_nextShadow.trans same) (by rw [work_nextShadow]; exact less)

/-- One shadow edge. -/
theorem Advance.shadow (acyclic : P.G.Acyclic) (tame : P.Tame ops c)
    (pc : c.pc = .shadow X edges M_costS M_betaS) :
    P.Advance ops root c (c.shadow P.maps X edges M_costS M_betaS) := by
  have below : (c.s.ms X.mi).cost ≤ (X.m_beta : Cost) := by
    have := tame.at'
    rwa [pc] at this
  have running : ∀ e, c.pc ≠ .done e := by rw [pc]; simp
  have chosen : P.pcChosen c.pc = [] := by rw [pc]; rfl
  have rises : Rises c.s c.s := Rises.of_eq (fun _ => rfl) rfl fun _ => rfl
  unfold Config.shadow
  split
  · refine advance_loop acyclic tame rises (fun _ => rfl) tame.vars below running chosen rfl
      (by rw [pc]; rfl) ?_
    rw [pc]
    simp [work, loopWork, shadowWork, XState.mi, XState.m]
  · refine advance_nextShadow acyclic tame rises (fun _ => rfl) tame.vars below running chosen
      (by rw [pc]; rfl) ?_
    rw [pc]
    simp only [work, shadowWork, List.map_cons, List.sum_cons, XState.mi]
    omega

/-- `S_checkscan` and the test of the pass bit. -/
theorem advance_scanCheck (acyclic : P.G.Acyclic) (tame : P.Tame ops c) {v : V} {scanned : List Inst}
    (vars : ∀ u, P.VarVal u (s.vs u).cost) (ms : ∀ m, (s.ms m).cost = (c.s.ms m).cost)
    (rises : Rises c.s s) (below : (c.s.ms X.mi).cost ≤ (X.m_beta : Cost))
    (running : ∀ e, c.pc ≠ .done e) (chosen : P.pcChosen c.pc = []) (same : X.x.1 = P.pcVar root c.pc)
    (less : P.loopWork X.mi + P.shadowWork X.mi edges + 3 * insts.length + 1 < P.work c.pc) :
    P.Advance ops root c
      (Config.scanCheck ops { c with s, v } X e edges i insts scanned M_costS M_betaS) := by
  have rises' : Rises c.s (s.checkscan (ops.guard v) e.idx scanned) := by
    refine ⟨rises.cost, fun w old => ?_, rises.chain⟩
    by_cases inside : w.1 = e.idx ∧ w.2 ∈ scanned
    · rw [show w = (e.idx, w.2) from Prod.ext inside.1 rfl, Search.checkscan_of_mem _ inside.2]
    · rw [Search.checkscan_of_not _ inside]
      exact rises.eval w old
  unfold Config.scanCheck
  simp only
  split
  · exact advance_nextShadow acyclic tame rises' ms vars below running chosen same (by omega)
  · have under : (s.ms X.mi).cost ≤ (X.m_beta : Cost) := by rw [ms]; exact below
    refine advance_loop acyclic tame rises' ms vars under running chosen rfl same ?_
    show P.loopWork X.mi + P.shadowWork X.mi edges + 1 < P.work c.pc
    omega

/-- `S_compute_value` for a checked instance with a chain. -/
theorem Advance.shadow_compute (around : P.Surroundings ops) (acyclic : P.G.Acyclic) (inv : P.Inv root c)
    (tame : P.Tame ops c) (pc : c.pc = .shadow_compute X e edges i insts M_costS M_betaS) :
    P.Advance ops root c (c.shadow_compute P.maps ops X e edges i insts M_costS M_betaS) := by
  obtain ⟨_, _, _, _, chain⟩ :
      P.PcOk root c.s c.stack (.shadow_compute X e edges i insts M_costS M_betaS) := by
    rw [← pc]
    exact inv.at'
  have below : (c.s.ms X.mi).cost ≤ (X.m_beta : Cost) := by
    have := tame.at'
    rwa [pc] at this
  have running : ∀ e, c.pc ≠ .done e := by rw [pc]; simp
  have chosen : P.pcChosen c.pc = [] := by rw [pc]; rfl
  unfold Config.shadow_compute
  simp only
  split
  · rename_i err exited
    exact advance_exit tame running tame.vars (fun _ => rfl) (Or.inl (.compute _ _ _ _ exited))
  · rename_i s v computed
    obtain ⟨same, _⟩ := around.compute _ _ _ _ _ inv.search chain computed
    refine advance_scanCheck acyclic tame (fun u => by rw [same.cost]; exact tame.vars u) same.mcost
      (Rises.of_eq same.mcost same.ss same.chain) below running chosen (by rw [pc]; rfl) ?_
    rw [pc]
    simp only [work]
    omega

/-- One instance of a shadow edge. -/
theorem Advance.shadow_inst (acyclic : P.G.Acyclic) (inv : P.Inv root c) (tame : P.Tame ops c)
    (pc : c.pc = .shadow_inst X e edges i insts M_costS M_betaS) :
    P.Advance ops root c (c.shadow_inst P.maps ops X e edges i insts M_costS M_betaS) := by
  obtain ⟨top, _, at'⟩ : P.PcOk root c.s c.stack (.shadow_inst X e edges i insts M_costS M_betaS) := by
    rw [← pc]
    exact inv.at'
  have below : (c.s.ms X.mi).cost ≤ (X.m_beta : Cost) := by
    have := tame.at'
    rwa [pc] at this
  have running : ∀ e, c.pc ≠ .done e := by rw [pc]; simp
  have chosen : P.pcChosen c.pc = [] := by rw [pc]; rfl
  have same : X.x.1 = P.pcVar root c.pc := by rw [pc]; rfl
  have rises : Rises c.s c.s := Rises.of_eq (fun _ => rfl) rfl fun _ => rfl
  have work : P.work c.pc = P.loopWork X.mi + P.shadowWork X.mi edges + 3 * (insts.length + 1) := by
    rw [pc]; rfl
  unfold Config.shadow_inst
  simp only
  split
  · exact advance_nextShadow acyclic tame rises (fun _ => rfl) tame.vars below running chosen same
      (by rw [work]; omega)
  split
  · refine advance_loop acyclic tame rises (fun _ => rfl) tame.vars below running chosen rfl same ?_
    rw [work]
    simp only [Problem.work]
    omega
  split
  · rename_i computed
    split
    · rename_i err exited
      exact advance_exit tame running tame.vars (fun _ => rfl) (Or.inl (.vexpandsp _ _ _ exited))
    · split
      · refine advance_push tame below running chosen ?_
        rw [← same]
        exact top.selected.depends_shadow at'.mem computed
      · split
        · exact advance_scanCheck acyclic tame tame.vars (fun _ => rfl) rises below running chosen same
            (by rw [work]; omega)
        · refine advance_loop acyclic tame rises (fun _ => rfl) tame.vars below running chosen rfl same ?_
          rw [work]
          simp only [Problem.work]
          omega
  · split
    · rename_i err exited
      exact advance_exit tame running tame.vars (fun _ => rfl) (Or.inl (.given1 _ _ _ exited))
    · exact advance_scanCheck acyclic tame tame.vars (fun _ => rfl) rises below running chosen same
        (by rw [work]; omega)

/-- `shadow_penalty`. -/
theorem Advance.shadow_penalty (acyclic : P.G.Acyclic) (inv : P.Inv root c) (tame : P.Tame ops c)
    (pc : c.pc = .shadow_penalty X e edges M_costS M_betaS) :
    P.Advance ops root c (c.shadow_penalty X e edges M_costS M_betaS) := by
  obtain ⟨_, _, ⟨done, at'⟩, _, _⟩ :
      P.PcOk root c.s c.stack (.shadow_penalty X e edges M_costS M_betaS) := by
    rw [← pc]
    exact inv.at'
  have below : (c.s.ms X.mi).cost ≤ (X.m_beta : Cost) := by
    have := tame.at'
    rwa [pc] at this
  have running : ∀ e, c.pc ≠ .done e := by rw [pc]; simp
  have chosen : P.pcChosen c.pc = [] := by rw [pc]; rfl
  have rises : Rises c.s c.s := Rises.of_eq (fun _ => rfl) rfl fun _ => rfl
  unfold Config.shadow_penalty
  simp only
  split
  · have value : P.ModelVal X.mi (X.m.costf (M_costS + e.penalty)) := by
      rw [at'.sum]
      refine .penalty X.mi done e ⟨_, at'.split.symm⟩ ?_
      rw [show (P.G.models X.mi.1).shadows = _ from at'.split]
      simp
    refine advance_loop acyclic tame rises (fun _ => rfl) tame.vars ⟨value, below⟩ running chosen rfl
      (by rw [pc]; rfl) ?_
    rw [pc]
    exact Nat.succ_pos _
  · refine advance_loop acyclic tame rises (fun _ => rfl) tame.vars below running chosen rfl
      (by rw [pc]; rfl) ?_
    rw [pc]
    exact Nat.lt_succ_self _

end ShadowSteps

section ParamSteps
variable {e : Edge P.G.nv} {edges : List (Edge P.G.nv)} {i : Inst} {insts : List Inst}
  {p_ssmax M_costS : Cost} {M_betaS : ℚ}

/-- Going on in the parameter loop. -/
theorem advance_nextParam (acyclic : P.G.Acyclic) (tame : P.Tame ops c)
    (below : (c.s.ms X.mi).cost ≤ (X.m_beta : Cost)) (running : ∀ e, c.pc ≠ .done e)
    (chosen : P.pcChosen c.pc = []) (same : X.x.1 = P.pcVar root c.pc)
    (less : P.paramWork X.mi edges + 2 + insts.length < P.work c.pc) :
    P.Advance ops root c ⟨c.s, c.v, c.stack, Config.nextParam X e edges insts p_ssmax M_costS M_betaS⟩ := by
  refine advance_loop acyclic tame (Rises.of_eq (fun _ => rfl) rfl fun _ => rfl) (fun _ => rfl) tame.vars
    ?_ running chosen ?_ ?_ ?_
  · cases insts <;> exact below
  · cases insts <;> rfl
  · cases insts <;> exact same
  · refine lt_of_le_of_lt (le_of_eq ?_) less
    cases insts <;> simp [Config.nextParam, work]

/-- One parameter edge. -/
theorem Advance.param (acyclic : P.G.Acyclic) (tame : P.Tame ops c)
    (pc : c.pc = .param X edges M_costS M_betaS) :
    P.Advance ops root c (c.param P.maps X edges M_costS M_betaS) := by
  have below : (c.s.ms X.mi).cost ≤ (X.m_beta : Cost) := by
    have := tame.at'
    rwa [pc] at this
  have running : ∀ e, c.pc ≠ .done e := by rw [pc]; simp
  have chosen : P.pcChosen c.pc = [] := by rw [pc]; rfl
  unfold Config.param
  split
  · refine advance_loop acyclic tame (Rises.of_eq (fun _ => rfl) rfl fun _ => rfl) (fun _ => rfl) tame.vars
      below running chosen rfl (by rw [pc]; rfl) ?_
    rw [pc]
    simp [work, paramWork]
  · refine advance_nextParam acyclic tame below running chosen (by rw [pc]; rfl) ?_
    rw [pc]
    simp only [work, paramWork, List.map_cons, List.sum_cons, XState.mi]
    omega

/-- One instance of a parameter edge. -/
theorem Advance.param_inst (acyclic : P.G.Acyclic) (inv : P.Inv root c) (tame : P.Tame ops c)
    (pc : c.pc = .param_inst X e edges i insts p_ssmax M_costS M_betaS) :
    P.Advance ops root c (c.param_inst X e edges i insts p_ssmax M_costS M_betaS) := by
  obtain ⟨top, _, at'⟩ :
      P.PcOk root c.s c.stack (.param_inst X e edges i insts p_ssmax M_costS M_betaS) := by
    rw [← pc]
    exact inv.at'
  have below : (c.s.ms X.mi).cost ≤ (X.m_beta : Cost) := by
    have := tame.at'
    rwa [pc] at this
  have running : ∀ e, c.pc ≠ .done e := by rw [pc]; simp
  have chosen : P.pcChosen c.pc = [] := by rw [pc]; rfl
  have same : X.x.1 = P.pcVar root c.pc := by rw [pc]; rfl
  unfold Config.param_inst
  simp only
  split
  · obtain ⟨done, pre, position, list, _, _⟩ := at'
    have value : P.ModelVal X.mi (X.m.costf (M_costS + (c.s.vs (e.idx, i)).cost)) := by
      rw [position.sum]
      have prem : (e.idx, i) ∈ P.G.prems P.maps X.mi := by
        refine Graph.mem_prems_of (m := X.mi) ?_ (by rw [show P.maps.mapE e.map X.mi.2 = _ from list]; simp)
        rw [show (P.G.models X.mi.1).cparams.reverse = _ from position.split]
        simp
      exact .param X.mi done (e.idx, i) _ ⟨_, position.split.symm⟩ prem (tame.vars _)
    refine advance_loop acyclic tame (Rises.of_eq (fun _ => rfl) rfl fun _ => rfl) (fun _ => rfl) tame.vars
      ⟨value, below⟩ running chosen rfl same ?_
    rw [pc]
    exact Nat.succ_pos _
  split
  · refine advance_nextParam acyclic tame below running chosen same ?_
    rw [pc]
    simp only [work]
    omega
  · refine advance_push tame below running chosen ?_
    rw [← same]
    exact top.selected.depends_param at'.mem

/-- The chain of a model is solved. -/
theorem Advance.solved (acyclic : P.G.Acyclic) (inv : P.Inv root c) (tame : P.Tame ops c)
    (pc : c.pc = .solved X M_costS M_betaS) : P.Advance ops root c (c.solved X M_costS) := by
  obtain ⟨top, _, done, at'⟩ : P.PcOk root c.s c.stack (.solved X M_costS M_betaS) := by
    rw [← pc]
    exact inv.at'
  have value : P.ModelVal X.mi (X.m.costf M_costS) := by
    have all : (P.G.models X.mi.1).cparams.reverse = done := at'.split.trans (List.append_nil _)
    have := ModelVal.solved (P := P) X.mi
    rw [all] at this
    rwa [at'.sum]
  have low : (c.s.ms X.mi).cost ≤ X.m.costf M_costS := inv.search.model_low X.mi at'.exact_cost.1.1
  unfold Config.solved
  refine advance_choose (t := X.toXTarget) acyclic tame rfl top.unchained ?_ (fun m => ?_) (fun f hf => ?_)
    (.model X.x X.mi _ (List.mem_map.mpr ⟨_, top.selected.cands ▸ top.selected.cand, rfl⟩) value)
    (by rw [pc]; simp) (by rw [pc]; rfl) (by rw [pc]; rfl) (by rw [pc]; exact Nat.one_pos)
  · refine ⟨fun m => ?_, fun _ => id, fun _ => id⟩
    by_cases same : m = X.mi
    · subst same; rw [Search.setModelChain_self]; exact low
    · rw [Search.setModelChain_of_ne _ _ same]
  · by_cases same : m = X.mi
    · subst same; rw [Search.setModelChain_self]; exact value
    · rw [Search.setModelChain_of_ne _ _ same]; exact tame.models m
  · rw [Search.setModelChain_of_ne _ _ (solved_fresh top at' f hf)]
    exact tame.frames f hf

end ParamSteps

/-- Every step makes progress. -/
theorem Advance.step (around : P.Surroundings ops) (acyclic : P.G.Acyclic) (tight : P.Tight)
    (inv : P.Inv root c) (tame : P.Tame ops c) (taken : Fhk.step P.maps ops c = some c') :
    P.Advance ops root c c' := by
  unfold Fhk.step at taken
  split at taken
  · rename_i pc; cases taken; exact .x_solve acyclic tight inv tame pc
  · rename_i pc; cases taken; exact .x_chosen acyclic tame pc
  · rename_i pc; cases taken; exact .x_failed acyclic inv tame pc
  · rename_i pc; cases taken; exact .x_bound acyclic inv tame pc
  · rename_i pc; cases taken; exact .candidate acyclic inv tame pc
  · rename_i pc; cases taken; exact .shadow acyclic tame pc
  · rename_i pc; cases taken; exact .shadow_inst acyclic inv tame pc
  · rename_i pc; cases taken; exact .shadow_compute around acyclic inv tame pc
  · rename_i pc; cases taken; exact .shadow_penalty acyclic inv tame pc
  · rename_i pc; cases taken; exact .param acyclic tame pc
  · rename_i pc; cases taken; exact .param_inst acyclic inv tame pc
  · rename_i pc; cases taken; exact .solved acyclic inv tame pc
  · cases taken

end Problem
end M2.Fhk
