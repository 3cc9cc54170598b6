import M2.Fhk.SearchBounds

/-!
# Every step keeps the invariant

One lemma for each label of `S_select_chain`. The labels that leave the search state
alone, or change it in a way the frames do not see, share `Inv.update`.
-/
namespace M2.Fhk
open M2.Lib

namespace Problem
variable {P : Problem} {V : Type} {ops : Ops P.G V} {root : P.G.VI} {c : Config P.G V}
  {s s' : Search P.G} {stack : List (Suspended P.G)} {t : XTarget P.G} {X : XState P.G}

theorem SP_MARK_neg : SP_MARK < 0 := by
  rw [SP_MARK, ← WithTop.coe_zero, WithTop.coe_lt_coe]
  norm_num

theorem Top.keep (h : P.Top root s stack t) (below : P.StackOk s' root t.x t.x_beta stack)
    (marked : s'.marked t.x = s.marked t.x) (chain : (s'.vs t.x).chain = (s.vs t.x).chain) :
    P.Top root s' stack t :=
  ⟨below, h.fresh, marked.trans h.marked, chain.trans h.unchained, h.cands⟩

theorem TopX.keep (h : P.TopX root s stack X) (below : P.StackOk s' root X.x X.x_beta stack)
    (marked : s'.marked X.x = s.marked X.x) (chain : (s'.vs X.x).chain = (s.vs X.x).chain)
    (mchain : (s'.ms X.mi).chain = (s.ms X.mi).chain) : P.TopX root s' stack X :=
  ⟨h.toTop.keep below marked chain, h.selected, mchain.trans h.unsolved⟩

theorem Surroundings.exit_ne (around : P.Surroundings ops) {e : Exit} (exits : ops.Exits e)
    (xi : Nat) (inst : Inst) : e ≠ .nchain xi inst := by
  rintro rfl
  cases around.exits _ exits

/-- A suspended frame that becomes the current one. -/
theorem SuspendedOk.top {f : Suspended P.G} (h : P.SuspendedOk s f)
    (below : P.StackOk s root f.x f.x_beta stack) (fresh : f.x ∉ P.targets stack) :
    P.TopX root s stack f.toXState :=
  ⟨⟨below, fresh, h.marked, h.unchained, h.selected.cands⟩, h.selected, h.unsolved⟩

/-- A step that keeps marks and chains and searches the same instances. -/
theorem Inv.update (inv : P.Inv root c) {pc : Pc P.G} {v : V} (search : P.SearchOk s')
    (marks : ∀ u, s'.marked u = c.s.marked u)
    (chains : ∀ u, (s'.vs u).chain.isSome = true → (c.s.vs u).chain.isSome = true)
    (nodup : (P.targets stack).Nodup) (at' : P.PcOk root s' stack pc)
    (same : P.pcTarget pc ++ P.targets stack = P.pcTarget c.pc ++ P.targets c.stack)
    (chosen : P.pcChosen c.pc = []) (running : ∀ e, c.pc ≠ .done (some e)) :
    P.Inv root ⟨s', v, stack, pc⟩ where
  search := search
  nodup := nodup
  at' := at'
  settled u some marked := by
    have := inv.settled u (chains u some) ((marks u).symm.trans marked)
    rw [chosen] at this
    cases this
  marks tight u marked := by
    rcases inv.marks tight u ((marks u).symm.trans marked) with ⟨e, exited⟩ | mem
    · exact absurd exited (running e)
    · exact .inr (same ▸ mem)

/-- An exit other than `JE_nchain`. -/
theorem Inv.exit (inv : P.Inv root c) {v : V} {e : Exit} (other : ∀ xi inst, e ≠ .nchain xi inst)
    (search : P.SearchOk s') (marks : ∀ u, s'.marked u = c.s.marked u)
    (chains : ∀ u, (s'.vs u).chain.isSome = true → (c.s.vs u).chain.isSome = true)
    (chosen : P.pcChosen c.pc = []) : P.Inv root ⟨s', v, c.stack, .done (some e)⟩ where
  search := search
  nodup := inv.nodup
  at' := by
    cases e with
    | nchain xi inst => exact absurd rfl (other xi inst)
    | _ => trivial
  settled u some marked := by
    have := inv.settled u (chains u some) ((marks u).symm.trans marked)
    rw [chosen] at this
    cases this
  marks _ _ _ := .inl ⟨e, rfl⟩

/-- Recording the chain of the current target. -/
theorem Inv.choose (inv : P.Inv root c) {ei : Nat} {j : Inst} {cost : Cost} (vs : s.vs = c.s.vs)
    (search : P.SearchOk (s.setChain t.x ei j))
    (below : P.StackOk (s.setChain t.x ei j) root t.x t.x_beta c.stack)
    (fresh : t.x ∉ P.targets c.stack) (least : IsLeast (P.sys.costs t.x) cost)
    (bound : cost ≤ (t.x_beta : Cost)) (target : P.pcTarget c.pc = [t.x])
    (chosen : P.pcChosen c.pc = []) (running : ∀ e, c.pc ≠ .done (some e)) :
    P.Inv root ⟨s.setChain t.x ei j, c.v, c.stack, .x_chosen t cost⟩ := by
  have marks : ∀ u, (s.setChain t.x ei j).marked u = c.s.marked u := by
    intro u
    simp [Search.marked, vs]
  refine ⟨search, inv.nodup, ⟨below, fresh, ?_, least, bound⟩, fun u some marked => ?_,
    fun tight u marked => .inr ?_⟩
  · rw [Search.setChain_self]; rfl
  · by_cases same : u = t.x
    · simp [pcChosen, same]
    · rw [Search.setChain_of_ne _ _ _ same, vs] at some
      have := inv.settled u some ((marks u).symm.trans marked)
      rw [chosen] at this
      cases this
  · rcases inv.marks tight u ((marks u).symm.trans marked) with ⟨e, exited⟩ | mem
    · exact absurd exited (running e)
    · rw [target] at mem
      exact mem

section Loops
variable {e : ShEdge P.G.nw} {edges done : List (ShEdge P.G.nw)} {insts : List Inst} {i : Inst}
  {M_costS : Cost} {M_betaS : ℚ}

@[simp] theorem pcTarget_nextShadow :
    P.pcTarget (Config.nextShadow X e edges insts M_costS M_betaS) = [X.x] := by
  cases insts <;> rfl

theorem EvalList.of_passed {w : Fin P.G.nw} {l : List Inst}
    (passed : ∀ i ∈ l, P.pass w i = true ∧ (s.ss (w, i)).eval = true) : P.EvalList s w l := by
  simpa using EvalList.append (l := []) passed trivial

theorem nextShadow_ok (pre : List Inst) (top : P.TopX root s stack X) (regs : P.Regs X M_costS M_betaS)
    (at' : P.ShadowAt s X done (e :: edges) M_costS)
    (list : P.maps.mapE e.map X.m_inst = pre ++ insts)
    (passed : ∀ i ∈ pre, P.pass e.idx i = true ∧ (s.ss (e.idx, i)).eval = true) :
    P.PcOk root s stack (Config.nextShadow X e edges insts M_costS M_betaS) := by
  cases insts with
  | cons i rest => exact ⟨top, regs, done, pre, at', list, passed⟩
  | nil =>
    rw [List.append_nil] at list
    have free : P.G.penaltyOf P.maps P.pass X.m_inst e = 0 := by
      rw [Graph.penaltyOf, if_pos]
      rw [list, List.all_eq_true]
      exact fun i hi => (passed i hi).1
    refine ⟨top, regs, done ++ [e], ?_, ?_, ?_⟩
    · rw [at'.split, List.append_assoc]; rfl
    · rw [List.map_append, List.sum_append, ← at'.sum]
      simp [free]
    · intro d hd
      rcases List.mem_append.mp hd with old | new
      · exact at'.evaluated d old
      · cases List.mem_singleton.mp new
        rw [list]
        exact .of_passed passed

/-- A failing instance makes the penalty of its edge due. -/
theorem penalty_ok (top : P.TopX root s stack X) (regs : P.Regs X M_costS M_betaS)
    (at' : P.ShadowInstAt s X e edges i insts M_costS) (eval : (s.ss (e.idx, i)).eval = true)
    (fails : P.pass e.idx i = false) :
    P.PcOk root s stack (.shadow_penalty X e edges M_costS M_betaS) := by
  obtain ⟨done, pre, at', list, passed⟩ := at'
  refine ⟨top, regs, ⟨done, at'⟩, ?_, ?_⟩
  · rw [list]
    exact EvalList.append passed ⟨eval, fun pass => by rw [fails] at pass; cases pass⟩
  · rw [Graph.penaltyOf, if_neg]
    rw [list, List.all_eq_true]
    intro all
    have := all i (by simp)
    rw [fails] at this
    cases this

theorem ShadowInstAt.mem (at' : P.ShadowInstAt s X e edges i insts M_costS) : e ∈ X.m.shadows := by
  obtain ⟨done, pre, at', _, _⟩ := at'
  rw [at'.split]
  simp

end Loops

section ParamLoop
variable {e : Edge P.G.nv} {edges done : List (Edge P.G.nv)} {insts : List Inst} {i : Inst}
  {p_ssmax M_costS : Cost} {M_betaS : ℚ}

@[simp] theorem pcTarget_nextParam :
    P.pcTarget (Config.nextParam X e edges insts p_ssmax M_costS M_betaS) = [X.x] := by
  cases insts <;> rfl

theorem nextParam_ok (pre : List Inst) (top : P.TopX root s stack X) (regs : P.Regs X (M_costS + p_ssmax) M_betaS)
    (at' : P.ParamAt s X done (e :: edges) M_costS)
    (list : P.maps.mapE e.map X.m_inst = pre ++ insts)
    (solved : ∀ i ∈ pre, P.sys.Exact (e.idx, i) ∧ (s.vs (e.idx, i)).chain.isSome = true)
    (max : p_ssmax = Cost.listMax (pre.map fun i => P.sys.opt (e.idx, i))) :
    P.PcOk root s stack (Config.nextParam X e edges insts p_ssmax M_costS M_betaS) := by
  cases insts with
  | cons i rest => exact ⟨top, regs, done, pre, at', list, solved, max⟩
  | nil =>
    rw [List.append_nil] at list
    refine ⟨top, regs, done ++ [e], ?_, ?_, at'.evaluated, ?_⟩
    · rw [at'.split, List.append_assoc]; rfl
    · have cost : P.G.paramCost P.maps X.m_inst P.sys.opt e = p_ssmax := by
        rw [Graph.paramCost, list, max]
      rw [List.map_append, List.sum_append, ← add_assoc, ← at'.sum]
      simp [cost]
    · intro d hd
      rcases List.mem_append.mp hd with old | new
      · exact at'.exact d old
      · cases List.mem_singleton.mp new
        rw [list]
        exact solved

/-- One more solved instance of a parameter edge. -/
theorem param_solved (top : P.TopX root s stack X) (regs : P.Regs X (M_costS + p_ssmax) M_betaS)
    (at' : P.ParamInstAt s X e edges i insts p_ssmax M_costS) {cost : Cost}
    (least : IsLeast (P.sys.costs (e.idx, i)) cost) (chain : (s.vs (e.idx, i)).chain.isSome = true)
    (finite : M_costS + cost ≠ ⊤) (below : P.Tight → M_costS + cost ≤ (M_betaS : Cost)) :
    P.PcOk root s stack (Config.nextParam X e edges insts (max p_ssmax cost) M_costS M_betaS) := by
  obtain ⟨done, pre, at', list, solved, largest⟩ := at'
  have split : M_costS + max p_ssmax cost = max (M_costS + p_ssmax) (M_costS + cost) :=
    add_max M_costS p_ssmax cost
  refine nextParam_ok (pre ++ [i]) top ⟨regs.betaS, ?_, fun tight => ?_⟩ at' ?_ ?_ ?_
  · rw [split]
    rcases max_choice (M_costS + p_ssmax) (M_costS + cost) with h | h <;> rw [h]
    · exact regs.finite
    · exact finite
  · rw [split]
    exact max_le (regs.below tight) (below tight)
  · rw [list, List.append_assoc]; rfl
  · intro j hj
    rcases List.mem_append.mp hj with old | new
    · exact solved j old
    · cases List.mem_singleton.mp new
      exact ⟨P.sys.exact_of_least least, chain⟩
  · rw [List.map_append, Cost.listMax_append, ← largest]
    simp [P.sys.opt_eq least, costs_nonneg _ least.1]

end ParamLoop

/-- `x_solve`. -/
theorem Inv.x_solve (around : P.Surroundings ops) (inv : P.Inv root c) {x : P.G.VI} {beta : ℚ}
    (pc : c.pc = .x_solve x beta) : P.Inv root (c.x_solve P.maps ops x beta) := by
  obtain ⟨below, unchained⟩ : P.StackOk c.s root x beta c.stack ∧ (c.s.vs x).chain = none := by
    have := inv.at'
    rwa [pc] at this
  have chosen : P.pcChosen c.pc = [] := by rw [pc]; rfl
  unfold Config.x_solve
  split
  · exact inv.exit (by simp) inv.search (fun _ => rfl) (fun _ => id) chosen
  split
  · exact inv.exit (by simp) inv.search (fun _ => rfl) (fun _ => id) chosen
  rename_i clear
  simp only
  split
  · rename_i e failed
    refine inv.exit (around.exit_ne ?_) (inv.search.setExpanded x) (fun u => by simp [Search.marked]) (fun u => by simp) chosen
    split at failed
    · cases failed
    · exact .vexpandbe _ _ _ _ failed
  · rename_i v _
    have fresh : x ∉ P.targets c.stack := by
      intro mem
      obtain ⟨f, hf, rfl⟩ := List.mem_map.mp mem
      exact clear (below.frame hf).marked
    have mark : ((c.s.setExpanded x).setCost x SP_MARK).marked x = true := by
      rw [Search.marked_iff]
      simpa using SP_MARK_neg
    have search : P.SearchOk ((c.s.setExpanded x).setCost x SP_MARK) := by
      refine (inv.search.setExpanded x).setCost ?_ ?_
      · exact fun t derived => SP_MARK_neg.le.trans (costs_nonneg x derived)
      · intro some
        rw [Search.setExpanded_chain, unchained] at some
        cases some
    have others : ∀ u, u ≠ x →
        ((c.s.setExpanded x).setCost x SP_MARK).marked u = c.s.marked u := by
      intro u other
      simp [Search.marked, Search.setCost_of_ne _ _ other]
    have settled : P.Settled ((c.s.setExpanded x).setCost x SP_MARK) [] := by
      intro u some marked
      by_cases same : u = x
      · subst same
        rw [Search.setCost_chain, Search.setExpanded_chain, unchained] at some
        cases some
      · rw [others u same] at marked
        have := inv.settled u (by simpa using some) marked
        rw [chosen] at this
        exact this
    have marks : P.Tight → ∀ u, ((c.s.setExpanded x).setCost x SP_MARK).marked u = true →
        u ∈ [x] ++ P.targets c.stack := by
      intro tight u marked
      by_cases same : u = x
      · simp [same]
      · rw [others u same] at marked
        rcases inv.marks tight u marked with ⟨e, exited⟩ | mem
        · rw [pc] at exited; cases exited
        · rw [pc] at mem
          exact List.mem_append_right _ mem
    have top : ∀ t : XTarget P.G, t.x = x → t.x_beta = beta → t.cands = xcands P.maps x →
        P.Top root ((c.s.setExpanded x).setCost x SP_MARK) c.stack t := by
      rintro t rfl rfl cands
      exact ⟨(below.setExpanded t.x).setCost SP_MARK fresh, fresh, mark,
        by simpa using unchained, cands⟩
    split
    · exact ⟨search, inv.nodup, trivial, settled, fun _ _ _ => .inl ⟨_, rfl⟩⟩
    · split
      · rename_i empty
        refine ⟨search, inv.nodup, ⟨top _ rfl rfl rfl, ?_, WithTop.coe_lt_top _, fun _ => le_top⟩,
          settled, fun tight u marked => .inr (marks tight u marked)⟩
        refine P.sys.lower_of_alts x ⊤ fun m alt => ?_
        have none : P.G.alts P.maps x = [] := by
          simp only [Graph.alts, List.isEmpty_iff.mp empty]
          rfl
        rw [show P.sys.alts x = [] from none] at alt
        cases alt
      · exact ⟨search, inv.nodup, top _ rfl rfl rfl, settled,
          fun tight u marked => .inr (marks tight u marked)⟩

/-- `x_chosen`. -/
theorem Inv.x_chosen (inv : P.Inv root c) {cost : Cost} (pc : c.pc = .x_chosen t cost) :
    P.Inv root (c.x_chosen t cost) := by
  obtain ⟨below, fresh, chain, least, bound⟩ : P.PcOk root c.s c.stack (.x_chosen t cost) := by
    rw [← pc]
    exact inv.at'
  have nonneg : 0 ≤ cost := costs_nonneg _ least.1
  have search : P.SearchOk (c.s.setCost t.x cost) := inv.search.setCost least.2 fun _ _ => least
  have chain' : ((c.s.setCost t.x cost).vs t.x).chain.isSome = true := by simpa using chain
  have clear : (c.s.setCost t.x cost).marked t.x = false := by
    rw [Search.marked_false_iff]
    simpa using nonneg
  have others : ∀ u, (c.s.setCost t.x cost).marked u = true → u ≠ t.x ∧ c.s.marked u = true := by
    intro u marked
    have other : u ≠ t.x := by
      rintro rfl
      rw [clear] at marked
      cases marked
    exact ⟨other, by simpa [Search.marked, Search.setCost_of_ne _ _ other] using marked⟩
  have settled : P.Settled (c.s.setCost t.x cost) [] := by
    intro u some marked
    obtain ⟨other, marked⟩ := others u marked
    have := inv.settled u (by simpa using some) marked
    rw [pc] at this
    exact absurd (List.mem_singleton.mp this) other
  have marks : P.Tight → ∀ u, (c.s.setCost t.x cost).marked u = true → u ∈ P.targets c.stack := by
    intro tight u marked
    obtain ⟨other, marked⟩ := others u marked
    rcases inv.marks tight u marked with ⟨e, exited⟩ | mem
    · rw [pc] at exited; cases exited
    · rw [pc] at mem
      rcases List.mem_append.mp mem with here | mem
      · exact absurd (List.mem_singleton.mp here) other
      · exact mem
  unfold Config.x_chosen
  have below := below.setCost cost fresh
  have nodup := inv.nodup
  split
  · rename_i empty
    rw [empty] at below marks
    refine ⟨search, by rw [empty]; exact List.nodup_nil, ?_, settled, fun tight u marked => .inr (by simpa [empty, pcTarget] using marks tight u marked)⟩
    obtain ⟨same, beta⟩ := below
    rw [beta] at bound
    refine ⟨empty, same ▸ chain', same ▸ clear, ?_⟩
    rw [← same]
    simpa using bound
  · rename_i f stack cons
    rw [cons] at below fresh marks nodup
    obtain ⟨frame, waits, betas, below⟩ := below
    have top := frame.top below (List.nodup_cons.mp nodup).1
    have resume := frame.resume
    unfold ResumeAt at resume
    split
    · rename_i e edges i insts p_ssmax at'
      simp only [at'] at resume
      simp only [awaited, awaitedBeta, at'] at waits betas
      obtain ⟨position, regs⟩ := resume
      have finite : f.m_costS ≠ ⊤ := fun top => regs.finite (by rw [top, top_add])
      obtain ⟨q, eq⟩ := WithTop.ne_top_iff_exists.mp finite
      have bound' : f.m_costS + cost ≤ (f.m_betaS : Cost) := by
        rw [← betas, ← eq] at bound
        rw [← eq]
        calc (q : Cost) + cost ≤ (q : Cost) + ((f.m_betaS - q : ℚ) : Cost) := add_le_add le_rfl bound
          _ = (f.m_betaS : Cost) := by rw [← WithTop.coe_add]; congr 1; ring
      refine ⟨search, (List.nodup_cons.mp nodup).2, ?_, ?_, fun tight u marked => .inr ?_⟩
      · exact param_solved top regs position (by rw [waits]; exact least) (by rw [waits]; exact chain')
          (ne_top_of_le_ne_top WithTop.coe_ne_top bound') fun _ => bound'
      · simp only [pcChosen]
        cases insts <;> exact settled
      · simpa [targets] using marks tight u marked
    · rename_i e edges i insts at'
      simp only [at'] at resume
      simp only [awaited, at'] at waits
      obtain ⟨position, regs, _, computed⟩ := resume
      refine ⟨search, (List.nodup_cons.mp nodup).2, ⟨top, regs, position, computed, ?_⟩, settled,
        fun tight u marked => .inr (by simpa [targets, pcTarget] using marks tight u marked)⟩
      rw [waits]
      exact chain'

/-- `x_failed`. -/
theorem Inv.x_failed (solvable : P.Solvable) (inv : P.Inv root c) {cost : Cost}
    (pc : c.pc = .x_failed t cost) : P.Inv root (c.x_failed t cost) := by
  obtain ⟨top, low, exceeds, nonneg⟩ : P.PcOk root c.s c.stack (.x_failed t cost) := by
    rw [← pc]
    exact inv.at'
  obtain ⟨below, fresh, _, unchained, _⟩ := top
  have search : P.SearchOk (c.s.setCost t.x cost) := inv.search.setCost low fun some => by
    rw [unchained] at some
    cases some
  have settled : P.Settled (c.s.setCost t.x cost) [] := by
    intro u some marked
    by_cases same : u = t.x
    · subst same
      rw [Search.setCost_chain, unchained] at some
      cases some
    · have := inv.settled u (by simpa using some)
        (by simpa [Search.marked, Search.setCost_of_ne _ _ same] using marked)
      rw [pc] at this
      exact this
  have marks : P.Tight → ∀ u, (c.s.setCost t.x cost).marked u = true → u ∈ P.targets c.stack := by
    intro tight u marked
    have other : u ≠ t.x := by
      rintro rfl
      rw [Search.marked_iff] at marked
      exact absurd (nonneg tight) (not_le.mpr (by simpa using marked))
    rcases inv.marks tight u (by simpa [Search.marked, Search.setCost_of_ne _ _ other] using marked) with
      ⟨e, exited⟩ | mem
    · rw [pc] at exited; cases exited
    · rw [pc] at mem
      rcases List.mem_append.mp mem with here | mem
      · exact absurd (List.mem_singleton.mp here) other
      · exact mem
  unfold Config.x_failed
  have below := below.setCost cost fresh
  have nodup := inv.nodup
  split
  · rename_i empty
    rw [empty] at below
    obtain ⟨rfl, beta⟩ := below
    rw [beta] at exceeds
    exact ⟨search, inv.nodup, ⟨empty, rfl, rfl, cost, exceeds, low⟩, settled, fun _ _ _ => .inl ⟨_, rfl⟩⟩
  · rename_i f stack cons
    rw [cons] at below fresh marks nodup
    obtain ⟨frame, waits, betas, below⟩ := below
    have top := frame.top below (List.nodup_cons.mp nodup).1
    have resume := frame.resume
    unfold ResumeAt at resume
    split
    · rename_i e edges i insts p_ssmax at'
      simp only [at'] at resume
      simp only [awaited, at'] at waits
      obtain ⟨⟨done, pre, position, list, _, _⟩, _⟩ := resume
      have low' : f.m.costf (f.m_costS + cost) ∈ lowerBounds (P.sys.altCosts f.mi) :=
        position.low (i := i) (by rw [list]; simp) (by rw [waits]; exact low)
      refine ⟨search.setModelCost low' frame.unsolved fun tight => ?_, (List.nodup_cons.mp nodup).2,
        top.toTop.keep (below.setModelCost f.mi _) rfl rfl, settled, fun tight u marked => .inr ?_⟩
      · exact Cost.k_le_affine (P.valid.model f.m_i).c_pos.le (add_nonneg position.nonneg (nonneg tight))
      · simpa [targets, pcTarget] using marks tight u marked
    · rename_i e edges i insts at'
      simp only [at'] at resume
      simp only [awaited, awaitedBeta, at'] at waits betas
      obtain ⟨position, regs, _, computed⟩ := resume
      have fails : P.pass e.idx i = false := by
        by_contra pass
        have given := P.valid.computed f.m_i e position.mem
        rw [computed] at given
        obtain ⟨d, derived, le⟩ := solvable e.idx i (by simpa using pass) (by simpa using given.symm)
        rw [waits] at derived
        rw [← betas] at exceeds
        exact absurd ((low derived).trans le) (not_le.mpr exceeds)
      have fresh' : ∀ g ∈ stack, awaited g ≠ ((P.G.shadows e.idx).xi, i) := by
        intro g hg same
        rcases below.awaited_mem hg with at_f | mem
        · exact fresh (List.mem_cons.mpr (.inl (by rw [← waits, ← same, at_f])))
        · exact fresh (List.mem_cons_of_mem _ (by rwa [← waits, ← same]))
      have grows : Grows (c.s.setCost t.x cost) ((c.s.setCost t.x cost).setEval (e.idx, i)) :=
        ⟨fun _ => id, fun w old => by
          by_cases same : w = (e.idx, i)
          · subst same; rw [Search.setEval_self]
          · rwa [Search.setEval_of_ne _ same]⟩
      refine ⟨search.setEval fails, (List.nodup_cons.mp nodup).2, ?_, settled, fun tight u marked => .inr ?_⟩
      · exact penalty_ok (top.keep (below.setEval fresh') rfl rfl rfl) regs (position.mono grows)
          (by rw [Search.setEval_self]) fails
      · simpa [targets, pcTarget] using marks tight u marked

/-- `x_bound`. -/
theorem Inv.x_bound (inv : P.Inv root c) {M_costS : Cost} (pc : c.pc = .x_bound X M_costS) :
    P.Inv root (c.x_bound X M_costS) := by
  obtain ⟨top, low, exceeds, nonneg⟩ : P.PcOk root c.s c.stack (.x_bound X M_costS) := by
    rw [← pc]
    exact inv.at'
  have search : P.SearchOk (c.s.setModelCost X.mi (X.m.costf M_costS)) :=
    inv.search.setModelCost low top.unsolved fun tight =>
      Cost.k_le_affine (P.valid.model X.m_i).c_pos.le (nonneg tight)
  unfold Config.x_bound
  simp only [if_neg (not_le.mpr exceeds)]
  exact inv.update search (fun _ => rfl) (fun _ => id) inv.nodup
    (top.toTop.keep (top.below.setModelCost _ _) rfl rfl) (by rw [pc]; rfl) (by rw [pc]; rfl)
    (by rw [pc]; intro e; simp)

/-- `candidate`. -/
theorem Inv.candidate (around : P.Surroundings ops) (inv : P.Inv root c)
    (pc : c.pc = .candidate t) : P.Inv root (c.candidate ops t) := by
  have top : P.Top root c.s c.stack t := by
    have := inv.at'
    rwa [pc] at this
  have chosen : P.pcChosen c.pc = [] := by rw [pc]; rfl
  have target : P.pcTarget c.pc = [t.x] := by rw [pc]; rfl
  have running : ∀ e, c.pc ≠ .done (some e) := by rw [pc]; simp
  have low := scan_low inv.search top.cands
  have scan := scan_ok c.s t
  have failed : (t.x_beta : Cost) < (t.scan c.s).m_cost →
      P.Inv root (c.goto (.x_failed t (t.scan c.s).m_cost)) := by
    intro exceeds
    refine inv.update inv.search (fun _ => rfl) (fun _ => id) inv.nodup ⟨top, low, exceeds, fun tight => ?_⟩
      (by rw [target]; rfl) chosen running
    cases best : (t.scan c.s).best with
    | none => rw [scan.unset best]; exact le_top
    | some b =>
      rw [← (scan.best b best).2]
      exact le_trans (by exact_mod_cast (P.valid.model b.2.1).k_nonneg) (inv.search.tight_k tight b.2)
  unfold Config.candidate
  simp only
  split
  · rename_i exceeds
    exact failed exceeds
  rename_i under
  split
  · rename_i best
    refine failed ?_
    rw [scan.unset best]
    exact WithTop.coe_lt_top _
  · rename_i m_ei m best
    obtain ⟨cand, cost⟩ := scan.best _ best
    have selected := scan_selected inv.search top.cands best under
    split
    · rename_i chain
      have here := inv.search.model_exact m chain
      rw [cost] at here
      have exact' : IsLeast (P.sys.costs t.x) (t.scan c.s).m_cost := by
        have alt : m ∈ P.G.alts P.maps t.x := List.mem_map.mpr ⟨(m_ei, m), top.cands ▸ cand, rfl⟩
        exact ⟨(P.sys.derives_iff _ _).mpr ⟨m, alt, here.1⟩, low⟩
      have search := inv.search.setChain top.marked (top.cands ▸ cand) chain ⟨_, exact', here⟩
      exact inv.choose rfl search (top.below.setChain m_ei m.2 top.fresh) top.fresh exact'
        (not_lt.mp under) target chosen running
    · rename_i unsolved
      rw [Bool.not_eq_true] at unsolved
      split
      · rename_i e exited
        refine inv.exit (around.exit_ne ?_) (inv.search.setModelExpanded m) (fun _ => rfl) (fun _ => id) chosen
        split at exited
        · cases exited
        · exact .mexpandbe _ _ _ _ exited
      · refine inv.update (inv.search.setModelExpanded m) (fun _ => rfl) (fun _ => id) inv.nodup
          ⟨⟨top.keep (top.below.setModelExpanded m) rfl rfl, selected, ?_⟩,
            ⟨rfl, WithTop.zero_ne_top, fun tight => ?_⟩, [], rfl, rfl, fun _ h => by cases h⟩
          (by rw [target]; rfl) chosen running
        · exact (Search.setModelExpanded_chain _ _ _).trans unsolved
        · have k := selected.k_le tight
          have zero := (P.valid.model m.1).costf_le_iff 0 (t.scan c.s).m_beta
          refine zero.mp ?_
          rw [Model.costf, ← WithTop.coe_zero, Cost.affine_coe, mul_zero, add_zero]
          exact WithTop.coe_le_coe.mpr k

section ShadowSteps
variable {e : ShEdge P.G.nw} {edges : List (ShEdge P.G.nw)} {i : Inst} {insts : List Inst}
  {M_costS : Cost} {M_betaS : ℚ}

/-- One shadow edge. -/
theorem Inv.shadow (inv : P.Inv root c) (pc : c.pc = .shadow X edges M_costS M_betaS) :
    P.Inv root (c.shadow P.maps X edges M_costS M_betaS) := by
  obtain ⟨top, regs, done, at'⟩ : P.PcOk root c.s c.stack (.shadow X edges M_costS M_betaS) := by
    rw [← pc]
    exact inv.at'
  unfold Config.shadow
  split
  · refine inv.update inv.search (fun _ => rfl) (fun _ => id) inv.nodup ⟨top, regs, [], rfl, ?_, ?_, ?_⟩
      (by rw [pc]; rfl) (by rw [pc]; rfl) (by rw [pc]; simp)
    · rw [at'.split, List.append_nil, at'.sum]; simp
    · rw [at'.split, List.append_nil]; exact at'.evaluated
    · intro e he; cases he
  · exact inv.update inv.search (fun _ => rfl) (fun _ => id) inv.nodup
      (nextShadow_ok [] top regs at' rfl fun _ h => by cases h)
      (by rw [pc, pcTarget_nextShadow]; rfl) (by rw [pc]; rfl) (by rw [pc]; simp)

/-- `S_checkscan` over instances that no suspended frame waits to check. -/
theorem Inv.scanCheck (around : P.Surroundings ops) (inv : P.Inv root c)
    (top : P.TopX root c.s c.stack X) (regs : P.Regs X M_costS M_betaS)
    (at' : P.ShadowInstAt c.s X e edges i insts M_costS) {scanned : List Inst} (head : i ∈ scanned)
    (fresh : ∀ f ∈ c.stack, ∀ e' edges' i' insts', f.resume = .shadow e' edges' i' insts' →
      ¬ (e'.idx = e.idx ∧ i' ∈ scanned))
    (target : P.pcTarget c.pc = [X.x]) (chosen : P.pcChosen c.pc = [])
    (running : ∀ e, c.pc ≠ .done (some e)) :
    P.Inv root (c.scanCheck ops X e edges i insts scanned M_costS M_betaS) := by
  have guard : ops.guard c.v = P.pass := funext fun w => funext fun i => around.guard c.v w i
  have search : P.SearchOk (c.s.checkscan P.pass e.idx scanned) := inv.search.checkscan e.idx scanned
  have below := top.below.checkscan (g := P.pass) fresh
  have top' := top.keep below rfl rfl rfl
  have grows : Grows c.s (c.s.checkscan P.pass e.idx scanned) := by
    refine ⟨fun _ => id, fun w old => ?_⟩
    by_cases inside : w.1 = e.idx ∧ w.2 ∈ scanned
    · rw [show w = (e.idx, w.2) from Prod.ext inside.1 rfl, Search.checkscan_of_mem _ inside.2]
    · rwa [Search.checkscan_of_not _ inside]
  have at'' := at'.mono grows
  have eval : ((c.s.checkscan P.pass e.idx scanned).ss (e.idx, i)).eval = true := by
    rw [Search.checkscan_of_mem _ head]
  have bits := search.bits (e.idx, i)
  rw [eval, Bool.true_and] at bits
  unfold Config.scanCheck
  simp only [guard]
  split
  · rename_i pass
    obtain ⟨done, pre, position, list, passed⟩ := at''
    refine inv.update search (fun _ => rfl) (fun _ => id) inv.nodup
      (nextShadow_ok (pre ++ [i]) top' regs position (by rw [list, List.append_assoc]; rfl) ?_)
      (by rw [target, pcTarget_nextShadow]) chosen running
    intro j hj
    rcases List.mem_append.mp hj with old | new
    · exact passed j old
    · cases List.mem_singleton.mp new
      exact ⟨bits.symm.trans pass, eval⟩
  · rename_i fails
    exact inv.update search (fun _ => rfl) (fun _ => id) inv.nodup
      (penalty_ok top' regs at'' eval (by rw [← bits]; simpa using fails))
      (by rw [target]; rfl) chosen running

/-- The instances scanned after a computed instance have chains, those a frame waits for
do not. -/
theorem scanComputed_fresh (search : P.SearchOk c.s) (top : P.TopX root c.s c.stack X)
    (chain : (c.s.vs ((P.G.shadows e.idx).xi, i)).chain.isSome = true) (shape : Nat) :
    ∀ f ∈ c.stack, ∀ e' edges' i' insts', f.resume = .shadow e' edges' i' insts' →
      ¬ (e'.idx = e.idx ∧ i' ∈ c.s.scanComputed (P.G.shadows e.idx).xi shape i) := by
  rintro f hf e' edges' i' insts' resume ⟨same, mem⟩
  have waits : awaited f = ((P.G.shadows e.idx).xi, i') := by simp only [awaited, resume, same]
  have unchained := top.below.awaited_unchained top.unchained hf
  rw [waits] at unchained
  have chained : (c.s.vs ((P.G.shadows e.idx).xi, i')).chain.isSome = true := by
    rcases List.mem_cons.mp mem with rfl | later
    · exact chain
    · have := List.all_takeWhile (l := (List.range' (i.val + 1) (shape - (i.val + 1))).map (Fin.ofNat 65536))
        (p := fun i => (c.s.vs ((P.G.shadows e.idx).xi, i)).value)
      exact search.value_chain _ (List.all_eq_true.mp this i' later)
  rw [unchained] at chained
  cases chained

/-- `S_compute_value` for a checked instance with a chain. -/
theorem Inv.shadow_compute (around : P.Surroundings ops) (inv : P.Inv root c)
    (pc : c.pc = .shadow_compute X e edges i insts M_costS M_betaS) :
    P.Inv root (c.shadow_compute P.maps ops X e edges i insts M_costS M_betaS) := by
  obtain ⟨top, regs, at', computed, chain⟩ :
      P.PcOk root c.s c.stack (.shadow_compute X e edges i insts M_costS M_betaS) := by
    rw [← pc]
    exact inv.at'
  have chosen : P.pcChosen c.pc = [] := by rw [pc]; rfl
  have target : P.pcTarget c.pc = [X.x] := by rw [pc]; rfl
  have running : ∀ e, c.pc ≠ .done (some e) := by rw [pc]; simp
  unfold Config.shadow_compute
  simp only
  split
  · rename_i err exited
    exact inv.exit (around.exit_ne (.compute _ _ _ _ exited)) inv.search (fun _ => rfl) (fun _ => id) chosen
  · rename_i s v computed'
    obtain ⟨same, value⟩ := around.compute _ _ _ _ _ inv.search chain computed'
    have search := inv.search.same same value
    have top' := top.keep (top.below.same same) (same.marked X.x) (same.chain X.x) (same.mchain X.mi)
    have inv' : P.Inv root { c with s, v } :=
      inv.update search same.marked (fun u => by rw [same.chain]; exact id) inv.nodup
        (by
          rw [pc]
          exact ⟨top', regs, at'.mono same.grows, computed, by rw [same.chain]; exact chain⟩)
        rfl chosen running
    exact inv'.scanCheck around top' regs (at'.mono same.grows) (List.mem_cons_self ..)
      (scanComputed_fresh search top' (by rw [same.chain]; exact chain) _) target chosen running

/-- One instance of a shadow edge. -/
theorem Inv.shadow_inst (around : P.Surroundings ops) (inv : P.Inv root c)
    (pc : c.pc = .shadow_inst X e edges i insts M_costS M_betaS) :
    P.Inv root (c.shadow_inst P.maps ops X e edges i insts M_costS M_betaS) := by
  obtain ⟨top, regs, at'⟩ : P.PcOk root c.s c.stack (.shadow_inst X e edges i insts M_costS M_betaS) := by
    rw [← pc]
    exact inv.at'
  have chosen : P.pcChosen c.pc = [] := by rw [pc]; rfl
  have target : P.pcTarget c.pc = [X.x] := by rw [pc]; rfl
  have running : ∀ e, c.pc ≠ .done (some e) := by rw [pc]; simp
  have bits := inv.search.bits (e.idx, i)
  unfold Config.shadow_inst
  simp only
  split
  · rename_i pass
    obtain ⟨done, pre, position, list, passed⟩ := at'
    rw [pass] at bits
    obtain ⟨eval, passes⟩ := Bool.and_eq_true_iff.mp bits.symm
    refine inv.update inv.search (fun _ => rfl) (fun _ => id) inv.nodup
      (nextShadow_ok (pre ++ [i]) top regs position (by rw [list, List.append_assoc]; rfl) ?_)
      (by rw [target, pcTarget_nextShadow]) chosen running
    intro j hj
    rcases List.mem_append.mp hj with old | new
    · exact passed j old
    · cases List.mem_singleton.mp new
      exact ⟨passes, eval⟩
  rename_i unpassed
  rw [Bool.not_eq_true] at unpassed
  split
  · rename_i eval
    refine inv.update inv.search (fun _ => rfl) (fun _ => id) inv.nodup
      (penalty_ok top regs at' eval ?_) (by rw [target]; rfl) chosen running
    rw [unpassed, eval, Bool.true_and] at bits
    exact bits.symm
  rename_i unevaluated
  rw [Bool.not_eq_true] at unevaluated
  split
  · rename_i computed
    split
    · rename_i err exited
      exact inv.exit (around.exit_ne (.vexpandsp _ _ _ exited)) inv.search (fun _ => rfl) (fun _ => id) chosen
    · rename_i v _
      split
      · rename_i unchained
        -- the frame waits for the checked instance
        rw [Option.isNone_iff_eq_none] at unchained
        exact inv.update inv.search (fun _ => rfl) (fun _ => id)
          (List.nodup_cons.mpr ⟨top.fresh, inv.nodup⟩)
          ⟨⟨⟨top.selected, ⟨at', regs, unevaluated, computed⟩, top.marked, top.unchained, top.unsolved⟩,
            rfl, rfl, top.below⟩, unchained⟩
          (by rw [target]; rfl) chosen running
      · rename_i chain
        rw [Option.isNone_iff_eq_none, ← ne_eq, Option.ne_none_iff_isSome] at chain
        have inv' : P.Inv root { c with v } :=
          inv.update inv.search (fun _ => rfl) (fun _ => id) inv.nodup inv.at' rfl chosen running
        split
        · exact inv'.scanCheck around top regs at' (List.mem_cons_self ..)
            (scanComputed_fresh inv.search top chain _) target chosen running
        · exact inv.update inv.search (fun _ => rfl) (fun _ => id) inv.nodup
            ⟨top, regs, at', computed, chain⟩ (by rw [target]; rfl) chosen running
  · rename_i given
    rw [Bool.not_eq_true] at given
    split
    · rename_i err exited
      exact inv.exit (around.exit_ne (.given1 _ _ _ exited)) inv.search (fun _ => rfl) (fun _ => id) chosen
    · rename_i v _
      have inv' : P.Inv root { c with v } :=
        inv.update inv.search (fun _ => rfl) (fun _ => id) inv.nodup inv.at' rfl chosen running
      refine inv'.scanCheck around top regs at' (List.mem_cons_self ..) ?_ target chosen running
      rintro f hf e' edges' i' insts' resume ⟨same, _⟩
      -- frames only wait for checks of computed variables
      have frame := (top.below.frame hf).resume
      unfold ResumeAt at frame
      simp only [resume] at frame
      have computed := P.valid.computed f.m_i e' frame.1.mem
      rw [frame.2.2.2, same] at computed
      rw [P.valid.computed X.m_i e at'.mem, ← computed] at given
      cases given

/-- `shadow_penalty`. -/
theorem Inv.shadow_penalty (inv : P.Inv root c)
    (pc : c.pc = .shadow_penalty X e edges M_costS M_betaS) :
    P.Inv root (c.shadow_penalty X e edges M_costS M_betaS) := by
  obtain ⟨top, regs, ⟨done, at'⟩, evaluated, due⟩ :
      P.PcOk root c.s c.stack (.shadow_penalty X e edges M_costS M_betaS) := by
    rw [← pc]
    exact inv.at'
  unfold Config.shadow_penalty
  simp only
  split
  · rename_i exceeds
    refine inv.update inv.search (fun _ => rfl) (fun _ => id) inv.nodup
      ⟨top, at'.low due, ?_, fun _ => ?_⟩ (by rw [pc]; rfl) (by rw [pc]; rfl) (by rw [pc]; simp)
    · rw [regs.betaS] at exceeds
      exact ((P.valid.model X.m_i).lt_costf_iff _ _).mpr exceeds
    · refine add_nonneg at'.nonneg ((P.valid.model X.m_i).penalty_nonneg e ?_)
      rw [show (P.G.models X.m_i).shadows = done ++ e :: edges from at'.split]
      simp
  · rename_i under
    have under := not_lt.mp under
    refine inv.update inv.search (fun _ => rfl) (fun _ => id) inv.nodup
      ⟨top, ⟨regs.betaS, ne_top_of_le_ne_top WithTop.coe_ne_top under, fun _ => under⟩, done ++ [e], ?_, ?_, ?_⟩
      (by rw [pc]; rfl) (by rw [pc]; rfl) (by rw [pc]; simp)
    · rw [at'.split, List.append_assoc]; rfl
    · rw [List.map_append, List.sum_append, ← at'.sum]
      simp [due]
    · intro d hd
      rcases List.mem_append.mp hd with old | new
      · exact at'.evaluated d old
      · cases List.mem_singleton.mp new
        exact evaluated

end ShadowSteps

section ParamSteps
variable {e : Edge P.G.nv} {edges : List (Edge P.G.nv)} {i : Inst} {insts : List Inst}
  {p_ssmax M_costS : Cost} {M_betaS : ℚ}

/-- One parameter edge. -/
theorem Inv.param (inv : P.Inv root c) (pc : c.pc = .param X edges M_costS M_betaS) :
    P.Inv root (c.param P.maps X edges M_costS M_betaS) := by
  obtain ⟨top, regs, done, at'⟩ : P.PcOk root c.s c.stack (.param X edges M_costS M_betaS) := by
    rw [← pc]
    exact inv.at'
  unfold Config.param
  split
  · exact inv.update inv.search (fun _ => rfl) (fun _ => id) inv.nodup ⟨top, regs, done, at'⟩
      (by rw [pc]; rfl) (by rw [pc]; rfl) (by rw [pc]; simp)
  · refine inv.update inv.search (fun _ => rfl) (fun _ => id) inv.nodup
      (nextParam_ok [] top ?_ at' rfl (fun _ h => by cases h) rfl)
      (by rw [pc, pcTarget_nextParam]; rfl) (by rw [pc]; rfl) (by rw [pc]; simp)
    rwa [add_zero]

/-- One instance of a parameter edge. -/
theorem Inv.param_inst (inv : P.Inv root c)
    (pc : c.pc = .param_inst X e edges i insts p_ssmax M_costS M_betaS) :
    P.Inv root (c.param_inst X e edges i insts p_ssmax M_costS M_betaS) := by
  obtain ⟨top, regs, at'⟩ :
      P.PcOk root c.s c.stack (.param_inst X e edges i insts p_ssmax M_costS M_betaS) := by
    rw [← pc]
    exact inv.at'
  have chosen : P.pcChosen c.pc = [] := by rw [pc]; rfl
  have target : P.pcTarget c.pc = [X.x] := by rw [pc]; rfl
  have running : ∀ e, c.pc ≠ .done (some e) := by rw [pc]; simp
  have position := at'
  obtain ⟨done, pre, begun, list, _, largest⟩ := position
  unfold Config.param_inst
  simp only
  split
  · rename_i exceeds
    refine inv.update inv.search (fun _ => rfl) (fun _ => id) inv.nodup
      ⟨top, begun.low (i := i) (by rw [list]; simp) (inv.search.var_low _), ?_, fun tight => ?_⟩
      (by rw [target]; rfl) chosen running
    · rw [regs.betaS] at exceeds
      exact ((P.valid.model X.m_i).lt_costf_iff _ _).mpr exceeds
    · have sum := regs.below tight
      have max : 0 ≤ p_ssmax := by rw [largest]; exact Cost.listMax_nonneg _
      exact ((add_nonneg begun.nonneg max).trans sum).trans exceeds.le
  rename_i under
  have under := not_lt.mp under
  split
  · rename_i chain
    have clear : c.s.marked (e.idx, i) = false := by
      by_contra marked
      have := inv.settled _ chain (by simpa using marked)
      rw [chosen] at this
      cases this
    exact inv.update inv.search (fun _ => rfl) (fun _ => id) inv.nodup
      (param_solved top regs at' (inv.search.var_exact _ chain clear) chain
        (ne_top_of_le_ne_top WithTop.coe_ne_top under) fun _ => under)
      (by rw [target, pcTarget_nextParam]) chosen running
  · rename_i unchained
    rw [Bool.not_eq_true, Option.isSome_eq_false_iff, Option.isNone_iff_eq_none] at unchained
    exact inv.update inv.search (fun _ => rfl) (fun _ => id)
      (List.nodup_cons.mpr ⟨top.fresh, inv.nodup⟩)
      ⟨⟨⟨top.selected, ⟨at', regs⟩, top.marked, top.unchained, top.unsolved⟩, rfl, rfl, top.below⟩, unchained⟩
      (by rw [target]; rfl) chosen running

/-- No frame below is solving a model instance whose parameters and checks are done. -/
theorem solved_fresh (top : P.TopX root s stack X) {done : List (Edge P.G.nv)}
    (at' : P.ParamAt s X done [] M_costS) : ∀ f ∈ stack, f.mi ≠ X.mi := by
  intro f hf same
  have unchained := top.below.awaited_unchained top.unchained hf
  have frame := (top.below.frame hf).resume
  unfold ResumeAt at frame
  split at frame
  · rename_i e edges i insts resume
    obtain ⟨⟨done, pre, position, list, passed⟩, _, unevaluated, _⟩ := frame
    have mem : e ∈ X.m.shadows := by
      have : e ∈ f.m.shadows := by rw [position.split]; simp
      rwa [show f.m = X.m from congrArg P.G.models (congrArg Prod.fst same)] at this
    have evaluated := at'.evaluated e mem
    rw [← show f.m_inst = X.m_inst from congrArg Prod.snd same, list] at evaluated
    rw [evaluated.reaches fun i' hi' => (passed i' hi').1] at unevaluated
    cases unevaluated
  · rename_i e edges i insts p_ssmax resume
    obtain ⟨⟨done, pre, position, list, _, _⟩, _⟩ := frame
    have mem : (e.idx, i) ∈ P.G.prems P.maps f.mi :=
      Graph.mem_prems_of (m := f.mi) (by rw [show (P.G.models f.mi.1).cparams.reverse = _ from position.split]; simp)
        (by rw [show P.maps.mapE e.map f.mi.2 = _ from list]; simp)
    rw [same] at mem
    have chain := at'.exact_cost.2 _ mem
    simp only [awaited, resume] at unchained
    rw [unchained] at chain
    cases chain

/-- The chain of a model is solved below its bound. -/
theorem Inv.solved (inv : P.Inv root c) (pc : c.pc = .solved X M_costS M_betaS)
    (good : M_costS ≤ (M_betaS : Cost)) : P.Inv root (c.solved X M_costS) := by
  obtain ⟨top, regs, done, at'⟩ : P.PcOk root c.s c.stack (.solved X M_costS M_betaS) := by
    rw [← pc]
    exact inv.at'
  obtain ⟨exact', closed⟩ := at'.exact_cost
  have bound : X.m.costf M_costS ≤ (X.m_beta : Cost) := by
    rw [regs.betaS] at good
    exact ((P.valid.model X.m_i).costf_le_iff _ _).mpr good
  have least : IsLeast (P.sys.costs X.x) (X.m.costf M_costS) := by
    have alt : X.mi ∈ P.G.alts P.maps X.x :=
      List.mem_map.mpr ⟨_, top.selected.cands ▸ top.selected.cand, rfl⟩
    refine P.sys.least_of_alt X.x X.mi _ alt exact'.1 fun m other => ?_
    by_cases same : m = X.mi
    · rw [same]; exact exact'.2
    · exact fun _ through => bound.trans (top.selected.others m other same through)
  have search : P.SearchOk ((c.s.setModelChain X.mi (X.m.costf M_costS)).setChain X.x X.m_ei X.m_inst) :=
    (inv.search.setModelChain exact' closed).setChain (m := X.mi) top.marked
      (top.selected.cands ▸ top.selected.cand) (by rw [Search.setModelChain_self]) ⟨_, least, exact'⟩
  unfold Config.solved
  exact inv.choose (t := X.toXTarget) rfl search
    ((top.below.setModelChain _ (solved_fresh top at')).setChain _ _ top.fresh) top.fresh least
    (bound.trans (WithTop.coe_le_coe.mpr top.selected.beta_le)) (by rw [pc]; rfl) (by rw [pc]; rfl)
    (by rw [pc]; simp)

end ParamSteps

/-- The block after the loops is entered below the bound of its frame. -/
def Good (P : Problem) {V : Type} (c : Config P.G V) : Prop :=
  match c.pc with
  | .solved _ M_costS M_betaS => M_costS ≤ (M_betaS : Cost)
  | _ => True

/-- With bounds that cover the constants, it always is. -/
theorem Inv.good (tight : P.Tight) (inv : P.Inv root c) : P.Good c := by
  have at' := inv.at'
  unfold Good
  split
  · rename_i pc
    rw [pc] at at'
    exact at'.2.1.below tight
  · trivial

/-- Every step keeps the invariant. -/
theorem Inv.step {c' : Config P.G V} (around : P.Surroundings ops) (solvable : P.Solvable)
    (inv : P.Inv root c) (good : P.Good c) (taken : Fhk.step P.maps ops c = some c') : P.Inv root c' := by
  unfold Fhk.step at taken
  split at taken
  · rename_i pc; cases taken; exact inv.x_solve around pc
  · rename_i pc; cases taken; exact inv.x_chosen pc
  · rename_i pc; cases taken; exact inv.x_failed solvable pc
  · rename_i pc; cases taken; exact inv.x_bound pc
  · rename_i pc; cases taken; exact inv.candidate around pc
  · rename_i pc; cases taken; exact inv.shadow pc
  · rename_i pc; cases taken; exact inv.shadow_inst around pc
  · rename_i pc; cases taken; exact inv.shadow_compute around pc
  · rename_i pc; cases taken; exact inv.shadow_penalty pc
  · rename_i pc; cases taken; exact inv.param pc
  · rename_i pc; cases taken; exact inv.param_inst pc
  · rename_i pc; cases taken; exact inv.solved pc (by simpa only [Good, pc] using good)
  · cases taken

end Problem
end M2.Fhk
