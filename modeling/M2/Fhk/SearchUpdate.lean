import M2.Fhk.SearchInvariant

/-!
# Effects of the search state updates

One lemma for each update of the search state says when it keeps `SearchOk`; one says
when it keeps the suspended frames. Chains and evaluated bits only grow, which is all the
facts about finished loops need.
-/
namespace M2.Fhk
open M2.Lib

namespace Search
variable {G : Graph} (s : Search G)

theorem marked_iff (u : G.VI) : s.marked u = true ↔ (s.vs u).cost < 0 := by
  simp [marked]

theorem marked_false_iff (u : G.VI) : s.marked u = false ↔ 0 ≤ (s.vs u).cost := by
  simp [marked]

@[simp] theorem setCost_self (x : G.VI) (c : Cost) :
    (s.setCost x c).vs x = { s.vs x with cost := c } := by simp [setCost]

theorem setCost_of_ne {x u : G.VI} (c : Cost) (h : u ≠ x) : (s.setCost x c).vs u = s.vs u := by
  simp [setCost, h]

@[simp] theorem setCost_chain (x u : G.VI) (c : Cost) :
    ((s.setCost x c).vs u).chain = (s.vs u).chain := by
  by_cases h : u = x
  · subst h; simp
  · rw [s.setCost_of_ne c h]

@[simp] theorem setCost_value (x u : G.VI) (c : Cost) :
    ((s.setCost x c).vs u).value = (s.vs u).value := by
  by_cases h : u = x
  · subst h; simp
  · rw [s.setCost_of_ne c h]

@[simp] theorem setCost_ms (x : G.VI) (c : Cost) : (s.setCost x c).ms = s.ms := rfl
@[simp] theorem setCost_ss (x : G.VI) (c : Cost) : (s.setCost x c).ss = s.ss := rfl

@[simp] theorem setExpanded_cost (x u : G.VI) :
    ((s.setExpanded x).vs u).cost = (s.vs u).cost := by
  by_cases h : u = x
  · subst h; simp [setExpanded]
  · simp [setExpanded, h]

@[simp] theorem setExpanded_chain (x u : G.VI) :
    ((s.setExpanded x).vs u).chain = (s.vs u).chain := by
  by_cases h : u = x
  · subst h; simp [setExpanded]
  · simp [setExpanded, h]

@[simp] theorem setExpanded_value (x u : G.VI) :
    ((s.setExpanded x).vs u).value = (s.vs u).value := by
  by_cases h : u = x
  · subst h; simp [setExpanded]
  · simp [setExpanded, h]

@[simp] theorem setExpanded_ms (x : G.VI) : (s.setExpanded x).ms = s.ms := rfl
@[simp] theorem setExpanded_ss (x : G.VI) : (s.setExpanded x).ss = s.ss := rfl

theorem setChain_self (x : G.VI) (ei : Nat) (j : Inst) :
    (s.setChain x ei j).vs x = ⟨(s.vs x).cost, some (ei, j), false, true⟩ := by simp [setChain]

theorem setChain_of_ne {x u : G.VI} (ei : Nat) (j : Inst) (h : u ≠ x) :
    (s.setChain x ei j).vs u = s.vs u := by simp [setChain, h]

@[simp] theorem setChain_cost (x u : G.VI) (ei : Nat) (j : Inst) :
    ((s.setChain x ei j).vs u).cost = (s.vs u).cost := by
  by_cases h : u = x
  · subst h; rw [setChain_self]
  · rw [s.setChain_of_ne ei j h]

@[simp] theorem setChain_ms (x : G.VI) (ei : Nat) (j : Inst) : (s.setChain x ei j).ms = s.ms := rfl
@[simp] theorem setChain_ss (x : G.VI) (ei : Nat) (j : Inst) : (s.setChain x ei j).ss = s.ss := rfl

theorem setModelCost_self (m : G.MI) (c : Cost) :
    (s.setModelCost m c).ms m = { s.ms m with cost := c } := by simp [setModelCost]

theorem setModelCost_of_ne {m u : G.MI} (c : Cost) (h : u ≠ m) :
    (s.setModelCost m c).ms u = s.ms u := by simp [setModelCost, h]

@[simp] theorem setModelCost_chain (m u : G.MI) (c : Cost) :
    ((s.setModelCost m c).ms u).chain = (s.ms u).chain := by
  by_cases h : u = m
  · subst h; rw [setModelCost_self]
  · rw [s.setModelCost_of_ne c h]

@[simp] theorem setModelCost_vs (m : G.MI) (c : Cost) : (s.setModelCost m c).vs = s.vs := rfl
@[simp] theorem setModelCost_ss (m : G.MI) (c : Cost) : (s.setModelCost m c).ss = s.ss := rfl

@[simp] theorem setModelExpanded_cost (m u : G.MI) :
    ((s.setModelExpanded m).ms u).cost = (s.ms u).cost := by
  by_cases h : u = m
  · subst h; simp [setModelExpanded]
  · simp [setModelExpanded, h]

@[simp] theorem setModelExpanded_chain (m u : G.MI) :
    ((s.setModelExpanded m).ms u).chain = (s.ms u).chain := by
  by_cases h : u = m
  · subst h; simp [setModelExpanded]
  · simp [setModelExpanded, h]

@[simp] theorem setModelExpanded_vs (m : G.MI) : (s.setModelExpanded m).vs = s.vs := rfl
@[simp] theorem setModelExpanded_ss (m : G.MI) : (s.setModelExpanded m).ss = s.ss := rfl

theorem setModelChain_self (m : G.MI) (c : Cost) :
    (s.setModelChain m c).ms m = ⟨c, true, false, false⟩ := by simp [setModelChain]

theorem setModelChain_of_ne {m u : G.MI} (c : Cost) (h : u ≠ m) :
    (s.setModelChain m c).ms u = s.ms u := by simp [setModelChain, h]

@[simp] theorem setModelChain_vs (m : G.MI) (c : Cost) : (s.setModelChain m c).vs = s.vs := rfl
@[simp] theorem setModelChain_ss (m : G.MI) (c : Cost) : (s.setModelChain m c).ss = s.ss := rfl

theorem setEval_self (w : G.WI) : (s.setEval w).ss w = ⟨(s.ss w).pass, true⟩ := by simp [setEval]

theorem setEval_of_ne {w u : G.WI} (h : u ≠ w) : (s.setEval w).ss u = s.ss u := by
  simp [setEval, h]

@[simp] theorem setEval_vs (w : G.WI) : (s.setEval w).vs = s.vs := rfl
@[simp] theorem setEval_ms (w : G.WI) : (s.setEval w).ms = s.ms := rfl

@[simp] theorem checkscan_vs (g : Fin G.nw → Inst → Bool) (w : Fin G.nw) (l : List Inst) :
    (s.checkscan g w l).vs = s.vs := rfl
@[simp] theorem checkscan_ms (g : Fin G.nw → Inst → Bool) (w : Fin G.nw) (l : List Inst) :
    (s.checkscan g w l).ms = s.ms := rfl

theorem checkscan_of_mem {g : Fin G.nw → Inst → Bool} {w : Fin G.nw} {l : List Inst} {i : Inst}
    (h : i ∈ l) : (s.checkscan g w l).ss (w, i) = ⟨(s.ss (w, i)).pass || g w i, true⟩ := by
  simp [checkscan, h]

theorem checkscan_of_not {g : Fin G.nw → Inst → Bool} {w : Fin G.nw} {l : List Inst} {u : G.WI}
    (h : ¬ (u.1 = w ∧ u.2 ∈ l)) : (s.checkscan g w l).ss u = s.ss u := by
  simp [checkscan, h]

end Search

namespace Problem
variable {P : Problem} {s s' : Search P.G}

/-- Chains stay recorded and evaluated bits stay set. -/
structure Grows (s s' : Search P.G) : Prop where
  chain : ∀ u, (s.vs u).chain.isSome = true → (s'.vs u).chain.isSome = true
  eval : ∀ w, (s.ss w).eval = true → (s'.ss w).eval = true

theorem EvalList.mono (grows : Grows s s') {w : Fin P.G.nw} {l : List Inst}
    (h : P.EvalList s w l) : P.EvalList s' w l := by
  induction l with
  | nil => trivial
  | cons i rest ih => exact ⟨grows.eval _ h.1, fun passed => ih (h.2 passed)⟩

/-- Past the instances that pass, the scan of an edge depends on the rest. -/
theorem EvalList.append {w : Fin P.G.nw} {pre l : List Inst}
    (passed : ∀ i ∈ pre, P.pass w i = true ∧ (s.ss (w, i)).eval = true) (h : P.EvalList s w l) :
    P.EvalList s w (pre ++ l) := by
  induction pre with
  | nil => exact h
  | cons i rest ih =>
    exact ⟨(passed i (by simp)).2, fun _ => ih fun i' hi' => passed i' (by simp [hi'])⟩

theorem EvalList.reaches {w : Fin P.G.nw} {pre l : List Inst} {i : Inst}
    (passed : ∀ i' ∈ pre, P.pass w i' = true) (h : P.EvalList s w (pre ++ i :: l)) :
    (s.ss (w, i)).eval = true := by
  induction pre with
  | nil => exact h.1
  | cons i' rest ih =>
    exact ih (fun i'' hi'' => passed i'' (by simp [hi''])) (h.2 (passed i' (by simp)))

theorem ShadowAt.mono (grows : Grows s s') {X : XState P.G} {done edges : List (ShEdge P.G.nw)}
    {M_costS : Cost} (h : P.ShadowAt s X done edges M_costS) : P.ShadowAt s' X done edges M_costS :=
  ⟨h.split, h.sum, fun e he => (h.evaluated e he).mono grows⟩

theorem ShadowInstAt.mono (grows : Grows s s') {X : XState P.G} {e : ShEdge P.G.nw}
    {edges : List (ShEdge P.G.nw)} {i : Inst} {insts : List Inst} {M_costS : Cost}
    (h : P.ShadowInstAt s X e edges i insts M_costS) : P.ShadowInstAt s' X e edges i insts M_costS := by
  obtain ⟨done, pre, at', list, passed⟩ := h
  exact ⟨done, pre, at'.mono grows, list, fun i' hi' => ⟨(passed i' hi').1, grows.eval _ (passed i' hi').2⟩⟩

theorem ParamAt.mono (grows : Grows s s') {X : XState P.G} {done edges : List (Edge P.G.nv)}
    {M_costS : Cost} (h : P.ParamAt s X done edges M_costS) : P.ParamAt s' X done edges M_costS :=
  ⟨h.split, h.sum, fun e he => (h.evaluated e he).mono grows,
    fun e he i hi => ⟨(h.exact e he i hi).1, grows.chain _ (h.exact e he i hi).2⟩⟩

theorem ParamInstAt.mono (grows : Grows s s') {X : XState P.G} {e : Edge P.G.nv}
    {edges : List (Edge P.G.nv)} {i : Inst} {insts : List Inst} {p_ssmax M_costS : Cost}
    (h : P.ParamInstAt s X e edges i insts p_ssmax M_costS) :
    P.ParamInstAt s' X e edges i insts p_ssmax M_costS := by
  obtain ⟨done, pre, at', list, solved, max⟩ := h
  exact ⟨done, pre, at'.mono grows, list,
    fun i' hi' => ⟨(solved i' hi').1, grows.chain _ (solved i' hi').2⟩, max⟩

/-- What an update must leave alone for a suspended frame to stay as it is. -/
structure Keeps (s s' : Search P.G) (f : Suspended P.G) : Prop where
  marked : s.marked f.x = true → s'.marked f.x = true
  unchained : (s.vs f.x).chain = none → (s'.vs f.x).chain = none
  unsolved : (s.ms f.mi).chain = false → (s'.ms f.mi).chain = false
  pending : ∀ e edges i insts, f.resume = .shadow e edges i insts →
    (s.ss (e.idx, i)).eval = false → (s'.ss (e.idx, i)).eval = false

theorem SuspendedOk.keep {f : Suspended P.G} (h : P.SuspendedOk s f) (grows : Grows s s')
    (keeps : Keeps s s' f) : P.SuspendedOk s' f := by
  refine ⟨h.selected, ?_, keeps.marked h.marked, keeps.unchained h.unchained,
    keeps.unsolved h.unsolved⟩
  have at' := h.resume
  unfold ResumeAt at at' ⊢
  cases resume : f.resume with
  | shadow e edges i insts =>
    simp only [resume] at at' ⊢
    exact ⟨at'.1.mono grows, at'.2.1, keeps.pending e edges i insts resume at'.2.2.1, at'.2.2.2⟩
  | param e edges i insts p_ssmax =>
    simp only [resume] at at' ⊢
    exact ⟨at'.1.mono grows, at'.2⟩

theorem StackOk.keep {root x : P.G.VI} {beta : ℚ} {stack : List (Suspended P.G)}
    (h : P.StackOk s root x beta stack) (grows : Grows s s') (keeps : ∀ f ∈ stack, Keeps s s' f) :
    P.StackOk s' root x beta stack := by
  induction stack generalizing x beta with
  | nil => exact h
  | cons f stack ih =>
    obtain ⟨frame, waits, bound, rest⟩ := h
    exact ⟨frame.keep grows (keeps f (by simp)), waits, bound,
      ih rest fun g hg => keeps g (by simp [hg])⟩

/-- Every instance a suspended frame waits for is searched above it. -/
theorem StackOk.awaited_mem {root x : P.G.VI} {beta : ℚ} {stack : List (Suspended P.G)}
    (h : P.StackOk s root x beta stack) {f : Suspended P.G} (hf : f ∈ stack) :
    awaited f = x ∨ awaited f ∈ P.targets stack := by
  induction stack generalizing x beta with
  | nil => cases hf
  | cons g stack ih =>
    obtain ⟨_, waits, _, rest⟩ := h
    rcases List.mem_cons.mp hf with rfl | tail
    · exact .inl waits
    · rcases ih rest tail with same | below
      · exact .inr (by simp [targets, same])
      · exact .inr (List.mem_cons_of_mem _ below)

theorem StackOk.frame {root x : P.G.VI} {beta : ℚ} {stack : List (Suspended P.G)}
    (h : P.StackOk s root x beta stack) {f : Suspended P.G} (hf : f ∈ stack) :
    P.SuspendedOk s f := by
  induction stack generalizing x beta with
  | nil => cases hf
  | cons g stack ih =>
    rcases List.mem_cons.mp hf with rfl | tail
    · exact h.1
    · exact ih h.2.2.2 tail

/-- Nothing a suspended frame waits for has a chain. -/
theorem StackOk.awaited_unchained {root x : P.G.VI} {beta : ℚ} {stack : List (Suspended P.G)}
    (h : P.StackOk s root x beta stack) (unchained : (s.vs x).chain = none) {f : Suspended P.G}
    (hf : f ∈ stack) : (s.vs (awaited f)).chain = none := by
  rcases h.awaited_mem hf with same | below
  · rw [same]; exact unchained
  · obtain ⟨g, hg, same⟩ := List.mem_map.mp below
    rw [← same]
    exact (h.frame hg).unchained

theorem mem_targets {f : Suspended P.G} {stack : List (Suspended P.G)} (hf : f ∈ stack) :
    f.x ∈ P.targets stack := List.mem_map.mpr ⟨f, hf, rfl⟩

theorem ne_of_fresh {x : P.G.VI} {f : Suspended P.G} {stack : List (Suspended P.G)}
    (fresh : x ∉ P.targets stack) (hf : f ∈ stack) : f.x ≠ x :=
  fun same => fresh (same ▸ mem_targets hf)

/-- Writing the cost of an instance that no frame below searches. -/
theorem StackOk.setCost {root x : P.G.VI} {beta : ℚ} {stack : List (Suspended P.G)} {u : P.G.VI}
    (h : P.StackOk s root x beta stack) (cost : Cost) (fresh : u ∉ P.targets stack) :
    P.StackOk (s.setCost u cost) root x beta stack := by
  refine h.keep ⟨fun v => by simp, fun w => id⟩ fun f hf => ⟨?_, by simp, id, fun _ _ _ _ _ => id⟩
  simp [Search.marked, s.setCost_of_ne cost (ne_of_fresh fresh hf)]

theorem StackOk.setExpanded {root x : P.G.VI} {beta : ℚ} {stack : List (Suspended P.G)}
    (h : P.StackOk s root x beta stack) (u : P.G.VI) :
    P.StackOk (s.setExpanded u) root x beta stack :=
  h.keep ⟨fun v => by simp, fun w => id⟩ fun f _ =>
    ⟨by simp [Search.marked], by simp, id, fun _ _ _ _ _ => id⟩

theorem StackOk.setChain {root x : P.G.VI} {beta : ℚ} {stack : List (Suspended P.G)} {u : P.G.VI}
    (h : P.StackOk s root x beta stack) (ei : Nat) (j : Inst) (fresh : u ∉ P.targets stack) :
    P.StackOk (s.setChain u ei j) root x beta stack := by
  refine h.keep ⟨fun v some => ?_, fun w => id⟩ fun f hf => ⟨by simp [Search.marked], ?_, id, fun _ _ _ _ _ => id⟩
  · by_cases same : v = u
    · subst same; rw [Search.setChain_self]; rfl
    · rwa [s.setChain_of_ne ei j same]
  · rw [s.setChain_of_ne ei j (ne_of_fresh fresh hf)]
    exact id

theorem StackOk.setModelCost {root x : P.G.VI} {beta : ℚ} {stack : List (Suspended P.G)}
    (h : P.StackOk s root x beta stack) (m : P.G.MI) (cost : Cost) :
    P.StackOk (s.setModelCost m cost) root x beta stack :=
  h.keep ⟨fun _ => id, fun _ => id⟩ fun f _ => ⟨id, id, by simp, fun _ _ _ _ _ => id⟩

theorem StackOk.setModelExpanded {root x : P.G.VI} {beta : ℚ} {stack : List (Suspended P.G)}
    (h : P.StackOk s root x beta stack) (m : P.G.MI) :
    P.StackOk (s.setModelExpanded m) root x beta stack :=
  h.keep ⟨fun _ => id, fun _ => id⟩ fun f _ => ⟨id, id, by simp, fun _ _ _ _ _ => id⟩

/-- Solving a model instance that no frame below is solving. -/
theorem StackOk.setModelChain {root x : P.G.VI} {beta : ℚ} {stack : List (Suspended P.G)}
    {m : P.G.MI} (h : P.StackOk s root x beta stack) (cost : Cost) (fresh : ∀ f ∈ stack, f.mi ≠ m) :
    P.StackOk (s.setModelChain m cost) root x beta stack := by
  refine h.keep ⟨fun _ => id, fun _ => id⟩ fun f hf => ⟨id, id, ?_, fun _ _ _ _ _ => id⟩
  rw [s.setModelChain_of_ne cost (fresh f hf)]
  exact id

/-- A failed shadow instance that no frame below waits for. -/
theorem StackOk.setEval {root x : P.G.VI} {beta : ℚ} {stack : List (Suspended P.G)} {w : P.G.WI}
    (h : P.StackOk s root x beta stack)
    (fresh : ∀ f ∈ stack, awaited f ≠ ((P.G.shadows w.1).xi, w.2)) :
    P.StackOk (s.setEval w) root x beta stack := by
  refine h.keep ⟨fun _ => id, fun v old => ?_⟩ fun f hf => ⟨id, id, id, fun e edges i insts resume old => ?_⟩
  · by_cases same : v = w
    · subst same; rw [Search.setEval_self]
    · rwa [s.setEval_of_ne same]
  · have other : (e.idx, i) ≠ w := by
      rintro rfl
      exact fresh f hf (by simp only [awaited, resume])
    rwa [s.setEval_of_ne other]

/-- A scan over instances that no frame below waits for. -/
theorem StackOk.checkscan {root x : P.G.VI} {beta : ℚ} {stack : List (Suspended P.G)}
    {g : Fin P.G.nw → Inst → Bool} {w : Fin P.G.nw} {l : List Inst}
    (h : P.StackOk s root x beta stack)
    (fresh : ∀ f ∈ stack, ∀ e edges i insts, f.resume = .shadow e edges i insts →
      ¬ (e.idx = w ∧ i ∈ l)) : P.StackOk (s.checkscan g w l) root x beta stack := by
  refine h.keep ⟨fun _ => id, fun v old => ?_⟩ fun f hf =>
    ⟨id, id, id, fun e edges i insts resume old => ?_⟩
  · by_cases scanned : v.1 = w ∧ v.2 ∈ l
    · obtain ⟨rfl, inside⟩ := scanned
      exact congrArg SwBits.eval (s.checkscan_of_mem inside)
    · rwa [s.checkscan_of_not scanned]
  · rwa [s.checkscan_of_not (u := (e.idx, i)) (fresh f hf e edges i insts resume)]

theorem SameSearch.grows (same : P.SameSearch s s') : Grows s s' :=
  ⟨fun u => by rw [same.chain]; exact id, fun w => by rw [same.ss]; exact id⟩

theorem SameSearch.marked (same : P.SameSearch s s') (u : P.G.VI) : s'.marked u = s.marked u := by
  simp [Search.marked, same.cost]

theorem StackOk.same {root x : P.G.VI} {beta : ℚ} {stack : List (Suspended P.G)}
    (h : P.StackOk s root x beta stack) (same : P.SameSearch s s') :
    P.StackOk s' root x beta stack :=
  h.keep same.grows fun f _ => ⟨by rw [same.marked]; exact id, by rw [same.chain]; exact id,
    by rw [same.mchain]; exact id, fun _ _ _ _ _ => by rw [same.ss]; exact id⟩

namespace SearchOk

/-- The start of a solver: every cost is a lower bound and nothing is solved. -/
theorem init (low : P.CminLow) : P.SearchOk (Search.init P.G) where
  var_low u t derived := Graph.chain_nonneg P.valid derived
  model_low := low
  var_exact u some := by simp [Search.init] at some
  model_exact m some := by simp [Search.init] at some
  bits w := rfl
  model_closed m some := by simp [Search.init] at some
  chain_model u ei j some := by simp [Search.init] at some
  value_chain u some := by simp [Search.init] at some
  tight_k tight m := tight m.1

theorem setCost (h : P.SearchOk s) {u : P.G.VI} {cost : Cost}
    (low : cost ∈ lowerBounds (P.sys.costs u))
    (exact : (s.vs u).chain.isSome = true → 0 ≤ cost → IsLeast (P.sys.costs u) cost) :
    P.SearchOk (s.setCost u cost) where
  var_low v := by
    by_cases same : v = u
    · subst same; simpa using low
    · rw [s.setCost_of_ne cost same]; exact h.var_low v
  model_low := h.model_low
  var_exact v some clear := by
    rw [Search.marked_false_iff] at clear
    by_cases same : v = u
    · subst same
      simp only [Search.setCost_self] at some clear ⊢
      exact exact some clear
    · rw [s.setCost_of_ne cost same] at some clear ⊢
      exact h.var_exact v some ((s.marked_false_iff v).mpr clear)
  model_exact := h.model_exact
  bits := h.bits
  model_closed m some v hv := by simpa using h.model_closed m some v hv
  chain_model v ei j some := h.chain_model v ei j (by simpa using some)
  value_chain v some := by simpa using h.value_chain v (by simpa using some)
  tight_k := h.tight_k

theorem setExpanded (h : P.SearchOk s) (u : P.G.VI) : P.SearchOk (s.setExpanded u) where
  var_low v := by simpa using h.var_low v
  model_low := h.model_low
  var_exact v some clear := by
    simpa using h.var_exact v (by simpa using some) (by simpa [Search.marked] using clear)
  model_exact := h.model_exact
  bits := h.bits
  model_closed m some v hv := by simpa using h.model_closed m some v hv
  chain_model v ei j some := h.chain_model v ei j (by simpa using some)
  value_chain v some := by simpa using h.value_chain v (by simpa using some)
  tight_k := h.tight_k

theorem setModelCost (h : P.SearchOk s) {m : P.G.MI} {cost : Cost}
    (low : cost ∈ lowerBounds (P.sys.altCosts m)) (unsolved : (s.ms m).chain = false)
    (tight : P.Tight → ((P.G.models m.1).k : Cost) ≤ cost) : P.SearchOk (s.setModelCost m cost) where
  var_low := h.var_low
  model_low v := by
    by_cases same : v = m
    · subst same; simpa [Search.setModelCost_self] using low
    · rw [s.setModelCost_of_ne cost same]; exact h.model_low v
  var_exact := h.var_exact
  model_exact v some := by
    have other : v ≠ m := by
      rintro rfl
      rw [Search.setModelCost_chain, unsolved] at some
      cases some
    rw [s.setModelCost_of_ne cost other] at some ⊢
    exact h.model_exact v some
  bits := h.bits
  model_closed v some := h.model_closed v (by simpa using some)
  chain_model u ei j some := by simpa using h.chain_model u ei j some
  value_chain := h.value_chain
  tight_k t v := by
    by_cases same : v = m
    · subst same; simpa [Search.setModelCost_self] using tight t
    · rw [s.setModelCost_of_ne cost same]; exact h.tight_k t v

theorem setModelExpanded (h : P.SearchOk s) (m : P.G.MI) : P.SearchOk (s.setModelExpanded m) where
  var_low := h.var_low
  model_low v := by simpa using h.model_low v
  var_exact := h.var_exact
  model_exact v some := by simpa using h.model_exact v (by simpa using some)
  bits := h.bits
  model_closed v some := h.model_closed v (by simpa using some)
  chain_model u ei j some := by simpa using h.chain_model u ei j some
  value_chain := h.value_chain
  tight_k t v := by simpa using h.tight_k t v

/-- Recording a solved model instance behind a marked variable instance. -/
theorem setChain (h : P.SearchOk s) {u : P.G.VI} {ei : Nat} {m : P.G.MI}
    (marked : s.marked u = true) (cand : (ei, m) ∈ candInsts (xcands P.maps u))
    (solved : (s.ms m).chain = true) (attains : P.Attains u m) : P.SearchOk (s.setChain u ei m.2) where
  var_low v := by simpa using h.var_low v
  model_low := h.model_low
  var_exact v some clear := by
    have other : v ≠ u := by
      rintro rfl
      have : s.marked v = false := by simpa [Search.marked] using clear
      rw [marked] at this
      cases this
    rw [s.setChain_of_ne ei m.2 other] at some ⊢
    exact h.var_exact v some (by simpa [Search.marked] using clear)
  model_exact := h.model_exact
  bits := h.bits
  model_closed m' some v hv := by
    by_cases same : v = u
    · subst same; rw [Search.setChain_self]; rfl
    · rw [s.setChain_of_ne ei m.2 same]; exact h.model_closed m' some v hv
  chain_model v ei' j some := by
    by_cases same : v = u
    · subst same
      rw [Search.setChain_self] at some
      simp only [Option.some.injEq, Prod.mk.injEq] at some
      obtain ⟨rfl, rfl⟩ := some
      exact ⟨m.1, cand, solved, attains⟩
    · rw [s.setChain_of_ne ei m.2 same] at some
      exact h.chain_model v ei' j some
  value_chain v some := by
    by_cases same : v = u
    · subst same; rw [Search.setChain_self]; rfl
    · rw [s.setChain_of_ne ei m.2 same] at some ⊢
      exact h.value_chain v some
  tight_k := h.tight_k

/-- Recording the exact cost of a model instance whose parameters are all solved. -/
theorem setModelChain (h : P.SearchOk s) {m : P.G.MI} {cost : Cost}
    (exact : IsLeast (P.sys.altCosts m) cost)
    (closed : ∀ u ∈ P.G.prems P.maps m, (s.vs u).chain.isSome = true) :
    P.SearchOk (s.setModelChain m cost) where
  var_low := h.var_low
  model_low v := by
    by_cases same : v = m
    · subst same; simpa [Search.setModelChain_self] using exact.2
    · rw [s.setModelChain_of_ne cost same]; exact h.model_low v
  var_exact := h.var_exact
  model_exact v some := by
    by_cases same : v = m
    · subst same; simpa [Search.setModelChain_self] using exact
    · rw [s.setModelChain_of_ne cost same] at some ⊢; exact h.model_exact v some
  bits := h.bits
  model_closed v some := by
    by_cases same : v = m
    · subst same; exact closed
    · rw [s.setModelChain_of_ne cost same] at some; exact h.model_closed v some
  chain_model u ei j some := by
    obtain ⟨m_i, cand, solved, attains⟩ := h.chain_model u ei j some
    refine ⟨m_i, cand, ?_, attains⟩
    by_cases same : (m_i, j) = m
    · rw [same, Search.setModelChain_self]
    · rwa [s.setModelChain_of_ne cost same]
  value_chain := h.value_chain
  tight_k t v := by
    by_cases same : v = m
    · subst same
      obtain ⟨f, _, rfl⟩ := exact.1
      rw [Search.setModelChain_self]
      exact Graph.k_le_modelCost P.valid v f
    · rw [s.setModelChain_of_ne cost same]; exact h.tight_k t v

theorem setEval (h : P.SearchOk s) {w : P.G.WI} (fails : P.pass w.1 w.2 = false) :
    P.SearchOk (s.setEval w) where
  var_low := h.var_low
  model_low := h.model_low
  var_exact := h.var_exact
  model_exact := h.model_exact
  bits v := by
    by_cases same : v = w
    · subst same
      rw [Search.setEval_self]
      have := h.bits v
      simp_all
    · rw [s.setEval_of_ne same]; exact h.bits v
  model_closed := h.model_closed
  chain_model := h.chain_model
  value_chain := h.value_chain
  tight_k := h.tight_k

theorem checkscan (h : P.SearchOk s) (w : Fin P.G.nw) (l : List Inst) :
    P.SearchOk (s.checkscan P.pass w l) where
  var_low := h.var_low
  model_low := h.model_low
  var_exact := h.var_exact
  model_exact := h.model_exact
  bits v := by
    by_cases scanned : v.1 = w ∧ v.2 ∈ l
    · obtain ⟨rfl, inside⟩ := scanned
      rw [show v = (v.1, v.2) from rfl, s.checkscan_of_mem inside]
      have := h.bits v
      cases he : (s.ss v).eval <;> cases hp : P.pass v.1 v.2 <;> simp_all
    · rw [s.checkscan_of_not scanned]; exact h.bits v
  model_closed := h.model_closed
  chain_model := h.chain_model
  value_chain := h.value_chain
  tight_k := h.tight_k

theorem same (h : P.SearchOk s) (same : P.SameSearch s s')
    (value : ∀ u, (s'.vs u).value = true → (s'.vs u).chain.isSome = true) : P.SearchOk s' where
  var_low u := by rw [same.cost]; exact h.var_low u
  model_low m := by rw [same.mcost]; exact h.model_low m
  var_exact u := by rw [same.cost, same.chain, same.marked]; exact h.var_exact u
  model_exact m := by rw [same.mcost, same.mchain]; exact h.model_exact m
  bits w := by rw [same.ss]; exact h.bits w
  model_closed m some u hu := by
    rw [same.mchain] at some
    rw [same.chain]
    exact h.model_closed m some u hu
  chain_model u ei j some := by
    rw [same.chain] at some
    obtain ⟨m_i, cand, solved, attains⟩ := h.chain_model u ei j some
    exact ⟨m_i, cand, by rw [same.mchain]; exact solved, attains⟩
  value_chain := value
  tight_k t m := by rw [same.mcost]; exact h.tight_k t m

end SearchOk
end Problem
end M2.Fhk
