import M2.Fhk.SearchUpdate

/-!
# Chains come to an end

A recorded chain names a model instance, and the chains of what that instance needs are recorded before. So no chain
that `S_select_chain` selects leads back to itself, whatever the costs are: `S_compute_value` relies on it. The
invariant is that of the frames without their costs. A frame that waits is never overtaken: another frame that tries
the same model instance goes through the same checks and stops where the first one stopped.
-/
namespace M2.Fhk
open M2.Lib

/-- The model instance of the recorded chain. -/
def Search.model {G : Graph} (s : Search G) (u : G.VI) : Option G.MI :=
  (s.vs u).chain.bind fun chain => (G.vars u.1).models[chain.1]?.map fun e => (e.idx, chain.2)

theorem mem_candInsts {G : Graph} {maps : Maps} {x : G.VI} {ei : Nat} {m : G.MI} (mem : (ei, m) ∈ candInsts (xcands maps x)) :
    ∃ e, (G.vars x.1).models[ei]? = some e ∧ e.idx = m.1 ∧ m.2 ∈ maps.mapE e.map x.2 := by
  obtain ⟨cand, there, inside⟩ := List.mem_flatMap.mp mem
  obtain ⟨edge, indexed, rfl⟩ := List.mem_map.mp (List.mem_of_mem_filter there)
  obtain ⟨i, listed, same⟩ := List.mem_map.mp inside
  cases same
  exact ⟨edge.1, List.mem_zipIdx_iff_getElem?.mp indexed, rfl, listed⟩

namespace Problem
variable (P : Problem)

/-- The model instance of the recorded chain of `a` needs `b`. -/
def Uses (s : Search P.G) (a b : P.G.VI) : Prop := ∃ m, s.model a = some m ∧ b ∈ P.G.prems P.maps m

/-- The recorded chain comes to an end. -/
inductive Grounded (s : Search P.G) : P.G.VI → Prop
  | intro {u : P.G.VI} {m : P.G.MI} (model : s.model u = some m) (prems : ∀ v ∈ P.G.prems P.maps m, Grounded s v) :
      Grounded s u

/-- The recorded chains. -/
structure Chained (s : Search P.G) : Prop where
  grounded : ∀ u, (s.vs u).chain.isSome = true → P.Grounded s u
  closed : ∀ m, (s.ms m).chain = true → ∀ v ∈ P.G.prems P.maps m, (s.vs v).chain.isSome = true
  solved : ∀ u m, s.model u = some m → (s.ms m).chain = true
  value : ∀ u, (s.vs u).value = true → (s.vs u).chain.isSome = true
  cand : ∀ u m, s.model u = some m → ∃ ei, (s.vs u).chain = some (ei, m.2) ∧ (ei, m) ∈ candInsts (xcands P.maps u)

variable {P} {s s' : Search P.G}

/-! ## Recording a chain -/

theorem model_chain {u : P.G.VI} {m : P.G.MI} (model : s.model u = some m) : (s.vs u).chain.isSome = true := by
  unfold Search.model at model
  cases chain : (s.vs u).chain with
  | none =>
    rw [chain] at model
    cases model
  | some c => rfl

theorem Grounded.keep (kept : ∀ u, (s.vs u).chain.isSome = true → (s'.vs u).chain = (s.vs u).chain) {u : P.G.VI}
    (grounded : P.Grounded s u) : P.Grounded s' u := by
  induction grounded with
  | intro model _ ih =>
    apply Grounded.intro _ ih
    rw [← model, Search.model, Search.model, kept _ (model_chain model)]

/-- No chain leads back to itself. -/
theorem Grounded.irrefl {u : P.G.VI} (grounded : P.Grounded s u) :
    ¬ Relation.TransGen (P.Uses s) u u := by
  induction grounded with
  | @intro u m model _ ih =>
    intro cycle
    obtain ⟨v, ⟨m', model', mem⟩, rest⟩ := Relation.TransGen.head'_iff.mp cycle
    rw [model] at model'
    cases model'
    exact ih v mem (Relation.TransGen.tail' rest ⟨m, model, mem⟩)

theorem Chained.init : P.Chained (Search.init P.G) where
  grounded u some' := by cases some'
  closed m some' := by cases some'
  solved u m model := by cases model
  value u some' := by cases some'
  cand u m model := by cases model

/-- Updates that record no chain. -/
theorem Chained.same (chained : P.Chained s) (chain : ∀ u, (s'.vs u).chain = (s.vs u).chain)
    (mchain : ∀ m, (s'.ms m).chain = (s.ms m).chain)
    (value : ∀ u, (s'.vs u).value = true → (s.vs u).chain.isSome = true) : P.Chained s' where
  grounded u some' := (chained.grounded u (chain u ▸ some')).keep fun v _ => chain v
  closed m solved v mem := by
    rw [chain]
    exact chained.closed m (mchain m ▸ solved) v mem
  solved u m model := by
    rw [mchain]
    apply chained.solved u m
    rw [← model, Search.model, Search.model, chain]
  value u set := by
    rw [chain]
    exact value u set
  cand u m model := by
    rw [chain]
    apply chained.cand u m
    rw [← model, Search.model, Search.model, chain]

theorem Chained.setModelChain (chained : P.Chained s) {m : P.G.MI} (closed : ∀ v ∈ P.G.prems P.maps m, (s.vs v).chain.isSome = true)
    (cost : Cost) : P.Chained (s.setModelChain m cost) where
  grounded u some' := by
    apply Grounded.keep _ (chained.grounded u some')
    exact fun _ _ => rfl
  closed m' solved v mem := by
    by_cases same : m' = m
    · exact closed v (same ▸ mem)
    · rw [s.setModelChain_of_ne cost same] at solved
      exact chained.closed m' solved v mem
  solved u m' model := by
    by_cases same : m' = m
    · rw [same, s.setModelChain_self]
    · rw [s.setModelChain_of_ne cost same]
      exact chained.solved u m' model
  value := chained.value
  cand := chained.cand

theorem Chained.setChain (chained : P.Chained s) {u : P.G.VI} (unchained : (s.vs u).chain = none) {ei : Nat} {m : P.G.MI}
    (cand : (ei, m) ∈ candInsts (xcands P.maps u)) (solved : (s.ms m).chain = true) : P.Chained (s.setChain u ei m.2) := by
  have kept (v : P.G.VI) (some' : (s.vs v).chain.isSome = true) : ((s.setChain u ei m.2).vs v).chain = (s.vs v).chain := by
    by_cases same : v = u
    · rw [same, unchained] at some'
      cases some'
    · rw [s.setChain_of_ne ei m.2 same]
  have model : (s.setChain u ei m.2).model u = some m := by
    obtain ⟨e, listed, idx, -⟩ := mem_candInsts cand
    rw [Search.model, s.setChain_self]
    simp only [Option.bind_some, listed, Option.map_some, idx]
  have others {v : P.G.VI} (other : v ≠ u) : (s.setChain u ei m.2).model v = s.model v := by
    rw [Search.model, Search.model, s.setChain_of_ne ei m.2 other]
  constructor
  · intro v some'
    by_cases same : v = u
    · rw [same]
      apply Grounded.intro model
      intro w mem
      exact (chained.grounded w (chained.closed m solved w mem)).keep kept
    · rw [s.setChain_of_ne ei m.2 same] at some'
      exact (chained.grounded v some').keep kept
  · intro m' solved' v mem
    have some' := chained.closed m' solved' v mem
    rw [kept v some']
    exact some'
  · intro v m' model'
    by_cases same : v = u
    · rw [same, model] at model'
      cases model'
      exact solved
    · rw [others same] at model'
      exact chained.solved v m' model'
  · intro v set
    by_cases same : v = u
    · rw [same, s.setChain_self] at set
      cases set
    · rw [s.setChain_of_ne ei m.2 same] at set ⊢
      exact chained.value v set
  · intro v m' model'
    by_cases same : v = u
    · rw [same, model] at model'
      cases model'
      rw [same, s.setChain_self]
      exact ⟨ei, rfl, cand⟩
    · rw [others same] at model'
      rw [s.setChain_of_ne ei m.2 same]
      exact chained.cand v m' model'

/-! ## Frames -/

/-- The candidate of a frame is one of its target. -/
structure Picked (X : XState P.G) : Prop where
  cands : X.cands = xcands P.maps X.x
  cand : (X.m_ei, X.mi) ∈ candInsts X.cands

/-- The shadow loop is at instance `i` of `e`, and the instances before it pass. -/
def ShadowPos (s : Search P.G) (X : XState P.G) (e : ShEdge P.G.nw) (edges : List (ShEdge P.G.nw)) (i : Inst)
    (insts : List Inst) : Prop :=
  ∃ done pre, X.m.shadows = done ++ e :: edges ∧ P.maps.mapE e.map X.m_inst = pre ++ i :: insts ∧
    ∀ i' ∈ pre, (s.ss (e.idx, i')).pass = true

/-- The parameter loop has finished all edges but these. -/
def ParamDone (s : Search P.G) (X : XState P.G) (edges : List (Edge P.G.nv)) : Prop :=
  ∃ done, X.m.cparams.reverse = done ++ edges ∧
    ∀ e ∈ done, ∀ i ∈ P.maps.mapE e.map X.m_inst, (s.vs (e.idx, i)).chain.isSome = true

def ParamPos (s : Search P.G) (X : XState P.G) (e : Edge P.G.nv) (edges : List (Edge P.G.nv)) (i : Inst)
    (insts : List Inst) : Prop :=
  ParamDone s X (e :: edges) ∧ ∃ pre, P.maps.mapE e.map X.m_inst = pre ++ i :: insts ∧
    ∀ i' ∈ pre, (s.vs (e.idx, i')).chain.isSome = true

/-- Where a frame waits. The check that it waits for has not been made. -/
def WaitsAt (s : Search P.G) (f : Suspended P.G) : Prop :=
  match f.resume with
  | .shadow e edges i insts => ShadowPos s f.toXState e edges i insts ∧ (s.ss (e.idx, i)).eval = false ∧
      (s.ss (e.idx, i)).pass = false ∧ e.computed = true
  | .param e edges i insts _ => ParamPos s f.toXState e edges i insts

structure FrameOk (s : Search P.G) (f : Suspended P.G) : Prop where
  picked : Picked f.toXState
  waits : WaitsAt s f
  marked : s.marked f.x = true
  unchained : (s.vs f.x).chain = none
  unsolved : (s.ms f.mi).chain = false

/-- A waiting frame has not been overtaken by one with these edges left, and these instances of the current one. -/
def Behind (f : Suspended P.G) (edges : List (ShEdge P.G.nw)) (insts : List Inst) : Prop :=
  match f.resume with
  | .shadow _ edges' i insts' => edges'.length < edges.length ∨
      edges'.length = edges.length ∧ (i :: insts').length ≤ insts.length
  | .param _ _ _ _ _ => True

/-- What a waiting frame has left after the check that it waits for. -/
def ahead (f : Suspended P.G) : List (ShEdge P.G.nw) × List Inst :=
  match f.resume with
  | .shadow _ edges _ insts => (edges, insts)
  | .param _ _ _ _ _ => ([], [])

/-- The frames below a frame that solves `x`. -/
def StackAt (s : Search P.G) : P.G.VI → List (Suspended P.G) → Prop
  | _, [] => True
  | x, f :: stack => FrameOk s f ∧ awaited f = x ∧ (∀ g ∈ stack, g.mi = f.mi → Behind g (ahead f).1 (ahead f).2) ∧
      f.x ∉ P.targets stack ∧ StackAt s f.x stack

structure TopAt (s : Search P.G) (stack : List (Suspended P.G)) (t : XTarget P.G) : Prop where
  below : StackAt s t.x stack
  fresh : t.x ∉ P.targets stack
  marked : s.marked t.x = true
  unchained : (s.vs t.x).chain = none
  cands : t.cands = xcands P.maps t.x

/-- The current frame, with what is left of its shadow loop. -/
structure FrameAt (s : Search P.G) (stack : List (Suspended P.G)) (X : XState P.G) (edges : List (ShEdge P.G.nw))
    (insts : List Inst) : Prop extends TopAt s stack X.toXTarget where
  picked : Picked X
  unsolved : (s.ms X.mi).chain = false
  behind : ∀ f ∈ stack, f.mi = X.mi → Behind f edges insts

/-- What holds at each program point. A marked target is never entered. -/
def PcAt (s : Search P.G) (stack : List (Suspended P.G)) : Pc P.G → Prop
  | .x_solve x _ => s.marked x = true ∨ StackAt s x stack ∧ (s.vs x).chain = none
  | .x_chosen t _ => StackAt s t.x stack ∧ t.x ∉ P.targets stack ∧ (s.vs t.x).chain.isSome = true ∧ (s.vs t.x).value = false
  | .x_failed t _ | .candidate t => TopAt s stack t
  | .x_bound X _ => TopAt s stack X.toXTarget
  | .shadow X edges _ _ => FrameAt s stack X edges [] ∧ ∃ done, X.m.shadows = done ++ edges
  | .shadow_inst X e edges i insts _ _ => FrameAt s stack X edges (i :: insts) ∧ ShadowPos s X e edges i insts
  | .shadow_compute X e edges i insts _ _ => FrameAt s stack X edges insts ∧ ShadowPos s X e edges i insts ∧
      e.computed = true ∧ (s.vs ((P.G.shadows e.idx).xi, i)).chain.isSome = true ∧
      (s.vs ((P.G.shadows e.idx).xi, i)).value = false
  | .shadow_penalty X e edges _ _ => FrameAt s stack X edges [] ∧ ∃ done, X.m.shadows = done ++ e :: edges
  | .param X edges _ _ => FrameAt s stack X [] [] ∧ ParamDone s X edges
  | .param_inst X e edges i insts _ _ _ => FrameAt s stack X [] [] ∧ ParamPos s X e edges i insts
  | .solved X _ _ => FrameAt s stack X [] [] ∧ ParamDone s X []
  | .done _ => True

/-- The invariant. -/
structure Linked {V : Type} (c : Config P.G V) : Prop where
  chained : P.Chained c.s
  at' : PcAt c.s c.stack c.pc

/-! ## Keeping the frames -/

/-- Chains stay recorded and checks stay passed. -/
structure Extends (s s' : Search P.G) : Prop where
  chain : ∀ u, (s.vs u).chain.isSome = true → (s'.vs u).chain.isSome = true
  pass : ∀ w, (s.ss w).pass = true → (s'.ss w).pass = true

/-- What an update must leave alone for a waiting frame to stay as it is. -/
structure Leaves (s s' : Search P.G) (f : Suspended P.G) : Prop where
  marked : s.marked f.x = true → s'.marked f.x = true
  unchained : (s.vs f.x).chain = none → (s'.vs f.x).chain = none
  unsolved : (s.ms f.mi).chain = false → (s'.ms f.mi).chain = false
  pending : ∀ e edges i insts, f.resume = .shadow e edges i insts → s'.ss (e.idx, i) = s.ss (e.idx, i)

theorem ShadowPos.mono (grows : Extends s s') {X : XState P.G} {e : ShEdge P.G.nw} {edges : List (ShEdge P.G.nw)} {i : Inst}
    {insts : List Inst} (h : ShadowPos s X e edges i insts) : ShadowPos s' X e edges i insts := by
  obtain ⟨done, pre, split, list, passed⟩ := h
  exact ⟨done, pre, split, list, fun i' mem => grows.pass _ (passed i' mem)⟩

theorem ParamDone.mono (grows : Extends s s') {X : XState P.G} {edges : List (Edge P.G.nv)} (h : ParamDone s X edges) :
    ParamDone s' X edges := by
  obtain ⟨done, split, chained⟩ := h
  exact ⟨done, split, fun e mem i there => grows.chain _ (chained e mem i there)⟩

theorem ParamPos.mono (grows : Extends s s') {X : XState P.G} {e : Edge P.G.nv} {edges : List (Edge P.G.nv)} {i : Inst}
    {insts : List Inst} (h : ParamPos s X e edges i insts) : ParamPos s' X e edges i insts := by
  obtain ⟨done, pre, list, chained⟩ := h
  exact ⟨done.mono grows, pre, list, fun i' mem => grows.chain _ (chained i' mem)⟩

theorem FrameOk.keep {f : Suspended P.G} (h : FrameOk s f) (grows : Extends s s') (leaves : Leaves s s' f) : FrameOk s' f := by
  refine ⟨h.picked, ?_, leaves.marked h.marked, leaves.unchained h.unchained, leaves.unsolved h.unsolved⟩
  have waits := h.waits
  unfold WaitsAt at waits ⊢
  cases resume : f.resume with
  | shadow e edges i insts =>
    simp only [resume] at waits ⊢
    rw [leaves.pending e edges i insts resume]
    exact ⟨waits.1.mono grows, waits.2⟩
  | param e edges i insts p_ssmax =>
    simp only [resume] at waits ⊢
    exact waits.mono grows

theorem StackAt.keep {x : P.G.VI} {stack : List (Suspended P.G)} (h : StackAt s x stack) (grows : Extends s s')
    (leaves : ∀ f ∈ stack, Leaves s s' f) : StackAt s' x stack := by
  induction stack generalizing x with
  | nil => trivial
  | cons f stack ih =>
    obtain ⟨frame, waits, behind, fresh, below⟩ := h
    exact ⟨frame.keep grows (leaves f List.mem_cons_self), waits, behind, fresh,
      ih below fun g mem => leaves g (List.mem_cons_of_mem _ mem)⟩

theorem StackAt.frame {x : P.G.VI} {stack : List (Suspended P.G)} (h : StackAt s x stack) {f : Suspended P.G} (mem : f ∈ stack) :
    FrameOk s f := by
  induction stack generalizing x with
  | nil => cases mem
  | cons g stack ih =>
    rcases List.mem_cons.mp mem with rfl | below
    · exact h.1
    · exact ih h.2.2.2.2 below

/-- What a frame waits for is searched above it. -/
theorem StackAt.awaited_mem {x : P.G.VI} {stack : List (Suspended P.G)} (h : StackAt s x stack) {f : Suspended P.G}
    (mem : f ∈ stack) : awaited f = x ∨ awaited f ∈ P.targets stack := by
  induction stack generalizing x with
  | nil => cases mem
  | cons g stack ih =>
    rcases List.mem_cons.mp mem with rfl | below
    · exact .inl h.2.1
    · rcases ih h.2.2.2.2 below with same | there
      · exact .inr (List.mem_cons.mpr (.inl same))
      · exact .inr (List.mem_cons_of_mem _ there)

/-- What a frame waits for has no chain. -/
theorem StackAt.awaited_unchained {x : P.G.VI} {stack : List (Suspended P.G)} (h : StackAt s x stack)
    (unchained : (s.vs x).chain = none) {f : Suspended P.G} (mem : f ∈ stack) : (s.vs (awaited f)).chain = none := by
  rcases h.awaited_mem mem with same | below
  · rw [same, unchained]
  · obtain ⟨g, there, same⟩ := List.mem_map.mp below
    rw [← same]
    exact (h.frame there).unchained

/-- Updates of costs, bounds and flags that no frame looks at. -/
theorem StackAt.same {x : P.G.VI} {stack : List (Suspended P.G)} (h : StackAt s x stack)
    (chain : ∀ u, (s'.vs u).chain = (s.vs u).chain) (mchain : ∀ m, (s'.ms m).chain = (s.ms m).chain) (ss : s'.ss = s.ss)
    (marked : ∀ f ∈ stack, s.marked f.x = true → s'.marked f.x = true) : StackAt s' x stack := by
  refine h.keep ⟨fun u => by rw [chain]; exact id, fun w => by rw [ss]; exact id⟩ fun f mem => ⟨marked f mem, ?_, ?_, ?_⟩
  · rw [chain]
    exact id
  · rw [mchain]
    exact id
  · intro e edges i insts _
    rw [ss]

theorem StackAt.setCost {x u : P.G.VI} {stack : List (Suspended P.G)} (h : StackAt s x stack) (cost : Cost)
    (fresh : u ∉ P.targets stack) : StackAt (s.setCost u cost) x stack := by
  apply h.same
  · simp
  · simp
  · rfl
  · intro f mem
    simp [Search.marked, s.setCost_of_ne cost (ne_of_fresh fresh mem)]

theorem StackAt.setChain {x u : P.G.VI} {stack : List (Suspended P.G)} (h : StackAt s x stack) (ei : Nat) (j : Inst)
    (fresh : u ∉ P.targets stack) : StackAt (s.setChain u ei j) x stack := by
  refine h.keep ⟨fun v some' => ?_, fun _ => id⟩ fun f mem => ⟨by simp [Search.marked], ?_, id, fun _ _ _ _ _ => rfl⟩
  · by_cases same : v = u
    · rw [same, Search.setChain_self]
      rfl
    · rwa [s.setChain_of_ne ei j same]
  · rw [s.setChain_of_ne ei j (ne_of_fresh fresh mem)]
    exact id

theorem StackAt.setModelChain {x : P.G.VI} {m : P.G.MI} {stack : List (Suspended P.G)} (h : StackAt s x stack) (cost : Cost)
    (fresh : ∀ f ∈ stack, f.mi ≠ m) : StackAt (s.setModelChain m cost) x stack := by
  refine h.keep ⟨fun _ => id, fun _ => id⟩ fun f mem => ⟨id, id, ?_, fun _ _ _ _ _ => rfl⟩
  rw [s.setModelChain_of_ne cost (fresh f mem)]
  exact id

/-- A check that no frame waits for. -/
theorem StackAt.setEval {x : P.G.VI} {w : P.G.WI} {stack : List (Suspended P.G)} (h : StackAt s x stack)
    (fresh : ∀ f ∈ stack, awaited f ≠ ((P.G.shadows w.1).xi, w.2)) : StackAt (s.setEval w) x stack := by
  refine h.keep ⟨fun _ => id, fun v old => ?_⟩ fun f mem => ⟨id, id, id, fun e edges i insts resume => ?_⟩
  · by_cases same : v = w
    · rw [same, Search.setEval_self]
      exact same ▸ old
    · rwa [s.setEval_of_ne same]
  · apply s.setEval_of_ne
    rintro rfl
    exact fresh f mem (by simp only [awaited, resume])

theorem StackAt.checkscan {x : P.G.VI} {guard : Fin P.G.nw → Inst → Bool} {w : Fin P.G.nw} {l : List Inst}
    {stack : List (Suspended P.G)} (h : StackAt s x stack)
    (fresh : ∀ f ∈ stack, ∀ e edges i insts, f.resume = .shadow e edges i insts → ¬ (e.idx = w ∧ i ∈ l)) :
    StackAt (s.checkscan guard w l) x stack := by
  refine h.keep ⟨fun _ => id, fun v old => ?_⟩ fun f mem => ⟨id, id, id, fun e edges i insts resume => ?_⟩
  · by_cases scanned : v.1 = w ∧ v.2 ∈ l
    · obtain ⟨rfl, inside⟩ := scanned
      have checked := congrArg SwBits.pass (s.checkscan_of_mem (g := guard) (w := v.1) inside)
      rw [old, Bool.true_or] at checked
      exact checked
    · rwa [s.checkscan_of_not scanned]
  · exact s.checkscan_of_not (u := (e.idx, i)) (fresh f mem e edges i insts resume)

theorem TopAt.keep {stack : List (Suspended P.G)} {t : XTarget P.G} (h : TopAt s stack t) (below : StackAt s' t.x stack)
    (marked : s'.marked t.x = s.marked t.x) (chain : (s'.vs t.x).chain = (s.vs t.x).chain) : TopAt s' stack t :=
  ⟨below, h.fresh, marked.trans h.marked, chain.trans h.unchained, h.cands⟩

theorem FrameAt.keep {stack : List (Suspended P.G)} {X : XState P.G} {edges : List (ShEdge P.G.nw)} {insts : List Inst}
    (h : FrameAt s stack X edges insts) (below : StackAt s' X.x stack) (marked : s'.marked X.x = s.marked X.x)
    (chain : (s'.vs X.x).chain = (s.vs X.x).chain) (mchain : (s'.ms X.mi).chain = (s.ms X.mi).chain) :
    FrameAt s' stack X edges insts :=
  ⟨h.toTopAt.keep below marked chain, h.picked, mchain.trans h.unsolved, h.behind⟩

/-- A waiting frame that becomes the current one. -/
theorem FrameOk.top {f : Suspended P.G} {stack : List (Suspended P.G)} (h : FrameOk s f) (below : StackAt s f.x stack)
    (fresh : f.x ∉ P.targets stack) : TopAt s stack f.toXTarget :=
  ⟨below, fresh, h.marked, h.unchained, h.picked.cands⟩

end Problem
end M2.Fhk
