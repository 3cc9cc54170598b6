import M2.Fhk.ChainCost

/-!
# The invariant of the search

What holds at every program point of `S_select_chain`. The costs in the search state are
lower bounds of the true costs, exact where a chain is recorded (`SearchOk`). Everything
known about a frame that is not about the state is about true costs, so it survives
whatever the frames above do: a suspended frame remembers how far its loops are and that
its partial sum is exact (`ShadowAt`, `ParamAt`). The only facts about the state that a
suspended frame needs are that the instance it waits for and its own target have no chain
yet and that its model instance is not solved (`SuspendedOk`).
-/
namespace M2.Fhk
open M2.Lib

/-- A graph with its maps and the fixed outcome of every shadow instance. -/
structure Problem where
  G : Graph
  valid : G.Valid
  maps : Maps
  pass : Fin G.nw → Inst → Bool

namespace Problem
variable (P : Problem)

/-- The chains and their costs. -/
abbrev sys : AndOr P.G.VI P.G.MI Cost := P.G.chainSystem P.valid P.maps P.pass

/-- Every model starts with a bound that covers its constant, as the front ends pass it
(`cmin or k`, or a bound of the pruner). -/
def Tight : Prop := ∀ m, ((P.G.models m).k : Cost) ≤ (P.G.models m).cmin

/-- The initial bounds are lower bounds, which is what a caller owes the solver. -/
def CminLow : Prop := ∀ m : P.G.MI, (P.G.models m.1).cmin ∈ lowerBounds (P.sys.altCosts m)

/-- A shadow of a computed variable passes only where the variable has a chain the solver
accepts. -/
def Solvable : Prop :=
  ∀ w i, P.pass w i = true → P.G.given (P.G.shadows w).xi = false →
    ∃ t, P.sys.Derives ((P.G.shadows w).xi, i) t ∧ t ≤ (MAX_COST : Cost)

/-- The scan of a shadow edge has evaluated every instance up to the first failure. -/
def EvalList (s : Search P.G) (w : Fin P.G.nw) : List Inst → Prop
  | [] => True
  | i :: rest => (s.ss (w, i)).eval = true ∧ (P.pass w i = true → EvalList s w rest)

/-- A model instance attains the true cost of a variable instance. -/
def Attains (u : P.G.VI) (m : P.G.MI) : Prop :=
  ∃ t, IsLeast (P.sys.costs u) t ∧ IsLeast (P.sys.altCosts m) t

/-- The search state between two steps. -/
structure SearchOk (s : Search P.G) : Prop where
  var_low : ∀ u, (s.vs u).cost ∈ lowerBounds (P.sys.costs u)
  model_low : ∀ m, (s.ms m).cost ∈ lowerBounds (P.sys.altCosts m)
  var_exact : ∀ u, (s.vs u).chain.isSome = true → s.marked u = false →
    IsLeast (P.sys.costs u) (s.vs u).cost
  model_exact : ∀ m, (s.ms m).chain = true → IsLeast (P.sys.altCosts m) (s.ms m).cost
  bits : ∀ w, (s.ss w).pass = ((s.ss w).eval && P.pass w.1 w.2)
  model_closed : ∀ m, (s.ms m).chain = true → ∀ u ∈ P.G.prems P.maps m,
    (s.vs u).chain.isSome = true
  chain_model : ∀ u ei j, (s.vs u).chain = some (ei, j) →
    ∃ m_i, (ei, (m_i, j)) ∈ candInsts (xcands P.maps u) ∧ (s.ms (m_i, j)).chain = true ∧
      P.Attains u (m_i, j)
  value_chain : ∀ u, (s.vs u).value = true → (s.vs u).chain.isSome = true
  tight_k : P.Tight → ∀ m, ((P.G.models m.1).k : Cost) ≤ (s.ms m).cost

/-- Two search states that differ in their value bits at most. -/
structure SameSearch (s s' : Search P.G) : Prop where
  ss : s'.ss = s.ss
  cost : ∀ u, (s'.vs u).cost = (s.vs u).cost
  chain : ∀ u, (s'.vs u).chain = (s.vs u).chain
  mcost : ∀ m, (s'.ms m).cost = (s.ms m).cost
  mchain : ∀ m, (s'.ms m).chain = (s.ms m).chain

/-- What is assumed of the surroundings: the guard of a shadow instance has its fixed
outcome, evaluating a variable instance that has a chain changes value bits only and sets
them on instances that have a chain, and the exits of the search are taken nowhere else. -/
structure Surroundings {V : Type} (ops : Ops P.G V) : Prop where
  guard : ∀ v w i, ops.guard v w i = P.pass w i
  compute : ∀ s v x s' v', P.SearchOk s → (s.vs x).chain.isSome = true →
    ops.compute s v x = .ok (s', v') →
    P.SameSearch s s' ∧ ∀ u, (s'.vs u).value = true → (s'.vs u).chain.isSome = true
  exits : ∀ e, ops.Exits e → e.ofSearch = false

/-- The selected candidate of a frame. -/
structure Selected (X : XState P.G) : Prop where
  cands : X.cands = xcands P.maps X.x
  cand : (X.m_ei, X.mi) ∈ candInsts X.cands
  others : ∀ m ∈ P.G.alts P.maps X.x, m ≠ X.mi → (X.m_beta : Cost) ∈ lowerBounds (P.sys.altCosts m)
  beta_le : X.m_beta ≤ X.x_beta
  k_le : P.Tight → X.m.k ≤ X.m_beta

/-- The registers of a frame inside its loops. -/
structure Regs (X : XState P.G) (M_costS : Cost) (M_betaS : ℚ) : Prop where
  betaS : M_betaS = X.m.costf_invS X.m_beta
  finite : M_costS ≠ ⊤
  below : P.Tight → M_costS ≤ (M_betaS : Cost)

/-- The shadow loop has finished the edges `done`. -/
structure ShadowAt (s : Search P.G) (X : XState P.G) (done edges : List (ShEdge P.G.nw))
    (M_costS : Cost) : Prop where
  split : X.m.shadows = done ++ edges
  sum : M_costS = (done.map (P.G.penaltyOf P.maps P.pass X.m_inst)).sum
  evaluated : ∀ e ∈ done, P.EvalList s e.idx (P.maps.mapE e.map X.m_inst)

/-- The shadow loop is at instance `i` of the edge `e`. -/
def ShadowInstAt (s : Search P.G) (X : XState P.G) (e : ShEdge P.G.nw)
    (edges : List (ShEdge P.G.nw)) (i : Inst) (insts : List Inst) (M_costS : Cost) : Prop :=
  ∃ done pre, P.ShadowAt s X done (e :: edges) M_costS ∧
    P.maps.mapE e.map X.m_inst = pre ++ i :: insts ∧
    ∀ i' ∈ pre, P.pass e.idx i' = true ∧ (s.ss (e.idx, i')).eval = true

/-- The parameter loop has finished the edges `done`. -/
structure ParamAt (s : Search P.G) (X : XState P.G) (done edges : List (Edge P.G.nv))
    (M_costS : Cost) : Prop where
  split : X.m.cparams.reverse = done ++ edges
  sum : M_costS = (X.m.shadows.map (P.G.penaltyOf P.maps P.pass X.m_inst)).sum +
    (done.map (P.G.paramCost P.maps X.m_inst P.sys.opt)).sum
  evaluated : ∀ e ∈ X.m.shadows, P.EvalList s e.idx (P.maps.mapE e.map X.m_inst)
  exact : ∀ e ∈ done, ∀ i ∈ P.maps.mapE e.map X.m_inst,
    P.sys.Exact (e.idx, i) ∧ (s.vs (e.idx, i)).chain.isSome = true

/-- The parameter loop is at instance `i` of the edge `e`. -/
def ParamInstAt (s : Search P.G) (X : XState P.G) (e : Edge P.G.nv) (edges : List (Edge P.G.nv))
    (i : Inst) (insts : List Inst) (p_ssmax M_costS : Cost) : Prop :=
  ∃ done pre, P.ParamAt s X done (e :: edges) M_costS ∧
    P.maps.mapE e.map X.m_inst = pre ++ i :: insts ∧
    (∀ i' ∈ pre, P.sys.Exact (e.idx, i') ∧ (s.vs (e.idx, i')).chain.isSome = true) ∧
    p_ssmax = Cost.listMax (pre.map fun i' => P.sys.opt (e.idx, i'))

variable {P}

/-- The variable instance a suspended frame waits for. -/
def awaited (f : Suspended P.G) : P.G.VI :=
  match f.resume with
  | .shadow e _ i _ => ((P.G.shadows e.idx).xi, i)
  | .param e _ i _ _ => (e.idx, i)

/-- The bound it is solved under. -/
def awaitedBeta (f : Suspended P.G) : ℚ :=
  match f.resume with
  | .shadow _ _ _ _ => MAX_COST
  | .param _ _ _ _ _ => f.m_betaS - f.m_costS.untopD 0

variable (P)

/-- Where a suspended frame is in its loops. -/
def ResumeAt (s : Search P.G) (f : Suspended P.G) : Prop :=
  match f.resume with
  | .shadow e edges i insts =>
      P.ShadowInstAt s f.toXState e edges i insts f.m_costS ∧
        P.Regs f.toXState f.m_costS f.m_betaS ∧
        (s.ss (e.idx, i)).eval = false ∧ e.computed = true
  | .param e edges i insts p_ssmax =>
      P.ParamInstAt s f.toXState e edges i insts p_ssmax f.m_costS ∧
        P.Regs f.toXState (f.m_costS + p_ssmax) f.m_betaS

/-- A frame below the current one. -/
structure SuspendedOk (s : Search P.G) (f : Suspended P.G) : Prop where
  selected : P.Selected f.toXState
  resume : P.ResumeAt s f
  marked : s.marked f.x = true
  unchained : (s.vs f.x).chain = none
  unsolved : (s.ms f.mi).chain = false

/-- The frames below a frame that solves `x` under `beta`, down to the root. -/
def StackOk (s : Search P.G) (root : P.G.VI) : P.G.VI → ℚ → List (Suspended P.G) → Prop
  | x, beta, [] => x = root ∧ beta = MAX_COST
  | x, beta, f :: stack =>
      P.SuspendedOk s f ∧ awaited f = x ∧ awaitedBeta f = beta ∧
        StackOk s root f.x f.x_beta stack

/-- The instances the frames below the current one search. -/
def targets (stack : List (Suspended P.G)) : List P.G.VI := stack.map (·.x)

/-- The current frame: its target is searched nowhere below, marked, and its candidates
are those of its target. -/
structure Top (root : P.G.VI) (s : Search P.G) (stack : List (Suspended P.G)) (t : XTarget P.G) :
    Prop where
  below : P.StackOk s root t.x t.x_beta stack
  fresh : t.x ∉ P.targets stack
  marked : s.marked t.x = true
  unchained : (s.vs t.x).chain = none
  cands : t.cands = xcands P.maps t.x

/-- The current frame with its candidate. -/
structure TopX (root : P.G.VI) (s : Search P.G) (stack : List (Suspended P.G)) (X : XState P.G) :
    Prop extends P.Top root s stack X.toXTarget where
  selected : P.Selected X
  unsolved : (s.ms X.mi).chain = false

/-- What holds at each program point. -/
def PcOk (root : P.G.VI) (s : Search P.G) (stack : List (Suspended P.G)) : Pc P.G → Prop
  | .x_solve x beta => P.StackOk s root x beta stack ∧ (s.vs x).chain = none
  | .x_chosen t cost =>
      P.StackOk s root t.x t.x_beta stack ∧ t.x ∉ P.targets stack ∧
        (s.vs t.x).chain.isSome = true ∧ IsLeast (P.sys.costs t.x) cost ∧
        cost ≤ (t.x_beta : Cost)
  | .x_failed t cost =>
      P.Top root s stack t ∧ cost ∈ lowerBounds (P.sys.costs t.x) ∧
        (t.x_beta : Cost) < cost ∧ (P.Tight → 0 ≤ cost)
  | .x_bound X M_costS =>
      P.TopX root s stack X ∧ X.m.costf M_costS ∈ lowerBounds (P.sys.altCosts X.mi) ∧
        (X.m_beta : Cost) < X.m.costf M_costS ∧ (P.Tight → 0 ≤ M_costS)
  | .candidate t => P.Top root s stack t
  | .shadow X edges M_costS M_betaS =>
      P.TopX root s stack X ∧ P.Regs X M_costS M_betaS ∧
        ∃ done, P.ShadowAt s X done edges M_costS
  | .shadow_inst X e edges i insts M_costS M_betaS =>
      P.TopX root s stack X ∧ P.Regs X M_costS M_betaS ∧
        P.ShadowInstAt s X e edges i insts M_costS
  | .shadow_compute X e edges i insts M_costS M_betaS =>
      P.TopX root s stack X ∧ P.Regs X M_costS M_betaS ∧
        P.ShadowInstAt s X e edges i insts M_costS ∧ e.computed = true ∧
        (s.vs ((P.G.shadows e.idx).xi, i)).chain.isSome = true
  | .shadow_penalty X e edges M_costS M_betaS =>
      P.TopX root s stack X ∧ P.Regs X M_costS M_betaS ∧
        (∃ done, P.ShadowAt s X done (e :: edges) M_costS) ∧
        P.EvalList s e.idx (P.maps.mapE e.map X.m_inst) ∧
        P.G.penaltyOf P.maps P.pass X.m_inst e = e.penalty
  | .param X edges M_costS M_betaS =>
      P.TopX root s stack X ∧ P.Regs X M_costS M_betaS ∧
        ∃ done, P.ParamAt s X done edges M_costS
  | .param_inst X e edges i insts p_ssmax M_costS M_betaS =>
      P.TopX root s stack X ∧ P.Regs X (M_costS + p_ssmax) M_betaS ∧
        P.ParamInstAt s X e edges i insts p_ssmax M_costS
  | .solved X M_costS M_betaS =>
      P.TopX root s stack X ∧ P.Regs X M_costS M_betaS ∧
        ∃ done, P.ParamAt s X done [] M_costS
  | .done none =>
      stack = [] ∧ (s.vs root).chain.isSome = true ∧ s.marked root = false ∧
        (s.vs root).cost ≤ (MAX_COST : Cost)
  | .done (some (.nchain xi inst)) =>
      stack = [] ∧ root.1.val = xi ∧ root.2 = inst ∧
        ∃ b : Cost, (MAX_COST : Cost) < b ∧ b ∈ lowerBounds (P.sys.costs root)
  | .done (some _) => True

/-- The instance the current frame searches, where it has marked it. -/
def pcTarget : Pc P.G → List P.G.VI
  | .x_chosen t _ | .x_failed t _ | .candidate t => [t.x]
  | .x_bound X _ | .shadow X _ _ _ | .shadow_inst X _ _ _ _ _ _
  | .shadow_compute X _ _ _ _ _ _ | .shadow_penalty X _ _ _ _ | .param X _ _ _
  | .param_inst X _ _ _ _ _ _ _ | .solved X _ _ => [X.x]
  | .x_solve _ _ | .done none => []
  | .done (some _) => []

/-- The instance whose chain is recorded while it is still marked. -/
def pcChosen : Pc P.G → List P.G.VI
  | .x_chosen t _ => [t.x]
  | _ => []

/-- Only these instances have a chain and a mark. -/
def Settled (s : Search P.G) (chosen : List P.G.VI) : Prop :=
  ∀ u, (s.vs u).chain.isSome = true → s.marked u = true → u ∈ chosen

/-- The invariant of a state of the machine, in a call for `root`. -/
structure Inv {V : Type} (root : P.G.VI) (c : Config P.G V) : Prop where
  search : P.SearchOk c.s
  nodup : (P.targets c.stack).Nodup
  at' : P.PcOk root c.s c.stack c.pc
  settled : P.Settled c.s (P.pcChosen c.pc)
  marks : P.Tight → ∀ u, c.s.marked u = true → (∃ e, c.pc = .done (some e)) ∨
    u ∈ P.pcTarget c.pc ++ P.targets c.stack

end Problem
end M2.Fhk
