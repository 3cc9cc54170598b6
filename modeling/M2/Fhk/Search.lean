import Mathlib.Logic.Function.Basic
import M2.Lib.Run
import M2.Lib.AndOr
import M2.Fhk.Graph

/-!
# The chain selection machine

`S_select_chain` of `src/fhk/solve.c` as a step function. The `goto` labels are the
program points of `Pc`, the frames below the current one are the suspended elements of
`S->x_state`, and the registers of the source (`X_cost`, `M_costS`, `M_betaS`) are carried
by the program points that read them. A packed `ssp` is split into its fields. Iterators
are the lists of instances they enumerate.

What the machine does not compute itself is a parameter (`Ops`): the expansion of edges,
which only requests shapes and maps, `S_compute_value`, `S_get_given1`, and the value a
guard has on a stored value. An exit through one of the `JE_*` functions is final.
-/
namespace M2.Fhk
open M2.Lib

/-- `MAX_COST`, the largest finite float. -/
def MAX_COST : ℚ := (2 ^ 24 - 1) * 2 ^ 104

/-- `MAX_STK`. -/
def MAX_STK : Nat := 32

/-- `MAX_CANDSTK`. -/
def MAX_CANDSTK : Nat := 256

/-- `SP_MARK`, the smallest normal negative float. -/
def SP_MARK : Cost := ((-(1 / 2 ^ 126) : ℚ) : Cost)

/-- The `JE_*` exits. `costack` is the end of the coroutine stack, which the recursion of
`S_compute_value` can reach. -/
inductive Exit where
  | maxdepth (xi : Nat) (inst : Inst)
  | nyi
  | nvalue (xi : Nat) (inst : Inst)
  | nmap (map : Int) (inst : Inst)
  | nbuf
  | nchain (xi : Nat) (inst : Inst)
  | costack
  deriving DecidableEq, Repr

/-- The exits that `S_select_chain` takes itself. -/
def Exit.ofSearch : Exit → Bool
  | .maxdepth _ _ | .nyi | .nchain _ _ => true
  | _ => false

/-- `ssp` of a variable instance; `chain` is `SP_CHAIN` with `SP_CHAIN_EI` and
`SP_CHAIN_INSTANCE`. -/
structure VSp where
  cost : Cost
  chain : Option (Nat × Inst)
  value : Bool
  expanded : Bool
  deriving DecidableEq

/-- `ssp` of a model instance. -/
structure MSp where
  cost : Cost
  chain : Bool
  value : Bool
  expanded : Bool
  deriving DecidableEq

/-- The two bits of a shadow instance. -/
structure SwBits where
  pass : Bool
  eval : Bool
  deriving DecidableEq

/-- Search state: `s_vstate`, `s_mstate` and `s_sstate`. An array that is not allocated
yet reads as what it is allocated with. -/
structure Search (G : Graph) where
  vs : G.VI → VSp
  ms : G.MI → MSp
  ss : G.WI → SwBits

namespace Search
variable {G : Graph}

/-- The state `fhk_create_solver` leaves, with the initial values of `S_vexpandsp`,
`S_mexpandsp` and `S_vexpandss`. -/
def init (G : Graph) : Search G where
  vs _ := ⟨0, none, false, false⟩
  ms m := ⟨(G.models m.1).cmin, false, false, false⟩
  ss _ := ⟨false, false⟩

/-- `SP_DONE`. -/
def done (s : Search G) (x : G.VI) : Bool :=
  (s.vs x).chain.isSome || decide ((MAX_COST : Cost) ≤ (s.vs x).cost)

/-- `SP_MARKED`. -/
def marked (s : Search G) (x : G.VI) : Bool := decide ((s.vs x).cost < 0)

def setCost (s : Search G) (x : G.VI) (cost : Cost) : Search G :=
  { s with vs := Function.update s.vs x { s.vs x with cost } }

def setExpanded (s : Search G) (x : G.VI) : Search G :=
  { s with vs := Function.update s.vs x { s.vs x with expanded := true } }

/-- `x_sp->state = SP_CHAIN_V(ei, inst)`. -/
def setChain (s : Search G) (x : G.VI) (ei : Nat) (inst : Inst) : Search G :=
  { s with vs := Function.update s.vs x ⟨(s.vs x).cost, some (ei, inst), false, true⟩ }

def setModelCost (s : Search G) (m : G.MI) (cost : Cost) : Search G :=
  { s with ms := Function.update s.ms m { s.ms m with cost } }

def setModelExpanded (s : Search G) (m : G.MI) : Search G :=
  { s with ms := Function.update s.ms m { s.ms m with expanded := true } }

/-- `m_sp->cost = cost; m_sp->state = SP_CHAIN`. -/
def setModelChain (s : Search G) (m : G.MI) (cost : Cost) : Search G :=
  { s with ms := Function.update s.ms m ⟨cost, true, false, false⟩ }

/-- `ss[..] |= SW_EVAL << ..`. -/
def setEval (s : Search G) (w : G.WI) : Search G :=
  { s with ss := Function.update s.ss w { s.ss w with eval := true } }

/-- `S_checkscan` over the instances `insts` of the shadow `w`. -/
def checkscan (s : Search G) (guard : Fin G.nw → Inst → Bool) (w : Fin G.nw)
    (insts : List Inst) : Search G :=
  { s with ss := fun u =>
      if u.1 = w ∧ u.2 ∈ insts then ⟨(s.ss u).pass || guard w u.2, true⟩ else s.ss u }

/-- The instances `[inst, scanv_computed(..))`: `inst` and the run of instances with a
value that follows it in the group. -/
def scanComputed (s : Search G) (x : Fin G.nv) (shape : Nat) (inst : Inst) : List Inst :=
  inst :: ((List.range' (inst.val + 1) (shape - (inst.val + 1))).map (Fin.ofNat 65536)).takeWhile
    fun i => (s.vs (x, i)).value

end Search

/-- What the machine takes from its surroundings. `V` is everything the search does not
read: values, presence bitmaps, expanded maps. -/
structure Ops (G : Graph) (V : Type) where
  vexpandsp : V → Fin G.nv → Except Exit V
  vexpandbe : V → Fin G.nv → Inst → Except Exit V
  mexpandbe : V → Fin G.nm → Inst → Except Exit V
  compute : Search G → V → G.VI → Except Exit (Search G × V)
  given1 : V → G.VI → Except Exit V
  scanGiven : V → Fin G.nw → Inst → List Inst
  guard : V → Fin G.nw → Inst → Bool

/-- The exits that the surroundings take. -/
inductive Ops.Exits {G : Graph} {V : Type} (ops : Ops G V) : Exit → Prop
  | vexpandsp (v x e) (exited : ops.vexpandsp v x = .error e) : ops.Exits e
  | vexpandbe (v x i e) (exited : ops.vexpandbe v x i = .error e) : ops.Exits e
  | mexpandbe (v m i e) (exited : ops.mexpandbe v m i = .error e) : ops.Exits e
  | compute (s v x e) (exited : ops.compute s v x = .error e) : ops.Exits e
  | given1 (v x e) (exited : ops.given1 v x = .error e) : ops.Exits e

/-- `struct xcand`: a return edge of the variable and the model instances behind it. -/
structure XCand (G : Graph) where
  m_ei : Nat
  m_i : Fin G.nm
  m_si : List Inst

/-- The candidates of a variable instance: one per return edge with a nonempty mapped
subset. -/
def xcands {G : Graph} (maps : Maps) (x : G.VI) : List (XCand G) :=
  ((G.vars x.1).models.zipIdx.map fun e => ⟨e.2, e.1.idx, maps.mapE e.1.map x.2⟩).filter
    fun cand => !cand.m_si.isEmpty

/-- The candidate model instances one by one, each with its return edge. -/
def candInsts {G : Graph} (cands : List (XCand G)) : List (Nat × G.MI) :=
  cands.flatMap fun cand => cand.m_si.map fun i => (cand.m_ei, (cand.m_i, i))

/-- The part of `struct xstate` that `x_solve` sets. -/
structure XTarget (G : Graph) where
  x : G.VI
  x_beta : ℚ
  x_cands : Nat
  cands : List (XCand G)

/-- `struct xstate` once `candidate` has selected a model instance. -/
structure XState (G : Graph) extends XTarget G where
  m_i : Fin G.nm
  m_ei : Nat
  m_inst : Inst
  m_beta : ℚ

/-- Where a suspended frame resumes: its `where`, its edge and its iterator. -/
inductive Where (G : Graph) where
  | shadow (w_edge : ShEdge G.nw) (edges : List (ShEdge G.nw)) (inst : Inst) (insts : List Inst)
  | param (p_edge : Edge G.nv) (edges : List (Edge G.nv)) (inst : Inst) (insts : List Inst)
      (p_ssmax : Cost)

/-- A frame that waits for the frame above it, with the registers `x_solve` saved. -/
structure Suspended (G : Graph) extends XState G where
  m_costS : Cost
  m_betaS : ℚ
  resume : Where G

namespace XState
variable {G : Graph} (X : XState G)

/-- `X->m`. -/
def m : Model G.nv G.nw := G.models X.m_i

/-- The model instance of `X->m_sp`. -/
def mi : G.MI := (X.m_i, X.m_inst)

end XState

/-- Program points. -/
inductive Pc (G : Graph) where
  | x_solve (x : G.VI) (X_beta : ℚ)
  | x_chosen (t : XTarget G) (X_cost : Cost)
  | x_failed (t : XTarget G) (X_cost : Cost)
  | x_bound (X : XState G) (M_costS : Cost)
  | candidate (t : XTarget G)
  | shadow (X : XState G) (edges : List (ShEdge G.nw)) (M_costS : Cost) (M_betaS : ℚ)
  | shadow_inst (X : XState G) (w_edge : ShEdge G.nw) (edges : List (ShEdge G.nw))
      (inst : Inst) (insts : List Inst) (M_costS : Cost) (M_betaS : ℚ)
  | shadow_compute (X : XState G) (w_edge : ShEdge G.nw) (edges : List (ShEdge G.nw))
      (inst : Inst) (insts : List Inst) (M_costS : Cost) (M_betaS : ℚ)
  | shadow_penalty (X : XState G) (w_edge : ShEdge G.nw) (edges : List (ShEdge G.nw))
      (M_costS : Cost) (M_betaS : ℚ)
  | param (X : XState G) (edges : List (Edge G.nv)) (M_costS : Cost) (M_betaS : ℚ)
  | param_inst (X : XState G) (p_edge : Edge G.nv) (edges : List (Edge G.nv))
      (inst : Inst) (insts : List Inst) (p_ssmax : Cost) (M_costS : Cost) (M_betaS : ℚ)
  | solved (X : XState G) (M_costS : Cost) (M_betaS : ℚ)
  | done (exit : Option Exit)

/-- A state of the machine. -/
structure Config (G : Graph) (V : Type) where
  s : Search G
  v : V
  stack : List (Suspended G)
  pc : Pc G

/-- `min` of a bound and a cost: an infinite cost does not lower it. -/
def minBeta (beta : ℚ) : Cost → ℚ
  | ⊤ => beta
  | (q : ℚ) => min beta q

/-- The running values of the candidate loop. -/
structure Scan (G : Graph) where
  m_cost : Cost
  m_beta : ℚ
  best : Option (Nat × G.MI)

/-- One iteration of the candidate loop. -/
def Scan.next {G : Graph} (s : Search G) (acc : Scan G) (cand : Nat × G.MI) : Scan G :=
  let cost := (s.ms cand.2).cost
  { best := if cost < acc.m_cost then some cand else acc.best
    m_beta := minBeta acc.m_beta (max acc.m_cost cost)
    m_cost := min acc.m_cost cost }

def XTarget.scan {G : Graph} (s : Search G) (t : XTarget G) : Scan G :=
  (candInsts t.cands).foldl (Scan.next s) ⟨⊤, t.x_beta, none⟩

namespace Config
variable {G : Graph} {V : Type}

def goto (c : Config G V) (pc : Pc G) : Config G V := { c with pc }

def exit (c : Config G V) (e : Exit) : Config G V := c.goto (.done (some e))

/-- `(X-1)->x_cands + (X-1)->x_ncand`, above the candidates of the frames below. -/
def cstart : List (Suspended G) → Nat
  | [] => 0
  | f :: _ => f.x_cands + f.cands.length

/-- `x_solve`. The frame that entered it is already suspended. -/
def x_solve (maps : Maps) (ops : Ops G V) (c : Config G V) (x : G.VI) (X_beta : ℚ) :
    Config G V :=
  if MAX_STK ≤ c.stack.length + 1 then c.exit (.maxdepth x.1 x.2)
  else if c.s.marked x then c.exit .nyi
  else
    let expansion := if (c.s.vs x).expanded then .ok c.v else ops.vexpandbe c.v x.1 x.2
    match expansion with
    | .error e => { c with s := c.s.setExpanded x }.exit e
    | .ok v =>
      let c := { c with s := (c.s.setExpanded x).setCost x SP_MARK, v }
      if MAX_CANDSTK ≤ cstart c.stack + (G.vars x.1).models.length then c.exit (.maxdepth x.1 x.2)
      else
        let t : XTarget G := ⟨x, X_beta, cstart c.stack, xcands maps x⟩
        if t.cands.isEmpty then c.goto (.x_failed t ⊤) else c.goto (.candidate t)

/-- `SI_NEXT` at the end of the shadow loop. -/
def nextShadow (X : XState G) (w_edge : ShEdge G.nw) (edges : List (ShEdge G.nw))
    (insts : List Inst) (M_costS : Cost) (M_betaS : ℚ) : Pc G :=
  match insts with
  | [] => .shadow X edges M_costS M_betaS
  | i :: rest => .shadow_inst X w_edge edges i rest M_costS M_betaS

/-- `SI_NEXT` at the end of the parameter loop. -/
def nextParam (X : XState G) (p_edge : Edge G.nv) (edges : List (Edge G.nv))
    (insts : List Inst) (p_ssmax M_costS : Cost) (M_betaS : ℚ) : Pc G :=
  match insts with
  | [] => .param X edges (M_costS + p_ssmax) M_betaS
  | i :: rest => .param_inst X p_edge edges i rest p_ssmax M_costS M_betaS

/-- `x_chosen`. -/
def x_chosen (c : Config G V) (t : XTarget G) (X_cost : Cost) : Config G V :=
  let s := c.s.setCost t.x X_cost
  match c.stack with
  | [] => { c with s, pc := .done none }
  | f :: stack =>
    match f.resume with
    | .param e edges _ insts p_ssmax =>
      { c with s, stack, pc := nextParam f.toXState e edges insts (max p_ssmax X_cost) f.m_costS f.m_betaS }
    | .shadow e edges i insts =>
      { c with s, stack, pc := .shadow_compute f.toXState e edges i insts f.m_costS f.m_betaS }

/-- `x_failed`. -/
def x_failed (c : Config G V) (t : XTarget G) (X_cost : Cost) : Config G V :=
  let s := c.s.setCost t.x X_cost
  match c.stack with
  | [] => { c with s }.exit (.nchain t.x.1 t.x.2)
  | f :: stack =>
    match f.resume with
    | .param _ _ _ _ _ =>
      { c with
        s := s.setModelCost f.mi (f.m.costf (f.m_costS + X_cost))
        stack, pc := .candidate f.toXTarget }
    | .shadow e edges i _ =>
      { c with
        s := s.setEval (e.idx, i)
        stack, pc := .shadow_penalty f.toXState e edges f.m_costS f.m_betaS }

/-- `x_bound`. -/
def x_bound (c : Config G V) (X : XState G) (M_costS : Cost) : Config G V :=
  let cost := X.m.costf M_costS
  let c := { c with s := c.s.setModelCost X.mi cost }
  if cost ≤ (X.m_beta : Cost) then c.exit .nyi else c.goto (.candidate X.toXTarget)

/-- `candidate`. -/
def candidate (ops : Ops G V) (c : Config G V) (t : XTarget G) : Config G V :=
  let scan := t.scan c.s
  if (t.x_beta : Cost) < scan.m_cost then c.goto (.x_failed t scan.m_cost)
  else
    match scan.best with
    | none => c.goto (.x_failed t scan.m_cost)
    | some (m_ei, m) =>
      let X : XState G := { t with m_i := m.1, m_ei, m_inst := m.2, m_beta := scan.m_beta }
      if (c.s.ms m).chain then
        { c with s := c.s.setChain t.x m_ei m.2 }.goto (.x_chosen t scan.m_cost)
      else
        let expansion := if (c.s.ms m).expanded then .ok c.v else ops.mexpandbe c.v m.1 m.2
        match expansion with
        | .error e => { c with s := c.s.setModelExpanded m }.exit e
        | .ok v =>
          { c with
            s := c.s.setModelExpanded m
            v, pc := .shadow X X.m.shadows 0 (X.m.costf_invS X.m_beta) }

/-- One shadow edge: an empty set has no penalty. -/
def shadow (maps : Maps) (c : Config G V) (X : XState G) (edges : List (ShEdge G.nw))
    (M_costS : Cost) (M_betaS : ℚ) : Config G V :=
  match edges with
  | [] => c.goto (.param X X.m.cparams.reverse M_costS M_betaS)
  | e :: rest => c.goto (nextShadow X e rest (maps.mapE e.map X.m_inst) M_costS M_betaS)

/-- `S_checkscan` over the scanned instances, then the test of the pass bit. -/
def scanCheck (ops : Ops G V) (c : Config G V) (X : XState G) (e : ShEdge G.nw)
    (edges : List (ShEdge G.nw)) (i : Inst) (insts scanned : List Inst) (M_costS : Cost)
    (M_betaS : ℚ) : Config G V :=
  let s := c.s.checkscan (ops.guard c.v) e.idx scanned
  let c := { c with s }
  if (s.ss (e.idx, i)).pass then c.goto (nextShadow X e edges insts M_costS M_betaS)
  else c.goto (.shadow_penalty X e edges M_costS M_betaS)

/-- One instance of a shadow edge. -/
def shadow_inst (maps : Maps) (ops : Ops G V) (c : Config G V) (X : XState G) (e : ShEdge G.nw)
    (edges : List (ShEdge G.nw)) (i : Inst) (insts : List Inst) (M_costS : Cost) (M_betaS : ℚ) :
    Config G V :=
  let w := G.shadows e.idx
  let bits := c.s.ss (e.idx, i)
  if bits.pass then c.goto (nextShadow X e edges insts M_costS M_betaS)
  else if bits.eval then c.goto (.shadow_penalty X e edges M_costS M_betaS)
  else if e.computed then
    match ops.vexpandsp c.v w.xi with
    | .error err => c.exit err
    | .ok v =>
      let c := { c with v }
      if (c.s.vs (w.xi, i)).chain.isNone then
        { c with
          stack := { X with m_costS := M_costS, m_betaS := M_betaS,
                            resume := .shadow e edges i insts } :: c.stack
          pc := .x_solve (w.xi, i) MAX_COST }
      else if (c.s.vs (w.xi, i)).value then
        c.scanCheck ops X e edges i insts (c.s.scanComputed w.xi (maps.shape w.group) i) M_costS M_betaS
      else c.goto (.shadow_compute X e edges i insts M_costS M_betaS)
  else
    match ops.given1 c.v (w.xi, i) with
    | .error err => c.exit err
    | .ok v =>
      { c with v }.scanCheck ops X e edges i insts (i :: ops.scanGiven v e.idx i) M_costS M_betaS

/-- `shadow_compute`. -/
def shadow_compute (maps : Maps) (ops : Ops G V) (c : Config G V) (X : XState G) (e : ShEdge G.nw)
    (edges : List (ShEdge G.nw)) (i : Inst) (insts : List Inst) (M_costS : Cost) (M_betaS : ℚ) :
    Config G V :=
  let w := G.shadows e.idx
  match ops.compute c.s c.v (w.xi, i) with
  | .error err => c.exit err
  | .ok (s, v) =>
    { c with s, v }.scanCheck ops X e edges i insts (s.scanComputed w.xi (maps.shape w.group) i)
      M_costS M_betaS

/-- `shadow_penalty`. -/
def shadow_penalty (c : Config G V) (X : XState G) (e : ShEdge G.nw)
    (edges : List (ShEdge G.nw)) (M_costS : Cost) (M_betaS : ℚ) : Config G V :=
  let M_costS := M_costS + e.penalty
  if (M_betaS : Cost) < M_costS then c.goto (.x_bound X M_costS)
  else c.goto (.shadow X edges M_costS M_betaS)

/-- One parameter edge: an empty set costs nothing. -/
def param (maps : Maps) (c : Config G V) (X : XState G) (edges : List (Edge G.nv))
    (M_costS : Cost) (M_betaS : ℚ) : Config G V :=
  match edges with
  | [] => c.goto (.solved X M_costS M_betaS)
  | e :: rest => c.goto (nextParam X e rest (maps.mapE e.map X.m_inst) 0 M_costS M_betaS)

/-- One instance of a parameter edge. The bound passed down is only read when the sum so
far is below `M_betaS`, so it is a rational there. -/
def param_inst (c : Config G V) (X : XState G) (e : Edge G.nv) (edges : List (Edge G.nv))
    (i : Inst) (insts : List Inst) (p_ssmax M_costS : Cost) (M_betaS : ℚ) : Config G V :=
  let sp := c.s.vs (e.idx, i)
  if (M_betaS : Cost) < M_costS + sp.cost then c.goto (.x_bound X (M_costS + sp.cost))
  else if sp.chain.isSome then
    c.goto (nextParam X e edges insts (max p_ssmax sp.cost) M_costS M_betaS)
  else
    { c with
      stack := { X with m_costS := M_costS, m_betaS := M_betaS,
                        resume := .param e edges i insts p_ssmax } :: c.stack
      pc := .x_solve (e.idx, i) (M_betaS - M_costS.untopD 0) }

/-- All shadows and parameters are below the bound: the chain of the model is solved. -/
def solved (c : Config G V) (X : XState G) (M_costS : Cost) : Config G V :=
  let X_cost := X.m.costf M_costS
  { c with s := (c.s.setModelChain X.mi X_cost).setChain X.x X.m_ei X.m_inst }.goto
    (.x_chosen X.toXTarget X_cost)

end Config

/-- One step of `S_select_chain`. -/
def step {G : Graph} {V : Type} (maps : Maps) (ops : Ops G V) (c : Config G V) :
    Option (Config G V) :=
  match c.pc with
  | .x_solve x X_beta => some (c.x_solve maps ops x X_beta)
  | .x_chosen t X_cost => some (c.x_chosen t X_cost)
  | .x_failed t X_cost => some (c.x_failed t X_cost)
  | .x_bound X M_costS => some (c.x_bound X M_costS)
  | .candidate t => some (c.candidate ops t)
  | .shadow X edges M_costS M_betaS => some (c.shadow maps X edges M_costS M_betaS)
  | .shadow_inst X e edges i insts M_costS M_betaS =>
      some (c.shadow_inst maps ops X e edges i insts M_costS M_betaS)
  | .shadow_compute X e edges i insts M_costS M_betaS =>
      some (c.shadow_compute maps ops X e edges i insts M_costS M_betaS)
  | .shadow_penalty X e edges M_costS M_betaS =>
      some (c.shadow_penalty X e edges M_costS M_betaS)
  | .param X edges M_costS M_betaS => some (c.param maps X edges M_costS M_betaS)
  | .param_inst X e edges i insts p_ssmax M_costS M_betaS =>
      some (c.param_inst X e edges i insts p_ssmax M_costS M_betaS)
  | .solved X M_costS _ => some (c.solved X M_costS)
  | .done _ => none

/-- `S_select_chain` entered for a variable instance. -/
def selectChain {G : Graph} {V : Type} (s : Search G) (v : V) (x : G.VI) : Config G V :=
  ⟨s, v, [], .x_solve x MAX_COST⟩

end M2.Fhk
