import Mathlib
import M2.Fhk.LowerBound

/-!
# The entry of the solver

What holds where `S_select_chain` reaches `x_solve`. A root is tested for `SP_DONE`, a parameter for its chain and
against the bound, a shadow for its chain only. Bounds never exceed `MAX_COST` and sums are never negative, so that
a parameter below its bound is not done unless its cost is exactly `MAX_COST`.
-/
namespace M2.Fhk
open M2.Lib

namespace Problem
variable {P : Problem} {V : Type} {ops : Ops P.G V} {root : P.G.VI} {c c' : Config P.G V}

/-- The step does not look at an instance whose search has failed before: a computed shadow that is not evaluated
yet, of a variable instance without a chain and with a cost of `MAX_COST` or more; or a parameter within
the bound without a chain and with a cost of exactly `MAX_COST`. -/
def Careful (P : Problem) {V : Type} (c : Config P.G V) : Prop :=
  match c.pc with
  | .shadow_inst _ e _ i _ _ _ =>
      e.computed = true → (c.s.ss (e.idx, i)).pass = false → (c.s.ss (e.idx, i)).eval = false →
        (c.s.vs ((P.G.shadows e.idx).xi, i)).chain = none →
          (c.s.vs ((P.G.shadows e.idx).xi, i)).cost < (MAX_COST : Cost)
  | .param_inst _ e _ i _ _ M_costS M_betaS =>
      M_costS + (c.s.vs (e.idx, i)).cost ≤ (M_betaS : Cost) → (c.s.vs (e.idx, i)).chain = none →
        (c.s.vs (e.idx, i)).cost ≠ (MAX_COST : Cost)
  | _ => True

/-- The registers of a frame in its loops, with the shadow edges that are left. -/
structure Within (X : XState P.G) (edges : List (ShEdge P.G.nw)) (M_costS : Cost) (M_betaS : ℚ) : Prop where
  beta : X.x_beta ≤ MAX_COST
  nonneg : 0 ≤ M_costS
  betaS : M_betaS ≤ MAX_COST
  penalties : ∀ e ∈ edges, 0 ≤ e.penalty

/-- A suspended frame. -/
def Waiting (f : Suspended P.G) : Prop :=
  match f.resume with
  | .shadow e edges _ _ => Within f.toXState (e :: edges) f.m_costS f.m_betaS
  | .param _ _ _ _ p_ssmax => Within f.toXState [] f.m_costS f.m_betaS ∧ 0 ≤ p_ssmax

/-- A program point. At `x_solve` these are the conditions that the code asserts. -/
def PcWithin (s : Search P.G) : Pc P.G → Prop
  | .x_solve x beta => s.done x = false ∧ (s.vs x).cost ≤ (beta : Cost) ∧ beta ≤ MAX_COST
  | .x_chosen t _ | .x_failed t _ | .candidate t => t.x_beta ≤ MAX_COST
  | .x_bound X _ | .solved X _ _ => X.x_beta ≤ MAX_COST
  | .shadow X edges M_costS M_betaS => Within X edges M_costS M_betaS
  | .shadow_inst X e edges _ _ M_costS M_betaS | .shadow_compute X e edges _ _ M_costS M_betaS
  | .shadow_penalty X e edges M_costS M_betaS => Within X (e :: edges) M_costS M_betaS
  | .param X _ M_costS M_betaS => Within X [] M_costS M_betaS
  | .param_inst X _ _ _ _ p_ssmax M_costS M_betaS => Within X [] M_costS M_betaS ∧ 0 ≤ p_ssmax
  | .done _ => True

/-- The invariant of the entries. -/
structure Entered (c : Config P.G V) : Prop where
  frames : ∀ f ∈ c.stack, Waiting f
  at' : PcWithin c.s c.pc

theorem Within.tail {X : XState P.G} {e : ShEdge P.G.nw} {edges : List (ShEdge P.G.nw)} {M_costS : Cost} {M_betaS : ℚ}
    (h : Within X (e :: edges) M_costS M_betaS) : Within X edges M_costS M_betaS :=
  ⟨h.beta, h.nonneg, h.betaS, fun e' mem => h.penalties e' (List.mem_cons_of_mem _ mem)⟩

theorem done_eq_false {s : Search P.G} {x : P.G.VI} (unchained : (s.vs x).chain = none)
    (below : (s.vs x).cost < (MAX_COST : Cost)) : s.done x = false := by
  rw [Search.done, unchained, decide_eq_false (not_le.mpr below)]
  rfl

theorem lt_of_not_done {s : Search P.G} {x : P.G.VI} (fresh : s.done x = false) :
    (s.vs x).cost < (MAX_COST : Cost) := by
  rw [Search.done, Bool.or_eq_false_iff] at fresh
  exact not_le.mp (of_decide_eq_false fresh.2)

theorem le_sub_of_add_le {q b : ℚ} {cost : Cost} (under : (q : Cost) + cost ≤ (b : Cost)) :
    cost ≤ ((b - q : ℚ) : Cost) := by
  induction cost using WithTop.recTopCoe with
  | top =>
    rw [add_top] at under
    exact absurd under (not_le.mpr (WithTop.coe_lt_top b))
  | coe a =>
    rw [← WithTop.coe_add, WithTop.coe_le_coe] at under
    rw [WithTop.coe_le_coe]
    linarith

/-- The bound on the sum of a model is no larger than that on its cost. -/
theorem costf_invS_le {m : Model P.G.nv P.G.nw} (valid : m.Valid) {b : ℚ} (bound : b ≤ MAX_COST) :
    m.costf_invS b ≤ MAX_COST := by
  have pos : (0 : ℚ) ≤ MAX_COST := by
    rw [MAX_COST]
    norm_num
  rw [Model.costf_invS_eq, div_le_iff₀ valid.c_pos]
  have k := valid.k_nonneg
  calc b - m.k ≤ MAX_COST := by linarith
    _ ≤ MAX_COST * m.c := le_mul_of_one_le_right pos valid.one_le_c

/-! ## Steps -/

theorem within_nextShadow {s : Search P.G} {X : XState P.G} {e : ShEdge P.G.nw} {edges : List (ShEdge P.G.nw)}
    {insts : List Inst} {M_costS : Cost} {M_betaS : ℚ} (h : Within X (e :: edges) M_costS M_betaS) :
    PcWithin s (Config.nextShadow X e edges insts M_costS M_betaS) := by
  cases insts with
  | nil => exact h.tail
  | cons i rest => exact h

theorem within_nextParam {s : Search P.G} {X : XState P.G} {e : Edge P.G.nv} {edges : List (Edge P.G.nv)}
    {insts : List Inst} {p_ssmax M_costS : Cost} {M_betaS : ℚ} (h : Within X [] M_costS M_betaS) (pos : 0 ≤ p_ssmax) :
    PcWithin s (Config.nextParam X e edges insts p_ssmax M_costS M_betaS) := by
  cases insts with
  | nil => exact ⟨h.beta, add_nonneg h.nonneg pos, h.betaS, h.penalties⟩
  | cons i rest => exact ⟨h, pos⟩

theorem Entered.x_solve (inv : Entered c) {x : P.G.VI} {beta : ℚ} (pc : c.pc = .x_solve x beta) :
    Entered (c.x_solve P.maps ops x beta) := by
  have at' := inv.at'
  rw [pc] at at'
  unfold Config.x_solve
  split
  · exact ⟨inv.frames, trivial⟩
  split
  · exact ⟨inv.frames, trivial⟩
  simp only
  split
  · exact ⟨inv.frames, trivial⟩
  split
  · exact ⟨inv.frames, trivial⟩
  split
  · exact ⟨inv.frames, at'.2.2⟩
  · exact ⟨inv.frames, at'.2.2⟩

theorem Entered.x_chosen (inv : Entered c) (t : XTarget P.G) (cost : Cost) : Entered (c.x_chosen t cost) := by
  unfold Config.x_chosen
  split
  · rename_i empty
    exact ⟨inv.frames, trivial⟩
  · rename_i f stack cons
    have top : Waiting f := inv.frames f (cons ▸ List.mem_cons_self)
    have rest : ∀ g ∈ stack, Waiting g := fun g mem => inv.frames g (cons ▸ List.mem_cons_of_mem _ mem)
    unfold Waiting at top
    split
    · rename_i e edges i insts p_ssmax resume
      rw [resume] at top
      exact ⟨rest, within_nextParam top.1 (top.2.trans (le_max_left _ _))⟩
    · rename_i e edges i insts resume
      rw [resume] at top
      exact ⟨rest, top⟩

theorem Entered.x_failed (inv : Entered c) (t : XTarget P.G) (cost : Cost) : Entered (c.x_failed t cost) := by
  unfold Config.x_failed
  split
  · exact ⟨inv.frames, trivial⟩
  · rename_i f stack cons
    have top : Waiting f := inv.frames f (cons ▸ List.mem_cons_self)
    have rest : ∀ g ∈ stack, Waiting g := fun g mem => inv.frames g (cons ▸ List.mem_cons_of_mem _ mem)
    unfold Waiting at top
    split
    · rename_i e edges i insts p_ssmax resume
      rw [resume] at top
      exact ⟨rest, top.1.beta⟩
    · rename_i e edges i insts resume
      rw [resume] at top
      exact ⟨rest, top⟩

theorem Entered.x_bound (inv : Entered c) {X : XState P.G} {M_costS : Cost} (pc : c.pc = .x_bound X M_costS) :
    Entered (c.x_bound X M_costS) := by
  have at' := inv.at'
  rw [pc] at at'
  unfold Config.x_bound
  simp only
  split
  · exact ⟨inv.frames, trivial⟩
  · exact ⟨inv.frames, at'⟩

theorem Entered.candidate (inv : Entered c) {t : XTarget P.G} (pc : c.pc = .candidate t) :
    Entered (c.candidate ops t) := by
  have beta := inv.at'
  rw [pc] at beta
  unfold Config.candidate
  simp only
  split
  · exact ⟨inv.frames, beta⟩
  split
  · exact ⟨inv.frames, beta⟩
  · rename_i m_ei m best
    split
    · exact ⟨inv.frames, beta⟩
    split
    · exact ⟨inv.frames, trivial⟩
    · have valid := P.valid.model m.1
      refine ⟨inv.frames, ?_⟩
      exact ⟨beta, le_rfl, costf_invS_le valid ((scan_ok c.s t).beta_le.trans beta), valid.penalty_nonneg⟩

theorem Entered.shadow (inv : Entered c) {X : XState P.G} {edges : List (ShEdge P.G.nw)} {M_costS : Cost} {M_betaS : ℚ}
    (pc : c.pc = .shadow X edges M_costS M_betaS) : Entered (c.shadow P.maps X edges M_costS M_betaS) := by
  have at' := inv.at'
  rw [pc] at at'
  cases edges with
  | nil => exact ⟨inv.frames, at'⟩
  | cons e rest => exact ⟨inv.frames, within_nextShadow at'⟩

section ShadowSteps

variable {X : XState P.G} {e : ShEdge P.G.nw} {edges : List (ShEdge P.G.nw)} {i : Inst} {insts : List Inst}
  {M_costS : Cost} {M_betaS : ℚ}

theorem Entered.scanCheck (frames : ∀ f ∈ c.stack, Waiting f)
    (h : Within X (e :: edges) M_costS M_betaS) (scanned : List Inst) :
    Entered (c.scanCheck ops X e edges i insts scanned M_costS M_betaS) := by
  unfold Config.scanCheck
  simp only
  split
  · exact ⟨frames, within_nextShadow h⟩
  · exact ⟨frames, h⟩

/-- The shadow enters the solver where its variable has no chain. -/
theorem Entered.shadow_inst (inv : Entered c) (pc : c.pc = .shadow_inst X e edges i insts M_costS M_betaS)
    (careful : P.Careful c) : Entered (c.shadow_inst P.maps ops X e edges i insts M_costS M_betaS) := by
  have at' := inv.at'
  rw [pc] at at'
  unfold Careful at careful
  rw [pc] at careful
  unfold Config.shadow_inst
  simp only
  split
  · exact ⟨inv.frames, within_nextShadow at'⟩
  split
  · exact ⟨inv.frames, at'⟩
  rename_i not_pass not_eval
  split
  · rename_i computed
    split
    · exact ⟨inv.frames, trivial⟩
    split
    · rename_i unchained
      have none := Option.isNone_iff_eq_none.mp unchained
      have below := careful computed (Bool.eq_false_of_not_eq_true not_pass) (Bool.eq_false_of_not_eq_true not_eval) none
      constructor
      · intro f mem
        rcases List.mem_cons.mp mem with rfl | mem
        · exact at'
        · exact inv.frames f mem
      · exact ⟨done_eq_false none below, below.le, le_rfl⟩
    split
    · apply Entered.scanCheck _ at'
      exact inv.frames
    · exact ⟨inv.frames, at'⟩
  · split
    · exact ⟨inv.frames, trivial⟩
    · apply Entered.scanCheck _ at'
      exact inv.frames

theorem Entered.shadow_compute (inv : Entered c) (pc : c.pc = .shadow_compute X e edges i insts M_costS M_betaS) :
    Entered (c.shadow_compute P.maps ops X e edges i insts M_costS M_betaS) := by
  have at' := inv.at'
  rw [pc] at at'
  unfold Config.shadow_compute
  simp only
  split
  · exact ⟨inv.frames, trivial⟩
  · apply Entered.scanCheck _ at'
    exact inv.frames

theorem Entered.shadow_penalty (inv : Entered c) (pc : c.pc = .shadow_penalty X e edges M_costS M_betaS) :
    Entered (c.shadow_penalty X e edges M_costS M_betaS) := by
  have at' := inv.at'
  rw [pc] at at'
  have more : 0 ≤ M_costS + e.penalty := add_nonneg at'.nonneg (at'.penalties e List.mem_cons_self)
  unfold Config.shadow_penalty
  simp only
  split
  · exact ⟨inv.frames, at'.beta⟩
  · exact ⟨inv.frames, ⟨at'.beta, more, at'.betaS, at'.tail.penalties⟩⟩

end ShadowSteps

section ParamSteps

variable {X : XState P.G} {e : Edge P.G.nv} {edges : List (Edge P.G.nv)} {i : Inst} {insts : List Inst}
  {p_ssmax M_costS : Cost} {M_betaS : ℚ}

theorem Entered.param (inv : Entered c) (pc : c.pc = .param X edges M_costS M_betaS) :
    Entered (c.param P.maps X edges M_costS M_betaS) := by
  have at' := inv.at'
  rw [pc] at at'
  cases edges with
  | nil => exact ⟨inv.frames, at'.beta⟩
  | cons e rest => exact ⟨inv.frames, within_nextParam at' le_rfl⟩

/-- The parameter enters the solver where its cost leaves the sum below the bound. -/
theorem Entered.param_inst (inv : Entered c) (pc : c.pc = .param_inst X e edges i insts p_ssmax M_costS M_betaS)
    (careful : P.Careful c) : Entered (c.param_inst X e edges i insts p_ssmax M_costS M_betaS) := by
  obtain ⟨within, pos⟩ : PcWithin c.s (.param_inst X e edges i insts p_ssmax M_costS M_betaS) := pc ▸ inv.at'
  unfold Careful at careful
  rw [pc] at careful
  unfold Config.param_inst
  simp only
  split
  · exact ⟨inv.frames, within.beta⟩
  rename_i under
  rw [not_lt] at under
  split
  · exact ⟨inv.frames, within_nextParam within (pos.trans (le_max_left _ _))⟩
  · rename_i chained
    have none : (c.s.vs (e.idx, i)).chain = none := Option.not_isSome_iff_eq_none.mp chained
    have finite : M_costS ≠ ⊤ := by
      rintro rfl
      rw [top_add] at under
      exact absurd under (not_le.mpr (WithTop.coe_lt_top _))
    obtain ⟨q, rfl⟩ := WithTop.ne_top_iff_exists.mp finite
    have q_nonneg : 0 ≤ q := WithTop.coe_le_coe.mp within.nonneg
    have bound : M_betaS - q ≤ MAX_COST := by linarith [within.betaS]
    have cost : (c.s.vs (e.idx, i)).cost ≤ ((M_betaS - q : ℚ) : Cost) := le_sub_of_add_le under
    constructor
    · intro f mem
      rcases List.mem_cons.mp mem with rfl | mem
      · exact ⟨within, pos⟩
      · exact inv.frames f mem
    · refine ⟨done_eq_false none ?_, cost, bound⟩
      exact lt_of_le_of_ne (cost.trans (WithTop.coe_le_coe.mpr bound)) (careful under none)

end ParamSteps

/-- Every careful step keeps the invariant. -/
theorem Entered.step (inv : Entered c) (careful : P.Careful c) (taken : Fhk.step P.maps ops c = some c') : Entered c' := by
  unfold Fhk.step at taken
  split at taken
  · rename_i pc; cases taken; exact inv.x_solve pc
  · cases taken; exact inv.x_chosen _ _
  · cases taken; exact inv.x_failed _ _
  · rename_i pc; cases taken; exact inv.x_bound pc
  · rename_i pc; cases taken; exact inv.candidate pc
  · rename_i pc; cases taken; exact inv.shadow pc
  · rename_i pc; cases taken; exact inv.shadow_inst pc careful
  · rename_i pc; cases taken; exact inv.shadow_compute pc
  · rename_i pc; cases taken; exact inv.shadow_penalty pc
  · rename_i pc; cases taken; exact inv.param pc
  · rename_i pc; cases taken; exact inv.param_inst pc careful
  · rename_i pc; cases taken
    have at' := inv.at'
    rw [pc] at at'
    exact ⟨inv.frames, at'⟩
  · cases taken

/-- A call enters with an instance that is not done. -/
theorem Entered.call {s : Search P.G} {v : V} {x : P.G.VI} (fresh : s.done x = false) : Entered (selectChain s v x) :=
  ⟨fun _ mem => absurd mem List.not_mem_nil, fresh, (lt_of_not_done fresh).le, le_rfl⟩

end Problem

/-- A step that looks at such an instance enters `x_solve` with an instance that is done, unless the expansion of
the shadow's variable exits. -/
theorem careless_step (P : Problem) {V : Type} (ops : Ops P.G V) (c : Config P.G V)
    (expands : ∀ v xi, ∃ v', ops.vexpandsp v xi = .ok v') (careless : ¬ P.Careful c) :
    ∃ c' x beta, step P.maps ops c = some c' ∧ c'.pc = .x_solve x beta ∧ c'.s.done x = true := by
  have done_of_le : ∀ (s : Search P.G) (x : P.G.VI), (MAX_COST : Cost) ≤ (s.vs x).cost → s.done x = true := by
    intro s x le
    rw [Search.done, decide_eq_true le]
    exact Bool.or_true _
  unfold Problem.Careful at careless
  split at careless
  · rename_i X e edges i insts M_costS M_betaS pc
    push Not at careless
    obtain ⟨computed, not_pass, not_eval, none, le⟩ := careless
    obtain ⟨v', expanded⟩ := expands c.v (P.G.shadows e.idx).xi
    have entered : step P.maps ops c = some
        { s := c.s, v := v'
          stack := { X with m_costS := M_costS, m_betaS := M_betaS, resume := .shadow e edges i insts } :: c.stack
          pc := .x_solve ((P.G.shadows e.idx).xi, i) MAX_COST } := by
      rw [step, pc]
      simp only [Config.shadow_inst, not_pass, not_eval, computed, expanded, none, Bool.false_eq_true, if_false, if_true,
        Option.isNone_none]
    exact ⟨_, _, _, entered, rfl, done_of_le c.s _ le⟩
  · rename_i X e edges i insts p_ssmax M_costS M_betaS pc
    push Not at careless
    obtain ⟨under, none, cost⟩ := careless
    have entered : step P.maps ops c = some
        { s := c.s, v := c.v
          stack := { X with m_costS := M_costS, m_betaS := M_betaS, resume := .param e edges i insts p_ssmax } :: c.stack
          pc := .x_solve (e.idx, i) (M_betaS - M_costS.untopD 0) } := by
      rw [step, pc]
      simp only [Config.param_inst, not_lt.mpr under, none, if_false, Option.isSome_none, Bool.false_eq_true]
    exact ⟨_, _, _, entered, rfl, done_of_le c.s _ cost.ge⟩
  · exact absurd trivial careless

/-! ## Two shadows of one variable -/

namespace TwoShadows

/-- The model `m` returns `x` and has two shadows of `w`, each with a penalty. The one model of `w` returns it
through a user map. -/
def graph : Graph where
  nv := 2
  nm := 2
  nw := 2
  ng := 1
  vars x := if x.val = 0 then ⟨[⟨⟨0, Nat.two_pos⟩, MAP_IDENT, 0⟩], [], 0, 8⟩ else ⟨[⟨⟨1, Nat.one_lt_two⟩, 5, 0⟩], [], 0, 8⟩
  models m :=
    if m.val = 0 then ⟨0, [⟨⟨0, Nat.two_pos⟩, MAP_IDENT, true, 1⟩, ⟨⟨1, Nat.one_lt_two⟩, MAP_IDENT, true, 1⟩], [], 0,
      [⟨⟨0, Nat.two_pos⟩, MAP_IDENT, 0⟩], true, 1, 1, 1⟩
    else ⟨0, [], [], 0, [⟨⟨1, Nat.one_lt_two⟩, MAP_IDENT, 0⟩], true, 1, 1, 1⟩
  shadows _ := ⟨⟨1, Nat.one_lt_two⟩, 0⟩

theorem graph_valid : graph.Valid where
  model m := by
    simp only [graph]
    split
    · refine ⟨zero_le_one, le_rfl, fun e mem => ?_⟩
      rcases List.mem_cons.mp mem with rfl | mem
      · exact zero_le_one
      · cases List.mem_singleton.mp mem
        exact zero_le_one
    · exact ⟨zero_le_one, le_rfl, fun e mem => absurd mem List.not_mem_nil⟩
  computed m e mem := by
    simp only [graph] at mem
    split at mem
    · rcases List.mem_cons.mp mem with rfl | mem
      · rfl
      · cases List.mem_singleton.mp mem
        rfl
    · exact absurd mem List.not_mem_nil

/-- The user map has no model instance for `w`. -/
def problem : Problem where
  G := graph
  valid := graph_valid
  maps := ⟨fun _ => 1, fun _ _ => []⟩
  pass _ _ := false

def ops : Ops problem.G Unit where
  vexpandsp _ _ := .ok ()
  vexpandbe _ _ _ := .ok ()
  mexpandbe _ _ _ := .ok ()
  compute s _ _ := .ok (s, ())
  given1 _ _ := .ok ()
  scanGiven _ _ _ := []
  guard _ _ _ := false

def root : problem.G.VI := (⟨0, Nat.two_pos⟩, 0)

def run : Option (Config problem.G Unit) :=
  Run.steps (step problem.maps ops) 9 (selectChain (Search.init problem.G) () root)

/-- The instance that the solver is entered for, and whether it is done. -/
def entry (c : Config problem.G Unit) : Option (Nat × Bool) :=
  match c.pc with
  | .x_solve x _ => some (x.1.val, c.s.done x)
  | _ => none

end TwoShadows

end M2.Fhk
