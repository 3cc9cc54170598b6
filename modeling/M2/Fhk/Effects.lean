import M2.Fhk.GroundedSteps

/-!
# What a step of the search does

A step of `S_select_chain` records costs and chains, asks for an expansion, or looks at the guard of a shadow. To look at
the guard of a computed variable it may evaluate an instance first. Nothing else happens to the search state and to what is
around it. Chains and values that are there stay.
-/
namespace M2.Fhk
open M2.Lib

/-- The surroundings are asked for an expansion. -/
inductive Ops.Gives {G : Graph} {V : Type} (ops : Ops G V) (v v' : V) : Prop
  | vexpandsp (x : Fin G.nv) (given : ops.vexpandsp v x = .ok v')
  | vexpandbe (x : Fin G.nv) (i : Inst) (given : ops.vexpandbe v x i = .ok v')
  | mexpandbe (m : Fin G.nm) (i : Inst) (given : ops.mexpandbe v m i = .ok v')

namespace Search
variable {G : Graph} (s : Search G)

@[simp] theorem setModelCost_value (m u : G.MI) (cost : Cost) : ((s.setModelCost m cost).ms u).value = (s.ms u).value := by
  by_cases same : u = m
  · subst same
    rw [setModelCost_self]
  · rw [s.setModelCost_of_ne cost same]

@[simp] theorem setModelExpanded_value (m u : G.MI) : ((s.setModelExpanded m).ms u).value = (s.ms u).value := by
  by_cases same : u = m
  · subst same
    simp [setModelExpanded]
  · simp [setModelExpanded, same]

end Search

namespace Problem
variable {P : Problem} {V : Type} {ops : Ops P.G V} {c : Config P.G V} {s s' : Search P.G}

/-- Recorded chains and values stay, and no values are added. -/
structure Retains (s s' : Search P.G) : Prop where
  chain : ∀ u, (s.vs u).chain.isSome = true → (s'.vs u).chain = (s.vs u).chain
  value : ∀ u, (s'.vs u).value = (s.vs u).value
  solved : ∀ m, (s.ms m).chain = true → (s'.ms m).value = (s.ms m).value
  mvalue : ∀ m, (s'.ms m).value = true → (s.ms m).value = true

theorem Retains.same (vs : ∀ u, (s'.vs u).chain = (s.vs u).chain ∧ (s'.vs u).value = (s.vs u).value)
    (ms : ∀ m, (s'.ms m).value = (s.ms m).value) : Retains s s' :=
  ⟨fun u _ => (vs u).1, fun u => (vs u).2, fun m _ => ms m, fun m set => ms m ▸ set⟩

theorem Retains.refl : Retains s s := .same (fun _ => ⟨rfl, rfl⟩) fun _ => rfl

theorem Retains.trans {s'' : Search P.G} (first : Retains s s') (second : Retains s' s'')
    (solved : ∀ m, (s.ms m).chain = true → (s'.ms m).chain = true) : Retains s s'' where
  chain u some' := by
    have kept := first.chain u some'
    exact (second.chain u (kept ▸ some')).trans kept
  value u := (second.value u).trans (first.value u)
  solved m chain := (second.solved m (solved m chain)).trans (first.solved m chain)
  mvalue m set := first.mvalue m (second.mvalue m set)

theorem retains_setCost (s : Search P.G) (x : P.G.VI) (cost : Cost) : Retains s (s.setCost x cost) :=
  .same (fun u => by simp) fun _ => rfl

theorem retains_setExpanded (s : Search P.G) (x : P.G.VI) : Retains s (s.setExpanded x) :=
  .same (fun u => by simp) fun _ => rfl

theorem retains_setModelCost (s : Search P.G) (m : P.G.MI) (cost : Cost) : Retains s (s.setModelCost m cost) :=
  .same (fun _ => ⟨rfl, rfl⟩) fun u => by simp

theorem retains_setModelExpanded (s : Search P.G) (m : P.G.MI) : Retains s (s.setModelExpanded m) :=
  .same (fun _ => ⟨rfl, rfl⟩) fun u => by simp

theorem Chained.retains_setChain (chained : P.Chained s) {x : P.G.VI} (unchained : (s.vs x).chain = none) (ei : Nat) (j : Inst) :
    Retains s (s.setChain x ei j) := by
  have unvalued : (s.vs x).value = false := by
    rw [← Bool.not_eq_true]
    intro set
    have chain := chained.value x set
    rw [unchained] at chain
    cases chain
  refine ⟨fun u some' => ?_, fun u => ?_, fun _ _ => rfl, fun _ => id⟩
  · by_cases same : u = x
    · rw [same, unchained] at some'
      cases some'
    · rw [s.setChain_of_ne ei j same]
  · by_cases same : u = x
    · rw [same, s.setChain_self, unvalued]
    · rw [s.setChain_of_ne ei j same]

theorem retains_setModelChain {m : P.G.MI} (unsolved : (s.ms m).chain = false) (cost : Cost) : Retains s (s.setModelChain m cost) := by
  refine ⟨fun _ _ => rfl, fun _ => rfl, fun u solved => ?_, fun u set => ?_⟩
  · by_cases same : u = m
    · rw [same, unsolved] at solved
      cases solved
    · rw [s.setModelChain_of_ne cost same]
  · by_cases same : u = m
    · rw [same, s.setModelChain_self] at set
      cases set
    · rw [s.setModelChain_of_ne cost same] at set
      exact set

/-- What a step does to the search state and to the surroundings. -/
inductive Effect (ops : Ops P.G V) (c c' : Config P.G V) : Prop
  | quiet (retains : Retains c.s c'.s)
      (bits : c'.s.ss = c.s.ss ∨ ∃ w, P.G.given (P.G.shadows w.1).xi = false ∧ c'.s.ss = (c.s.setEval w).ss)
      (asked : c'.v = c.v ∨ ops.Gives c.v c'.v)
  | found (w : Fin P.G.nw) (i : Inst) (computed : P.G.given (P.G.shadows w).xi = false)
      (value : (c.s.vs ((P.G.shadows w).xi, i)).value = true) (asked : ops.Gives c.v c'.v)
      (result : c'.s = c.s.checkscan (ops.guard c'.v) w
        (c.s.scanComputed (P.G.shadows w).xi (P.maps.shape (P.G.shadows w).group) i))
  | evaluated (w : Fin P.G.nw) (i : Inst) (computed : P.G.given (P.G.shadows w).xi = false)
      (chain : (c.s.vs ((P.G.shadows w).xi, i)).chain.isSome = true) (unvalued : (c.s.vs ((P.G.shadows w).xi, i)).value = false)
      (s : Search P.G) (evaluated : ops.compute c.s c.v ((P.G.shadows w).xi, i) = .ok (s, c'.v))
      (result : c'.s = s.checkscan (ops.guard c'.v) w
        (s.scanComputed (P.G.shadows w).xi (P.maps.shape (P.G.shadows w).group) i))
  | given (w : Fin P.G.nw) (i : Inst) (given : P.G.given (P.G.shadows w).xi = true)
      (asked : ops.given1 c.v ((P.G.shadows w).xi, i) = .ok c'.v)
      (result : c'.s = c.s.checkscan (ops.guard c'.v) w (i :: ops.scanGiven c'.v w i))

/-- A step that only goes elsewhere. -/
theorem Effect.goto {c' : Config P.G V} (s : c'.s = c.s) (v : c'.v = c.v) : Effect ops c c' := by
  apply Effect.quiet
  · rw [s]
    exact .refl
  · exact .inl (congrArg Search.ss s)
  · exact .inl v

/-- Bounds are written. -/
theorem Effect.bound {c' : Config P.G V} (retains : Retains c.s c'.s) (ss : c'.s.ss = c.s.ss) (v : c'.v = c.v) : Effect ops c c' :=
  .quiet retains (.inl ss) (.inl v)

theorem scanCheck_s {X : XState P.G} {e : ShEdge P.G.nw} {edges : List (ShEdge P.G.nw)} {i : Inst} {insts scanned : List Inst}
    {M_costS : Cost} {M_betaS : ℚ} : (c.scanCheck ops X e edges i insts scanned M_costS M_betaS).s =
      c.s.checkscan (ops.guard c.v) e.idx scanned := by
  unfold Config.scanCheck
  simp only
  split <;> rfl

theorem scanCheck_v {X : XState P.G} {e : ShEdge P.G.nw} {edges : List (ShEdge P.G.nw)} {i : Inst} {insts scanned : List Inst}
    {M_costS : Cost} {M_betaS : ℚ} : (c.scanCheck ops X e edges i insts scanned M_costS M_betaS).v = c.v := by
  unfold Config.scanCheck
  simp only
  split <;> rfl

section Steps
variable {t : XTarget P.G} {X : XState P.G} {e : ShEdge P.G.nw} {edges : List (ShEdge P.G.nw)} {i : Inst} {insts : List Inst}
  {M_costS : Cost} {M_betaS : ℚ}

theorem effect_x_solve (x : P.G.VI) (beta : ℚ) : Effect ops c (c.x_solve P.maps ops x beta) := by
  have marks : Retains c.s ((c.s.setExpanded x).setCost x SP_MARK) :=
    (retains_setExpanded c.s x).trans (retains_setCost _ x SP_MARK) fun _ => id
  unfold Config.x_solve
  split
  · exact .goto rfl rfl
  split
  · exact .goto rfl rfl
  simp only
  split
  · exact .bound (retains_setExpanded c.s x) rfl rfl
  · rename_i v expansion
    have asked : v = c.v ∨ ops.Gives c.v v := by
      split at expansion
      · cases expansion
        exact .inl rfl
      · exact .inr (.vexpandbe x.1 x.2 expansion)
    split
    · exact .quiet marks (.inl rfl) asked
    split
    · exact .quiet marks (.inl rfl) asked
    · exact .quiet marks (.inl rfl) asked

theorem effect_x_chosen (cost : Cost) : Effect ops c (c.x_chosen t cost) := by
  have costs := retains_setCost c.s t.x cost
  unfold Config.x_chosen
  split
  · exact .bound costs rfl rfl
  · split
    · exact .bound costs rfl rfl
    · exact .bound costs rfl rfl

theorem effect_x_bound : Effect ops c (c.x_bound X M_costS) := by
  unfold Config.x_bound
  simp only
  split
  · exact .bound (retains_setModelCost c.s X.mi _) rfl rfl
  · exact .bound (retains_setModelCost c.s X.mi _) rfl rfl

theorem Linked.effect_candidate (linked : Linked c) (pc : c.pc = .candidate t) : Effect ops c (c.candidate ops t) := by
  have top : TopAt c.s c.stack t := by
    have at' := linked.at'
    rwa [pc] at at'
  unfold Config.candidate
  simp only
  split
  · exact .goto rfl rfl
  split
  · exact .goto rfl rfl
  · rename_i ei m best
    split
    · exact .bound (linked.chained.retains_setChain top.unchained ei m.2) rfl rfl
    · split
      · exact .bound (retains_setModelExpanded c.s m) rfl rfl
      · rename_i v expansion
        have asked : v = c.v ∨ ops.Gives c.v v := by
          split at expansion
          · cases expansion
            exact .inl rfl
          · exact .inr (.mexpandbe m.1 m.2 expansion)
        exact .quiet (retains_setModelExpanded c.s m) (.inl rfl) asked

/-- The shadow edge of the current frame. -/
theorem ShadowPos.computed (at' : ShadowPos s X e edges i insts) : e.computed = !P.G.given (P.G.shadows e.idx).xi := by
  obtain ⟨done, pre, split, -, -⟩ := at'
  apply P.valid.computed X.m_i e
  rw [show (P.G.models X.m_i).shadows = _ from split]
  simp

theorem Linked.effect_x_failed (linked : Linked c) {cost : Cost} (pc : c.pc = .x_failed t cost) : Effect ops c (c.x_failed t cost) := by
  have top : TopAt c.s c.stack t := by
    have at' := linked.at'
    rwa [pc] at at'
  have costs := retains_setCost c.s t.x cost
  unfold Config.x_failed
  split
  · exact .bound costs rfl rfl
  · rename_i f stack cons
    split
    · exact .bound (costs.trans (retains_setModelCost _ _ _) fun _ => id) rfl rfl
    · rename_i e edges i insts resume
      -- only frames that search the variable of a shadow wait here
      have below := top.below
      rw [cons] at below
      obtain ⟨position, -, -, computed⟩ := below.1.pending resume
      have kind := position.computed
      rw [computed, eq_comm, Bool.not_eq_true'] at kind
      exact .quiet (costs.trans (.same (fun _ => ⟨rfl, rfl⟩) fun _ => rfl) fun _ => id) (.inr ⟨(e.idx, i), kind, rfl⟩) (.inl rfl)

theorem Linked.effect_shadow_inst (linked : Linked c) (pc : c.pc = .shadow_inst X e edges i insts M_costS M_betaS) :
    Effect ops c (c.shadow_inst P.maps ops X e edges i insts M_costS M_betaS) := by
  obtain ⟨frame, at'⟩ : PcAt c.s c.stack (.shadow_inst X e edges i insts M_costS M_betaS) := pc ▸ linked.at'
  have kind := at'.computed
  unfold Config.shadow_inst
  simp only
  split
  · exact .goto rfl rfl
  split
  · exact .goto rfl rfl
  split
  · rename_i computed
    rw [computed, eq_comm, Bool.not_eq_true'] at kind
    split
    · exact .goto rfl rfl
    · rename_i v expansion
      split
      · exact .quiet .refl (.inl rfl) (.inr (.vexpandsp _ expansion))
      split
      · rename_i value
        apply Effect.found e.idx i kind value
        · rw [scanCheck_v]
          exact .vexpandsp _ expansion
        · rw [scanCheck_v, scanCheck_s]
      · exact .quiet .refl (.inl rfl) (.inr (.vexpandsp _ expansion))
  · rename_i given
    rw [Bool.not_eq_true] at given
    rw [given, eq_comm, Bool.not_eq_false'] at kind
    split
    · exact .goto rfl rfl
    · rename_i v asked
      apply Effect.given e.idx i kind
      · rw [scanCheck_v]
        exact asked
      · rw [scanCheck_v, scanCheck_s]

theorem Linked.effect_shadow_compute (linked : Linked c) (pc : c.pc = .shadow_compute X e edges i insts M_costS M_betaS) :
    Effect ops c (c.shadow_compute P.maps ops X e edges i insts M_costS M_betaS) := by
  obtain ⟨frame, at', computed, chain, unvalued⟩ : PcAt c.s c.stack (.shadow_compute X e edges i insts M_costS M_betaS) :=
    pc ▸ linked.at'
  have kind := at'.computed
  rw [computed, eq_comm, Bool.not_eq_true'] at kind
  unfold Config.shadow_compute
  simp only
  split
  · exact .goto rfl rfl
  · rename_i s v evaluated
    apply Effect.evaluated e.idx i kind chain unvalued s
    · rw [scanCheck_v]
      exact evaluated
    · rw [scanCheck_v, scanCheck_s]

theorem Linked.effect_solved (linked : Linked c) (pc : c.pc = .solved X M_costS M_betaS) : Effect ops c (c.solved X M_costS) := by
  obtain ⟨frame, done⟩ : PcAt c.s c.stack (.solved X M_costS M_betaS) := pc ▸ linked.at'
  have model := retains_setModelChain frame.unsolved (X.m.costf M_costS)
  have chain := linked.chained.retains_setChain frame.unchained X.m_ei X.m_inst
  apply Effect.bound
  · exact ⟨chain.chain, chain.value, model.solved, model.mvalue⟩
  · rfl
  · rfl

end Steps

/-- Every step has one of these effects. -/
theorem Linked.effect {c' : Config P.G V} (linked : Linked c) (taken : Fhk.step P.maps ops c = some c') : Effect ops c c' := by
  unfold Fhk.step at taken
  split at taken
  · cases taken; exact effect_x_solve _ _
  · cases taken; exact effect_x_chosen _
  · rename_i pc; cases taken; exact linked.effect_x_failed pc
  · cases taken; exact effect_x_bound
  · rename_i pc; cases taken; exact linked.effect_candidate pc
  · cases taken
    unfold Config.shadow
    split <;> exact .goto rfl rfl
  · rename_i pc; cases taken; exact linked.effect_shadow_inst pc
  · rename_i pc; cases taken; exact linked.effect_shadow_compute pc
  · cases taken
    unfold Config.shadow_penalty
    simp only
    split <;> exact .goto rfl rfl
  · cases taken
    unfold Config.param
    split <;> exact .goto rfl rfl
  · cases taken
    unfold Config.param_inst
    simp only
    split
    · exact .goto rfl rfl
    split <;> exact .goto rfl rfl
  · rename_i pc; cases taken; exact linked.effect_solved pc
  · cases taken

end Problem
end M2.Fhk
