import M2.Fhk.Effects
import M2.Fhk.Returns

/-!
# Searched instances are in their groups

Where the roots are, and the maps keep to the groups, `S_select_chain` searches no instance outside, and records no chain
there.
-/
namespace M2.Fhk
open M2.Lib

namespace Problem
variable {P : Problem} {V : Type} {ops : Ops P.G V} {c : Config P.G V} {s s' : Search P.G}

/-- The instance that is searched. -/
def pcSearched : Pc P.G → Option P.G.VI
  | .x_solve x _ => some x
  | .x_chosen t _ | .x_failed t _ | .candidate t => some t.x
  | .x_bound X _ | .shadow X _ _ _ | .shadow_inst X _ _ _ _ _ _ | .shadow_compute X _ _ _ _ _ _ | .shadow_penalty X _ _ _ _
  | .param X _ _ _ | .param_inst X _ _ _ _ _ _ _ | .solved X _ _ => some X.x
  | .done _ => none

/-- Everything that is searched is in its group. -/
structure InGroups (c : Config P.G V) : Prop where
  chains : ∀ u, (c.s.vs u).chain.isSome = true → P.maps.Has P.G u
  stack : ∀ f ∈ c.stack, P.maps.Has P.G f.x
  searched : ∀ u, pcSearched c.pc = some u → P.maps.Has P.G u

/-- The search goes on at the same instance, or at that of a frame below. -/
theorem InGroups.move (within : InGroups c) {c' : Config P.G V} (chain : ∀ u, (c'.s.vs u).chain = (c.s.vs u).chain)
    (stack : ∀ f ∈ c'.stack, f ∈ c.stack)
    (searched : ∀ u, pcSearched c'.pc = some u → pcSearched c.pc = some u ∨ ∃ f ∈ c.stack, f.x = u) : InGroups c' := by
  refine ⟨fun u some' => within.chains u (chain u ▸ some'), fun f there => within.stack f (stack f there), fun u here => ?_⟩
  rcases searched u here with same | ⟨f, there, rfl⟩
  · exact within.searched u same
  · exact within.stack f there

/-- The search stays where it is. -/
theorem InGroups.stay (within : InGroups c) {c' : Config P.G V} (chain : ∀ u, (c'.s.vs u).chain = (c.s.vs u).chain)
    (stack : c'.stack = c.stack) (searched : ∀ u, pcSearched c'.pc = some u → pcSearched c.pc = some u) : InGroups c' :=
  within.move chain (fun f there => stack ▸ there) fun u here => .inl (searched u here)

/-- A chain is recorded. -/
theorem InGroups.record (within : InGroups c) {x : P.G.VI} (here : P.maps.Has P.G x) {c' : Config P.G V}
    (chain : ∀ u, u ≠ x → (c'.s.vs u).chain = (c.s.vs u).chain) (stack : c'.stack = c.stack)
    (searched : ∀ u, pcSearched c'.pc = some u → u = x) : InGroups c' := by
  refine ⟨fun u some' => ?_, fun f there => within.stack f (stack ▸ there), fun u at' => searched u at' ▸ here⟩
  by_cases same : u = x
  · exact same ▸ here
  · exact within.chains u (chain u same ▸ some')

/-- A frame is suspended to search what it needs. -/
theorem InGroups.push (within : InGroups c) {f : Suspended P.G} (frame : P.maps.Has P.G f.x) {x : P.G.VI} {beta : ℚ}
    (here : P.maps.Has P.G x) (v : V) : InGroups { c with v, stack := f :: c.stack, pc := .x_solve x beta } := by
  refine ⟨within.chains, fun g there => ?_, fun u at' => ?_⟩
  · rcases List.mem_cons.mp there with rfl | below
    · exact frame
    · exact within.stack g below
  · cases at'
    exact here

section Steps
variable {t : XTarget P.G} {X : XState P.G} {e : ShEdge P.G.nw} {edges : List (ShEdge P.G.nw)} {i : Inst} {insts : List Inst}
  {M_costS : Cost} {M_betaS : ℚ}

theorem Picked.has (inverse : P.maps.Inverse P.G) (picked : Picked X) (here : P.maps.Has P.G X.x) : P.maps.HasModel P.G X.mi :=
  inverse.models X.x X.m_ei X.mi here (picked.cands ▸ picked.cand)

theorem searched_nextShadow : pcSearched (Config.nextShadow X e edges insts M_costS M_betaS) = some X.x := by
  cases insts <;> rfl

theorem searched_nextParam {e : Edge P.G.nv} {edges : List (Edge P.G.nv)} {p_ssmax : Cost} :
    pcSearched (Config.nextParam X e edges insts p_ssmax M_costS M_betaS) = some X.x := by
  cases insts <;> rfl

theorem InGroups.x_solve (within : InGroups c) {x : P.G.VI} {beta : ℚ} (pc : c.pc = .x_solve x beta) :
    InGroups (c.x_solve P.maps ops x beta) := by
  have searching : pcSearched c.pc = some x := by rw [pc]; rfl
  unfold Config.x_solve
  split
  · exact within.stay (fun _ => rfl) rfl fun _ done => by cases done
  split
  · exact within.stay (fun _ => rfl) rfl fun _ done => by cases done
  simp only
  split
  · exact within.stay (fun u => by simp [Config.exit, Config.goto]) rfl fun _ done => by cases done
  · split
    · exact within.stay (fun u => by simp [Config.exit, Config.goto]) rfl fun _ done => by cases done
    split
    · exact within.stay (fun u => by simp [Config.goto]) rfl fun _ same => searching.trans same
    · exact within.stay (fun u => by simp [Config.goto]) rfl fun _ same => searching.trans same

theorem InGroups.x_chosen (within : InGroups c) {cost : Cost} : InGroups (c.x_chosen t cost) := by
  unfold Config.x_chosen
  split
  · exact within.stay (fun u => by simp) rfl fun _ done => by cases done
  · rename_i f stack cons
    have below (g : Suspended P.G) (there : g ∈ stack) : g ∈ c.stack := by
      rw [cons]
      exact List.mem_cons_of_mem f there
    have top : f ∈ c.stack := by
      rw [cons]
      exact List.mem_cons_self
    split
    · apply within.move (fun u => by simp) below
      intro u same
      rw [searched_nextParam] at same
      exact .inr ⟨f, top, Option.some.inj same⟩
    · apply within.move (fun u => by simp) below
      intro u same
      exact .inr ⟨f, top, Option.some.inj same⟩

theorem InGroups.x_failed (within : InGroups c) {cost : Cost} : InGroups (c.x_failed t cost) := by
  unfold Config.x_failed
  split
  · exact within.stay (fun u => by simp [Config.exit, Config.goto]) rfl fun _ done => by cases done
  · rename_i f stack cons
    have below (g : Suspended P.G) (there : g ∈ stack) : g ∈ c.stack := by
      rw [cons]
      exact List.mem_cons_of_mem f there
    have top : f ∈ c.stack := by
      rw [cons]
      exact List.mem_cons_self
    split
    · exact within.move (fun u => by simp) below fun u same => .inr ⟨f, top, Option.some.inj same⟩
    · exact within.move (fun u => by simp) below fun u same => .inr ⟨f, top, Option.some.inj same⟩

theorem InGroups.candidate (within : InGroups c) (pc : c.pc = .candidate t) : InGroups (c.candidate ops t) := by
  have searching : pcSearched c.pc = some t.x := by rw [pc]; rfl
  unfold Config.candidate
  simp only
  split
  · exact within.stay (fun _ => rfl) rfl fun _ same => searching.trans same
  split
  · exact within.stay (fun _ => rfl) rfl fun _ same => searching.trans same
  · rename_i ei m best
    split
    · exact within.record (within.searched t.x searching)
        (fun u other => congrArg VSp.chain (c.s.setChain_of_ne ei m.2 other)) rfl fun u same => (Option.some.inj same).symm
    · split
      · exact within.stay (fun _ => rfl) rfl fun _ done => by cases done
      · exact within.stay (fun _ => rfl) rfl fun _ same => searching.trans same

theorem InGroups.scanCheck {v : V} {scanned : List Inst} (within : InGroups c) (searching : pcSearched c.pc = some X.x)
    (chain : ∀ u, (s.vs u).chain = (c.s.vs u).chain) :
    InGroups (Config.scanCheck ops { c with s, v } X e edges i insts scanned M_costS M_betaS) := by
  unfold Config.scanCheck
  simp only
  split
  · exact within.stay chain rfl fun u same => searching.trans (searched_nextShadow.symm.trans same)
  · exact within.stay chain rfl fun u same => searching.trans same

theorem InGroups.shadow_inst (inverse : P.maps.Inverse P.G) (linked : Linked c) (within : InGroups c)
    (pc : c.pc = .shadow_inst X e edges i insts M_costS M_betaS) :
    InGroups (c.shadow_inst P.maps ops X e edges i insts M_costS M_betaS) := by
  obtain ⟨frame, done, pre, split', list, -⟩ : PcAt c.s c.stack (.shadow_inst X e edges i insts M_costS M_betaS) := pc ▸ linked.at'
  have searching : pcSearched c.pc = some X.x := by rw [pc]; rfl
  have here := within.searched X.x searching
  unfold Config.shadow_inst
  simp only
  split
  · exact within.stay (fun _ => rfl) rfl fun u same => searching.trans (searched_nextShadow.symm.trans same)
  split
  · exact within.stay (fun _ => rfl) rfl fun u same => searching.trans same
  split
  · split
    · exact within.stay (fun _ => rfl) rfl fun _ done => by cases done
    · split
      · apply within.push here
        apply inverse.shadows X.mi e i (frame.picked.has inverse here)
        · rw [show (P.G.models X.mi.1).shadows = _ from split']
          simp
        · rw [show P.maps.mapE e.map X.mi.2 = _ from list]
          simp
      split
      · exact within.scanCheck searching fun _ => rfl
      · exact within.stay (fun _ => rfl) rfl fun u same => searching.trans same
  · split
    · exact within.stay (fun _ => rfl) rfl fun _ done => by cases done
    · exact within.scanCheck searching fun _ => rfl

theorem InGroups.shadow_compute (quiet : QuietAt ops c.s c.v) (linked : Linked c) (within : InGroups c)
    (pc : c.pc = .shadow_compute X e edges i insts M_costS M_betaS) :
    InGroups (c.shadow_compute P.maps ops X e edges i insts M_costS M_betaS) := by
  obtain ⟨-, -, -, chain, unvalued⟩ : PcAt c.s c.stack (.shadow_compute X e edges i insts M_costS M_betaS) := pc ▸ linked.at'
  have searching : pcSearched c.pc = some X.x := by rw [pc]; rfl
  unfold Config.shadow_compute
  simp only
  split
  · exact within.stay (fun _ => rfl) rfl fun _ done => by cases done
  · rename_i s v computed
    exact within.scanCheck searching (quiet _ _ _ chain unvalued computed).1.chain

theorem InGroups.param_inst (inverse : P.maps.Inverse P.G) (linked : Linked c) (within : InGroups c) {e : Edge P.G.nv}
    {edges : List (Edge P.G.nv)} {p_ssmax : Cost} (pc : c.pc = .param_inst X e edges i insts p_ssmax M_costS M_betaS) :
    InGroups (c.param_inst X e edges i insts p_ssmax M_costS M_betaS) := by
  obtain ⟨frame, ⟨done, split', -⟩, pre, list, -⟩ : PcAt c.s c.stack (.param_inst X e edges i insts p_ssmax M_costS M_betaS) :=
    pc ▸ linked.at'
  have searching : pcSearched c.pc = some X.x := by rw [pc]; rfl
  have here := within.searched X.x searching
  unfold Config.param_inst
  simp only
  split
  · exact within.stay (fun _ => rfl) rfl fun u same => searching.trans same
  split
  · exact within.stay (fun _ => rfl) rfl fun u same => searching.trans (searched_nextParam.symm.trans same)
  · apply within.push here
    apply inverse.params X.mi (e.idx, i) (frame.picked.has inverse here)
    apply Graph.mem_prems_of (e := e)
    · rw [show (P.G.models X.mi.1).cparams.reverse = _ from split']
      simp
    · rw [show P.maps.mapE e.map X.mi.2 = _ from list]
      simp

theorem InGroups.solved (within : InGroups c) (pc : c.pc = .solved X M_costS M_betaS) : InGroups (c.solved X M_costS) := by
  have searching : pcSearched c.pc = some X.x := by rw [pc]; rfl
  unfold Config.solved
  have chain (u : P.G.VI) (other : u ≠ X.x) := congrArg VSp.chain
    ((c.s.setModelChain X.mi (X.m.costf M_costS)).setChain_of_ne X.m_ei X.m_inst other)
  exact within.record (within.searched X.x searching) chain rfl fun u same => (Option.some.inj same).symm

end Steps

/-- Every step keeps to the groups. -/
theorem InGroups.step (inverse : P.maps.Inverse P.G) (quiet : QuietAt ops c.s c.v) (linked : Linked c) (within : InGroups c)
    {c' : Config P.G V} (taken : Fhk.step P.maps ops c = some c') : InGroups c' := by
  unfold Fhk.step at taken
  split at taken
  · rename_i pc; cases taken; exact within.x_solve pc
  · cases taken; exact within.x_chosen
  · cases taken; exact within.x_failed
  · rename_i pc
    cases taken
    unfold Config.x_bound
    simp only
    split
    · exact within.stay (fun _ => rfl) rfl fun _ done => by cases done
    · exact within.stay (fun _ => rfl) rfl fun u same => (congrArg pcSearched pc).trans same
  · rename_i pc; cases taken; exact within.candidate pc
  · rename_i pc
    cases taken
    unfold Config.shadow
    split
    · exact within.stay (fun _ => rfl) rfl fun u same => (congrArg pcSearched pc).trans same
    · exact within.stay (fun _ => rfl) rfl fun u same => (congrArg pcSearched pc).trans (searched_nextShadow.symm.trans same)
  · rename_i pc; cases taken; exact within.shadow_inst inverse linked pc
  · rename_i pc; cases taken; exact within.shadow_compute quiet linked pc
  · rename_i pc
    cases taken
    unfold Config.shadow_penalty
    simp only
    split
    · exact within.stay (fun _ => rfl) rfl fun u same => (congrArg pcSearched pc).trans same
    · exact within.stay (fun _ => rfl) rfl fun u same => (congrArg pcSearched pc).trans same
  · rename_i pc
    cases taken
    unfold Config.param
    split
    · exact within.stay (fun _ => rfl) rfl fun u same => (congrArg pcSearched pc).trans same
    · exact within.stay (fun _ => rfl) rfl fun u same => (congrArg pcSearched pc).trans (searched_nextParam.symm.trans same)
  · rename_i pc; cases taken; exact within.param_inst inverse linked pc
  · rename_i pc; cases taken; exact within.solved pc
  · cases taken

end Problem
end M2.Fhk
