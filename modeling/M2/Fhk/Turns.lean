import M2.Fhk.Ranges

/-!
# What a call of `S_select_chain` is for

The instance that a call was made for is searched by the lowest frame, until the call returns with a chain for it, or exits
because it has none.
-/
namespace M2.Fhk
open M2.Lib

namespace Problem
variable {P : Problem} {V : Type} {ops : Ops P.G V} {c c' : Config P.G V} {s s' : Search P.G} {x : P.G.VI}

/-- The exits that the surroundings take here are not for want of a chain. -/
structure ExitsAt (ops : Ops P.G V) (s : Search P.G) (v : V) : Prop where
  vexpandsp : ∀ x e, ops.vexpandsp v x = .error e → e.ofSearch = false
  vexpandbe : ∀ x i e, ops.vexpandbe v x i = .error e → e.ofSearch = false
  mexpandbe : ∀ m i e, ops.mexpandbe v m i = .error e → e.ofSearch = false
  given1 : ∀ x e, ops.given1 v x = .error e → e.ofSearch = false
  compute : ∀ x e, (s.vs x).chain.isSome = true → (s.vs x).value = false → ops.compute s v x = .error e → e.ofSearch = false

/-- How a step moves between the frames. -/
inductive Turn (c c' : Config P.G V) : Prop
  | stay (stack : c'.stack = c.stack) (searched : pcSearched c'.pc = pcSearched c.pc)
  | push (f : Suspended P.G) (stack : c'.stack = f :: c.stack) (frame : pcSearched c.pc = some f.x)
      (inside : (pcSearched c'.pc).isSome = true)
  | pop (f : Suspended P.G) (stack : c.stack = f :: c'.stack) (searched : pcSearched c'.pc = some f.x)
  | found (x : P.G.VI) (searched : pcSearched c.pc = some x) (lowest : c.stack = []) (returned : c'.pc = .done none)
      (chain : (c'.s.vs x).chain.isSome = true)
  | failed (x : P.G.VI) (searched : pcSearched c.pc = some x) (lowest : c.stack = [])
      (exited : c'.pc = .done (some (.nchain x.1 x.2)))
  | exit (e : Exit) (exited : c'.pc = .done (some e)) (other : ∀ xi inst, e ≠ .nchain xi inst)

theorem ne_nchain {e : Exit} (outside : e.ofSearch = false) (xi : Nat) (inst : Inst) : e ≠ .nchain xi inst := by
  rintro rfl
  cases outside

section Steps
variable {t : XTarget P.G} {X : XState P.G} {e : ShEdge P.G.nw} {edges : List (ShEdge P.G.nw)} {i : Inst} {insts : List Inst}
  {M_costS : Cost} {M_betaS : ℚ}

theorem turn_x_solve (exits : ExitsAt ops c.s c.v) {beta : ℚ} (pc : c.pc = .x_solve x beta) : Turn c (c.x_solve P.maps ops x beta) := by
  have searching : pcSearched c.pc = some x := by rw [pc]; rfl
  unfold Config.x_solve
  split
  · exact .exit _ rfl fun _ _ => Exit.noConfusion
  split
  · exact .exit _ rfl fun _ _ => Exit.noConfusion
  simp only
  split
  · rename_i err expansion
    split at expansion
    · cases expansion
    · exact .exit _ rfl (ne_nchain (exits.vexpandbe _ _ _ expansion))
  · split
    · exact .exit _ rfl fun _ _ => Exit.noConfusion
    split
    · exact .stay rfl searching.symm
    · exact .stay rfl searching.symm

theorem turn_x_chosen {cost : Cost} (linked : Linked c) (pc : c.pc = .x_chosen t cost) : Turn c (c.x_chosen t cost) := by
  obtain ⟨-, -, chain, -⟩ : PcAt c.s c.stack (.x_chosen t cost) := pc ▸ linked.at'
  have searching : pcSearched c.pc = some t.x := by rw [pc]; rfl
  unfold Config.x_chosen
  split
  · rename_i lowest
    apply Turn.found t.x searching lowest rfl
    rw [← chain]
    simp
  · rename_i f stack cons
    split
    · exact .pop f cons searched_nextParam
    · exact .pop f cons rfl

theorem turn_x_failed {cost : Cost} (pc : c.pc = .x_failed t cost) : Turn c (c.x_failed t cost) := by
  have searching : pcSearched c.pc = some t.x := by rw [pc]; rfl
  unfold Config.x_failed
  split
  · rename_i lowest
    exact .failed t.x searching lowest rfl
  · rename_i f stack cons
    split
    · exact .pop f cons rfl
    · exact .pop f cons rfl

theorem turn_candidate (exits : ExitsAt ops c.s c.v) (pc : c.pc = .candidate t) : Turn c (c.candidate ops t) := by
  have searching : pcSearched c.pc = some t.x := by rw [pc]; rfl
  unfold Config.candidate
  simp only
  split
  · exact .stay rfl searching.symm
  split
  · exact .stay rfl searching.symm
  · split
    · exact .stay rfl searching.symm
    · split
      · rename_i err expansion
        split at expansion
        · cases expansion
        · exact .exit _ rfl (ne_nchain (exits.mexpandbe _ _ _ expansion))
      · exact .stay rfl searching.symm

theorem turn_scanCheck {v : V} {scanned : List Inst} (searching : pcSearched c.pc = some X.x) :
    Turn c (Config.scanCheck ops { c with s, v } X e edges i insts scanned M_costS M_betaS) := by
  unfold Config.scanCheck
  simp only
  split
  · exact .stay rfl (searched_nextShadow.trans searching.symm)
  · exact .stay rfl searching.symm

theorem turn_shadow_inst (exits : ExitsAt ops c.s c.v) (pc : c.pc = .shadow_inst X e edges i insts M_costS M_betaS) :
    Turn c (c.shadow_inst P.maps ops X e edges i insts M_costS M_betaS) := by
  have searching : pcSearched c.pc = some X.x := by rw [pc]; rfl
  unfold Config.shadow_inst
  simp only
  split
  · exact .stay rfl (searched_nextShadow.trans searching.symm)
  split
  · exact .stay rfl searching.symm
  split
  · split
    · rename_i err expansion
      exact .exit _ rfl (ne_nchain (exits.vexpandsp _ _ expansion))
    · split
      · exact .push _ rfl searching rfl
      split
      · exact turn_scanCheck searching
      · exact .stay rfl searching.symm
  · split
    · rename_i err asked
      exact .exit _ rfl (ne_nchain (exits.given1 _ _ asked))
    · exact turn_scanCheck searching

theorem turn_shadow_compute (exits : ExitsAt ops c.s c.v) (linked : Linked c)
    (pc : c.pc = .shadow_compute X e edges i insts M_costS M_betaS) :
    Turn c (c.shadow_compute P.maps ops X e edges i insts M_costS M_betaS) := by
  obtain ⟨-, -, -, chain, unvalued⟩ : PcAt c.s c.stack (.shadow_compute X e edges i insts M_costS M_betaS) := pc ▸ linked.at'
  have searching : pcSearched c.pc = some X.x := by rw [pc]; rfl
  unfold Config.shadow_compute
  simp only
  split
  · rename_i err computed
    exact .exit _ rfl (ne_nchain (exits.compute _ _ chain unvalued computed))
  · exact turn_scanCheck searching

end Steps

theorem Linked.turn (exits : ExitsAt ops c.s c.v) (linked : Linked c) (taken : Fhk.step P.maps ops c = some c') : Turn c c' := by
  unfold Fhk.step at taken
  split at taken
  · rename_i pc; cases taken; exact turn_x_solve exits pc
  · rename_i pc; cases taken; exact turn_x_chosen linked pc
  · rename_i pc; cases taken; exact turn_x_failed pc
  · rename_i pc
    cases taken
    unfold Config.x_bound
    simp only
    split
    · exact .exit _ rfl fun _ _ => Exit.noConfusion
    · exact .stay rfl (congrArg pcSearched pc).symm
  · rename_i pc; cases taken; exact turn_candidate exits pc
  · rename_i pc
    cases taken
    unfold Config.shadow
    split
    · exact .stay rfl (congrArg pcSearched pc).symm
    · exact .stay rfl (searched_nextShadow.trans (congrArg pcSearched pc).symm)
  · rename_i pc; cases taken; exact turn_shadow_inst exits pc
  · rename_i pc; cases taken; exact turn_shadow_compute exits linked pc
  · rename_i pc
    cases taken
    unfold Config.shadow_penalty
    simp only
    split
    · exact .stay rfl (congrArg pcSearched pc).symm
    · exact .stay rfl (congrArg pcSearched pc).symm
  · rename_i pc
    cases taken
    unfold Config.param
    split
    · exact .stay rfl (congrArg pcSearched pc).symm
    · exact .stay rfl (searched_nextParam.trans (congrArg pcSearched pc).symm)
  · rename_i pc
    cases taken
    unfold Config.param_inst
    simp only
    split
    · exact .stay rfl (congrArg pcSearched pc).symm
    split
    · exact .stay rfl (searched_nextParam.trans (congrArg pcSearched pc).symm)
    · exact .push _ rfl (congrArg pcSearched pc) rfl
  · rename_i pc; cases taken; exact .stay rfl (congrArg pcSearched pc).symm
  · cases taken

/-! ## The instance of the call -/

/-- The instance that the lowest frame searches. -/
def lowest (c : Config P.G V) : Option P.G.VI :=
  match c.stack.getLast? with
  | some f => some f.x
  | none => pcSearched c.pc

/-- The call is for this instance. -/
inductive CallFor (x : P.G.VI) (c : Config P.G V) : Prop
  | searching (running : (pcSearched c.pc).isSome = true) (here : lowest c = some x)
  | found (returned : c.pc = .done none) (chain : (c.s.vs x).chain.isSome = true)
  | failed (exited : c.pc = .done (some (.nchain x.1 x.2)))
  | exited (e : Exit) (exited : c.pc = .done (some e)) (other : ∀ xi inst, e ≠ .nchain xi inst)

theorem CallFor.call (s : Search P.G) (v : V) (x : P.G.VI) : CallFor x (selectChain s v x) := .searching rfl rfl

theorem CallFor.turn (call : CallFor x c) (running : ∀ e, c.pc ≠ .done e) (turn : Turn c c') : CallFor x c' := by
  cases call with
  | found returned _ => exact absurd returned (running _)
  | failed exited => exact absurd exited (running _)
  | exited e exited _ => exact absurd exited (running _)
  | searching inside here =>
    unfold lowest at here
    cases turn with
    | stay stack searched =>
      apply CallFor.searching
      · rw [searched, inside]
      · rw [lowest, stack, searched, here]
    | push f stack frame inside' =>
      apply CallFor.searching inside'
      rw [lowest, stack, List.getLast?_cons]
      cases last : c.stack.getLast? with
      | none =>
        rw [last, frame] at here
        exact here
      | some g =>
        rw [last] at here
        exact here
    | pop f stack searched =>
      apply CallFor.searching
      · rw [searched]
        rfl
      · rw [stack, List.getLast?_cons] at here
        rw [lowest]
        cases last : c'.stack.getLast? with
        | none =>
          rw [last] at here
          exact searched.trans here
        | some g =>
          rw [last] at here
          exact here
    | found y searched lowest returned chain =>
      rw [lowest, List.getLast?_nil, searched] at here
      cases here
      exact .found returned chain
    | failed y searched lowest exited =>
      rw [lowest, List.getLast?_nil, searched] at here
      cases here
      exact .failed exited
    | exit e exited other => exact .exited e exited other

end Problem
end M2.Fhk
