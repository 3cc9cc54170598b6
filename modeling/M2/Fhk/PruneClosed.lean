import M2.Fhk.PruneLink

/-!
# The selection of a run

What is selected, from the equations of the bounds alone: the flagged nodes, the models a selected
variable takes, the parameters of a selected model and the variables of its shadows, as long as these
can be reached. The selection is clean where the parameters and shadows of selected models can all be
reached.
-/
namespace M2.Fhk
open M2.Lib

namespace Graph
variable {G : Graph}

/-- The models a variable takes, in the order of its list, while a model for the high bound may still be
needed. -/
def taken (b : Node G × Color → Cost) (beta : Cost) : Bool → List (Edge G.nm) → List (Fin G.nm)
  | _, [] => []
  | needbeta, e :: l =>
    if Prune.takes b beta needbeta e.idx then
      e.idx :: taken b beta (needbeta && decide (b (.model e.idx, .BLACK) > beta)) l
    else taken b beta needbeta l

/-- The nodes that a selected node takes along. -/
def next (b : Node G × Color → Cost) (dead : Node G → Bool) : Node G → List (Node G)
  | .var x => (taken b (b (.var x, .BLACK)) (decide (b (.var x, .BLACK) < ⊤)) (G.vars x).models).map .model
  | .model m => (((G.models m).shadows.filter fun e => !dead (.var (G.shadows e.idx).xi)).map fun e =>
      .var (G.shadows e.idx).xi) ++ (G.models m).params.map fun e => .var e.idx

/-- The selected nodes. -/
inductive Kept (b : Node G × Color → Cost) (dead : Node G → Bool) (flagged : Node G → Bool) : Node G → Prop
  | flag {i : Node G} (flag : flagged i) : Kept b dead flagged i
  | along {i j : Node G} (kept : Kept b dead flagged i) (mem : j ∈ next b dead i) : Kept b dead flagged j

end Graph

namespace Scope
variable {G : Graph} (priced : G.Priced) (S : Scope G)

open Classical in
/-- The bounds of the equations. -/
noncomputable def bounds : Node G × Color → Cost
  | (.var x, c) => (G.boundSystem priced S c).opt x
  | (.model m, c) => if S.skip (.model m) then ⊤ else G.modelBound S c m (G.boundSystem priced S c).opt

open Classical in
/-- A node that is skipped or cannot be reached. -/
noncomputable def dead (i : Node G) : Bool := S.skip i || decide (S.bounds priced (i, .GRAY) = ⊤)

end Scope

namespace Prune
variable {G : Graph} {P P' : Prune G}

/-- The nodes that a selected node takes along, in a state of the pruner. -/
def nextOf (P : Prune G) (i : Node G) : List (Node G) := Graph.next P.bound (fun i => (P.flags i).skip) i

theorem Extends.nextOf (extends' : Extends P P') (i : Node G) : P'.nextOf i = P.nextOf i := by
  have skip : (fun i => (P'.flags i).skip) = fun i => (P.flags i).skip := funext extends'.skip
  rw [Prune.nextOf, Prune.nextOf, extends'.bound, skip]

/-- What the search adds: nodes of `R`, closed under the edges it follows. -/
structure Grows (R : Node G → Prop) (P P' : Prune G) : Prop extends Extends P P' where
  closed : ∀ i, (P'.flags i).selected → ¬ (P.flags i).selected → ∀ j ∈ P.nextOf i, (P'.flags j).selected
  returned : ∀ m, (P'.flags (.model m)).selected → ¬ (P.flags (.model m)).selected →
    ∀ e ∈ (G.models m).returns, (P'.flags (.var e.idx)).retedge
  within : ∀ i, (P'.flags i).selected → (P.flags i).selected ∨ R i
  flagged : ∀ i, (P'.flags i).selected → (P.flags i).selected ∨ (P'.flags i).select
  selects : ∀ i, (P'.flags i).select → (P.flags i).select ∨ (P'.flags i).selected
  returns : ∀ i, (P'.flags i).retedge → (P.flags i).retedge ∨
    ∃ m, ∃ e ∈ (G.models m).returns, i = .var e.idx ∧ (P'.flags (.model m)).selected

variable {R : Node G → Prop}

theorem Grows.refl : Grows R P P :=
  ⟨.refl, fun _ now not => absurd now not, fun _ now not => absurd now not, fun _ => .inl, fun _ => .inl, fun _ => .inl,
    fun _ => .inl⟩

theorem Grows.trans {P₁ P₂ : Prune G} (first : Grows R P P₁) (second : Grows R P₁ P₂) : Grows R P P₂ := by
  refine ⟨first.toExtends.trans second.toExtends, fun i now fresh j mem => ?_, fun m now fresh e mem => ?_, fun i now => ?_,
    fun i now => ?_, fun i now => ?_, fun i now => ?_⟩
  · by_cases mid : (P₁.flags i).selected
    · exact second.selected j (first.closed i mid fresh j mem)
    · exact second.closed i now mid j (by rwa [first.nextOf])
  · by_cases mid : (P₁.flags (.model m)).selected
    · exact second.retedge _ (first.returned m mid fresh e mem)
    · exact second.returned m now mid e mem
  · rcases second.within i now with mid | inside
    · exact first.within i mid
    · exact .inr inside
  · rcases second.flagged i now with mid | select
    · exact (first.flagged i mid).imp_right (second.select i)
    · exact .inr select
  · rcases second.selects i now with mid | selected
    · exact (first.selects i mid).imp_right (second.selected i)
    · exact .inr selected
  · rcases second.returns i now with mid | returned
    · rcases first.returns i mid with old | ⟨m, e, mem, same, selected⟩
      · exact .inl old
      · exact .inr ⟨m, e, mem, same, second.selected _ selected⟩
    · exact .inr returned

/-- What a call for a node promises. -/
def Visits (R : Node G → Prop) (rec : Prune G → Node G → Option (Prune G)) : Prop :=
  ∀ P i P', rec P i = some P' → R i → (∀ i, R i → ∀ j ∈ P.nextOf i, R j) → Grows R P P' ∧ (P'.flags i).selected

variable {rec : Prune G → Node G → Option (Prune G)}

theorem Visits.scan (visits : Visits R rec) {beta : Cost} {l : List (Edge G.nm)} {need need' : Bool}
    (run : l.foldlM (selectSource rec beta) (P, need) = some (P', need')) (closed : ∀ i, R i → ∀ j ∈ P.nextOf i, R j)
    (inside : ∀ m ∈ Graph.taken P.bound beta need l, R (.model m)) :
    Grows R P P' ∧ ∀ m ∈ Graph.taken P.bound beta need l, (P'.flags (.model m)).selected := by
  induction l generalizing P need with
  | nil =>
    cases run
    exact ⟨.refl, fun m mem => by cases mem⟩
  | cons e l ih =>
    obtain ⟨⟨P₁, need₁⟩, first, rest⟩ := Option.bind_eq_some_iff.mp run
    simp only [selectSource] at first
    rw [Graph.taken] at inside ⊢
    split at first
    · rename_i takes
      rw [if_pos takes] at inside ⊢
      obtain ⟨P₂, called, same⟩ := Option.map_eq_some_iff.mp first
      cases same
      obtain ⟨grows, here⟩ := visits _ _ _ called (inside _ List.mem_cons_self) closed
      obtain ⟨grows', later⟩ := ih rest (fun i inside' j mem => closed i inside' j (by rwa [← grows.nextOf]))
        fun m mem => inside m (List.mem_cons_of_mem _ (by rw [grows.bound] at mem; exact mem))
      refine ⟨grows.trans grows', fun m mem => ?_⟩
      rcases List.mem_cons.mp mem with rfl | mem
      · exact grows'.selected _ here
      · exact later m (by rwa [grows.bound])
    · rename_i leaves
      rw [if_neg leaves] at inside ⊢
      cases first
      exact ih rest closed inside

theorem Visits.shadows (visits : Visits R rec) {l : List (ShEdge G.nw)} (run : l.foldlM (selectShadow rec) P = some P')
    (closed : ∀ i, R i → ∀ j ∈ P.nextOf i, R j)
    (inside : ∀ e ∈ l, (P.flags (.var (G.shadows e.idx).xi)).skip = false → R (.var (G.shadows e.idx).xi)) :
    Grows R P P' ∧ ∀ e ∈ l, (P.flags (.var (G.shadows e.idx).xi)).skip = false →
      (P'.flags (.var (G.shadows e.idx).xi)).selected := by
  induction l generalizing P with
  | nil =>
    cases run
    exact ⟨.refl, fun e mem => by cases mem⟩
  | cons e l ih =>
    obtain ⟨P₁, first, rest⟩ := Option.bind_eq_some_iff.mp run
    simp only [selectShadow] at first
    have step : Grows R P P₁ ∧ ((P.flags (.var (G.shadows e.idx).xi)).skip = false →
        (P₁.flags (.var (G.shadows e.idx).xi)).selected) := by
      split at first
      · rename_i skipped
        cases first
        exact ⟨.refl, fun kept => by rw [kept] at skipped; cases skipped⟩
      · rename_i kept
        obtain ⟨grows, here⟩ := visits _ _ _ first (inside e List.mem_cons_self (by simpa using kept)) closed
        exact ⟨grows, fun _ => here⟩
    obtain ⟨grows, here⟩ := step
    obtain ⟨grows', later⟩ := ih rest (fun i inside' j mem => closed i inside' j (by rwa [← grows.nextOf]))
      fun e' mem kept => inside e' (List.mem_cons_of_mem _ mem) (by rwa [← grows.skip])
    refine ⟨grows.trans grows', fun e' mem kept => ?_⟩
    rcases List.mem_cons.mp mem with rfl | mem
    · exact grows'.selected _ (here kept)
    · exact later e' mem (by rwa [grows.skip])

theorem Visits.params (visits : Visits R rec) {l : List (Edge G.nv)}
    (run : l.foldlM (fun P e => rec P (.var e.idx)) P = some P') (closed : ∀ i, R i → ∀ j ∈ P.nextOf i, R j)
    (inside : ∀ e ∈ l, R (.var e.idx)) : Grows R P P' ∧ ∀ e ∈ l, (P'.flags (.var e.idx)).selected := by
  induction l generalizing P with
  | nil =>
    cases run
    exact ⟨.refl, fun e mem => by cases mem⟩
  | cons e l ih =>
    obtain ⟨P₁, first, rest⟩ := Option.bind_eq_some_iff.mp run
    obtain ⟨grows, here⟩ := visits _ _ _ first (inside e List.mem_cons_self) closed
    obtain ⟨grows', later⟩ := ih rest (fun i inside' j mem => closed i inside' j (by rwa [← grows.nextOf]))
      fun e' mem => inside e' (List.mem_cons_of_mem _ mem)
    refine ⟨grows.trans grows', fun e' mem => ?_⟩
    rcases List.mem_cons.mp mem with rfl | mem
    · exact grows'.selected _ here
    · exact later e' mem

theorem setRetedges (l : List (Edge G.nv)) : Extends P (l.foldl setRetedge P) ∧
    (∀ e ∈ l, ((l.foldl setRetedge P).flags (.var e.idx)).retedge) ∧
    (∀ i, ((l.foldl setRetedge P).flags i).selected = (P.flags i).selected ∧
      ((l.foldl setRetedge P).flags i).select = (P.flags i).select) ∧
    ∀ i, ((l.foldl setRetedge P).flags i).retedge → (P.flags i).retedge ∨ ∃ e ∈ l, i = .var e.idx := by
  induction l generalizing P with
  | nil => exact ⟨.refl, (fun e mem => by cases mem), fun _ => ⟨rfl, rfl⟩, fun _ => .inl⟩
  | cons e l ih =>
    rw [List.foldl_cons]
    obtain ⟨extends', marked, same, origin⟩ := ih (P := setRetedge P e)
    have flags (i : Node G) : (setRetedge P e).flags i =
        if i = .var e.idx then { P.flags i with retedge := true } else P.flags i := by
      simp only [setRetedge, setFlags, Function.update_apply]
      split
      · rename_i here
        rw [here]
      · rfl
    refine ⟨(setRetedge_extends e).trans extends', fun e' mem => ?_, fun i => ?_, fun i now => ?_⟩
    · rcases List.mem_cons.mp mem with rfl | mem
      · exact extends'.retedge _ (by rw [flags, if_pos rfl])
      · exact marked e' mem
    · rw [(same i).1, (same i).2, flags]
      split <;> exact ⟨rfl, rfl⟩
    · rcases origin i now with old | ⟨e', mem, same⟩
      · rw [flags] at old
        split at old
        · rename_i here
          exact .inr ⟨e, List.mem_cons_self, here⟩
        · exact .inl old
      · exact .inr ⟨e', List.mem_cons_of_mem _ mem, same⟩

/-- What is behind a node that is selected already. -/
theorem Visits.behind (visits : Visits R rec) {i : Node G} (run : selectBehind rec P i = some P') (inside : R i)
    (closed : ∀ i, R i → ∀ j ∈ P.nextOf i, R j) (here : (P.flags i).selected) :
    Grows R P P' ∧ (∀ j ∈ P.nextOf i, (P'.flags j).selected) ∧
      ∀ m, i = .model m → ∀ e ∈ (G.models m).returns, (P'.flags (.var e.idx)).retedge := by
  cases i with
  | var x =>
    obtain ⟨⟨P₁, need⟩, scan, rfl⟩ := Option.map_eq_some_iff.mp run
    obtain ⟨grows, all⟩ := visits.scan scan closed fun m mem => closed _ inside _ (List.mem_map_of_mem mem)
    refine ⟨grows, fun j mem => ?_, fun m same => by cases same⟩
    obtain ⟨m, taken, rfl⟩ := List.mem_map.mp mem
    exact all m taken
  | model m =>
    obtain ⟨P₁, shadows, run⟩ := Option.bind_eq_some_iff.mp run
    obtain ⟨P₂, params, run⟩ := Option.bind_eq_some_iff.mp run
    cases run
    have next : P.nextOf (.model m) = (((G.models m).shadows.filter fun e => !(P.flags (.var (G.shadows e.idx).xi)).skip).map
        fun e => .var (G.shadows e.idx).xi) ++ (G.models m).params.map fun e => .var e.idx := rfl
    obtain ⟨grows₁, all₁⟩ := visits.shadows shadows closed fun e mem kept => closed _ inside _ (by
      rw [next]
      exact List.mem_append_left _ (List.mem_map.mpr ⟨e, List.mem_filter.mpr ⟨mem, by simpa using kept⟩, rfl⟩))
    obtain ⟨grows₂, all₂⟩ := visits.params params (fun i inside' j mem => closed i inside' j (by rwa [← grows₁.nextOf]))
      fun e mem => closed _ inside _ (by
        rw [next]
        exact List.mem_append_right _ (List.mem_map_of_mem mem))
    obtain ⟨extends', marked, same, origin⟩ := setRetedges (P := P₂) (G.models m).returns
    have grows := grows₁.trans grows₂
    refine ⟨⟨grows.toExtends.trans extends', fun i now fresh j mem => ?_, fun m' now fresh e mem => ?_, fun i now => ?_,
      fun i now => ?_, fun i now => ?_, fun i now => ?_⟩, fun j mem => ?_, fun m' eq => ?_⟩
    · rw [(same i).1] at now
      rw [(same j).1]
      exact grows.closed i now fresh j mem
    · rw [(same _).1] at now
      exact extends'.retedge _ (grows.returned m' now fresh e mem)
    · rw [(same i).1] at now
      exact grows.within i now
    · rw [(same i).1] at now
      rw [(same i).2]
      exact grows.flagged i now
    · rw [(same i).2] at now
      rw [(same i).1]
      exact grows.selects i now
    · rcases origin i now with old | ⟨e, mem, eq⟩
      · rcases grows.returns i old with older | ⟨m', e, mem, eq, selected⟩
        · exact .inl older
        · exact .inr ⟨m', e, mem, eq, by rwa [(same _).1]⟩
      · exact .inr ⟨m, e, mem, eq, by rw [(same _).1]; exact grows.selected _ here⟩
    · rw [(same j).1]
      rw [next] at mem
      rcases List.mem_append.mp mem with shadow | param
      · obtain ⟨e, kept, rfl⟩ := List.mem_map.mp shadow
        obtain ⟨checked, kept⟩ := List.mem_filter.mp kept
        exact grows₂.selected _ (all₁ e checked (by simpa using kept))
      · obtain ⟨e, named, rfl⟩ := List.mem_map.mp param
        exact all₂ e named
    · cases eq
      exact marked

/-- The search keeps its promise. -/
theorem prune_select_visits (R : Node G → Prop) (fuel : Nat) : Visits R (prune_select fuel) := by
  induction fuel with
  | zero =>
    intro P i P' run
    cases run
  | succ fuel ih =>
    intro P i P' run inside closed
    rw [prune_select] at run
    split at run
    · rename_i done
      cases run
      exact ⟨.refl, done⟩
    · rename_i fresh
      have flags (j : Node G) : (P.setSelected i).flags j =
          if j = i then { P.flags j with selected := true, select := true } else P.flags j := by
        simp only [setSelected, setFlags, Function.update_apply]
        split
        · rename_i here
          rw [here]
        · rfl
      have start := setSelected_extends (P := P) i
      have here : ((P.setSelected i).flags i).selected := by rw [flags, if_pos rfl]
      obtain ⟨grows, all, returned⟩ := ih.behind run inside (fun j inside' k mem => closed j inside' k (by rwa [← start.nextOf]))
        here
      have other {j : Node G} (ne : j ≠ i) : (P.setSelected i).flags j = P.flags j := by rw [flags, if_neg ne]
      refine ⟨⟨start.trans grows.toExtends, fun j now old k mem => ?_, fun m now old e mem => ?_, fun j now => ?_, fun j now => ?_,
        fun j now => ?_, fun j now => ?_⟩, grows.selected i here⟩
      · by_cases same : j = i
        · subst same
          exact all k (by rwa [start.nextOf])
        · exact grows.closed j now (by rwa [other same]) k (by rwa [start.nextOf])
      · by_cases same : Node.model m = i
        · exact returned m same.symm e mem
        · exact grows.returned m now (by rwa [other same]) e mem
      · by_cases same : j = i
        · subst same
          exact .inr inside
        · have step := grows.within j now
          rwa [other same] at step
      · by_cases same : j = i
        · subst same
          exact .inr (grows.select _ (by rw [flags, if_pos rfl]))
        · have step := grows.flagged j now
          rwa [other same] at step
      · by_cases same : j = i
        · subst same
          exact .inr (grows.selected _ here)
        · have step := grows.selects j now
          rwa [other same] at step
      · rcases grows.returns j now with old | new
        · left
          rw [flags] at old
          split at old <;> exact old
        · exact .inr new

/-- The first loop of `prune_mark_selects`. -/
theorem markSelects_grows {fuel : Nat} {l : List (Node G)} {Q : Prune G} (ok : l.foldlM (markSelect fuel) Q = .ok P')
    (before : Grows R P Q) (fresh : ∀ i, (P.flags i).selected = false) (start : ∀ i, (P.flags i).select → R i)
    (closed : ∀ i, R i → ∀ j ∈ P.nextOf i, R j) :
    Grows R P P' ∧ ∀ i ∈ l, (Q.flags i).select → (P'.flags i).selected ∧ (P.flags i).skip = false := by
  induction l generalizing Q with
  | nil =>
    cases ok
    exact ⟨before, fun i mem => by cases mem⟩
  | cons i l ih =>
    rw [List.foldlM_cons] at ok
    cases first : markSelect fuel Q i with
    | error stop =>
      rw [first] at ok
      cases ok
    | ok Q₁ =>
      rw [first] at ok
      have step : Grows R Q Q₁ ∧ ((Q.flags i).select → (Q₁.flags i).selected ∧ (P.flags i).skip = false) := by
        unfold markSelect at first
        split at first
        · rename_i flagged
          split at first
          · cases first
          · rename_i kept
            split at first
            · rename_i run
              cases first
              have inside : R i := by
                rcases before.selects i flagged with old | now
                · exact start i old
                · rcases before.within i now with old | inside
                  · rw [fresh] at old
                    cases old
                  · exact inside
              obtain ⟨grows, here⟩ := prune_select_visits R fuel _ _ _ run inside fun j inside' k mem =>
                closed j inside' k (by rwa [← before.nextOf])
              exact ⟨grows, fun _ => ⟨here, by rw [← before.skip]; simpa using kept⟩⟩
            · cases first
        · rename_i unflagged
          cases first
          exact ⟨.refl, fun flagged => absurd flagged unflagged⟩
      obtain ⟨grows, here⟩ := step
      obtain ⟨all, each⟩ := ih ok (before.trans grows)
      refine ⟨all, fun j mem flagged => ?_⟩
      rcases List.mem_cons.mp mem with rfl | mem
      · obtain ⟨selected, kept⟩ := here flagged
        -- what the turn selects stays selected
        exact ⟨(markSelects_extends ok).selected _ selected, kept⟩
      · exact each j mem (grows.select j flagged)

/-! ## The state after the main loop -/

variable {priced : G.Priced} {S : Scope G}

theorem sublist_filter {α : Type*} {p q : α → Bool} (l : List α) (imp : ∀ a ∈ l, p a → q a) : (l.filter p).Sublist (l.filter q) := by
  have both : (l.filter q).filter p = l.filter p := by
    rw [List.filter_filter]
    refine List.filter_congr fun a mem => ?_
    cases here : p a with
    | true => simp [imp a mem here]
    | false => rfl
  rw [← both]
  exact List.filter_sublist

theorem gray_needs (m : Fin G.nm) : (G.needs .GRAY m).Sublist (G.needs .BLACK m) :=
  (sublist_filter _ fun e _ _ => by simp [Graph.counts]).map _

theorem gray_penalties (priced : G.Priced) (m : Fin G.nm) : G.penalties S .GRAY m ≤ G.penalties S .BLACK m := by
  refine ((sublist_filter _ fun e _ _ => by simp).map ShEdge.penalty).sum_le_sum fun t mem => ?_
  obtain ⟨e, kept, rfl⟩ := List.mem_map.mp mem
  exact (priced m).penalty_nonneg e (List.mem_filter.mp kept).1

/-- Less is needed for the low bound than for the high one. -/
theorem modelBound_gray_le (priced : G.Priced) {m : Fin G.nm} {f g : Fin G.nv → Cost} (le : ∀ u ∈ G.needs .GRAY m, f u ≤ g u)
    (nonneg : ∀ u ∈ G.needs .BLACK m, 0 ≤ g u) : G.modelBound S .GRAY m f ≤ G.modelBound S .BLACK m g := by
  refine (priced m).costf_mono (add_le_add ((Cost.sum_map_mono _ le).trans ?_) (gray_penalties priced m))
  refine ((gray_needs m).map g).sum_le_sum fun t mem => ?_
  obtain ⟨u, need, rfl⟩ := List.mem_map.mp mem
  exact nonneg u need

theorem gray_derives {x : Fin G.nv} {t : Cost} (derived : (G.boundSystem priced S .BLACK).Derives x t) :
    ∃ t', (G.boundSystem priced S .GRAY).Derives x t' ∧ t' ≤ t := by
  refine derived.transfer (fun v w => v = w) ?_ rfl
  rintro v _ s f rfl alt derives cheaper
  cases s with
  | none => exact ⟨0, .intro v none (fun _ => 0) (Graph.mem_sources_none.mpr (Graph.mem_sources_none.mp alt))
      (fun u need => by cases need), le_rfl⟩
  | some m =>
    obtain ⟨ungiven, kept, reach⟩ := Graph.mem_sources.mp alt
    have reach' : v ∈ G.reaches .GRAY m := by
      obtain ⟨e, mem, same⟩ := List.mem_map.mp reach
      exact List.mem_map.mpr ⟨e, List.mem_filter.mpr ⟨(List.mem_filter.mp mem).1, by simp [Graph.covers]⟩, same⟩
    have each (u : Fin G.nv) (need : u ∈ G.needs .GRAY m) : ∃ t, (G.boundSystem priced S .GRAY).Derives u t ∧ t ≤ f u :=
      cheaper u ((gray_needs m).mem need) u rfl
    choose! g derives' le using each
    refine ⟨_, .intro v (some m) g (Graph.mem_sources.mpr ⟨ungiven, kept, reach'⟩) derives', ?_⟩
    exact modelBound_gray_le priced le fun u need => Graph.bound_nonneg priced (derives u need)

theorem Solved.nonneg (solved : Solved priced S P) (x : Fin G.nv) (c : Color) : 0 ≤ P.finalBound (.var x) c := by
  rcases solved.least x c with least | ⟨-, top⟩
  · exact Graph.bound_nonneg priced least.1
  · rw [top]
    exact le_top

/-- The low bound is at most the high bound. -/
theorem Solved.gray_le_black (solved : Solved priced S P) (x : Fin G.nv) :
    P.finalBound (.var x) .GRAY ≤ P.finalBound (.var x) .BLACK := by
  rcases solved.least x .BLACK with least | ⟨-, top⟩
  · obtain ⟨t, derived, le⟩ := gray_derives least.1
    rcases solved.least x .GRAY with least' | ⟨none_derived, -⟩
    · exact (least'.2 derived).trans le
    · exact absurd derived (Set.eq_empty_iff_forall_notMem.mp none_derived t)
  · rw [top]
    exact le_top

/-- The final bounds are those of the equations. -/
theorem Solved.finalBound_eq (solved : Solved priced S P) (i : Node G) (c : Color) :
    P.finalBound i c = S.bounds priced (i, c) := by
  have vars (x : Fin G.nv) : P.finalBound (.var x) c = (G.boundSystem priced S c).opt x := by
    rcases solved.least x c with least | ⟨none_derived, top⟩
    · exact ((G.boundSystem priced S c).opt_eq least).symm
    · rw [top, AndOr.opt, dif_neg]
      rintro ⟨t, least⟩
      exact Set.eq_empty_iff_forall_notMem.mp none_derived t least.1
  cases i with
  | var x => exact vars x
  | model m =>
    rw [Scope.bounds]
    split
    · rename_i skipped
      refine if_neg fun colored => ?_
      rw [((solved.models m c).mp colored).1] at skipped
      cases skipped
    · rename_i kept
      rw [solved.model_eq c (by simpa using kept), ← funext vars]

/-- A model that a variable takes can be reached. -/
theorem Solved.taken_finite (solved : Solved priced S P) {beta : Cost} {l : List (Edge G.nm)} {need : Bool} {m : Fin G.nm}
    (below : need → beta < ⊤) (mem : m ∈ Graph.taken (S.bounds priced) beta need l) :
    S.bounds priced (.model m, .GRAY) ≠ ⊤ := by
  induction l generalizing need with
  | nil => cases mem
  | cons e l ih =>
    rw [Graph.taken] at mem
    split at mem
    · rename_i picked
      rcases List.mem_cons.mp mem with rfl | mem
      · unfold takes at picked
        simp only [Bool.decide_or, Bool.decide_and, Bool.or_eq_true, Bool.and_eq_true, decide_eq_true_eq] at picked
        rcases picked with less | ⟨needed, attains⟩
        · exact less.ne_top
        · intro top
          have finite := below needed
          rw [← attains, ← solved.finalBound_eq] at finite
          have kept : S.skip (.model e.idx) = false := by
            by_contra skipped
            rw [solved.finalBound_eq, Scope.bounds, if_pos (by simpa using skipped)] at finite
            exact lt_irrefl _ finite
          have le : P.finalBound (.model e.idx) .GRAY ≤ P.finalBound (.model e.idx) .BLACK := by
            rw [solved.model_eq _ kept, solved.model_eq _ kept]
            exact modelBound_gray_le priced (fun u _ => solved.gray_le_black u) fun u _ => solved.nonneg u .BLACK
          rw [solved.finalBound_eq _ .GRAY, top] at le
          exact absurd (lt_of_le_of_lt le finite) (lt_irrefl _)
      · refine ih (fun still => below ?_) mem
        simp only [Bool.and_eq_true] at still
        exact still.1
    · exact ih below mem

/-! ## Clean selections -/

theorem insertConstmods_plain (l : List (Fin G.nm)) (i : Node G) :
    ((l.foldl insertConstmod P).flags i).plain = (P.flags i).plain := by
  have const (Q : Prune G) (m : Fin G.nm) (c : Color) : ((Q.insertConst m c).flags i).plain = (Q.flags i).plain := by
    unfold insertConst
    split
    · exact (prune_bound_model_vars m c).plain i
    · rfl
  induction l generalizing P with
  | nil => rfl
  | cons m l ih =>
    rw [List.foldl_cons, ih, insertConstmod]
    split
    · rfl
    · rw [const, const]

theorem propagateStep_plain (step : P.propagateStep = some P') (i : Node G) : (P'.flags i).plain = (P.flags i).plain := by
  obtain ⟨-, rfl⟩ := propagateStep_some step
  rw [prune_bound_var]
  split
  · rfl
  · exact ((foldl_boundFwd_vars _ _ _).plain i).trans mark_plain

/-- The flags of selection before the search. -/
theorem start_flags {fuel : Nat} {P₁ P₂ : Prune G} (linked : G.Linked)
    (given : P.prune_mark_given.prune_mark_skips.prune_init_mstate.prune_insert_given = .ok P₁)
    (run : Run.untilHalt propagateStep fuel P₁.prune_insert_constmods = some P₂) (i : Node G) :
    (P₂.prune_mark_unreachable.flags i).select = (P.flags i).select ∧
      (P₂.prune_mark_unreachable.flags i).selected = (P.flags i).selected ∧
      (P₂.prune_mark_unreachable.flags i).retedge = (P.flags i).retedge := by
  have marks := (marked (P := P) linked).flags i
  have inserted : P₁.flags i = { P.flags i with skip := (P.flags i).skip || P.scope.skip i } := by
    rw [(prune_insert_given_ok given).marks.flags]
    exact marks
  have looped : (P₂.flags i).plain = (P₁.prune_insert_constmods.flags i).plain :=
    (Run.untilHalt_reaches run).1.invariant (I := fun Q => (Q.flags i).plain = (P₁.prune_insert_constmods.flags i).plain)
      (fun _ _ same step => (propagateStep_plain step i).trans same) rfl
  have plain : (P₂.flags i).plain = (P₁.flags i).plain := looped.trans (insertConstmods_plain _ i)
  rw [inserted] at plain
  rw [(prune_mark_unreachable_spec P₂ i).flags]
  have select := congrArg NodeFlags.select plain
  have selected := congrArg NodeFlags.selected plain
  have retedge := congrArg NodeFlags.retedge plain
  exact ⟨select, selected, retedge⟩

/-- No node is selected and skipped, and what a selected model refers to is selected. -/
structure Clean (P : Prune G) : Prop where
  disjoint : ∀ i, ¬ ((P.flags i).select ∧ (P.flags i).skip)
  params : ∀ m, (P.flags (.model m)).select → ∀ e ∈ (G.models m).params, (P.flags (.var e.idx)).select
  returns : ∀ m, (P.flags (.model m)).select → ∀ e ∈ (G.models m).returns, (P.flags (.var e.idx)).select
  shadows : ∀ m, (P.flags (.model m)).select → ∀ e ∈ (G.models m).shadows, (P.flags (.var (G.shadows e.idx).xi)).select

/-- The parameters and the shadow variables of a model can be reached. -/
def Supplied (dead : Node G → Bool) (m : Fin G.nm) : Prop :=
  (∀ e ∈ (G.models m).params, dead (.var e.idx) = false) ∧
    ∀ e ∈ (G.models m).shadows, dead (.var (G.shadows e.idx).xi) = false

theorem selectRetedges {l : List (Fin G.nv)} (nodup : l.Nodup) (i : Node G) : (l.foldl selectRetedge P).flags i =
    { P.flags i with select := (P.flags i).select || decide (∃ x ∈ l, i = .var x ∧ (P.flags i).retedge) } := by
  induction l generalizing P with
  | nil => simp
  | cons x l ih =>
    obtain ⟨not_mem, nodup⟩ := List.nodup_cons.mp nodup
    rw [List.foldl_cons, ih nodup]
    by_cases here : i = .var x
    · subst here
      have later : ¬ ∃ y ∈ l, Node.var (G := G) x = .var y ∧ (P.flags (.var x)).retedge := by
        rintro ⟨y, mem, same, -⟩
        cases same
        exact not_mem mem
      unfold selectRetedge
      split
      · rename_i marked
        simp [setFlags, marked]
      · rename_i unmarked
        simp [unmarked]
    · have kept : (selectRetedge P x).flags i = P.flags i := by
        unfold selectRetedge
        split
        · exact Function.update_of_ne here _ _
        · rfl
      simp [kept, here]

/-- The nodes that a run keeps. -/
def Keep (priced : G.Priced) (P : Prune G) : Node G → Prop :=
  Graph.Kept (P.scope.bounds priced) (P.scope.dead priced) fun i => (P.flags i).select

/-- What a run that succeeds leaves: the bounds of the equations, the dead nodes skipped, and the kept nodes
selected, next to what the kept models return. -/
structure Selection (priced : G.Priced) (P P' : Prune G) : Prop where
  bound : P'.bound = P.scope.bounds priced
  dead : ∀ i, (P'.flags i).skip = P.scope.dead priced i
  flagged : ∀ i, (P.flags i).select → P.scope.dead priced i = false
  alive : ∀ m, P.Keep priced (.model m) → P.scope.dead priced (.model m) = false
  model : ∀ m, (P'.flags (.model m)).select ↔ P.Keep priced (.model m)
  var : ∀ x, (P'.flags (.var x)).select ↔
    P.Keep priced (.var x) ∨ ∃ m, P.Keep priced (.model m) ∧ ∃ e ∈ (G.models m).returns, e.idx = x

theorem reached_model (m : Fin G.nm) (finite : P.scope.bounds priced (.model m, .GRAY) ≠ ⊤) :
    P.scope.dead priced (.model m) = false := by
  rw [Scope.dead, Bool.or_eq_false_iff]
  refine ⟨?_, decide_eq_false finite⟩
  by_contra skipped
  exact finite (by rw [Scope.bounds, if_pos (by simpa using skipped)])

theorem selection_of_run (priced : G.Priced) (linked : G.Linked) (fresh : P.Fresh) {fuel : Nat} (ok : P.fhk_prune_run fuel = .ok P') :
    Selection priced P P' := by
  obtain ⟨P₁, P₂, Q, given, run, selects, rfl⟩ := fhk_prune_run_ok ok
  have solved : Solved priced P.scope P₂ := solved_of_run linked fresh given run
  have start (i : Node G) := start_flags linked given run i
  have bound : P₂.prune_mark_unreachable.bound = P.scope.bounds priced := by
    funext ⟨i, c⟩
    rw [(prune_mark_unreachable_spec P₂ i).bound, solved.finalBound_eq]
  have skip (i : Node G) : (P₂.prune_mark_unreachable.flags i).skip = P.scope.dead priced i := by
    rw [(prune_mark_unreachable_spec P₂ i).flags, Scope.dead]
    simp only [solved.skip, solved.finalBound_eq]
  generalize P₂.prune_mark_unreachable = U at start bound skip selects
  have next (i : Node G) : U.nextOf i = Graph.next (P.scope.bounds priced) (P.scope.dead priced) i := by
    rw [nextOf, bound, funext skip]
  have unselected (i : Node G) : (U.flags i).selected = false := by
    rw [(start i).2.1, (fresh.flags i).2.1]
  obtain ⟨grows, visited⟩ := markSelects_grows (R := P.Keep priced) selects .refl unselected
    (fun i flag => .flag (by rwa [(start i).1] at flag)) fun i inside j mem => .along inside (by rwa [← next])
  -- the nodes that the search selects are the kept ones
  have selected (i : Node G) : (Q.flags i).selected ↔ P.Keep priced i := by
    constructor
    · intro now
      rcases grows.within i now with old | inside
      · rw [unselected] at old
        cases old
      · exact inside
    · intro inside
      induction inside with
      | flag flag => exact (visited _ (mem_nodes _) (by rwa [(start _).1])).1
      | along _ mem ih => exact grows.closed _ ih (by simp [unselected]) _ (by rwa [next])
  have flags (i : Node G) := selectRetedges (P := Q) (List.nodup_finRange G.nv) i
  have select (i : Node G) : (((List.finRange G.nv).foldl selectRetedge Q).flags i).select ↔
      P.Keep priced i ∨ ∃ x, i = .var x ∧ (Q.flags i).retedge := by
    rw [flags]
    simp only [Bool.or_eq_true, decide_eq_true_eq, List.mem_finRange, true_and]
    refine or_congr_left ⟨fun flag => ?_, fun inside => ?_⟩
    · rcases grows.selects i flag with old | now
      · exact .flag (by rwa [(start i).1] at old)
      · exact (selected i).mp now
    · rcases grows.flagged i ((selected i).mpr inside) with old | flag
      · rw [unselected] at old
        cases old
      · exact flag
  have flagged (i : Node G) (flag : (P.flags i).select) : P.scope.dead priced i = false := by
    rw [← skip, (visited _ (mem_nodes _) (by rwa [(start _).1])).2]
  constructor
  · have last := (foldl_extends (fun P x => selectRetedge_extends (P := P) x) (List.finRange G.nv) (P := Q)).bound
    rw [last, (markSelects_extends selects).bound, bound]
  · intro i
    rw [flags, ← skip]
    exact grows.skip i
  · exact flagged
  · intro m inside
    cases inside with
    | flag flag => exact flagged _ flag
    | @along i j _ mem =>
      cases i with
      | var x =>
        obtain ⟨m', taken, same⟩ := List.mem_map.mp mem
        cases same
        exact reached_model m (solved.taken_finite of_decide_eq_true taken)
      | model m' =>
        rcases List.mem_append.mp mem with shadow | param
        · obtain ⟨e, -, same⟩ := List.mem_map.mp shadow
          cases same
        · obtain ⟨e, -, same⟩ := List.mem_map.mp param
          cases same
  · intro m
    rw [select]
    simp
  · intro x
    rw [select]
    apply or_congr_right
    constructor
    · rintro ⟨-, -, marked⟩
      rcases grows.returns _ marked with old | ⟨m, e, mem, same, now⟩
      · rw [(start _).2.2, (fresh.flags _).2.2] at old
        cases old
      · cases same
        exact ⟨m, (selected _).mp now, e, mem, rfl⟩
    · rintro ⟨m, inside, e, mem, rfl⟩
      exact ⟨e.idx, rfl, grows.returned m ((selected _).mpr inside) (by simp [unselected]) e mem⟩

theorem Keep.param {m : Fin G.nm} (inside : P.Keep priced (.model m)) {e : Edge G.nv} (mem : e ∈ (G.models m).params) :
    P.Keep priced (.var e.idx) :=
  .along inside (List.mem_append_right _ (List.mem_map_of_mem mem))

/-- A run that succeeds leaves a clean selection exactly where the parameters and the shadow variables of
all kept models can be reached. -/
theorem fhk_prune_run_clean (priced : G.Priced) (linked : G.Linked) (P : Prune G) (fresh : P.Fresh) (fuel : Nat) (P' : Prune G)
    (ok : P.fhk_prune_run fuel = .ok P') : P'.Clean ↔ ∀ m,
      Graph.Kept (P.scope.bounds priced) (P.scope.dead priced) (fun i => (P.flags i).select) (.model m) →
        Supplied (P.scope.dead priced) m := by
  have selection := selection_of_run priced linked fresh ok
  obtain ⟨P₁, P₂, Q, given, run, -, -⟩ := fhk_prune_run_ok ok
  have solved : Solved priced P.scope P₂ := solved_of_run linked fresh given run
  constructor
  · intro clean m inside
    have alive {i : Node G} (flag : (P'.flags i).select) : P.scope.dead priced i = false := by
      rw [← selection.dead]
      by_contra skipped
      exact clean.disjoint i ⟨flag, by simpa using skipped⟩
    have here := (selection.model m).mpr inside
    exact ⟨fun e mem => alive (clean.params m here e mem), fun e mem => alive (clean.shadows m here e mem)⟩
  · intro supplied
    have alive {i : Node G} (inside : P.Keep priced i) : P.scope.dead priced i = false := by
      cases inside with
      | flag flag => exact selection.flagged _ flag
      | @along i j inside mem =>
        cases i with
        | var x =>
          obtain ⟨m, taken, rfl⟩ := List.mem_map.mp mem
          exact selection.alive m (.along inside (List.mem_map_of_mem taken))
        | model m =>
          rcases List.mem_append.mp mem with shadow | param
          · obtain ⟨e, checked, rfl⟩ := List.mem_map.mp shadow
            simpa using (List.mem_filter.mp checked).2
          · obtain ⟨e, named, rfl⟩ := List.mem_map.mp param
            exact (supplied m inside).1 e named
    have alive_return {m : Fin G.nm} (inside : P.Keep priced (.model m)) {e : Edge G.nv} (mem : e ∈ (G.models m).returns) :
        P.scope.dead priced (.var e.idx) = false := by
      have model := alive inside
      rw [Scope.dead, Bool.or_eq_false_iff] at model
      obtain ⟨unskipped, finite⟩ := model
      have reach : e.idx ∈ G.reaches .GRAY m :=
        List.mem_map.mpr ⟨e, List.mem_filter.mpr ⟨mem, by simp [Graph.covers]⟩, rfl⟩
      have ungiven := scope_apart (P := P) .GRAY m unskipped e.idx reach
      have le := solved.le_source (Graph.mem_sources.mpr ⟨ungiven, unskipped, reach⟩)
      rw [Graph.sourceBound, ← solved.model_eq .GRAY unskipped, solved.finalBound_eq, solved.finalBound_eq] at le
      rw [Scope.dead, Bool.or_eq_false_iff]
      refine ⟨?_, decide_eq_false fun top => of_decide_eq_false finite (top_le_iff.mp (top ▸ le))⟩
      simp only [scope, Bool.or_eq_false_iff, List.any_eq_false, Bool.not_eq_true] at unskipped
      exact (unskipped.1.2 e mem).2
    constructor
    · rintro i ⟨flag, skipped⟩
      rw [selection.dead] at skipped
      cases i with
      | var x =>
        rcases (selection.var x).mp flag with inside | ⟨m, inside, e, mem, rfl⟩
        · rw [alive inside] at skipped
          cases skipped
        · rw [alive_return inside mem] at skipped
          cases skipped
      | model m =>
        rw [alive ((selection.model m).mp flag)] at skipped
        cases skipped
    · intro m here e mem
      exact (selection.var _).mpr (.inl (Keep.param ((selection.model m).mp here) mem))
    · intro m here e mem
      exact (selection.var _).mpr (.inr ⟨m, (selection.model m).mp here, e, mem, rfl⟩)
    · intro m here e mem
      have inside := (selection.model m).mp here
      apply (selection.var _).mpr
      apply Or.inl
      apply Graph.Kept.along inside
      apply List.mem_append_left
      exact List.mem_map.mpr ⟨e, List.mem_filter.mpr ⟨mem, by simp [(supplied m inside).2 e mem]⟩, rfl⟩

end Prune
namespace OneReturn

/-- One model that returns the second variable, with parameters and checks on the first. -/
def graph (params : List (Edge 2)) (shadows : List (ShEdge 1)) : Graph where
  nv := 2
  nm := 1
  nw := 1
  ng := 1
  vars x := if x.val = 0 then ⟨[], params.map fun _ => ⟨⟨0, Nat.one_pos⟩, -1, 0⟩, 0, 8⟩
    else ⟨[⟨⟨0, Nat.one_pos⟩, MAP_IDENT, 0⟩], [], 0, 8⟩
  models _ := ⟨0, shadows, params, 0, [⟨⟨1, Nat.one_lt_two⟩, MAP_IDENT, 0⟩], true, 1, 1, 0⟩
  shadows _ := ⟨⟨0, Nat.two_pos⟩, 0⟩

/-- The second variable is selected, and the first one skipped or not. -/
def start (params : List (Edge 2)) (shadows : List (ShEdge 1)) (skip : Bool) : Prune (graph params shadows) where
  flags
    | .var x => ⟨false, decide (x.val = 0) && skip, decide (x.val = 1), fun _ => false, false, false⟩
    | .model _ => ⟨false, false, false, fun _ => false, false, false⟩
  bound _ := 0
  p_miss _ := 0
  heap := ⟨0, fun _ => ⟨0, .GRAY, (⟨0, Nat.two_pos⟩ : Fin 2)⟩⟩

theorem start_fresh (params : List (Edge 2)) (shadows : List (ShEdge 1)) (skip : Bool) : (start params shadows skip).Fresh :=
  ⟨fun i => by cases i <;> exact ⟨rfl, rfl, rfl⟩, fun _ => rfl, rfl⟩

theorem priced_bare : (graph [] []).Priced := fun _ =>
  ⟨show (0 : ℚ) ≤ 1 by decide, show (1 : ℚ) ≤ 1 by decide, fun e mem => by cases mem⟩

theorem linked_bare : (graph [] []).Linked := by
  have fwds : ∀ (x : Fin 2) (m : Fin 1), ((graph [] []).vars x).fwds.countP (fun e => e.idx = m) =
      ((graph [] []).models m).params.countP fun e => e.idx = x := by decide
  have models : ∀ (x : Fin 2) (m : Fin 1), ((graph [] []).vars x).models.any (fun e => decide (e.idx.val = m.val)) =
      ((graph [] []).models m).returns.any fun e => decide (e.idx.val = x.val) := by decide
  have counted : ∀ (x : Fin 2) (m : Fin 1),
      ((graph [] []).vars x).fwds.countP (fun e => e.idx = m ∧ (graph [] []).xnonempty e.map) =
        ((graph [] []).models m).params.countP fun e => e.idx = x ∧ (graph [] []).xnonempty e.map := by decide
  exact ⟨⟨fwds, fun x m => Graph.models_iff_of_any (models x m), fun _ => (by decide : 0 < 256)⟩, counted⟩

theorem fhk_prune_run_clean_bare : ∃ P', (start [] [] false).fhk_prune_run 9 = .ok P' ∧ (P'.Clean ↔ ∀ m,
    Graph.Kept ((start [] [] false).scope.bounds priced_bare) ((start [] [] false).scope.dead priced_bare)
      (fun i => ((start [] [] false).flags i).select) (.model m) →
      Prune.Supplied ((start [] [] false).scope.dead priced_bare) m) := by
  have computed : (match (start [] [] false).fhk_prune_run 9 with
    | .ok _ => true
    | .error _ => false) = true := by decide +kernel
  split at computed
  · rename_i P' run
    exact ⟨P', run, Prune.fhk_prune_run_clean priced_bare linked_bare _ (start_fresh [] [] false) 9 P' run⟩
  · cases computed

/-- A parameter behind a user map that cannot be reached is selected and skipped; a skipped variable of a
shadow is left out of the selection. -/
theorem not_clean : (∃ P', (start [⟨0, 1, 0⟩] [] false).fhk_prune_run 9 = .ok P' ∧ ¬ P'.Clean) ∧
    ∃ P', (start [] [⟨0, MAP_IDENT, false, 5⟩] true).fhk_prune_run 9 = .ok P' ∧ ¬ P'.Clean := by
  constructor
  · have computed : (match (start [⟨0, 1, 0⟩] [] false).fhk_prune_run 9 with
      | .ok P' => (P'.flags (.var (0 : Fin 2))).select && (P'.flags (.var (0 : Fin 2))).skip
      | .error _ => false) = true := by decide +kernel
    split at computed
    · rename_i P' run
      exact ⟨P', run, fun clean => clean.disjoint _ (Bool.and_eq_true_iff.mp computed)⟩
    · cases computed
  · have computed : (match (start [] [⟨0, MAP_IDENT, false, 5⟩] true).fhk_prune_run 9 with
      | .ok P' => (P'.flags (.model (0 : Fin 1))).select && !(P'.flags (.var (0 : Fin 2))).select
      | .error _ => false) = true := by decide +kernel
    split at computed
    · rename_i P' run
      refine ⟨P', run, fun clean => ?_⟩
      obtain ⟨model, var⟩ := Bool.and_eq_true_iff.mp computed
      have select : (P'.flags (.var (0 : Fin 2))).select = true := clean.shadows (0 : Fin 1) model _ List.mem_cons_self
      rw [select] at var
      cases var
    · cases computed

end OneReturn
end M2.Fhk
