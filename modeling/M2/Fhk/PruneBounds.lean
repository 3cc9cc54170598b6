import M2.Fhk.PruneSelect

/-!
# The bounds of a run

A run that succeeds leaves the least solution of the equations of both bounds, where a solution counts
finite derivations only: a cycle that costs nothing does not hold itself up.
-/
namespace M2.Fhk
open M2.Lib

/-- The bounds solve the equations of the scope, and are the costs of cheapest derivations. -/
structure Scope.LeastSolution {G : Graph} (priced : G.Priced) (S : Scope G) (color : Color) (b : Node G → Cost) : Prop where
  given : ∀ x, S.given x → b (.var x) = 0
  var : ∀ x, S.given x = false → b (.var x) = AndOr.listMin
    (((List.finRange G.nm).filter fun m => !S.skip (.model m) ∧ x ∈ G.reaches color m).map fun m => b (.model m))
  model : ∀ m, S.skip (.model m) = false → b (.model m) = G.modelBound S color m fun x => b (.var x)
  least : ∀ x, IsLeast ((G.boundSystem priced S color).costs x) (b (.var x)) ∨
    ((G.boundSystem priced S color).costs x = ∅ ∧ b (.var x) = ⊤)

namespace Prune
variable {G : Graph} {priced : G.Priced} {S : Scope G} {P P' : Prune G}

/-! ## Unreachable nodes -/

/-- The bound of a node in the end. -/
def finalBound (P : Prune G) (i : Node G) (c : Color) : Cost := if P.Colored i c then P.bound (i, c) else ⊤

/-- What `prune_mark_unreachable` makes of a node. -/
structure Finishes (P P' : Prune G) (i : Node G) : Prop where
  bound : ∀ c, P'.bound (i, c) = P.finalBound i c
  flags : P'.flags i = { P.flags i with skip := (P.flags i).skip || decide (P.finalBound i .GRAY = ⊤) }

/-- The node is left alone. -/
structure Keeps (P P' : Prune G) (i : Node G) : Prop where
  bound : ∀ c, P'.bound (i, c) = P.bound (i, c)
  flags : P'.flags i = P.flags i

theorem markUnreachable_spec (P : Prune G) (i : Node G) :
    Finishes P (markUnreachable P i) i ∧ ∀ j, j ≠ i → Keeps P (markUnreachable P i) j := by
  -- the bounds first, then the flag
  let P₁ : Prune G := if (P.flags i).color .GRAY then P else P.setBound i .GRAY ⊤
  let P₂ : Prune G := if (P₁.flags i).color .BLACK then P₁ else P₁.setBound i .BLACK ⊤
  have flags₁ : P₁.flags = P.flags := by
    simp only [P₁]
    split <;> rfl
  have flags₂ : P₂.flags = P.flags := by
    rw [← flags₁]
    simp only [P₂]
    split <;> rfl
  have bound₁ (j : Node G) (c : Color) : P₁.bound (j, c) =
      if j = i ∧ c = .GRAY then P.finalBound i .GRAY else P.bound (j, c) := by
    simp only [P₁, finalBound, Colored]
    by_cases here : j = i ∧ c = .GRAY
    · obtain ⟨rfl, rfl⟩ := here
      split <;> simp_all [setBound]
    · rw [if_neg here]
      split
      · rfl
      · exact Function.update_of_ne (by simpa using here) _ _
  have bound₂ (j : Node G) (c : Color) : P₂.bound (j, c) = if j = i then P.finalBound i c else P.bound (j, c) := by
    simp only [P₂, flags₁]
    by_cases here : j = i
    · subst here
      rw [if_pos rfl]
      cases c with
      | GRAY =>
        split
        · simp [bound₁]
        · simp [setBound, bound₁]
      | BLACK =>
        split
        · rename_i black
          simp [bound₁, finalBound, Colored, black]
        · rename_i black
          simp [setBound, finalBound, Colored, black]
    · rw [if_neg here]
      split
      · simp [bound₁, here]
      · simp [setBound, bound₁, here]
  have unfolded : markUnreachable P i =
      if P₂.bound (i, .GRAY) = ⊤ then P₂.setFlags i fun F => { F with skip := true } else P₂ := rfl
  rw [unfolded]
  have gray := bound₂ i .GRAY
  rw [if_pos rfl] at gray
  split
  · rename_i top
    refine ⟨⟨fun c => (bound₂ i c).trans (if_pos rfl), ?_⟩, fun j ne => ⟨fun c => (bound₂ j c).trans (if_neg ne), ?_⟩⟩
    · rw [← gray, top]
      simp [setFlags, flags₂]
    · simp [setFlags, flags₂, ne]
  · rename_i finite
    refine ⟨⟨fun c => (bound₂ i c).trans (if_pos rfl), ?_⟩, fun j ne => ⟨fun c => (bound₂ j c).trans (if_neg ne), ?_⟩⟩
    · rw [← gray, flags₂]
      simp [finite]
    · rw [flags₂]

theorem markUnreachables {l : List (Node G)} (nodup : l.Nodup) :
    (∀ i ∈ l, Finishes P (l.foldl markUnreachable P) i) ∧ ∀ i ∉ l, Keeps P (l.foldl markUnreachable P) i := by
  induction l generalizing P with
  | nil => exact ⟨fun i mem => absurd mem List.not_mem_nil, fun i _ => ⟨fun _ => rfl, rfl⟩⟩
  | cons i l ih =>
    obtain ⟨not_mem, nodup⟩ := List.nodup_cons.mp nodup
    obtain ⟨here, others⟩ := markUnreachable_spec P i
    obtain ⟨later, kept⟩ := ih (P := markUnreachable P i) nodup
    rw [List.foldl_cons]
    refine ⟨fun j mem => ?_, fun j not_mem' => ?_⟩
    · by_cases same : j = i
      · subst same
        have kept := kept j not_mem
        exact ⟨fun c => (kept.bound c).trans (here.bound c), kept.flags.trans here.flags⟩
      · have later := later j ((List.mem_cons.mp mem).resolve_left same)
        have before := others j same
        have final (c : Color) : (markUnreachable P i).finalBound j c = P.finalBound j c := by
          refine if_congr ?_ (before.bound c) rfl
          rw [Colored, Colored, before.flags]
        exact ⟨fun c => (later.bound c).trans (final c), by rw [later.flags, before.flags, final]⟩
    · have ne : j ≠ i := fun same => not_mem' (same ▸ List.mem_cons_self)
      have before := others j ne
      have after := kept j fun mem => not_mem' (List.mem_cons_of_mem i mem)
      exact ⟨fun c => (after.bound c).trans (before.bound c), after.flags.trans before.flags⟩

theorem nodup_nodes : (nodes G).Nodup := by
  refine List.Nodup.append ?_ ?_ ?_
  · exact (List.nodup_reverse.mpr (List.nodup_finRange _)).map fun a b same => by simpa using same
  · exact (List.nodup_finRange _).map fun a b same => by simpa using same
  · intro i model var
    obtain ⟨m, -, rfl⟩ := List.mem_map.mp model
    obtain ⟨x, -, same⟩ := List.mem_map.mp var
    cases same

theorem prune_mark_unreachable_spec (P : Prune G) (i : Node G) : Finishes P P.prune_mark_unreachable i :=
  (markUnreachables nodup_nodes).1 i (mem_nodes i)

/-! ## The equations -/

theorem Solved.uncolored_top (solved : Solved priced S P) {m : Fin G.nm} {c : Color} (kept : S.skip (.model m) = false)
    (uncolored : ¬ P.Colored (.model m) c) : G.modelBound S c m (fun x => P.finalBound (.var x) c) = ⊤ := by
  have missing : ∃ u ∈ G.needs c m, ¬ P.Colored (.var u) c := by
    by_contra all
    push Not at all
    exact uncolored ((solved.models m c).mpr ⟨kept, all⟩)
  obtain ⟨u, need, missing⟩ := missing
  have top : ((G.needs c m).map fun x => P.finalBound (.var x) c).sum = ⊤ := by
    refine Cost.sum_eq_top (List.mem_map.mpr ⟨u, need, ?_⟩)
    rw [finalBound, if_neg missing]
  rw [Graph.modelBound, top, top_add]
  rfl

theorem Solved.model_eq (solved : Solved priced S P) {m : Fin G.nm} (c : Color) (kept : S.skip (.model m) = false) :
    P.finalBound (.model m) c = G.modelBound S c m fun x => P.finalBound (.var x) c := by
  by_cases colored : P.Colored (.model m) c
  · have same (x : Fin G.nv) (need : x ∈ G.needs c m) : P.finalBound (.var x) c = P.varBound c x :=
      if_pos (((solved.models m c).mp colored).2 x need)
    rw [finalBound, if_pos colored, solved.value m c colored, Graph.modelBound, Graph.modelBound, List.map_congr_left same]
  · rw [finalBound, if_neg colored, solved.uncolored_top kept colored]

theorem Solved.least (solved : Solved priced S P) (x : Fin G.nv) (c : Color) :
    IsLeast ((G.boundSystem priced S c).costs x) (P.finalBound (.var x) c) ∨
      ((G.boundSystem priced S c).costs x = ∅ ∧ P.finalBound (.var x) c = ⊤) := by
  by_cases colored : P.Colored (.var x) c
  · left
    rw [finalBound, if_pos colored]
    exact solved.exact x c colored
  · right
    refine ⟨Set.eq_empty_iff_forall_notMem.mpr fun t derived => ?_, if_neg colored⟩
    exact colored (solved.underived x c t derived)

/-- The cost of a source under the final bounds is no less than the bound of its variable. -/
theorem Solved.le_source (solved : Solved priced S P) {x : Fin G.nv} {c : Color} {s : Option (Fin G.nm)}
    (source : s ∈ G.sources S c x) :
    P.finalBound (.var x) c ≤ G.sourceBound S c (fun y => P.finalBound (.var y) c) s := by
  by_cases all : ∀ u ∈ G.sourceNeeds c s, P.Colored (.var u) c
  · have derived : (G.boundSystem priced S c).Derives x (G.sourceBound S c (fun y => P.finalBound (.var y) c) s) := by
      refine AndOr.Derives.intro _ s _ source fun u need => ?_
      rw [finalBound, if_pos (all u need)]
      exact (solved.exact u c (all u need)).1
    rcases solved.least x c with least | ⟨none_derived, -⟩
    · exact least.2 derived
    · exact absurd derived (Set.eq_empty_iff_forall_notMem.mp none_derived _)
  · cases s with
    | none => exact absurd (fun u need => by cases need) all
    | some m =>
      obtain ⟨-, kept, -⟩ := Graph.mem_sources.mp source
      have uncolored : ¬ P.Colored (.model m) c := fun colored => all ((solved.models m c).mp colored).2
      rw [Graph.sourceBound, solved.uncolored_top kept uncolored]
      exact le_top

theorem Solved.solution (solved : Solved priced S P) (c : Color) :
    S.LeastSolution priced c fun i => P.finalBound i c := by
  refine ⟨fun x given => ?_, fun x ungiven => ?_, fun m kept => solved.model_eq c kept, fun x => solved.least x c⟩
  · have le : P.finalBound (.var x) c ≤ 0 := solved.le_source (Graph.mem_sources_none.mpr given)
    rcases solved.least x c with least | ⟨-, top⟩
    · exact le_antisymm le (Graph.bound_nonneg priced least.1)
    · rw [top] at le
      exact absurd le (by simp)
  · have sources : G.sources S c x = ((List.finRange G.nm).filter fun m => !S.skip (.model m) ∧ x ∈ G.reaches c m).map some := by
      rw [Graph.sources, if_neg (by simp [ungiven])]
    have value : ∀ m ∈ (List.finRange G.nm).filter fun m => !S.skip (.model m) ∧ x ∈ G.reaches c m,
        P.finalBound (.model m) c = G.sourceBound S c (fun y => P.finalBound (.var y) c) (some m) := by
      intro m mem
      simp only [List.mem_filter, decide_eq_true_eq, Bool.not_eq_true'] at mem
      exact solved.model_eq c mem.2.1
    refine le_antisymm ?_ ?_
    · -- no source undercuts the bound
      by_cases finite : AndOr.listMin (((List.finRange G.nm).filter fun m => !S.skip (.model m) ∧ x ∈ G.reaches c m).map
          fun m => P.finalBound (.model m) c) = ⊤
      · rw [finite]
        exact le_top
      · obtain ⟨m, mem, same⟩ := List.mem_map.mp (AndOr.listMin_mem finite)
        rw [← same, value m mem]
        exact solved.le_source (by rw [sources]; exact List.mem_map_of_mem mem)
    · -- some source attains it
      rcases solved.least x c with least | ⟨-, top⟩
      · obtain ⟨s, source, f, derived, attained⟩ := ((G.boundSystem priced S c).derives_iff x _).mp least.1
        have member : s ∈ G.sources S c x := source
        rw [sources] at member
        obtain ⟨m, mem, rfl⟩ := List.mem_map.mp member
        refine (AndOr.listMin_le (List.mem_map.mpr ⟨m, mem, rfl⟩)).trans ?_
        rw [attained, value m mem]
        refine Graph.modelBound_mono priced fun u need => ?_
        rcases solved.least u c with least_u | ⟨none_derived, -⟩
        · exact least_u.2 (derived u need)
        · exact absurd (derived u need) (Set.eq_empty_iff_forall_notMem.mp none_derived _)
      · rw [top]
        exact le_top

/-! ## Whole runs -/

theorem markSelect_extends {fuel : Nat} {i : Node G} (ok : markSelect fuel P i = .ok P') : Extends P P' := by
  unfold markSelect at ok
  split at ok
  · split at ok
    · cases ok
    · split at ok
      · rename_i run
        cases ok
        exact prune_select_extends fuel run
      · cases ok
  · cases ok
    exact .refl

theorem markSelects_extends {fuel : Nat} {l : List (Node G)} (ok : l.foldlM (markSelect fuel) P = .ok P') : Extends P P' := by
  induction l generalizing P with
  | nil =>
    cases ok
    exact .refl
  | cons i l ih =>
    rw [List.foldlM_cons] at ok
    cases first : markSelect fuel P i with
    | error stop =>
      rw [first] at ok
      cases ok
    | ok P₁ =>
      rw [first] at ok
      exact (markSelect_extends first).trans (ih ok)

theorem selectRetedge_extends (x : Fin G.nv) : Extends P (selectRetedge P x) := by
  unfold selectRetedge
  split
  · exact setFlags_extends _ _ (fun _ => rfl) (fun _ _ => rfl) (fun _ => id) fun _ => id
  · exact .refl

/-- The stages of a run that succeeds. -/
theorem fhk_prune_run_ok {fuel : Nat} (ok : P.fhk_prune_run fuel = .ok P') :
    ∃ P₁ P₂ P₃, P.prune_mark_given.prune_mark_skips.prune_init_mstate.prune_insert_given = .ok P₁ ∧
      Run.untilHalt propagateStep fuel P₁.prune_insert_constmods = some P₂ ∧
      (nodes G).foldlM (markSelect fuel) P₂.prune_mark_unreachable = .ok P₃ ∧
      P' = (List.finRange G.nv).foldl selectRetedge P₃ := by
  unfold fhk_prune_run at ok
  simp only at ok
  cases given : P.prune_mark_given.prune_mark_skips.prune_init_mstate.prune_insert_given with
  | error stop =>
    rw [given] at ok
    cases ok
  | ok P₁ =>
    rw [given] at ok
    cases run : Run.untilHalt propagateStep fuel P₁.prune_insert_constmods with
    | none =>
      have failed : P₁.prune_insert_constmods.prune_propagate fuel = .error .fuel := by
        rw [prune_propagate, run]
      simp only [bind, Except.bind, failed] at ok
      cases ok
    | some P₂ =>
      have propagated : P₁.prune_insert_constmods.prune_propagate fuel = .ok P₂ := by
        rw [prune_propagate, run]
      simp only [bind, Except.bind, propagated, prune_mark_selects] at ok
      split at ok
      · cases ok
      · rename_i P₃ selected
        cases ok
        exact ⟨P₁, P₂, P₃, rfl, run, selected, rfl⟩

theorem insertGivens_stop {l : List (Fin G.nv)} {stop : Stop G} (failed : l.foldlM insertGiven P = .error stop) :
    stop ≠ .fuel := by
  induction l generalizing P with
  | nil => cases failed
  | cons x l ih =>
    rw [List.foldlM_cons] at failed
    cases first : insertGiven P x with
    | error stop' =>
      rw [first] at failed
      cases failed
      unfold insertGiven at first
      split at first
      · split at first
        · cases first
          simp
        · cases first
      · cases first
    | ok P₁ =>
      rw [first] at failed
      exact ih failed

theorem markSelects_stop {fuel : Nat} {l : List (Node G)} (enough : (nodes G).length < fuel)
    (failed : l.foldlM (markSelect fuel) P = .error .fuel) : False := by
  induction l generalizing P with
  | nil => cases failed
  | cons i l ih =>
    rw [List.foldlM_cons] at failed
    cases first : markSelect fuel P i with
    | error stop =>
      rw [first] at failed
      cases failed
      have few : P.unselected < fuel := lt_of_le_of_lt List.countP_le_length enough
      obtain ⟨P', run⟩ := prune_select_returns fuel P i few
      unfold markSelect at first
      rw [run] at first
      split at first
      · split at first <;> cases first
      · cases first
    | ok P₁ =>
      rw [first] at failed
      exact ih failed

/-- The state of a run after the main loop. -/
theorem solved_of_run {fuel : Nat} {P₁ P₂ : Prune G} (linked : G.Linked) (fresh : P.Fresh)
    (given : P.prune_mark_given.prune_mark_skips.prune_init_mstate.prune_insert_given = .ok P₁)
    (run : Run.untilHalt propagateStep fuel P₁.prune_insert_constmods = some P₂) : Solved priced P.scope P₂ := by
  obtain ⟨reaches, halted⟩ := Run.untilHalt_reaches run
  have inv : Inv priced P.scope P₂ 0 .GRAY [] fun _ _ => False :=
    reaches.invariant (I := fun P₂ => Inv priced P.scope P₂ 0 .GRAY [] fun _ _ => False)
      (fun _ _ inv step => inv.step linked scope_apart step) (inv_start linked fresh given)
  exact inv.solved halted

theorem fhk_prune_run_ends (P : Prune G) : ∃ enough, ∀ fuel, enough ≤ fuel → P.fhk_prune_run fuel ≠ .error .fuel := by
  cases given : P.prune_mark_given.prune_mark_skips.prune_init_mstate.prune_insert_given with
  | error stop =>
    refine ⟨0, fun fuel _ out => ?_⟩
    unfold fhk_prune_run at out
    simp only [given, bind, Except.bind, Except.error.injEq] at out
    exact insertGivens_stop given out
  | ok P₁ =>
    obtain ⟨P₂, run, halted⟩ := propagate_halts P₁.prune_insert_constmods
    obtain ⟨enough, returns⟩ := run.untilHalt halted
    refine ⟨max enough ((nodes G).length + 1), fun fuel le out => ?_⟩
    unfold fhk_prune_run at out
    simp only [given, bind, Except.bind, prune_propagate, returns fuel (by omega), prune_mark_selects] at out
    split at out
    · rename_i stop selects
      cases out
      exact markSelects_stop (by omega) selects
    · cases out

/-- The bounds of a run that succeeds. -/
theorem solution_of_run {fuel : Nat} (linked : G.Linked) (fresh : P.Fresh) (ok : P.fhk_prune_run fuel = .ok P') (color : Color) :
    P.scope.LeastSolution priced color fun i => P'.bound (i, color) := by
  obtain ⟨P₁, P₂, P₃, given, run, selects, rfl⟩ := fhk_prune_run_ok ok
  have solved : Solved priced P.scope P₂ := solved_of_run linked fresh given run
  have bound (i : Node G) : ((List.finRange G.nv).foldl selectRetedge P₃).bound (i, color) = P₂.finalBound i color := by
    have last := (foldl_extends (fun P x => selectRetedge_extends (P := P) x) (List.finRange G.nv) (P := P₃)).bound
    rw [last, (markSelects_extends selects).bound]
    exact (prune_mark_unreachable_spec P₂ i).bound color
  simp only [bound]
  exact solved.solution color

/-- The bounds of every run that succeeds, and every run ends. -/
theorem fhk_prune_run_bounds (priced : G.Priced) (linked : G.Linked) (P : Prune G) (fresh : P.Fresh) :
    (∃ enough, ∀ fuel, enough ≤ fuel → P.fhk_prune_run fuel ≠ .error .fuel) ∧
      ∀ fuel P', P.fhk_prune_run fuel = .ok P' → ∀ color, P.scope.LeastSolution priced color fun i => P'.bound (i, color) :=
  ⟨fhk_prune_run_ends P, fun _ _ ok color => solution_of_run linked fresh ok color⟩

end Prune

namespace OneParam

/-- One model with one parameter, whose edge has the code `map` and the inverse -1. -/
def graph (map : Int) : Graph where
  nv := 1
  nm := 1
  nw := 0
  ng := 1
  vars _ := ⟨[], [⟨⟨0, Nat.one_pos⟩, -1, 0⟩], 0, 8⟩
  models _ := ⟨0, [], [⟨⟨0, Nat.one_pos⟩, map, 0⟩], 0, [], true, 0, 1, 0⟩
  shadows w := w.elim0

theorem priced (map : Int) : (graph map).Priced := by
  intro m
  exact ⟨le_refl (0 : ℚ), le_refl (1 : ℚ), fun e mem => by cases mem⟩

/-- The variable is given. -/
def start (map : Int) : Prune (graph map) where
  flags
    | .var _ => ⟨true, false, false, fun _ => false, false, false⟩
    | .model _ => ⟨false, false, false, fun _ => false, false, false⟩
  bound _ := 0
  p_miss _ := 0
  heap := ⟨0, fun _ => ⟨0, .GRAY, (⟨0, Nat.one_pos⟩ : Fin 1)⟩⟩

theorem start_fresh (map : Int) : (start map).Fresh := by
  refine ⟨fun i => ?_, fun _ => rfl, rfl⟩
  cases i <;> exact ⟨rfl, rfl, rfl⟩

/-- The one index of a node. -/
theorem only_index (i : Fin 1) : i = 0 := Subsingleton.elim i 0

theorem linked_six : (graph 6).Linked := by
  refine ⟨⟨fun x m => ?_, fun x m => ?_, fun _ => (by decide : 1 < 256)⟩, fun x m => ?_⟩
  · rw [only_index x, only_index m]
    rfl
  · constructor <;> rintro ⟨e, mem, -⟩ <;> cases mem
  · rw [only_index x, only_index m]
    rfl

theorem fhk_prune_run_bounds_six :
    (∃ enough, ∀ fuel, enough ≤ fuel → (start 6).fhk_prune_run fuel ≠ .error .fuel) ∧
      ∀ fuel P', (start 6).fhk_prune_run fuel = .ok P' → ∀ color,
        (start 6).scope.LeastSolution (priced 6) color fun i => P'.bound (i, color) :=
  Prune.fhk_prune_run_bounds (priced 6) linked_six (start 6) (start_fresh 6)

end OneParam
end M2.Fhk
