import Mathlib.Data.Fintype.Card
import Mathlib.Order.Interval.Finset.Fin
import M2.Fhk.PruneInvariant

/-!
# The main loop of the pruner

Each turn either drops a node whose variable has its color or colors the cheapest variable of the heap,
whose bound is then exact. It ends because there are finitely many variables to color.
-/
namespace M2.Fhk
open M2.Lib

namespace Prune
variable {G : Graph} {priced : G.Priced} {S : Scope G} {P : Prune G} {cost : Cost} {walk : Color}
  {rest : List (Edge G.nm)} {todo : Fin G.nm → Color → Prop}

/-! ## One turn -/

/-- All forward edges of a variable. -/
theorem Inv.walked (inv : Inv priced S P cost walk rest todo) (apart : S.Apart) :
    Inv priced S (rest.foldl (Prune.boundFwd cost walk) P) cost walk [] todo := by
  induction rest generalizing P with
  | nil => exact inv
  | cons e rest ih => exact ih (inv.boundFwd apart)

/-- Between two walks the cost and the color of the last one do not matter. -/
theorem Inv.rebase (inv : Inv priced S P cost walk [] todo) (cost' : Cost) (walk' : Color) :
    Inv priced S P cost' walk' [] todo := by
  have none_due (w : Color) (m : Fin G.nm) (c : Color) : due w [] m c = 0 := by simp [due]
  refine { inv with p_miss := fun m c => ?_, sum := fun m c uncolored => ?_ }
  · rw [none_due, ← none_due walk m c]
    exact inv.p_miss m c
  · have before := inv.sum m c uncolored
    rw [none_due, zero_nsmul] at before ⊢
    exact before

/-- Nodes of colored variables may go. -/
theorem Inv.drop (inv : Inv priced S P cost walk rest todo) {heap : Heap (HNode G)} (ordered : heap.Ordered)
    (old : ∀ n ∈ heap.toMultiset, n ∈ P.heap.toMultiset)
    (kept : ∀ n ∈ P.heap.toMultiset, ¬ P.Colored (.var n.xi) n.color → n ∈ heap.toMultiset) :
    Inv priced S { P with heap } cost walk rest todo := by
  refine { inv with ordered := ordered, sound := fun n mem => inv.sound n (old n mem), models := ?_, givens := ?_ }
  · intro m c colored y reach uncolored
    exact kept _ (inv.models m c colored y reach uncolored) uncolored
  · intro y c given uncolored
    exact kept _ (inv.givens y c given uncolored) uncolored

/-- A model that is not skipped and has all its parameters has its color, once all models are inserted. -/
theorem Inv.model_colored (inv : Inv priced S P cost walk [] fun _ _ => False) {m : Fin G.nm} {c : Color}
    (kept : S.skip (.model m) = false) (all : ∀ u ∈ G.needs c m, P.Colored (.var u) c) : P.Colored (.model m) c := by
  have count := inv.p_miss m c
  have none_due : due walk [] m c = 0 := by simp [due]
  rw [missing_zero.mpr all, none_due] at count
  exact (inv.done m c kept count).resolve_right id

/-- Each source of an uncolored variable whose premises have their bounds has its node in the heap. -/
theorem Inv.queued (inv : Inv priced S P cost walk [] fun _ _ => False) {y : Fin G.nv} {c : Color}
    (uncolored : ¬ P.Colored (.var y) c) {s : Option (Fin G.nm)} (source : s ∈ G.sources S c y)
    (all : ∀ u ∈ G.sourceNeeds c s, P.Colored (.var u) c) :
    ⟨G.sourceBound S c (P.varBound c) s, c, y⟩ ∈ P.heap.toMultiset := by
  cases s with
  | none => exact inv.givens y c (Graph.mem_sources_none.mp source) uncolored
  | some m =>
    obtain ⟨-, kept, reach⟩ := Graph.mem_sources.mp source
    have colored := inv.model_colored kept all
    have mem := inv.models m c colored y reach uncolored
    rw [inv.value m c colored] at mem
    exact mem

theorem cost_le {n n' : HNode G} (le : n ≤ n') : n.cost ≤ n'.cost := by
  have lex : HNode.u64 n ≤ HNode.u64 n' := le
  rcases Prod.Lex.le_iff.mp lex with less | ⟨same, -⟩
  · exact less.le
  · exact same.le

/-- The first node of the heap carries the exact bound of its variable. -/
theorem Inv.least (inv : Inv priced S P cost walk [] fun _ _ => False) (nonempty : P.heap.pos ≠ 0)
    (uncolored : ¬ P.Colored (.var P.heap.pop.1.xi) P.heap.pop.1.color) :
    IsLeast ((G.boundSystem priced S P.heap.pop.1.color).costs P.heap.pop.1.xi) P.heap.pop.1.cost := by
  have first : P.heap.pop.1 ∈ P.heap.toMultiset := by
    rw [Heap.pop_nodes nonempty]
    exact Multiset.mem_cons_self _ _
  have smallest (n : HNode G) (mem : n ∈ P.heap.toMultiset) : P.heap.pop.1.cost ≤ n.cost :=
    cost_le (inv.ordered.pop_le mem)
  generalize P.heap.pop.1 = n at first smallest uncolored ⊢
  constructor
  · obtain ⟨s, source, all, value⟩ := inv.sound n first
    rw [value]
    exact AndOr.Derives.intro _ s _ source fun u need => (inv.exact u _ (all u need)).1
  · apply AndOr.lower_of_frontier (fun y => P.Colored (.var y) n.color)
      (Graph.bound_superior priced) _ uncolored
    intro y fresh s source all
    have lower := (G.boundSystem priced S n.color).value_lower s (P.varBound n.color) fun u need =>
      (inv.exact u _ (all u need)).2
    intro t through
    exact (smallest _ (inv.queued fresh source all)).trans (lower through)

theorem propagateStep_some {P' : Prune G} (step : P.propagateStep = some P') : P.heap.pos ≠ 0 ∧
    P' = ({ P with heap := P.heap.pop.2 } : Prune G).prune_bound_var P.heap.pop.1.xi P.heap.pop.1.cost P.heap.pop.1.color := by
  rw [propagateStep] at step
  split at step
  · cases step
  · rename_i nonempty
    cases step
    exact ⟨nonempty, rfl⟩

theorem Inv.step (linked : G.Linked) (apart : S.Apart) (inv : Inv priced S P 0 .GRAY [] fun _ _ => False) {P' : Prune G}
    (step : P.propagateStep = some P') : Inv priced S P' 0 .GRAY [] fun _ _ => False := by
  obtain ⟨nonempty, rfl⟩ := propagateStep_some step
  have nodes := Heap.pop_nodes nonempty
  have ordered := inv.ordered.pop
  have old : ∀ n ∈ P.heap.pop.2.toMultiset, n ∈ P.heap.toMultiset := by
    intro n mem
    rw [nodes]
    exact Multiset.mem_cons_of_mem mem
  have kept {n : HNode G} (mem : n ∈ P.heap.toMultiset) (ne : n ≠ P.heap.pop.1) : n ∈ P.heap.pop.2.toMultiset := by
    rw [nodes] at mem
    exact (Multiset.mem_cons.mp mem).resolve_left ne
  have least := inv.least nonempty
  generalize P.heap.pop.1 = next at kept least ⊢
  rw [prune_bound_var]
  split
  · rename_i colored
    exact inv.drop ordered old fun n mem uncolored => kept mem fun same => uncolored (same ▸ colored)
  · rename_i uncolored
    have settled := (inv.settle linked uncolored (least uncolored)).drop ordered old fun n mem other => kept mem fun same =>
      other (by rw [same]; exact mark_colored.mpr (.inr ⟨rfl, rfl⟩))
    exact (settled.walked apart).rebase 0 .GRAY

/-! ## The end of the loop -/

/-- The variables without a color. -/
def uncolored (P : Prune G) (c : Color) : Finset (Fin G.nv) := Finset.univ.filter fun x => ¬ P.Colored (.var x) c

/-- What is left to do: variables to color, then nodes to drop. -/
def left (P : Prune G) : Nat ×ₗ Nat := toLex ((P.uncolored .GRAY).card + (P.uncolored .BLACK).card, P.heap.pos)

theorem uncolored_vars {P' : Prune G} (same : SameVars P P') (c : Color) : P'.uncolored c = P.uncolored c := by
  simp only [uncolored, same.colored]

theorem uncolored_mark (x : Fin G.nv) (color c : Color) :
    (P.mark (.var x) color).uncolored c = if c = color then (P.uncolored c).erase x else P.uncolored c := by
  ext y
  simp only [uncolored, mark_colored]
  by_cases same : c = color
  · simp [same, and_comm]
  · simp [same]

theorem propagateStep_left {P' : Prune G} (step : P.propagateStep = some P') : P'.left < P.left := by
  obtain ⟨nonempty, rfl⟩ := propagateStep_some step
  generalize P.heap.pop.1 = next
  rw [prune_bound_var]
  split
  · -- the variable has its color already
    refine Prod.Lex.toLex_lt_toLex.mpr (.inr ⟨rfl, ?_⟩)
    simp only [Heap.pop_pos]
    omega
  · rename_i fresh
    refine Prod.Lex.toLex_lt_toLex.mpr (.inl ?_)
    simp only [uncolored_vars (foldl_boundFwd_vars _ _ _)]
    have mem : next.xi ∈ P.uncolored next.color := by
      simpa [uncolored, Colored] using fresh
    have less := Finset.card_erase_lt_of_mem mem
    have mark (c : Color) : ((({ P with heap := P.heap.pop.2 } : Prune G).mark (.var next.xi) next.color).setBound (.var next.xi)
        next.color next.cost).uncolored c = if c = next.color then (P.uncolored c).erase next.xi else P.uncolored c :=
      uncolored_mark _ _ _
    rw [mark, mark]
    cases same : next.color with
    | GRAY =>
      rw [same] at less
      rw [if_pos rfl, if_neg (by simp)]
      omega
    | BLACK =>
      rw [same] at less
      rw [if_neg (by simp), if_pos rfl]
      omega

/-- The loop ends, whatever the flags and the edges are. -/
theorem propagate_halts (P : Prune G) : ∃ P', Run.Reaches propagateStep P P' ∧ P'.propagateStep = none := by
  obtain ⟨P', run, -, halted⟩ := Run.halts_of_decreasing (I := fun _ => True) (wellFounded_lt (α := Nat ×ₗ Nat)) left
    (fun _ _ _ _ => trivial) (fun _ _ _ step => propagateStep_left step) P trivial
  exact ⟨P', run, halted⟩

/-- Every color has its exact bounds, and what has no color has no derivation. -/
structure Solved (priced : G.Priced) (S : Scope G) (P : Prune G) : Prop where
  skip : ∀ i, (P.flags i).skip = S.skip i
  exact : ∀ y c, P.Colored (.var y) c → IsLeast ((G.boundSystem priced S c).costs y) (P.bound (.var y, c))
  underived : ∀ y c t, (G.boundSystem priced S c).Derives y t → P.Colored (.var y) c
  value : ∀ m c, P.Colored (.model m) c → P.bound (.model m, c) = G.modelBound S c m (P.varBound c)
  models : ∀ m c, P.Colored (.model m) c ↔ S.skip (.model m) = false ∧ ∀ u ∈ G.needs c m, P.Colored (.var u) c

theorem Inv.solved (inv : Inv priced S P 0 .GRAY [] fun _ _ => False) (halted : P.propagateStep = none) :
    Solved priced S P := by
  have empty : P.heap.pos = 0 := by
    rw [propagateStep] at halted
    split at halted
    · assumption
    · cases halted
  have nothing (n : HNode G) : n ∉ P.heap.toMultiset := by
    simp [Heap.toMultiset, empty]
  refine ⟨inv.skip, inv.exact, fun y c t derived => ?_, inv.value, fun m c => ⟨fun colored => ?_, fun both => ?_⟩⟩
  · refine derived.in_settled (fun y => P.Colored (.var y) c) fun y uncolored s source => ?_
    by_contra ready
    push Not at ready
    exact nothing _ (inv.queued uncolored source ready)
  · obtain ⟨kept, zero⟩ := inv.ready m c colored
    exact ⟨kept, (inv.needs_colored zero).1⟩
  · exact inv.model_colored both.1 both.2

end Prune
end M2.Fhk
