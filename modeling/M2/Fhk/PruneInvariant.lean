import M2.Fhk.PruneSteps

/-!
# The invariant of the pruner

Colored variables have their exact bound. A counter is the number of parameters without a color, a sum
that of the bounds of the others. While the forward edges of one variable are walked, the edges that are
left make up the difference.
-/
namespace M2.Fhk
open M2.Lib

/-- No model that counts returns a given variable. -/
def Scope.Apart {G : Graph} (S : Scope G) : Prop :=
  ∀ c m, S.skip (.model m) = false → ∀ y ∈ G.reaches c m, S.given y = false

namespace Prune
variable {G : Graph} (priced : G.Priced) (S : Scope G) (P : Prune G)

/-- The bounds of the variables. -/
def varBound (color : Color) (x : Fin G.nv) : Cost := P.bound (.var x, color)

/-- The counted parameters of a model without a color. -/
def missing (m : Fin G.nm) (color : Color) : Nat := (G.needs color m).countP fun x => ¬ P.Colored (.var x) color

/-- The bounds of the counted parameters of a model that have a color. -/
def arrived (m : Fin G.nm) (color : Color) : Cost :=
  (((G.needs color m).filter fun x => P.Colored (.var x) color).map (P.varBound color)).sum

/-- The edges of the walk that lead to a model. -/
def due (walk : Color) (rest : List (Edge G.nm)) (m : Fin G.nm) (color : Color) : Nat :=
  if color = walk then rest.countP fun e => e.idx = m ∧ G.counts color e else 0

/-- The invariant, in the walk over the forward edges `rest` of a variable with bound `cost` for the color
`walk`. The models of `todo` are not inserted yet. -/
structure Inv (cost : Cost) (walk : Color) (rest : List (Edge G.nm)) (todo : Fin G.nm → Color → Prop) : Prop where
  skip : ∀ i, (P.flags i).skip = S.skip i
  exact : ∀ y c, P.Colored (.var y) c → IsLeast ((G.boundSystem priced S c).costs y) (P.bound (.var y, c))
  byte : ∀ w, P.p_miss w < 256
  p_miss : ∀ m c, P.p_miss (m, c) = P.missing m c + due walk rest m c
  sum : ∀ m c, ¬ P.Colored (.model m) c →
    P.bound (.model m, c) + due walk rest m c • cost = P.arrived m c
  ready : ∀ m c, P.Colored (.model m) c → S.skip (.model m) = false ∧ P.p_miss (m, c) = 0
  done : ∀ m c, S.skip (.model m) = false → P.p_miss (m, c) = 0 → P.Colored (.model m) c ∨ todo m c
  value : ∀ m c, P.Colored (.model m) c → P.bound (.model m, c) = G.modelBound S c m (P.varBound c)
  ordered : P.heap.Ordered
  sound : ∀ n ∈ P.heap.toMultiset, ∃ s ∈ G.sources S n.color n.xi,
    (∀ u ∈ G.sourceNeeds n.color s, P.Colored (.var u) n.color) ∧ n.cost = G.sourceBound S n.color (P.varBound n.color) s
  models : ∀ m c, P.Colored (.model m) c → ∀ y ∈ G.reaches c m, ¬ P.Colored (.var y) c →
    ⟨P.bound (.model m, c), c, y⟩ ∈ P.heap.toMultiset
  givens : ∀ y c, S.given y → ¬ P.Colored (.var y) c → ⟨0, c, y⟩ ∈ P.heap.toMultiset

variable {priced S P} {cost : Cost} {walk : Color} {rest : List (Edge G.nm)} {todo : Fin G.nm → Color → Prop}

theorem missing_zero {m : Fin G.nm} {c : Color} : P.missing m c = 0 ↔ ∀ u ∈ G.needs c m, P.Colored (.var u) c := by
  simp [missing, List.countP_eq_zero]

theorem arrived_all {m : Fin G.nm} {c : Color} (all : ∀ u ∈ G.needs c m, P.Colored (.var u) c) :
    P.arrived m c = ((G.needs c m).map (P.varBound c)).sum := by
  rw [arrived, List.filter_eq_self.mpr (by simpa using all)]

theorem Inv.needs_colored (inv : Inv priced S P cost walk rest todo) {m : Fin G.nm} {c : Color}
    (zero : P.p_miss (m, c) = 0) : (∀ u ∈ G.needs c m, P.Colored (.var u) c) ∧ due walk rest m c = 0 := by
  have count := inv.p_miss m c
  exact ⟨missing_zero.mp (by omega), by omega⟩

/-- A model whose counter is zero gets its bound and hands it to the variables it reaches. -/
theorem Inv.bound_model (inv : Inv priced S P cost walk rest todo) {m : Fin G.nm} {c : Color} (zero : P.p_miss (m, c) = 0)
    (fresh : ¬ P.Colored (.model m) c) {todo' : Fin G.nm → Color → Prop}
    (less : ∀ m' c', todo m' c' → todo' m' c' ∨ (m' = m ∧ c' = c)) (apart : S.Apart) :
    Inv priced S (P.prune_bound_model m c) cost walk rest todo' := by
  cases kept : S.skip (.model m) with
  | true =>
    rw [prune_bound_model_skipped (by rw [inv.skip, kept])]
    refine ⟨inv.skip, inv.exact, inv.byte, inv.p_miss, inv.sum, inv.ready, fun m' c' unskipped zero' => ?_, inv.value,
      inv.ordered, inv.sound, inv.models, inv.givens⟩
    rcases inv.done m' c' unskipped zero' with colored | waits
    · exact .inl colored
    · rcases less m' c' waits with waits | ⟨rfl, rfl⟩
      · exact .inr waits
      · rw [kept] at unskipped
        cases unskipped
  | false =>
    obtain ⟨all, none_due⟩ := inv.needs_colored zero
    have bounds : Bounds P (P.prune_bound_model m c) m c _ := prune_bound_model_bounds (by rw [inv.skip, kept])
    have value : (G.models m).costf (P.bound (.model m, c) + (((G.models m).shadows.filter fun e =>
        c = .BLACK ∨ (P.flags (.var (G.shadows e.idx).xi)).skip).map ShEdge.penalty).sum) =
        G.modelBound S c m (P.varBound c) := by
      have sum := inv.sum m c fresh
      rw [none_due, zero_nsmul, add_zero, arrived_all all] at sum
      rw [Graph.modelBound, sum, Graph.penalties]
      simp only [inv.skip]
    rw [value] at bounds
    generalize P.prune_bound_model m c = P' at bounds
    have vars (y : Fin G.nv) (c' : Color) : P'.Colored (.var y) c' ↔ P.Colored (.var y) c' := by
      rw [bounds.colored]
      simp
    have var_bound (y : Fin G.nv) (c' : Color) : P'.bound (.var y, c') = P.bound (.var y, c') := by
      rw [bounds.bound, Function.update_of_ne (by simp)]
    have same_bound : P'.varBound = P.varBound := by
      funext c' y
      exact var_bound y c'
    have same_missing (m' : Fin G.nm) (c' : Color) : P'.missing m' c' = P.missing m' c' := by
      simp only [missing, vars]
    have same_arrived (m' : Fin G.nm) (c' : Color) : P'.arrived m' c' = P.arrived m' c' := by
      simp only [arrived, vars, same_bound]
    have mem_old {n : HNode G} (mem : n ∈ P.heap.toMultiset) : n ∈ P'.heap.toMultiset := by
      rw [bounds.nodes]
      exact Multiset.mem_add.mpr (.inl mem)
    refine ⟨fun i => (bounds.skip i).trans (inv.skip i), fun y c' colored => ?_, fun w => by rw [bounds.p_miss]; exact inv.byte w,
      fun m' c' => ?_, fun m' c' uncolored => ?_, fun m' c' colored => ?_, fun m' c' unskipped zero' => ?_, fun m' c' colored => ?_, bounds.ordered inv.ordered,
      fun n mem => ?_, fun m' c' colored y reach uncolored => ?_, fun y c' given uncolored => ?_⟩
    · rw [var_bound]
      exact inv.exact y c' ((vars y c').mp colored)
    · rw [bounds.p_miss, same_missing]
      exact inv.p_miss m' c'
    · rw [bounds.colored, not_or] at uncolored
      rw [same_arrived, bounds.bound, Function.update_of_ne]
      · exact inv.sum m' c' uncolored.1
      · simpa using uncolored.2
    · rw [bounds.p_miss]
      rcases (bounds.colored _ _).mp colored with old | ⟨same, rfl⟩
      · exact inv.ready m' c' old
      · cases same
        exact ⟨kept, zero⟩
    · rw [bounds.p_miss] at zero'
      rw [bounds.colored]
      rcases inv.done m' c' unskipped zero' with colored | waits
      · exact .inl (.inl colored)
      · rcases less m' c' waits with waits | ⟨rfl, rfl⟩
        · exact .inr waits
        · exact .inl (.inr ⟨rfl, rfl⟩)
    · rw [same_bound, bounds.bound, Function.update_apply]
      split
      · rename_i same
        cases same
        rfl
      · rename_i ne
        rcases (bounds.colored _ _).mp colored with old | ⟨same, rfl⟩
        · exact inv.value m' c' old
        · cases same
          exact absurd rfl ne
    · rw [bounds.nodes, Multiset.mem_add] at mem
      simp only [vars, same_bound]
      rcases mem with old | new
      · exact inv.sound n old
      · obtain ⟨y, reach, rfl⟩ := List.mem_map.mp (Multiset.mem_coe.mp new)
        exact ⟨some m, Graph.mem_sources.mpr ⟨apart c m kept y reach, kept, reach⟩, all, rfl⟩
    · rw [vars] at uncolored
      rcases (bounds.colored _ _).mp colored with old | ⟨same, rfl⟩
      · have ne : ¬ (m' = m ∧ c' = c) := by
          rintro ⟨rfl, rfl⟩
          exact fresh old
        rw [bounds.bound, Function.update_of_ne (by simpa using ne)]
        exact mem_old (inv.models m' c' old y reach uncolored)
      · cases same
        rw [bounds.bound, Function.update_self, bounds.nodes]
        exact Multiset.mem_add.mpr (.inr (Multiset.mem_coe.mpr (List.mem_map_of_mem reach)))
    · rw [vars] at uncolored
      exact mem_old (inv.givens y c' given uncolored)

/-! ## Coloring a variable -/

theorem countP_insert {α : Type*} [DecidableEq α] (l : List α) {old : α → Prop} [DecidablePred old] {y : α} (fresh : ¬ old y) :
    l.countP (fun u => ¬ old u) = l.countP (fun u => ¬ (old u ∨ u = y)) + l.count y := by
  induction l with
  | nil => rfl
  | cons u l ih =>
    simp only [List.countP_cons, List.count_cons, ih]
    by_cases same : u = y
    · subst same
      simp [fresh]
      omega
    · simp [same]
      omega

theorem sum_insert {α : Type*} [DecidableEq α] (l : List α) (old : α → Prop) [DecidablePred old] {y : α} (fresh : ¬ old y)
    {f g : α → Cost} (same : ∀ u, u ≠ y → g u = f u) :
    ((l.filter fun u => old u ∨ u = y).map g).sum = ((l.filter fun u => old u).map f).sum + l.count y • g y := by
  induction l with
  | nil => simp
  | cons u l ih =>
    by_cases here : u = y
    · subst here
      rw [List.filter_cons_of_pos (by simp), List.filter_cons_of_neg (by simpa using fresh), List.map_cons, List.sum_cons, ih,
        List.count_cons_self, succ_nsmul, add_comm, add_assoc]
    · rw [List.count_cons_of_ne here]
      by_cases kept : old u
      · rw [List.filter_cons_of_pos (by simp [kept]), List.filter_cons_of_pos (by simpa using kept), List.map_cons, List.map_cons,
          List.sum_cons, List.sum_cons, ih, same u here, add_assoc]
      · rw [List.filter_cons_of_neg (by simp [kept, here]), List.filter_cons_of_neg (by simpa using kept), ih]

/-- A variable gets its color and its exact bound; its forward edges are still to be walked. -/
theorem Inv.settle (linked : G.Linked) (inv : Inv priced S P cost walk [] todo) {y : Fin G.nv} {c : Color} {t : Cost}
    (fresh : ¬ P.Colored (.var y) c) (least : IsLeast ((G.boundSystem priced S c).costs y) t) :
    Inv priced S ((P.mark (.var y) c).setBound (.var y) c t) t c (G.vars y).fwds todo := by
  have colored (i : Node G) (c' : Color) : ((P.mark (.var y) c).setBound (.var y) c t).Colored i c' ↔
      P.Colored i c' ∨ (i = .var y ∧ c' = c) := mark_colored
  have bound : ((P.mark (.var y) c).setBound (.var y) c t).bound = Function.update P.bound (.var y, c) t := rfl
  have p_miss : ((P.mark (.var y) c).setBound (.var y) c t).p_miss = P.p_miss := rfl
  have heap : ((P.mark (.var y) c).setBound (.var y) c t).heap = P.heap := rfl
  have skip (i : Node G) : (((P.mark (.var y) c).setBound (.var y) c t).flags i).skip = (P.flags i).skip := mark_skip
  generalize (P.mark (.var y) c).setBound (.var y) c t = P' at colored bound p_miss heap skip
  have models (m : Fin G.nm) (c' : Color) : P'.Colored (.model m) c' ↔ P.Colored (.model m) c' := by
    rw [colored]
    simp
  have vars (u : Fin G.nv) (c' : Color) : P'.Colored (.var u) c' ↔ P.Colored (.var u) c' ∨ (u = y ∧ c' = c) := by
    rw [colored]
    simp
  have old_bound {u : Fin G.nv} {c' : Color} (old : P.Colored (.var u) c') : P'.varBound c' u = P.varBound c' u := by
    rw [varBound, bound, Function.update_of_ne]
    · rfl
    · rintro same
      cases same
      exact fresh old
  have model_bound (m : Fin G.nm) (c' : Color) : P'.bound (.model m, c') = P.bound (.model m, c') := by
    rw [bound, Function.update_of_ne (by simp)]
  have same_value {m : Fin G.nm} {c' : Color} (all : ∀ u ∈ G.needs c' m, P.Colored (.var u) c') :
      G.modelBound S c' m (P'.varBound c') = G.modelBound S c' m (P.varBound c') := by
    rw [Graph.modelBound, Graph.modelBound, List.map_congr_left fun u need => old_bound (all u need)]
  have none_due (m : Fin G.nm) (c' : Color) : due walk [] m c' = 0 := by simp [due]
  -- the edges that are due are those that name the variable
  have edges (m : Fin G.nm) : due c (G.vars y).fwds m c = (G.needs c m).count y := by
    rw [due, if_pos rfl, linked.counts, Graph.count_needs]
  refine ⟨fun i => (skip i).trans (inv.skip i), fun u c' now => ?_, fun w => by rw [p_miss]; exact inv.byte w,
    fun m c' => ?_, fun m c' uncolored => ?_, fun m c' now => ?_, fun m c' unskipped zero => ?_, fun m c' now => ?_, ?_,
    fun n mem => ?_, fun m c' now u reach uncolored => ?_, fun u c' given uncolored => ?_⟩
  · rw [vars] at now
    rw [bound, Function.update_apply]
    split
    · rename_i same
      cases same
      exact least
    · rename_i ne
      rcases now with old | ⟨rfl, rfl⟩
      · exact inv.exact u c' old
      · exact absurd rfl ne
  · have before := inv.p_miss m c'
    rw [none_due, add_zero] at before
    rw [p_miss, before]
    by_cases same : c' = c
    · subst same
      rw [edges, missing, missing]
      simp only [vars, and_true]
      exact countP_insert _ fresh
    · simp [missing, vars, same, due]
  · rw [models] at uncolored
    have before := inv.sum m c' uncolored
    rw [none_due, zero_nsmul, add_zero] at before
    rw [model_bound, before]
    by_cases same : c' = c
    · subst same
      have others (u : Fin G.nv) (ne : u ≠ y) : P'.varBound c' u = P.varBound c' u := by
        rw [varBound, bound, Function.update_of_ne (by simpa using ne)]
        rfl
      have here : P'.varBound c' y = t := by rw [varBound, bound, Function.update_self]
      have more := sum_insert (G.needs c' m) (fun u => P.Colored (.var u) c') fresh others
      rw [edges, arrived, arrived]
      simp only [vars, and_true]
      rw [more, here]
    · have kept : due c (G.vars y).fwds m c' = 0 := by simp [due, same]
      have others (u : Fin G.nv) : P'.varBound c' u = P.varBound c' u := by
        rw [varBound, bound, Function.update_of_ne (by simp [same])]
        rfl
      rw [kept, zero_nsmul, add_zero, arrived, arrived]
      simp only [vars, same, and_false, or_false, funext others]
  · rw [p_miss]
    exact inv.ready m c' ((models m c').mp now)
  · rw [p_miss] at zero
    rw [models]
    exact inv.done m c' unskipped zero
  · rw [models] at now
    rw [model_bound, same_value (inv.needs_colored (inv.ready m c' now).2).1]
    exact inv.value m c' now
  · rw [heap]
    exact inv.ordered
  · rw [heap] at mem
    obtain ⟨s, source, all, value⟩ := inv.sound n mem
    refine ⟨s, source, fun u need => (vars u _).mpr (.inl (all u need)), ?_⟩
    rw [value]
    cases s with
    | none => rfl
    | some m => exact (same_value all).symm
  · rw [models] at now
    rw [vars, not_or] at uncolored
    rw [model_bound, heap]
    exact inv.models m c' now u reach uncolored.1
  · rw [vars, not_or] at uncolored
    rw [heap]
    exact inv.givens u c' given uncolored.1

/-! ## Walking the forward edges -/

/-- One forward edge. -/
theorem Inv.boundFwd {e : Edge G.nm} (inv : Inv priced S P cost walk (e :: rest) todo) (apart : S.Apart) :
    Inv priced S (boundFwd cost walk P e) cost walk rest todo := by
  by_cases counted : G.counts walk e
  · have test : ¬ (walk = .GRAY ∧ !G.xnonempty e.map) := by
      rintro ⟨rfl, empty⟩
      simp [Graph.counts] at counted
      simp [counted] at empty
    rw [Prune.boundFwd, if_neg test]
    simp only
    have head : due walk (e :: rest) e.idx walk = due walk rest e.idx walk + 1 := by
      simp [due, counted]
    have others {m : Fin G.nm} {c : Color} (ne : (m, c) ≠ (e.idx, walk)) : due walk (e :: rest) m c = due walk rest m c := by
      unfold due
      split
      · rename_i same
        subst same
        rw [List.countP_cons_of_neg]
        simpa using fun same => absurd (congrArg (·, c) same.symm) ne
      · rfl
    have count := inv.p_miss e.idx walk
    rw [head] at count
    have small := inv.byte (e.idx, walk)
    have miss : (P.p_miss (e.idx, walk) + 255) % 256 = P.missing e.idx walk + due walk rest e.idx walk := by omega
    have fresh : ¬ P.Colored (.model e.idx) walk := by
      intro colored
      have := (inv.ready _ _ colored).2
      omega
    -- the counter and the sum are up to date, the model may be waiting for its bound
    let P' : Prune G := { (P.setBound (.model e.idx) walk (P.bound (.model e.idx, walk) + cost)) with
      p_miss := Function.update P.p_miss (e.idx, walk) ((P.p_miss (e.idx, walk) + 255) % 256) }
    have bound : P'.bound = Function.update P.bound (.model e.idx, walk) (P.bound (.model e.idx, walk) + cost) :=
      rfl
    have p_miss : P'.p_miss = Function.update P.p_miss (e.idx, walk) (P.missing e.idx walk + due walk rest e.idx walk) := by
      rw [← miss]
    have var_bound : P'.varBound = P.varBound := by
      funext c u
      rw [varBound, bound, Function.update_of_ne (by simp)]
      rfl
    have model_bound {m : Fin G.nm} {c : Color} (ne : (m, c) ≠ (e.idx, walk)) : P'.bound (.model m, c) = P.bound (.model m, c) := by
      rw [bound, Function.update_of_ne (by simpa using ne)]
    have colored_ne {m : Fin G.nm} {c : Color} (colored : P.Colored (.model m) c) : (m, c) ≠ (e.idx, walk) := by
      intro same
      cases same
      exact fresh colored
    have mid : Inv priced S P' cost walk rest fun m c => todo m c ∨ (m = e.idx ∧ c = walk) := by
      refine ⟨inv.skip, fun u c colored => ?_, fun w => ?_, fun m c => ?_, fun m c uncolored => ?_, fun m c colored => ?_,
        fun m c unskipped zero => ?_, fun m c colored => ?_, inv.ordered, fun n mem => ?_,
        fun m c colored u reach uncolored => ?_, inv.givens⟩
      · rw [bound, Function.update_of_ne (by simp)]
        exact inv.exact u c colored
      · rw [p_miss, Function.update_apply]
        split
        · omega
        · exact inv.byte w
      · rw [p_miss, Function.update_apply]
        split
        · rename_i same
          cases same
          rfl
        · rename_i ne
          rw [inv.p_miss, others ne]
          rfl
      · have same_arrived : P'.arrived m c = P.arrived m c := by
          rw [arrived, var_bound]
          rfl
        have before := inv.sum m c uncolored
        rw [same_arrived, ← before]
        by_cases same : (m, c) = (e.idx, walk)
        · cases same
          rw [bound, Function.update_self, head, succ_nsmul, add_assoc, add_comm cost]
        · rw [model_bound same, others same]
      · rw [p_miss, Function.update_of_ne (colored_ne colored)]
        exact inv.ready m c colored
      · by_cases same : (m, c) = (e.idx, walk)
        · cases same
          exact .inr (.inr ⟨rfl, rfl⟩)
        · rw [p_miss, Function.update_of_ne same] at zero
          rcases inv.done m c unskipped zero with colored | waits
          · exact .inl colored
          · exact .inr (.inl waits)
      · rw [model_bound (colored_ne colored), var_bound]
        exact inv.value m c colored
      · rw [var_bound]
        exact inv.sound n mem
      · rw [model_bound (colored_ne colored)]
        exact inv.models m c colored u reach uncolored
    have counter : P'.p_miss (e.idx, walk) = (P.p_miss (e.idx, walk) + 255) % 256 := by
      rw [p_miss, Function.update_self, miss]
    split
    · rename_i zero
      exact mid.bound_model (counter.trans zero) fresh (fun m c => id) apart
    · rename_i more
      refine { mid with done := fun m c unskipped zero => ?_ }
      rcases mid.done m c unskipped zero with colored | waits | ⟨rfl, rfl⟩
      · exact .inl colored
      · exact .inr waits
      · exact absurd (counter.symm.trans zero) more
  · have test : walk = .GRAY ∧ !G.xnonempty e.map := by
      simp only [Graph.counts, Bool.decide_or, Bool.or_eq_true, decide_eq_true_eq, not_or] at counted
      cases walk with
      | GRAY => simpa using counted
      | BLACK => simp at counted
    rw [Prune.boundFwd, if_pos test]
    have same (m : Fin G.nm) (c : Color) : due walk (e :: rest) m c = due walk rest m c := by
      unfold due
      split
      · rename_i same
        subst same
        rw [List.countP_cons_of_neg (by simpa using fun _ => by simpa using counted)]
      · rfl
    refine { inv with p_miss := fun m c => ?_, sum := fun m c uncolored => ?_ }
    · rw [← same]
      exact inv.p_miss m c
    · rw [← same]
      exact inv.sum m c uncolored

end Prune
end M2.Fhk
