import M2.Fhk.PruneRun

/-!
# Before the main loop

The marks, the counters and the first nodes of the heap: given variables, and models that need nothing.
-/
namespace M2.Fhk
open M2.Lib

namespace Prune
variable {G : Graph} (P : Prune G)

/-- What the flags of the caller mean: the models of a given or skipped variable are skipped, and those
with a skipped parameter. -/
def scope : Scope G where
  given x := (P.flags (.var x)).given
  skip
    | .var x => (P.flags (.var x)).skip
    | .model m => (P.flags (.model m)).skip ||
      (G.models m).returns.any (fun e => (P.flags (.var e.idx)).given || (P.flags (.var e.idx)).skip) ||
      (G.models m).params.any fun e => (P.flags (.var e.idx)).skip

variable {P}

theorem scope_apart : P.scope.Apart := by
  intro c m kept y reach
  obtain ⟨e, returned, rfl⟩ := List.mem_map.mp reach
  simp only [scope, Bool.or_eq_false_iff, List.any_eq_false] at kept
  have free := kept.1.2 e (List.mem_filter.mp returned).1
  simp only [Bool.not_eq_true, Bool.or_eq_false_iff] at free
  exact free.1

/-! ## Marks -/

/-- Some nodes are skipped too, and nothing else changes. -/
structure Skips (P P' : Prune G) (hit : Node G → Bool) : Prop where
  flags : ∀ i, P'.flags i = { P.flags i with skip := (P.flags i).skip || hit i }
  bound : P'.bound = P.bound
  heap : P'.heap = P.heap

theorem Skips.refl : Skips P P fun _ => false := ⟨fun i => by simp, rfl, rfl⟩

theorem Skips.trans {P₁ P₂ : Prune G} {hit hit' both : Node G → Bool} (first : Skips P P₁ hit) (second : Skips P₁ P₂ hit')
    (either : ∀ i, both i = (hit i || hit' i)) : Skips P P₂ both := by
  refine ⟨fun i => ?_, second.bound.trans first.bound, second.heap.trans first.heap⟩
  rw [second.flags, first.flags, either]
  simp [Bool.or_assoc]

theorem Skips.kept {P' : Prune G} {hit : Node G → Bool} (skips : Skips P P' hit) {i : Node G} (missed : hit i = false) :
    P'.flags i = P.flags i := by
  rw [skips.flags, missed, Bool.or_false]

theorem no_var (l : List (Edge G.nm)) (x : Fin G.nv) : (l.any fun e => decide (Node.var x = .model e.idx)) = false := by
  rw [List.any_eq_false]
  intro e _
  simp

theorem skipModel_skips (e : Edge G.nm) : Skips P (skipModel P e) fun i => i = .model e.idx := by
  refine ⟨fun i => ?_, rfl, rfl⟩
  simp only [skipModel, setFlags, Function.update_apply]
  by_cases here : i = .model e.idx
  · rw [if_pos here, here]
    simp
  · rw [if_neg here]
    simp [here]

theorem skipModels (l : List (Edge G.nm)) : Skips P (l.foldl skipModel P) fun i => l.any fun e => i = .model e.idx := by
  induction l generalizing P with
  | nil => exact .refl
  | cons e l ih => exact (skipModel_skips e).trans ih fun i => List.any_cons

/-- A loop over the variables that skips the models behind those that pass a test. -/
theorem skipLoop (test : NodeFlags → Bool) (links : Fin G.nv → List (Edge G.nm)) (l : List (Fin G.nv)) :
    Skips P (l.foldl (fun P x => if test (P.flags (.var x)) then (links x).foldl skipModel P else P) P)
      fun i => l.any fun x => test (P.flags (.var x)) && (links x).any fun e => i = .model e.idx := by
  induction l generalizing P with
  | nil => exact .refl
  | cons x l ih =>
    rw [List.foldl_cons]
    by_cases pass : test (P.flags (.var x))
    · rw [if_pos pass]
      have here := skipModels (P := P) (links x)
      refine here.trans (ih (P := (links x).foldl skipModel P)) fun i => ?_
      have same (y : Fin G.nv) : ((links x).foldl skipModel P).flags (.var y) = P.flags (.var y) :=
        here.kept (no_var _ _)
      simp only [List.any_cons, pass, Bool.true_and, same]
    · rw [if_neg pass]
      refine Skips.refl.trans (ih (P := P)) fun i => ?_
      simp only [List.any_cons, pass, Bool.false_and]

theorem marked (linked : G.Linked) : Skips P P.prune_mark_given.prune_mark_skips fun i => P.scope.skip i := by
  have given : Skips P P.prune_mark_given _ := skipLoop NodeFlags.given (fun x => (G.vars x).models) (List.finRange G.nv)
  have skips := skipLoop (P := P.prune_mark_given) NodeFlags.skip (fun x => (G.vars x).models ++ (G.vars x).fwds)
    (List.finRange G.nv)
  simp only [List.foldl_append] at skips
  have var (x : Fin G.nv) : P.prune_mark_given.flags (.var x) = P.flags (.var x) := given.kept (by simp only [no_var]; simp)
  have run := given.trans skips (fun i => rfl)
  refine ⟨fun i => ?_, run.bound, run.heap⟩
  refine (run.flags i).trans ?_
  cases i with
  | var x => simp [scope, var]
  | model m =>
    have returned (p : Fin G.nv → Bool) : ((List.finRange G.nv).any fun x => p x && (G.vars x).models.any fun e =>
        decide (Node.model m = .model e.idx)) = (G.models m).returns.any fun e => p e.idx := by
      rw [Bool.eq_iff_iff]
      simp only [List.any_eq_true, Bool.and_eq_true, decide_eq_true_eq, Node.model.injEq]
      constructor
      · rintro ⟨x, -, pass, e, mem, same⟩
        obtain ⟨e', mem', rfl⟩ := (linked.models x m).mp ⟨e, mem, same.symm⟩
        exact ⟨e', mem', pass⟩
      · rintro ⟨e, mem, pass⟩
        obtain ⟨e', mem', same⟩ := (linked.models e.idx m).mpr ⟨e, mem, rfl⟩
        exact ⟨e.idx, List.mem_finRange _, pass, e', mem', same.symm⟩
    have named (p : Fin G.nv → Bool) : ((List.finRange G.nv).any fun x => p x && (G.vars x).fwds.any fun e =>
        decide (Node.model m = .model e.idx)) = (G.models m).params.any fun e => p e.idx := by
      have ends (x : Fin G.nv) : (∃ e ∈ (G.vars x).fwds, e.idx = m) ↔ ∃ e ∈ (G.models m).params, e.idx = x := by
        have count := linked.fwds x m
        have left := List.countP_pos_iff (p := fun e : Edge G.nm => decide (e.idx = m)) (l := (G.vars x).fwds)
        have right := List.countP_pos_iff (p := fun e : Edge G.nv => decide (e.idx = x)) (l := (G.models m).params)
        simp only [decide_eq_true_eq] at left right
        rw [← left, ← right, count]
      rw [Bool.eq_iff_iff]
      simp only [List.any_eq_true, Bool.and_eq_true, decide_eq_true_eq, Node.model.injEq]
      constructor
      · rintro ⟨x, -, pass, e, mem, same⟩
        obtain ⟨e', mem', rfl⟩ := (ends x).mp ⟨e, mem, same.symm⟩
        exact ⟨e', mem', pass⟩
      · rintro ⟨e, mem, pass⟩
        obtain ⟨e', mem', same⟩ := (ends e.idx).mpr ⟨e, mem, rfl⟩
        exact ⟨e.idx, List.mem_finRange _, pass, e', mem', same.symm⟩
    have split : ((List.finRange G.nv).any fun x => (P.flags (.var x)).skip && ((G.vars x).models ++ (G.vars x).fwds).any
        fun e => decide (Node.model m = .model e.idx)) =
        ((G.models m).returns.any (fun e => (P.flags (.var e.idx)).skip) ||
          (G.models m).params.any fun e => (P.flags (.var e.idx)).skip) := by
      rw [← returned fun x => (P.flags (.var x)).skip, ← named fun x => (P.flags (.var x)).skip, Bool.eq_iff_iff]
      simp only [List.any_append, List.any_eq_true, Bool.and_eq_true, Bool.or_eq_true, ← exists_or, ← and_or_left]
    have both : (G.models m).returns.any (fun e => (P.flags (.var e.idx)).given || (P.flags (.var e.idx)).skip) =
        ((G.models m).returns.any (fun e => (P.flags (.var e.idx)).given) ||
          (G.models m).returns.any fun e => (P.flags (.var e.idx)).skip) := by
      rw [Bool.eq_iff_iff]
      simp only [List.any_eq_true, Bool.or_eq_true, ← exists_or, ← and_or_left]
    simp only [var]
    rw [returned fun x => (P.flags (.var x)).given, split]
    simp only [scope, both, Bool.or_assoc, Bool.or_self_left]

/-! ## Counters and given variables -/

theorem missInit_eq (linked : G.Linked) (m : Fin G.nm) (c : Color) : missInit G m c = (G.needs c m).length := by
  have small := linked.p_param m
  rw [Graph.needs, List.length_map, ← List.countP_eq_length_filter]
  cases c with
  | GRAY =>
    have bytes (l : List (Edge G.nv)) (n : Nat) (lt : n < 256) :
        l.foldl (fun n e => (n + if G.xnonempty e.map then 1 else 0) % 256) n = (n + l.countP (G.counts .GRAY)) % 256 := by
      induction l generalizing n with
      | nil => exact (Nat.mod_eq_of_lt lt).symm
      | cons e l ih =>
        rw [List.foldl_cons, ih _ (Nat.mod_lt _ (by decide)), List.countP_cons, Nat.mod_add_mod]
        simp only [Graph.counts, reduceCtorEq, false_or, Bool.decide_coe]
        congr 1
        omega
    have le := List.countP_le_length (p := G.counts .GRAY) (l := (G.models m).params)
    rw [missInit, bytes _ 0 (by decide), Nat.zero_add, Nat.mod_eq_of_lt (by omega)]
  | BLACK =>
    rw [missInit, Nat.mod_eq_of_lt small, List.countP_eq_length.mpr]
    intro e _
    simp [Graph.counts]

/-- The heap holds these nodes too, and nothing else changes. -/
structure Inserts (P P' : Prune G) (new : HNode G → Prop) : Prop where
  marks : SameMarks P P'
  ordered : P.heap.Ordered → P'.heap.Ordered
  nodes : ∀ n, n ∈ P'.heap.toMultiset ↔ n ∈ P.heap.toMultiset ∨ new n

theorem prune_insert_var_inserts (x : Fin G.nv) (cost : Cost) (c : Color) :
    Inserts P (P.prune_insert_var x cost c) fun n => n = ⟨cost, c, x⟩ := by
  refine ⟨⟨rfl, rfl, rfl⟩, fun ordered => ordered.push _, fun n => ?_⟩
  rw [prune_insert_var, Heap.push_nodes, Multiset.mem_cons, or_comm]

theorem Inserts.trans {P₁ P₂ : Prune G} {new new' both : HNode G → Prop} (first : Inserts P P₁ new)
    (second : Inserts P₁ P₂ new') (either : ∀ n, both n ↔ new n ∨ new' n) : Inserts P P₂ both := by
  refine ⟨⟨second.marks.flags.trans first.marks.flags, second.marks.bound.trans first.marks.bound,
    second.marks.p_miss.trans first.marks.p_miss⟩, second.ordered ∘ first.ordered, fun n => ?_⟩
  rw [second.nodes, first.nodes, either, or_assoc]

theorem insertGiven_ok {x : Fin G.nv} {P' : Prune G} (ok : insertGiven P x = .ok P') :
    Inserts P P' fun n => (P.flags (.var x)).given ∧ n.cost = 0 ∧ n.xi = x := by
  unfold insertGiven at ok
  split at ok
  · rename_i given
    split at ok
    · cases ok
    · cases ok
      refine (prune_insert_var_inserts x 0 .GRAY).trans (prune_insert_var_inserts x 0 .BLACK) fun n => ?_
      obtain ⟨cost, color, xi⟩ := n
      cases color <;> simp [given]
  · rename_i ungiven
    cases ok
    refine ⟨⟨rfl, rfl, rfl⟩, id, fun n => ?_⟩
    simp [ungiven]

theorem insertGivens_ok {l : List (Fin G.nv)} {P' : Prune G} (ok : l.foldlM insertGiven P = .ok P') :
    Inserts P P' fun n => n.xi ∈ l ∧ (P.flags (.var n.xi)).given ∧ n.cost = 0 := by
  induction l generalizing P with
  | nil =>
    cases ok
    exact ⟨⟨rfl, rfl, rfl⟩, id, fun n => by simp⟩
  | cons x l ih =>
    rw [List.foldlM_cons] at ok
    cases first : insertGiven P x with
    | error stop =>
      rw [first] at ok
      cases ok
    | ok P₁ =>
      rw [first] at ok
      have here := insertGiven_ok first
      refine here.trans (ih ok) fun n => ?_
      rw [here.marks.flags, List.mem_cons]
      constructor
      · rintro ⟨rfl | mem, given, cost⟩
        · exact .inl ⟨given, cost, rfl⟩
        · exact .inr ⟨mem, given, cost⟩
      · rintro (⟨given, cost, rfl⟩ | ⟨mem, given, cost⟩)
        · exact ⟨.inl rfl, given, cost⟩
        · exact ⟨.inr mem, given, cost⟩

theorem prune_insert_given_ok {P' : Prune G} (ok : P.prune_insert_given = .ok P') :
    Inserts P P' fun n => (P.flags (.var n.xi)).given ∧ n.cost = 0 := by
  have inserts := insertGivens_ok (l := List.finRange G.nv) ok
  simpa only [List.mem_finRange, true_and] using inserts

/-! ## Models that need nothing -/

variable {priced : G.Priced} {S : Scope G}

/-- A model whose turn is to come. -/
def Waits (l : List (Fin G.nm)) (m : Fin G.nm) (_ : Color) : Prop := m ∈ l

theorem Inv.insertConst {todo : Fin G.nm → Color → Prop} (todo' : Fin G.nm → Color → Prop) {m : Fin G.nm} {c : Color}
    (inv : Inv priced S P 0 .GRAY [] todo) (apart : S.Apart) (fresh : ¬ P.Colored (.model m) c)
    (less : ∀ m' c', todo m' c' → todo' m' c' ∨ (m' = m ∧ c' = c)) :
    Inv priced S (P.insertConst m c) 0 .GRAY [] todo' ∧
      ∀ m' c', (P.insertConst m c).Colored (.model m') c' → P.Colored (.model m') c' ∨ (m' = m ∧ c' = c) := by
  rw [Prune.insertConst]
  split
  · rename_i zero
    refine ⟨inv.bound_model zero fresh less apart, fun m' c' colored => ?_⟩
    cases kept : (P.flags (.model m)).skip with
    | true =>
      rw [prune_bound_model_skipped kept] at colored
      exact .inl colored
    | false =>
      rw [(prune_bound_model_bounds kept).colored] at colored
      simpa using colored
  · rename_i more
    refine ⟨{ inv with done := fun m' c' unskipped zero => ?_ }, fun m' c' => .inl⟩
    rcases inv.done m' c' unskipped zero with colored | waits
    · exact .inl colored
    · rcases less m' c' waits with waits | ⟨rfl, rfl⟩
      · exact .inr waits
      · exact absurd zero more

theorem Inv.insertConstmods {l : List (Fin G.nm)} (nodup : l.Nodup) (apart : S.Apart)
    (inv : Inv priced S P 0 .GRAY [] (Waits l)) (fresh : ∀ m ∈ l, ∀ c, ¬ P.Colored (.model m) c) :
    Inv priced S (l.foldl insertConstmod P) 0 .GRAY [] fun _ _ => False := by
  induction l generalizing P with
  | nil =>
    refine { inv with done := fun m c unskipped zero => (inv.done m c unskipped zero).imp_right fun waits => ?_ }
    cases waits
  | cons m l ih =>
    obtain ⟨not_mem, nodup⟩ := List.nodup_cons.mp nodup
    rw [List.foldl_cons, insertConstmod]
    have here := fresh m List.mem_cons_self
    split
    · rename_i skipped
      refine ih nodup { inv with done := fun m' c unskipped zero => ?_ } fun m' mem => fresh m' (List.mem_cons_of_mem _ mem)
      refine (inv.done m' c unskipped zero).imp_right fun waits => ?_
      rcases List.mem_cons.mp waits with rfl | mem
      · rw [inv.skip, unskipped] at skipped
        cases skipped
      · exact mem
    · obtain ⟨gray, gray_colored⟩ := inv.insertConst (fun m' c => m' ∈ l ∨ (m' = m ∧ c = .BLACK)) apart (here .GRAY)
        fun m' c waits => by
          rcases List.mem_cons.mp waits with rfl | mem
          · cases c <;> simp
          · exact .inl (.inl mem)
      have fresh_black : ¬ (P.insertConst m .GRAY).Colored (.model m) .BLACK := by
        intro colored
        rcases gray_colored m .BLACK colored with old | ⟨-, same⟩
        · exact here .BLACK old
        · cases same
      obtain ⟨black, black_colored⟩ := gray.insertConst (Waits l) apart fresh_black fun _ _ => id
      refine ih nodup black fun m' mem c colored => ?_
      have ne : m' ≠ m := fun same => not_mem (same ▸ mem)
      rcases black_colored m' c colored with gray | ⟨same, -⟩
      · rcases gray_colored m' c gray with old | ⟨same, -⟩
        · exact fresh m' (List.mem_cons_of_mem _ mem) c old
        · exact ne same
      · exact ne same

/-- The invariant before the main loop. -/
theorem inv_start {P P₁ : Prune G} (linked : G.Linked) (fresh : P.Fresh)
    (given : P.prune_mark_given.prune_mark_skips.prune_init_mstate.prune_insert_given = .ok P₁) :
    Inv priced P.scope P₁.prune_insert_constmods 0 .GRAY [] fun _ _ => False := by
  have marked := marked (P := P) linked
  have inserts := prune_insert_given_ok given
  have flags (i : Node G) : P₁.flags i = { P.flags i with skip := (P.flags i).skip || P.scope.skip i } := by
    rw [inserts.marks.flags]
    exact marked.flags i
  have uncolored (i : Node G) (c : Color) : ¬ P₁.Colored i c := by
    rw [Colored, flags, (fresh.flags i).1]
    simp
  have bound (w : Node G × Color) : P₁.bound w = 0 := by
    rw [inserts.marks.bound]
    exact (congrFun marked.bound w).trans (fresh.bound w)
  have heap : P.prune_mark_given.prune_mark_skips.prune_init_mstate.heap = P.heap := marked.heap
  have p_miss (m : Fin G.nm) (c : Color) : P₁.p_miss (m, c) = (G.needs c m).length := by
    rw [inserts.marks.p_miss]
    exact missInit_eq linked m c
  have nodes (n : HNode G) : n ∈ P₁.heap.toMultiset ↔ P.scope.given n.xi ∧ n.cost = 0 := by
    rw [inserts.nodes, heap, Heap.toMultiset, fresh.heap]
    have same : (P.prune_mark_given.prune_mark_skips.prune_init_mstate.flags (.var n.xi)).given = P.scope.given n.xi := by
      have flags := congrArg NodeFlags.given (marked.flags (.var n.xi))
      exact flags
    rw [same]
    simp
  refine Inv.insertConstmods (List.nodup_finRange _) scope_apart ?_ fun m _ c => uncolored _ c
  refine ⟨fun i => ?_, fun y c colored => absurd colored (uncolored _ _), fun w => ?_, fun m c => ?_, fun m c _ => ?_,
    fun m c colored => absurd colored (uncolored _ _), fun m c _ _ => .inr (List.mem_finRange m),
    fun m c colored => absurd colored (uncolored _ _), ?_, fun n mem => ?_,
    fun m c colored => absurd colored (uncolored _ _), fun y c given _ => (nodes _).mpr ⟨given, rfl⟩⟩
  · rw [flags]
    cases i <;> simp [scope, Bool.or_assoc]
  · have small := linked.p_param w.1
    have le := List.length_filter_le (G.counts w.2) (G.models w.1).params
    rw [p_miss, Graph.needs, List.length_map]
    omega
  · rw [p_miss, missing, List.countP_eq_length.mpr fun u _ => by simpa using uncolored (.var u) c]
    simp [due]
  · have none_arrived : P₁.arrived m c = 0 := by
      rw [arrived, List.filter_eq_nil_iff.mpr fun u _ => by simpa using uncolored (.var u) c]
      rfl
    rw [bound, none_arrived]
    simp [due]
  · apply inserts.ordered
    rw [heap]
    intro i two le
    rw [fresh.heap] at le
    omega
  · obtain ⟨given, cost⟩ := (nodes n).mp mem
    exact ⟨none, Graph.mem_sources_none.mpr given, (by simp [Graph.sourceNeeds]), cost⟩

end Prune
end M2.Fhk
