import M2.Control.Emit
import Mathlib.Data.Finset.Union

/-!
Export patching against the compiler. The traversal and the compiler were written apart: the compiler takes a
raw function for what it is, the traversal indexes it.
-/
namespace M2.Control

open Lib.Dfs

variable {N : Nat} {table : String → Option Export} {loads : Chunk → Bool} {G : Graph N} {root : Ref N}

/-- Patching ends, converts each export that is reached once and leaves the other nodes as they are. No export is
reached afterwards and the compiler gives a function. -/
def Patches (table : String → Option Export) (loads : Chunk → Bool) (G : Graph N) (root : Ref N) : Prop :=
  ∃ bound, ∀ fuel ≥ bound, ∃ w, patch_exports table fuel G root = .ok w ∧
    w.calls.Nodup ∧ (∀ i, i ∈ w.calls ↔ Reach (next G) root (.node i) ∧ (G i).isExported) ∧
    (∀ i ∈ w.calls, convert table (G i) = some (w.graph i)) ∧ (∀ i, i ∉ w.calls → w.graph i = G i) ∧
    (∀ i, Reach (next w.graph) root (.node i) → (w.graph i).isExported = false) ∧
    ∃ bound', ∀ fuel' ≥ bound', ∃ func, compile loads fuel' w.graph root = .ok func

/-- No raw function is reached, and every export that is reached converts to a function. -/
structure Convertible (table : String → Option Export) (G : Graph N) (root : Ref N) : Prop where
  no_func : ∀ k, ¬ Reach (next G) root (.func k)
  converts : ∀ i, Reach (next G) root (.node i) → convert table (G i) ≠ none

/-- What can be walked. -/
def refs (G : Graph N) (root : Ref N) : Finset (Ref N) :=
  insert root (Finset.univ.image Ref.node ∪ Finset.univ.biUnion fun i => (next G (.node i)).toFinset)

theorem refs_closed (G : Graph N) (root : Ref N) : ∀ x ∈ refs G root, ∀ y ∈ next G x, y ∈ refs G root := by
  intro x _ y child
  cases x with
  | func k => exact absurd child List.not_mem_nil
  | node i =>
    apply Finset.mem_insert_of_mem
    apply Finset.mem_union_right
    exact Finset.mem_biUnion.mpr ⟨i, Finset.mem_univ i, List.mem_toFinset.mpr child⟩

/-- What a patching that goes through has done. -/
theorem patch_exports_walked {fuel : Nat} {w : Patch N} (done : patch_exports table fuel G root = .ok w) :
    ∃ seen order, Walked (walk_node (patch_node table)) (next G) [root] (⟨G, []⟩, []) (w, seen) order ∧
      Between table G w := by
  rw [patch_exports] at done
  cases run : walk (walk_node (patch_node table)) fuel root (({ graph := G, calls := [] } : Patch N), []) with
  | error stop =>
    rw [run] at done
    cases done
  | ok s =>
    rw [run] at done
    cases done
    obtain ⟨kept, order, walked⟩ := walk_walked (between_keep G) (fun i => .inl rfl) run
    exact ⟨s.2, order, walked, kept⟩

/-- Patching ends on every graph. -/
theorem patch_exports_ends (table : String → Option Export) {fuel : Nat} (enough : (refs G root).card < fuel) :
    (∃ w, patch_exports table fuel G root = .ok w) ∨
      ∃ message, patch_exports table fuel G root = .error (.error message) ∧ ¬ Convertible table G root := by
  have unseen : ((refs G root).filter (· ∉ ([] : List (Ref N)))).card < fuel :=
    lt_of_le_of_lt (Finset.card_filter_le _ _) enough
  have start : Between table G { graph := G, calls := [] } := fun i => .inl rfl
  rcases walk_ends (between_keep G) (s := ({ graph := G, calls := [] }, [])) start (refs_closed G root)
    (Finset.mem_insert_self _ _) unseen with ⟨s, done⟩ | ⟨x, w, stop, reach, between, fails, stopped⟩
  · refine .inl ⟨s.1, ?_⟩
    rw [patch_exports, done]
    rfl
  · obtain ⟨⟨message, rfl⟩, not_converts⟩ := walk_node_error fails
    refine .inr ⟨message, ?_, fun good => ?_⟩
    · rw [patch_exports, stopped]
      rfl
    · cases x with
      | func k => exact good.no_func k reach
      | node i =>
        cases converts : convert table (G i) with
        | none => exact good.converts i reach converts
        | some n =>
          have still := between.convert converts
          rw [not_converts i rfl] at still
          cases still

/-- Chunks depend on the children only. -/
theorem chunks_congr {G H : Graph N} {n : Node N} (same : ∀ i, .node i ∈ n.edges.getD [] → G i = H i) :
    chunks G n = chunks H n := by
  cases n with
  | all edges =>
    apply List.filterMap_congr
    intro e mem
    cases e with
    | func k => rfl
    | node i => simp only [same i mem]
  | any edges =>
    have nothings : edges.map (isnothing G) = edges.map (isnothing H) := by
      apply List.map_congr_left
      intro e mem
      cases e with
      | func k => rfl
      | node i => simp only [isnothing, same i mem]
    rw [chunks, chunks, nothings]
  | _ => rfl

/-- Patching works exactly where no raw function is reached and every export converts. -/
theorem patches_iff (accepted : Loads loads (patched table G) root) :
    Patches table loads G root ↔ Convertible table G root := by
  constructor
  · rintro ⟨bound, works⟩
    obtain ⟨w, done, -⟩ := works bound le_rfl
    obtain ⟨seen, order, walked, -⟩ := patch_exports_walked done
    have inside := (visits_patched walked.nodup walked.run).1
    constructor
    · intro k reach
      obtain ⟨i, same, -⟩ := inside _ ((walked.mem_iff _).mpr reach)
      cases same
    · intro i reach none
      obtain ⟨j, same, converts⟩ := inside _ ((walked.mem_iff _).mpr reach)
      cases same
      rw [none] at converts
      cases converts
  · intro good
    refine ⟨(refs G root).card + 1, fun fuel enough => ?_⟩
    rcases patch_exports_ends table enough with ⟨w, done⟩ | ⟨message, -, bad⟩
    · obtain ⟨seen, order, walked, between⟩ := patch_exports_walked done
      obtain ⟨inside, outside, calls, more, nodup, members⟩ := visits_patched walked.nodup walked.run
      have log : w.calls = calls := more
      have reached : ∀ i, Reach (next G) root (.node i) → convert table (G i) = some (w.graph i) := by
        intro i reach
        obtain ⟨j, same, converts⟩ := inside _ ((walked.mem_iff _).mpr reach)
        cases same
        exact converts
      have next_eq : next w.graph = next G := funext between.next
      have members' : ∀ i, i ∈ w.calls ↔ Reach (next G) root (.node i) ∧ (G i).isExported := by
        intro i
        rw [log, members i, walked.mem_iff]
      refine ⟨w, done, log ▸ nodup, members', ?_, ?_, ?_, N + 1, fun fuel' enough' => ?_⟩
      · exact fun i mem => reached i ((members' i).mp mem).1
      · intro i out
        by_cases reach : Reach (next G) root (.node i)
        · have other : (G i).isExported = false := by
            by_contra isExport
            exact out ((members' i).mpr ⟨reach, Bool.eq_true_of_not_eq_false isExport⟩)
          exact (Option.some.inj ((convert_other other).symm.trans (reached i reach))).symm
        · exact outside i fun mem => reach ((walked.mem_iff _).mp mem)
      · intro i reach
        rw [next_eq] at reach
        exact convert_isExported (reached i reach)
      · apply compile_succeeds _ _ enough'
        · refine ⟨accepted.fixed, fun i reach => ?_⟩
          rw [next_eq] at reach
          have patched_eq : ∀ j, Reach (next G) root (.node j) → w.graph j = patched table G j := by
            intro j reach
            rw [patched, reached j reach]
            rfl
          have children : ∀ j, .node j ∈ (w.graph i).edges.getD [] → w.graph j = patched table G j := by
            intro j child
            apply patched_eq
            rw [convert_edges (reached i reach)] at child
            exact .tail reach child
          rw [chunks_congr children, patched_eq i reach]
          apply accepted.node
          rwa [next_patched]
        · intro i reach
          rw [next_eq] at reach
          exact convert_isExported (reached i reach)
    · exact absurd good bad

/-- `all { export, self }` and the export. -/
def loopWithExport : Graph 2 := fun i =>
  if i.val = 0 then .all [.node ⟨1, Nat.one_lt_two⟩, .node ⟨0, Nat.two_pos⟩] else .exported "grow" 1 [.bool true]

theorem patches_iff_loopWithExport :
    Patches (fun _ => some (.func 7)) (fun _ => true) loopWithExport (.node ⟨0, Nat.two_pos⟩) ↔
      Convertible (fun _ => some (.func 7)) loopWithExport (.node ⟨0, Nat.two_pos⟩) :=
  patches_iff ⟨fun _ _ => rfl, fun _ _ _ _ => rfl⟩

/-- An instruction that is a raw function. -/
def rawInstruction : Graph 1 := fun _ => .all [.func 0]

/-- The compiler accepts it, and patching its exports, of which there are none, stops with an error. -/
theorem not_patches_rawInstruction :
    (∃ func, compile (fun _ => true) 2 rawInstruction (.node ⟨0, Nat.one_pos⟩) = .ok func) ∧
      ¬ Patches (fun _ => none) (fun _ => true) rawInstruction (.node ⟨0, Nat.one_pos⟩) := by
  constructor
  · exact ⟨_, rfl⟩
  · rintro ⟨bound, works⟩
    obtain ⟨w, done, -⟩ := works (bound + 2) (Nat.le_add_right _ _)
    cases done

end M2.Control
