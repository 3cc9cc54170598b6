import Mathlib.Tactic.Ring
import M2.Fhk.PruneCost

/-!
# Steps of the pruner

What each loop of the pruner changes, and the links between the two ends of an edge that the counters
rest on.
-/
namespace M2.Fhk
open M2.Lib

namespace Graph

/-- The edges have both ends: each variable lists the models that it is a parameter of, and the models
that return it. The builder keeps this. -/
structure Ends (G : Graph) : Prop where
  fwds : ∀ x m, (G.vars x).fwds.countP (·.idx = m) = (G.models m).params.countP (·.idx = x)
  models : ∀ x m, (∃ e ∈ (G.vars x).models, e.idx = m) ↔ ∃ e ∈ (G.models m).returns, e.idx = x
  p_param : ∀ m, (G.models m).params.length < 256

/-- Both ends of a parameter edge agree on being behind a user map. -/
structure Linked (G : Graph) : Prop extends Ends G where
  counted : ∀ x m, (G.vars x).fwds.countP (fun e => e.idx = m ∧ G.xnonempty e.map) =
    (G.models m).params.countP fun e => e.idx = x ∧ G.xnonempty e.map

/-- A return edge that is not behind a user map has another end that is not. -/
def Returned (G : Graph) : Prop := ∀ m, ∀ e ∈ (G.models m).returns, G.xnonempty e.map →
  ∃ e' ∈ (G.vars e.idx).models, e'.idx = m ∧ G.xnonempty e'.map

variable {G : Graph}

/-- The two tests of a variable and a model agree as computations. -/
theorem models_iff_of_any {x : Fin G.nv} {m : Fin G.nm}
    (same : (G.vars x).models.any (fun e => decide (e.idx.val = m.val)) = (G.models m).returns.any fun e => decide (e.idx.val = x.val)) :
    (∃ e ∈ (G.vars x).models, e.idx = m) ↔ ∃ e ∈ (G.models m).returns, e.idx = x := by
  rw [Bool.eq_iff_iff, List.any_eq_true, List.any_eq_true] at same
  simpa only [decide_eq_true_eq, Fin.val_inj] using same

theorem Linked.counts (linked : G.Linked) (color : Color) (x : Fin G.nv) (m : Fin G.nm) :
    (G.vars x).fwds.countP (fun e => e.idx = m ∧ G.counts color e) =
      (G.models m).params.countP fun e => e.idx = x ∧ G.counts color e := by
  cases color with
  | GRAY => simpa [Graph.counts] using linked.counted x m
  | BLACK => simpa [Graph.counts] using linked.fwds x m

theorem count_needs (color : Color) (m : Fin G.nm) (x : Fin G.nv) :
    (G.needs color m).count x = (G.models m).params.countP fun e => e.idx = x ∧ G.counts color e := by
  rw [needs, List.count, List.countP_map, List.countP_filter]
  refine List.countP_congr fun e _ => ?_
  simp

end Graph

/-- The flags without the markers of the colors. -/
def NodeFlags.plain (F : NodeFlags) : NodeFlags := { F with color := fun _ => false }

namespace Prune
variable {G : Graph} (P : Prune G)

/-- The node carries the marker of the color. -/
def Colored (i : Node G) (color : Color) : Prop := (P.flags i).color color = true

instance (i : Node G) (color : Color) : Decidable (P.Colored i color) := inferInstanceAs (Decidable (_ = _))

/-- Everything but the heap is the same. -/
structure SameMarks (P P' : Prune G) : Prop where
  flags : P'.flags = P.flags
  bound : P'.bound = P.bound
  p_miss : P'.p_miss = P.p_miss

variable {P}

theorem insertReturns (cost : Cost) (color : Color) (l : List (Edge G.nv)) :
    SameMarks P (l.foldl (insertReturn cost color) P) ∧
      (P.heap.Ordered → (l.foldl (insertReturn cost color) P).heap.Ordered) ∧
      (l.foldl (insertReturn cost color) P).heap.toMultiset =
        P.heap.toMultiset + ((l.filter (G.covers color)).map fun e => (⟨cost, color, e.idx⟩ : HNode G) : List (HNode G)) := by
  induction l generalizing P with
  | nil => exact ⟨⟨rfl, rfl, rfl⟩, id, by simp⟩
  | cons e l ih =>
    rw [List.foldl_cons]
    by_cases covered : G.covers color e
    · have here : insertReturn cost color P e = P.prune_insert_var e.idx cost color := by
        rw [insertReturn, if_pos (by simpa [Graph.covers] using covered)]
      obtain ⟨same, ordered, nodes⟩ := ih (P := insertReturn cost color P e)
      rw [here] at same ordered nodes ⊢
      refine ⟨⟨same.flags, same.bound, same.p_miss⟩, fun first => ordered (first.push _), ?_⟩
      rw [nodes, List.filter_cons_of_pos covered, prune_insert_var, Heap.push_nodes, List.map_cons, ← Multiset.cons_coe,
        Multiset.cons_add, Multiset.add_cons]
    · have here : insertReturn cost color P e = P := by
        rw [insertReturn, if_neg (by simpa [Graph.covers] using covered)]
      rw [here, List.filter_cons_of_neg covered]
      exact ih

theorem addPenalty_eq (m : Model G.nv G.nw) (color : Color) (cost : Cost) : P.addPenalty m color cost =
    cost + ((m.shadows.filter fun e =>
      color = .BLACK ∨ (P.flags (.var (G.shadows e.idx).xi)).skip).map ShEdge.penalty).sum := by
  unfold addPenalty
  induction m.shadows generalizing cost with
  | nil => simp
  | cons e l ih =>
    rw [List.foldl_cons]
    by_cases due : color = .BLACK ∨ (P.flags (.var (G.shadows e.idx).xi)).skip
    · rw [if_pos due, ih, List.filter_cons_of_pos (by simpa using due), List.map_cons, List.sum_cons, add_assoc]
    · rw [if_neg due, ih, List.filter_cons_of_neg (by simpa using due)]

/-- What bounding a model leaves. -/
structure Bounds (P P' : Prune G) (m : Fin G.nm) (color : Color) (cost : Cost) : Prop where
  flags : P'.flags = (P.mark (.model m) color).flags
  bound : P'.bound = Function.update P.bound (.model m, color) cost
  p_miss : P'.p_miss = P.p_miss
  ordered : P.heap.Ordered → P'.heap.Ordered
  nodes : P'.heap.toMultiset =
    P.heap.toMultiset + ((G.reaches color m).map fun x => (⟨cost, color, x⟩ : HNode G) : List (HNode G))

theorem mark_colored {i j : Node G} {color c : Color} :
    (P.mark i color).Colored j c ↔ P.Colored j c ∨ (j = i ∧ c = color) := by
  unfold mark setFlags Colored
  simp only [Function.update_apply]
  by_cases here : j = i
  · subst here
    by_cases same : c = color
    · simp [same]
    · simp [same]
  · simp [here]

theorem mark_plain {i j : Node G} {color : Color} : ((P.mark i color).flags j).plain = (P.flags j).plain := by
  unfold mark setFlags
  simp only [Function.update_apply]
  split
  · rename_i same
    rw [same]
    rfl
  · rfl

theorem skip_of_plain {F F' : NodeFlags} (same : F.plain = F'.plain) : F.skip = F'.skip := by
  have skips := congrArg NodeFlags.skip same
  exact skips

theorem mark_skip {i j : Node G} {color : Color} : ((P.mark i color).flags j).skip = (P.flags j).skip :=
  skip_of_plain mark_plain

theorem prune_bound_model_bounds {m : Fin G.nm} {color : Color} (kept : (P.flags (.model m)).skip = false) :
    Bounds P (P.prune_bound_model m color) m color
      ((G.models m).costf (P.bound (.model m, color) + (((G.models m).shadows.filter fun e =>
        color = .BLACK ∨ (P.flags (.var (G.shadows e.idx).xi)).skip).map ShEdge.penalty).sum)) := by
  rw [prune_bound_model, if_neg (by simp [kept])]
  simp only
  have penalty : (P.mark (.model m) color).addPenalty (G.models m) color ((P.mark (.model m) color).bound (.model m, color)) =
      P.bound (.model m, color) + (((G.models m).shadows.filter fun e =>
        color = .BLACK ∨ (P.flags (.var (G.shadows e.idx).xi)).skip).map ShEdge.penalty).sum := by
    rw [addPenalty_eq]
    simp only [mark_skip]
    rfl
  rw [penalty]
  generalize (G.models m).costf _ = cost
  obtain ⟨same, ordered, nodes⟩ := insertReturns (P := (P.mark (.model m) color).setBound (.model m) color cost) cost color
    (G.models m).returns
  refine ⟨?_, ?_, ?_, ordered, ?_⟩
  · rw [same.flags]
    rfl
  · rw [same.bound]
    rfl
  · rw [same.p_miss]
    rfl
  · rw [nodes, Graph.reaches, List.map_map]
    rfl

theorem Bounds.colored {P' : Prune G} {m : Fin G.nm} {color : Color} {cost : Cost} (bounds : Bounds P P' m color cost)
    (i : Node G) (c : Color) : P'.Colored i c ↔ P.Colored i c ∨ (i = .model m ∧ c = color) := by
  rw [Colored, bounds.flags]
  exact mark_colored

theorem Bounds.skip {P' : Prune G} {m : Fin G.nm} {color : Color} {cost : Cost} (bounds : Bounds P P' m color cost)
    (i : Node G) : (P'.flags i).skip = (P.flags i).skip := by
  rw [bounds.flags, mark_skip]

theorem prune_bound_model_skipped {m : Fin G.nm} {color : Color} (skipped : (P.flags (.model m)).skip = true) :
    P.prune_bound_model m color = P := by
  rw [prune_bound_model, if_pos skipped]

/-! ## Variables -/

/-- The variables are the same, and the flags apart from the markers. -/
structure SameVars (P P' : Prune G) : Prop where
  plain : ∀ i, (P'.flags i).plain = (P.flags i).plain
  colored : ∀ x c, P'.Colored (.var x) c ↔ P.Colored (.var x) c
  bound : ∀ x c, P'.bound (.var x, c) = P.bound (.var x, c)

theorem SameVars.refl : SameVars P P := ⟨fun _ => rfl, fun _ _ => Iff.rfl, fun _ _ => rfl⟩

theorem SameVars.trans {P₁ P₂ : Prune G} (first : SameVars P P₁) (second : SameVars P₁ P₂) : SameVars P P₂ :=
  ⟨fun i => (second.plain i).trans (first.plain i), fun x c => (second.colored x c).trans (first.colored x c),
    fun x c => (second.bound x c).trans (first.bound x c)⟩

theorem prune_bound_model_vars (m : Fin G.nm) (color : Color) : SameVars P (P.prune_bound_model m color) := by
  cases kept : (P.flags (.model m)).skip with
  | true =>
    rw [prune_bound_model_skipped kept]
    exact .refl
  | false =>
    have bounds : Bounds P (P.prune_bound_model m color) m color _ := prune_bound_model_bounds kept
    refine ⟨fun i => by rw [bounds.flags, mark_plain], fun x c => ?_, fun x c => ?_⟩
    · rw [bounds.colored]
      simp
    · rw [bounds.bound, Function.update_of_ne (by simp)]

theorem boundFwd_vars (cost : Cost) (color : Color) (e : Edge G.nm) : SameVars P (boundFwd cost color P e) := by
  unfold boundFwd
  split
  · exact .refl
  · simp only
    have counter (miss : Nat) : SameVars P { P.setBound (.model e.idx) color (P.bound (.model e.idx, color) + cost) with
        p_miss := Function.update P.p_miss (e.idx, color) miss } :=
      ⟨fun _ => rfl, fun _ _ => Iff.rfl, fun x c => by simp [setBound]⟩
    split
    · exact (counter _).trans (prune_bound_model_vars _ _)
    · exact counter _

theorem foldl_boundFwd_vars (cost : Cost) (color : Color) (l : List (Edge G.nm)) :
    SameVars P (l.foldl (boundFwd cost color) P) := by
  induction l generalizing P with
  | nil => exact .refl
  | cons e l ih => exact (boundFwd_vars cost color e).trans ih

end Prune
end M2.Fhk
