import Mathlib.Data.List.Forall2
import Mathlib.Data.List.Induction
import Mathlib.Data.List.Nodup

/-!
# Lists that are gone through

A loop that stops at the first refusal has an invariant of the elements before, and what it makes of each element stands
in a list next to the first one. Elements are named by their places.
-/
namespace M2.Lib

/-- The rule of a loop that stops at the first refusal. The invariant speaks of the elements before. -/
theorem foldlM_rule {σ α : Type*} {f : σ → α → Option σ} {l : List α} {s s' : σ} (I : List α → σ → Prop)
    (ok : l.foldlM f s = some s') (start : I [] s)
    (step : ∀ done a s s', a ∈ l → I done s → f s a = some s' → I (done ++ [a]) s') : I l s' := by
  induction l using List.reverseRecOn generalizing s' with
  | nil =>
    cases ok
    exact start
  | append_singleton l a ih =>
    rw [List.foldlM_append] at ok
    obtain ⟨s1, first, last⟩ := Option.bind_eq_some_iff.mp ok
    rw [List.foldlM_cons] at last
    obtain ⟨s2, here, stop⟩ := Option.bind_eq_some_iff.mp last
    cases stop
    apply step l a s1 s' (by simp) _ here
    exact ih first fun done b t t' mem => step done b t t' (List.mem_append_left _ mem)

theorem forall₂_concat {α β : Type*} {R : α → β → Prop} {l : List α} {l' : List β} {a : α} {b : β}
    (all : List.Forall₂ R l l') (last : R a b) : List.Forall₂ R (l ++ [a]) (l' ++ [b]) :=
  List.rel_append all (.cons last .nil)

theorem forall₂_set {α β : Type*} {R : α → β → Prop} {l : List α} {l' : List β} {i : Nat} {b b' : β}
    (all : List.Forall₂ R l l') (here : l'[i]? = some b) (keep : ∀ a, R a b → R a b') : List.Forall₂ R l (l'.set i b') := by
  induction all generalizing i with
  | nil => exact .nil
  | cons head tail ih =>
    cases i with
    | zero =>
      cases here
      exact .cons (keep _ head) tail
    | succ i => exact .cons head (ih here)

theorem forall₂_mem {α β : Type*} {R : α → β → Prop} {l : List α} {l' : List β} (all : List.Forall₂ R l l') {a : α}
    (mem : a ∈ l) : ∃ b ∈ l', R a b := by
  induction all with
  | nil => cases mem
  | cons head tail ih =>
    obtain rfl | mem := List.mem_cons.mp mem
    · exact ⟨_, List.mem_cons_self, head⟩
    · obtain ⟨b, there, holds⟩ := ih mem
      exact ⟨b, List.mem_cons_of_mem _ there, holds⟩

theorem forall₂_at {α β : Type*} {R : α → β → Prop} {l : List α} {l' : List β} (all : List.Forall₂ R l l') {i : Nat} {b : β}
    (there : l'[i]? = some b) : ∃ a, l[i]? = some a ∧ R a b := by
  induction all generalizing i with
  | nil => cases there
  | cons head tail ih =>
    cases i with
    | zero =>
      cases there
      exact ⟨_, rfl, head⟩
    | succ i => exact ih there

theorem idxOf_getElem {α : Type*} [BEq α] [LawfulBEq α] {l : List α} (nodup : l.Nodup) {i : Nat} (lt : i < l.length) :
    l.idxOf? l[i] = some i := by
  rw [List.idxOf?_eq_some_iff]
  refine ⟨lt, rfl, fun j before same => ?_⟩
  have := nodup.getElem_inj_iff.mp same
  omega

theorem getElem_of_idxOf {α : Type*} [BEq α] [LawfulBEq α] {l : List α} {a : α} {i : Nat} (here : l.idxOf? a = some i) :
    l[i]? = some a := by
  obtain ⟨lt, same, -⟩ := List.idxOf?_eq_some_iff.mp here
  rw [List.getElem?_eq_getElem lt, same]

theorem nodup_concat {α : Type*} {l : List α} {a : α} (nodup : l.Nodup) (new : a ∉ l) : (l ++ [a]).Nodup := by
  rw [← List.concat_eq_append]
  exact nodup.concat new

end M2.Lib
