import Mathlib.Data.List.Basic
import Mathlib.Logic.Function.Basic

/-!
# Appending to arrays in one memory

Arrays that grow in one memory, each with its own counter. If no two of their places coincide, every
array holds in the end what was appended to it, in order.
-/
namespace M2.Lib

variable {K A V : Type*} [DecidableEq K] [DecidableEq A]

/-- A memory, and how much of each array is written. -/
structure Appends (K A V : Type*) where
  mem : A → V
  count : K → Nat

namespace Appends

/-- Write at the next place of an array. What is written may keep parts of what was there. -/
def push (place : K → Nat → A) (s : Appends K A V) (w : K × (V → V)) : Appends K A V :=
  let a := place w.1 (s.count w.1)
  ⟨Function.update s.mem a (w.2 (s.mem a)), Function.update s.count w.1 (s.count w.1 + 1)⟩

/-- What a sequence of writes appends to one array. -/
def only (k : K) (l : List (K × (V → V))) : List (V → V) := (l.filter (·.1 = k)).map Prod.snd

@[simp] theorem only_nil (k : K) : only k ([] : List (K × (V → V))) = [] := rfl

@[simp] theorem only_append (k : K) (l l' : List (K × (V → V))) : only k (l ++ l') = only k l ++ only k l' := by
  simp [only]

theorem only_cons (k : K) (w : K × (V → V)) (l : List (K × (V → V))) :
    only k (w :: l) = if w.1 = k then w.2 :: only k l else only k l := by
  by_cases same : w.1 = k <;> simp [only, same]

theorem only_flatMap {ι : Type*} (k : K) (l : List ι) (f : ι → List (K × (V → V))) :
    only k (l.flatMap f) = l.flatMap fun i => only k (f i) := by
  induction l with
  | nil => rfl
  | cons i l ih => rw [List.flatMap_cons, only_append, ih, List.flatMap_cons]

variable (place : K → Nat → A)

theorem count_push (s : Appends K A V) (w : K × (V → V)) (k : K) :
    (s.push place w).count k = s.count k + if w.1 = k then 1 else 0 := by
  by_cases same : w.1 = k
  · subst same
    simp [push]
  · simp [push, same, Function.update_of_ne (Ne.symm same)]

theorem count_run (s : Appends K A V) (l : List (K × (V → V))) (k : K) :
    (l.foldl (push place) s).count k = s.count k + (only k l).length := by
  induction l generalizing s with
  | nil => rfl
  | cons w l ih =>
    rw [List.foldl_cons, ih, count_push, only_cons]
    split
    · rw [List.length_cons]
      omega
    · rfl

/-- A place that belongs to none of the appends keeps its content. -/
theorem run_frame (s : Appends K A V) (l : List (K × (V → V))) {a : A}
    (outside : ∀ k i, s.count k ≤ i → i < s.count k + (only k l).length → place k i ≠ a) :
    (l.foldl (push place) s).mem a = s.mem a := by
  induction l generalizing s with
  | nil => rfl
  | cons w l ih =>
    rw [List.foldl_cons, ih]
    · have here := outside w.1 (s.count w.1) (Nat.le_refl _) (by rw [only_cons, if_pos rfl, List.length_cons]; omega)
      exact Function.update_of_ne (Ne.symm here) _ _
    · intro k i low high
      rw [count_push] at low high
      refine outside k i (by omega) ?_
      rw [only_cons]
      split
      · rename_i same
        rw [if_pos same] at high
        rw [List.length_cons]
        omega
      · rename_i other
        rwa [if_neg other] at high

/-- The places of a run are all different. -/
def Apart (s : Appends K A V) (l : List (K × (V → V))) : Prop :=
  ∀ k i k' i', s.count k ≤ i → i < s.count k + (only k l).length → s.count k' ≤ i' →
    i' < s.count k' + (only k' l).length → place k i = place k' i' → k = k' ∧ i = i'

variable {place}

theorem Apart.tail {s : Appends K A V} {w : K × (V → V)} {l : List (K × (V → V))} (apart : Apart place s (w :: l)) :
    Apart place (s.push place w) l := by
  have wider (k : K) (i : Nat) (low : (s.push place w).count k ≤ i) (high : i < (s.push place w).count k + (only k l).length) :
      s.count k ≤ i ∧ i < s.count k + (only k (w :: l)).length := by
    rw [count_push] at low high
    rw [only_cons]
    split at low
    · rename_i same
      rw [if_pos same] at high ⊢
      rw [List.length_cons]
      omega
    · rename_i other
      rw [if_neg other] at high ⊢
      omega
  intro k i k' i' low high low' high' same
  obtain ⟨le, lt⟩ := wider k i low high
  obtain ⟨le', lt'⟩ := wider k' i' low' high'
  exact apart k i k' i' le lt le' lt' same

/-- Each array ends up with what was appended to it. -/
theorem run_mem (s : Appends K A V) (l : List (K × (V → V))) (apart : Apart place s l) (k : K) (i : Nat) (f : V → V)
    (at' : (only k l)[i]? = some f) : ∃ v, (l.foldl (push place) s).mem (place k (s.count k + i)) = f v := by
  induction l generalizing s i with
  | nil => cases at'
  | cons w l ih =>
    rw [List.foldl_cons]
    rw [only_cons] at at'
    split at at'
    · rename_i same
      subst same
      cases i with
      | zero =>
        cases at'
        refine ⟨s.mem (place w.1 (s.count w.1)), ?_⟩
        -- the later appends lie elsewhere
        rw [run_frame]
        · exact Function.update_self ..
        · intro k i low high same
          have head : s.count w.1 < s.count w.1 + (only w.1 (w :: l)).length := by
            rw [only_cons, if_pos rfl, List.length_cons]
            omega
          have first := count_push place s w k
          obtain ⟨rfl, rfl⟩ := apart k i w.1 (s.count w.1) (by omega)
            (by rw [only_cons]; split at first <;> rename_i h <;> simp only [h, if_true, if_false, List.length_cons] <;> omega)
            (Nat.le_refl _) head same
          rw [first, if_pos rfl] at low
          omega
      | succ i =>
        obtain ⟨v, mem⟩ := ih (s.push place w) apart.tail i at'
        refine ⟨v, ?_⟩
        rw [← mem, count_push, if_pos rfl]
        congr 2
        omega
    · rename_i other
      obtain ⟨v, mem⟩ := ih (s.push place w) apart.tail i at'
      refine ⟨v, ?_⟩
      rw [← mem, count_push, if_neg other, Nat.add_zero]

end Appends
end M2.Lib
