import Mathlib

/-!
# Runs of consecutive numbers

A strictly increasing list is cut into its maximal runs of consecutive numbers, each given by its first
and last element. The list is what the runs stand for, one after the other.
-/
namespace M2.Lib.Runs

/-- The numbers of a run. -/
def insts (r : Nat × Nat) : List Nat := List.range' r.1 (r.2 + 1 - r.1)

/-- The runs of a list behind the run from `first` to `last`. -/
def cut (first last : Nat) : List Nat → List (Nat × Nat)
  | [] => [(first, last)]
  | p :: rest => if p = last + 1 then cut first p rest else (first, last) :: cut p p rest

/-- The runs of a list. -/
def runs : List Nat → List (Nat × Nat)
  | [] => []
  | p :: rest => cut p p rest

/-- The runs stand for the list, are not empty, and leave gaps. -/
structure Maximal (l : List Nat) (rs : List (Nat × Nat)) : Prop where
  flat : rs.flatMap insts = l
  le : ∀ r ∈ rs, r.1 ≤ r.2
  gaps : rs.Pairwise fun r s => r.2 + 1 < s.1

theorem insts_length {r : Nat × Nat} : (insts r).length = r.2 + 1 - r.1 := List.length_range'

theorem mem_insts {r : Nat × Nat} {i : Nat} : i ∈ insts r ↔ r.1 ≤ i ∧ i ≤ r.2 := by
  rw [insts, List.mem_range'_1]
  omega

/-- A run that is continued by the next number. -/
theorem insts_snoc {first last : Nat} (le : first ≤ last) : insts (first, last + 1) = insts (first, last) ++ [last + 1] := by
  simp only [insts]
  rw [show last + 1 + 1 - first = last + 1 - first + 1 by omega, List.range'_concat]
  congr 2
  omega

theorem insts_self (p : Nat) : insts (p, p) = [p] := by
  simp only [insts]
  rw [show p + 1 - p = 1 by omega, List.range'_one]

/-- A run starts where the run in progress does, or at an element. -/
theorem cut_starts (first last : Nat) (l : List Nat) : ∀ r ∈ cut first last l, r.1 = first ∨ r.1 ∈ l := by
  induction l generalizing first last with
  | nil =>
    intro r mem
    rw [cut, List.mem_singleton] at mem
    exact .inl (by rw [mem])
  | cons p rest ih =>
    intro r mem
    rw [cut] at mem
    split at mem
    · exact (ih first p r mem).imp_right (List.mem_cons_of_mem _)
    · obtain rfl | mem := List.mem_cons.mp mem
      · exact .inl rfl
      · refine .inr ?_
        obtain eq | there := ih p p r mem
        · rw [eq]
          exact List.mem_cons_self
        · exact List.mem_cons_of_mem _ there

/-- Cutting an increasing list gives its maximal runs. -/
theorem cut_maximal {first last : Nat} {l : List Nat} (le : first ≤ last) (above : ∀ p ∈ l, last < p)
    (sorted : l.Pairwise (· < ·)) : Maximal (insts (first, last) ++ l) (cut first last l) := by
  induction l generalizing first last with
  | nil =>
    refine ⟨by rw [cut, List.flatMap_singleton, List.append_nil], fun r mem => ?_, ?_⟩
    · rw [cut, List.mem_singleton] at mem
      rw [mem]
      exact le
    · rw [cut]
      exact List.pairwise_singleton _ _
  | cons p rest ih =>
    obtain ⟨above_p, rest_sorted⟩ := List.pairwise_cons.mp sorted
    have gap := above p List.mem_cons_self
    rw [cut]
    split
    · rename_i next
      subst next
      have longer := @ih first (last + 1) (by omega) above_p rest_sorted
      rwa [insts_snoc le, List.append_assoc] at longer
    · rename_i apart
      have rest_maximal := ih (le_refl p) above_p rest_sorted
      rw [insts_self] at rest_maximal
      refine ⟨?_, fun r mem => ?_, List.pairwise_cons.mpr ⟨fun r mem => ?_, rest_maximal.gaps⟩⟩
      · rw [List.flatMap_cons, rest_maximal.flat]
        rfl
      · obtain rfl | mem := List.mem_cons.mp mem
        · exact le
        · exact rest_maximal.le r mem
      · have start : p ≤ r.1 := by
          obtain eq | there := cut_starts p p rest r mem
          · exact eq.ge
          · exact (above_p _ there).le
        change last + 1 < r.1
        omega

theorem runs_maximal {l : List Nat} (sorted : l.Pairwise (· < ·)) : Maximal l (runs l) := by
  cases l with
  | nil => exact ⟨rfl, fun _ mem => absurd mem List.not_mem_nil, List.Pairwise.nil⟩
  | cons p rest =>
    obtain ⟨above, rest_sorted⟩ := List.pairwise_cons.mp sorted
    have maximal := cut_maximal (le_refl p) above rest_sorted
    rwa [insts_self] at maximal

/-- A run in progress takes in the numbers that follow it. -/
theorem cut_extend (first last k : Nat) (l : List Nat) : cut first last (List.range' (last + 1) k ++ l) = cut first (last + k) l := by
  induction k generalizing last with
  | zero => rfl
  | succ k ih =>
    rw [List.range'_succ, List.cons_append, cut, if_pos rfl, ih, Nat.add_assoc, Nat.add_comm 1]

/-- A list has no other maximal runs. -/
theorem Maximal.eq_runs {l : List Nat} {rs : List (Nat × Nat)} (maximal : Maximal l rs) : runs l = rs := by
  obtain ⟨flat, le, gaps⟩ := maximal
  subst flat
  induction rs with
  | nil => rfl
  | cons r rest ih =>
    obtain ⟨gap, rest_gaps⟩ := List.pairwise_cons.mp gaps
    have r_le := le r List.mem_cons_self
    have whole : insts r = r.1 :: List.range' (r.1 + 1) (r.2 - r.1) := by
      rw [insts, show r.2 + 1 - r.1 = r.2 - r.1 + 1 by omega, List.range'_succ]
    rw [List.flatMap_cons, whole, List.cons_append, runs, cut_extend, show r.1 + (r.2 - r.1) = r.2 by omega]
    have rest_eq := ih (fun s mem => le s (List.mem_cons_of_mem _ mem)) rest_gaps
    cases rest with
    | nil => rfl
    | cons s more =>
      have s_le := le s (List.mem_cons_of_mem _ List.mem_cons_self)
      have s_gap := gap s List.mem_cons_self
      have start : insts s = s.1 :: List.range' (s.1 + 1) (s.2 - s.1) := by
        rw [insts, show s.2 + 1 - s.1 = s.2 - s.1 + 1 by omega, List.range'_succ]
      rw [List.flatMap_cons, start, List.cons_append, runs] at rest_eq
      rw [List.flatMap_cons, start, List.cons_append, cut, if_neg (by omega), rest_eq]

theorem cut_length_pos (first last : Nat) (l : List Nat) : 0 < (cut first last l).length := by
  induction l generalizing first last with
  | nil => exact Nat.one_pos
  | cons p rest ih =>
    rw [cut]
    split
    · exact ih first p
    · exact Nat.succ_pos _

theorem Maximal.mem {l : List Nat} {rs : List (Nat × Nat)} (maximal : Maximal l rs) {i : Nat} :
    i ∈ l ↔ ∃ r ∈ rs, r.1 ≤ i ∧ i ≤ r.2 := by
  rw [← maximal.flat, List.mem_flatMap]
  simp only [mem_insts]

/-- The list is strictly increasing. -/
theorem Maximal.sorted {l : List Nat} {rs : List (Nat × Nat)} (maximal : Maximal l rs) : l.Pairwise (· < ·) := by
  rw [← maximal.flat, List.pairwise_flatMap]
  refine ⟨fun r _ => List.pairwise_lt_range', maximal.gaps.imp_of_mem fun there _ gap i in_r j in_s => ?_⟩
  have := (mem_insts.mp in_r).2
  have := (mem_insts.mp in_s).1
  omega

/-- The list is as long as its runs together. -/
theorem Maximal.length {l : List Nat} {rs : List (Nat × Nat)} (maximal : Maximal l rs) :
    l.length = (rs.map fun r => r.2 + 1 - r.1).sum := by
  rw [← maximal.flat, List.length_flatMap]
  simp only [insts_length]

/-- No run is empty. -/
theorem Maximal.count_le {l : List Nat} {rs : List (Nat × Nat)} (maximal : Maximal l rs) : rs.length ≤ l.length := by
  have each := List.length_le_sum_of_one_le (rs.map fun r => r.2 + 1 - r.1) fun n mem => by
    obtain ⟨r, there, rfl⟩ := List.mem_map.mp mem
    have := maximal.le r there
    omega
  rwa [List.length_map, ← maximal.length] at each

/-! ## What a sorted list leaves out -/

/-- The runs from `next` up to `tail` between the elements of a sorted list. -/
def left (tail : Nat) : Nat → List Nat → List (Nat × Nat)
  | next, [] => if next < tail then [(next, tail - 1)] else []
  | next, d :: skip => if next < d then (next, d - 1) :: left tail (d + 1) skip else left tail (d + 1) skip

theorem left_length_le (tail next : Nat) (skip : List Nat) : (left tail next skip).length ≤ skip.length + 1 := by
  induction skip generalizing next with
  | nil =>
    rw [left]
    split
    · exact le_rfl
    · exact Nat.zero_le _
  | cons d skip ih =>
    have rest := ih (d + 1)
    rw [left]
    split
    · rw [List.length_cons, List.length_cons]
      omega
    · rw [List.length_cons]
      omega

/-- The numbers from `next` up to `tail` that are not in the list. -/
def rest (tail next : Nat) (skip : List Nat) : List Nat := (List.range' next (tail - next)).filter fun i => !skip.contains i

theorem rest_skip {tail next d : Nat} {skip : List Nat} (le : next ≤ d) (less : d < tail) (above : ∀ e ∈ skip, d ≤ e) :
    rest tail next (d :: skip) = List.range' next (d - next) ++ rest tail (d + 1) skip := by
  have parts : List.range' next (tail - next) = List.range' next (d - next) ++ d :: List.range' (d + 1) (tail - (d + 1)) := by
    rw [← List.range'_succ, show List.range' d (tail - (d + 1) + 1) = List.range' (next + (d - next)) (tail - (d + 1) + 1) by
      rw [Nat.add_sub_cancel' le], List.range'_append_1]
    congr 1
    omega
  rw [rest, parts, List.filter_append, List.filter_cons_of_neg (by simp)]
  congr 1
  · rw [List.filter_eq_self]
    intro i mem
    have below := (List.mem_range'_1.mp mem).2
    rw [Bool.not_eq_true', List.contains_eq_mem, decide_eq_false_iff_not]
    intro skipped
    obtain rfl | later := List.mem_cons.mp skipped
    · omega
    · have := above i later
      omega
  · rw [rest]
    refine List.filter_congr fun i mem => ?_
    have differ : i ≠ d := by
      have := (List.mem_range'_1.mp mem).1
      omega
    simp only [List.contains_cons, beq_eq_false_iff_ne.mpr differ, Bool.false_or]

/-- The maximal runs of the numbers a sorted list leaves out. -/
theorem left_maximal {tail next : Nat} {skip : List Nat} (sorted : skip.Pairwise (· ≤ ·)) (within : ∀ d ∈ skip, d < tail)
    (start : ∀ d ∈ skip, next ≤ d + 1) :
    Maximal (rest tail next skip) (left tail next skip) ∧ ∀ r ∈ left tail next skip, next ≤ r.1 := by
  induction skip generalizing next with
  | nil =>
    have all : rest tail next [] = List.range' next (tail - next) := List.filter_eq_self.mpr fun _ _ => rfl
    rw [all, left]
    split
    · rename_i more
      refine ⟨⟨?_, fun r mem => ?_, List.pairwise_singleton _ _⟩, fun r mem => ?_⟩
      · rw [List.flatMap_singleton, insts]
        congr 1
        omega
      · rw [List.mem_singleton.mp mem]
        simp only
        omega
      · rw [List.mem_singleton.mp mem]
    · rw [Nat.sub_eq_zero_of_le (by omega)]
      exact ⟨⟨rfl, fun r mem => absurd mem List.not_mem_nil, List.Pairwise.nil⟩, fun r mem => absurd mem List.not_mem_nil⟩
  | cons d skip ih =>
    obtain ⟨above, sorted⟩ := List.pairwise_cons.mp sorted
    have less := within d List.mem_cons_self
    have first := start d List.mem_cons_self
    obtain ⟨maximal, starts⟩ := @ih (d + 1) sorted (fun e mem => within e (List.mem_cons_of_mem _ mem)) fun e mem => by
      have := above e mem
      omega
    rw [left]
    split
    · rename_i gap
      rw [rest_skip (by omega) less above]
      refine ⟨⟨?_, fun r mem => ?_, List.pairwise_cons.mpr ⟨fun r mem => ?_, maximal.gaps⟩⟩, fun r mem => ?_⟩
      · rw [List.flatMap_cons, maximal.flat, insts]
        congr 2
        omega
      · obtain rfl | mem := List.mem_cons.mp mem
        · simp only
          omega
        · exact maximal.le r mem
      · have := starts r mem
        simp only
        omega
      · obtain rfl | mem := List.mem_cons.mp mem
        · exact le_rfl
        · have := starts r mem
          omega
    · rename_i none
      have same : rest tail next (d :: skip) = rest tail (d + 1) skip := by
        by_cases here : next = d
        · rw [rest_skip here.le less above, here, Nat.sub_self, List.range'_zero, List.nil_append]
        · obtain rfl : next = d + 1 := by omega
          refine List.filter_congr fun i mem => ?_
          have differ : i ≠ d := by
            have := (List.mem_range'_1.mp mem).1
            omega
          simp only [List.contains_cons, beq_eq_false_iff_ne.mpr differ, Bool.false_or]
      rw [same]
      refine ⟨maximal, fun r mem => ?_⟩
      have := starts r mem
      omega

end M2.Lib.Runs
