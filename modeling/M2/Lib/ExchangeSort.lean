import Mathlib.Data.List.Perm.Basic

/-!
# Exchange sort

The two nested loops that compare each position with all later ones and swap where the
comparison asks for it. Whatever the comparison, the result is a permutation, and where it is a strict
order, even a partial one, nothing in the result asks for a swap.
-/
namespace M2.Lib

variable {α : Type*}

/-- The inner loop: the element that ends up in front, and the rest. -/
def exchange (swaps : α → α → Bool) : α → List α → α × List α
  | a, [] => (a, [])
  | a, b :: rest =>
    if swaps a b then
      let (front, rest) := exchange swaps b rest
      (front, a :: rest)
    else
      let (front, rest) := exchange swaps a rest
      (front, b :: rest)

theorem exchange_perm (swaps : α → α → Bool) (a : α) (l : List α) :
    ((exchange swaps a l).1 :: (exchange swaps a l).2).Perm (a :: l) := by
  induction l generalizing a with
  | nil => exact .refl _
  | cons b rest ih =>
    rw [exchange]
    split
    · exact (List.Perm.swap _ _ _).trans ((ih b).cons a)
    · exact (List.Perm.swap _ _ _).trans (((ih a).cons b).trans (.swap _ _ _))

theorem exchange_length (swaps : α → α → Bool) (a : α) (l : List α) :
    (exchange swaps a l).2.length = l.length := by
  have := (exchange_perm swaps a l).length_eq
  simpa using this

/-- The outer loop. -/
def exchangeSort (swaps : α → α → Bool) : List α → List α
  | [] => []
  | a :: l => (exchange swaps a l).1 :: exchangeSort swaps (exchange swaps a l).2
termination_by l => l.length
decreasing_by
  rw [exchange_length]
  simp

theorem exchangeSort_perm (swaps : α → α → Bool) (l : List α) : (exchangeSort swaps l).Perm l := by
  induction l using exchangeSort.induct swaps with
  | case1 => rw [exchangeSort]
  | case2 a l ih =>
    rw [exchangeSort]
    exact (ih.cons _).trans (exchange_perm swaps a l)

variable {swaps : α → α → Bool}

/-- The front asks for no swap with the rest, and it is the first element or one that element asked for. -/
theorem exchange_front (irrefl : ∀ a, swaps a a = false)
    (trans : ∀ a b c, swaps a b = true → swaps b c = true → swaps a c = true) (a : α) (l : List α) :
    (∀ b ∈ (exchange swaps a l).2, swaps (exchange swaps a l).1 b = false) ∧
      ((exchange swaps a l).1 = a ∨ swaps a (exchange swaps a l).1 = true) := by
  induction l generalizing a with
  | nil => exact ⟨fun b mem => (by cases mem), .inl rfl⟩
  | cons b rest ih =>
    rw [exchange]
    split
    · rename_i swap
      obtain ⟨front, from_b⟩ := ih b
      have from_a : swaps a (exchange swaps b rest).1 = true := by
        obtain same | swap' := from_b
        · rwa [same]
        · exact trans _ _ _ swap swap'
      refine ⟨fun c mem => ?_, .inr from_a⟩
      obtain rfl | mem := List.mem_cons.mp mem
      · by_contra back
        have loop := trans _ _ _ from_a (Bool.not_eq_false _ ▸ back)
        rw [irrefl] at loop
        cases loop
      · exact front c mem
    · rename_i keep
      obtain ⟨front, from_a⟩ := ih a
      refine ⟨fun c mem => ?_, from_a⟩
      obtain rfl | mem := List.mem_cons.mp mem
      · obtain same | swap := from_a
        · rw [same]
          exact Bool.not_eq_true _ ▸ keep
        · by_contra back
          exact keep (trans _ _ _ swap (Bool.not_eq_false _ ▸ back))
      · exact front c mem

theorem exchangeSort_sorted (irrefl : ∀ a, swaps a a = false)
    (trans : ∀ a b c, swaps a b = true → swaps b c = true → swaps a c = true) (l : List α) :
    (exchangeSort swaps l).Pairwise fun a b => swaps a b = false := by
  induction l using exchangeSort.induct swaps with
  | case1 =>
    rw [exchangeSort]
    exact .nil
  | case2 a l ih =>
    rw [exchangeSort]
    refine .cons (fun b mem => ?_) ih
    exact (exchange_front irrefl trans a l).1 b ((exchangeSort_perm swaps _).mem_iff.mp mem)

end M2.Lib
