import Mathlib.Algebra.Order.Field.Rat
import Mathlib.Algebra.Order.Monoid.WithTop
import Mathlib.Algebra.BigOperators.Group.List.Basic
import Mathlib.Algebra.Order.BigOperators.Group.List
import Mathlib.Tactic.Linarith
import Mathlib.Tactic.FieldSimp

/-!
# Exact costs

Costs are exact rationals with a top element for "infinite". An affine cost
`k + c * s` with `1 ≤ c` is inverted by `(b - k) / c`, and the two comparisons agree
exactly; this is the whole interface between a cost and the bound on its summand.
-/
namespace M2.Lib

/-- An exact cost: a rational or infinity. -/
abbrev Cost := WithTop ℚ

namespace Cost

/-- `k + c * s`, infinite where `s` is. -/
def affine (k c : ℚ) (s : Cost) : Cost := s.map fun q => k + c * q

@[simp] theorem affine_top (k c : ℚ) : affine k c ⊤ = ⊤ := rfl

@[simp] theorem affine_coe (k c q : ℚ) : affine k c (q : Cost) = ((k + c * q : ℚ) : Cost) := rfl

theorem affine_mono {k c : ℚ} (hc : 0 ≤ c) {s t : Cost} (h : s ≤ t) : affine k c s ≤ affine k c t := by
  induction t using WithTop.recTopCoe with
  | top => simp
  | coe q =>
    obtain ⟨p, rfl⟩ := WithTop.ne_top_iff_exists.mp (ne_top_of_le_ne_top WithTop.coe_ne_top h)
    have hpq : p ≤ q := WithTop.coe_le_coe.mp h
    simp only [affine_coe, WithTop.coe_le_coe]
    have := mul_le_mul_of_nonneg_left hpq hc
    linarith

theorem affine_lt {k c : ℚ} (hc : 0 < c) {s t : Cost} (h : s < t) : affine k c s < affine k c t := by
  obtain ⟨p, rfl⟩ := WithTop.ne_top_iff_exists.mp h.ne_top
  induction t using WithTop.recTopCoe with
  | top =>
    rw [affine_coe, affine_top]
    exact WithTop.coe_lt_top _
  | coe q =>
    have hpq : p < q := WithTop.coe_lt_coe.mp h
    simp only [affine_coe, WithTop.coe_lt_coe]
    have := mul_lt_mul_of_pos_left hpq hc
    linarith

/-- The bound on the summand is exactly the bound on the cost. -/
theorem affine_le_iff {k c : ℚ} (hc : 0 < c) (s : Cost) (b : ℚ) :
    affine k c s ≤ (b : Cost) ↔ s ≤ (((b - k) / c : ℚ) : Cost) := by
  induction s using WithTop.recTopCoe with
  | top => simp
  | coe q =>
    simp only [affine_coe, WithTop.coe_le_coe]
    rw [le_div_iff₀ hc]
    constructor <;> intro h <;> linarith [mul_comm c q]

theorem lt_affine_iff {k c : ℚ} (hc : 0 < c) (s : Cost) (b : ℚ) :
    (b : Cost) < affine k c s ↔ (((b - k) / c : ℚ) : Cost) < s := by
  rw [← not_le, ← not_le, affine_le_iff hc]

theorem le_affine {k c : ℚ} (hk : 0 ≤ k) (hc : 1 ≤ c) {s : Cost} (hs : 0 ≤ s) : s ≤ affine k c s := by
  induction s using WithTop.recTopCoe with
  | top => simp
  | coe q =>
    have hq : 0 ≤ q := WithTop.coe_le_coe.mp hs
    simp only [affine_coe, WithTop.coe_le_coe]
    nlinarith

theorem self_lt_affine {k c : ℚ} (hk : 0 < k) (hc : 1 ≤ c) {s : Cost} (hs : 0 ≤ s) (finite : s ≠ ⊤) : s < affine k c s := by
  induction s using WithTop.recTopCoe with
  | top => exact absurd rfl finite
  | coe q =>
    have hq : 0 ≤ q := WithTop.coe_le_coe.mp hs
    simp only [affine_coe, WithTop.coe_lt_coe]
    nlinarith

theorem k_le_affine {k c : ℚ} (hc : 0 ≤ c) {s : Cost} (hs : 0 ≤ s) : (k : Cost) ≤ affine k c s := by
  have := affine_mono (k := k) hc hs
  rwa [show (0 : Cost) = ((0 : ℚ) : Cost) from rfl, affine_coe, mul_zero, add_zero] at this

/-- The larger of `0` and every cost of a list: what a set of parameters costs. -/
def listMax : List Cost → Cost
  | [] => 0
  | t :: rest => max t (listMax rest)

@[simp] theorem listMax_nil : listMax [] = 0 := rfl
@[simp] theorem listMax_cons (t : Cost) (rest : List Cost) :
    listMax (t :: rest) = max t (listMax rest) := rfl

theorem listMax_nonneg (l : List Cost) : 0 ≤ listMax l := by
  induction l with
  | nil => exact le_rfl
  | cons t rest ih => exact ih.trans (le_max_right _ _)

theorem le_listMax {l : List Cost} {t : Cost} (h : t ∈ l) : t ≤ listMax l := by
  induction l with
  | nil => cases h
  | cons u rest ih =>
    rcases List.mem_cons.mp h with rfl | tail
    · exact le_max_left _ _
    · exact (ih tail).trans (le_max_right _ _)

theorem listMax_le {l : List Cost} {b : Cost} (nonneg : 0 ≤ b) (le : ∀ t ∈ l, t ≤ b) : listMax l ≤ b := by
  induction l with
  | nil => exact nonneg
  | cons t rest ih =>
    apply max_le (le t List.mem_cons_self)
    exact ih fun u tail => le u (List.mem_cons_of_mem t tail)

theorem listMax_append (l r : List Cost) : listMax (l ++ r) = max (listMax l) (listMax r) := by
  induction l with
  | nil => simp [listMax_nonneg]
  | cons t rest ih => simp [ih, max_assoc]

theorem listMax_map_mono {α : Type*} (l : List α) {f g : α → Cost} (h : ∀ a ∈ l, f a ≤ g a) :
    listMax (l.map f) ≤ listMax (l.map g) := by
  induction l with
  | nil => exact le_rfl
  | cons a rest ih =>
    have head : f a ≤ g a := h a List.mem_cons_self
    have tail := ih fun b hb => h b (List.mem_cons_of_mem _ hb)
    exact max_le_max head tail

theorem sum_map_mono {α : Type*} (l : List α) {f g : α → Cost} (h : ∀ a ∈ l, f a ≤ g a) :
    (l.map f).sum ≤ (l.map g).sum :=
  List.sum_le_sum h

theorem sum_eq_top {l : List Cost} (infinite : ⊤ ∈ l) : l.sum = ⊤ := by
  induction l with
  | nil => cases infinite
  | cons t l ih =>
    rw [List.sum_cons]
    rcases List.mem_cons.mp infinite with rfl | later
    · exact top_add _
    · rw [ih later]
      exact add_top _

theorem sum_map_nonneg {α : Type*} (l : List α) {f : α → Cost} (h : ∀ a ∈ l, 0 ≤ f a) :
    0 ≤ (l.map f).sum :=
  List.sum_nonneg (by simpa using h)

end Cost
end M2.Lib
