import Mathlib.Order.Bounds.Basic
import Mathlib.Order.BoundedOrder.Lattice
import Mathlib.Data.List.Basic
import Mathlib.Order.MinMax
import Mathlib.Order.WellFounded

/-!
# Weighted AND/OR systems

A goal is reached through one of its alternatives (OR); an alternative needs all its
premises (AND) and combines their costs monotonically. `Derives v t` says that some
finite derivation of `v` costs `t`; the true cost of a goal is the infimum of these.
Cyclic systems are allowed: only finite derivations count.
-/
namespace M2.Lib

/-- Alternatives of each goal, premises of each alternative, and the cost an
alternative gets from the costs of its premises. -/
structure AndOr (V M C : Type*) [PartialOrder C] where
  alts : V → List M
  prems : M → List V
  value : M → (V → C) → C
  value_mono : ∀ m f g, (∀ v ∈ prems m, f v ≤ g v) → value m f ≤ value m g

namespace AndOr

variable {V M C : Type*} [PartialOrder C] (A : AndOr V M C)

/-- Only the costs of the premises matter. -/
theorem value_congr (m : M) (f g : V → C) (same : ∀ v ∈ A.prems m, f v = g v) :
    A.value m f = A.value m g :=
  le_antisymm (A.value_mono m f g fun v h => (same v h).le)
    (A.value_mono m g f fun v h => (same v h).ge)

/-- Some finite derivation of the goal has this cost. -/
inductive Derives : V → C → Prop
  | intro (v : V) (m : M) (f : V → C) (alt : m ∈ A.alts v)
      (prems : ∀ u ∈ A.prems m, Derives u (f u)) : Derives v (A.value m f)

/-- Some finite derivation through this alternative has this cost. -/
def DerivesAlt (m : M) (t : C) : Prop :=
  ∃ f : V → C, (∀ u ∈ A.prems m, A.Derives u (f u)) ∧ t = A.value m f

/-- The costs of the finite derivations of a goal. -/
def costs (v : V) : Set C := {t | A.Derives v t}

/-- The costs of the finite derivations through an alternative. -/
def altCosts (m : M) : Set C := {t | A.DerivesAlt m t}

theorem derives_iff (v : V) (t : C) : A.Derives v t ↔ ∃ m ∈ A.alts v, A.DerivesAlt m t := by
  constructor
  · rintro ⟨_, m, f, alt, prems⟩
    exact ⟨m, alt, f, prems, rfl⟩
  · rintro ⟨m, alt, f, prems, rfl⟩
    exact .intro v m f alt prems

/-- A bound below every alternative of a goal is below the goal. -/
theorem lower_of_alts (v : V) (b : C) (below : ∀ m ∈ A.alts v, b ∈ lowerBounds (A.altCosts m)) :
    b ∈ lowerBounds (A.costs v) := by
  intro t derived
  obtain ⟨m, alt, through⟩ := (A.derives_iff v t).mp derived
  exact below m alt through

/-- Premises bounded from below bound the alternative. -/
theorem value_lower (m : M) (f : V → C) (below : ∀ u ∈ A.prems m, f u ∈ lowerBounds (A.costs u)) :
    A.value m f ∈ lowerBounds (A.altCosts m) := by
  rintro t ⟨g, prems, rfl⟩
  exact A.value_mono m f g fun u h => below u h (prems u h)

/-- Premises with exact costs give the alternative its exact cost. -/
theorem value_least (m : M) (f : V → C) (exact : ∀ u ∈ A.prems m, IsLeast (A.costs u) (f u)) :
    IsLeast (A.altCosts m) (A.value m f) :=
  ⟨⟨f, fun u h => (exact u h).1, rfl⟩, A.value_lower m f fun u h => (exact u h).2⟩

/-- An exact alternative that no other alternative undercuts is the exact cost. -/
theorem least_of_alt (v : V) (m : M) (t : C) (alt : m ∈ A.alts v) (exact : t ∈ A.altCosts m)
    (below : ∀ m' ∈ A.alts v, t ∈ lowerBounds (A.altCosts m')) : IsLeast (A.costs v) t :=
  ⟨(A.derives_iff v t).mpr ⟨m, alt, exact⟩, A.lower_of_alts v t below⟩

/-- A valuation below what every alternative makes of it is below every derivation. -/
theorem lower_of_prefixed (lb : V → C) (step : ∀ v, ∀ m ∈ A.alts v, lb v ≤ A.value m lb)
    (v : V) : lb v ∈ lowerBounds (A.costs v) := by
  intro t derived
  induction derived with
  | intro v m f alt prems ih =>
    exact (step v m alt).trans (A.value_mono m lb f fun u h => ih u h)

section BestFirst
variable {A} (settled : V → Prop)

/-- Where every alternative of an unsettled goal has an unsettled premise, all that is derived is
settled. -/
theorem Derives.in_settled (blocked : ∀ v, ¬ settled v → ∀ m ∈ A.alts v, ∃ u ∈ A.prems m, ¬ settled u) {v : V} {t : C}
    (derived : A.Derives v t) : settled v := by
  induction derived with
  | intro v m f alt prems ih =>
    by_contra unsettled
    obtain ⟨u, prem, missing⟩ := blocked v unsettled m alt
    exact missing (ih u prem)

/-- The best-first rule: where no alternative costs less than its premises, a bound on what settled
premises make of the unsettled goals bounds every derivation of them. -/
theorem lower_of_frontier {t : C}
    (superior : ∀ m f, (∀ u ∈ A.prems m, A.Derives u (f u)) → ∀ u ∈ A.prems m, f u ≤ A.value m f)
    (frontier : ∀ v, ¬ settled v → ∀ m ∈ A.alts v, (∀ u ∈ A.prems m, settled u) → t ∈ lowerBounds (A.altCosts m))
    {v : V} (unsettled : ¬ settled v) : t ∈ lowerBounds (A.costs v) := by
  intro s derived
  induction derived with
  | intro v m f alt prems ih =>
    by_cases ready : ∀ u ∈ A.prems m, settled u
    · exact frontier v unsettled m alt ready ⟨f, prems, rfl⟩
    · push Not at ready
      obtain ⟨u, prem, missing⟩ := ready
      exact (ih u prem missing).trans (superior m f prems u prem)

end BestFirst

section Optimum
variable [OrderTop C]

open Classical in
/-- The exact cost of a goal where a cheapest derivation exists, the top elsewhere. -/
noncomputable def opt (v : V) : C := if h : ∃ t, IsLeast (A.costs v) t then h.choose else ⊤

theorem opt_eq {v : V} {t : C} (least : IsLeast (A.costs v) t) : A.opt v = t := by
  have h : ∃ t, IsLeast (A.costs v) t := ⟨t, least⟩
  rw [opt, dif_pos h]
  exact h.choose_spec.unique least

/-- The goal has a cheapest derivation. -/
def Exact (v : V) : Prop := IsLeast (A.costs v) (A.opt v)

theorem exact_of_least {v : V} {t : C} (least : IsLeast (A.costs v) t) : A.Exact v := by
  rw [Exact, A.opt_eq least]
  exact least

end Optimum

section Recursive
variable {C : Type*} [LinearOrder C] [OrderTop C] (A : AndOr V M C)

/-- The least element of a list, the top of an empty one. -/
def listMin (l : List C) : C := l.foldr min ⊤

theorem listMin_le {l : List C} {t : C} (mem : t ∈ l) : listMin l ≤ t := by
  induction l with
  | nil => cases mem
  | cons u rest ih =>
    rcases List.mem_cons.mp mem with rfl | tail
    · exact min_le_left _ _
    · exact (min_le_right _ _).trans (ih tail)

theorem listMin_mem {l : List C} (finite : listMin l ≠ ⊤) : listMin l ∈ l := by
  induction l with
  | nil => exact absurd rfl finite
  | cons u rest ih =>
    have split : listMin (u :: rest) = min u (listMin rest) := rfl
    rcases min_choice u (listMin rest) with here | later
    · rw [split, here]
      exact List.mem_cons_self
    · rw [split, later] at finite ⊢
      exact List.mem_cons_of_mem _ (ih finite)

/-- The premises of the alternatives of a goal come before it. -/
def Before (u v : V) : Prop := ∃ m ∈ A.alts v, u ∈ A.prems m

open Classical in
/-- The recursive minimum of an acyclic system. -/
noncomputable def minCost (acyclic : WellFounded A.Before) : V → C :=
  acyclic.fix fun v rec =>
    listMin ((A.alts v).map fun m => A.value m fun u => if before : A.Before u v then rec u before else ⊤)

variable {A} (acyclic : WellFounded A.Before)

/-- The recursive minimum solves its equation. -/
theorem minCost_eq (v : V) :
    A.minCost acyclic v = listMin ((A.alts v).map fun m => A.value m (A.minCost acyclic)) := by
  rw [minCost, acyclic.fix_eq]
  congr 1
  refine List.map_congr_left fun m alt => A.value_congr m _ _ fun u prem => ?_
  have before : A.Before u v := ⟨m, alt, prem⟩
  rw [dif_pos before]

theorem minCost_le {v : V} {m : M} (alt : m ∈ A.alts v) :
    A.minCost acyclic v ≤ A.value m (A.minCost acyclic) := by
  rw [minCost_eq]
  exact listMin_le (List.mem_map.mpr ⟨m, alt, rfl⟩)

/-- No derivation is cheaper than the recursive minimum. -/
theorem minCost_lower (v : V) : A.minCost acyclic v ∈ lowerBounds (A.costs v) :=
  A.lower_of_prefixed _ (fun _ _ alt => minCost_le acyclic alt) v

/-- Where infinite premises make an alternative infinite, a finite recursive minimum is
the cost of a derivation. -/
theorem minCost_derives (strict : ∀ m f, A.value m f ≠ ⊤ → ∀ u ∈ A.prems m, f u ≠ ⊤) (v : V)
    (finite : A.minCost acyclic v ≠ ⊤) : A.Derives v (A.minCost acyclic v) := by
  induction v using acyclic.induction with
  | h v ih =>
    have attained := minCost_eq acyclic v
    rw [attained] at finite
    obtain ⟨m, alt, same⟩ := List.mem_map.mp (listMin_mem finite)
    rw [attained, ← same]
    rw [← same] at finite
    exact .intro v m _ alt fun u prem => ih u ⟨m, alt, prem⟩ (strict m _ finite u prem)

/-- A cheapest derivation costs the recursive minimum. -/
theorem minCost_of_least (strict : ∀ m f, A.value m f ≠ ⊤ → ∀ u ∈ A.prems m, f u ≠ ⊤) {v : V} {t : C}
    (least : IsLeast (A.costs v) t) : t = A.minCost acyclic v := by
  refine le_antisymm ?_ (minCost_lower acyclic v least.1)
  by_cases finite : A.minCost acyclic v = ⊤
  · rw [finite]
    exact le_top
  · exact least.2 (minCost_derives acyclic strict v finite)

/-- An alternative with the cost of the goal attains the recursive minimum. -/
theorem minCost_attained (strict : ∀ m f, A.value m f ≠ ⊤ → ∀ u ∈ A.prems m, f u ≠ ⊤) {v : V} {m : M}
    {t : C} (alt : m ∈ A.alts v) (least : IsLeast (A.costs v) t) (through : t ∈ A.altCosts m) :
    A.value m (A.minCost acyclic) = A.minCost acyclic v := by
  refine le_antisymm ?_ (minCost_le acyclic alt)
  obtain ⟨f, prems, same⟩ := through
  rw [← minCost_of_least acyclic strict least, same]
  exact A.value_mono m _ f fun u prem => minCost_lower acyclic u (prems u prem)

end Recursive

/-- Simulation: where every alternative of `A` has a cheaper image in `B` on the premises
it needs, every derivation in `A` has one in `B` that costs at most as much. -/
theorem Derives.transfer {W N : Type*} {A : AndOr V M C} {B : AndOr W N C} (rel : V → W → Prop)
    (step : ∀ v w m f, rel v w → m ∈ A.alts v → (∀ u ∈ A.prems m, A.Derives u (f u)) →
      (∀ u ∈ A.prems m, ∀ z, rel u z → ∃ t, B.Derives z t ∧ t ≤ f u) →
      ∃ t, B.Derives w t ∧ t ≤ A.value m f)
    {v : V} {w : W} {t : C} (derived : A.Derives v t) (related : rel v w) :
    ∃ t', B.Derives w t' ∧ t' ≤ t := by
  induction derived generalizing w with
  | intro v m f alt prems ih => exact step v w m f related alt prems fun u h z r => ih u h r

end AndOr
end M2.Lib
