import Mathlib

/-!
# Tiles

Blocks that are placed one behind the other from a first address on.
-/
namespace M2.Lib

variable {K : Type*} {size : K → Nat} {p0 p : Nat}

/-- The placed blocks, the last one first, tile the addresses from `p0` to `p`. -/
def Tiles (size : K → Nat) (p0 : Nat) : List (K × Nat) → Nat → Prop
  | [], p => p = p0
  | (k, a) :: log, p => p = a + size k ∧ Tiles size p0 log a

namespace Tiles
variable {log : List (K × Nat)}

theorem within (tiles : Tiles size p0 log p) : p0 ≤ p ∧ ∀ e ∈ log, p0 ≤ e.2 ∧ e.2 + size e.1 ≤ p := by
  induction log generalizing p with
  | nil =>
    obtain rfl : p = p0 := tiles
    exact ⟨Nat.le_refl _, fun e mem => by cases mem⟩
  | cons e log ih =>
    obtain ⟨rfl, rest⟩ := tiles
    obtain ⟨le, inside⟩ := ih rest
    refine ⟨by omega, fun e' mem => ?_⟩
    obtain rfl | mem := List.mem_cons.mp mem
    · exact ⟨le, Nat.le_refl _⟩
    · obtain ⟨low, high⟩ := inside e' mem
      exact ⟨low, by omega⟩

theorem total (tiles : Tiles size p0 log p) : p = p0 + (log.map fun e => size e.1).sum := by
  induction log generalizing p with
  | nil => exact tiles
  | cons e log ih =>
    obtain ⟨rfl, rest⟩ := tiles
    rw [List.map_cons, List.sum_cons, ih rest]
    omega

/-- Two different blocks do not overlap. -/
theorem apart (tiles : Tiles size p0 log p) {e e' : K × Nat} (mem : e ∈ log) (mem' : e' ∈ log) (ne : e.1 ≠ e'.1) :
    e.2 + size e.1 ≤ e'.2 ∨ e'.2 + size e'.1 ≤ e.2 := by
  induction log generalizing p with
  | nil => cases mem
  | cons e'' log ih =>
    obtain ⟨-, rest⟩ := tiles
    obtain first | later := List.mem_cons.mp mem
    · subst first
      obtain rfl | later' := List.mem_cons.mp mem'
      · exact absurd rfl ne
      · exact .inr (rest.within.2 e' later').2
    · obtain first' | later' := List.mem_cons.mp mem'
      · subst first'
        exact .inl (rest.within.2 e later).2
      · exact ih rest later later'

/-- Every block is aligned like the first address. -/
theorem aligned (tiles : Tiles size p0 log p) {m : Nat} (first : p0 % m = 0) (sizes : ∀ k, size k % m = 0) :
    p % m = 0 ∧ ∀ e ∈ log, e.2 % m = 0 := by
  induction log generalizing p with
  | nil =>
    obtain rfl : p = p0 := tiles
    exact ⟨first, fun e mem => by cases mem⟩
  | cons e log ih =>
    obtain ⟨rfl, rest⟩ := tiles
    obtain ⟨here, before⟩ := ih rest
    refine ⟨by rw [Nat.add_mod, here, sizes]; simp, fun e' mem => ?_⟩
    obtain rfl | mem := List.mem_cons.mp mem
    · exact here
    · exact before e' mem

end Tiles
end M2.Lib
