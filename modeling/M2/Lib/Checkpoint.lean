import Mathlib.Data.Nat.Basic
import Mathlib.Logic.Function.Basic

/-!
# Checkpoints

A value that changes, over a stack of frames. The value is saved in the top frame, and the value that a frame
on the stack has saved can be loaded again, which leaves the frames above. Where the value only grows in
between, for some order, what is saved is in order along the stack, and below the current value.
-/
namespace M2.Lib

variable {σ : Type*}

structure Checkpoints (σ : Type*) where
  top : Nat
  cur : σ
  saved : Nat → Option σ

namespace Checkpoints

def step (c : Checkpoints σ) (v : σ) : Checkpoints σ := { c with cur := v }

def save (c : Checkpoints σ) : Checkpoints σ := { c with saved := Function.update c.saved c.top (some c.cur) }

def enter (c : Checkpoints σ) : Checkpoints σ :=
  { c with top := c.top + 1, saved := Function.update c.saved (c.top + 1) none }

/-- Back to a frame, with the current value. -/
def up (c : Checkpoints σ) (k : Nat) : Checkpoints σ := { c with top := k }

/-- Back to a frame, and to the value it has saved. -/
def load (c : Checkpoints σ) (k : Nat) : Checkpoints σ := { c with top := k, cur := (c.saved k).getD c.cur }

theorem save_saved (c : Checkpoints σ) (j : Nat) : c.save.saved j = if j = c.top then some c.cur else c.saved j :=
  Function.update_apply _ _ _ _

theorem enter_saved (c : Checkpoints σ) (j : Nat) : c.enter.saved j = if j = c.top + 1 then none else c.saved j :=
  Function.update_apply _ _ _ _

/-- What the frames on the stack have saved is in order, up to the current value. -/
structure Ordered (r : σ → σ → Prop) (c : Checkpoints σ) : Prop where
  cur : ∀ j ≤ c.top, ∀ v ∈ c.saved j, r v c.cur
  saved : ∀ k ≤ c.top, ∀ j ≤ k, ∀ v ∈ c.saved j, ∀ w ∈ c.saved k, r v w

namespace Ordered

variable {r : σ → σ → Prop} {c : Checkpoints σ}

theorem step (trans : ∀ u v w, r u v → r v w → r u w) (ordered : c.Ordered r) {v : σ} (grows : r c.cur v) :
    (c.step v).Ordered r :=
  ⟨fun j le u saved => trans u c.cur v (ordered.cur j le u saved) grows, ordered.saved⟩

theorem save (refl : ∀ v, r v v) (ordered : c.Ordered r) : c.save.Ordered r := by
  have below : ∀ j ≤ c.top, ∀ v ∈ c.save.saved j, r v c.cur := by
    intro j le v saved
    by_cases top : j = c.top
    · rw [save_saved, if_pos top, Option.mem_some] at saved
      rw [← saved]
      exact refl _
    · rw [save_saved, if_neg top] at saved
      exact ordered.cur j le v saved
  refine ⟨below, fun k le j le_k v saved_v w saved_w => ?_⟩
  by_cases top : k = c.top
  · rw [save_saved, if_pos top, Option.mem_some] at saved_w
    rw [← saved_w]
    exact below j (Nat.le_trans le_k le) v saved_v
  · have less : k < c.top := Nat.lt_of_le_of_ne le top
    rw [save_saved, if_neg (by omega)] at saved_v saved_w
    exact ordered.saved k le j le_k v saved_v w saved_w

theorem enter (ordered : c.Ordered r) : c.enter.Ordered r := by
  have kept : ∀ j ≤ c.top + 1, ∀ v ∈ c.enter.saved j, j ≤ c.top ∧ v ∈ c.saved j := by
    intro j le v saved
    by_cases entered : j = c.top + 1
    · rw [enter_saved, if_pos entered] at saved
      cases saved
    · rw [enter_saved, if_neg entered] at saved
      exact ⟨by omega, saved⟩
  refine ⟨fun j le v saved => ?_, fun k le j le_k v saved_v w saved_w => ?_⟩
  · obtain ⟨le, saved⟩ := kept j le v saved
    exact ordered.cur j le v saved
  · obtain ⟨le, saved_w⟩ := kept k le w saved_w
    exact ordered.saved k le j le_k v (kept j (by omega) v saved_v).2 w saved_w

theorem up (ordered : c.Ordered r) {k : Nat} (le : k ≤ c.top) : (c.up k).Ordered r :=
  ⟨fun j below v saved => ordered.cur j (Nat.le_trans below le) v saved, fun i below => ordered.saved i (Nat.le_trans below le)⟩

theorem load (ordered : c.Ordered r) {k : Nat} (le : k ≤ c.top) : (c.load k).Ordered r := by
  refine ⟨fun j below v saved => ?_, fun i below => ordered.saved i (Nat.le_trans below le)⟩
  rw [Checkpoints.load]
  cases loaded : c.saved k with
  | none => exact ordered.cur j (Nat.le_trans below le) v saved
  | some w => exact ordered.saved k le j below v saved w loaded

/-- What is loaded is below the current value. -/
theorem load_le (refl : ∀ v, r v v) (ordered : c.Ordered r) {k : Nat} (le : k ≤ c.top) : r (c.load k).cur c.cur := by
  rw [Checkpoints.load]
  cases loaded : c.saved k with
  | none => exact refl _
  | some w => exact ordered.cur k le w loaded

end Ordered
end Checkpoints
end M2.Lib
