import Mathlib.Logic.Function.Basic
import Mathlib.Data.List.Basic

/-!
# Writes in order

A list of writes to a function, the first one first. Where no key comes twice, each write is read back.
-/
namespace M2.Lib

variable {κ α : Type*} [DecidableEq κ]

/-- The function after the writes. -/
def writes (f : κ → α) (l : List (κ × α)) : κ → α := l.foldl (fun f w => Function.update f w.1 w.2) f

@[simp] theorem writes_nil (f : κ → α) : writes f [] = f := rfl

@[simp] theorem writes_cons (f : κ → α) (w : κ × α) (l : List (κ × α)) :
    writes f (w :: l) = writes (Function.update f w.1 w.2) l := rfl

theorem writes_of_notMem {l : List (κ × α)} {k : κ} (fresh : ∀ w ∈ l, w.1 ≠ k) (f : κ → α) : writes f l k = f k := by
  induction l generalizing f with
  | nil => rfl
  | cons w l ih =>
    rw [writes_cons, ih fun w' mem => fresh w' (List.mem_cons_of_mem _ mem)]
    exact Function.update_of_ne (fresh w List.mem_cons_self).symm _ _

theorem writes_of_mem {l : List (κ × α)} {w : κ × α} (mem : w ∈ l) (nodup : (l.map Prod.fst).Nodup) (f : κ → α) :
    writes f l w.1 = w.2 := by
  induction l generalizing f with
  | nil => cases mem
  | cons v l ih =>
    obtain ⟨fresh, nodup⟩ := List.nodup_cons.mp nodup
    rcases List.mem_cons.mp mem with rfl | later
    · rw [writes_cons, writes_of_notMem]
      · exact Function.update_self ..
      · intro v' there same
        exact fresh (same ▸ List.mem_map_of_mem there)
    · rw [writes_cons]
      exact ih later nodup _

end M2.Lib
