import Mathlib.Order.Basic

/-!
# Outcomes of fallible computations

What a computation that may fail leaves: its result satisfies one condition, its error another. There is one rule for
each way to put computations together. The invariant of a loop may speak of the elements that it has gone through.
-/
namespace M2.Lib

universe u

variable {ε α : Type*} {σ β : Type u}

/-- The result satisfies `P`, or the error satisfies `F`. -/
def Post (r : Except ε α) (P : α → Prop) (F : ε → Prop) : Prop :=
  match r with
  | .ok a => P a
  | .error e => F e

namespace Post
variable {r : Except ε α} {P Q : α → Prop} {F F' : ε → Prop}

theorem ok {a : α} (holds : P a) : Post (.ok a : Except ε α) P F := holds

theorem error {e : ε} (fails : F e) : Post (.error e : Except ε α) P F := fails

theorem of_ok {a : α} (outcome : Post r P F) (returned : r = .ok a) : P a := by
  rw [returned] at outcome
  exact outcome

theorem of_error {e : ε} (outcome : Post r P F) (failed : r = .error e) : F e := by
  rw [failed] at outcome
  exact outcome

theorem mono (outcome : Post r P F) (result : ∀ a, P a → Q a) (fails : ∀ e, F e → F' e) : Post r Q F' := by
  cases r with
  | ok a => exact result a outcome
  | error e => exact fails e outcome

theorem bind {r : Except ε σ} {P : σ → Prop} {f : σ → Except ε β} {Q : β → Prop} (first : Post r P F)
    (rest : ∀ a, P a → Post (f a) Q F) : Post (r >>= f) Q F := by
  cases r with
  | ok a => exact rest a first
  | error e => exact first

theorem ite {c : Prop} [Decidable c] {r' : Except ε α} (yes : c → Post r P F) (no : ¬ c → Post r' P F) :
    Post (if c then r else r') P F := by
  split
  · rename_i holds
    exact yes holds
  · rename_i fails
    exact no fails

theorem and (first : Post r P F) (second : Post r Q F') : Post r (fun a => P a ∧ Q a) (fun e => F e ∧ F' e) := by
  cases r with
  | ok a => exact ⟨first, second⟩
  | error e => exact ⟨first, second⟩

/-- The invariant is that of the elements before. -/
theorem foldlM {f : σ → α → Except ε σ} {l : List α} {s : σ} (I : List α → σ → Prop) (start : I [] s)
    (step : ∀ done a rest s, l = done ++ a :: rest → I done s → Post (f s a) (I (done ++ [a])) F) :
    Post (l.foldlM f s) (I l) F := by
  have main (done rest : List α) (s : σ) (split : l = done ++ rest) (here : I done s) : Post (rest.foldlM f s) (I l) F := by
    induction rest generalizing done s with
    | nil =>
      rw [List.append_nil] at split
      rw [split]
      exact here
    | cons a rest ih =>
      rw [List.foldlM_cons]
      apply Post.bind (step done a rest s split here)
      intro s' here'
      apply ih _ _ _ here'
      rw [split, List.append_assoc]
      rfl
  exact main [] l s rfl start

/-- The same invariant before each element. -/
theorem foldlM_const {f : σ → α → Except ε σ} {l : List α} {s : σ} {I : σ → Prop} (start : I s)
    (step : ∀ a ∈ l, ∀ s, I s → Post (f s a) I F) : Post (l.foldlM f s) I F :=
  foldlM (fun _ => I) start fun done a rest s split here => step a (by simp [split]) s here

end Post
end M2.Lib
