import M2.Fhk.SessionValues

/-!
# What the values mean

Where models are functions of their parameters, a recorded chain and the given values determine a value. Every session
stores that value, whatever else it was asked for and in whatever order.
-/
namespace M2.Fhk
open M2.Lib

namespace Problem
variable {P : Problem} {D E : Type} {caller : Caller P.G D E} {s s' : Search P.G} {mem mem' : Memory P.G D E}
  {f : P.G.MI → List (Nat × List D) → Nat → Nat → D} {given : P.G.VI → D}

/-- The value of an instance by its chain, where the models are `f`. -/
inductive Denotes (f : P.G.MI → List (Nat × List D) → Nat → Nat → D) (given : P.G.VI → D) (s : Search P.G) : P.G.VI → D → Prop
  | intro {u : P.G.VI} {m : P.G.MI} {ex k : Nat} (here : slot s u = some (m, ex, k)) (val : P.G.VI → D)
      (prems : ∀ v ∈ P.G.prems P.maps m, Denotes f given s v (val v))
      (givens : ∀ e ∈ (P.G.models m.1).gparams, ∀ i ∈ P.maps.mapE e.map m.2, val (e.idx, i) = given (e.idx, i)) :
      Denotes f given s u (f m (feed val m) ex k)

/-- The chain and the given values determine the value. -/
theorem Denotes.unique {u : P.G.VI} {d d' : D} (left : Denotes f given s u d) (right : Denotes f given s u d') : d = d' := by
  induction left generalizing d' with
  | @intro u m ex k here val prems givens ih =>
    cases right with
    | intro here' val' prems' givens' =>
      rw [here] at here'
      cases here'
      have same : feed val' m = feed val m := by
        apply feed_congr
        · intro v needs
          exact (ih v needs (prems' v needs)).symm
        · intro e there i listed
          rw [givens e there i listed, givens' e there i listed]
      rw [same]

/-- Chains that are added later do not matter. -/
theorem Denotes.transfer {u : P.G.VI} {d : D} (denotes : Denotes f given s u d)
    (slots : ∀ v m, s.model v = some m → slot s' v = slot s v) : Denotes f given s' u d := by
  induction denotes with
  | intro here val prems givens ih => exact .intro ((slots _ _ (slot_model here)).trans here) val ih givens

/-! ## Stored values -/

/-- The models that were called are functions of their parameters. -/
def Called (f : P.G.MI → List (Nat × List D) → Nat → Nat → D) (mem : Memory P.G D E) : Prop :=
  ∀ call ∈ mem.calls, call.2.2 = f call.1 call.2.1

theorem Called.of_calls (called : Called f mem) (calls : mem'.calls = mem.calls) : Called f mem' := by
  rw [Called, calls]
  exact called

theorem Called.moves (pure' : ∀ out m args, caller.model out m args = f m args) (called : Called f mem)
    (moves : mem.Moves caller mem') : Called f mem' := by
  induction moves with
  | refl => exact called
  | tail _ last ih =>
    cases last with
    | write _ yields => exact ih.of_calls (by rw [Memory.calls, yields]; rfl)
    | yield y due _ yields =>
      intro call there
      rw [Memory.calls, yields, List.filterMap_append, List.mem_append] at there
      rcases there with earlier | now
      · exact ih call earlier
      · cases y with
        | modcall m args ret =>
          cases List.mem_singleton.mp now
          exact (show ret = _ from due).trans (pure' _ _ _)
        | shape group => cases now
        | mapcall map inst => cases now
        | vref x => cases now

/-- A stored value is what its chain means. -/
theorem Settles.denotes (settles : Settles s mem) (wired : P.G.Wired) (called : Called f mem)
    (agrees : ∀ x, mem.out.missing x = false → mem.out.value x = given x) {u : P.G.VI} (set : (s.vs u).value = true) :
    Denotes f given s u (mem.value u) := by
  have grounded := settles.ranged.grounded u (settles.ranged.value u set)
  induction grounded with
  | @intro u m model _ ih =>
    obtain ⟨m', ex, k, args, ret, here, there, same⟩ := settles.sound.stored u set List.not_mem_nil
    have owner := slot_model here
    rw [model] at owner
    cases owner
    have call := settles.sound.calls _ there
    have value : mem.value u = f m (feed mem.read m) ex k := by
      have returned : ret = f m args := called _ there
      have fed : args = feed mem.read m := call.args
      rw [same, returned, fed]
    rw [value]
    apply Denotes.intro here
    · intro v needs
      obtain ⟨set', -⟩ := call.prems v needs
      rw [settles.ranged.read (settles.ranged.value v set')]
      exact ih v needs set'
    · intro e inside i listed
      rw [Memory.read, wired.given _ e inside, if_pos rfl]
      exact agrees _ (call.given e inside i listed)

/-! ## Results -/

end Problem
end M2.Fhk
