import M2.Lib.AndOr
import M2.Fhk.Prune

/-!
# What the pruner bounds

The equations of the low and the high bound, without the heap and its counters. A given variable costs
nothing, another one what its cheapest model costs; a model costs `k + c * S`, where `S` adds the bounds
of the parameters and the penalties that count. For the low bound only the parameters that cannot be
empty count, and only the penalties of skipped variables; for the high bound only the returns that reach
every instance.
-/
namespace M2.Fhk
open M2.Lib

/-- The variables that are given, and the nodes that are skipped. -/
structure Scope (G : Graph) where
  given : Fin G.nv → Bool
  skip : Node G → Bool

namespace Graph
variable (G : Graph)

/-- The parameters that a bound counts. -/
def counts {n : Nat} (color : Color) (e : Edge n) : Bool := color = .BLACK ∨ G.xnonempty e.map

/-- The returns that a bound goes through. -/
def covers {n : Nat} (color : Color) (e : Edge n) : Bool := color = .GRAY ∨ G.xnonempty e.map

/-- The parameters of a model that its bound needs. -/
def needs (color : Color) (m : Fin G.nm) : List (Fin G.nv) :=
  ((G.models m).params.filter (G.counts color)).map Edge.idx

/-- The variables that the bound of a model reaches. -/
def reaches (color : Color) (m : Fin G.nm) : List (Fin G.nv) :=
  ((G.models m).returns.filter (G.covers color)).map Edge.idx

variable (S : Scope G)

/-- The penalties in the bound of a model. -/
def penalties (color : Color) (m : Fin G.nm) : Cost :=
  (((G.models m).shadows.filter fun e => color = .BLACK ∨ S.skip (.var (G.shadows e.idx).xi)).map ShEdge.penalty).sum

/-- The models that a variable may take its bound from; none stands for the value that is given. -/
def sources (color : Color) (x : Fin G.nv) : List (Option (Fin G.nm)) :=
  if S.given x then [none]
  else ((List.finRange G.nm).filter fun m => !S.skip (.model m) ∧ x ∈ G.reaches color m).map some

/-- The premises of a source. -/
def sourceNeeds (color : Color) : Option (Fin G.nm) → List (Fin G.nv)
  | none => []
  | some m => G.needs color m

/-- The bound of a model under bounds `f` of the variables. -/
def modelBound (color : Color) (m : Fin G.nm) (f : Fin G.nv → Cost) : Cost :=
  (G.models m).costf (((G.needs color m).map f).sum + G.penalties S color m)

/-- The bound from a source. -/
def sourceBound (color : Color) (f : Fin G.nv → Cost) : Option (Fin G.nm) → Cost
  | none => 0
  | some m => G.modelBound S color m f

variable {G S} {color : Color}

theorem mem_sources_none {x : Fin G.nv} : none ∈ G.sources S color x ↔ S.given x := by
  unfold sources
  split <;> simp_all

theorem mem_sources {x : Fin G.nv} {m : Fin G.nm} :
    some m ∈ G.sources S color x ↔ S.given x = false ∧ S.skip (.model m) = false ∧ x ∈ G.reaches color m := by
  unfold sources
  split <;> simp_all

/-- The cost checks of the builder. -/
def Priced (G : Graph) : Prop := ∀ m, (G.models m).Valid

theorem penalties_nonneg (priced : G.Priced) (m : Fin G.nm) : 0 ≤ G.penalties S color m :=
  Cost.sum_map_nonneg _ fun e kept => (priced m).penalty_nonneg e (List.mem_filter.mp kept).1

theorem modelBound_mono (priced : G.Priced) {m : Fin G.nm} {f g : Fin G.nv → Cost}
    (le : ∀ u ∈ G.needs color m, f u ≤ g u) : G.modelBound S color m f ≤ G.modelBound S color m g :=
  (priced m).costf_mono (add_le_add (Cost.sum_map_mono _ le) le_rfl)

/-- The AND/OR system of a bound. -/
def boundSystem (priced : G.Priced) (S : Scope G) (color : Color) : AndOr (Fin G.nv) (Option (Fin G.nm)) Cost where
  alts := G.sources S color
  prems := G.sourceNeeds color
  value s f := G.sourceBound S color f s
  value_mono s f g le := by
    cases s with
    | none => exact le_rfl
    | some m => exact modelBound_mono priced le

theorem sum_le_modelBound (priced : G.Priced) {m : Fin G.nm} {f : Fin G.nv → Cost}
    (nonneg : ∀ u ∈ G.needs color m, 0 ≤ f u) : ((G.needs color m).map f).sum ≤ G.modelBound S color m f := by
  have sum : 0 ≤ ((G.needs color m).map f).sum := Cost.sum_map_nonneg _ nonneg
  have more : ((G.needs color m).map f).sum ≤ ((G.needs color m).map f).sum + G.penalties S color m :=
    le_add_of_nonneg_right (penalties_nonneg priced m)
  exact more.trans (Cost.le_affine (priced m).k_nonneg (priced m).one_le_c (sum.trans more))

theorem bound_nonneg (priced : G.Priced) {x : Fin G.nv} {t : Cost}
    (derived : (G.boundSystem priced S color).Derives x t) : 0 ≤ t := by
  induction derived with
  | intro x s f _ _ ih =>
    cases s with
    | none => exact le_rfl
    | some m => exact (Cost.sum_map_nonneg _ ih).trans (sum_le_modelBound priced ih)

/-- A bound is at least that of each of its premises. -/
theorem bound_superior (priced : G.Priced) (s : Option (Fin G.nm)) (f : Fin G.nv → Cost)
    (derived : ∀ u ∈ (G.boundSystem priced S color).prems s, (G.boundSystem priced S color).Derives u (f u)) :
    ∀ u ∈ (G.boundSystem priced S color).prems s, f u ≤ (G.boundSystem priced S color).value s f := by
  intro u prem
  cases s with
  | none => cases prem
  | some m =>
    have nonneg : ∀ u ∈ G.needs color m, 0 ≤ f u := fun v need => bound_nonneg priced (derived v need)
    have one : f u ≤ ((G.needs color m).map f).sum :=
      List.single_le_sum (fun t mem => by
        obtain ⟨v, need, rfl⟩ := List.mem_map.mp mem
        exact nonneg v need) _ (List.mem_map_of_mem prem)
    exact one.trans (sum_le_modelBound priced nonneg)

end Graph
end M2.Fhk
