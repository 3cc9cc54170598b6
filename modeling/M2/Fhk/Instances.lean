import M2.Fhk.ChainCost
import M2.Fhk.PruneBounds

/-!
# Instances of a pruned graph

What the chains of a graph cost once the groups have sizes and the maps have contents, where some
variables are given and some models left out. A given variable costs nothing, in all of its instances; a
model instance pays for all of its parameters, the largest cost in each mapped subset, and for the checks
with a failing instance.
-/
namespace M2.Fhk
open M2.Lib

/-- The sizes of the groups and the contents of the maps, and the outcome of each check. -/
structure Instantiation (G : Graph) where
  maps : Maps
  pass : Fin G.nw → Inst → Bool

namespace Instantiation
variable {G : Graph} (I : Instantiation G)

/-- The instance is one of the group. -/
def In (group : Nat) (i : Inst) : Prop := i.val < I.maps.shape group

/-- What the solver accepts: a space map has the instances of its group, and a mapped subset has instances of
the group it maps to. -/
structure Accepted : Prop where
  space : ∀ map, map ≠ MAP_IDENT → MAP_ISUSER map G.ng = false → ∀ j,
    I.maps.subset map j = (List.range (I.maps.shape (BitVec.ofInt 8 map).toNat)).map (Fin.ofNat 65536)
  params : ∀ m, ∀ e ∈ (G.models m).params, ∀ j, I.In (G.models m).group j →
    ∀ i ∈ I.maps.mapE e.map j, I.In (G.vars e.idx).group i
  models : ∀ x, ∀ e ∈ (G.vars x).models, ∀ i, I.In (G.vars x).group i →
    ∀ j ∈ I.maps.mapE e.map i, I.In (G.models e.idx).group j

/-- The space maps of the parameters and of the candidates map to groups with instances. -/
structure Populated : Prop where
  params : ∀ m, ∀ e ∈ (G.models m).params, e.map ≠ MAP_IDENT → G.xnonempty e.map → 0 < I.maps.shape (BitVec.ofInt 8 e.map).toNat
  models : ∀ x, ∀ e ∈ (G.vars x).models, e.map ≠ MAP_IDENT → G.xnonempty e.map → 0 < I.maps.shape (BitVec.ofInt 8 e.map).toNat

variable {I}

/-- Only the subset of a user map can be empty. -/
theorem Accepted.nonempty (accepted : I.Accepted) {map : Int} (fixed : G.xnonempty map)
    (populated : map ≠ MAP_IDENT → G.xnonempty map → 0 < I.maps.shape (BitVec.ofInt 8 map).toNat) (j : Inst) :
    I.maps.mapE map j ≠ [] := by
  unfold Maps.mapE
  split
  · exact List.cons_ne_nil _ _
  · rename_i mapped
    have group : MAP_ISUSER map G.ng = false := by simpa [Graph.xnonempty] using fixed
    have pos := populated mapped fixed
    rw [accepted.space map mapped group]
    intro empty
    have length := congrArg List.length empty
    rw [List.length_map, List.length_range] at length
    exact absurd length pos.ne'

end Instantiation

namespace Graph
variable (G : Graph) (S : Scope G) (I : Instantiation G)

/-- The candidates of a variable instance; none stands for the value that is given. -/
def instSources (x : G.VI) : List (Option G.MI) :=
  if S.given x.1 then [none]
  else ((G.vars x.1).models.filter fun e => !S.skip (.model e.idx)).flatMap fun e =>
    (I.maps.mapE e.map x.2).map fun j => some (e.idx, j)

/-- The variable instances that a candidate needs. -/
def instNeeds : Option G.MI → List G.VI
  | none => []
  | some m => (G.models m.1).params.flatMap fun e => (I.maps.mapE e.map m.2).map fun i => (e.idx, i)

/-- The summand of the cost of a model instance. -/
def instSum (m : G.MI) (f : G.VI → Cost) : Cost :=
  ((G.models m.1).shadows.map (G.penaltyOf I.maps I.pass m.2)).sum +
    ((G.models m.1).params.map (G.paramCost I.maps m.2 f)).sum

/-- The cost of a candidate. -/
def instCost (f : G.VI → Cost) : Option G.MI → Cost
  | none => 0
  | some m => (G.models m.1).costf (G.instSum I m f)

variable {G S I}

theorem mem_instSources_none {x : G.VI} : none ∈ G.instSources S I x ↔ S.given x.1 := by
  unfold instSources
  split
  · rename_i given
    simp [given]
  · rename_i ungiven
    simp [ungiven]

theorem mem_instSources {x : G.VI} {m : G.MI} : some m ∈ G.instSources S I x ↔
    S.given x.1 = false ∧ S.skip (.model m.1) = false ∧
      ∃ e ∈ (G.vars x.1).models, e.idx = m.1 ∧ m.2 ∈ I.maps.mapE e.map x.2 := by
  obtain ⟨m, j⟩ := m
  unfold instSources
  split
  · rename_i given
    simp [given]
  · rename_i ungiven
    simp only [List.mem_flatMap, List.mem_filter, List.mem_map, Option.some.injEq, Prod.mk.injEq, Bool.not_eq_true']
    constructor
    · rintro ⟨e, ⟨mem, kept⟩, j', there, rfl, rfl⟩
      exact ⟨Bool.eq_false_of_not_eq_true ungiven, kept, e, mem, rfl, there⟩
    · rintro ⟨-, kept, e, mem, rfl, there⟩
      exact ⟨e, ⟨mem, kept⟩, j, there, rfl, rfl⟩

theorem mem_instNeeds {m : G.MI} {u : G.VI} : u ∈ G.instNeeds I (some m) ↔
    ∃ e ∈ (G.models m.1).params, e.idx = u.1 ∧ u.2 ∈ I.maps.mapE e.map m.2 := by
  obtain ⟨x, i⟩ := u
  simp only [instNeeds, List.mem_flatMap, List.mem_map, Prod.mk.injEq]
  constructor
  · rintro ⟨e, mem, i', there, rfl, rfl⟩
    exact ⟨e, mem, rfl, there⟩
  · rintro ⟨e, mem, rfl, there⟩
    exact ⟨e, mem, i, there, rfl, rfl⟩

theorem instSum_mono {m : G.MI} {f g : G.VI → Cost} (le : ∀ u ∈ G.instNeeds I (some m), f u ≤ g u) :
    G.instSum I m f ≤ G.instSum I m g := by
  apply add_le_add le_rfl
  apply Cost.sum_map_mono
  intro e mem
  apply Cost.listMax_map_mono
  intro i there
  exact le (e.idx, i) (mem_instNeeds.mpr ⟨e, mem, rfl, there⟩)

theorem instSum_nonneg (priced : G.Priced) (m : G.MI) (f : G.VI → Cost) : 0 ≤ G.instSum I m f := by
  apply add_nonneg
  · apply Cost.sum_map_nonneg
    intro e mem
    unfold penaltyOf
    split
    · exact le_rfl
    · exact (priced m.1).penalty_nonneg e mem
  · exact Cost.sum_map_nonneg _ fun e _ => paramCost_nonneg m.2 f e

/-- The AND/OR system of the instances. -/
def instSystem (priced : G.Priced) (S : Scope G) (I : Instantiation G) : AndOr G.VI (Option G.MI) Cost where
  alts := G.instSources S I
  prems := G.instNeeds I
  value s f := G.instCost I f s
  value_mono s f g le := by
    cases s with
    | none => exact le_rfl
    | some m => exact (priced m.1).costf_mono (instSum_mono le)

theorem inst_nonneg (priced : G.Priced) {x : G.VI} {t : Cost} (derived : (G.instSystem priced S I).Derives x t) : 0 ≤ t := by
  cases derived with
  | intro _ s f _ _ =>
    cases s with
    | none => exact le_rfl
    | some m =>
      have sum := instSum_nonneg (I := I) priced m f
      exact sum.trans (Cost.le_affine (priced m.1).k_nonneg (priced m.1).one_le_c sum)

end Graph
end M2.Fhk
