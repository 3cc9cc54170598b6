import M2.Fhk.Search

/-!
# What a chain costs

The specification of the solver, stated without its search: a variable instance is
derived through one of its candidate model instances, a model instance needs every
instance in the mapped subsets of its computed parameters. A model instance costs
`k + c * S`, where `S` adds the penalties of the shadow edges with a failing instance in
their mapped subset and, for each computed parameter, the largest cost in its mapped
subset. The outcome `pass` of every shadow instance is fixed.
-/
namespace M2.Fhk
open M2.Lib

namespace Graph
variable (G : Graph) (maps : Maps) (pass : Fin G.nw → Inst → Bool)

/-- The penalty of a shadow edge of a model instance: due when an instance in the mapped
subset fails. -/
def penaltyOf (j : Inst) (e : ShEdge G.nw) : Cost :=
  if (maps.mapE e.map j).all (pass e.idx) then 0 else e.penalty

/-- The cost of a computed parameter of a model instance under costs `f`. -/
def paramCost (j : Inst) (f : G.VI → Cost) (e : Edge G.nv) : Cost :=
  Cost.listMax ((maps.mapE e.map j).map fun i => f (e.idx, i))

/-- The summand of the cost of a model instance. -/
def modelSum (m : G.MI) (f : G.VI → Cost) : Cost :=
  ((G.models m.1).shadows.map (G.penaltyOf maps pass m.2)).sum +
    ((G.models m.1).cparams.reverse.map (G.paramCost maps m.2 f)).sum

/-- The cost of a model instance. -/
def modelCost (m : G.MI) (f : G.VI → Cost) : Cost :=
  (G.models m.1).costf (G.modelSum maps pass m f)

/-- The variable instances a model instance needs. -/
def prems (m : G.MI) : List G.VI :=
  (G.models m.1).cparams.reverse.flatMap fun e => (maps.mapE e.map m.2).map fun i => (e.idx, i)

/-- The candidate model instances of a variable instance. -/
def alts (x : G.VI) : List G.MI := (candInsts (xcands maps x)).map Prod.snd

variable {G maps pass}

theorem mem_prems {m : G.MI} {u : G.VI} :
    u ∈ G.prems maps m ↔ ∃ e ∈ (G.models m.1).cparams.reverse, e.idx = u.1 ∧ u.2 ∈ maps.mapE e.map m.2 := by
  simp only [prems, List.mem_flatMap, List.mem_map]
  constructor
  · rintro ⟨e, he, i, hi, rfl⟩
    exact ⟨e, he, rfl, hi⟩
  · rintro ⟨e, he, hx, hi⟩
    exact ⟨e, he, u.2, hi, by rw [hx]⟩

theorem mem_prems_of {m : G.MI} {e : Edge G.nv} (he : e ∈ (G.models m.1).cparams.reverse)
    {i : Inst} (hi : i ∈ maps.mapE e.map m.2) : (e.idx, i) ∈ G.prems maps m :=
  mem_prems.mpr ⟨e, he, rfl, hi⟩

theorem penaltyOf_nonneg (valid : G.Valid) {m : G.MI} {e : ShEdge G.nw}
    (he : e ∈ (G.models m.1).shadows) (j : Inst) : 0 ≤ G.penaltyOf maps pass j e := by
  unfold penaltyOf
  split
  · exact le_rfl
  · exact (valid.model m.1).penalty_nonneg e he

theorem paramCost_nonneg (j : Inst) (f : G.VI → Cost) (e : Edge G.nv) :
    0 ≤ G.paramCost maps j f e :=
  Cost.listMax_nonneg _

theorem paramCost_mono {m : G.MI} {f g : G.VI → Cost} {e : Edge G.nv}
    (he : e ∈ (G.models m.1).cparams.reverse) (h : ∀ u ∈ G.prems maps m, f u ≤ g u) :
    G.paramCost maps m.2 f e ≤ G.paramCost maps m.2 g e :=
  Cost.listMax_map_mono _ fun _ hi => h _ (mem_prems_of he hi)

theorem le_paramCost {j : Inst} {f : G.VI → Cost} {e : Edge G.nv} {i : Inst}
    (hi : i ∈ maps.mapE e.map j) : f (e.idx, i) ≤ G.paramCost maps j f e :=
  Cost.le_listMax (List.mem_map.mpr ⟨i, hi, rfl⟩)

theorem modelSum_mono {m : G.MI} {f g : G.VI → Cost} (h : ∀ u ∈ G.prems maps m, f u ≤ g u) :
    G.modelSum maps pass m f ≤ G.modelSum maps pass m g :=
  add_le_add le_rfl (Cost.sum_map_mono _ fun _ he => paramCost_mono he h)

theorem modelSum_nonneg (valid : G.Valid) (m : G.MI) (f : G.VI → Cost) :
    0 ≤ G.modelSum maps pass m f :=
  add_nonneg (Cost.sum_map_nonneg _ fun _ he => penaltyOf_nonneg valid he _)
    (Cost.sum_map_nonneg _ fun e _ => paramCost_nonneg _ _ e)

/-- The AND/OR system of the chains of a graph. -/
def chainSystem (valid : G.Valid) (maps : Maps) (pass : Fin G.nw → Inst → Bool) :
    AndOr G.VI G.MI Cost where
  alts := G.alts maps
  prems := G.prems maps
  value := G.modelCost maps pass
  value_mono m _ _ h := (valid.model m.1).costf_mono (modelSum_mono h)

theorem k_le_modelCost (valid : G.Valid) (m : G.MI) (f : G.VI → Cost) :
    ((G.models m.1).k : Cost) ≤ G.modelCost maps pass m f :=
  Cost.k_le_affine (valid.model m.1).c_pos.le (modelSum_nonneg valid m f)

theorem chain_nonneg (valid : G.Valid) {x : G.VI} {t : Cost}
    (derived : (G.chainSystem valid maps pass).Derives x t) : 0 ≤ t := by
  cases derived with
  | intro _ m f _ _ =>
    exact le_trans (by exact_mod_cast (valid.model m.1).k_nonneg) (k_le_modelCost valid m f)

end Graph
end M2.Fhk
