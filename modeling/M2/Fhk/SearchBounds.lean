import M2.Fhk.SearchUpdate

/-!
# Bounds from partial sums

What the sum of a frame says about its model instance: with an edge still open it gives a
lower bound, with all edges done it is the exact summand. The candidate loop picks a
cheapest candidate and the cost of the best other one.
-/
namespace M2.Fhk
open M2.Lib

namespace Problem
variable {P : Problem} {s : Search P.G} {X : XState P.G}

theorem costs_nonneg (u : P.G.VI) : (0 : Cost) ∈ lowerBounds (P.sys.costs u) :=
  fun _ derived => Graph.chain_nonneg P.valid derived

theorem k_low (m : P.G.MI) : ((P.G.models m.1).k : Cost) ∈ lowerBounds (P.sys.altCosts m) := by
  rintro t ⟨f, _, rfl⟩
  exact Graph.k_le_modelCost P.valid m f

theorem opt_le_premise {u : P.G.VI} {t : Cost} (exact : P.sys.Exact u) (derived : P.sys.Derives u t) :
    P.sys.opt u ≤ t := exact.2 derived

/-- A lower bound of the summand gives a lower bound of the cost. -/
theorem costf_low {m : P.G.MI} {S : Cost}
    (below : ∀ f : P.G.VI → Cost, (∀ u ∈ P.G.prems P.maps m, P.sys.Derives u (f u)) →
      S ≤ P.G.modelSum P.maps P.pass m f) :
    (P.G.models m.1).costf S ∈ lowerBounds (P.sys.altCosts m) := by
  rintro t ⟨f, prems, rfl⟩
  exact (P.valid.model m.1).costf_mono (below f prems)

/-- The penalties found so far, the next edge included. -/
theorem ShadowAt.low {done edges : List (ShEdge P.G.nw)} {e : ShEdge P.G.nw} {M_costS : Cost}
    (h : P.ShadowAt s X done (e :: edges) M_costS)
    (due : P.G.penaltyOf P.maps P.pass X.m_inst e = e.penalty) :
    X.m.costf (M_costS + e.penalty) ∈ lowerBounds (P.sys.altCosts X.mi) := by
  refine costf_low fun f _ => ?_
  have rest : (0 : Cost) ≤ (edges.map (P.G.penaltyOf P.maps P.pass X.m_inst)).sum :=
    Cost.sum_map_nonneg _ fun e' he' =>
      Graph.penaltyOf_nonneg (m := X.mi) P.valid (by rw [show (P.G.models X.mi.1) = X.m from rfl, h.split]; simp [he']) _
  have params : (0 : Cost) ≤ ((P.G.models X.mi.1).cparams.reverse.map (P.G.paramCost P.maps X.mi.2 f)).sum :=
    Cost.sum_map_nonneg _ fun e' _ => Graph.paramCost_nonneg _ _ e'
  have shadows : ((P.G.models X.mi.1).shadows.map (P.G.penaltyOf P.maps P.pass X.mi.2)).sum =
      M_costS + e.penalty + (edges.map (P.G.penaltyOf P.maps P.pass X.m_inst)).sum := by
    rw [show (P.G.models X.mi.1).shadows = done ++ e :: edges from h.split, h.sum]
    simp only [List.map_append, List.sum_append, List.map_cons, List.sum_cons, XState.mi, due]
    rw [add_assoc]
  rw [Graph.modelSum, shadows]
  exact (le_add_of_nonneg_right rest).trans (le_add_of_nonneg_right params)

theorem ParamAt.nonneg {done edges : List (Edge P.G.nv)} {M_costS : Cost}
    (h : P.ParamAt s X done edges M_costS) : 0 ≤ M_costS := by
  rw [h.sum]
  refine add_nonneg (Cost.sum_map_nonneg _ fun e he => ?_) (Cost.sum_map_nonneg _ fun e _ => ?_)
  · exact Graph.penaltyOf_nonneg (m := X.mi) P.valid he _
  · exact Graph.paramCost_nonneg _ _ e

theorem ShadowAt.nonneg {done edges : List (ShEdge P.G.nw)} {M_costS : Cost}
    (h : P.ShadowAt s X done edges M_costS) : 0 ≤ M_costS := by
  rw [h.sum]
  refine Cost.sum_map_nonneg _ fun e he => Graph.penaltyOf_nonneg (m := X.mi) P.valid ?_ _
  rw [show (P.G.models X.mi.1).shadows = done ++ edges from h.split]
  exact List.mem_append_left _ he

/-- The parameters solved so far and a bound of one more instance. -/
theorem ParamAt.low {done edges : List (Edge P.G.nv)} {e : Edge P.G.nv} {i : Inst} {M_costS b : Cost}
    (h : P.ParamAt s X done (e :: edges) M_costS) (hi : i ∈ P.maps.mapE e.map X.m_inst)
    (bound : b ∈ lowerBounds (P.sys.costs (e.idx, i))) :
    X.m.costf (M_costS + b) ∈ lowerBounds (P.sys.altCosts X.mi) := by
  refine costf_low fun f prems => ?_
  have split : (P.G.models X.mi.1).cparams.reverse = done ++ e :: edges := h.split
  have solved : (done.map (P.G.paramCost P.maps X.m_inst P.sys.opt)).sum ≤
      (done.map (P.G.paramCost P.maps X.m_inst f)).sum := by
    refine Cost.sum_map_mono _ fun d hd => Cost.listMax_map_mono _ fun j hj => ?_
    have mem : (d.idx, j) ∈ P.G.prems P.maps X.mi :=
      Graph.mem_prems_of (m := X.mi) (by rw [split]; simp [hd]) hj
    exact opt_le_premise (h.exact d hd j hj).1 (prems _ mem)
  have here : b ≤ P.G.paramCost P.maps X.m_inst f e := by
    have mem : (e.idx, i) ∈ P.G.prems P.maps X.mi :=
      Graph.mem_prems_of (m := X.mi) (by rw [split]; simp) hi
    exact (bound (prems _ mem)).trans (Graph.le_paramCost hi)
  have rest : (0 : Cost) ≤ (edges.map (P.G.paramCost P.maps X.m_inst f)).sum :=
    Cost.sum_map_nonneg _ fun e' _ => Graph.paramCost_nonneg _ _ e'
  have params : ((P.G.models X.mi.1).cparams.reverse.map (P.G.paramCost P.maps X.mi.2 f)).sum =
      (done.map (P.G.paramCost P.maps X.m_inst f)).sum +
        (P.G.paramCost P.maps X.m_inst f e + (edges.map (P.G.paramCost P.maps X.m_inst f)).sum) := by
    rw [split]
    simp only [List.map_append, List.sum_append, List.map_cons, List.sum_cons, XState.mi]
  rw [Graph.modelSum, params, h.sum, add_assoc]
  exact add_le_add le_rfl (add_le_add solved (here.trans (le_add_of_nonneg_right rest)))

/-- All parameters solved: the sum is exact. -/
theorem ParamAt.exact_cost {done : List (Edge P.G.nv)} {M_costS : Cost}
    (h : P.ParamAt s X done [] M_costS) :
    IsLeast (P.sys.altCosts X.mi) (X.m.costf M_costS) ∧
      ∀ u ∈ P.G.prems P.maps X.mi, (s.vs u).chain.isSome = true := by
  have split : (P.G.models X.mi.1).cparams.reverse = done := h.split.trans (List.append_nil _)
  have solved : ∀ u ∈ P.G.prems P.maps X.mi, P.sys.Exact u ∧ (s.vs u).chain.isSome = true := by
    intro u hu
    obtain ⟨e, he, hx, hi⟩ := Graph.mem_prems.mp hu
    have := h.exact e (by rwa [split] at he) u.2 hi
    rwa [hx] at this
  have sum : M_costS = P.G.modelSum P.maps P.pass X.mi P.sys.opt := by
    rw [Graph.modelSum, split]
    exact h.sum
  refine ⟨?_, fun u hu => (solved u hu).2⟩
  rw [sum]
  exact P.sys.value_least X.mi P.sys.opt fun u hu => (solved u hu).1

/-- The candidate loop over a prefix of the candidates. -/
structure ScanOk (s : Search P.G) (x_beta : ℚ) (l : List (Nat × P.G.MI)) (acc : Scan P.G) : Prop where
  low : ∀ c ∈ l, acc.m_cost ≤ (s.ms c.2).cost
  best : ∀ b, acc.best = some b → b ∈ l ∧ (s.ms b.2).cost = acc.m_cost
  unset : acc.best = none → acc.m_cost = ⊤
  others : ∀ c ∈ l, (∀ b, acc.best = some b → c.2 ≠ b.2) → (acc.m_beta : Cost) ≤ (s.ms c.2).cost
  beta_le : acc.m_beta ≤ x_beta
  le_beta : min acc.m_cost (x_beta : Cost) ≤ (acc.m_beta : Cost)

theorem minBeta_le (beta : ℚ) (c : Cost) : minBeta beta c ≤ beta := by
  induction c using WithTop.recTopCoe with
  | top => exact le_rfl
  | coe q => exact min_le_left _ _

theorem coe_minBeta (beta : ℚ) (c : Cost) : ((minBeta beta c : ℚ) : Cost) = min (beta : Cost) c := by
  induction c using WithTop.recTopCoe with
  | top => simp [minBeta]
  | coe q => simp [minBeta]

theorem ScanOk.start (x_beta : ℚ) : P.ScanOk s x_beta [] ⟨⊤, x_beta, none⟩ where
  low c hc := by cases hc
  best b hb := by cases hb
  unset _ := rfl
  others c hc := by cases hc
  beta_le := le_rfl
  le_beta := min_le_right _ _

theorem ScanOk.next {x_beta : ℚ} {l : List (Nat × P.G.MI)} {acc : Scan P.G}
    (h : P.ScanOk s x_beta l acc) (cand : Nat × P.G.MI) :
    P.ScanOk s x_beta (l ++ [cand]) (Scan.next s acc cand) where
  low c hc := by
    rcases List.mem_append.mp hc with old | new
    · exact (min_le_left _ _).trans (h.low c old)
    · cases List.mem_singleton.mp new
      exact min_le_right _ _
  best b hb := by
    simp only [Scan.next] at hb ⊢
    split at hb
    · rename_i cheaper
      cases hb
      exact ⟨by simp, (min_eq_right cheaper.le).symm⟩
    · rename_i dearer
      obtain ⟨mem, cost⟩ := h.best b hb
      exact ⟨by simp [mem], by rw [cost, min_eq_left (not_lt.mp dearer)]⟩
  unset hn := by
    simp only [Scan.next] at hn ⊢
    split at hn
    · cases hn
    · rename_i dearer
      have top := h.unset hn
      rw [top] at dearer ⊢
      rw [top_inf_eq]
      exact top_le_iff.mp (not_lt.mp dearer)
  others c hc other := by
    simp only [Scan.next] at other ⊢
    rw [coe_minBeta]
    rcases List.mem_append.mp hc with old | new
    · split at other
      · rename_i cheaper
        exact (min_le_right _ _).trans (by rw [max_eq_left cheaper.le]; exact h.low c old)
      · exact (min_le_left _ _).trans (h.others c old other)
    · cases List.mem_singleton.mp new
      split at other
      · exact absurd rfl (other cand rfl)
      · rename_i dearer
        exact (min_le_right _ _).trans (by rw [max_eq_right (not_lt.mp dearer)])
  beta_le := (minBeta_le _ _).trans h.beta_le
  le_beta := by
    simp only [Scan.next]
    rw [coe_minBeta]
    refine le_min ?_ ?_
    · exact (min_le_min_right _ (min_le_left _ _)).trans h.le_beta
    · exact (min_le_left _ _).trans ((min_le_left _ _).trans (le_max_left _ _))

theorem scan_ok (s : Search P.G) (t : XTarget P.G) :
    P.ScanOk s t.x_beta (candInsts t.cands) (t.scan s) := by
  have fold : ∀ (rest l : List (Nat × P.G.MI)) (acc : Scan P.G), P.ScanOk s t.x_beta l acc →
      P.ScanOk s t.x_beta (l ++ rest) (rest.foldl (Scan.next s) acc) := by
    intro rest
    induction rest with
    | nil => intro l acc h; simpa using h
    | cons cand rest ih =>
      intro l acc h
      have := ih (l ++ [cand]) _ (h.next cand)
      rwa [List.append_assoc] at this
  simpa [XTarget.scan] using fold (candInsts t.cands) [] _ (ScanOk.start t.x_beta)

/-- The cheapest candidate bounds the instance. -/
theorem scan_low {t : XTarget P.G} (search : P.SearchOk s) (cands : t.cands = xcands P.maps t.x) :
    (t.scan s).m_cost ∈ lowerBounds (P.sys.costs t.x) := by
  refine P.sys.lower_of_alts t.x _ fun m alt => ?_
  obtain ⟨c, hc, rfl⟩ := List.mem_map.mp (show m ∈ (candInsts (xcands P.maps t.x)).map Prod.snd from alt)
  rw [← cands] at hc
  exact fun _ through => ((scan_ok s t).low c hc).trans (search.model_low c.2 through)

/-- The selected candidate under the bound of the best other one. -/
theorem scan_selected {t : XTarget P.G} {b : Nat × P.G.MI} (search : P.SearchOk s)
    (cands : t.cands = xcands P.maps t.x) (best : (t.scan s).best = some b)
    (under : ¬ (t.x_beta : Cost) < (t.scan s).m_cost) :
    P.Selected { t with m_i := b.2.1, m_ei := b.1, m_inst := b.2.2, m_beta := (t.scan s).m_beta } where
  cands := cands
  cand := ((scan_ok s t).best b best).1
  others m alt other := by
    obtain ⟨c, hc, rfl⟩ := List.mem_map.mp (show m ∈ (candInsts (xcands P.maps t.x)).map Prod.snd from alt)
    rw [← cands] at hc
    have beta := (scan_ok s t).others c hc fun b' hb' same => other (by
      rw [best] at hb'
      cases hb'
      exact same)
    exact fun _ through => beta.trans (search.model_low c.2 through)
  beta_le := (scan_ok s t).beta_le
  k_le tight := by
    have cost := ((scan_ok s t).best b best).2
    have low := (scan_ok s t).le_beta
    rw [min_eq_left (not_lt.mp under), ← cost] at low
    exact WithTop.coe_le_coe.mp ((search.tight_k tight b.2).trans low)

end Problem
end M2.Fhk
