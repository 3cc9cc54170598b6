import M2.Fhk.Built
import M2.Fhk.PruneBounds

/-!
# Links of built graphs

The graph that the pruner walks is the one the builder made: its edges have both ends, and where the
codes of the maps fit, both ends of an edge agree on being behind a user map.
-/
namespace M2.Fhk
open M2.Lib

namespace Def

/-- The edges of the graph are those in the memory of the builder. -/
structure Stands (D : Def) (B : Build) (G : Graph) : Prop where
  nv : G.nv = D.vars.length
  nm : G.nm = D.models.length
  ng : G.ng = D.ng
  params : ∀ m : Fin G.nm, ((G.models m).params.map fun e => Cell.edge e.idx e.map e.ex) = B.params m
  returns : ∀ m : Fin G.nm, ((G.models m).returns.map fun e => Cell.edge e.idx e.map e.ex) = B.returns m
  varModels : ∀ x : Fin G.nv, ((G.vars x).models.map fun e => Cell.edge (~~~(e.idx : Int)) e.map e.ex) = B.varModels x
  varFwds : ∀ x : Fin G.nv, ((G.vars x).fwds.map fun e => (~~~(e.idx : Int), e.map)) =
    (B.varFwds x).map fun c => (c.idx, c.map)

variable {D : Def} {B : Build} {G : Graph} {base stop : Nat}

theorem complement_inj {i j : Nat} : (~~~(i : Int)) = ~~~(j : Int) ↔ i = j := by
  constructor
  · intro same
    have models := congrArg Build.modelOf same
    rwa [modelOf_not, modelOf_not] at models
  · rintro rfl
    rfl

/-- Every kind of map has a code that shows whether it is a user map, where the codes fit. -/
theorem Inv.isUser (inv : D.Inv) (fits : D.CodesFit) {kind : MapKind} {code : Int} {source : Nat}
    (uses : D.Uses kind code source) : MAP_ISUSER code D.ng ↔ (∃ k, kind = .const k) ∨ ∃ i, kind = .nonconst i := by
  obtain ⟨bounded, code_eq⟩ := inv.uses uses
  obtain ⟨narrow, coded⟩ := inv.wide_fits bounded (fits _ _ _ uses)
  rw [narrow] at code_eq
  rw [← code_eq] at coded
  have limit := inv.limit
  have maxkmap := inv.maxkmap
  have minimap := inv.minimap
  have ng_eq := inv.ng_eq
  have nimap_eq := inv.nimap_eq
  have nkmap_eq := inv.nkmap_eq
  have byte : ((BitVec.ofInt 8 code).toNat : Int) = code % 256 := by
    rw [BitVec.toNat_ofInt]
    omega
  rw [MAP_ISUSER_iff, MAP_IDENT]
  cases kind with
  | ident =>
    have same : code = MAP_IDENT := coded
    rw [MAP_IDENT] at same
    simp [same]
  | space group =>
    obtain ⟨same, lt⟩ := coded
    have small := (fits _ _ _ uses).1 group rfl
    simp only [reduceCtorEq, exists_false, or_self, iff_false, not_and]
    omega
  | const k =>
    obtain ⟨low, high⟩ := coded
    have small := (fits _ _ _ uses).2 k rfl
    have wide : code = k + D.ng := code_eq
    simp only [MapKind.const.injEq, exists_eq', true_or, iff_true]
    omega
  | nonconst i =>
    obtain ⟨low, high, -⟩ := coded
    simp only [MapKind.nonconst.injEq, exists_eq', or_true, iff_true]
    omega

/-- Both ends of an edge agree on being behind a user map. -/
theorem Inv.isUser_inverse (inv : D.Inv) (fits : D.CodesFit) {dm : DefModel} {e : DefEdge} (model : dm ∈ D.models)
    (mem : e ∈ dm.params ++ dm.returns) : MAP_ISUSER (D.g_extmapi dm.group e.map) D.ng =
      MAP_ISUSER (D.g_extmap (D.var e.idx).group e.map) D.ng := by
  obtain ⟨dx, here, -⟩ := (inv.models dm model).edges e mem
  have var : D.var e.idx = dx := by rw [Def.var, List.getD_eq_getElem?_getD, here, Option.getD_some]
  rw [var, Bool.eq_iff_iff, inv.isUser fits (.inverse model mem here), inv.isUser fits (.edge model mem here)]
  cases e.map with
  | FHKMAP_IDENT => exact Iff.rfl
  | FHKMAP_SPACE => simp [ExtMap.kind, ExtMap.kindInverse]
  | FHKMAP_USER m i =>
    have user (b : BitVec 8) : (∃ k, userKind b = .const k) ∨ ∃ j, userKind b = .nonconst j := by
      unfold userKind
      split <;> simp
    simp only [ExtMap.kind, ExtMap.kindInverse, user]

/-- A model of the definition. -/
theorem model_mem {i : Nat} (lt : i < D.models.length) : D.model i ∈ D.models := by
  rw [Def.model, List.getD_eq_getElem?_getD, List.getElem?_eq_getElem lt]
  exact List.getElem_mem lt

/-- The parameters of a built model, in some order. -/
theorem Faithful.params_perm (faithful : D.Faithful B base stop) {i : Nat} (lt : i < D.models.length) :
    ((B.params i).map fun c => (c.idx, c.map)).Perm
      ((D.model i).params.map fun e => ((e.idx : Int), D.g_extmap (D.var e.idx).group e.map)) := by
  obtain ⟨places, each⟩ := faithful.params i lt
  let entry (j : Nat) : Option (Int × Int) :=
    (D.model i).params[j]?.map fun e => ((e.idx : Int), D.g_extmap (D.var e.idx).group e.map)
  have cells : ((B.params i).map fun c => (c.idx, c.map)) = ((B.params i).map Cell.ex).filterMap entry := by
    rw [List.filterMap_map, ← List.filterMap_eq_map]
    refine List.filterMap_congr fun c mem => ?_
    obtain ⟨e, here, same⟩ := each c mem
    have value : entry c.ex = some ((e.idx : Int), D.g_extmap (D.var e.idx).group e.map) := by
      simp only [entry, here, Option.map_some]
    rw [Function.comp_apply, Function.comp_apply, value, same]
    rfl
  have all : (List.range (D.model i).params.length).filterMap entry =
      (D.model i).params.map fun e => ((e.idx : Int), D.g_extmap (D.var e.idx).group e.map) := by
    apply List.ext_getElem?
    intro j
    have range : List.range (D.model i).params.length = (List.range (D.model i).params.length).map id := (List.map_id _).symm
    have total : (List.range (D.model i).params.length).filterMap entry =
        (List.range (D.model i).params.length).map fun j => (entry j).getD (0, 0) := by
      rw [← List.filterMap_eq_map]
      refine List.filterMap_congr fun k mem => ?_
      have lt := List.mem_range.mp mem
      simp only [entry, List.getElem?_eq_getElem lt, Option.map_some, Function.comp_apply, Option.getD_some]
    rw [total, List.getElem?_map, List.getElem?_map]
    by_cases lt : j < (D.model i).params.length
    · rw [List.getElem?_range lt]
      simp [entry, List.getElem?_eq_getElem lt]
    · rw [List.getElem?_eq_none (by simpa using lt), List.getElem?_eq_none (by simpa using lt)]
      rfl
  rw [cells, ← all]
  exact places.filterMap entry

theorem sum_single {l : List Nat} (nodup : l.Nodup) {m : Nat} (mem : m ∈ l) (k : Nat) :
    (l.map fun i => if i = m then k else 0).sum = k := by
  induction l with
  | nil => cases mem
  | cons i l ih =>
    obtain ⟨not_mem, nodup⟩ := List.nodup_cons.mp nodup
    rw [List.map_cons, List.sum_cons]
    rcases List.mem_cons.mp mem with rfl | later
    · have rest : l.map (fun i => if i = m then k else 0) = l.map fun _ => 0 :=
        List.map_congr_left fun j here => if_neg (by rintro rfl; exact not_mem here)
      rw [if_pos rfl, rest]
      simp
    · rw [if_neg (by rintro rfl; exact not_mem later), Nat.zero_add, ih nodup later]

theorem countP_range_flatMap {α β : Type*} (n : Nat) (f : Nat → List α) (g : Nat → α → β) (p : β → Bool) {m : Nat} (lt : m < n)
    (apart : ∀ i, i ≠ m → ∀ a, p (g i a) = false) :
    ((List.range n).flatMap fun i => (f i).map (g i)).countP p = (f m).countP fun a => p (g m a) := by
  have each (i : Nat) : ((f i).map (g i)).countP p = if i = m then (f m).countP (fun a => p (g m a)) else 0 := by
    rw [List.countP_map]
    split
    · rename_i same
      rw [same]
      rfl
    · rename_i ne
      exact List.countP_eq_zero.mpr fun a _ => by simp [apart i ne a]
  rw [List.countP_flatMap]
  have only : (List.countP p ∘ fun i => (f i).map (g i)) = fun i => if i = m then (f m).countP (fun a => p (g m a)) else 0 :=
    funext each
  rw [only]
  exact sum_single List.nodup_range (List.mem_range.mpr lt) _

variable (stands : D.Stands B G) (faithful : D.Faithful B base stop)
include stands faithful

/-- The forward edges of a variable that lead to a model and pass a test on their map. -/
theorem Stands.count_fwds (x : Fin G.nv) (m : Fin G.nm) (test : Int → Bool) :
    ((G.vars x).fwds.countP fun e => decide (e.idx = m) && test e.map) =
      (D.model m).params.countP fun e => decide (e.idx = x.val) && test (D.g_extmapi (D.model m).group e.map) := by
  have pairs : ((G.vars x).fwds.map fun e => (~~~(e.idx : Int), e.map)) = D.fwdEdges x := by
    rw [stands.varFwds, faithful.varFwds x (stands.nv ▸ x.isLt)]
  have count := congrArg (List.countP fun w => decide (w.1 = ~~~(m : Int)) && test w.2) pairs
  rw [List.countP_map] at count
  have left : ((fun w : Int × Int => decide (w.1 = ~~~(m : Int)) && test w.2) ∘ fun e : Edge G.nm =>
      (~~~(e.idx : Int), e.map)) = fun e => decide (e.idx = m) && test e.map := by
    funext e
    simp only [Function.comp_apply, complement_inj, Fin.val_inj]
  rw [left, fwdEdges, countP_range_flatMap (m := m) _ (fun i => (D.model i).params.filter fun e => e.idx = x.val)
    (fun i e => (~~~(i : Int), D.g_extmapi (D.model i).group e.map)) _ (stands.nm ▸ m.isLt)
    (fun i ne e => by simp [complement_inj, ne])] at count
  rw [count, List.countP_filter]
  refine List.countP_congr fun e _ => ?_
  simp [and_comm]

/-- The parameters of a model that name a variable and pass a test on their map. -/
theorem Stands.count_params (x : Fin G.nv) (m : Fin G.nm) (test : Int → Bool) :
    ((G.models m).params.countP fun e => decide (e.idx = x) && test e.map) =
      (D.model m).params.countP fun e => decide (e.idx = x.val) && test (D.g_extmap (D.var e.idx).group e.map) := by
  have lt : (m : Nat) < D.models.length := stands.nm ▸ m.isLt
  have perm := faithful.params_perm lt
  rw [← stands.params m, List.map_map] at perm
  have count := perm.countP_eq fun w => decide (w.1 = (x : Int)) && test w.2
  rw [List.countP_map, List.countP_map] at count
  have left : ((fun w : Int × Int => decide (w.1 = (x : Int)) && test w.2) ∘ (fun c => (c.idx, c.map)) ∘ fun e : Edge G.nv =>
      Cell.edge e.idx e.map e.ex) = fun e => decide (e.idx = x) && test e.map := by
    funext e
    simp only [Function.comp_apply, Cell.idx, Cell.map, Int.ofNat_inj, Fin.val_inj]
  have right : ((fun w : Int × Int => decide (w.1 = (x : Int)) && test w.2) ∘ fun e : DefEdge =>
      ((e.idx : Int), D.g_extmap (D.var e.idx).group e.map)) =
      fun e => decide (e.idx = x.val) && test (D.g_extmap (D.var e.idx).group e.map) := by
    funext e
    simp only [Function.comp_apply, Int.ofNat_inj]
  rwa [left, right] at count

/-- The edges of a variable into a model that returns it, with a property of their maps. -/
theorem Stands.exists_models (x : Fin G.nv) (m : Fin G.nm) (p : Int → Prop) :
    (∃ e ∈ (G.vars x).models, e.idx = m ∧ p e.map) ↔
      ∃ e ∈ (D.model m).returns, e.idx = x.val ∧ p (D.g_extmapi (D.model m).group e.map) := by
  have cells : (∃ e ∈ (G.vars x).models, e.idx = m ∧ p e.map) ↔ ∃ c ∈ D.modEdges x, c.idx = ~~~(m : Int) ∧ p c.map := by
    rw [← faithful.varModels x (stands.nv ▸ x.isLt), ← stands.varModels x]
    simp only [List.mem_map, exists_exists_and_eq_and, Cell.idx, Cell.map, complement_inj, Fin.val_inj]
  rw [cells]
  simp only [modEdges, List.mem_flatMap, List.mem_map, List.mem_filter, List.mem_range, decide_eq_true_eq]
  constructor
  · rintro ⟨c, ⟨i, lt, w, ⟨mem, same⟩, rfl⟩, idx, holds⟩
    obtain rfl := complement_inj.mp idx
    exact ⟨w.1, List.mem_of_getElem? (List.mem_zipIdx_iff_getElem?.mp mem), same, holds⟩
  · rintro ⟨e, mem, same, holds⟩
    obtain ⟨j, lt, rfl⟩ := List.getElem_of_mem mem
    exact ⟨_, ⟨m, stands.nm ▸ m.isLt, (_, j), ⟨List.mem_zipIdx_iff_getElem?.mpr (List.getElem?_eq_getElem lt), same⟩, rfl⟩,
      rfl, holds⟩

/-- The edges of a model into a variable that it returns, with a property of their maps. -/
theorem Stands.exists_returns (x : Fin G.nv) (m : Fin G.nm) (p : Int → Prop) :
    (∃ e ∈ (G.models m).returns, e.idx = x ∧ p e.map) ↔
      ∃ e ∈ (D.model m).returns, e.idx = x.val ∧ p (D.g_extmap (D.var e.idx).group e.map) := by
  have cells := (stands.returns m).trans (faithful.returns m (stands.nm ▸ m.isLt))
  have left : (∃ e ∈ (G.models m).returns, e.idx = x ∧ p e.map) ↔
      ∃ c ∈ (G.models m).returns.map fun e => Cell.edge e.idx e.map e.ex, c.idx = (x : Int) ∧ p c.map := by
    simp only [List.mem_map, exists_exists_and_eq_and, Cell.idx, Cell.map, Int.ofNat_inj, Fin.val_inj]
  rw [left, cells]
  simp only [List.mem_map, exists_exists_and_eq_and, Def.edge, Cell.idx, Cell.map, Int.ofNat_inj]
  constructor
  · rintro ⟨w, mem, same, holds⟩
    exact ⟨w.1, List.mem_of_getElem? (List.mem_zipIdx_iff_getElem?.mp mem), same, holds⟩
  · rintro ⟨e, mem, same, holds⟩
    obtain ⟨j, lt, rfl⟩ := List.getElem_of_mem mem
    exact ⟨(_, j), List.mem_zipIdx_iff_getElem?.mpr (List.getElem?_eq_getElem lt), same, holds⟩

theorem Stands.models_iff (x : Fin G.nv) (m : Fin G.nm) :
    (∃ e ∈ (G.vars x).models, e.idx = m) ↔ ∃ e ∈ (G.models m).returns, e.idx = x := by
  have backward := stands.exists_models faithful x m fun _ => True
  have forward := stands.exists_returns faithful x m fun _ => True
  simp only [and_true] at backward forward
  exact backward.trans forward.symm

/-- The edges of a built graph have both ends. -/
theorem Stands.ends : G.Ends := by
  refine ⟨fun x m => ?_, stands.models_iff faithful, fun m => ?_⟩
  · have fwds := stands.count_fwds faithful x m fun _ => true
    have params := stands.count_params faithful x m fun _ => true
    simp only [Bool.and_true] at fwds params
    rw [fwds, params]
  · have lt : (m : Nat) < D.models.length := stands.nm ▸ m.isLt
    have small := (faithful.fits.1 m lt).params
    have perm := (faithful.params_perm lt).length_eq
    rw [List.length_map, List.length_map, ← stands.params m, List.length_map] at perm
    rw [perm]
    unfold G_MAXEDGE at small
    omega

/-- A built graph whose map codes fit is linked. -/
theorem Stands.linked (inv : D.Inv) (fits : D.CodesFit) : G.Linked := by
  refine ⟨stands.ends faithful, fun x m => ?_⟩
  have lt : (m : Nat) < D.models.length := stands.nm ▸ m.isLt
  have fwds := stands.count_fwds faithful x m G.xnonempty
  have params := stands.count_params faithful x m G.xnonempty
  have both : (D.model m).params.countP (fun e => decide (e.idx = x.val) && G.xnonempty (D.g_extmapi (D.model m).group e.map)) =
      (D.model m).params.countP fun e => decide (e.idx = x.val) && G.xnonempty (D.g_extmap (D.var e.idx).group e.map) := by
    refine List.countP_congr fun e mem => ?_
    rw [Graph.xnonempty, Graph.xnonempty, stands.ng, inv.isUser_inverse fits (model_mem lt) (List.mem_append_left _ mem)]
  simp only [Bool.decide_and, Bool.decide_coe]
  rw [fwds, params, both]

/-- The returns of a built graph whose map codes fit. -/
theorem Stands.returned (inv : D.Inv) (fits : D.CodesFit) : G.Returned := by
  intro m e mem fixed
  have lt : (m : Nat) < D.models.length := stands.nm ▸ m.isLt
  obtain ⟨r, mem', same, test⟩ := (stands.exists_returns faithful e.idx m (G.xnonempty ·)).mp ⟨e, mem, rfl, fixed⟩
  apply (stands.exists_models faithful e.idx m (G.xnonempty ·)).mpr
  apply Exists.intro r
  constructor
  · exact mem'
  · rw [Graph.xnonempty, stands.ng] at test ⊢
    rw [inv.isUser_inverse fits (model_mem lt) (List.mem_append_right _ mem')]
    exact ⟨same, test⟩

end Def

deriving instance DecidableEq for FloatVal, Cell

namespace OneParam

/-- With map 127 next to one group the parameter has the code of the identity, and the low bound of the
model stays infinite, though it needs nothing but a given variable. -/
theorem not_bounds_limit : (UserMap.oneParam 127).Defined ∧
    (UserMap.oneParam 127).Stands ((UserMap.oneParam 127).fhk_build_graph (fun _ => .penalty 0) 4096).1 (graph (-128)) ∧
    (start (-128)).Fresh ∧ ∃ P', (start (-128)).fhk_prune_run 5 = .ok P' ∧
      ¬ (start (-128)).scope.LeastSolution (priced (-128)) .GRAY fun i => P'.bound (i, .GRAY) := by
  refine ⟨UserMap.oneParam_defined rfl, ⟨rfl, rfl, rfl, fun m => ?_, fun m => ?_, fun x => ?_, fun x => ?_⟩,
    start_fresh _, ?_⟩
  · rw [only_index m]
    decide +kernel
  · rw [only_index m]
    rfl
  · rw [only_index x]
    rfl
  · rw [only_index x]
    decide +kernel
  · have computed : (match (start (-128)).fhk_prune_run 5 with
        | .ok P' => decide (P'.bound (.model (0 : Fin 1), .GRAY) = ⊤)
        | .error _ => false) = true := by decide +kernel
    split at computed
    · rename_i P' run
      refine ⟨P', run, fun solution => ?_⟩
      have top : P'.bound (.model (0 : Fin 1), .GRAY) = ⊤ := of_decide_eq_true computed
      have given : P'.bound (.var (0 : Fin 1), .GRAY) = 0 := solution.given (0 : Fin 1) rfl
      have model : P'.bound (.model (0 : Fin 1), .GRAY) = Cost.affine 0 1 ([P'.bound (.var (0 : Fin 1), .GRAY)].sum + 0) := solution.model (0 : Fin 1) rfl
      rw [top, given] at model
      exact absurd model (by decide)
    · cases computed

end OneParam
end M2.Fhk
