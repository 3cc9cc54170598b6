import M2.Fhk.BuildLayout

/-!
# Edges of built graphs

What `g_build_edges` writes to the arrays, once these have their places.
-/
namespace M2.Fhk
open M2.Lib

/-- The model whose loop writes to an array, none for the arrays of a variable. -/
def Slot.owner : Slot → Option Nat
  | .cparam i => some i
  | .gparam i => some i
  | .check i => some i
  | .penalty i => some i
  | .ret i => some i
  | .fwd _ => none
  | .mod _ => none

namespace Def
variable (D : Def)

/-- Parameter or return `j` as an edge of its model. -/
def edge (e : DefEdge) (j : Nat) : Cell := .edge e.idx (D.g_extmap (D.var e.idx).group e.map) j

/-- A check as an edge of its model. -/
def shedge (e : DefShEdge) : Cell :=
  let w := D.shadow e.idx
  .edge (D.vars.length + e.idx) (D.g_extmap (D.var w.xi).group e.map) (if (D.var w.xi).n_mod ≠ 0 then W_COMPUTED else 0)

/-- What the first loop of `buildModel` writes. -/
def checkWrites (i : Nat) : List Write :=
  (D.model i).shadows.flatMap fun e => [(.penalty i, fun _ => .penalty e.penalty), (.check i, fun _ => D.shedge e)]

/-- The array of a parameter. -/
def paramSlot (i : Nat) (e : DefEdge) : Slot := if (D.var e.idx).n_mod ≠ 0 then .cparam i else .gparam i

def paramWrites (i : Nat) : List Write :=
  (D.model i).params.zipIdx.flatMap fun (e, j) => [(D.paramSlot i e, fun _ => D.edge e j),
    (.fwd e.idx, Cell.setIdxMap (~~~(i : Int)) (D.g_extmapi (D.model i).group e.map))]

def returnWrites (i : Nat) : List Write :=
  (D.model i).returns.zipIdx.flatMap fun (e, j) => [(.ret i, fun _ => D.edge e j),
    (.mod e.idx, fun _ => .edge (~~~(i : Int)) (D.g_extmapi (D.model i).group e.map) j)]

/-- All writes of model `i`. -/
def modelWrites (i : Nat) : List Write := D.checkWrites i ++ (D.paramWrites i ++ D.returnWrites i)

variable {D} {L : Build} {p0 p : Nat}

variable {G : Build} {A : Appends Slot Nat Cell}

theorem checks_follow (laid : D.Laid p0 L p) {i : Nat} {l : List DefShEdge} {s : Int}
    (follows : Build.Follows L G A) (running : s = -(A.count (.check i) : Int))
    (both : A.count (.penalty i) = A.count (.check i))
    (room : (A.count (.check i) + l.length) * 8 ≤ (L.models i).params) :
    Build.Follows L (l.foldl (D.buildCheck i) (G, s)).1
      ((l.flatMap fun e => [(.penalty i, fun _ => .penalty e.penalty), (.check i, fun _ => D.shedge e)]).foldl
        (Appends.push L.place) A) := by
  induction l generalizing G A s with
  | nil => exact follows
  | cons e l ih =>
    rw [List.length_cons] at room
    have address : ((L.models i).params + (s - 1) * 8 : Int).toNat =
        (L.models i).params - (A.count (.check i) + 1) * 8 := by omega
    have penalty := follows.store (.penalty i) (fun _ => .penalty e.penalty)
      (a := (L.models i).params - (A.count (.check i) + 1) * 8 + 4) (by rw [Build.place, both]; omega)
      (fun x h => by cases h) fun x h => by cases h
    have check := penalty.store (.check i) (fun _ => D.shedge e) (a := (L.models i).params - (A.count (.check i) + 1) * 8)
      (by rw [Build.place, Appends.count_push]; simp) (fun x h => by cases h) fun x h => by cases h
    simp only [List.foldl_cons, List.flatMap_cons, List.foldl_append, List.foldl_nil]
    have step : D.buildCheck i (G, s) e = (((G.store ((L.models i).params - (A.count (.check i) + 1) * 8 + 4)
        fun _ => .penalty e.penalty).store ((L.models i).params - (A.count (.check i) + 1) * 8)
        fun _ => D.shedge e), s - 1) := by
      have group (x : Nat) : (G.vars x).group = (D.var x).group := by
        rw [follows.vars x]
        exact laid.groups x
      simp only [buildCheck, Build.store, follows.models, follows.shadows, laid.shadows, address, group, shedge]
    rw [step]
    refine ih check ?_ ?_ ?_
    · rw [Appends.count_push, Appends.count_push, running]
      simp
      omega
    · simp only [Appends.count_push, both]
      simp
    · simp only [Appends.count_push]
      simp
      omega

theorem params_follow (laid : D.Laid p0 L p) {i : Nat} (lt : i < D.models.length) {l : List (DefEdge × Nat)} {c g : Nat}
    (follows : Build.Follows L G A) (cparam : c = A.count (.cparam i))
    (gparam : g = (L.models i).p_cparam + A.count (.gparam i)) :
    Build.Follows L (l.foldl (D.buildParam i) (G, c, g)).1
      ((l.flatMap fun (e, j) => [(D.paramSlot i e, fun _ => D.edge e j),
        (.fwd e.idx, Cell.setIdxMap (~~~(i : Int)) (D.g_extmapi (D.model i).group e.map))]).foldl
        (Appends.push L.place) A) := by
  induction l generalizing G A c g with
  | nil => exact follows
  | cons w l ih =>
    obtain ⟨e, j⟩ := w
    have slot : Build.Follows L (G.store ((L.models i).params + (if (D.var e.idx).n_mod ≠ 0 then c else g) * 4)
        fun _ => D.edge e j) (A.push L.place (D.paramSlot i e, fun _ => D.edge e j)) := by
      apply follows.store
      · rw [Build.word_add, paramSlot]
        split
        · rw [cparam, Build.place]
        · rw [gparam, Build.place]
      · intro x h
        unfold paramSlot at h
        split at h <;> cases h
      · intro x h
        unfold paramSlot at h
        split at h <;> cases h
    have fwd := slot.fwd e.idx (Cell.setIdxMap (~~~(i : Int)) (D.g_extmapi (D.model i).group e.map))
    simp only [List.foldl_cons, List.flatMap_cons, List.foldl_append, List.foldl_nil]
    have step : D.buildParam i (G, c, g) (e, j) = ((((G.store ((L.models i).params +
        (if (D.var e.idx).n_mod ≠ 0 then c else g) * 4) fun _ => D.edge e j).store
        ((G.vars e.idx).fwds + (G.vars e.idx).n_fwd * 4)
        (Cell.setIdxMap (~~~(i : Int)) (D.g_extmapi (D.model i).group e.map))).setVar e.idx
        { G.vars e.idx with n_fwd := (G.vars e.idx).n_fwd + 1 }),
        if (D.var e.idx).n_mod ≠ 0 then c + 1 else c, if (D.var e.idx).n_mod ≠ 0 then g else g + 1) := by
      have group : (G.vars e.idx).group = (D.var e.idx).group := by
        rw [follows.vars]
        exact laid.groups _
      have source : (G.models i).group = (D.model i).group := by
        rw [follows.models]
        exact (laid.nodes i lt).1
      simp only [buildParam, Build.store, follows.models, group, edge]
      rw [← follows.models, source]
    rw [step]
    refine ih fwd ?_ ?_
    · simp only [Appends.count_push, paramSlot]
      split <;> simp [cparam]
    · simp only [Appends.count_push, paramSlot]
      split <;> simp [gparam]
      omega

theorem returns_follow (laid : D.Laid p0 L p) {i : Nat} (lt : i < D.models.length) {l : List DefEdge} {n : Nat}
    (follows : Build.Follows L G A) (ret : A.count (.ret i) = n) :
    Build.Follows L ((l.zipIdx n).foldl (D.buildReturn i) G)
      (((l.zipIdx n).flatMap fun (e, j) => [(.ret i, fun _ => D.edge e j),
        (.mod e.idx, fun _ => .edge (~~~(i : Int)) (D.g_extmapi (D.model i).group e.map) j)]).foldl
        (Appends.push L.place) A) := by
  induction l generalizing G A n with
  | nil => exact follows
  | cons e l ih =>
    have slot := follows.store (.ret i) (fun _ => D.edge e n) (a := (L.models i).returns + n * 4)
      (by rw [Build.word_add, Build.place, ret]) (fun x h => by cases h) fun x h => by cases h
    have mod := slot.mod e.idx fun _ => .edge (~~~(i : Int)) (D.g_extmapi (D.model i).group e.map) n
    simp only [List.zipIdx_cons, List.foldl_cons, List.flatMap_cons, List.foldl_append, List.foldl_nil]
    have step : D.buildReturn i G (e, n) = (((G.store ((L.models i).returns + n * 4) fun _ => D.edge e n).store
        ((G.vars e.idx).models + (G.vars e.idx).n_mod * 4)
        fun _ => .edge (~~~(i : Int)) (D.g_extmapi (D.model i).group e.map) n).setVar e.idx
        { G.vars e.idx with n_mod := (G.vars e.idx).n_mod + 1 }) := by
      have group : (G.vars e.idx).group = (D.var e.idx).group := by
        rw [follows.vars]
        exact laid.groups _
      have source : (G.models i).group = (D.model i).group := by
        rw [follows.models]
        exact (laid.nodes i lt).1
      simp only [buildReturn, Build.store, follows.models, group, edge]
      rw [← follows.models, source]
    rw [step]
    refine ih mod ?_
    simp only [Appends.count_push, ret]
    simp

/-! ## The arrays that are written -/

theorem mem_checkWrites {i : Nat} {w : Write} (mem : w ∈ D.checkWrites i) : w.1 = .penalty i ∨ w.1 = .check i := by
  obtain ⟨e, -, mem⟩ := List.mem_flatMap.mp mem
  obtain rfl | mem := List.mem_cons.mp mem
  · exact .inl rfl
  · rw [List.mem_singleton.mp mem]
    exact .inr rfl

theorem mem_paramWrites {i : Nat} {w : Write} (mem : w ∈ D.paramWrites i) :
    w.1 = .cparam i ∨ w.1 = .gparam i ∨ ∃ x, w.1 = .fwd x := by
  obtain ⟨⟨e, j⟩, -, mem⟩ := List.mem_flatMap.mp mem
  obtain rfl | mem := List.mem_cons.mp mem
  · by_cases computed : (D.var e.idx).n_mod ≠ 0
    · exact .inl (if_pos computed)
    · exact .inr (.inl (if_neg computed))
  · rw [List.mem_singleton.mp mem]
    exact .inr (.inr ⟨e.idx, rfl⟩)

theorem mem_returnWrites {i : Nat} {w : Write} (mem : w ∈ D.returnWrites i) : w.1 = .ret i ∨ ∃ x, w.1 = .mod x := by
  obtain ⟨⟨e, j⟩, -, mem⟩ := List.mem_flatMap.mp mem
  obtain rfl | mem := List.mem_cons.mp mem
  · exact .inl rfl
  · rw [List.mem_singleton.mp mem]
    exact .inr ⟨e.idx, rfl⟩

theorem mem_modelWrites {i j : Nat} {w : Write} (mem : w ∈ D.modelWrites i) (owner : w.1.owner = some j) : j = i := by
  rw [modelWrites, List.mem_append, List.mem_append] at mem
  obtain mem | mem | mem := mem
  · obtain here | here := mem_checkWrites mem <;> rw [here] at owner <;> cases owner <;> rfl
  · obtain here | here | ⟨x, here⟩ := mem_paramWrites mem <;> rw [here] at owner <;> cases owner <;> rfl
  · obtain here | ⟨x, here⟩ := mem_returnWrites mem <;> rw [here] at owner <;> cases owner
    rfl

theorem buildModel_follows (laid : D.Laid p0 L p) {i : Nat} (lt : i < D.models.length)
    (room : (D.model i).shadows.length * 8 ≤ (L.models i).params) (follows : Build.Follows L G A)
    (zero : ∀ k : Slot, k.owner = some i → A.count k = 0) :
    Build.Follows L (D.buildModel G i) ((D.modelWrites i).foldl (Appends.push L.place) A) := by
  have checks := checks_follow (l := (D.model i).shadows) (s := 0) laid follows (by rw [zero _ rfl]; rfl)
    (by rw [zero _ rfl, zero _ rfl]) (by rw [zero _ rfl]; omega)
  rw [← checkWrites] at checks
  have params := params_follow (c := 0) laid lt (l := (D.model i).params.zipIdx) checks
    (by
      rw [Appends.count_run, zero _ rfl, only_eq_nil]
      · rfl
      · intro w mem h
        obtain here | here := mem_checkWrites mem <;> rw [here] at h <;> cases h)
    (g := (L.models i).p_cparam) (by
      rw [Appends.count_run, zero _ rfl, only_eq_nil]
      · rfl
      · intro w mem h
        obtain here | here := mem_checkWrites mem <;> rw [here] at h <;> cases h)
  rw [← paramWrites] at params
  have returns := returns_follow (n := 0) laid lt (l := (D.model i).returns) params (by
    rw [Appends.count_run, Appends.count_run, zero _ rfl, only_eq_nil, only_eq_nil]
    · rfl
    · intro w mem h
      obtain here | here | ⟨x, here⟩ := mem_paramWrites mem <;> rw [here] at h <;> cases h
    · intro w mem h
      obtain here | here := mem_checkWrites mem <;> rw [here] at h <;> cases h)
  rw [← returnWrites] at returns
  rw [modelWrites, List.foldl_append, List.foldl_append, buildModel]
  simp only [checks.models]
  exact returns

/-- All writes of the last loop. -/
def allWrites (D : Def) : List Write := (List.range D.models.length).flatMap D.modelWrites

/-- The arrays before anything is appended. -/
def fresh (L : Build) : Appends Slot Nat Cell := ⟨L.mem, fun _ => 0⟩

theorem allWrites_follow (laid : D.Laid p0 L p)
    (room : ∀ i < D.models.length, (D.model i).shadows.length * 8 ≤ (L.models i).params) :
    Build.Follows L ((List.range D.models.length).foldl D.buildModel L)
      (D.allWrites.foldl (Appends.push L.place) (fresh L)) := by
  apply Run.foldl_range (fun t G => Build.Follows L G
    (((List.range t).flatMap D.modelWrites).foldl (Appends.push L.place) (fresh L)))
  · refine ⟨rfl, fun x => ?_, rfl, rfl⟩
    obtain ⟨mod, fwd⟩ := laid.counters x
    simp only [List.range_zero, List.flatMap_nil, List.foldl_nil, fresh]
    generalize L.vars x = v at mod fwd ⊢
    cases v
    cases mod
    cases fwd
    rfl
  · intro i lt G follows
    rw [List.range_succ, List.flatMap_append, List.foldl_append, List.flatMap_singleton]
    refine buildModel_follows laid lt (room i lt) follows fun k owner => ?_
    rw [Appends.count_run, only_eq_nil]
    · rfl
    · rintro w mem rfl
      obtain ⟨j, model, mem⟩ := List.mem_flatMap.mp mem
      exact absurd (mem_modelWrites mem owner) (Nat.ne_of_gt (List.mem_range.mp model))

theorem flatMap_range_single {β : Type*} {f : Nat → List β} {n i : Nat} (lt : i < n) (none : ∀ j, j ≠ i → f j = []) :
    (List.range n).flatMap f = f i := by
  induction n with
  | zero => exact absurd lt (Nat.not_lt_zero i)
  | succ n ih =>
    rw [List.range_succ, List.flatMap_append, List.flatMap_singleton]
    by_cases last : n = i
    · subst last
      have before : (List.range n).flatMap f = [] := by
        rw [List.flatMap_eq_nil_iff]
        intro j mem
        exact none j (Nat.ne_of_lt (List.mem_range.mp mem))
      rw [before, List.nil_append]
    · rw [none n last, List.append_nil]
      exact ih (by omega)

theorem flatMap_ite {α β : Type*} (p : α → Prop) [DecidablePred p] (g : α → β) (l : List α) :
    (l.flatMap fun a => if p a then [g a] else []) = (l.filter p).map g := by
  induction l with
  | nil => rfl
  | cons a l ih =>
    rw [List.flatMap_cons, ih]
    by_cases here : p a
    · rw [if_pos here, List.filter_cons_of_pos (by simpa using here), List.map_cons, List.singleton_append]
    · rw [if_neg here, List.filter_cons_of_neg (by simpa using here), List.nil_append]

/-- The appends to an array of model `i` are those of its own loop. -/
theorem only_own {k : Slot} {i : Nat} (lt : i < D.models.length) (owner : k.owner = some i) :
    Appends.only k D.allWrites = Appends.only k (D.modelWrites i) := by
  rw [allWrites, Appends.only_flatMap]
  refine flatMap_range_single lt fun j ne => only_eq_nil fun w mem same => ?_
  subst same
  exact ne (mem_modelWrites mem owner).symm

theorem only_pair (k : Slot) (w w' : Write) :
    Appends.only k [w, w'] = (if w.1 = k then [w.2] else []) ++ if w'.1 = k then [w'.2] else [] := by
  rw [Appends.only_cons, only_single]
  split <;> rfl

theorem only_check {i : Nat} (lt : i < D.models.length) :
    Appends.only (.check i) D.allWrites = (D.model i).shadows.map fun e _ => D.shedge e := by
  rw [only_own lt rfl, modelWrites, Appends.only_append, only_eq_nil (l := D.paramWrites i ++ _), List.append_nil,
    checkWrites, Appends.only_flatMap]
  · simp [only_pair, List.map_eq_flatMap]
  · intro w mem same
    obtain mem | mem := List.mem_append.mp mem
    · obtain here | here | ⟨x, here⟩ := mem_paramWrites mem <;> rw [here] at same <;> cases same
    · obtain here | ⟨x, here⟩ := mem_returnWrites mem <;> rw [here] at same <;> cases same

theorem only_penalty {i : Nat} (lt : i < D.models.length) :
    Appends.only (.penalty i) D.allWrites = (D.model i).shadows.map fun e _ => .penalty e.penalty := by
  rw [only_own lt rfl, modelWrites, Appends.only_append, only_eq_nil (l := D.paramWrites i ++ _), List.append_nil,
    checkWrites, Appends.only_flatMap]
  · simp [only_pair, List.map_eq_flatMap]
  · intro w mem same
    obtain mem | mem := List.mem_append.mp mem
    · obtain here | here | ⟨x, here⟩ := mem_paramWrites mem <;> rw [here] at same <;> cases same
    · obtain here | ⟨x, here⟩ := mem_returnWrites mem <;> rw [here] at same <;> cases same

/-- The appends to a parameter array of model `i`. -/
theorem only_param {i : Nat} (lt : i < D.models.length) {k : Slot} (owner : k.owner = some i) (check : k ≠ .check i)
    (penalty : k ≠ .penalty i) (ret : k ≠ .ret i) :
    Appends.only k D.allWrites =
      ((D.model i).params.zipIdx.filter fun w => D.paramSlot i w.1 = k).map fun w _ => D.edge w.1 w.2 := by
  rw [only_own lt owner, modelWrites, Appends.only_append, only_eq_nil (l := D.checkWrites i), List.nil_append,
    Appends.only_append, only_eq_nil (l := D.returnWrites i), List.append_nil, paramWrites, Appends.only_flatMap,
    ← flatMap_ite]
  · refine List.flatMap_congr fun w _ => ?_
    have other : Slot.fwd w.1.idx ≠ k := by
      rintro rfl
      cases owner
    rw [only_pair, if_neg other, List.append_nil]
  · intro w mem same
    obtain here | ⟨x, here⟩ := mem_returnWrites mem
    · exact ret (same.symm.trans here)
    · rw [← same, here] at owner
      cases owner
  · intro w mem same
    obtain here | here := mem_checkWrites mem
    · exact penalty (same.symm.trans here)
    · exact check (same.symm.trans here)

theorem only_ret {i : Nat} (lt : i < D.models.length) :
    Appends.only (.ret i) D.allWrites = (D.model i).returns.zipIdx.map fun w _ => D.edge w.1 w.2 := by
  rw [only_own lt rfl, modelWrites, Appends.only_append, only_eq_nil (l := D.checkWrites i), List.nil_append,
    Appends.only_append, only_eq_nil (l := D.paramWrites i), List.nil_append, returnWrites, Appends.only_flatMap]
  · simp [only_pair, List.map_eq_flatMap]
  · intro w mem same
    obtain here | here | ⟨x, here⟩ := mem_paramWrites mem <;> rw [here] at same <;> cases same
  · intro w mem same
    obtain here | here := mem_checkWrites mem <;> rw [here] at same <;> cases same

/-- The forward edges of a variable, of all parameters that name it: model and inverse map. -/
def fwdEdges (D : Def) (x : Nat) : List (Int × Int) :=
  (List.range D.models.length).flatMap fun i => ((D.model i).params.filter fun e => e.idx = x).map fun e =>
    (~~~(i : Int), D.g_extmapi (D.model i).group e.map)

/-- The backward edges of a variable, of all returns that name it. -/
def modEdges (D : Def) (x : Nat) : List Cell :=
  (List.range D.models.length).flatMap fun i => ((D.model i).returns.zipIdx.filter fun w => w.1.idx = x).map fun w =>
    .edge (~~~(i : Int)) (D.g_extmapi (D.model i).group w.1.map) w.2

theorem only_fwd (x : Nat) :
    Appends.only (.fwd x) D.allWrites = (D.fwdEdges x).map fun e => Cell.setIdxMap e.1 e.2 := by
  rw [allWrites, Appends.only_flatMap, fwdEdges, List.map_flatMap]
  refine List.flatMap_congr fun i _ => ?_
  rw [modelWrites, Appends.only_append, only_eq_nil (l := D.checkWrites i), List.nil_append, Appends.only_append,
    only_eq_nil (l := D.returnWrites i), List.append_nil, paramWrites, Appends.only_flatMap]
  · have named (e : DefEdge) (j : Nat) : Appends.only (.fwd x) [(D.paramSlot i e, fun _ => D.edge e j),
        (.fwd e.idx, Cell.setIdxMap (~~~(i : Int)) (D.g_extmapi (D.model i).group e.map))] =
        if e.idx = x then [Cell.setIdxMap (~~~(i : Int)) (D.g_extmapi (D.model i).group e.map)] else [] := by
      have other : D.paramSlot i e ≠ .fwd x := by
        unfold paramSlot
        split <;> exact fun h => by cases h
      rw [only_pair, if_neg other, List.nil_append]
      simp only [Slot.fwd.injEq]
    rw [List.map_map, ← flatMap_ite, ← List.zipIdx_map_fst 0 (D.model i).params, List.flatMap_map]
    simp only [List.zipIdx_map_fst, named, Function.comp_apply]
  · intro w mem same
    obtain here | ⟨y, here⟩ := mem_returnWrites mem <;> rw [here] at same <;> cases same
  · intro w mem same
    obtain here | here := mem_checkWrites mem <;> rw [here] at same <;> cases same

theorem only_mod (x : Nat) : Appends.only (.mod x) D.allWrites = (D.modEdges x).map fun c _ => c := by
  rw [allWrites, Appends.only_flatMap, modEdges, List.map_flatMap]
  refine List.flatMap_congr fun i _ => ?_
  rw [modelWrites, Appends.only_append, only_eq_nil (l := D.checkWrites i), List.nil_append, Appends.only_append,
    only_eq_nil (l := D.paramWrites i), List.nil_append, returnWrites, Appends.only_flatMap, List.map_map, ← flatMap_ite]
  · refine List.flatMap_congr fun w _ => ?_
    rw [only_pair, if_neg (fun h => by cases h), List.nil_append]
    simp only [Slot.mod.injEq, Function.comp_apply]
  · intro w mem same
    obtain here | here | ⟨y, here⟩ := mem_paramWrites mem <;> rw [here] at same <;> cases same
  · intro w mem same
    obtain here | here := mem_checkWrites mem <;> rw [here] at same <;> cases same

theorem length_fwdEdges (x : Nat) : (D.fwdEdges x).length = D.paramVars.count x := by
  rw [paramVars, ← flatMap_models, fwdEdges, List.length_flatMap, List.count_flatMap]
  congr 1
  refine List.map_congr_left fun i _ => ?_
  rw [List.length_map, Function.comp_apply, List.count, List.countP_map, List.countP_eq_length_filter]
  congr 2

theorem length_modEdges (x : Nat) : (D.modEdges x).length = D.returnVars.count x := by
  rw [returnVars, ← flatMap_models, modEdges, List.length_flatMap, List.count_flatMap]
  congr 1
  refine List.map_congr_left fun i _ => ?_
  rw [List.length_map, Function.comp_apply, List.count, List.countP_map, ← List.countP_eq_length_filter,
    ← List.zipIdx_map_fst 0 (D.model i).returns, List.countP_map]
  rw [List.zipIdx_map_fst]
  congr 1

/-! ## Contents -/

theorem length_filter_zipIdx {α : Type*} (p : α → Bool) (l : List α) :
    (l.zipIdx.filter fun w => p w.1).length = (l.filter p).length := by
  rw [← List.countP_eq_length_filter, ← List.countP_eq_length_filter]
  conv => rhs; rw [← List.zipIdx_map_fst 0 l, List.countP_map]
  rfl

/-- The parameters of model `i` whose variable has models, as edges. -/
def computedEdges (D : Def) (i : Nat) : List Cell :=
  ((D.model i).params.zipIdx.filter fun w => (D.var w.1.idx).n_mod ≠ 0).map fun w => D.edge w.1 w.2

/-- The other parameters. -/
def givenEdges (D : Def) (i : Nat) : List Cell :=
  ((D.model i).params.zipIdx.filter fun w => ¬ (D.var w.1.idx).n_mod ≠ 0).map fun w => D.edge w.1 w.2

theorem only_cparam {i : Nat} (lt : i < D.models.length) :
    Appends.only (.cparam i) D.allWrites = (D.computedEdges i).map fun c _ => c := by
  have slot : (fun w : DefEdge × Nat => decide (D.paramSlot i w.1 = .cparam i)) =
      fun w => decide ((D.var w.1.idx).n_mod ≠ 0) := by
    funext w
    by_cases has : (D.var w.1.idx).n_mod ≠ 0 <;> simp [paramSlot, has]
  rw [only_param lt rfl (fun h => by cases h) (fun h => by cases h) (fun h => by cases h), computedEdges, List.map_map, slot]
  rfl

theorem only_gparam {i : Nat} (lt : i < D.models.length) :
    Appends.only (.gparam i) D.allWrites = (D.givenEdges i).map fun c _ => c := by
  have slot : (fun w : DefEdge × Nat => decide (D.paramSlot i w.1 = .gparam i)) =
      fun w => decide (¬ (D.var w.1.idx).n_mod ≠ 0) := by
    funext w
    by_cases has : (D.var w.1.idx).n_mod ≠ 0 <;> simp [paramSlot, has]
  rw [only_param lt rfl (fun h => by cases h) (fun h => by cases h) (fun h => by cases h), givenEdges, List.map_map, slot]
  rfl

theorem length_computedEdges (i : Nat) : (D.computedEdges i).length = (D.cparams i).length := by
  rw [computedEdges, List.length_map, cparams]
  exact length_filter_zipIdx (fun e : DefEdge => decide ((D.var e.idx).n_mod ≠ 0)) (D.model i).params

theorem length_givenEdges (i : Nat) : (D.cparams i).length + (D.givenEdges i).length = (D.model i).params.length := by
  have zip := length_filter_zipIdx (fun e : DefEdge => !decide ((D.var e.idx).n_mod ≠ 0)) (D.model i).params
  rw [List.length_eq_length_filter_add (l := (D.model i).params) fun e => (D.var e.idx).n_mod ≠ 0, cparams, ← zip,
    givenEdges, List.length_map]
  simp only [decide_not]

theorem length_cparam {i : Nat} (lt : i < D.models.length) :
    (Appends.only (.cparam i) D.allWrites).length = (D.cparams i).length := by
  rw [only_cparam lt, List.length_map, length_computedEdges]

theorem length_gparam {i : Nat} (lt : i < D.models.length) :
    (D.cparams i).length + (Appends.only (.gparam i) D.allWrites).length = (D.model i).params.length := by
  rw [only_gparam lt, List.length_map, length_givenEdges]

theorem owner_lt {k : Slot} {i j : Nat} (owner : k.owner = some i) (lt : j < (Appends.only k D.allWrites).length) :
    i < D.models.length := by
  obtain ⟨m, model, mem⟩ := List.mem_flatMap.mp (mem_only (List.getElem_mem lt))
  rw [mem_modelWrites mem owner]
  exact List.mem_range.mp model

end Def

/-- The array of the graph that an array of appends is part of. -/
def Slot.array : Slot → EdgeArray
  | .cparam i => .bw i
  | .gparam i => .bw i
  | .check i => .bw i
  | .penalty i => .bw i
  | .ret i => .returns i
  | .fwd x => .fwds x
  | .mod x => .models x

namespace Def
variable {D : Def} {L : Build} {p0 p : Nat}

/-- A place that is written lies in its array. -/
theorem place_inside (inv : D.Inv) (laid : D.Laid p0 L p) {start : EdgeArray → Nat}
    (starts : ∀ k, D.HasArray k → D.Starts L k (start k) ∧ start k % 4 = 0) {k : Slot} {j : Nat}
    (lt : j < (Appends.only k D.allWrites).length) :
    D.HasArray k.array ∧ start k.array ≤ L.place k j * 4 ∧ L.place k j * 4 + 4 ≤ start k.array + D.bytes k.array := by
  have own {i : Nat} (owner : k.owner = some i) : i < D.models.length := owner_lt owner lt
  cases k with
  | cparam i =>
    have model := own rfl
    obtain ⟨at', aligned⟩ := starts (.bw i) model
    have given := length_gparam model
    rw [length_cparam model] at lt
    simp only [Starts] at at'
    refine ⟨model, ?_, ?_⟩ <;> simp only [Slot.array, Build.place, bytes] <;> omega
  | gparam i =>
    have model := own rfl
    obtain ⟨at', aligned⟩ := starts (.bw i) model
    have given := length_gparam model
    have computed := (laid.nodes i model).2.2.1
    simp only [Starts] at at'
    refine ⟨model, ?_, ?_⟩ <;> simp only [Slot.array, Build.place, bytes] <;> omega
  | check i =>
    have model := own rfl
    obtain ⟨at', aligned⟩ := starts (.bw i) model
    rw [only_check model, List.length_map] at lt
    simp only [Starts] at at'
    refine ⟨model, ?_, ?_⟩ <;> simp only [Slot.array, Build.place, bytes] <;> omega
  | penalty i =>
    have model := own rfl
    obtain ⟨at', aligned⟩ := starts (.bw i) model
    rw [only_penalty model, List.length_map] at lt
    simp only [Starts] at at'
    refine ⟨model, ?_, ?_⟩ <;> simp only [Slot.array, Build.place, bytes] <;> omega
  | ret i =>
    have model := own rfl
    obtain ⟨at', aligned⟩ := starts (.returns i) model
    rw [only_ret model, List.length_map, List.length_zipIdx] at lt
    simp only [Starts] at at'
    refine ⟨model, ?_, ?_⟩ <;> simp only [Slot.array, Build.place, bytes] <;> omega
  | fwd x =>
    rw [only_fwd, List.length_map, length_fwdEdges] at lt
    have var := inv.paramVars_lt (List.count_pos_iff.mp (Nat.lt_of_le_of_lt (Nat.zero_le j) lt))
    obtain ⟨at', aligned⟩ := starts (.fwds x) var
    simp only [Starts] at at'
    refine ⟨var, ?_, ?_⟩ <;> simp only [Slot.array, Build.place, bytes] <;> omega
  | mod x =>
    rw [only_mod, List.length_map, length_modEdges] at lt
    have var := inv.returnVars_lt (List.count_pos_iff.mp (Nat.lt_of_le_of_lt (Nat.zero_le j) lt))
    obtain ⟨at', aligned⟩ := starts (.models x) var
    simp only [Starts] at at'
    refine ⟨var, ?_, ?_⟩ <;> simp only [Slot.array, Build.place, bytes] <;> omega

/-- The places of all writes are different. -/
theorem allWrites_apart (inv : D.Inv) (laid : D.Laid p0 L p) (first : p0 % 4 = 0) :
    Appends.Apart L.place (fresh L) D.allWrites := by
  obtain ⟨-, start, starts, apart⟩ := laid.tiles
  have aligned : ∀ k, D.HasArray k → D.Starts L k (start k) ∧ start k % 4 = 0 := fun k array =>
    ⟨(starts k array).1, (starts k array).2.2.2 first⟩
  intro k j k' j' _ lt _ lt' same
  simp only [fresh, Nat.zero_add] at lt lt'
  obtain ⟨array, low, high⟩ := place_inside inv laid aligned lt
  obtain ⟨array', low', high'⟩ := place_inside inv laid aligned lt'
  by_cases block : k.array = k'.array
  · -- the arrays of one model are told apart by their bounds
    have bounds {i : Nat} (model : i < D.models.length) :
        (L.models i).params = start (.bw i) + (D.model i).shadows.length * 8 ∧ start (.bw i) % 4 = 0 ∧
        (L.models i).p_cparam = (D.cparams i).length ∧ (Appends.only (.cparam i) D.allWrites).length = (D.cparams i).length ∧
        (Appends.only (.check i) D.allWrites).length = (D.model i).shadows.length ∧
        (Appends.only (.penalty i) D.allWrites).length = (D.model i).shadows.length :=
      ⟨(aligned (.bw i) model).1, (aligned (.bw i) model).2, (laid.nodes i model).2.2.1, length_cparam model,
        by rw [only_check model, List.length_map], by rw [only_penalty model, List.length_map]⟩
    cases k <;> cases k' <;> simp only [Slot.array, EdgeArray.bw.injEq, EdgeArray.returns.injEq, EdgeArray.fwds.injEq,
      EdgeArray.models.injEq, reduceCtorEq] at block <;> subst block <;>
      simp only [Build.place, Nat.add_left_cancel_iff] at same <;> first
      | exact ⟨rfl, same⟩
      | exact absurd array fun model => by
          have bound := bounds model
          omega
      | exact ⟨rfl, by
          have bound := bounds array
          omega⟩
  · obtain before | behind := apart _ _ array array' block
    · omega
    · omega

/-- The edges of a graph before they are reordered. -/
structure Filled (D : Def) (L G : Build) : Prop where
  models : G.models = L.models
  vars : ∀ x, (G.vars x).models = (L.vars x).models ∧ (G.vars x).fwds = (L.vars x).fwds ∧
    (G.vars x).n_mod = D.returnVars.count x ∧ (G.vars x).n_fwd = D.paramVars.count x
  params : ∀ i < D.models.length, G.params i = D.computedEdges i ++ D.givenEdges i
  returns : ∀ i < D.models.length, G.returns i = (D.model i).returns.zipIdx.map fun w => D.edge w.1 w.2
  checks : ∀ i < D.models.length, G.checks i = ((D.model i).shadows.map fun e => (D.shedge e, e.penalty)).reverse
  varModels : ∀ x, G.varModels x = D.modEdges x
  varFwds : ∀ x, (G.varFwds x).map (fun c => (c.idx, c.map)) = D.fwdEdges x

theorem filled (inv : D.Inv) (laid : D.Laid p0 L p) (first : p0 % 4 = 0) :
    D.Filled L ((List.range D.models.length).foldl D.buildModel L) := by
  obtain ⟨-, start, starts, -⟩ := laid.tiles
  have bw {i : Nat} (model : i < D.models.length) : (L.models i).params =
      start (.bw i) + (D.model i).shadows.length * 8 ∧ start (.bw i) % 4 = 0 :=
    ⟨(starts (.bw i) model).1, (starts (.bw i) model).2.2.2 first⟩
  have follows := allWrites_follow laid fun i model => by have := bw model; omega
  have written := Appends.run_mem (fresh L) D.allWrites (allWrites_apart inv laid first)
  have counts := Appends.count_run L.place (fresh L) D.allWrites
  generalize (List.range D.models.length).foldl D.buildModel L = G at follows ⊢
  have stored {k : Slot} {j w : Nat} {f : Cell → Cell} (here : (Appends.only k D.allWrites)[j]? = some f)
      (word : w = L.place k j) : ∃ c, G.mem w = f c := by
    obtain ⟨c, stored⟩ := written k j f here
    rw [fresh, Nat.zero_add] at stored
    exact ⟨c, by rw [word, follows.mem]; exact stored⟩
  have n_mod (x : Nat) : (G.vars x).n_mod = D.returnVars.count x := by
    rw [follows.vars x, ← length_modEdges, ← List.length_map (f := fun c (_ : Cell) => c), ← only_mod]
    exact (counts (.mod x)).trans (Nat.zero_add _)
  have n_fwd (x : Nat) : (G.vars x).n_fwd = D.paramVars.count x := by
    rw [follows.vars x, ← length_fwdEdges, ← List.length_map (f := fun e : Int × Int => Cell.setIdxMap e.1 e.2), ← only_fwd]
    exact (counts (.fwd x)).trans (Nat.zero_add _)
  have pointers (x : Nat) : (G.vars x).models = (L.vars x).models ∧ (G.vars x).fwds = (L.vars x).fwds := by
    rw [follows.vars x]
    exact ⟨rfl, rfl⟩
  refine ⟨follows.models, fun x => ⟨(pointers x).1, (pointers x).2, n_mod x, n_fwd x⟩, fun i model => ?_, fun i model => ?_,
    fun i model => ?_, fun x => ?_, fun x => ?_⟩
  · obtain ⟨-, -, p_cparam, p_param, -⟩ := laid.nodes i model
    have computed := length_computedEdges (D := D) i
    have given := length_givenEdges (D := D) i
    rw [Build.params, follows.models]
    apply List.ext_getElem
    · rw [List.length_map, List.length_range, List.length_append, p_param]
      omega
    · intro j low high
      rw [List.length_map, List.length_range, p_param] at low
      rw [List.getElem_map, List.getElem_range, Build.load, Build.word_add]
      by_cases lt : j < (D.computedEdges i).length
      · obtain ⟨c, stored⟩ := stored (k := .cparam i) (j := j) (w := (L.models i).params / 4 + j)
          (f := fun _ => (D.computedEdges i)[j])
          (by rw [only_cparam model, List.getElem?_map, List.getElem?_eq_getElem lt]; rfl) rfl
        rw [stored, List.getElem_append_left lt]
      · have lt' : j - (D.computedEdges i).length < (D.givenEdges i).length := by omega
        obtain ⟨c, stored⟩ := stored (k := .gparam i) (j := j - (D.computedEdges i).length)
          (w := (L.models i).params / 4 + j) (f := fun _ => (D.givenEdges i)[j - (D.computedEdges i).length])
          (by rw [only_gparam model, List.getElem?_map, List.getElem?_eq_getElem lt']; rfl)
          (by rw [Build.place, p_cparam]; omega)
        rw [stored, List.getElem_append_right (Nat.le_of_not_lt lt)]
  · obtain ⟨-, -, -, -, p_return⟩ := laid.nodes i model
    rw [Build.returns, follows.models]
    apply List.ext_getElem
    · rw [List.length_map, List.length_range, List.length_map, List.length_zipIdx, p_return]
    · intro j low high
      have bound : j < (D.model i).returns.zipIdx.length := by simpa using high
      obtain ⟨c, stored⟩ := stored (k := .ret i) (j := j) (w := (L.models i).returns / 4 + j)
        (by rw [only_ret model, List.getElem?_map, List.getElem?_eq_getElem bound]; rfl) rfl
      rw [List.getElem_map, List.getElem_range, Build.load, Build.word_add, stored, List.getElem_map]
  · obtain ⟨-, p_shadow, -, -, -⟩ := laid.nodes i model
    obtain ⟨room, aligned⟩ := bw model
    rw [Build.checks, follows.models, p_shadow, neg_neg, Int.toNat_natCast]
    apply List.ext_getElem
    · rw [List.length_map, List.length_range, List.length_reverse, List.length_map]
    · intro j low high
      rw [List.length_map, List.length_range] at low
      have lt : (D.model i).shadows.length - 1 - j < (D.model i).shadows.length := by omega
      have address : ((L.models i).params + (-((D.model i).shadows.length : Int) + j) * 8 : Int).toNat =
          (L.models i).params - ((D.model i).shadows.length - 1 - j + 1) * 8 := by omega
      obtain ⟨c, edge⟩ := stored (k := .check i) (w := ((L.models i).params - ((D.model i).shadows.length - 1 - j + 1) * 8) / 4)
        (by rw [only_check model, List.getElem?_map, List.getElem?_eq_getElem lt]; rfl) rfl
      obtain ⟨c', penalty⟩ := stored (k := .penalty i)
        (w := ((L.models i).params - ((D.model i).shadows.length - 1 - j + 1) * 8 + 4) / 4)
        (by rw [only_penalty model, List.getElem?_map, List.getElem?_eq_getElem lt]; rfl) (by rw [Build.place]; omega)
      rw [List.getElem_map, List.getElem_range, List.getElem_reverse]
      simp only [address, Build.load, edge, penalty, List.getElem_map, List.length_map, Cell.value]
  · rw [Build.varModels, n_mod, (pointers x).1]
    apply List.ext_getElem
    · rw [List.length_map, List.length_range, length_modEdges]
    · intro j low high
      obtain ⟨c, stored⟩ := stored (k := .mod x) (j := j) (f := fun _ => (D.modEdges x)[j])
        (by rw [only_mod, List.getElem?_map, List.getElem?_eq_getElem high]; rfl) rfl
      rw [List.getElem_map, List.getElem_range, Build.load, Build.word_add, ← stored]
      rfl
  · rw [Build.varFwds, n_fwd, (pointers x).2]
    apply List.ext_getElem
    · rw [List.length_map, List.length_map, List.length_range, length_fwdEdges]
    · intro j low high
      obtain ⟨c, stored⟩ := stored (k := .fwd x) (j := j) (w := (L.vars x).fwds / 4 + j)
        (f := Cell.setIdxMap (D.fwdEdges x)[j].1 (D.fwdEdges x)[j].2)
        (by rw [only_fwd, List.getElem?_map, List.getElem?_eq_getElem high]; rfl) rfl
      rw [List.getElem_map, List.getElem_map, List.getElem_range, Build.load, Build.word_add, stored]
      rfl

end Def
end M2.Fhk
