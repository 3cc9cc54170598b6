import M2.Fhk.MapCodes

/-!
# Degrees

The degrees that the calls count at the variables are those of the edges, and every list of edges
stays within the range of its counter.
-/
namespace M2.Fhk

/-- Replacing one element changes the counts by what the two elements count. -/
theorem count_flatMap_set {α : Type*} (f : α → List Nat) (x : Nat) {l : List α} {i : Nat} {a : α} (b : α)
    (here : l[i]? = some a) :
    ((l.set i b).flatMap f).count x + (f a).count x = (l.flatMap f).count x + (f b).count x := by
  induction l generalizing i with
  | nil => cases here
  | cons c l ih =>
    cases i with
    | zero =>
      cases here
      simp only [List.set_cons_zero, List.flatMap_cons, List.count_append]
      omega
    | succ i =>
      have rest := ih here
      simp only [List.set_cons_succ, List.flatMap_cons, List.count_append]
      omega

namespace Def

/-- The variables of all parameters. -/
def paramVars (D : Def) : List Nat := D.models.flatMap fun dm => dm.params.map DefEdge.idx

/-- The variables of all returns. -/
def returnVars (D : Def) : List Nat := D.models.flatMap fun dm => dm.returns.map DefEdge.idx

/-- The counters of a variable. -/
structure VarCounted (D : Def) (x : Nat) (dx : DefVar) : Prop where
  n_fwd : dx.n_fwd = D.paramVars.count x
  n_mod : dx.n_mod = D.returnVars.count x
  fwd_le : dx.n_fwd ≤ G_MAXFWDE
  mod_le : dx.n_mod ≤ G_MAXMODE

/-- The limits of a model. -/
structure ModelCounted (dm : DefModel) : Prop where
  params : dm.params.length ≤ G_MAXEDGE
  returns : dm.returns.length ≤ G_MAXEDGE
  shadows : dm.shadows.length ≤ G_MAXEDGE

/-- The counters of a definition agree with its edges and fit their types. -/
structure Counted (D : Def) : Prop where
  vars : ∀ (x : Nat) (dx : DefVar), D.vars[x]? = some dx → D.VarCounted x dx
  models : ∀ dm ∈ D.models, ModelCounted dm
  nm : D.models.length ≤ G_MAXIDX
  nx : D.vars.length + D.shadows.length ≤ G_MAXIDX

variable {D D' : Def}

theorem Inv.paramVars_lt (inv : D.Inv) {x : Nat} (mem : x ∈ D.paramVars) : x < D.vars.length := by
  obtain ⟨dm, model, mem⟩ := List.mem_flatMap.mp mem
  obtain ⟨e, edge, rfl⟩ := List.mem_map.mp mem
  obtain ⟨dx, here, -⟩ := (inv.models dm model).edges e (List.mem_append_left _ edge)
  exact (List.getElem?_eq_some_iff.mp here).1

theorem Inv.returnVars_lt (inv : D.Inv) {x : Nat} (mem : x ∈ D.returnVars) : x < D.vars.length := by
  obtain ⟨dm, model, mem⟩ := List.mem_flatMap.mp mem
  obtain ⟨e, edge, rfl⟩ := List.mem_map.mp mem
  obtain ⟨dx, here, -⟩ := (inv.models dm model).edges e (List.mem_append_right _ edge)
  exact (List.getElem?_eq_some_iff.mp here).1

theorem create_counted : fhk_create_def.Counted :=
  ⟨fun _ _ here => (by cases here), fun _ mem => (by cases mem), Nat.zero_le _, Nat.zero_le _⟩

theorem Counted.add_model {group : Nat} {k c cmin : FloatVal} (counted : D.Counted)
    (ok : D.fhk_def_add_model group k c cmin = some D') : D'.Counted := by
  unfold fhk_def_add_model at ok
  split at ok
  · cases ok
  rename_i room
  split at ok
  · cases ok
  split at ok
  · cases ok
  cases ok
  refine ⟨fun x dx here => ?_, fun dm mem => ?_, ?_, counted.nx⟩
  · obtain ⟨n_fwd, n_mod, fwd_le, mod_le⟩ := counted.vars x dx here
    exact ⟨by simpa [paramVars] using n_fwd, by simpa [returnVars] using n_mod, fwd_le, mod_le⟩
  · obtain mem | mem := List.mem_append.mp mem
    · exact counted.models dm mem
    · rw [List.mem_singleton.mp mem]
      exact ⟨Nat.zero_le _, Nat.zero_le _, Nat.zero_le _⟩
  · have := counted.nm
    simp only [List.length_append, List.length_singleton]
    omega

theorem Counted.add_var {group : Nat} {size : BitVec 16} {cdiff : FloatVal} (counted : D.Counted) (inv : D.Inv)
    (ok : D.fhk_def_add_var group size cdiff = some D') : D'.Counted := by
  unfold fhk_def_add_var at ok
  split at ok
  · cases ok
  rename_i room
  split at ok
  · cases ok
  split at ok
  · cases ok
  cases ok
  refine ⟨fun x dx here => ?_, counted.models, counted.nm, ?_⟩
  · rw [List.getElem?_append] at here
    split at here
    · obtain ⟨n_fwd, n_mod, fwd_le, mod_le⟩ := counted.vars x dx here
      exact ⟨n_fwd, n_mod, fwd_le, mod_le⟩
    · rename_i new
      obtain rfl := List.mem_singleton.mp (List.mem_of_getElem? here)
      -- no edge names a variable that is not there yet
      exact ⟨(List.count_eq_zero.mpr fun mem => new (inv.paramVars_lt mem)).symm,
        (List.count_eq_zero.mpr fun mem => new (inv.returnVars_lt mem)).symm, Nat.zero_le _, Nat.zero_le _⟩
  · have := counted.nx
    simp only [List.length_append, List.length_singleton]
    omega

theorem Counted.add_shadow {xi : Nat} {guard : BitVec 8} {arg : BitVec 64} (counted : D.Counted)
    (ok : D.fhk_def_add_shadow xi guard arg = some D') : D'.Counted := by
  unfold fhk_def_add_shadow at ok
  split at ok
  · cases ok
  rename_i room
  split at ok
  · cases ok
  cases ok
  refine ⟨fun x dx here => ?_, counted.models, counted.nm, ?_⟩
  · obtain ⟨n_fwd, n_mod, fwd_le, mod_le⟩ := counted.vars x dx here
    exact ⟨n_fwd, n_mod, fwd_le, mod_le⟩
  · have := counted.nx
    simp only [List.length_append, List.length_singleton]
    omega

/-- An edge that is added to a model and counted at its variable. -/
theorem Counted.addEdge {full : DefModel → DefVar → Bool} {link : DefModel → DefEdge → DefModel} {count : DefVar → DefVar}
    {mi xi : Nat} {map : ExtMap} (counted : D.Counted) (ok : D.addEdge full link count mi xi map = some D')
    (limits : ∀ dm dx, full dm dx = false → ModelCounted dm → dx.n_fwd ≤ G_MAXFWDE → dx.n_mod ≤ G_MAXMODE →
      ModelCounted (link dm ⟨xi, map⟩) ∧ (count dx).n_fwd ≤ G_MAXFWDE ∧ (count dx).n_mod ≤ G_MAXMODE)
    (params : ∀ dm dx x, ((link dm ⟨xi, map⟩).params.map DefEdge.idx).count x + dx.n_fwd =
      (dm.params.map DefEdge.idx).count x + if x = xi then (count dx).n_fwd else dx.n_fwd)
    (returns : ∀ dm dx x, ((link dm ⟨xi, map⟩).returns.map DefEdge.idx).count x + dx.n_mod =
      (dm.returns.map DefEdge.idx).count x + if x = xi then (count dx).n_mod else dx.n_mod) : D'.Counted := by
  obtain ⟨dm, dx, D1, model, var, room, checked, rfl⟩ := addEdge_some ok
  have checked := d_checkmap_some checked
  obtain ⟨-, -, fwd_le, mod_le⟩ := counted.vars xi dx var
  obtain ⟨dm_ok, fwd_le', mod_le'⟩ := limits dm dx room (counted.models dm (List.mem_of_getElem? model)) fwd_le mod_le
  have fwds (x : Nat) := count_flatMap_set (fun dm => dm.params.map DefEdge.idx) x (link dm ⟨xi, map⟩) model
  have mods (x : Nat) := count_flatMap_set (fun dm => dm.returns.map DefEdge.idx) x (link dm ⟨xi, map⟩) model
  refine ⟨fun x dy here => ?_, fun dn mem => ?_, ?_, ?_⟩
  · simp only [checked.vars, List.getElem?_set] at here
    have fwd := fwds x
    have mod := mods x
    split at here
    · rename_i same
      subst same
      rw [if_pos (List.getElem?_eq_some_iff.mp var).1] at here
      cases here
      obtain ⟨n_fwd, n_mod, -, -⟩ := counted.vars xi dx var
      have grown := params dm dx xi
      have grown' := returns dm dx xi
      rw [if_pos rfl] at grown grown'
      refine ⟨?_, ?_, fwd_le', mod_le'⟩
      · simp only [paramVars, checked.models] at n_fwd ⊢
        omega
      · simp only [returnVars, checked.models] at n_mod ⊢
        omega
    · rename_i other
      obtain ⟨n_fwd, n_mod, fwd_le, mod_le⟩ := counted.vars x dy here
      have grown := params dm dy x
      have grown' := returns dm dy x
      rw [if_neg (Ne.symm other)] at grown grown'
      refine ⟨?_, ?_, fwd_le, mod_le⟩
      · simp only [paramVars, checked.models] at n_fwd ⊢
        omega
      · simp only [returnVars, checked.models] at n_mod ⊢
        omega
  · simp only [checked.models] at mem
    obtain mem | rfl := List.mem_or_eq_of_mem_set mem
    · exact counted.models dn mem
    · exact dm_ok
  · simp only [checked.models, List.length_set]
    exact counted.nm
  · simp only [checked.vars, checked.shadows, List.length_set]
    exact counted.nx

theorem Counted.check {mi wi : Nat} {map : ExtMap} {penalty : FloatVal} (counted : D.Counted)
    (ok : D.fhk_def_add_check mi wi map penalty = some D') : D'.Counted := by
  obtain ⟨dm, model, ok⟩ := Option.bind_eq_some_iff.mp ok
  obtain ⟨w, shadow, ok⟩ := Option.bind_eq_some_iff.mp ok
  obtain ⟨dx, var, ok⟩ := Option.bind_eq_some_iff.mp ok
  split at ok
  · cases ok
  rename_i room
  obtain ⟨D1, checked, ok⟩ := Option.bind_eq_some_iff.mp ok
  cases ok
  have checked := d_checkmap_some checked
  have fwds (x : Nat) := count_flatMap_set (fun dm => dm.params.map DefEdge.idx) x
    { dm with shadows := dm.shadows ++ [⟨wi, map, penalty⟩] } model
  have mods (x : Nat) := count_flatMap_set (fun dm => dm.returns.map DefEdge.idx) x
    { dm with shadows := dm.shadows ++ [⟨wi, map, penalty⟩] } model
  refine ⟨fun x dy here => ?_, fun dn mem => ?_, ?_, ?_⟩
  · simp only [checked.vars] at here
    obtain ⟨n_fwd, n_mod, fwd_le, mod_le⟩ := counted.vars x dy here
    have fwd := fwds x
    have mod := mods x
    simp only [Nat.add_right_cancel_iff] at fwd mod
    refine ⟨?_, ?_, fwd_le, mod_le⟩
    · simp only [paramVars, checked.models] at n_fwd ⊢
      omega
    · simp only [returnVars, checked.models] at n_mod ⊢
      omega
  · simp only [checked.models] at mem
    obtain mem | rfl := List.mem_or_eq_of_mem_set mem
    · exact counted.models dn mem
    · obtain ⟨params, returns, shadows⟩ := counted.models dm (List.mem_of_getElem? model)
      refine ⟨params, returns, ?_⟩
      simp only [List.length_append, List.length_singleton]
      omega
  · simp only [checked.models, List.length_set]
    exact counted.nm
  · simp only [checked.vars, checked.shadows]
    exact counted.nx

theorem Counted.add (counted : D.Counted) (inv : D.Inv) (add : D.Add D') : D'.Counted := by
  cases add with
  | model group k c cmin ok => exact counted.add_model ok
  | var group size cdiff ok => exact counted.add_var inv ok
  | shadow xi handle guard arg ok => exact counted.add_shadow ok
  | param mi xi map ok =>
    refine counted.addEdge ok (fun dm dx room limits fwd_le mod_le => ?_) (fun dm dx x => ?_) fun dm dx x => ?_
    · obtain ⟨params, returns, shadows⟩ := limits
      simp only [decide_eq_false_iff_not, not_or] at room
      refine ⟨⟨?_, returns, shadows⟩, ?_, mod_le⟩
      · simp only [List.length_append, List.length_singleton]
        omega
      · simp only
        omega
    · simp only [List.map_append, List.count_append, List.map_cons, List.map_nil, List.count_singleton]
      by_cases same : x = xi
      · subst same
        simp only [beq_self_eq_true, if_true]
        omega
      · have other : (xi == x) = false := beq_eq_false_iff_ne.mpr (Ne.symm same)
        simp only [other, if_neg same, Bool.false_eq_true, if_false]
        omega
    · simp only [ite_self]
  | returns mi xi map ok =>
    refine counted.addEdge ok (fun dm dx room limits fwd_le mod_le => ?_) (fun dm dx x => ?_) fun dm dx x => ?_
    · obtain ⟨params, returns, shadows⟩ := limits
      simp only [decide_eq_false_iff_not, not_or] at room
      refine ⟨⟨params, ?_, shadows⟩, fwd_le, ?_⟩
      · simp only [List.length_append, List.length_singleton]
        omega
      · simp only
        omega
    · simp only [ite_self]
    · simp only [List.map_append, List.count_append, List.map_cons, List.map_nil, List.count_singleton]
      by_cases same : x = xi
      · subst same
        simp only [beq_self_eq_true, if_true]
        omega
      · have other : (xi == x) = false := beq_eq_false_iff_ne.mpr (Ne.symm same)
        simp only [other, if_neg same, Bool.false_eq_true, if_false]
        omega
  | check mi wi map penalty ok => exact counted.check ok

theorem Defined.counted (defined : D.Defined) : D.Counted := by
  induction defined with
  | refl => exact create_counted
  | tail before add ih => exact ih.add (Defined.inv before) add

end Def
end M2.Fhk
