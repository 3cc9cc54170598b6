import Mathlib.Algebra.BigOperators.Ring.List
import Mathlib.Data.List.Nodup
import M2.Fhk.BuildScratch

/-!
# Layout of built graphs

The pointer assignment of `g_build_edges`. In whatever order the scratch edges lead to the models, each
array is placed once, directly behind the one before it.
-/
namespace M2.Fhk
open M2.Lib

/-- The arrays behind the nodes; checks and parameters of a model are one block. -/
inductive EdgeArray
  | models (x : Nat)
  | fwds (x : Nat)
  | bw (i : Nat)
  | returns (i : Nat)
  deriving DecidableEq

namespace Def
variable (D : Def)

/-- The size of an array. -/
def bytes : EdgeArray → Nat
  | .models x => D.returnVars.count x * 4
  | .fwds x => D.paramVars.count x * 4
  | .bw i => (D.model i).shadows.length * 8 + (D.model i).params.length * 4
  | .returns i => (D.model i).returns.length * 4

/-- The arrays of the graph. -/
def HasArray : EdgeArray → Prop
  | .models x => x < D.vars.length
  | .fwds x => x < D.vars.length
  | .bw i => i < D.models.length
  | .returns i => i < D.models.length

/-- The array of a graph starts at this address. -/
def Starts (G : Build) : EdgeArray → Nat → Prop
  | .models x, a => (G.vars x).models = a
  | .fwds x, a => (G.vars x).fwds = a
  | .bw i, a => (G.models i).params = a + (D.model i).shadows.length * 8
  | .returns i, a => (G.models i).returns = a

/-- The arrays placed so far, on top of the graph `L` without arrays. -/
structure Laying (L : Build) (p0 : Nat) (log : List (EdgeArray × Nat)) (st : Build × Nat) : Prop where
  mem : st.1.mem = L.mem
  shadows : st.1.shadows = L.shadows
  groups : ∀ x, (st.1.vars x).group = (L.vars x).group
  nodes : ∀ i, st.1.models i =
    { L.models i with params := (st.1.models i).params, returns := (st.1.models i).returns }
  tiles : Tiles D.bytes p0 log st.2
  nodup : (log.map Prod.fst).Nodup
  arrays : ∀ e ∈ log, D.HasArray e.1
  starts : ∀ e ∈ log, D.Starts st.1 e.1 e.2
  bw : ∀ i < D.models.length, (st.1.models i).params = 0 ↔ .bw i ∉ log.map Prod.fst
  returns : ∀ i < D.models.length, (st.1.models i).returns = 0 ↔ .returns i ∉ log.map Prod.fst

/-- An assignment places at most the array `k`, and touches no variable. -/
def Places (L : Build) (p0 : Nat) (k : EdgeArray) (log : List (EdgeArray × Nat)) (st st' : Build × Nat) : Prop :=
  st'.1.vars = st.1.vars ∧
    ∃ log', D.Laying L p0 log' st' ∧ ∀ k', k' ∈ log'.map Prod.fst ↔ k' = k ∨ k' ∈ log.map Prod.fst

variable {D} {L : Build} {p0 : Nat} {log : List (EdgeArray × Nat)} {st : Build × Nat}

theorem Laying.aligned (laying : D.Laying L p0 log st) (first : p0 % 4 = 0) : st.2 % 4 = 0 := by
  refine (laying.tiles.aligned first fun k => ?_).1
  cases k <;> simp only [bytes] <;> omega

theorem align_self {p : Nat} (aligned : p % 4 = 0) : Build.align p 4 = p := by
  rw [Build.align]
  omega

/-- A new array of model `i` at the current position. -/
theorem Laying.place {G : Build} {p : Nat} (laying : D.Laying L p0 log (G, p)) {k : EdgeArray}
    (fresh : k ∉ log.map Prod.fst) (array : D.HasArray k) {i : Nat} {params returns : Nat}
    (start : D.Starts (G.setModel i { G.models i with params, returns }) k p)
    (bw : params = 0 ↔ (G.models i).params = 0 ∧ k ≠ .bw i)
    (ret : returns = 0 ↔ (G.models i).returns = 0 ∧ k ≠ .returns i)
    (own : k = .bw i ∧ returns = (G.models i).returns ∨ k = .returns i ∧ params = (G.models i).params) :
    D.Laying L p0 ((k, p) :: log) (G.setModel i { G.models i with params, returns }, p + D.bytes k) := by
  refine ⟨laying.mem, laying.shadows, laying.groups, fun j => ?_, ⟨rfl, laying.tiles⟩,
    List.nodup_cons.mpr ⟨fresh, laying.nodup⟩, fun e mem => ?_, fun e mem => ?_, fun j lt => ?_, fun j lt => ?_⟩
  · by_cases same : j = i
    · subst same
      simp only [Build.setModel, Function.update_self]
      rw [laying.nodes j]
    · simp only [Build.setModel, Function.update_of_ne same]
      exact laying.nodes j
  · obtain rfl | later := List.mem_cons.mp mem
    · exact array
    · exact laying.arrays e later
  · obtain rfl | later := List.mem_cons.mp mem
    · exact start
    · have kept := laying.starts e later
      have other : e.1 ≠ k := fun same => fresh (same ▸ List.mem_map_of_mem later)
      obtain ⟨k', a⟩ := e
      cases k' with
      | models x => exact kept
      | fwds x => exact kept
      | bw j =>
        by_cases same : j = i
        · subst same
          obtain ⟨rfl, -⟩ | ⟨-, rfl⟩ := own
          · exact absurd rfl other
          · simpa only [Starts, Build.setModel, Function.update_self] using kept
        · simpa only [Starts, Build.setModel, Function.update_of_ne same] using kept
      | returns j =>
        by_cases same : j = i
        · subst same
          obtain ⟨-, rfl⟩ | ⟨rfl, -⟩ := own
          · simpa only [Starts, Build.setModel, Function.update_self] using kept
          · exact absurd rfl other
        · simpa only [Starts, Build.setModel, Function.update_of_ne same] using kept
  · rw [List.map_cons, List.mem_cons, not_or]
    by_cases same : j = i
    · subst same
      simp only [Build.setModel, Function.update_self]
      rw [bw, laying.bw j lt, and_comm, ne_comm]
    · simp only [Build.setModel, Function.update_of_ne same]
      rw [laying.bw j lt]
      refine ⟨fun absent => ⟨?_, absent⟩, And.right⟩
      rintro rfl
      obtain ⟨own, -⟩ | ⟨own, -⟩ := own <;> cases own
      exact same rfl
  · rw [List.map_cons, List.mem_cons, not_or]
    by_cases same : j = i
    · subst same
      simp only [Build.setModel, Function.update_self]
      rw [ret, laying.returns j lt, and_comm, ne_comm]
    · simp only [Build.setModel, Function.update_of_ne same]
      rw [laying.returns j lt]
      refine ⟨fun absent => ⟨?_, absent⟩, And.right⟩
      rintro rfl
      obtain ⟨own, -⟩ | ⟨own, -⟩ := own <;> cases own
      exact same rfl

/-- Nothing is placed where the array has its place already. -/
theorem Laying.keep (laying : D.Laying L p0 log st) {k : EdgeArray} (there : k ∈ log.map Prod.fst) :
    D.Places L p0 k log st st :=
  ⟨rfl, log, laying, fun _ => ⟨.inr, fun either => either.elim (fun same => same ▸ there) id⟩⟩

theorem Laying.assignParams (laying : D.Laying L p0 log st) (ready : D.Ready L) (first : p0 % 4 = 0) (pos : 0 < p0)
    {i : Nat} (lt : i < D.models.length) : D.Places L p0 (.bw i) log st (assignParams st i) := by
  obtain ⟨G, p⟩ := st
  have aligned : p % 4 = 0 := laying.aligned first
  have low : p0 ≤ p := laying.tiles.within.1
  have node := (laying.nodes i).trans (by rw [ready.nodes i lt])
  by_cases null : (G.models i).params = 0
  · have fresh := (laying.bw i lt).mp null
    have result : Def.assignParams (G, p) i = (G.setModel i { G.models i with
        params := p + (D.model i).shadows.length * 8, returns := (G.models i).returns }, p + D.bytes (.bw i)) := by
      have shadow : (G.models i).p_shadow = -((D.model i).shadows.length : Int) := by rw [node]
      have param : (G.models i).p_param = (D.model i).params.length := by rw [node]
      simp only [Def.assignParams, null, if_true, align_self aligned, ite_self, shadow, param, neg_neg, Int.toNat_natCast,
        bytes, Nat.add_assoc]
    rw [result]
    refine ⟨rfl, (.bw i, p) :: log, laying.place fresh lt ?_ ?_ ?_ (.inl ⟨rfl, rfl⟩), fun k => by simp⟩
    · simp only [Starts, Build.setModel, Function.update_self]
    · simp only [ne_eq, not_true, and_false, iff_false]
      omega
    · simp
  · have result : Def.assignParams (G, p) i = (G, p) := by
      simp only [Def.assignParams, null, if_false]
    rw [result]
    refine laying.keep ?_
    by_contra absent
    exact null ((laying.bw i lt).mpr absent)

theorem Laying.assignReturns (laying : D.Laying L p0 log st) (ready : D.Ready L) (pos : 0 < p0)
    {i : Nat} (lt : i < D.models.length) : D.Places L p0 (.returns i) log st (assignReturns st i) := by
  obtain ⟨G, p⟩ := st
  have low : p0 ≤ p := laying.tiles.within.1
  have node := (laying.nodes i).trans (by rw [ready.nodes i lt])
  by_cases null : (G.models i).returns = 0
  · have fresh := (laying.returns i lt).mp null
    have result : Def.assignReturns (G, p) i = (G.setModel i { G.models i with
        params := (G.models i).params, returns := p }, p + D.bytes (.returns i)) := by
      have count : (G.models i).p_return = (D.model i).returns.length := by rw [node]
      simp only [Def.assignReturns, null, if_true, count, bytes]
    rw [result]
    refine ⟨rfl, (.returns i, p) :: log, laying.place fresh lt ?_ ?_ ?_ (.inr ⟨rfl, rfl⟩), fun k => by simp⟩
    · simp only [Starts, Build.setModel, Function.update_self]
    · simp
    · simp only [ne_eq, not_true, and_false, iff_false]
      omega
  · have result : Def.assignReturns (G, p) i = (G, p) := by
      simp only [Def.assignReturns, null, if_false]
    rw [result]
    refine laying.keep ?_
    by_contra absent
    exact null ((laying.returns i lt).mpr absent)

/-- A loop over models places at most one array of each. Which models these are may be read from the
graph. -/
theorem Laying.assignAll (laying : D.Laying L p0 log st) (assign : Build × Nat → Nat → Build × Nat)
    (key : Nat → EdgeArray) (read : Build × Nat → Nat → Nat) (js : List Nat)
    (one : ∀ log st, ∀ i < D.models.length, D.Laying L p0 log st → D.Places L p0 (key i) log st (assign st i))
    (models : ∀ log st, D.Laying L p0 log st → ∀ j ∈ js, read st j < D.models.length) :
    (js.foldl (fun st j => assign st (read st j)) st).1.vars = st.1.vars ∧
      ∃ log', D.Laying L p0 log' (js.foldl (fun st j => assign st (read st j)) st) ∧
        ∀ k, (∀ i, k ≠ key i) → (k ∈ log'.map Prod.fst ↔ k ∈ log.map Prod.fst) := by
  induction js generalizing log st with
  | nil => exact ⟨rfl, log, laying, fun k _ => Iff.rfl⟩
  | cons j js ih =>
    obtain ⟨vars, log1, laying1, keys1⟩ := one log st _ (models log st laying j List.mem_cons_self) laying
    obtain ⟨vars2, log2, laying2, keys2⟩ := ih laying1 fun log st laying j' mem =>
      models log st laying j' (List.mem_cons_of_mem j mem)
    refine ⟨vars2.trans vars, log2, laying2, fun k other => ?_⟩
    rw [keys2 k other, keys1, or_iff_right (other _)]

/-! ## The loops -/

/-- The variables that have their places: the first `a` for models, the first `b` for forward edges.
The counters of these are zero. -/
structure LayingVars (D : Def) (L : Build) (p0 : Nat) (a b : Nat) (st : Build × Nat) : Prop where
  laying : ∃ log, D.Laying L p0 log st ∧ (∀ x, .models x ∈ log.map Prod.fst ↔ x < a) ∧
    ∀ x, .fwds x ∈ log.map Prod.fst ↔ x < b
  mods : ∀ x < a, (st.1.vars x).n_mod = 0
  mods_rest : ∀ x, a ≤ x → (st.1.vars x).models = (L.vars x).models ∧ (st.1.vars x).n_mod = (L.vars x).n_mod
  fwds : ∀ x < b, (st.1.vars x).n_fwd = 0
  fwds_rest : ∀ x, b ≤ x → (st.1.vars x).fwds = (L.vars x).fwds ∧ (st.1.vars x).n_fwd = (L.vars x).n_fwd

/-- Changing counters of a variable leaves the layout. -/
theorem Laying.setVar {G : Build} {p : Nat} (laying : D.Laying L p0 log (G, p)) {i : Nat} {v : VarNode}
    (models : v.models = (G.vars i).models) (fwds : v.fwds = (G.vars i).fwds) (group : v.group = (G.vars i).group) :
    D.Laying L p0 log (G.setVar i v, p) := by
  refine ⟨laying.mem, laying.shadows, fun x => ?_, laying.nodes, laying.tiles, laying.nodup, laying.arrays,
    fun e mem => ?_, laying.bw, laying.returns⟩
  · by_cases same : x = i
    · subst same
      simp only [Build.setVar, Function.update_self, group]
      exact laying.groups x
    · simp only [Build.setVar, Function.update_of_ne same]
      exact laying.groups x
  · have kept := laying.starts e mem
    obtain ⟨k, a⟩ := e
    cases k with
    | bw j => exact kept
    | returns j => exact kept
    | models x =>
      by_cases same : x = i
      · subst same
        simpa only [Starts, Build.setVar, Function.update_self, models] using kept
      · simpa only [Starts, Build.setVar, Function.update_of_ne same] using kept
    | fwds x =>
      by_cases same : x = i
      · subst same
        simpa only [Starts, Build.setVar, Function.update_self, fwds] using kept
      · simpa only [Starts, Build.setVar, Function.update_of_ne same] using kept

/-- A new array of variable `i` at the current position. -/
theorem Laying.placeVar {G : Build} {p : Nat} (laying : D.Laying L p0 log (G, p)) {k : EdgeArray}
    (fresh : k ∉ log.map Prod.fst) (array : D.HasArray k) {i : Nat} {v : VarNode} (group : v.group = (G.vars i).group)
    (own : k = .models i ∧ v.models = p ∧ v.fwds = (G.vars i).fwds ∨
      k = .fwds i ∧ v.fwds = p ∧ v.models = (G.vars i).models) :
    D.Laying L p0 ((k, p) :: log) (G.setVar i v, p + D.bytes k) := by
  refine ⟨laying.mem, laying.shadows, fun x => ?_, laying.nodes, ⟨rfl, laying.tiles⟩,
    List.nodup_cons.mpr ⟨fresh, laying.nodup⟩, fun e mem => ?_, fun e mem => ?_, fun j lt => ?_, fun j lt => ?_⟩
  · by_cases same : x = i
    · subst same
      simp only [Build.setVar, Function.update_self, group]
      exact laying.groups x
    · simp only [Build.setVar, Function.update_of_ne same]
      exact laying.groups x
  · obtain rfl | later := List.mem_cons.mp mem
    · exact array
    · exact laying.arrays e later
  · obtain rfl | later := List.mem_cons.mp mem
    · obtain ⟨rfl, here, -⟩ | ⟨rfl, here, -⟩ := own <;> simp only [Starts, Build.setVar, Function.update_self, here]
    · have kept := laying.starts e later
      have other : e.1 ≠ k := fun same => fresh (same ▸ List.mem_map_of_mem later)
      obtain ⟨k', a⟩ := e
      cases k' with
      | bw j => exact kept
      | returns j => exact kept
      | models x =>
        by_cases same : x = i
        · subst same
          obtain ⟨rfl, -⟩ | ⟨-, -, models⟩ := own
          · exact absurd rfl other
          · simpa only [Starts, Build.setVar, Function.update_self, models] using kept
        · simpa only [Starts, Build.setVar, Function.update_of_ne same] using kept
      | fwds x =>
        by_cases same : x = i
        · subst same
          obtain ⟨-, -, fwds⟩ | ⟨rfl, -⟩ := own
          · simpa only [Starts, Build.setVar, Function.update_self, fwds] using kept
          · exact absurd rfl other
        · simpa only [Starts, Build.setVar, Function.update_of_ne same] using kept
  · rw [List.map_cons, List.mem_cons, not_or]
    refine (laying.bw j lt).trans ⟨fun absent => ⟨?_, absent⟩, And.right⟩
    rintro rfl
    obtain ⟨own, -⟩ | ⟨own, -⟩ := own <;> cases own
  · rw [List.map_cons, List.mem_cons, not_or]
    refine (laying.returns j lt).trans ⟨fun absent => ⟨?_, absent⟩, And.right⟩
    rintro rfl
    obtain ⟨own, -⟩ | ⟨own, -⟩ := own <;> cases own

theorem modelOf_not (i : Nat) : Build.modelOf (~~~(i : Int)) = i := rfl

theorem LayingVars.assignModels {a : Nat} (vars : D.LayingVars L p0 a 0 st) (ready : D.Ready L) (first : p0 % 4 = 0)
    (pos : 0 < p0) (lt : a < D.vars.length) : D.LayingVars L p0 (a + 1) 0 (assignModels st a) := by
  obtain ⟨G, p⟩ := st
  obtain ⟨⟨log, laying, keys, no_fwds⟩, mods, mods_rest, -, fwds_rest⟩ := vars
  obtain ⟨models, n_mod⟩ := mods_rest a (Nat.le_refl a)
  simp only at models n_mod
  have count : (G.vars a).n_mod = D.returnVars.count a := n_mod.trans (ready.scratched.vars a).1
  have fresh : .models a ∉ log.map Prod.fst := fun mem => absurd ((keys a).mp mem) (Nat.lt_irrefl a)
  have placed := laying.placeVar (i := a) (v := { G.vars a with models := p }) fresh lt rfl (.inl ⟨rfl, rfl, rfl⟩)
  have size : D.bytes (.models a) = (G.vars a).n_mod * 4 := by rw [count, bytes]
  rw [size] at placed
  -- the inner loop reads the scratch edges, whatever was placed so far
  obtain ⟨same, log', laying', keys'⟩ := placed.assignAll Def.assignParams .bw
    (fun st j => Build.modelOf (st.1.load ((G.vars a).models + j * 4)).idx) (List.range (G.vars a).n_mod)
    (fun log st i lt laying => laying.assignParams ready first pos lt) fun log st laying j mem => by
      obtain ⟨i, model, index⟩ := ready.scratched.mods a j (n_mod ▸ List.mem_range.mp mem)
      rw [Build.load, laying.mem, models]
      rw [Build.load] at index
      rw [index, modelOf_not]
      exact model
  rw [Def.assignModels]
  simp only
  generalize (List.range (G.vars a).n_mod).foldl _ _ = st' at same laying' ⊢
  obtain ⟨G', p'⟩ := st'
  have self : G'.vars a = { G.vars a with models := p } := by
    simp only at same
    rw [same]
    exact Function.update_self ..
  have other {x : Nat} (ne : x ≠ a) : G'.vars x = G.vars x := by
    simp only at same
    rw [same]
    exact Function.update_of_ne ne _ _
  refine ⟨⟨log', laying'.setVar rfl rfl rfl, fun x => ?_, fun x => ?_⟩, fun x lt => ?_, fun x le => ?_,
    fun x lt => absurd lt (Nat.not_lt_zero x), fun x _ => ?_⟩
  · rw [keys' _ (fun i => by simp), List.map_cons, List.mem_cons, EdgeArray.models.injEq, keys]
    omega
  · rw [keys' _ (fun i => by simp), List.map_cons, List.mem_cons, no_fwds]
    simp
  · by_cases eq : x = a
    · subst eq
      simp only [Build.setVar, Function.update_self]
    · simp only [Build.setVar, Function.update_of_ne eq, other eq]
      exact mods x (by omega)
  · have ne : x ≠ a := by omega
    simp only [Build.setVar, Function.update_of_ne ne, other ne]
    exact mods_rest x (by omega)
  · by_cases eq : x = a
    · subst eq
      simp only [Build.setVar, Function.update_self, self]
      exact fwds_rest x (Nat.zero_le x)
    · simp only [Build.setVar, Function.update_of_ne eq, other eq]
      exact fwds_rest x (Nat.zero_le x)

theorem LayingVars.assignFwds {b : Nat} (vars : D.LayingVars L p0 D.vars.length b st) (ready : D.Ready L)
    (pos : 0 < p0) (lt : b < D.vars.length) : D.LayingVars L p0 D.vars.length (b + 1) (assignFwds st b) := by
  obtain ⟨G, p⟩ := st
  obtain ⟨⟨log, laying, keys, fwd_keys⟩, mods, mods_rest, fwds, fwds_rest⟩ := vars
  obtain ⟨pointer, n_fwd⟩ := fwds_rest b (Nat.le_refl b)
  simp only at pointer n_fwd
  have count : (G.vars b).n_fwd = D.paramVars.count b := n_fwd.trans (ready.scratched.vars b).2.1
  have fresh : .fwds b ∉ log.map Prod.fst := fun mem => absurd ((fwd_keys b).mp mem) (Nat.lt_irrefl b)
  have placed := laying.placeVar (i := b) (v := { G.vars b with fwds := p }) fresh lt rfl (.inr ⟨rfl, rfl, rfl⟩)
  have size : D.bytes (.fwds b) = (G.vars b).n_fwd * 4 := by rw [count, bytes]
  rw [size] at placed
  obtain ⟨same, log', laying', keys'⟩ := placed.assignAll Def.assignReturns .returns
    (fun st j => Build.modelOf (st.1.load ((G.vars b).fwds + j * 4)).idx) (List.range (G.vars b).n_fwd)
    (fun log st i lt laying => laying.assignReturns ready pos lt) fun log st laying j mem => by
      obtain ⟨i, model, index⟩ := ready.scratched.fwds b j (n_fwd ▸ List.mem_range.mp mem)
      rw [Build.load, laying.mem, pointer]
      rw [Build.load] at index
      rw [index, modelOf_not]
      exact model
  rw [Def.assignFwds]
  simp only
  generalize (List.range (G.vars b).n_fwd).foldl _ _ = st' at same laying' ⊢
  obtain ⟨G', p'⟩ := st'
  have self : G'.vars b = { G.vars b with fwds := p } := by
    simp only at same
    rw [same]
    exact Function.update_self ..
  have other {x : Nat} (ne : x ≠ b) : G'.vars x = G.vars x := by
    simp only at same
    rw [same]
    exact Function.update_of_ne ne _ _
  refine ⟨⟨log', laying'.setVar rfl rfl rfl, fun x => ?_, fun x => ?_⟩, fun x lt => ?_, fun x le => ?_, fun x lt => ?_,
    fun x le => ?_⟩
  · rw [keys' _ (fun i => by simp), List.map_cons, List.mem_cons, keys]
    simp
  · rw [keys' _ (fun i => by simp), List.map_cons, List.mem_cons, EdgeArray.fwds.injEq, fwd_keys]
    omega
  · by_cases eq : x = b
    · subst eq
      simp only [Build.setVar, Function.update_self, self]
      exact mods x lt
    · simp only [Build.setVar, Function.update_of_ne eq, other eq]
      exact mods x lt
  · have ne : x ≠ b := by omega
    simp only [Build.setVar, Function.update_of_ne ne, other ne]
    exact mods_rest x le
  · by_cases eq : x = b
    · subst eq
      simp only [Build.setVar, Function.update_self]
    · simp only [Build.setVar, Function.update_of_ne eq, other eq]
      exact fwds x (by omega)
  · have ne : x ≠ b := by omega
    simp only [Build.setVar, Function.update_of_ne ne, other ne]
    exact fwds_rest x (by omega)

/-- Every array has its place, one behind the other, and the counters are zero. -/
structure Laid (D : Def) (p0 : Nat) (G : Build) (p : Nat) : Prop where
  log : ∃ log, Tiles D.bytes p0 log p ∧ (log.map Prod.fst).Nodup ∧ (∀ e ∈ log, D.HasArray e.1) ∧
    (∀ e ∈ log, D.Starts G e.1 e.2) ∧ ∀ k, D.HasArray k → k ∈ log.map Prod.fst
  counters : ∀ x, (G.vars x).n_mod = 0 ∧ (G.vars x).n_fwd = 0
  groups : ∀ x, (G.vars x).group = (D.var x).group
  shadows : ∀ i, G.shadows i = ⟨(D.shadow i).arg, (D.shadow i).xi, (D.var (D.shadow i).xi).group, (D.shadow i).guard⟩
  nodes : ∀ i < D.models.length, (G.models i).group = (D.model i).group ∧
    (G.models i).p_shadow = -((D.model i).shadows.length : Int) ∧ (G.models i).p_cparam = (D.cparams i).length ∧
    (G.models i).p_param = (D.model i).params.length ∧ (G.models i).p_return = (D.model i).returns.length

theorem laid (inv : D.Inv) (ready : D.Ready L) (first : p0 % 4 = 0) (pos : 0 < p0) :
    ∃ G p, D.Laid p0 G p ∧ (List.range D.models.length).foldl assignRest ((List.range D.vars.length).foldl assignFwds
      ((List.range D.vars.length).foldl assignModels (L, p0))) = (G, p) := by
  have start : D.LayingVars L p0 0 0 (L, p0) := by
    refine ⟨⟨[], ⟨rfl, rfl, fun _ => rfl, fun _ => rfl, rfl, List.nodup_nil, fun e mem => (by cases mem),
      fun e mem => (by cases mem), fun i lt => ?_, fun i lt => ?_⟩, fun x => ?_, fun x => ?_⟩,
      fun x lt => absurd lt (Nat.not_lt_zero x), fun _ _ => ⟨rfl, rfl⟩, fun x lt => absurd lt (Nat.not_lt_zero x),
      fun _ _ => ⟨rfl, rfl⟩⟩
    · rw [ready.nodes i lt]
      simp
    · rw [ready.nodes i lt]
      simp
    · simp
    · simp
  have mods := Run.foldl_range (fun t st => D.LayingVars L p0 t 0 st) assignModels start
    fun i lt st vars => vars.assignModels ready first pos lt
  have fwds := Run.foldl_range (fun t st => D.LayingVars L p0 D.vars.length t st) assignFwds mods
    fun i lt st vars => vars.assignFwds ready pos lt
  generalize (List.range D.vars.length).foldl assignFwds _ = st at fwds ⊢
  obtain ⟨⟨log, laying, mod_keys, fwd_keys⟩, mods, mods_rest, fwds, fwds_rest⟩ := fwds
  have rest := Run.foldl_range (fun t st' => st'.1.vars = st.1.vars ∧ ∃ log', D.Laying L p0 log' st' ∧
      (∀ k ∈ log.map Prod.fst, k ∈ log'.map Prod.fst) ∧
      ∀ i < t, .bw i ∈ log'.map Prod.fst ∧ .returns i ∈ log'.map Prod.fst) assignRest (n := D.models.length)
    ⟨rfl, log, laying, fun _ => id, fun i lt => absurd lt (Nat.not_lt_zero i)⟩ fun i lt st' before => by
      obtain ⟨vars, log', laying', kept, placed⟩ := before
      obtain ⟨vars1, log1, laying1, keys1⟩ := laying'.assignParams ready first pos lt
      obtain ⟨vars2, log2, laying2, keys2⟩ := laying1.assignReturns ready pos lt
      refine ⟨vars2.trans (vars1.trans vars), log2, laying2, fun k mem => ?_, fun j lt => ?_⟩
      · exact (keys2 k).mpr (.inr ((keys1 k).mpr (.inr (kept k mem))))
      · rw [keys2, keys2, keys1, keys1]
        by_cases same : j = i
        · subst same
          exact ⟨.inr (.inl rfl), .inl rfl⟩
        · obtain ⟨bw, ret⟩ := placed j (by omega)
          exact ⟨.inr (.inr bw), .inr (.inr ret)⟩
  generalize (List.range D.models.length).foldl assignRest st = st' at rest
  obtain ⟨vars, log', laying', kept, placed⟩ := rest
  refine ⟨st'.1, st'.2, ⟨⟨log', laying'.tiles, laying'.nodup, laying'.arrays, laying'.starts, fun k array => ?_⟩,
    fun x => ?_, fun x => ?_, fun i => ?_, fun i lt => ?_⟩, rfl⟩
  · cases k with
    | models x => exact kept _ ((mod_keys x).mpr array)
    | fwds x => exact kept _ ((fwd_keys x).mpr array)
    | bw i => exact (placed i array).1
    | returns i => exact (placed i array).2
  · rw [vars]
    by_cases lt : x < D.vars.length
    · exact ⟨mods x lt, fwds x lt⟩
    · -- no edge names what is no variable
      have le := Nat.le_of_not_lt lt
      rw [(mods_rest x le).2, (fwds_rest x le).2, (ready.scratched.vars x).1, (ready.scratched.vars x).2.1]
      exact ⟨List.count_eq_zero.mpr fun mem => lt (inv.returnVars_lt mem),
        List.count_eq_zero.mpr fun mem => lt (inv.paramVars_lt mem)⟩
  · rw [laying'.groups]
    exact (ready.scratched.vars x).2.2
  · rw [laying'.shadows]
    exact ready.scratched.shadows i
  · have group := ready.scratched.models i
    rw [laying'.nodes i, ← group, ready.nodes i lt]
    exact ⟨rfl, rfl, rfl, rfl, rfl⟩

/-! ## Sizes -/

/-- The arrays of the graph, by kind. -/
def arrays (D : Def) : List EdgeArray :=
  (List.range D.vars.length).map .models ++ (List.range D.vars.length).map .fwds ++
    (List.range D.models.length).map .bw ++ (List.range D.models.length).map .returns

theorem mem_arrays {k : EdgeArray} : k ∈ D.arrays ↔ D.HasArray k := by
  cases k <;> simp [arrays, HasArray]

theorem nodup_arrays : D.arrays.Nodup := by
  have range (n : Nat) {f : Nat → EdgeArray} (inj : ∀ x y, f x = f y → x = y) : ((List.range n).map f).Nodup :=
    List.Nodup.map (fun x y => inj x y) List.nodup_range
  simp only [arrays, List.nodup_append, List.mem_append, List.mem_map]
  refine ⟨⟨⟨range _ fun _ _ => EdgeArray.models.inj, range _ fun _ _ => EdgeArray.fwds.inj, ?_⟩,
    range _ fun _ _ => EdgeArray.bw.inj, ?_⟩, range _ fun _ _ => EdgeArray.returns.inj, ?_⟩
  · rintro _ ⟨x, -, rfl⟩ _ ⟨y, -, rfl⟩ same
    cases same
  · rintro _ (⟨x, -, rfl⟩ | ⟨x, -, rfl⟩) _ ⟨y, -, rfl⟩ same <;> cases same
  · rintro _ ((⟨x, -, rfl⟩ | ⟨x, -, rfl⟩) | ⟨x, -, rfl⟩) _ ⟨y, -, rfl⟩ same <;> cases same

theorem sum_indicator (a n : Nat) : ((List.range n).map fun x => if a = x then 1 else 0).sum = if a < n then 1 else 0 := by
  induction n with
  | zero => rfl
  | succ n ih =>
    rw [List.range_succ, List.map_append, List.sum_append, ih, List.map_singleton, List.sum_singleton]
    split <;> split <;> split <;> omega

/-- Counting all numbers below a bound counts the whole list. -/
theorem sum_count {l : List Nat} {n : Nat} (lt : ∀ x ∈ l, x < n) :
    ((List.range n).map fun x => l.count x).sum = l.length := by
  induction l with
  | nil => simp
  | cons a l ih =>
    have rest := ih fun x mem => lt x (List.mem_cons_of_mem a mem)
    have one := sum_indicator a n
    rw [if_pos (lt a List.mem_cons_self)] at one
    simp only [List.count_cons, beq_iff_eq, List.sum_map_add, rest, one, List.length_cons]

theorem sum_arrays (inv : D.Inv) : D.nodeBytes + (D.arrays.map D.bytes).sum + (-D.minimap).toNat = D.fhk_graph_size := by
  have mods := sum_count fun x mem => inv.returnVars_lt (x := x) mem
  have fwds := sum_count fun x mem => inv.paramVars_lt (x := x) mem
  have models (f : DefModel → Nat) : ((List.range D.models.length).map fun i => f (D.model i)).sum =
      (D.models.map f).sum := by
    conv => rhs; rw [← range_models, List.map_map]
    rfl
  have params : D.paramVars.length = (D.models.map fun dm => dm.params.length).sum := by
    simp [paramVars, List.length_flatMap]
  have returns : D.returnVars.length = (D.models.map fun dm => dm.returns.length).sum := by
    simp [returnVars, List.length_flatMap]
  have bw := models fun dm => dm.shadows.length * 8 + dm.params.length * 4
  have ret := models fun dm => dm.returns.length * 4
  simp only [arrays, List.map_append, List.map_map, List.sum_append, Function.comp_def, bytes, List.sum_map_mul_right,
    mods, fwds, bw, ret, List.sum_map_add, params, returns, fhk_graph_size, List.sum_map_mul_left]
  omega

/-- The arrays fill the area, and no two overlap. -/
theorem Laid.tiles {G : Build} {p : Nat} (laid : D.Laid p0 G p) :
    p = p0 + (D.arrays.map D.bytes).sum ∧ ∃ start : EdgeArray → Nat, (∀ k, D.HasArray k → D.Starts G k (start k) ∧
      p0 ≤ start k ∧ start k + D.bytes k ≤ p ∧ (p0 % 4 = 0 → start k % 4 = 0)) ∧
      ∀ k k', D.HasArray k → D.HasArray k' → k ≠ k' →
        start k + D.bytes k ≤ start k' ∨ start k' + D.bytes k' ≤ start k := by
  obtain ⟨log, tiles, nodup, arrays, starts, all⟩ := laid.log
  have perm : (log.map Prod.fst).Perm D.arrays := by
    refine (List.perm_ext_iff_of_nodup nodup nodup_arrays).mpr fun k => ?_
    rw [mem_arrays]
    refine ⟨fun mem => ?_, all k⟩
    obtain ⟨e, logged, rfl⟩ := List.mem_map.mp mem
    exact arrays e logged
  have entry (k : EdgeArray) (array : D.HasArray k) : ∃ a, (k, a) ∈ log := by
    obtain ⟨⟨k', a⟩, mem, rfl⟩ := List.mem_map.mp (all k array)
    exact ⟨a, mem⟩
  choose! start mem using entry
  refine ⟨?_, start, fun k array => ⟨starts _ (mem k array), (tiles.within.2 _ (mem k array)).1,
    (tiles.within.2 _ (mem k array)).2, fun first => ?_⟩, fun k k' array array' ne =>
    tiles.apart (mem k array) (mem k' array') ne⟩
  · rw [tiles.total, ← (perm.map D.bytes).sum_eq, List.map_map]
    rfl
  · exact (tiles.aligned first fun k => by cases k <;> simp only [bytes] <;> omega).2 _ (mem k array)

end Def
end M2.Fhk
