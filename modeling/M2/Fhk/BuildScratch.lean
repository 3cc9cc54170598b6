import M2.Lib.Appends
import M2.Lib.Run
import M2.Lib.Tiles
import M2.Fhk.Build
import M2.Fhk.Degrees

/-!
# Scratch edges of the builder

Writing to the edge area is appending to arrays in one memory. Before the arrays of the graph are
placed, the area holds for each variable the models that name it.
-/
namespace M2.Fhk
open M2.Lib

/-- The arrays that edges are appended to. A model has two arrays of parameters, and the checks grow
downwards. -/
inductive Slot
  | cparam (i : Nat)
  | gparam (i : Nat)
  | check (i : Nat)
  | penalty (i : Nat)
  | ret (i : Nat)
  | fwd (x : Nat)
  | mod (x : Nat)
  deriving DecidableEq

/-- A write to the next place of an array. -/
abbrev Write := Slot × (Cell → Cell)

namespace Build

/-- The word of place `j` of an array. -/
def place (G : Build) : Slot → Nat → Nat
  | .cparam i, j => (G.models i).params / 4 + j
  | .gparam i, j => (G.models i).params / 4 + ((G.models i).p_cparam + j)
  | .check i, j => ((G.models i).params - (j + 1) * 8) / 4
  | .penalty i, j => ((G.models i).params - (j + 1) * 8) / 4 + 1
  | .ret i, j => (G.models i).returns / 4 + j
  | .fwd x, j => (G.vars x).fwds / 4 + j
  | .mod x, j => (G.vars x).models / 4 + j

/-- A graph that differs from `L` by what was appended. -/
structure Follows (L G : Build) (A : Appends Slot Nat Cell) : Prop where
  mem : G.mem = A.mem
  vars : ∀ x, G.vars x = { L.vars x with n_fwd := A.count (.fwd x), n_mod := A.count (.mod x) }
  models : G.models = L.models
  shadows : G.shadows = L.shadows

variable {L G : Build} {A : Appends Slot Nat Cell}

theorem word_add (a j : Nat) : (a + j * 4) / 4 = a / 4 + j := Nat.add_mul_div_right a j (by decide)

/-- A write to an array without a counter among the nodes. -/
theorem Follows.store (follows : Follows L G A) (k : Slot) (f : Cell → Cell) {a : Nat}
    (word : a / 4 = L.place k (A.count k)) (fwd : ∀ x, k ≠ .fwd x) (mod : ∀ x, k ≠ .mod x) :
    Follows L (G.store a f) (A.push L.place (k, f)) := by
  refine ⟨?_, fun x => ?_, follows.models, follows.shadows⟩
  · simp only [Build.store, Appends.push, follows.mem, word]
  · have kept := follows.vars x
    simp only [Appends.push, Function.update_of_ne (fwd x).symm, Function.update_of_ne (mod x).symm]
    exact kept

theorem Follows.fwd (follows : Follows L G A) (x : Nat) (f : Cell → Cell) :
    Follows L ((G.store ((G.vars x).fwds + (G.vars x).n_fwd * 4) f).setVar x
      { G.vars x with n_fwd := (G.vars x).n_fwd + 1 }) (A.push L.place (.fwd x, f)) := by
  have here := follows.vars x
  refine ⟨?_, fun y => ?_, follows.models, follows.shadows⟩
  · simp only [Build.store, Build.setVar, Appends.push, follows.mem, word_add, here, place]
  · simp only [Build.store, Build.setVar, Appends.push]
    by_cases same : y = x
    · subst same
      rw [Function.update_self, Function.update_self, Function.update_of_ne (fun h => by cases h), here]
    · have fwd_ne : Slot.fwd y ≠ .fwd x := fun h => same (Slot.fwd.inj h)
      have mod_ne : Slot.mod y ≠ .fwd x := fun h => by cases h
      rw [Function.update_of_ne same, Function.update_of_ne fwd_ne, Function.update_of_ne mod_ne]
      exact follows.vars y

theorem Follows.mod (follows : Follows L G A) (x : Nat) (f : Cell → Cell) :
    Follows L ((G.store ((G.vars x).models + (G.vars x).n_mod * 4) f).setVar x
      { G.vars x with n_mod := (G.vars x).n_mod + 1 }) (A.push L.place (.mod x, f)) := by
  have here := follows.vars x
  refine ⟨?_, fun y => ?_, follows.models, follows.shadows⟩
  · simp only [Build.store, Build.setVar, Appends.push, follows.mem, word_add, here, place]
  · simp only [Build.store, Build.setVar, Appends.push]
    by_cases same : y = x
    · subst same
      rw [Function.update_self, Function.update_self, Function.update_of_ne (fun h => by cases h), here]
    · have fwd_ne : Slot.fwd y ≠ .mod x := fun h => by cases h
      have mod_ne : Slot.mod y ≠ .mod x := fun h => same (Slot.mod.inj h)
      rw [Function.update_of_ne same, Function.update_of_ne fwd_ne, Function.update_of_ne mod_ne]
      exact follows.vars y

end Build

namespace Def
variable {D : Def}

/-! ## Scratch space -/

/-- What `scratchModel` writes. -/
def scratchWrites (D : Def) (i : Nat) : List Write :=
  ((D.model i).params.flatMap fun e => [(.fwd e.idx, Cell.setIdx (~~~(i : Int)))]) ++
    (D.model i).returns.flatMap fun e => [(.mod e.idx, Cell.setIdx (~~~(i : Int)))]

theorem scratchModel_follows {L G : Build} {A : Appends Slot Nat Cell} (follows : Build.Follows L G A) (i : Nat) :
    Build.Follows L (D.scratchModel G i) ((D.scratchWrites i).foldl (Appends.push L.place) A) := by
  rw [scratchModel, scratchWrites, List.foldl_append]
  apply Run.foldl_simulates (Build.Follows L)
  · apply Run.foldl_simulates (Build.Follows L)
    · exact follows
    · intro e _ G A follows
      exact follows.fwd e.idx _
  · intro e _ G A follows
    exact follows.mod e.idx _

theorem range_models : (List.range D.models.length).map D.model = D.models := by
  apply List.ext_getElem
  · simp
  · intro i low high
    simp [model, List.getD_eq_getElem?_getD, List.getElem?_eq_getElem high]

theorem flatMap_models {β : Type*} (f : DefModel → List β) :
    ((List.range D.models.length).flatMap fun i => f (D.model i)) = D.models.flatMap f := by
  conv => rhs; rw [← range_models, List.flatMap_map]

/-- The appends to one array, counted by what names it. -/
theorem length_only {ι : Type*} (k : Slot) (x : Nat) {l : List ι} {writes : ι → List Write} {names : ι → List Nat}
    (each : ∀ i ∈ l, (Appends.only k (writes i)).length = (names i).count x) :
    (Appends.only k (l.flatMap writes)).length = (l.flatMap names).count x := by
  induction l with
  | nil => rfl
  | cons i l ih =>
    rw [List.flatMap_cons, List.flatMap_cons, Appends.only_append, List.length_append, List.count_append,
      each i List.mem_cons_self, ih fun j mem => each j (List.mem_cons_of_mem i mem)]

/-- Nothing is appended to an array that no write names. -/
theorem only_eq_nil {k : Slot} {l : List Write} (none : ∀ w ∈ l, w.1 ≠ k) : Appends.only k l = [] := by
  rw [Appends.only, List.map_eq_nil_iff, List.filter_eq_nil_iff]
  intro w mem
  simpa using none w mem

theorem mem_only {k : Slot} {l : List Write} {f : Cell → Cell} (mem : f ∈ Appends.only k l) : (k, f) ∈ l := by
  obtain ⟨w, kept, rfl⟩ := List.mem_map.mp mem
  obtain ⟨written, same⟩ := List.mem_filter.mp kept
  obtain rfl := of_decide_eq_true same
  exact written

/-- All writes to the scratch space. -/
def allScratch (D : Def) : List Write := (List.range D.models.length).flatMap D.scratchWrites

theorem only_single (k : Slot) (w : Write) : Appends.only k [w] = if w.1 = k then [w.2] else [] := by
  rw [Appends.only_cons, Appends.only_nil]

theorem length_scratch_fwd (x : Nat) : (Appends.only (.fwd x) D.allScratch).length = D.paramVars.count x := by
  rw [paramVars, ← flatMap_models]
  refine length_only _ x fun i _ => ?_
  rw [scratchWrites, Appends.only_append, List.length_append, only_eq_nil (l := List.flatMap _ (D.model i).returns),
    List.length_nil, Nat.add_zero]
  · rw [← List.flatMap_pure_eq_map]
    refine length_only _ x fun e _ => ?_
    rw [only_single]
    by_cases same : e.idx = x <;> simp [same]
  · intro w mem
    obtain ⟨e, -, mem⟩ := List.mem_flatMap.mp mem
    rw [List.mem_singleton.mp mem]
    exact fun h => by cases h

theorem length_scratch_mod (x : Nat) : (Appends.only (.mod x) D.allScratch).length = D.returnVars.count x := by
  rw [returnVars, ← flatMap_models]
  refine length_only _ x fun i _ => ?_
  rw [scratchWrites, Appends.only_append, List.length_append, only_eq_nil (l := List.flatMap _ (D.model i).params),
    List.length_nil, Nat.zero_add]
  · rw [← List.flatMap_pure_eq_map]
    refine length_only _ x fun e _ => ?_
    rw [only_single]
    by_cases same : e.idx = x <;> simp [same]
  · intro w mem
    obtain ⟨e, -, mem⟩ := List.mem_flatMap.mp mem
    rw [List.mem_singleton.mp mem]
    exact fun h => by cases h

/-- A write to the scratch space is that of a model, to an array of a variable. -/
theorem mem_allScratch {w : Write} (mem : w ∈ D.allScratch) :
    (∃ i < D.models.length, w.2 = Cell.setIdx (~~~(i : Int))) ∧ ∃ x, w.1 = .fwd x ∨ w.1 = .mod x := by
  obtain ⟨i, model, mem⟩ := List.mem_flatMap.mp mem
  have lt := List.mem_range.mp model
  obtain mem | mem := List.mem_append.mp mem
  · obtain ⟨e, -, mem⟩ := List.mem_flatMap.mp mem
    rw [List.mem_singleton.mp mem]
    exact ⟨⟨i, lt, rfl⟩, e.idx, .inl rfl⟩
  · obtain ⟨e, -, mem⟩ := List.mem_flatMap.mp mem
    rw [List.mem_singleton.mp mem]
    exact ⟨⟨i, lt, rfl⟩, e.idx, .inr rfl⟩

theorem Counted.var (counted : D.Counted) {x : Nat} (lt : x < D.vars.length) : D.VarCounted x (D.var x) := by
  refine counted.vars x _ ?_
  rw [Def.var, List.getD_eq_getElem?_getD, List.getElem?_eq_getElem lt, Option.getD_some]

theorem var_outside {x : Nat} (le : D.vars.length ≤ x) : D.var x = ⟨0, 0, 0, 0, 0⟩ := by
  rw [Def.var, List.getD_eq_getElem?_getD, List.getElem?_eq_none le, Option.getD_none]

/-- The size of an array in the scratch space. -/
def scratchBytes (D : Def) : Slot → Nat
  | .mod x => (D.var x).n_mod * 4
  | .fwd x => (D.var x).n_fwd * 4
  | _ => 0

/-- The first `t` variables have their arrays in the scratch space. -/
structure ScratchVars (D : Def) (G : Build) (p : Nat) (t : Nat) (st : Build × Nat) : Prop where
  log : ∃ log, Tiles D.scratchBytes p log st.2 ∧
    ∀ x < t, (.mod x, (st.1.vars x).models) ∈ log ∧ (.fwd x, (st.1.vars x).fwds) ∈ log
  done : ∀ x < t, (st.1.vars x).n_mod = 0 ∧ (st.1.vars x).n_fwd = 0 ∧ (st.1.vars x).group = (G.vars x).group
  rest : ∀ x, t ≤ x → st.1.vars x = G.vars x
  mem : st.1.mem = G.mem
  models : st.1.models = G.models
  shadows : st.1.shadows = G.shadows

theorem scratchVars (D : Def) (mem : Nat → Cell) (p : Nat) :
    D.ScratchVars (D.g_copy_nodes mem) p D.vars.length
      ((List.range D.vars.length).foldl scratchVar (D.g_copy_nodes mem, p)) := by
  apply Run.foldl_range (D.ScratchVars (D.g_copy_nodes mem) p)
  · exact ⟨⟨[], rfl, fun x lt => absurd lt (Nat.not_lt_zero x)⟩, fun x lt => absurd lt (Nat.not_lt_zero x),
      fun _ _ => rfl, rfl, rfl, rfl⟩
  rintro i - ⟨G, s⟩ ⟨⟨log, tiles, placed⟩, done, rest, mem, models, shadows⟩
  have here : G.vars i = (D.g_copy_nodes _).vars i := rest i (Nat.le_refl i)
  have n_mod : (G.vars i).n_mod = (D.var i).n_mod := by rw [here]; rfl
  have n_fwd : (G.vars i).n_fwd = (D.var i).n_fwd := by rw [here]; rfl
  have other {x : Nat} (ne : x ≠ i) : (scratchVar (G, s) i).1.vars x = G.vars x := Function.update_of_ne ne _ _
  have self : (scratchVar (G, s) i).1.vars i =
      { G.vars i with models := s, fwds := s + (G.vars i).n_mod * 4, n_mod := 0, n_fwd := 0 } := Function.update_self ..
  refine ⟨⟨(.fwd i, s + (G.vars i).n_mod * 4) :: (.mod i, s) :: log, ⟨?_, ?_, tiles⟩, fun x lt => ?_⟩, fun x lt => ?_,
    fun x le => ?_, mem, models, shadows⟩
  · simp only [scratchVar, scratchBytes, n_fwd]
  · simp only [scratchBytes, n_mod]
  · obtain rfl | ne := eq_or_ne x i
    · rw [self]
      exact ⟨by simp, by simp⟩
    · rw [other ne]
      obtain ⟨mod, fwd⟩ := placed x (by omega)
      exact ⟨List.mem_cons_of_mem _ (List.mem_cons_of_mem _ mod), List.mem_cons_of_mem _ (List.mem_cons_of_mem _ fwd)⟩
  · obtain rfl | ne := eq_or_ne x i
    · rw [self]
      exact ⟨rfl, rfl, by rw [here]⟩
    · rw [other ne]
      exact done x (by omega)
  · rw [other (by omega)]
    exact rest x (by omega)

/-- The places of the scratch space are all different. -/
theorem ScratchVars.apart {G : Build} {p : Nat} {st : Build × Nat} (counted : D.Counted) (inv : D.Inv)
    (vars : D.ScratchVars G p D.vars.length st) (aligned : p % 4 = 0) :
    Appends.Apart st.1.place ⟨st.1.mem, fun _ => 0⟩ D.allScratch := by
  obtain ⟨log, tiles, placed⟩ := vars.log
  have starts := (tiles.aligned aligned fun k => by cases k <;> simp [scratchBytes]).2
  have fwd_lt {x i : Nat} (lt : i < 0 + (Appends.only (.fwd x) D.allScratch).length) :
      x < D.vars.length ∧ i < (D.var x).n_fwd := by
    rw [Nat.zero_add, length_scratch_fwd] at lt
    have bound := inv.paramVars_lt (List.count_pos_iff.mp (Nat.lt_of_le_of_lt (Nat.zero_le i) lt))
    exact ⟨bound, by rwa [(counted.var bound).n_fwd]⟩
  have mod_lt {x i : Nat} (lt : i < 0 + (Appends.only (.mod x) D.allScratch).length) :
      x < D.vars.length ∧ i < (D.var x).n_mod := by
    rw [Nat.zero_add, length_scratch_mod] at lt
    have bound := inv.returnVars_lt (List.count_pos_iff.mp (Nat.lt_of_le_of_lt (Nat.zero_le i) lt))
    exact ⟨bound, by rwa [(counted.var bound).n_mod]⟩
  -- a place lies in the array of its variable
  have inside {k : Slot} {i : Nat} (lt : i < 0 + (Appends.only k D.allScratch).length) :
      ∃ a, (k, a) ∈ log ∧ st.1.place k i = a / 4 + i ∧ i * 4 + 4 ≤ D.scratchBytes k := by
    cases k with
    | fwd x =>
      obtain ⟨bound, lt⟩ := fwd_lt lt
      exact ⟨_, (placed x bound).2, rfl, by rw [scratchBytes]; omega⟩
    | mod x =>
      obtain ⟨bound, lt⟩ := mod_lt lt
      exact ⟨_, (placed x bound).1, rfl, by rw [scratchBytes]; omega⟩
    | _ =>
      rw [only_eq_nil] at lt
      · cases lt
      · intro w mem same
        obtain ⟨-, x, fwd | mod⟩ := mem_allScratch mem
        · rw [fwd] at same
          cases same
        · rw [mod] at same
          cases same
  intro k i k' i' _ lt _ lt' same
  obtain ⟨a, mem, place, le⟩ := inside lt
  obtain ⟨a', mem', place', le'⟩ := inside lt'
  have start := starts _ mem
  have start' := starts _ mem'
  simp only at start start'
  by_cases equal : k = k'
  · subst equal
    refine ⟨rfl, ?_⟩
    cases k <;> simp only [Build.place] at same <;> first | omega | cases le
  · obtain before | behind := tiles.apart mem mem' equal
    · simp only at before
      omega
    · simp only at behind
      omega

/-- After the scratch edges, every word of a variable's two arrays has the index of a model. -/
structure Scratched (D : Def) (G : Build) : Prop where
  vars : ∀ x, (G.vars x).n_mod = D.returnVars.count x ∧ (G.vars x).n_fwd = D.paramVars.count x ∧
    (G.vars x).group = (D.var x).group
  mods : ∀ x, ∀ j < (G.vars x).n_mod, ∃ i < D.models.length, (G.load ((G.vars x).models + j * 4)).idx = ~~~(i : Int)
  fwds : ∀ x, ∀ j < (G.vars x).n_fwd, ∃ i < D.models.length, (G.load ((G.vars x).fwds + j * 4)).idx = ~~~(i : Int)
  models : ∀ i, (G.models i).group = (D.model i).group
  shadows : ∀ i, G.shadows i = ⟨(D.shadow i).arg, (D.shadow i).xi, (D.var (D.shadow i).xi).group, (D.shadow i).guard⟩

theorem scratched (counted : D.Counted) (inv : D.Inv) (mem : Nat → Cell) {p : Nat} (aligned : p % 4 = 0) :
    D.Scratched ((List.range D.models.length).foldl D.scratchModel
      ((List.range D.vars.length).foldl scratchVar (D.g_copy_nodes mem, p)).1) := by
  have vars := scratchVars D mem p
  generalize (List.range D.vars.length).foldl scratchVar (D.g_copy_nodes mem, p) = st at vars ⊢
  have zero (x : Nat) : (st.1.vars x).n_mod = 0 ∧ (st.1.vars x).n_fwd = 0 := by
    by_cases lt : x < D.vars.length
    · exact ⟨(vars.done x lt).1, (vars.done x lt).2.1⟩
    · rw [vars.rest x (Nat.le_of_not_lt lt), g_copy_nodes]
      simp only [var_outside (Nat.le_of_not_lt lt), and_self]
  have first : Build.Follows st.1 st.1 ⟨st.1.mem, fun _ => 0⟩ := by
    refine ⟨rfl, fun x => ?_, rfl, rfl⟩
    obtain ⟨mod, fwd⟩ := zero x
    generalize st.1.vars x = v at mod fwd ⊢
    cases v
    cases mod
    cases fwd
    rfl
  have follows := Run.foldl_simulates (Build.Follows st.1) D.scratchModel (Appends.push st.1.place) D.scratchWrites
    (l := List.range D.models.length) first fun i _ _ _ follows => scratchModel_follows follows i
  have apart := vars.apart counted inv aligned
  have written := Appends.run_mem ⟨st.1.mem, fun _ => 0⟩ D.allScratch apart
  have counts := Appends.count_run st.1.place ⟨st.1.mem, fun _ => 0⟩ D.allScratch
  rw [← allScratch] at follows
  generalize (List.range D.models.length).foldl D.scratchModel st.1 = G at follows ⊢
  have load {k : Slot} {j a : Nat} (lt : j < (Appends.only k D.allScratch).length) (word : a / 4 = st.1.place k j) :
      ∃ i < D.models.length, (G.load a).idx = ~~~(i : Int) := by
    obtain ⟨v, stored⟩ := written k j _ (List.getElem?_eq_getElem lt)
    obtain ⟨⟨i, model, same⟩, -⟩ := mem_allScratch (mem_only (List.getElem_mem lt))
    refine ⟨i, model, ?_⟩
    rw [Nat.zero_add] at stored
    rw [Build.load, follows.mem, word, stored]
    simp only at same
    rw [same]
    rfl
  have n_mod (x : Nat) : (G.vars x).n_mod = D.returnVars.count x := by
    rw [follows.vars x, ← length_scratch_mod]
    exact (counts (.mod x)).trans (Nat.zero_add _)
  have n_fwd (x : Nat) : (G.vars x).n_fwd = D.paramVars.count x := by
    rw [follows.vars x, ← length_scratch_fwd]
    exact (counts (.fwd x)).trans (Nat.zero_add _)
  refine ⟨fun x => ⟨n_mod x, n_fwd x, ?_⟩, fun x j lt => ?_, fun x j lt => ?_, fun i => ?_, fun i => ?_⟩
  · rw [follows.vars x]
    by_cases lt : x < D.vars.length
    · exact (vars.done x lt).2.2
    · rw [vars.rest x (Nat.le_of_not_lt lt)]
      rfl
  · rw [n_mod, ← length_scratch_mod] at lt
    refine load lt ?_
    rw [Build.word_add, follows.vars x]
    rfl
  · rw [n_fwd, ← length_scratch_fwd] at lt
    refine load lt ?_
    rw [Build.word_add, follows.vars x]
    rfl
  · rw [follows.models, vars.models]
    rfl
  · rw [follows.shadows, vars.shadows]
    rfl

/-! ## Edge positions -/

/-- The parameters of model `i` whose variable has models. -/
def cparams (D : Def) (i : Nat) : List DefEdge := (D.model i).params.filter fun e => (D.var e.idx).n_mod ≠ 0

/-- Every model has its edge positions, and no array yet. -/
structure Ready (D : Def) (G : Build) : Prop where
  scratched : D.Scratched G
  nodes : ∀ i < D.models.length, G.models i = { G.models i with
    params := 0, returns := 0, p_shadow := -((D.model i).shadows.length : Int), p_cparam := (D.cparams i).length,
    p_param := (D.model i).params.length, p_return := (D.model i).returns.length }

theorem foldl_count {α : Type*} (p : α → Bool) (l : List α) (n : Nat) :
    l.foldl (fun n a => if p a then n + 1 else n) n = n + (l.filter p).length := by
  induction l generalizing n with
  | nil => rfl
  | cons a l ih =>
    rw [List.foldl_cons, ih]
    cases here : p a
    · rw [List.filter_cons_of_neg (by simp [here])]
      simp
    · rw [List.filter_cons_of_pos (by simp [here]), List.length_cons]
      simp only [if_true]
      omega

theorem Scratched.countModel {G : Build} (scratched : D.Scratched G) (i : Nat) : D.Scratched (D.countModel G i) := by
  refine ⟨scratched.vars, scratched.mods, scratched.fwds, fun j => ?_, scratched.shadows⟩
  rw [← scratched.models j]
  by_cases same : j = i
  · subst same
    simp [Def.countModel, Build.setModel]
  · simp [Def.countModel, Build.setModel, Function.update_of_ne same]

theorem ready {G : Build} (scratched : D.Scratched G) :
    D.Ready ((List.range D.models.length).foldl D.countModel G) := by
  have counted := Run.foldl_range (fun t G => D.Scratched G ∧ ∀ i < t, G.models i = { G.models i with
    params := 0, returns := 0, p_shadow := -((D.model i).shadows.length : Int), p_cparam := (D.cparams i).length,
    p_param := (D.model i).params.length, p_return := (D.model i).returns.length }) D.countModel (n := D.models.length)
    ⟨scratched, fun i lt => absurd lt (Nat.not_lt_zero i)⟩ fun i _ G before => ?_
  · exact ⟨counted.1, counted.2⟩
  obtain ⟨scratched, nodes⟩ := before
  refine ⟨scratched.countModel i, fun j lt => ?_⟩
  by_cases same : j = i
  · subst same
    have length := foldl_count (fun e : DefEdge => (D.var e.idx).n_mod ≠ 0) (D.model j).params 0
    simp only [decide_eq_true_eq, Nat.zero_add] at length
    simp only [Def.countModel, Build.setModel, Function.update_self, length, cparams]
  · simp only [Def.countModel, Build.setModel, Function.update_of_ne same]
    exact nodes j (by omega)

end Def
end M2.Fhk
