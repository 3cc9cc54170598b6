import M2.Control.Cfg
import Mathlib.Data.Fintype.Card

/-!
The compiler of instruction graphs. A compiled function is described by what it closes over. A chunk is the Lua
text that an emitter generates, by what the text depends on; `loads` is whether `load` takes it, which for large
chunks it does not.
-/
namespace M2.Control

open Lib.Dfs

/-- The generated texts. -/
inductive Chunk
  | nothing
  | trampoline
  | primitive (narg : Nat)
  | chain_primitive (narg : Nat)
  | chain_call
  | any (isnothing : List Bool)

/-- A compiled function. A trampoline is named by the node it calls. -/
inductive Func
  | raw (k : Nat)
  | nothing
  | exit
  | primitive (f : Value) (args : List Value)
  | chain_primitive (f : Value) (args : List Value) (chain : Func)
  | chain_call (call chain : Func)
  | any (branches : List (Option Func))
  | trampoline (id : Nat)

/-- `emitting[node]`: `true` or a trampoline. -/
inductive Mark
  | busy
  | trampoline

/-- `emitted`, `emitting` and the upvalues `_target` of the trampolines. -/
structure Emitter (N : Nat) where
  emitted : Fin N → Option Func
  emitting : Fin N → Option Mark
  targets : Fin N → Option Func

variable {N : Nat}

section Emit

variable (loads : Chunk → Bool) (G : Graph N)

/-- A chunk that loads gives its function. -/
def loaded {α : Type} (chunk : Chunk) (f : α) (s : Emitter N) : Except (Stop String) (α × Emitter N) :=
  if loads chunk then .ok (f, s) else .error (.error "Compile failed")

/-- `cfg.isnothing`. -/
def isnothing : Ref N → Bool
  | .func _ => false
  | .node i =>
    match G i with
    | .nothing => true
    | _ => false

def emit_nothing (s : Emitter N) : Except (Stop String) (Func × Emitter N) := loaded loads .nothing .nothing s

def emit_primitive (f : Value) (narg : Nat) (args : List Value) (s : Emitter N) :
    Except (Stop String) (Func × Emitter N) :=
  loaded loads (.primitive narg) (.primitive f (unpack args narg)) s

variable (emit : Ref N → Emitter N → Except (Stop String) (Func × Emitter N))

def emit_chain (node : Ref N) (chain : Option Func) (s : Emitter N) : Except (Stop String) (Func × Emitter N) :=
  match chain with
  | none => emit node s
  | some chain =>
    let emit_chain_call : Except (Stop String) (Func × Emitter N) := do
      let (call, s) ← emit node s
      loaded loads .chain_call (.chain_call call chain) s
    match node with
    | .func _ => emit_chain_call
    | .node i =>
      match G i with
      | .primitive f narg args =>
        loaded loads (.chain_primitive narg) (.chain_primitive f (unpack args narg) chain) s
      | _ => emit_chain_call

/-- The loop of `emit_all`, from the last edge to the first. -/
def emit_edges : List (Ref N) → Emitter N → Except (Stop String) (Option Func × Emitter N)
  | [], s => .ok (none, s)
  | e :: edges, s => do
    let (chain, s) ← emit_edges edges s
    if isnothing G e then return (chain, s)
    else
      let (f, s) ← emit_chain loads G emit e chain s
      return (some f, s)

def emit_all (edges : List (Ref N)) (s : Emitter N) : Except (Stop String) (Func × Emitter N) := do
  let (chain, s) ← emit_edges loads G emit edges s
  match chain with
  | some f => return (f, s)
  | none => emit_nothing loads s

/-- The loop of `emit_any`: what the branches call, none where they return at once. -/
def emit_branches : List (Ref N) → Emitter N → Except (Stop String) (List (Option Func) × Emitter N)
  | [], s => .ok ([], s)
  | e :: edges, s =>
    if isnothing G e then do
      let (branches, s) ← emit_branches edges s
      return (none :: branches, s)
    else do
      let (call, s) ← emit e s
      let (branches, s) ← emit_branches edges s
      return (some call :: branches, s)

def emit_any (edges : List (Ref N)) (s : Emitter N) : Except (Stop String) (Func × Emitter N) :=
  match edges with
  | [] => .ok (.exit, s)
  | [e] => emit e s
  | edges => do
    let (branches, s) ← emit_branches G emit edges s
    loaded loads (.any (edges.map (isnothing G))) (.any branches) s

/-- `node:emit(emit, sim)`. -/
def emit_node (node : Node N) (s : Emitter N) : Except (Stop String) (Func × Emitter N) :=
  match node with
  | .nothing => emit_nothing loads s
  | .exit => .ok (.exit, s)
  | .primitive f narg args => emit_primitive loads f narg args s
  | .exported _ _ _ => .error (.error "attempt to call method 'emit' (a nil value)")
  | .all edges => emit_all loads G emit edges s
  | .any edges => emit_any loads G emit edges s

end Emit

/-- `emitting[node] = mark`. -/
def Emitter.mark (s : Emitter N) (i : Fin N) (mark : Mark) : Emitter N :=
  { s with emitting := Function.update s.emitting i (some mark) }

/-- `emitted[node] = func`, and the upvalue of the node's trampoline is set. -/
def Emitter.finish (s : Emitter N) (i : Fin N) (func : Func) : Emitter N where
  emitted := Function.update s.emitted i (some func)
  targets :=
    match s.emitting i with
    | some .trampoline => Function.update s.targets i (some func)
    | _ => s.targets
  emitting := Function.update s.emitting i none

/-- The fuel bounds the depth of the recursion. -/
def compile_node (loads : Chunk → Bool) (G : Graph N) : Nat → Ref N → Emitter N → Except (Stop String) (Func × Emitter N)
  | 0, _, _ => .error .fuel
  | _ + 1, .func k, s => .ok (.raw k, s)
  | fuel + 1, .node i, s =>
    match s.emitted i with
    | some f => .ok (f, s)
    | none =>
      match s.emitting i with
      | some .trampoline => .ok (.trampoline i, s)
      | some .busy => loaded loads .trampoline (.trampoline i) (s.mark i .trampoline)
      | none => do
        let (func, s) ← emit_node loads G (compile_node loads G fuel) (G i) (s.mark i .busy)
        return (func, s.finish i func)

def compile (loads : Chunk → Bool) (fuel : Nat) (G : Graph N) (root : Ref N) : Except (Stop String) Func := do
  let (func, _) ← compile_node loads G fuel root
    { emitted := fun _ => none, emitting := fun _ => none, targets := fun _ => none }
  return func

/-! ## The compiler comes to an end -/

/-- The chunks that no node's data goes into. -/
def fixedChunks : List Chunk := [.nothing, .trampoline, .chain_call]

/-- The others that are loaded for a node. -/
def chunks (G : Graph N) : Node N → List Chunk
  | .primitive _ narg _ => [.primitive narg]
  | .all edges => edges.filterMap fun
    | .node i =>
      match G i with
      | .primitive _ narg _ => some (.chain_primitive narg)
      | _ => none
    | .func _ => none
  | .any edges => if 2 ≤ edges.length then [.any (edges.map (isnothing G))] else []
  | _ => []

/-- The chunks of every node that can be reached load. -/
structure Loads (loads : Chunk → Bool) (G : Graph N) (root : Ref N) : Prop where
  fixed : ∀ c ∈ fixedChunks, loads c = true
  node : ∀ i, Reach (next G) root (.node i) → ∀ c ∈ chunks G (G i), loads c = true

/-- The compiler has started on the node. -/
def Emitter.started (s : Emitter N) (i : Fin N) : Bool := (s.emitted i).isSome || (s.emitting i).isSome

def Emitter.unvisited (s : Emitter N) : Finset (Fin N) := Finset.univ.filter fun i => s.started i = false

section Ends

variable {loads : Chunk → Bool} {G : Graph N} {emit : Ref N → Emitter N → Except (Stop String) (Func × Emitter N)}

/-- A result with no more nodes to start on than before. -/
def Gives {α : Type} (s : Emitter N) (r : Except (Stop String) (α × Emitter N)) : Prop :=
  ∃ f t, r = .ok (f, t) ∧ t.unvisited ⊆ s.unvisited

theorem Gives.of_loaded {α : Type} {c : Chunk} (load : loads c = true) (f : α) (s : Emitter N) :
    Gives s (loaded loads c f s) := by
  rw [loaded, if_pos load]
  exact ⟨f, s, rfl, subset_rfl⟩

theorem Gives.bind {α β : Type} {s : Emitter N} {r : Except (Stop String) (α × Emitter N)}
    {k : α × Emitter N → Except (Stop String) (β × Emitter N)} (first : Gives s r)
    (second : ∀ f t, t.unvisited ⊆ s.unvisited → Gives t (k (f, t))) : Gives s (r >>= k) := by
  obtain ⟨f, t, done, fewer⟩ := first
  obtain ⟨g, u, done', fewer'⟩ := second f t fewer
  rw [done]
  exact ⟨g, u, done', fewer'.trans fewer⟩

/-- The edge is compiled from any state that has come as far as `s`. -/
def Compiles (emit : Ref N → Emitter N → Except (Stop String) (Func × Emitter N)) (s : Emitter N) (e : Ref N) : Prop :=
  ∀ t : Emitter N, t.unvisited ⊆ s.unvisited → Gives t (emit e t)

theorem gives_chain {s t : Emitter N} {e : Ref N} {edges : List (Ref N)} (mem : e ∈ edges) (compiles : Compiles emit s e)
    (fixed : ∀ c ∈ fixedChunks, loads c = true) (load : ∀ c ∈ chunks G (.all edges), loads c = true)
    (fewer : t.unvisited ⊆ s.unvisited) (chain : Option Func) : Gives t (emit_chain loads G emit e chain t) := by
  have call : ∀ next, Gives t (emit e t >>= fun r => loaded loads .chain_call (Func.chain_call r.1 next) r.2) := by
    intro next
    apply (compiles t fewer).bind
    exact fun f u _ => .of_loaded (fixed _ (List.mem_cons_of_mem _ (List.mem_cons_of_mem _ List.mem_cons_self))) _ _
  cases chain with
  | none => exact compiles t fewer
  | some next =>
    cases e with
    | func k => exact call next
    | node i =>
      rw [emit_chain]
      cases node : G i with
      | primitive f narg args =>
        simp only
        apply Gives.of_loaded
        apply load
        apply List.mem_filterMap.mpr
        refine ⟨_, mem, ?_⟩
        simp only [node]
      | _ => exact call next

theorem gives_edges {s t : Emitter N} {all : List (Ref N)} (fixed : ∀ c ∈ fixedChunks, loads c = true)
    (load : ∀ c ∈ chunks G (.all all), loads c = true) (compiles : ∀ e ∈ all, Compiles emit s e)
    (fewer : t.unvisited ⊆ s.unvisited) {edges : List (Ref N)} (part : edges ⊆ all) :
    Gives t (emit_edges loads G emit edges t) := by
  induction edges with
  | nil => exact ⟨none, t, rfl, subset_rfl⟩
  | cons e edges ih =>
    rw [emit_edges]
    apply (ih fun x mem => part (List.mem_cons_of_mem _ mem)).bind
    intro chain u fewer'
    have mem := part List.mem_cons_self
    simp only
    split
    · exact ⟨chain, u, rfl, subset_rfl⟩
    · apply (gives_chain mem (compiles e mem) fixed load (fewer'.trans fewer) chain).bind
      exact fun f v _ => ⟨some f, v, rfl, subset_rfl⟩

theorem gives_all {s : Emitter N} {edges : List (Ref N)} (fixed : ∀ c ∈ fixedChunks, loads c = true)
    (load : ∀ c ∈ chunks G (.all edges), loads c = true) (compiles : ∀ e ∈ edges, Compiles emit s e) :
    Gives s (emit_all loads G emit edges s) := by
  apply (gives_edges fixed load compiles subset_rfl (List.Subset.refl edges)).bind
  intro chain t _
  cases chain with
  | some f => exact ⟨f, t, rfl, subset_rfl⟩
  | none => exact .of_loaded (fixed _ List.mem_cons_self) _ _

theorem gives_branches {s t : Emitter N} (fewer : t.unvisited ⊆ s.unvisited) {edges : List (Ref N)}
    (compiles : ∀ e ∈ edges, Compiles emit s e) : Gives t (emit_branches G emit edges t) := by
  induction edges generalizing t with
  | nil => exact ⟨[], t, rfl, subset_rfl⟩
  | cons e edges ih =>
    have rest : ∀ u : Emitter N, u.unvisited ⊆ s.unvisited → Gives u (emit_branches G emit edges u) :=
      fun u fewer' => ih fewer' fun x mem => compiles x (List.mem_cons_of_mem _ mem)
    rw [emit_branches]
    split
    · apply (rest t fewer).bind
      exact fun branches u _ => ⟨none :: branches, u, rfl, subset_rfl⟩
    · apply (compiles e List.mem_cons_self t fewer).bind
      intro call u fewer'
      apply (rest u (fewer'.trans fewer)).bind
      exact fun branches v _ => ⟨some call :: branches, v, rfl, subset_rfl⟩

theorem gives_any {s : Emitter N} {edges : List (Ref N)} (load : ∀ c ∈ chunks G (.any edges), loads c = true)
    (compiles : ∀ e ∈ edges, Compiles emit s e) : Gives s (emit_any loads G emit edges s) := by
  match edges with
  | [] => exact ⟨.exit, s, rfl, subset_rfl⟩
  | [e] => exact compiles e List.mem_cons_self s subset_rfl
  | e :: e' :: edges =>
    apply (gives_branches subset_rfl compiles).bind
    intro branches t _
    apply Gives.of_loaded
    apply load
    have long : 2 ≤ (e :: e' :: edges).length := Nat.le_add_left 2 _
    rw [chunks, if_pos long]
    exact List.mem_cons_self

theorem gives_node {s : Emitter N} {n : Node N} (fixed : ∀ c ∈ fixedChunks, loads c = true)
    (load : ∀ c ∈ chunks G n, loads c = true) (primitive : n.isExported = false)
    (compiles : ∀ e ∈ n.edges.getD [], Compiles emit s e) : Gives s (emit_node loads G emit n s) := by
  cases n with
  | nothing => exact .of_loaded (fixed _ List.mem_cons_self) _ _
  | exit => exact ⟨.exit, s, rfl, subset_rfl⟩
  | primitive f narg args => exact .of_loaded (load _ List.mem_cons_self) _ _
  | exported name narg args => cases primitive
  | all edges => exact gives_all fixed load compiles
  | any edges => exact gives_any load compiles

theorem unvisited_subset {s t : Emitter N} (known : ∀ i, s.started i → t.started i) : t.unvisited ⊆ s.unvisited := by
  intro i out
  rw [Emitter.unvisited, Finset.mem_filter] at out ⊢
  refine ⟨out.1, ?_⟩
  by_contra started
  rw [Bool.not_eq_false] at started
  rw [known i started] at out
  cases out.2

theorem Emitter.mark_started (s : Emitter N) (i : Fin N) (m : Mark) (j : Fin N) :
    (s.mark i m).started j = true ↔ j = i ∨ s.started j = true := by
  by_cases same : j = i
  · cases same
    refine iff_of_true ?_ (.inl rfl)
    change ((s.emitted i).isSome || (Function.update s.emitting i (some m) i).isSome) = true
    rw [Function.update_self]
    exact Bool.or_true _
  · change ((s.emitted j).isSome || (Function.update s.emitting i (some m) j).isSome) = true ↔ _
    rw [Function.update_of_ne same]
    exact (or_iff_right same).symm

theorem Emitter.finish_started (s : Emitter N) (i : Fin N) (f : Func) (j : Fin N) :
    (s.finish i f).started j = true ↔ j = i ∨ s.started j = true := by
  by_cases same : j = i
  · cases same
    refine iff_of_true ?_ (.inl rfl)
    change ((Function.update s.emitted i (some f) i).isSome || _) = true
    rw [Function.update_self]
    rfl
  · change ((Function.update s.emitted i (some f) j).isSome || (Function.update s.emitting i none j).isSome) = true ↔ _
    rw [Function.update_of_ne same, Function.update_of_ne same]
    exact (or_iff_right same).symm

/-- With fuel beyond the number of nodes it has not started on, the compiler gives a function for every node
from which no export is reached. -/
theorem gives_compile {fuel : Nat} {r : Ref N} {s : Emitter N} (load : Loads loads G r)
    (primitive : ∀ i, Reach (next G) r (.node i) → (G i).isExported = false) (enough : s.unvisited.card < fuel) :
    Gives s (compile_node loads G fuel r s) := by
  induction fuel generalizing r s with
  | zero => exact absurd enough (Nat.not_lt_zero _)
  | succ fuel ih =>
    cases r with
    | func k => exact ⟨.raw k, s, rfl, subset_rfl⟩
    | node i =>
      rw [compile_node]
      cases emitted : s.emitted i with
      | some f => exact ⟨f, s, rfl, subset_rfl⟩
      | none =>
        cases emitting : s.emitting i with
        | some mark =>
          cases mark with
          | trampoline => exact ⟨.trampoline i, s, rfl, subset_rfl⟩
          | busy =>
            have trampoline := load.fixed .trampoline (List.mem_cons_of_mem _ List.mem_cons_self)
            rw [loaded, if_pos trampoline]
            exact ⟨_, _, rfl, unvisited_subset fun j started => (s.mark_started i _ j).mpr (.inr started)⟩
        | none =>
          have unstarted : s.started i = false := by
            rw [Emitter.started, emitted, emitting]
            rfl
          have marked : (s.mark i .busy).unvisited ⊆ s.unvisited :=
            unvisited_subset fun j started => (s.mark_started i _ j).mpr (.inr started)
          have fewer : (s.mark i .busy).unvisited.card < s.unvisited.card := by
            apply Finset.card_lt_card
            apply Finset.ssubset_iff_subset_ne.mpr
            refine ⟨marked, fun same => ?_⟩
            have mem : i ∈ s.unvisited := Finset.mem_filter.mpr ⟨Finset.mem_univ i, unstarted⟩
            rw [← same] at mem
            have started := (s.mark_started i .busy i).mpr (.inl rfl)
            rw [(Finset.mem_filter.mp mem).2] at started
            cases started
          have compiles : ∀ e ∈ (G i).edges.getD [], Compiles (compile_node loads G fuel) (s.mark i .busy) e := by
            intro e edge t within
            have through : ∀ j, Reach (next G) e (.node j) → Reach (next G) (.node i) (.node j) :=
              fun j reach => .head edge reach
            apply ih ⟨load.fixed, fun j reach => load.node j (through j reach)⟩
            · exact fun j reach => primitive j (through j reach)
            · have := Finset.card_le_card within
              omega
          obtain ⟨f, t, done, within⟩ := gives_node load.fixed (load.node i .refl) (primitive i .refl) compiles
          simp only [done]
          refine ⟨f, t.finish i f, rfl, ?_⟩
          apply (unvisited_subset fun j started => ?_).trans (within.trans marked)
          exact (t.finish_started i f j).mpr (.inr started)

/-- The compiler accepts every graph without exports whose chunks load. -/
theorem compile_succeeds {root : Ref N} (load : Loads loads G root)
    (primitive : ∀ i, Reach (next G) root (.node i) → (G i).isExported = false) {fuel : Nat} (enough : N < fuel) :
    ∃ func, compile loads fuel G root = .ok func := by
  have few : (⟨fun _ => none, fun _ => none, fun _ => none⟩ : Emitter N).unvisited.card < fuel := by
    apply lt_of_le_of_lt (Finset.card_le_univ _)
    rwa [Fintype.card_fin]
  obtain ⟨func, t, done, -⟩ := gives_compile load primitive few
  refine ⟨func, ?_⟩
  rw [compile, done]
  rfl

end Ends

end M2.Control
