import M2.Lib.Dfs

/-!
Instruction graphs and the patching of their exports. The tables of a graph are numbered, and a Lua error is the
message that it stops with.
-/
namespace M2.Control

open Lib.Dfs

/-- A Lua value as instructions hold it: their functions and arguments. -/
inductive Value
  | nil
  | bool (b : Bool)
  | object (id : Nat)
  deriving DecidableEq

def Value.truthy : Value → Bool
  | nil => false
  | bool b => b
  | object _ => true

/-- What an edge leads to: a table of the graph or a raw function. -/
inductive Ref (N : Nat)
  | node (i : Fin N)
  | func (k : Nat)
  deriving DecidableEq

/-- A node by its `tag`, with the fields that its constructor sets. `exported` has the tag `export`, and is the
only one without an `emit`. -/
inductive Node (N : Nat)
  | nothing
  | exit
  | primitive (f : Value) (narg : Nat) (args : List Value)
  | exported (f : String) (narg : Nat) (args : List Value)
  | all (edges : List (Ref N))
  | any (edges : List (Ref N))

abbrev Graph (N : Nat) := Fin N → Node N

variable {N : Nat}

/-- `node.edges`. -/
def Node.edges : Node N → Option (List (Ref N))
  | all edges => some edges
  | any edges => some edges
  | _ => none

/-- The edges that a walk follows. -/
def next (G : Graph N) : Ref N → List (Ref N)
  | .node i => (G i).edges.getD []
  | .func _ => []

/-- An entry of the export table: a function, or what `make_primitive` makes of a conversion. -/
inductive Export
  | func (f : Nat)
  | object (toprimitive : List Value → List Value)

/-- `unpack(args, 1, narg)`. -/
def unpack (args : List Value) (narg : Nat) : List Value := (List.range narg).map fun i => args.getD i .nil

def packprimitive : List Value → Value × Nat × List Value
  | [] => (.nil, 0, [])
  | f :: rest => (f, rest.length, rest)

def toprimitive (f : Export) (narg : Nat) (args : List Value) : Value × Nat × List Value :=
  match f with
  | .func f => (.object f, narg, args)
  | .object toprimitive => packprimitive (toprimitive (unpack args narg))

/-- The graph while it is patched, and the nodes that `toprimitive` was called for. -/
structure Patch (N : Nat) where
  graph : Graph N
  calls : List (Fin N)

/-- The callback of `patch_exports`. -/
def patch_node (table : String → Option Export) (node : Ref N) (w : Patch N) : Except (Stop String) (Patch N) :=
  match node with
  | .func _ => .error (.error "attempt to index local 'node' (a function value)")
  | .node i =>
    match w.graph i with
    | .exported name narg args =>
      match table name with
      | none => .error (.error s!"name not exported: '{name}'")
      | some f =>
        let (g, narg, args) := toprimitive f narg args
        if g.truthy then
          .ok { graph := Function.update w.graph i (.primitive g narg args), calls := w.calls ++ [i] }
        else .error (.error s!"export didn't return a function: '{name}'")
    | _ => .ok w

/-- `_walk` behind its test of `seen`: the callback is called and the edges are read. -/
def walk_node (f : Ref N → Patch N → Except (Stop String) (Patch N)) (node : Ref N) (w : Patch N) :
    Except (Stop String) (Patch N × List (Ref N)) := do
  let w ← f node w
  match node with
  | .func _ => .error (.error "attempt to index local 'node' (a function value)")
  | .node _ => .ok (w, next w.graph node)

/-- `cfg.walk(G, ...)` from a root, where `fuel` bounds the depth of the recursion. -/
def patch_exports (table : String → Option Export) (fuel : Nat) (G : Graph N) (root : Ref N) :
    Except (Stop String) (Patch N) := do
  let s ← walk (walk_node (patch_node table)) fuel root ({ graph := G, calls := [] }, [])
  return s.1

/-! ## What a walk does -/

/-- What a node is after the callback, where it goes through: an export becomes the primitive it converts to. -/
def convert (table : String → Option Export) : Node N → Option (Node N)
  | .exported name narg args =>
    match table name with
    | none => none
    | some f =>
      let (g, narg, args) := toprimitive f narg args
      if g.truthy then some (.primitive g narg args) else none
  | node => some node

def Node.isExported : Node N → Bool
  | exported _ _ _ => true
  | _ => false

/-- Every export that converts is a primitive. -/
def patched (table : String → Option Export) (G : Graph N) : Graph N := fun i => (convert table (G i)).getD (G i)

variable {table : String → Option Export}

theorem convert_other {n : Node N} (other : n.isExported = false) : convert table n = some n := by
  cases n with
  | exported name narg args => cases other
  | _ => rfl

theorem convert_edges {n m : Node N} (converts : convert table n = some m) : m.edges = n.edges := by
  cases n with
  | exported name narg args =>
    rw [convert] at converts
    cases entry : table name with
    | none =>
      rw [entry] at converts
      cases converts
    | some f =>
      simp only [entry] at converts
      split at converts
      · cases converts
        rfl
      · cases converts
  | _ =>
    cases converts
    rfl

theorem convert_isExported {n m : Node N} (converts : convert table n = some m) : m.isExported = false := by
  cases n with
  | exported name narg args =>
    rw [convert] at converts
    cases entry : table name with
    | none =>
      rw [entry] at converts
      cases converts
    | some f =>
      simp only [entry] at converts
      split at converts
      · cases converts
        rfl
      · cases converts
  | _ =>
    cases converts
    rfl

theorem next_patched (G : Graph N) : next (patched table G) = next G := by
  funext r
  cases r with
  | func k => rfl
  | node i =>
    change ((convert table (G i)).getD (G i)).edges.getD [] = (G i).edges.getD []
    cases converts : convert table (G i) with
    | none => rfl
    | some m => rw [Option.getD_some, convert_edges converts]

/-- What the callback leaves where a node converts: only an export is written. -/
def Patch.write (w : Patch N) (i : Fin N) (n : Node N) : Patch N :=
  if (w.graph i).isExported then { graph := Function.update w.graph i n, calls := w.calls ++ [i] } else w

theorem Patch.write_of_ne (w : Patch N) {i j : Fin N} (n : Node N) (ne : j ≠ i) : (w.write i n).graph j = w.graph j := by
  rw [write]
  split
  · exact Function.update_of_ne ne _ _
  · rfl

theorem Patch.write_self {w : Patch N} {i : Fin N} {n : Node N} (converts : convert table (w.graph i) = some n) :
    (w.write i n).graph i = n := by
  rw [write]
  split
  · exact Function.update_self _ _ _
  · rename_i other
    rw [convert_other (Bool.eq_false_of_not_eq_true other)] at converts
    exact Option.some.inj converts

theorem Patch.write_calls (w : Patch N) (i : Fin N) (n : Node N) :
    (w.write i n).calls = w.calls ++ if (w.graph i).isExported then [i] else [] := by
  rw [write]
  split
  · rfl
  · exact (List.append_nil _).symm

theorem patch_node_some {w : Patch N} {i : Fin N} {n : Node N} (converts : convert table (w.graph i) = some n) :
    patch_node table (.node i) w = .ok (w.write i n) := by
  rw [Patch.write]
  cases h : w.graph i with
  | exported name narg args =>
    rw [h, convert] at converts
    cases entry : table name with
    | none =>
      rw [entry] at converts
      cases converts
    | some f =>
      simp only [entry] at converts
      simp only [patch_node, h, entry]
      split at converts
      · rename_i truthy
        cases converts
        rw [if_pos truthy]
        rfl
      · cases converts
  | _ => simp only [patch_node, h, Node.isExported, Bool.false_eq_true, if_false]

theorem patch_node_none {w : Patch N} {i : Fin N} (fails : convert table (w.graph i) = none) :
    ∃ message, patch_node table (.node i) w = .error (.error message) := by
  cases h : w.graph i with
  | exported name narg args =>
    rw [h, convert] at fails
    cases entry : table name with
    | none =>
      refine ⟨s!"name not exported: '{name}'", ?_⟩
      simp only [patch_node, h, entry]
    | some f =>
      refine ⟨s!"export didn't return a function: '{name}'", ?_⟩
      simp only [entry] at fails
      simp only [patch_node, h, entry]
      split at fails
      · cases fails
      · rename_i falsy
        rw [if_neg falsy]
  | _ =>
    rw [h] at fails
    cases fails

/-! ## The whole walk -/

/-- The graph while it is patched: each node is the original one, or what that converts to. -/
def Between (table : String → Option Export) (G : Graph N) (w : Patch N) : Prop :=
  ∀ i, w.graph i = G i ∨ convert table (G i) = some (w.graph i)

theorem Between.convert {G : Graph N} {w : Patch N} (h : Between table G w) {i : Fin N} {n : Node N}
    (converts : convert table (G i) = some n) : Control.convert table (w.graph i) = some n := by
  rcases h i with same | done
  · rw [same, converts]
  · rw [converts] at done
    cases done
    exact convert_other (convert_isExported converts)

theorem Between.next {G : Graph N} {w : Patch N} (h : Between table G w) (r : Ref N) :
    Control.next w.graph r = Control.next G r := by
  cases r with
  | func k => rfl
  | node i =>
    change (w.graph i).edges.getD [] = (G i).edges.getD []
    rcases h i with same | done
    · rw [same]
    · rw [convert_edges done]

/-- Each write takes a node to what it converts to. -/
theorem Between.write {G : Graph N} {w : Patch N} (h : Between table G w) {i : Fin N} {n : Node N}
    (converts : Control.convert table (w.graph i) = some n) : Between table G (w.write i n) := by
  intro j
  by_cases same : j = i
  · cases same
    rw [Patch.write_self converts]
    rcases h i with old | done
    · exact .inr (old ▸ converts)
    · rw [convert_other (convert_isExported done)] at converts
      exact .inr (done.trans converts)
  · rw [Patch.write_of_ne w n same]
    exact h j

theorem walk_node_ok {w w' : Patch N} {r : Ref N} {children : List (Ref N)}
    (entered : walk_node (patch_node table) r w = .ok (w', children)) :
    ∃ i n, r = .node i ∧ convert table (w.graph i) = some n ∧ children = next w'.graph r ∧ w' = w.write i n := by
  cases r with
  | func k => cases entered
  | node i =>
    cases converts : convert table (w.graph i) with
    | none =>
      obtain ⟨message, fails⟩ := patch_node_none converts
      rw [walk_node, fails] at entered
      cases entered
    | some n =>
      rw [walk_node, patch_node_some converts] at entered
      cases entered
      exact ⟨i, n, rfl, converts, rfl, rfl⟩

/-- A node that cannot be entered is a raw function or does not convert, and the walk stops with its error. -/
theorem walk_node_error {w : Patch N} {r : Ref N} {stop : Stop String}
    (fails : walk_node (patch_node table) r w = .error stop) :
    (∃ message, stop = .error message) ∧ ∀ i, r = .node i → convert table (w.graph i) = none := by
  cases r with
  | func k =>
    cases fails
    exact ⟨⟨_, rfl⟩, fun i same => by cases same⟩
  | node i =>
    cases converts : convert table (w.graph i) with
    | none =>
      obtain ⟨message, no_patch⟩ := patch_node_none converts
      rw [walk_node, no_patch] at fails
      cases fails
      refine ⟨⟨_, rfl⟩, fun j same => ?_⟩
      cases same
      exact converts
    | some n =>
      rw [walk_node, patch_node_some converts] at fails
      cases fails

/-- What entering a node keeps. -/
theorem between_keep (G : Graph N) (r : Ref N) (w w' : Patch N) (children : List (Ref N)) (h : Between table G w)
    (entered : walk_node (patch_node table) r w = .ok (w', children)) :
    Between table G w' ∧ children = next G r := by
  obtain ⟨i, n, rfl, converts, rfl, rfl⟩ := walk_node_ok entered
  exact ⟨h.write converts, (h.write converts).next _⟩

/-- What entering nodes in order has written: those entered are converted, and the exports among them were
converted once each. -/
theorem visits_patched {order : List (Ref N)} {w w' : Patch N} (nodup : order.Nodup)
    (run : visits (walk_node (patch_node table)) order w = .ok w') :
    (∀ r ∈ order, ∃ i, r = .node i ∧ convert table (w.graph i) = some (w'.graph i)) ∧
      (∀ i, .node i ∉ order → w'.graph i = w.graph i) ∧
      ∃ calls, w'.calls = w.calls ++ calls ∧ calls.Nodup ∧
        ∀ i, i ∈ calls ↔ .node i ∈ order ∧ (w.graph i).isExported := by
  induction order generalizing w with
  | nil =>
    cases run
    refine ⟨fun r mem => absurd mem List.not_mem_nil, fun _ _ => rfl, [], (List.append_nil _).symm, List.nodup_nil, ?_⟩
    exact fun i => iff_of_false List.not_mem_nil fun both => absurd both.1 List.not_mem_nil
  | cons r order ih =>
    obtain ⟨w₁, children, entered, rest⟩ := visits_cons run
    obtain ⟨i, n, rfl, converts, -, rfl⟩ := walk_node_ok entered
    obtain ⟨fresh, nodup⟩ := List.nodup_cons.mp nodup
    obtain ⟨inside, outside, calls, more, calls_nodup, members⟩ := ih nodup rest
    have differ : ∀ j, .node j ∈ order → j ≠ i := by
      rintro j mem rfl
      exact fresh mem
    refine ⟨?_, ?_, _, by rw [more, Patch.write_calls, List.append_assoc], ?_, ?_⟩
    · intro r mem
      rcases List.mem_cons.mp mem with rfl | mem
      · refine ⟨i, rfl, ?_⟩
        rw [outside i fresh, Patch.write_self converts]
        exact converts
      · obtain ⟨j, rfl, done⟩ := inside r mem
        rw [Patch.write_of_ne w n (differ j mem)] at done
        exact ⟨j, rfl, done⟩
    · intro j out
      rw [outside j fun mem => out (List.mem_cons_of_mem _ mem)]
      apply Patch.write_of_ne
      rintro rfl
      exact out List.mem_cons_self
    · split
      · apply List.nodup_cons.mpr
        exact ⟨fun mem => fresh ((members i).mp mem).1, calls_nodup⟩
      · exact calls_nodup
    · intro j
      rw [List.mem_append, members j, List.mem_cons, Ref.node.injEq]
      by_cases same : j = i
      · cases same
        have no_more : ¬ (Ref.node i ∈ order ∧ ((w.write i n).graph i).isExported) := fun both => fresh both.1
        split
        · rename_i isExport
          exact iff_of_true (.inl (List.mem_singleton.mpr rfl)) ⟨.inl rfl, isExport⟩
        · rename_i other
          refine iff_of_false ?_ fun both => other both.2
          exact fun either => either.elim (fun mem => absurd mem List.not_mem_nil) no_more
      · have apart : j ∉ (if (w.graph i).isExported then [i] else []) := by
          split
          · exact fun mem => same (List.mem_singleton.mp mem)
          · exact List.not_mem_nil
        rw [Patch.write_of_ne w n same]
        constructor
        · exact fun either => either.elim (fun mem => absurd mem apart) fun both => ⟨.inr both.1, both.2⟩
        · exact fun both => .inr ⟨both.1.resolve_left same, both.2⟩

end M2.Control
