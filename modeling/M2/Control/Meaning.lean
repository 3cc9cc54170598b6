import M2.Control.Run
import Mathlib.Tactic.Ring

/-!
What a graph means, and that running the compiled function comes to the same. The meaning of the instructions
ahead of a path is the list of the calls that are made, each with the virtual stack it sees. An `any` means its
edges one after the other, each with all that is ahead and from the virtual stack at the `any`.
-/
namespace M2.Control

open Lib.Dfs

variable {N : Nat} {V : Type}

/-- The instructions ahead make these calls. -/
inductive Means (lib : Functions V) (G : Graph N) : List (Ref N) → V → List (Event V) → Prop
  | done {v : V} : Means lib G [] v []
  | raw_stop {k : Nat} {ks : List (Ref N)} {v v' : V} (result : lib.raw k v = (v', .stop)) :
      Means lib G (.func k :: ks) v [.raw k v]
  | raw_call {k : Nat} {ks : List (Ref N)} {v v' : V} {fs : List Nat} {es : List (Event V)}
      (result : lib.raw k v = (v', .call fs)) (rest : Means lib G (fs.map .func ++ ks) v' es) :
      Means lib G (.func k :: ks) v (.raw k v :: es)
  | nothing {i : Fin N} {ks : List (Ref N)} {v : V} {es : List (Event V)} (node : G i = .nothing)
      (rest : Means lib G ks v es) : Means lib G (.node i :: ks) v es
  | exit {i : Fin N} {ks : List (Ref N)} {v : V} (node : G i = .exit) : Means lib G (.node i :: ks) v []
  | primitive_stop {i : Fin N} {f : Value} {narg : Nat} {args : List Value} {ks : List (Ref N)} {v v' : V}
      (node : G i = .primitive f narg args) (result : lib.primitive f (unpack args narg) v = (v', .no)) :
      Means lib G (.node i :: ks) v [.primitive f (unpack args narg) v]
  | primitive_next {i : Fin N} {f : Value} {narg : Nat} {args : List Value} {ks : List (Ref N)} {v v' : V}
      {es : List (Event V)} (node : G i = .primitive f narg args)
      (result : lib.primitive f (unpack args narg) v = (v', .nil)) (rest : Means lib G ks v' es) :
      Means lib G (.node i :: ks) v (.primitive f (unpack args narg) v :: es)
  | primitive_call {i : Fin N} {f : Value} {narg : Nat} {args : List Value} {ks : List (Ref N)} {v v' : V} {k : Nat}
      {es : List (Event V)} (node : G i = .primitive f narg args)
      (result : lib.primitive f (unpack args narg) v = (v', .func k)) (rest : Means lib G (.func k :: ks) v' es) :
      Means lib G (.node i :: ks) v (.primitive f (unpack args narg) v :: es)
  | all {i : Fin N} {edges ks : List (Ref N)} {v : V} {es : List (Event V)} (node : G i = .all edges)
      (rest : Means lib G (edges ++ ks) v es) : Means lib G (.node i :: ks) v es
  | any {i : Fin N} {edges ks : List (Ref N)} {v : V} (node : G i = .any edges) (ess : Nat → List (Event V))
      (each : ∀ (n : Nat) (e : Ref N), edges[n]? = some e → Means lib G (e :: ks) v (ess n)) :
      Means lib G (.node i :: ks) v ((List.range edges.length).flatMap ess)

/-- There is one list of calls at most. -/
theorem Means.unique {lib : Functions V} {G : Graph N} {ks : List (Ref N)} {v : V} {es es' : List (Event V)}
    (means : Means lib G ks v es) (means' : Means lib G ks v es') : es = es' := by
  induction means generalizing es' with
  | done =>
    cases means'
    rfl
  | raw_stop result =>
    cases means' with
    | raw_stop => rfl
    | raw_call result' => rw [result] at result'; cases result'
  | raw_call result _ ih =>
    cases means' with
    | raw_stop result' => rw [result] at result'; cases result'
    | raw_call result' rest =>
      rw [result] at result'
      cases result'
      rw [ih rest]
  | nothing node _ ih =>
    cases means' with
    | nothing _ rest => exact ih rest
    | _ => simp_all only [reduceCtorEq]
  | exit node =>
    cases means' with
    | exit => rfl
    | _ => simp_all only [reduceCtorEq]
  | primitive_stop node result =>
    cases means' with
    | primitive_stop node' =>
      rw [node] at node'
      cases node'
      rfl
    | _ => simp_all only [Node.primitive.injEq, reduceCtorEq, Prod.mk.injEq, and_false]
  | primitive_next node result _ ih =>
    cases means' with
    | primitive_next node' result' rest =>
      rw [node] at node'
      cases node'
      rw [result] at result'
      cases result'
      rw [ih rest]
    | _ => simp_all only [Node.primitive.injEq, reduceCtorEq, Prod.mk.injEq, and_false]
  | primitive_call node result _ ih =>
    cases means' with
    | primitive_call node' result' rest =>
      rw [node] at node'
      cases node'
      rw [result] at result'
      cases result'
      rw [ih rest]
    | _ => simp_all only [Node.primitive.injEq, reduceCtorEq, Prod.mk.injEq, and_false]
  | all node _ ih =>
    cases means' with
    | all node' rest =>
      rw [node] at node'
      cases node'
      exact ih rest
    | _ => simp_all only [reduceCtorEq]
  | any node ess each ih =>
    cases means' with
    | any node' ess' each' =>
      rw [node] at node'
      cases node'
      apply List.flatMap_congr
      intro n mem
      have lt := List.mem_range.mp mem
      exact ih n _ (List.getElem?_eq_getElem lt) (each' n _ (List.getElem?_eq_getElem lt))
    | _ => simp_all only [reduceCtorEq]

/-! ## What a compiled function stands for -/

/-- The function stands for these instructions, one after the other. The `known` nodes have a trampoline. -/
inductive Implements (G : Graph N) (known : Fin N → Prop) : Func → List (Ref N) → Prop
  | raw (k : Nat) : Implements G known (.raw k) [.func k]
  | trampoline {i : Fin N} (target : known i) : Implements G known (.trampoline i) [.node i]
  | nothing : Implements G known .nothing []
  | skip {i : Fin N} {f : Func} {rs : List (Ref N)} (node : G i = .nothing) (rest : Implements G known f rs) :
      Implements G known f (.node i :: rs)
  | trail {i : Fin N} {f : Func} {rs : List (Ref N)} (node : G i = .nothing) (rest : Implements G known f rs) :
      Implements G known f (rs ++ [.node i])
  | exit {i : Fin N} (node : G i = .exit) : Implements G known .exit [.node i]
  | empty {i : Fin N} (node : G i = .any []) : Implements G known .exit [.node i]
  | primitive {i : Fin N} {f : Value} {narg : Nat} {args : List Value} (node : G i = .primitive f narg args) :
      Implements G known (.primitive f (unpack args narg)) [.node i]
  | chain_primitive {i : Fin N} {f : Value} {narg : Nat} {args : List Value} {chain : Func} {rs : List (Ref N)}
      (node : G i = .primitive f narg args) (rest : Implements G known chain rs) :
      Implements G known (.chain_primitive f (unpack args narg) chain) (.node i :: rs)
  | chain_call {r : Ref N} {call chain : Func} {rs : List (Ref N)} (first : Implements G known call [r])
      (rest : Implements G known chain rs) : Implements G known (.chain_call call chain) (r :: rs)
  | all {i : Fin N} {edges : List (Ref N)} {f : Func} (node : G i = .all edges) (each : Implements G known f edges) :
      Implements G known f [.node i]
  | one {i : Fin N} {e : Ref N} {f : Func} (node : G i = .any [e]) (edge : Implements G known f [e]) :
      Implements G known f [.node i]
  | any {i : Fin N} {edges : List (Ref N)} {branches : List (Option Func)} (node : G i = .any edges)
      (length : branches.length = edges.length)
      (skips : ∀ (n : Nat) (e : Ref N), edges[n]? = some e → branches[n]? = some none → isnothing G e = true)
      (calls : ∀ (n : Nat) (e : Ref N) (f : Func), edges[n]? = some e → branches[n]? = some (some f) → Implements G known f [e]) :
      Implements G known (.any branches) [.node i]

/-- What the branches of an `any` stand for. -/
structure Branches (G : Graph N) (known : Fin N → Prop) (edges : List (Ref N)) (branches : List (Option Func)) : Prop where
  length : branches.length = edges.length
  skips : ∀ (n : Nat) (e : Ref N), edges[n]? = some e → branches[n]? = some none → isnothing G e = true
  calls : ∀ (n : Nat) (e : Ref N) (f : Func), edges[n]? = some e → branches[n]? = some (some f) → Implements G known f [e]

theorem Branches.tail {G : Graph N} {known : Fin N → Prop} {e : Ref N} {edges : List (Ref N)} {b : Option Func}
    {branches : List (Option Func)} (each : Branches G known (e :: edges) (b :: branches)) : Branches G known edges branches where
  length := Nat.succ.inj each.length
  skips n e' named made := each.skips (n + 1) e' named made
  calls n e' f named made := each.calls (n + 1) e' f named made

/-- The function stands for the node by what the node is, not by a trampoline. -/
inductive Unfolds (G : Graph N) (known : Fin N → Prop) : Func → Fin N → Prop
  | nothing {i : Fin N} (node : G i = .nothing) : Unfolds G known .nothing i
  | exit {i : Fin N} (node : G i = .exit) : Unfolds G known .exit i
  | empty {i : Fin N} (node : G i = .any []) : Unfolds G known .exit i
  | primitive {i : Fin N} {f : Value} {narg : Nat} {args : List Value} (node : G i = .primitive f narg args) :
      Unfolds G known (.primitive f (unpack args narg)) i
  | all {i : Fin N} {edges : List (Ref N)} {f : Func} (node : G i = .all edges) (each : Implements G known f edges) :
      Unfolds G known f i
  | one {i : Fin N} {e : Ref N} {f : Func} (node : G i = .any [e]) (edge : Implements G known f [e]) : Unfolds G known f i
  | any {i : Fin N} {edges : List (Ref N)} {branches : List (Option Func)} (node : G i = .any edges)
      (each : Branches G known edges branches) : Unfolds G known (.any branches) i

theorem Unfolds.implements {G : Graph N} {known : Fin N → Prop} {f : Func} {i : Fin N} (unfolds : Unfolds G known f i) :
    Implements G known f [.node i] := by
  cases unfolds with
  | nothing node => exact .skip node .nothing
  | exit node => exact .exit node
  | empty node => exact .empty node
  | primitive node => exact .primitive node
  | all node each => exact .all node each
  | one node edge => exact .one node edge
  | any node each => exact .any node each.length each.skips each.calls

section Known

variable {G : Graph N} {known known' : Fin N → Prop} (grows : ∀ i, known i → known' i)
include grows

theorem Implements.mono {f : Func} {rs : List (Ref N)} (impl : Implements G known f rs) : Implements G known' f rs := by
  induction impl with
  | raw k => exact .raw k
  | trampoline target => exact .trampoline (grows _ target)
  | nothing => exact .nothing
  | skip node _ ih => exact .skip node ih
  | trail node _ ih => exact .trail node ih
  | exit node => exact .exit node
  | empty node => exact .empty node
  | primitive node => exact .primitive node
  | chain_primitive node _ ih => exact .chain_primitive node ih
  | chain_call _ _ first rest => exact .chain_call first rest
  | all node _ ih => exact .all node ih
  | one node _ ih => exact .one node ih
  | any node length skips _ ih => exact .any node length skips ih

theorem Branches.mono {edges : List (Ref N)} {branches : List (Option Func)} (each : Branches G known edges branches) :
    Branches G known' edges branches :=
  ⟨each.length, each.skips, fun n e f named made => (each.calls n e f named made).mono grows⟩

theorem Unfolds.mono {f : Func} {i : Fin N} (unfolds : Unfolds G known f i) : Unfolds G known' f i := by
  cases unfolds with
  | nothing node => exact .nothing node
  | exit node => exact .exit node
  | empty node => exact .empty node
  | primitive node => exact .primitive node
  | all node each => exact .all node (each.mono grows)
  | one node edge => exact .one node (edge.mono grows)
  | any node each => exact .any node (each.mono grows)

end Known

/-- The nodes with a trampoline whose target is set, or will be. -/
def Emitter.Known (s : Emitter N) (i : Fin N) : Prop := (s.targets i).isSome = true ∨ s.emitting i = some .trampoline

/-- What the compiler has made so far stands for its nodes. -/
structure Emitter.Sound (G : Graph N) (s : Emitter N) : Prop where
  emitted : ∀ i f, s.emitted i = some f → Implements G s.Known f [.node i]
  targets : ∀ i f, s.targets i = some f → Unfolds G s.Known f i

/-- Trampolines are kept, and every node that the compiler starts on it finishes. -/
structure Emitter.Grows (s t : Emitter N) : Prop where
  known : ∀ i, s.Known i → t.Known i
  finished : ∀ i, s.emitting i = none → t.emitting i = none

theorem Emitter.Grows.refl (s : Emitter N) : s.Grows s := ⟨fun _ known => known, fun _ none' => none'⟩

theorem Emitter.Grows.trans {s t u : Emitter N} (first : s.Grows t) (second : t.Grows u) : s.Grows u :=
  ⟨fun i known => second.known i (first.known i known), fun i none' => second.finished i (first.finished i none')⟩

section Compile

variable {loads : Chunk → Bool} {G : Graph N}

/-- The compiler gives a function that stands for the node. -/
def Emits (G : Graph N) (emit : Ref N → Emitter N → Except (Stop String) (Func × Emitter N)) : Prop :=
  ∀ r s f t, s.Sound G → emit r s = .ok (f, t) → Implements G t.Known f [r] ∧ t.Sound G ∧ s.Grows t

theorem isnothing_iff {r : Ref N} : isnothing G r = true ↔ ∃ i, r = .node i ∧ G i = .nothing := by
  cases r with
  | func k => simp [isnothing]
  | node i =>
    simp only [isnothing, Ref.node.injEq, exists_eq_left']
    cases G i <;> simp

theorem Implements.trails {known : Fin N → Prop} {f : Func} {rs ns : List (Ref N)} (impl : Implements G known f rs)
    (nothing : ∀ r ∈ ns, isnothing G r = true) : Implements G known f (rs ++ ns) := by
  induction ns generalizing rs with
  | nil => rwa [List.append_nil]
  | cons r ns ih =>
    obtain ⟨i, rfl, node⟩ := isnothing_iff.mp (nothing r List.mem_cons_self)
    rw [List.append_cons]
    exact ih (impl.trail node) fun r mem => nothing r (List.mem_cons_of_mem _ mem)

theorem Implements.skips {known : Fin N → Prop} {ns : List (Ref N)} (nothing : ∀ r ∈ ns, isnothing G r = true) :
    Implements G known .nothing ns := by
  have trails : Implements G known .nothing ([] ++ ns) := .trails .nothing nothing
  rwa [List.nil_append] at trails

theorem loaded_ok {α : Type} {chunk : Chunk} {f g : α} {s t : Emitter N} (ok : loaded loads chunk f s = .ok (g, t)) :
    g = f ∧ t = s := by
  unfold loaded at ok
  split at ok
  · cases ok
    exact ⟨rfl, rfl⟩
  · cases ok

variable {emit : Ref N → Emitter N → Except (Stop String) (Func × Emitter N)}

theorem emit_chain_ok (emits : Emits G emit) {e : Ref N} {chain : Func} {rs : List (Ref N)} {s t : Emitter N}
    (rest : Implements G s.Known chain rs) {f : Func} (sound : s.Sound G)
    (ok : emit_chain loads G emit e (some chain) s = .ok (f, t)) :
    Implements G t.Known f (e :: rs) ∧ t.Sound G ∧ s.Grows t := by
  have call (ok : (emit e s >>= fun r => loaded loads .chain_call (.chain_call r.1 chain) r.2) = .ok (f, t)) :
      Implements G t.Known f (e :: rs) ∧ t.Sound G ∧ s.Grows t := by
    cases first : emit e s with
    | error stop =>
      rw [first] at ok
      cases ok
    | ok r =>
      rw [first] at ok
      obtain ⟨rfl, rfl⟩ := loaded_ok ok
      obtain ⟨impl, sound, grows⟩ := emits e s r.1 r.2 sound first
      exact ⟨impl.chain_call (rest.mono grows.known), sound, grows⟩
  unfold emit_chain at ok
  cases e with
  | func k => exact call ok
  | node i =>
    cases node : G i with
    | primitive g narg args =>
      simp only [node] at ok
      obtain ⟨rfl, rfl⟩ := loaded_ok ok
      exact ⟨.chain_primitive node rest, sound, .refl _⟩
    | _ =>
      simp only [node] at ok
      exact call ok

theorem emit_edges_ok (emits : Emits G emit) {edges : List (Ref N)} {s t : Emitter N} {chain : Option Func} (sound : s.Sound G)
    (ok : emit_edges loads G emit edges s = .ok (chain, t)) : (t.Sound G ∧ s.Grows t) ∧
      (∀ f, chain = some f → Implements G t.Known f edges) ∧ (chain = none → ∀ e ∈ edges, isnothing G e = true) := by
  induction edges generalizing chain t with
  | nil =>
    cases ok
    exact ⟨⟨sound, .refl s⟩, fun f made => (Option.some_ne_none f made.symm).elim, fun _ e mem => absurd mem List.not_mem_nil⟩
  | cons e edges ih =>
    rw [emit_edges] at ok
    cases rest : emit_edges loads G emit edges s with
    | error stop =>
      rw [rest] at ok
      cases ok
    | ok r =>
      obtain ⟨chain', u⟩ := r
      obtain ⟨⟨sound', grows⟩, some', none'⟩ := ih rest
      rw [rest] at ok
      by_cases skip : isnothing G e = true
      · simp only [bind, Except.bind, if_pos skip, pure, Except.pure] at ok
        cases ok
        obtain ⟨i, rfl, node⟩ := isnothing_iff.mp skip
        refine ⟨⟨sound', grows⟩, fun f made => (some' f made).skip node, fun made => ?_⟩
        exact List.forall_mem_cons.mpr ⟨skip, none' made⟩
      · simp only [bind, Except.bind, if_neg skip] at ok
        cases made : emit_chain loads G emit e chain' u with
        | error stop =>
          rw [made] at ok
          cases ok
        | ok r =>
          rw [made] at ok
          cases ok
          have done : Implements G r.2.Known r.1 (e :: edges) ∧ r.2.Sound G ∧ u.Grows r.2 := by
            cases chain' with
            | none =>
              obtain ⟨impl, sound'', grows'⟩ := emits e u r.1 r.2 sound' made
              exact ⟨impl.trails (none' rfl), sound'', grows'⟩
            | some next => exact emit_chain_ok emits (some' next rfl) sound' made
          obtain ⟨impl, sound'', grows'⟩ := done
          exact ⟨⟨sound'', grows.trans grows'⟩, fun f same => Option.some.inj same ▸ impl, fun same => by cases same⟩

theorem emit_all_ok (emits : Emits G emit) {edges : List (Ref N)} {s t : Emitter N} {f : Func} (sound : s.Sound G)
    (ok : emit_all loads G emit edges s = .ok (f, t)) : Implements G t.Known f edges ∧ t.Sound G ∧ s.Grows t := by
  unfold emit_all at ok
  cases made : emit_edges loads G emit edges s with
  | error stop =>
    rw [made] at ok
    cases ok
  | ok r =>
    obtain ⟨chain, u⟩ := r
    obtain ⟨⟨sound', grows⟩, some', none'⟩ := emit_edges_ok emits sound made
    rw [made] at ok
    cases chain with
    | some g =>
      cases ok
      exact ⟨some' f rfl, sound', grows⟩
    | none =>
      obtain ⟨rfl, rfl⟩ := loaded_ok ok
      exact ⟨.skips (none' rfl), sound', grows⟩

theorem emit_branches_ok (emits : Emits G emit) {edges : List (Ref N)} {s t : Emitter N} {branches : List (Option Func)}
    (sound : s.Sound G) (ok : emit_branches G emit edges s = .ok (branches, t)) :
    Branches G t.Known edges branches ∧ t.Sound G ∧ s.Grows t := by
  induction edges generalizing branches s t with
  | nil =>
    cases ok
    exact ⟨⟨rfl, fun n e named => by simp at named, fun n e f named => by simp at named⟩, sound, .refl s⟩
  | cons e edges ih =>
    rw [emit_branches] at ok
    by_cases skip : isnothing G e = true
    · rw [if_pos skip] at ok
      cases rest : emit_branches G emit edges s with
      | error stop =>
        rw [rest] at ok
        cases ok
      | ok r =>
        obtain ⟨each, sound', grows⟩ := ih sound rest
        rw [rest] at ok
        cases ok
        refine ⟨⟨congrArg (· + 1) each.length, fun n e' named none' => ?_, fun n e' f named some' => ?_⟩, sound', grows⟩
        · cases n with
          | zero =>
            cases named
            exact skip
          | succ n => exact each.skips n e' named none'
        · cases n with
          | zero => cases some'
          | succ n => exact each.calls n e' f named some'
    · rw [if_neg skip] at ok
      cases first : emit e s with
      | error stop =>
        rw [first] at ok
        cases ok
      | ok c =>
        obtain ⟨impl, sound', grows⟩ := emits e s c.1 c.2 sound first
        rw [first] at ok
        simp only [bind, Except.bind] at ok
        cases rest : emit_branches G emit edges c.2 with
        | error stop =>
          rw [rest] at ok
          cases ok
        | ok r =>
          obtain ⟨each, sound'', grows'⟩ := ih sound' rest
          rw [rest] at ok
          cases ok
          refine ⟨⟨congrArg (· + 1) each.length, fun n e' named none' => ?_, fun n e' f named some' => ?_⟩, sound'',
            grows.trans grows'⟩
          · cases n with
            | zero => cases none'
            | succ n => exact each.skips n e' named none'
          · cases n with
            | zero =>
              cases named
              cases some'
              exact impl.mono grows'.known
            | succ n => exact each.calls n e' f named some'

theorem emit_node_ok (emits : Emits G emit) {i : Fin N} {s t : Emitter N} {f : Func} (sound : s.Sound G)
    (ok : emit_node loads G emit (G i) s = .ok (f, t)) : Unfolds G t.Known f i ∧ t.Sound G ∧ s.Grows t := by
  unfold emit_node at ok
  cases node : G i with
  | nothing =>
    simp only [node] at ok
    obtain ⟨rfl, rfl⟩ := loaded_ok ok
    exact ⟨.nothing node, sound, .refl _⟩
  | exit =>
    simp only [node] at ok
    cases ok
    exact ⟨.exit node, sound, .refl _⟩
  | primitive g narg args =>
    simp only [node] at ok
    obtain ⟨rfl, rfl⟩ := loaded_ok ok
    exact ⟨.primitive node, sound, .refl _⟩
  | exported name narg args =>
    simp only [node] at ok
    cases ok
  | all edges =>
    simp only [node] at ok
    obtain ⟨impl, done⟩ := emit_all_ok emits sound ok
    exact ⟨.all node impl, done⟩
  | any edges =>
    simp only [node] at ok
    match edges, node, ok with
    | [], node, ok =>
      cases ok
      exact ⟨.empty node, sound, .refl _⟩
    | [e], node, ok =>
      obtain ⟨impl, done⟩ := emits e s f t sound ok
      exact ⟨.one node impl, done⟩
    | e :: e' :: edges, node, ok =>
      simp only [emit_any] at ok
      cases made : emit_branches G emit (e :: e' :: edges) s with
      | error stop =>
        rw [made] at ok
        cases ok
      | ok r =>
        obtain ⟨each, done⟩ := emit_branches_ok emits sound made
        rw [made] at ok
        obtain ⟨rfl, rfl⟩ := loaded_ok ok
        exact ⟨.any node each, done⟩

theorem Emitter.mark_emitting (s : Emitter N) (i : Fin N) (mark : Mark) (j : Fin N) :
    (s.mark i mark).emitting j = if j = i then some mark else s.emitting j := Function.update_apply _ _ _ _

theorem Emitter.finish_emitted (s : Emitter N) (i : Fin N) (f : Func) (j : Fin N) :
    (s.finish i f).emitted j = if j = i then some f else s.emitted j := Function.update_apply _ _ _ _

theorem Emitter.finish_emitting (s : Emitter N) (i : Fin N) (f : Func) (j : Fin N) :
    (s.finish i f).emitting j = if j = i then none else s.emitting j := Function.update_apply _ _ _ _

theorem Emitter.mark_known (s : Emitter N) {i : Fin N} {mark : Mark} (busy : s.emitting i ≠ some .trampoline) (j : Fin N)
    (known : s.Known j) : (s.mark i mark).Known j := by
  rcases known with target | marked
  · exact .inl target
  · right
    have other : j ≠ i := by
      rintro rfl
      exact busy marked
    rw [Emitter.mark_emitting, if_neg other, marked]

theorem Emitter.Sound.mark {s : Emitter N} (sound : s.Sound G) {i : Fin N} {mark : Mark}
    (busy : s.emitting i ≠ some .trampoline) : (s.mark i mark).Sound G where
  emitted j f made := (sound.emitted j f made).mono (s.mark_known busy)
  targets j f made := (sound.targets j f made).mono (s.mark_known busy)

theorem Emitter.finish_known (s : Emitter N) (i : Fin N) (f : Func) (j : Fin N) (known : s.Known j) : (s.finish i f).Known j := by
  unfold Emitter.Known Emitter.finish at *
  by_cases same : j = i
  · cases same
    left
    split
    · simp only [Function.update_self, Option.isSome_some]
    · rename_i unmarked
      rcases known with target | marked
      · exact target
      · exact absurd marked unmarked
  · rcases known with target | marked
    · left
      split
      · simp only [Function.update_of_ne same]
        exact target
      · exact target
    · right
      simp only [Function.update_of_ne same]
      exact marked

theorem Emitter.Sound.finish {s : Emitter N} (sound : s.Sound G) {i : Fin N} {f : Func} (unfolds : Unfolds G s.Known f i) :
    (s.finish i f).Sound G := by
  have known := s.finish_known i f
  constructor
  · intro j g made
    by_cases same : j = i
    · rw [Emitter.finish_emitted, if_pos same] at made
      rw [same, ← Option.some.inj made]
      exact unfolds.implements.mono known
    · rw [Emitter.finish_emitted, if_neg same] at made
      exact (sound.emitted j g made).mono known
  · intro j g made
    have updated (made : Function.update s.targets i (some f) j = some g) : Unfolds G (s.finish i f).Known g j := by
      by_cases same : j = i
      · rw [same, Function.update_self] at made
        rw [same, ← Option.some.inj made]
        exact unfolds.mono known
      · rw [Function.update_of_ne same] at made
        exact (sound.targets j g made).mono known
    cases marked : s.emitting i with
    | none =>
      simp only [Emitter.finish, marked] at made
      exact (sound.targets j g made).mono known
    | some mark =>
      cases mark with
      | busy =>
        simp only [Emitter.finish, marked] at made
        exact (sound.targets j g made).mono known
      | trampoline =>
        simp only [Emitter.finish, marked] at made
        exact updated made

/-- A node that was marked when the compiler started on it is done. -/
theorem Emitter.Grows.finish {s t : Emitter N} {i : Fin N} (start : s.emitting i = none) (grows : (s.mark i .busy).Grows t) (f : Func) :
    s.Grows (t.finish i f) := by
  constructor
  · intro j known
    apply t.finish_known i f j
    apply grows.known j
    exact s.mark_known (by simp [start]) j known
  · intro j none'
    by_cases same : j = i
    · rw [Emitter.finish_emitting, if_pos same]
    · rw [Emitter.finish_emitting, if_neg same]
      apply grows.finished
      rw [Emitter.mark_emitting, if_neg same, none']

/-- The compiler gives functions that stand for their nodes. -/
theorem compile_node_emits (fuel : Nat) : Emits G (compile_node loads G fuel) := by
  induction fuel with
  | zero =>
    intro r s f t _ ok
    cases ok
  | succ fuel ih =>
    intro r s f t sound ok
    cases r with
    | func k =>
      cases ok
      exact ⟨.raw k, sound, .refl _⟩
    | node i =>
      rw [compile_node] at ok
      cases emitted : s.emitted i with
      | some g =>
        rw [emitted] at ok
        cases ok
        exact ⟨sound.emitted i f emitted, sound, .refl _⟩
      | none =>
        rw [emitted] at ok
        cases emitting : s.emitting i with
        | some mark =>
          rw [emitting] at ok
          cases mark with
          | trampoline =>
            cases ok
            exact ⟨.trampoline (.inr emitting), sound, .refl _⟩
          | busy =>
            obtain ⟨rfl, rfl⟩ := loaded_ok ok
            have unmarked : s.emitting i ≠ some .trampoline := by simp [emitting]
            have marked : (s.mark i .trampoline).emitting i = some .trampoline := Function.update_self _ _ _
            refine ⟨.trampoline (.inr marked), sound.mark unmarked, s.mark_known unmarked, fun j none' => ?_⟩
            have other : j ≠ i := by
              rintro rfl
              rw [emitting] at none'
              cases none'
            rw [Emitter.mark_emitting, if_neg other, none']
        | none =>
          simp only [emitting] at ok
          cases made : emit_node loads G (compile_node loads G fuel) (G i) (s.mark i .busy) with
          | error stop =>
            rw [made] at ok
            cases ok
          | ok r =>
            rw [made] at ok
            cases ok
            have unmarked : s.emitting i ≠ some .trampoline := by simp [emitting]
            obtain ⟨unfolds, sound', grows⟩ := emit_node_ok ih (sound.mark unmarked) made
            exact ⟨unfolds.implements.mono (r.2.finish_known i r.1), sound'.finish unfolds, grows.finish emitting r.1⟩

/-- The compiler before its first node. -/
def Emitter.start : Emitter N := ⟨fun _ => none, fun _ => none, fun _ => none⟩

/-- Compiled from the start, every trampoline has its target. -/
theorem compile_node_closed {fuel : Nat} {root : Ref N} {f : Func} {s : Emitter N}
    (compiled : compile_node loads G fuel root .start = .ok (f, s)) :
    Implements G s.Known f [root] ∧ (∀ i g, s.targets i = some g → Unfolds G s.Known g i) ∧
      ∀ i, s.Known i → ∃ g, s.targets i = some g := by
  have sound : Emitter.start.Sound G := by
    constructor
    · intro i f made
      cases made
    · intro i f made
      cases made
  obtain ⟨impl, sound', grows⟩ := compile_node_emits fuel root .start f s sound compiled
  refine ⟨impl, sound'.targets, fun i known => ?_⟩
  rcases known with target | marked
  · exact Option.isSome_iff_exists.mp target
  · rw [grows.finished i rfl] at marked
    cases marked

end Compile

end M2.Control
