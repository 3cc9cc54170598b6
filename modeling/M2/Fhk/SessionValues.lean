import M2.Fhk.Session

/-!
# Requests, guards and values of a session

What holds in all states of all sessions: every value is the one that was returned for it, each model instance is called once
and each request is made once, and a guard passes only on a value that is there.
-/
namespace M2.Fhk
open M2.Lib

variable {G : Graph} {D E : Type}

theorem Yield.Settled.mono {y : Yield G D} {out out' : Answers G D E} (settled : y.Settled out) (le : out.Le out') :
    y.Settled out' := by
  cases y with
  | shape group => exact le.known _ _ settled
  | mapcall map inst => exact le.known _ _ settled
  | vref x => exact le.present x settled
  | modcall mref args ret => trivial

theorem Memory.Moves.yields {caller : Caller G D E} {mem mem' : Memory G D E} (moves : mem.Moves caller mem') :
    mem.yields <+: mem'.yields := by
  induction moves with
  | refl => exact List.prefix_rfl
  | tail _ last ih =>
    cases last with
    | write _ yields =>
      rw [yields]
      exact ih
    | yield y _ _ yields =>
      rw [yields]
      exact ih.trans (List.prefix_append _ _)

theorem Memory.Moves.calls {caller : Caller G D E} {mem mem' : Memory G D E} (moves : mem.Moves caller mem') :
    mem.calls ⊆ mem'.calls := (moves.yields.filterMap _).subset

namespace Problem
variable {P : Problem} {caller : Caller P.G D E} {depth : Nat} {c : Config P.G (Memory P.G D E)} {s s' : Search P.G}
  {mem mem' : Memory P.G D E} {x : P.G.VI}

/-! ## Requests -/

/-- What was asked for is there, and was asked for once. -/
structure Asked (mem : Memory P.G D E) : Prop where
  once : (mem.yields.filter fun y => y.call.isNone).Nodup
  settled : ∀ y ∈ mem.yields, y.Settled mem.out

theorem Asked.move (honest : caller.Honest) (answering : caller.Answering) (asked : Asked mem) (move : mem.Move caller mem') :
    Asked mem' := by
  cases move with
  | write out yields =>
    constructor
    · rw [yields]
      exact asked.once
    · rw [yields, out]
      exact asked.settled
  | yield y due out yields =>
    constructor
    · rw [yields, List.filter_append, List.nodup_append]
      refine ⟨asked.once, (List.nodup_singleton y).filter _, ?_⟩
      intro a earlier b here same
      obtain ⟨now, request⟩ := List.mem_filter.mp here
      cases List.mem_singleton.mp now
      -- what is due is not there yet
      have settled := asked.settled a (List.mem_filter.mp earlier).1
      rw [same] at settled
      cases y with
      | modcall mref args ret => cases request
      | shape group => exact due settled
      | mapcall map inst => exact due settled
      | vref x => exact due settled
    · intro z there
      rw [yields, List.mem_append, List.mem_singleton] at there
      rw [out]
      rcases there with earlier | rfl
      · exact (asked.settled z earlier).mono (honest y mem.out)
      · exact answering z mem.out

theorem Asked.moves (honest : caller.Honest) (answering : caller.Answering) (asked : Asked mem) (moves : mem.Moves caller mem') :
    Asked mem' := by
  induction moves with
  | refl => exact asked
  | tail _ last ih => exact ih.move honest answering last

theorem asked_invariant (owed : P.Owed caller) (answering : caller.Answering) :
    Invariant caller fun (_ : Search P.G) (mem : Memory P.G D E) => Asked mem where
  start mem new := by
    obtain ⟨out, value, rbuf, scratch, rfl⟩ := new
    refine ⟨List.nodup_nil, fun y there => ?_⟩
    cases there
  search _ _ _ _ asked _ _ := asked
  asks _ _ _ _ asked asks := asked.moves owed.honest answering asks.moves
  compute _ _ _ _ asked advances _ := asked.moves owed.honest answering advances.moves
  scan _ _ _ _ _ asked _ := asked
  client _ _ _ _ asked le := ⟨asked.once, fun y there => (asked.settled y there).mono le⟩

/-! ## Values stay -/

/-- Values that are there stay there. -/
def Stay (s : Search P.G) (mem : Memory P.G D E) (s' : Search P.G) (mem' : Memory P.G D E) : Prop :=
  ∀ x, Present s mem x → Present s' mem' x ∧ mem'.read x = mem.read x

theorem stay_of_kept (kept : mem.Kept mem') : Stay s mem s mem' := by
  intro x present
  unfold Present at present ⊢
  unfold Memory.read
  by_cases given : P.G.given x.1 = true
  · rw [if_pos given] at present ⊢
    rw [if_pos given, if_pos given]
    exact ⟨kept.out.present x present, kept.out.value x present⟩
  · rw [if_neg given] at present ⊢
    rw [if_neg given, if_neg given]
    exact ⟨present, by rw [kept.value]⟩

theorem stay_of_retains (retains : Retains s s') : Stay s mem s' mem := by
  intro x present
  unfold Present at present ⊢
  by_cases given : P.G.given x.1 = true
  · rw [if_pos given] at present ⊢
    exact ⟨present, rfl⟩
  · rw [if_neg given] at present ⊢
    exact ⟨(retains.value x).trans present, rfl⟩

/-- The value of an instance that has one is the one that its chain gives, also later. -/
theorem Settles.value_eq (settles : Settles s mem) (settles' : Settles s' mem') (chain : ∀ u, (s'.vs u).chain = (s.vs u).chain)
    (calls : mem.calls ⊆ mem'.calls) {u : P.G.VI} (set : (s.vs u).value = true) (set' : (s'.vs u).value = true) :
    mem'.value u = mem.value u := by
  obtain ⟨m, ex, k, args, ret, here, there, same⟩ := settles.sound.stored u set List.not_mem_nil
  obtain ⟨m', ex', k', args', ret', here', there', same'⟩ := settles'.sound.stored u set' List.not_mem_nil
  rw [slot_congr chain, here] at here'
  cases here'
  have one := List.inj_on_of_nodup_map settles'.sound.once (calls there) there' rfl
  cases one
  rw [same, same']

theorem stay_of_advances (owed : P.Owed caller) (settles : Settles s mem) {w : Search P.G × Memory P.G D E}
    (advances : Advances caller (s, mem) w) (settles' : Settles w.1 w.2) : Stay s mem w.1 w.2 := by
  intro x present
  unfold Present at present ⊢
  unfold Memory.read
  by_cases given : P.G.given x.1 = true
  · have out := advances.moves.out owed.honest
    rw [if_pos given] at present ⊢
    rw [if_pos given, if_pos given]
    exact ⟨out.present x present, out.value x present⟩
  · rw [if_neg given] at present ⊢
    rw [if_neg given, if_neg given]
    have set := advances.value x present
    exact ⟨set, settles.value_eq settles' advances.same.chain advances.moves.calls present set⟩

/-! ## Guards -/

/-- The instance of the variable that a shadow instance looks at. -/
def watched (w : P.G.WI) : P.G.VI := ((P.G.shadows w.1).xi, w.2)

/-- The guards that were evaluated on values. -/
structure Checked (caller : Caller P.G D E) (s : Search P.G) (mem : Memory P.G D E) : Prop where
  passed : ∀ w, (s.ss w).pass = true → (s.ss w).eval = true ∧ Present s mem (watched w) ∧
    caller.guard w.1 (mem.read (watched w)) = true
  given : ∀ w, P.G.given (watched w).1 = true → (s.ss w).eval = true → Present s mem (watched w) ∧
    (s.ss w).pass = caller.guard w.1 (mem.read (watched w))

theorem Checked.stay (checked : Checked caller s mem) (ss : s'.ss = s.ss) (stay : Stay s mem s' mem') : Checked caller s' mem' := by
  refine ⟨fun w => ?_, fun w given => ?_⟩
  · rw [ss]
    intro pass
    obtain ⟨eval, present, holds⟩ := checked.passed w pass
    obtain ⟨there, same⟩ := stay _ present
    rw [same]
    exact ⟨eval, there, holds⟩
  · rw [ss]
    intro eval
    obtain ⟨present, holds⟩ := checked.given w given eval
    obtain ⟨there, same⟩ := stay _ present
    rw [same]
    exact ⟨there, holds⟩

/-- The search for the variable of a shadow failed. -/
theorem Checked.setEval (checked : Checked caller s mem) {w : P.G.WI} (computed : P.G.given (watched w).1 = false)
    (ss : s'.ss = (s.setEval w).ss) (stay : Stay s mem s' mem) : Checked caller s' mem := by
  have bits {u : P.G.WI} (other : u ≠ w) : s'.ss u = s.ss u := by rw [ss, s.setEval_of_ne other]
  refine ⟨fun u pass => ?_, fun u given eval => ?_⟩
  · have old : (s.ss u).pass = true := by
      by_cases same : u = w
      · rw [same, ss, s.setEval_self] at pass
        rw [same]
        exact pass
      · rwa [bits same] at pass
    obtain ⟨eval, present, holds⟩ := checked.passed u old
    obtain ⟨there, read⟩ := stay _ present
    rw [read]
    refine ⟨?_, there, holds⟩
    by_cases same : u = w
    · rw [same, ss, s.setEval_self]
    · rw [bits same]
      exact eval
  · have other : u ≠ w := by
      rintro rfl
      rw [computed] at given
      cases given
    rw [bits other] at eval ⊢
    obtain ⟨present, holds⟩ := checked.given u given eval
    obtain ⟨there, read⟩ := stay _ present
    rw [read]
    exact ⟨there, holds⟩

theorem Checked.scan (checked : Checked caller s mem) {w : Fin P.G.nw} {insts : List Inst}
    (present : ∀ i ∈ insts, Present s mem ((P.G.shadows w).xi, i)) :
    Checked caller (s.checkscan (fun w i => caller.guard w (mem.read ((P.G.shadows w).xi, i))) w insts) mem := by
  refine ⟨fun u pass => ?_, fun u given eval => ?_⟩
  · by_cases scanned : u.1 = w ∧ u.2 ∈ insts
    · obtain ⟨rfl, inside⟩ := scanned
      rw [s.checkscan_of_mem inside] at pass ⊢
      refine ⟨rfl, present u.2 inside, ?_⟩
      rcases Bool.or_eq_true_iff.mp pass with old | now
      · exact (checked.passed u old).2.2
      · exact now
    · rw [s.checkscan_of_not scanned] at pass ⊢
      exact checked.passed u pass
  · by_cases scanned : u.1 = w ∧ u.2 ∈ insts
    · obtain ⟨rfl, inside⟩ := scanned
      rw [s.checkscan_of_mem inside]
      refine ⟨present u.2 inside, ?_⟩
      cases old : (s.ss (u.1, u.2)).pass with
      | false => exact Bool.false_or _
      | true => exact (checked.passed u old).2.2.symm
    · rw [s.checkscan_of_not scanned] at eval ⊢
      exact checked.given u given eval

end Problem

/-! ## A caller that sets what it is asked for -/

namespace Caller

/-- Given values are what the memory started with; requests make them, the shapes and the maps known. -/
def setting (model : G.MI → List (Nat × List D) → Nat → Nat → D) (guard : Fin G.nw → D → Bool) : Caller G D Unit where
  answer y out :=
    match y with
    | .shape group => { out with kmap := fun map => map == group || out.kmap map }
    | .mapcall map inst =>
      { out with
        kmap := fun k => k == SetterState.map_fromext G map || out.kmap k
        imap := fun k i => k == SetterState.map_fromext G map && i == inst || out.imap k i }
    | .vref x => { out with vmstate := Function.update out.vmstate x.1 (some fun i => out.missing (x.1, i) && i != x.2) }
    | .modcall _ _ _ => out
  model _ := model
  complex _ _ := false
  guard
  arena_alloc _ _ := 0

variable {model : G.MI → List (Nat × List D) → Nat → Nat → D} {guard : Fin G.nw → D → Bool}

theorem missing_setting (x u : G.VI) (out : Answers G D Unit) :
    ((setting model guard).answer (.vref x) out).missing u = (out.missing u && u != x) := by
  simp only [setting, Answers.missing]
  by_cases same : u.1 = x.1
  · rw [same, Function.update_self]
    have other : (u != x) = (u.2 != x.2) := by
      rw [Bool.eq_iff_iff, bne_iff_ne, bne_iff_ne, Ne, Ne, Prod.ext_iff]
      simp [same]
    rw [other]
  · rw [Function.update_of_ne same]
    have other : (u != x) = true := bne_iff_ne.mpr fun eq => same (congrArg Prod.fst eq)
    rw [other, Bool.and_true]

theorem setting_honest : (setting model guard).Honest := by
  intro y out
  cases y with
  | shape group =>
    refine ⟨fun _ => id, fun _ _ => rfl, fun map inst known => ?_⟩
    unfold Answers.known at known ⊢
    by_cases const : 0 ≤ map
    · rw [if_pos const] at known ⊢
      exact Bool.or_eq_true_iff.mpr (.inr known)
    · rw [if_neg const] at known ⊢
      exact known
  | mapcall map inst =>
    refine ⟨fun _ => id, fun _ _ => rfl, fun map inst known => ?_⟩
    unfold Answers.known at known ⊢
    by_cases const : 0 ≤ map
    · rw [if_pos const] at known ⊢
      exact Bool.or_eq_true_iff.mpr (.inr known)
    · rw [if_neg const] at known ⊢
      exact Bool.or_eq_true_iff.mpr (.inr known)
  | vref x =>
    refine ⟨fun u here => ?_, fun _ _ => rfl, fun _ _ => id⟩
    rw [missing_setting, here, Bool.false_and]
  | modcall mref args ret => exact .refl

theorem setting_answering : (setting model guard).Answering := by
  intro y out
  cases y with
  | shape group => simp [Yield.Settled, Answers.known, setting]
  | mapcall map inst =>
    simp only [Yield.Settled, Answers.known, setting]
    split
    · simp
    · simp
  | vref x =>
    rw [Yield.Settled, missing_setting]
    simp
  | modcall mref args ret => trivial

end Caller

namespace Ladder

/-- Each model adds one to the sum of its parameters. -/
def caller : Caller problem.G Nat Unit :=
  .setting (fun _ args _ _ => (args.map fun arg => arg.2.sum).sum + 1) fun _ d => d < 100

def memory : Memory problem.G Nat Unit :=
  .create ⟨fun _ => 7, fun _ => none, fun _ => false, fun _ _ => false, ()⟩ (fun _ => 0) (fun _ _ _ => 0) ⟨0, fun _ => none⟩

theorem vars_models (v : Fin 3) (ei : Nat) (e : Edge 2) (edge : (graph.vars v).models[ei]? = some e) :
    ei = 0 ∧ (v = 0 ∧ e = ⟨0, MAP_IDENT, 0⟩ ∨ v = 1 ∧ e = ⟨1, MAP_IDENT, 0⟩) := by
  have mem := List.mem_of_getElem? edge
  have lt := (List.getElem?_eq_some_iff.mp edge).1
  match v with
  | 0 => exact ⟨Nat.lt_one_iff.mp lt, .inl ⟨rfl, List.mem_singleton.mp mem⟩⟩
  | 1 => exact ⟨Nat.lt_one_iff.mp lt, .inr ⟨rfl, List.mem_singleton.mp mem⟩⟩
  | 2 => cases mem

theorem returns_eq (m : Fin 2) : ∃ v : Fin 3, (graph.models m).returns = [⟨v, MAP_IDENT, 0⟩] ∧
    (graph.vars v).models = [⟨m, MAP_IDENT, 0⟩] := by
  match m with
  | 0 => exact ⟨0, rfl, rfl⟩
  | 1 => exact ⟨1, rfl, rfl⟩

theorem maps_ident (m : Fin 2) : (∀ e ∈ (graph.models m).params, e.map = MAP_IDENT) ∧
    (∀ e ∈ (graph.models m).shadows, e.map = MAP_IDENT) ∧ ∀ e ∈ (graph.models m).gparams, e.idx = (2 : Fin 3) := by
  match m with
  | 0 =>
    refine ⟨fun e there => ?_, fun e there => ?_, fun e there => ?_⟩
    · cases List.mem_singleton.mp there
      rfl
    · cases List.mem_singleton.mp there
      rfl
    · cases there
  | 1 =>
    refine ⟨fun e there => ?_, fun e there => ?_, fun e there => ?_⟩
    · cases List.mem_singleton.mp there
      rfl
    · cases there
    · cases List.mem_singleton.mp there
      rfl

theorem wired : graph.Wired where
  returned v ei e edge := by
    obtain ⟨rfl, ⟨rfl, rfl⟩ | ⟨rfl, rfl⟩⟩ := vars_models v ei e edge
    · exact ⟨_, rfl, rfl⟩
    · exact ⟨_, rfl, rfl⟩
  listed m k r back := by
    obtain ⟨v, returns, models⟩ := returns_eq m
    rw [returns] at back
    have lt := (List.getElem?_eq_some_iff.mp back).1
    obtain rfl : k = 0 := Nat.lt_one_iff.mp lt
    cases back
    exact ⟨⟨m, MAP_IDENT, 0⟩, by rw [models]; exact List.mem_singleton_self _, rfl, rfl⟩
  given m e there := by
    rw [(maps_ident m).2.2 e there]
    rfl
  direct m _ := by
    obtain ⟨v, returns, -⟩ := returns_eq m
    exact .inl ⟨_, returns, rfl⟩

theorem mem_cands {u : graph.VI} {ei : Nat} {m : graph.MI} (cand : (ei, m) ∈ candInsts (xcands problem.maps u)) : m.2 = u.2 := by
  obtain ⟨e, edge, -, mapped⟩ := mem_candInsts cand
  obtain ⟨-, ⟨-, rfl⟩ | ⟨-, rfl⟩⟩ := vars_models u.1 ei e edge
  · exact List.mem_singleton.mp mapped
  · exact List.mem_singleton.mp mapped

theorem inverse : problem.maps.Inverse graph where
  space map _ low high := by
    rfl
  small _ := (by decide : 1 < 65536)
  inverse u ei m e r has cand edge back := by
    have same := mem_cands cand
    obtain ⟨v, returns, -⟩ := returns_eq e.idx
    rw [returns] at back
    cases List.mem_singleton.mp (List.mem_of_getElem? back)
    exact same ▸ List.mem_singleton_self _
  models u ei m has cand := by
    have same := mem_cands cand
    have inside : u.2.val < 1 := has
    have here : m.2.val < 1 := by rw [same]; exact inside
    exact here
  params m v has needs := by
    have inside : m.2.val < 1 := has
    obtain ⟨e, there, idx, mapped⟩ := Graph.mem_prems.mp needs
    have ident := (maps_ident m.1).1 e (List.mem_of_mem_take (List.mem_reverse.mp there))
    rw [Maps.mapE, if_pos ident, List.mem_singleton] at mapped
    have here : v.2.val < 1 := by rw [mapped]; exact inside
    exact here
  shadows m e i has there mapped := by
    have inside : m.2.val < 1 := has
    rw [Maps.mapE, if_pos ((maps_ident m.1).2.1 e there), List.mem_singleton] at mapped
    have here : i.val < 1 := by rw [mapped]; exact inside
    exact here

theorem alone : problem.maps.Alone graph := by
  intro m _ r back other
  obtain ⟨v, returns, -⟩ := returns_eq m
  rw [returns] at back
  cases List.mem_singleton.mp back
  exact absurd rfl other

theorem owed : problem.Owed caller := ⟨Caller.setting_honest, wired, inverse, alone⟩

/-- The state in which `S_select_chain` for `y` has returned. -/
def searched : Option (Config problem.G (Memory problem.G Nat Unit)) :=
  Run.steps (step problem.maps (Solver.ops problem.maps caller 2)) 17 (selectChain (Search.init problem.G) memory y)

def returned : Pc problem.G → Bool
  | .done none => true
  | _ => false

theorem returned_iff {pc : Pc problem.G} : returned pc = true ↔ pc = .done none := by
  constructor
  · intro here
    unfold returned at here
    split at here
    · rfl
    · cases here
  · rintro rfl
    rfl

theorem searched_run : ∃ c, searched = some c ∧ problem.Session caller 2 c ∧ c.pc = .done none ∧
    (c.s.vs y).chain.isSome = true ∧ (c.s.vs y).value = false ∧ (c.s.ss (⟨0, by decide⟩, 0)).pass = true := by
  have run : (searched.map fun c => (returned c.pc, (c.s.vs y).chain.isSome, (c.s.vs y).value, (c.s.ss (⟨0, by decide⟩, 0)).pass)) =
      some (true, true, false, true) := by decide +kernel
  obtain ⟨c, here, same⟩ := Option.map_eq_some_iff.mp run
  simp only [Prod.mk.injEq] at same
  refine ⟨c, here, ?_, returned_iff.mp same.1, same.2⟩
  have asked : problem.maps.Has problem.G y := Nat.one_pos
  have start : problem.Session caller 2 ⟨Search.init problem.G, memory, [], .done none⟩ := .start memory ⟨_, _, _, _, rfl⟩
  have call := start.call rfl y asked rfl (by decide +kernel : (Search.init problem.G).done y = false)
  exact call.run (Run.steps_reaches here)

/-- Then `S_compute_value` gives it a value. The value of `x` was there before. -/
theorem computed_run : ∃ (c : Config problem.G (Memory problem.G Nat Unit)) (s : Search problem.G) (v : Memory problem.G Nat Unit),
    (problem.Session caller 2 c ∧ (c.s.vs y).chain.isSome = true ∧ (c.s.vs y).value = false ∧
      Solver.S_compute_value problem.maps caller 2 (c.s, c.v) y = .ok (s, v) ∧ problem.Session caller 2 { c with s, v }) ∧
    (c.s.vs x).value = true ∧ (s.vs x).value = true ∧ (s.vs y).value = true ∧ v.value y = 9 ∧ v.yields.length = 4 := by
  have run : (searched.map fun c => match Solver.S_compute_value problem.maps caller 2 (c.s, c.v) y with
      | .ok (s, v) => some ((c.s.vs x).value, (s.vs x).value, (s.vs y).value, v.value y, v.yields.length)
      | .error _ => none) = some (some (true, true, true, 9, 4)) := by decide +kernel
  obtain ⟨c, here, session, returned, chain, unvalued, -⟩ := searched_run
  rw [here, Option.map_some, Option.some.injEq] at run
  split at run
  · rename_i s v computed
    simp only [Option.some.injEq, Prod.mk.injEq] at run
    exact ⟨c, s, v, ⟨session, chain, unvalued, computed, session.compute returned y chain unvalued s v computed⟩, run⟩
  · cases run

end Ladder

namespace Problem

/-! ## Results -/

/-- In every session with a caller that sets what it is asked for, no request is made twice, no model instance is called
twice, and everything that was asked for is there. -/
theorem requests_once (P : Problem) (caller : Caller P.G D E) (owed : P.Owed caller) (answering : caller.Answering) (depth : Nat)
    (c : Config P.G (Memory P.G D E)) (session : P.Session caller depth c) :
    (c.v.yields.filter fun y => y.call.isNone).Nodup ∧ (c.v.calls.map Prod.fst).Nodup ∧ ∀ y ∈ c.v.yields, y.Settled c.v.out := by
  obtain ⟨-, -, settles, asked⟩ := (asked_invariant owed answering).session owed session
  exact ⟨asked.once, settles.sound.once, asked.settled⟩

theorem requests_once_ladder : ∃ c : Config Ladder.problem.G (Memory Ladder.problem.G Nat Unit), c.v.yields.length = 4 ∧
    (c.v.yields.filter fun y => y.call.isNone).Nodup ∧ (c.v.calls.map Prod.fst).Nodup := by
  obtain ⟨c, s, v, ⟨-, -, -, -, session⟩, -, -, -, -, yields⟩ := Ladder.computed_run
  obtain ⟨once, calls, -⟩ := requests_once Ladder.problem Ladder.caller Ladder.owed Caller.setting_answering 2 _ session
  exact ⟨{ c with s, v }, yields, once, calls⟩

end Problem
end M2.Fhk
