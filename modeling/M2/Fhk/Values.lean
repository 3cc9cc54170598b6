import M2.Fhk.Returns

/-!
# Stored values

The invariant of `S_compute_value`. A variable instance that has a value has the one that the model instance of its chain
returned for it, in the one call of that model instance, whose arguments are the values that are stored now. While the
recursion goes down, the instances above have their value bit set but no value yet. The recorded chains come to an end, so
the recursion never asks for one of them.
-/
namespace M2.Fhk
open M2.Lib

namespace Search
variable {G : Graph} (s : Search G)

theorem setValue_self (x : G.VI) : ((s.setValue x).vs x).value = true := by simp [setValue]

theorem setValue_of_ne {x u : G.VI} (ne : u ≠ x) : (s.setValue x).vs u = s.vs u := by simp [setValue, ne]

@[simp] theorem setValue_chain (x u : G.VI) : ((s.setValue x).vs u).chain = (s.vs u).chain := by
  by_cases same : u = x
  · subst same; simp [setValue]
  · rw [setValue_of_ne s same]

theorem setModelValue_self (m : G.MI) : ((s.setModelValue m).ms m).value = true := by simp [setModelValue]

theorem setModelValue_of_ne {m n : G.MI} (ne : n ≠ m) : (s.setModelValue m).ms n = s.ms n := by simp [setModelValue, ne]

end Search

namespace Problem
variable {P : Problem} {D E : Type} {caller : Caller P.G D E} {s s' : Search P.G} {mem mem' : Memory P.G D E}
  {path : List P.G.VI} {mpath : List P.G.MI} {x : P.G.VI} {m : P.G.MI}

/-- What a model instance has returned is where it belongs. -/
def Returned (mem : Memory P.G D E) (m : P.G.MI) (ret : Nat → Nat → D) : Prop :=
  if (P.G.models m.1).noretbuf then ∀ w ∈ Solver.directReturns P.maps m ret, mem.value w.1 = w.2 else mem.rbuf m = ret

/-- A call is that of a selected model instance on values that are there. -/
structure Recorded (s : Search P.G) (mem : Memory P.G D E) (path : List P.G.VI) (mpath : List P.G.MI)
    (c : P.G.MI × List (Nat × List D) × (Nat → Nat → D)) : Prop where
  value : (s.ms c.1).value = true
  closed : c.1 ∉ mpath
  used : ∃ u, s.model u = some c.1
  prems : ∀ v ∈ P.G.prems P.maps c.1, (s.vs v).value = true ∧ v ∉ path
  given : ∀ e ∈ (P.G.models c.1.1).gparams, ∀ i ∈ P.maps.mapE e.map c.1.2, mem.out.missing (e.idx, i) = false
  args : c.2.1 = Solver.arguments P.maps mem c.1
  ret : Returned mem c.1 c.2.2

/-- The value of `u` is what the model instance of its chain returned for it. -/
def Stored (s : Search P.G) (mem : Memory P.G D E) (u : P.G.VI) : Prop :=
  ∃ m ex k args ret, slot s u = some (m, ex, k) ∧ (m, args, ret) ∈ mem.calls ∧ mem.value u = ret ex k

/-- The invariant, while the instances of `path` and the model instances of `mpath` are being computed. -/
structure Sound (s : Search P.G) (mem : Memory P.G D E) (path : List P.G.VI) (mpath : List P.G.MI) : Prop where
  called : ∀ m, (s.ms m).value = true → m ∉ mpath → ∃ c ∈ mem.calls, c.1 = m
  calls : ∀ c ∈ mem.calls, Recorded s mem path mpath c
  once : (mem.calls.map Prod.fst).Nodup
  stored : ∀ u, (s.vs u).value = true → u ∉ path → Stored s mem u

/-! ## What the invariant depends on -/

theorem model_congr (chain : ∀ u, (s'.vs u).chain = (s.vs u).chain) (u : P.G.VI) : s'.model u = s.model u := by
  rw [Search.model, Search.model, chain]

theorem slot_congr (chain : ∀ u, (s'.vs u).chain = (s.vs u).chain) (u : P.G.VI) : slot s' u = slot s u := by
  rw [slot, slot, chain]

theorem Chained.not_given (chained : P.Chained s) {u : P.G.VI} (chain : (s.vs u).chain.isSome = true) :
    P.G.given u.1 = false := by
  cases chained.grounded u chain with
  | intro model _ =>
    obtain ⟨ei, -, cand⟩ := chained.cand u _ model
    obtain ⟨e, edge, -, -⟩ := mem_candInsts cand
    rw [Graph.given, List.isEmpty_eq_false_iff_exists_mem]
    exact ⟨e, List.mem_of_getElem? edge⟩

theorem Chained.read (chained : P.Chained s) {u : P.G.VI} (chain : (s.vs u).chain.isSome = true) (mem : Memory P.G D E) :
    mem.read u = mem.value u := by
  rw [Memory.read, chained.not_given chain]
  rfl

/-- The arguments of a model instance, where `val` are the values. -/
def feed (val : P.G.VI → D) (m : P.G.MI) : List (Nat × List D) :=
  (P.G.models m.1).params.map fun e => (e.ex, (P.maps.mapE e.map m.2).map fun i => val (e.idx, i))

theorem feed_congr {val val' : P.G.VI → D} {m : P.G.MI} (computed : ∀ v ∈ P.G.prems P.maps m, val' v = val v)
    (given : ∀ e ∈ (P.G.models m.1).gparams, ∀ i ∈ P.maps.mapE e.map m.2, val' (e.idx, i) = val (e.idx, i)) :
    feed val' m = feed val m := by
  apply List.map_congr_left
  intro e there
  rw [Prod.mk.injEq]
  refine ⟨rfl, List.map_congr_left fun i listed => ?_⟩
  rw [← List.take_append_drop (P.G.models m.1).p_cparam (P.G.models m.1).params, List.mem_append] at there
  rcases there with computed' | given'
  · exact computed _ (Graph.mem_prems_of (List.mem_reverse.mpr computed') listed)
  · exact given e given' i listed

/-- The arguments of a model instance do not change where its values stay. -/
theorem Chained.arguments (chained : P.Chained s) (wired : P.G.Wired) (chain : ∀ v ∈ P.G.prems P.maps m, (s.vs v).chain.isSome = true)
    (given : ∀ e ∈ (P.G.models m.1).gparams, ∀ i ∈ P.maps.mapE e.map m.2, mem.out.missing (e.idx, i) = false)
    (out : mem.out.Le mem'.out) (value : ∀ v ∈ P.G.prems P.maps m, mem'.value v = mem.value v) :
    Solver.arguments P.maps mem' m = Solver.arguments P.maps mem m := by
  apply feed_congr
  · intro v there
    rw [chained.read (chain v there), chained.read (chain v there), value v there]
  · intro e there i listed
    rw [Memory.read, Memory.read, wired.given _ e there, if_pos rfl, if_pos rfl]
    exact out.value _ (given e there i listed)

theorem Recorded.arguments {c : P.G.MI × List (Nat × List D) × (Nat → Nat → D)} (wired : P.G.Wired) (chained : P.Chained s)
    (recorded : Recorded s mem path mpath c) (out : mem.out.Le mem'.out)
    (value : ∀ u, (s.vs u).value = true → u ∉ path → mem'.value u = mem.value u) :
    Solver.arguments P.maps mem' c.1 = Solver.arguments P.maps mem c.1 :=
  chained.arguments wired (fun v there => chained.value v (recorded.prems v there).1) recorded.given out fun v there =>
    value v (recorded.prems v there).1 (recorded.prems v there).2

/-- Changes that leave stored values and returns alone. -/
theorem Sound.change (wired : P.G.Wired) (chained : P.Chained s) (sound : Sound s mem path mpath) (out : mem.out.Le mem'.out)
    (calls : mem'.calls = mem.calls) (value : ∀ u, (s.vs u).value = true → u ∉ path → mem'.value u = mem.value u)
    (ret : ∀ c ∈ mem.calls, Returned mem' c.1 c.2.2) : Sound s mem' path mpath where
  called := by
    rw [calls]
    exact sound.called
  calls c there := by
    rw [calls] at there
    have old := sound.calls c there
    refine ⟨old.value, old.closed, old.used, old.prems, fun e mem i listed => out.present _ (old.given e mem i listed), ?_,
      ret c there⟩
    rw [old.args, old.arguments wired chained out value]
  once := by
    rw [calls]
    exact sound.once
  stored u set outside := by
    obtain ⟨m, ex, k, args, ret, here, there, same⟩ := sound.stored u set outside
    refine ⟨m, ex, k, args, ret, here, ?_, ?_⟩
    · rw [calls]
      exact there
    · rw [value u set outside]
      exact same

theorem Returned.congr {ret : Nat → Nat → D} (returned : Returned mem m ret) (rbuf : mem'.rbuf m = mem.rbuf m)
    (value : (P.G.models m.1).noretbuf = true → ∀ w ∈ Solver.directReturns P.maps m ret, mem'.value w.1 = mem.value w.1) :
    Returned mem' m ret := by
  unfold Returned at returned ⊢
  split
  · rename_i direct
    rw [if_pos direct] at returned
    intro w there
    rw [value direct w there]
    exact returned w there
  · rename_i buffered
    rw [if_neg buffered] at returned
    rw [rbuf]
    exact returned

theorem Sound.kept (wired : P.G.Wired) (chained : P.Chained s) (sound : Sound s mem path mpath) (kept : mem.Kept mem') :
    Sound s mem' path mpath := by
  apply sound.change wired chained kept.out kept.calls
  · intro u _ _
    rw [kept.value]
  · intro c there
    apply (sound.calls c there).ret.congr
    · rw [kept.rbuf]
    · intro _ w _
      rw [kept.value]

/-- Search steps record chains, and leave the values alone. -/
theorem Sound.search (sound : Sound s mem path mpath) (slots : ∀ u, (s.vs u).value = true → slot s' u = slot s u)
    (models : ∀ u m, s.model u = some m → s'.model u = some m ∧ (s'.ms m).value = (s.ms m).value)
    (value : ∀ u, (s'.vs u).value = (s.vs u).value) (mvalue : ∀ m, (s'.ms m).value = true → (s.ms m).value = true) :
    Sound s' mem path mpath where
  called m set outside := sound.called m (mvalue m set) outside
  calls c there := by
    have old := sound.calls c there
    obtain ⟨u, used⟩ := old.used
    obtain ⟨used', same⟩ := models u _ used
    refine ⟨same.trans old.value, old.closed, ⟨u, used'⟩, fun v mem => ?_, old.given, old.args, old.ret⟩
    rw [value]
    exact old.prems v mem
  once := sound.once
  stored u set outside := by
    rw [value] at set
    obtain ⟨m, ex, k, args, ret, here, rest⟩ := sound.stored u set outside
    exact ⟨m, ex, k, args, ret, (slots u set).trans here, rest⟩

/-! ## Going down -/

/-- The instances that are being computed need the one that is asked for. -/
structure Above (s : Search P.G) (path : List P.G.VI) (mpath : List P.G.MI) (x : P.G.VI) : Prop where
  needs : ∀ o ∈ path, Relation.TransGen (P.Uses s) o x
  calls : ∀ m ∈ mpath, ∃ o ∈ path, s.model o = some m

theorem Above.fresh (chained : P.Chained s) (above : Above s path mpath x) (chain : (s.vs x).chain.isSome = true) : x ∉ path :=
  fun inside => (chained.grounded x chain).irrefl (above.needs x inside)

/-- The model instance of the chain is not being called. -/
theorem Above.fresh_model (chained : P.Chained s) (above : Above s path mpath x) (model : s.model x = some m) : m ∉ mpath := by
  intro inside
  obtain ⟨o, there, same⟩ := above.calls m inside
  obtain ⟨v, ⟨m', model', needs⟩, rest⟩ := Relation.TransGen.head'_iff.mp (above.needs o there)
  rw [same] at model'
  cases model'
  exact (chained.grounded x (model_chain model)).irrefl (Relation.TransGen.head' ⟨m, model, needs⟩ rest)

theorem Above.below (above : Above s path mpath x) (model : s.model x = some m) {v : P.G.VI} (needs : v ∈ P.G.prems P.maps m) :
    Above s (x :: path) (m :: mpath) v where
  needs o there := by
    have last : P.Uses s x v := ⟨m, model, needs⟩
    rcases List.mem_cons.mp there with rfl | higher
    · exact .single last
    · exact (above.needs o higher).tail last
  calls m' there := by
    rcases List.mem_cons.mp there with rfl | higher
    · exact ⟨x, List.mem_cons_self, model⟩
    · obtain ⟨o, inside, same⟩ := above.calls m' higher
      exact ⟨o, List.mem_cons_of_mem _ inside, same⟩

theorem Above.congr (above : Above s path mpath x) (chain : ∀ u, (s'.vs u).chain = (s.vs u).chain) : Above s' path mpath x := by
  have uses : P.Uses s' = P.Uses s := by
    funext a b
    unfold Uses
    rw [model_congr chain]
  refine ⟨?_, fun m there => ?_⟩
  · rw [uses]
    exact above.needs
  · obtain ⟨o, inside, same⟩ := above.calls m there
    exact ⟨o, inside, (model_congr chain o).trans same⟩

/-- `sp->state |= SP_VALUE`, before the value is there. -/
theorem Sound.setValue (sound : Sound s mem path mpath) (unvalued : (s.vs x).value = false) :
    Sound (s.setValue x) mem (x :: path) mpath where
  called := sound.called
  calls c there := by
    have old := sound.calls c there
    refine ⟨old.value, old.closed, ?_, fun v needs => ?_, old.given, old.args, old.ret⟩
    · obtain ⟨u, used⟩ := old.used
      exact ⟨u, (model_congr (s.setValue_chain x) u).trans used⟩
    · obtain ⟨set, outside⟩ := old.prems v needs
      have other : v ≠ x := by
        rintro rfl
        rw [unvalued] at set
        cases set
      rw [s.setValue_of_ne other]
      exact ⟨set, List.not_mem_cons_of_ne_of_not_mem other outside⟩
  once := sound.once
  stored u set outside := by
    obtain ⟨other, outside⟩ := List.ne_and_not_mem_of_not_mem_cons outside
    rw [s.setValue_of_ne other] at set
    obtain ⟨m, ex, k, args, ret, here, rest⟩ := sound.stored u set outside
    exact ⟨m, ex, k, args, ret, (slot_congr (s.setValue_chain x) u).trans here, rest⟩

/-- `m_sp->state |= SP_VALUE`, before the call. -/
theorem Sound.setModelValue (sound : Sound s mem path mpath) (unvalued : (s.ms m).value = false) :
    Sound (s.setModelValue m) mem path (m :: mpath) where
  called m' set outside := by
    obtain ⟨other, outside⟩ := List.ne_and_not_mem_of_not_mem_cons outside
    rw [s.setModelValue_of_ne other] at set
    exact sound.called m' set outside
  calls c there := by
    have old := sound.calls c there
    have other : c.1 ≠ m := by
      intro same
      have set := old.value
      rw [same, unvalued] at set
      cases set
    refine ⟨?_, List.not_mem_cons_of_ne_of_not_mem other old.closed, old.used, old.prems, old.given, old.args, old.ret⟩
    rw [s.setModelValue_of_ne other]
    exact old.value
  once := sound.once
  stored := sound.stored

/-! ## Calls -/

theorem calls_modcall (args : List (Nat × List D)) (mem : Memory P.G D E) : (Solver.J_modcall P.maps caller m args mem).calls =
    mem.calls ++ [(m, args, caller.model mem.out m args)] := by
  unfold Solver.J_modcall
  simp only
  split <;> simp [Memory.calls, Memory.yield, Yield.call]

theorem out_modcall (args : List (Nat × List D)) (mem : Memory P.G D E) : (Solver.J_modcall P.maps caller m args mem).out =
    caller.answer (.modcall m args (caller.model mem.out m args)) mem.out := by
  unfold Solver.J_modcall
  simp only
  split <;> rfl

/-- A call writes the values that it may write, and no others. -/
theorem value_modcall (args : List (Nat × List D)) (mem : Memory P.G D E) {u : P.G.VI}
    (outside : (P.G.models m.1).noretbuf = true → ¬ WritesTo m u) :
    (Solver.J_modcall P.maps caller m args mem).value u = mem.value u := by
  unfold Solver.J_modcall
  simp only
  split
  · rename_i direct
    apply writes_of_notMem
    rintro w there rfl
    exact outside direct (keys_directReturns m _ there)
  · rfl

theorem rbuf_modcall (args : List (Nat × List D)) (mem : Memory P.G D E) {m' : P.G.MI} (other : m' ≠ m) :
    (Solver.J_modcall P.maps caller m args mem).rbuf m' = mem.rbuf m' := by
  unfold Solver.J_modcall
  simp only
  split
  · rfl
  · exact Function.update_of_ne other _ _

theorem returned_modcall (wired : P.G.Wired) (inverse : P.maps.Inverse P.G) (args : List (Nat × List D)) (mem : Memory P.G D E) :
    Returned (Solver.J_modcall P.maps caller m args mem) m (caller.model mem.out m args) := by
  unfold Returned Solver.J_modcall
  simp only
  split
  · rename_i direct
    intro w there
    exact writes_of_mem there (nodup_directReturns wired inverse direct _) _
  · exact Function.update_self ..

/-- The model call: its returns go where no stored value is. -/
theorem Sound.modcall (honest : caller.Honest) (wired : P.G.Wired) (inverse : P.maps.Inverse P.G) (alone : P.maps.Alone P.G)
    (ranged : P.Ranged s) (sound : Sound s mem path (m :: mpath)) (model : s.model x = some m) (set : (s.ms m).value = true)
    (fresh : m ∉ mpath) (prems : ∀ v ∈ P.G.prems P.maps m, (s.vs v).value = true ∧ v ∉ path)
    (given : ∀ e ∈ (P.G.models m.1).gparams, ∀ i ∈ P.maps.mapE e.map m.2, mem.out.missing (e.idx, i) = false) :
    Sound s (Solver.J_modcall P.maps caller m (Solver.arguments P.maps mem m) mem) path mpath := by
  have out : mem.out.Le (Solver.J_modcall P.maps caller m (Solver.arguments P.maps mem m) mem).out := by
    rw [out_modcall]
    exact honest _ _
  have other {c : P.G.MI × List (Nat × List D) × (Nat → Nat → D)} (there : c ∈ mem.calls) : c.1 ≠ m := by
    rintro rfl
    exact (sound.calls c there).closed List.mem_cons_self
  -- a stored value belongs to a model instance that was called before
  have value (u : P.G.VI) (set : (s.vs u).value = true) (outside : u ∉ path) :
      (Solver.J_modcall P.maps caller m (Solver.arguments P.maps mem m) mem).value u = mem.value u := by
    apply value_modcall
    intro direct writes
    obtain ⟨m', ex, k, args, ret, here, there, -⟩ := sound.stored u set outside
    exact other there (ranged.writes_own wired inverse alone direct model writes (slot_model here))
  have ret (c) (there : c ∈ mem.calls) :
      Returned (Solver.J_modcall P.maps caller m (Solver.arguments P.maps mem m) mem) c.1 c.2.2 := by
    have old := sound.calls c there
    obtain ⟨u, used⟩ := old.used
    apply old.ret.congr
    · exact rbuf_modcall _ _ (other there)
    · intro direct w inside
      apply value_modcall
      intro direct' writes
      exact other there (ranged.writes_apart wired inverse alone direct direct' used model (keys_directReturns _ _ inside) writes)
  constructor
  · intro m' set' outside
    rw [calls_modcall]
    by_cases same : m' = m
    · exact ⟨_, List.mem_append_right _ (List.mem_singleton_self _), same.symm⟩
    · obtain ⟨c, there, same'⟩ := sound.called m' set' (List.not_mem_cons_of_ne_of_not_mem same outside)
      exact ⟨c, List.mem_append_left _ there, same'⟩
  · intro c there
    rw [calls_modcall, List.mem_append, List.mem_singleton] at there
    rcases there with there | rfl
    · have old := sound.calls c there
      refine ⟨old.value, fun inside => old.closed (List.mem_cons_of_mem _ inside), old.used, old.prems,
        fun e mem i listed => out.present _ (old.given e mem i listed), ?_, ret c there⟩
      rw [old.args, old.arguments wired ranged.toChained out value]
    · refine ⟨set, fresh, ⟨x, model⟩, prems, fun e mem i listed => out.present _ (given e mem i listed), ?_,
        returned_modcall wired inverse _ _⟩
      exact (ranged.arguments wired (fun v needs => ranged.value v (prems v needs).1) given out fun v needs =>
        value v (prems v needs).1 (prems v needs).2).symm
  · rw [calls_modcall, List.map_append, List.map_cons, List.map_nil, List.nodup_append]
    refine ⟨sound.once, List.nodup_singleton _, ?_⟩
    intro a there b here same
    obtain ⟨c, mem, rfl⟩ := List.mem_map.mp there
    rw [List.mem_singleton] at here
    exact other mem (same.trans here)
  · intro u set' outside
    obtain ⟨m', ex, k, args, ret', here, there, same⟩ := sound.stored u set' outside
    refine ⟨m', ex, k, args, ret', here, ?_, ?_⟩
    · rw [calls_modcall]
      exact List.mem_append_left _ there
    · rw [value u set' outside]
      exact same

/-- The value is taken out of the returns. -/
theorem Sound.unpackvalue (wired : P.G.Wired) (inverse : P.maps.Inverse P.G) (alone : P.maps.Alone P.G) (ranged : P.Ranged s)
    (sound : Sound s mem (x :: path) mpath) {ei : Nat} {m_e : Edge P.G.nm} {m_inst : Inst} (chain : (s.vs x).chain = some (ei, m_inst))
    (edge : (P.G.vars x.1).models[ei]? = some m_e) (set : (s.ms (m_e.idx, m_inst)).value = true) (fresh : (m_e.idx, m_inst) ∉ mpath) :
    Sound s (Solver.unpackvalue P.maps x m_e m_inst mem) path mpath := by
  have model : s.model x = some (m_e.idx, m_inst) := by
    rw [Search.model, chain, Option.bind_some, edge, Option.map_some]
  obtain ⟨ei', e', r, chain', edge', -, back, idx, inside, slot⟩ := ranged.return_edge wired inverse model
  rw [chain] at chain'
  cases chain'
  rw [edge] at edge'
  cases edge'
  obtain ⟨⟨m, args, ret⟩, there, same⟩ := sound.called _ set fresh
  obtain rfl : m = (m_e.idx, m_inst) := same
  have call := sound.calls _ there
  have returned := call.ret
  -- the value that is there after it
  have written : (Solver.unpackvalue P.maps x m_e m_inst mem).value x =
      ret m_e.ex (Solver.mapE_indexof P.maps r.map m_inst x.2) := by
    unfold Solver.unpackvalue
    unfold Returned at returned
    simp only
    split
    · rename_i direct
      rw [if_pos direct] at returned
      have kind : r.map = MAP_IDENT ∨ 0 ≤ r.map ∧ r.map < P.G.ng := by
        rcases wired.direct m_e.idx direct with ⟨r0, single, ident⟩ | all
        · have here := List.mem_of_getElem? back
          rw [single, List.mem_singleton] at here
          exact .inl (here ▸ ident)
        · exact (all r (List.mem_of_getElem? back)).2
      have value := returned _ (mem_directReturns ret back (directref_indexof inverse kind inside))
      rw [idx] at value
      exact value
    · rename_i buffered
      rw [if_neg buffered] at returned
      simp only at returned back
      rw [back, returned]
      exact Function.update_self ..
  have other {u : P.G.VI} (ne : u ≠ x) : (Solver.unpackvalue P.maps x m_e m_inst mem).value u = mem.value u := by
    unfold Solver.unpackvalue
    simp only
    split
    · rfl
    · split
      · rfl
      · exact Function.update_of_ne ne _ _
  have same : (Solver.unpackvalue P.maps x m_e m_inst mem).out = mem.out ∧
      (Solver.unpackvalue P.maps x m_e m_inst mem).calls = mem.calls ∧
      (Solver.unpackvalue P.maps x m_e m_inst mem).rbuf = mem.rbuf := by
    unfold Solver.unpackvalue
    simp only
    split
    · exact ⟨rfl, rfl, rfl⟩
    · split
      · exact ⟨rfl, rfl, rfl⟩
      · exact ⟨rfl, rfl, rfl⟩
  have within : Sound s (Solver.unpackvalue P.maps x m_e m_inst mem) (x :: path) mpath := by
    apply sound.change wired ranged.toChained
    · rw [same.1]
      exact .refl
    · exact same.2.1
    · intro u _ outside
      exact other (List.ne_and_not_mem_of_not_mem_cons outside).1
    · intro c inside'
      have old := sound.calls c inside'
      obtain ⟨u, used⟩ := old.used
      apply old.ret.congr
      · rw [same.2.2]
      · intro direct w key
        by_cases here : w.1 = x
        · -- a model that has direct returns shares no instance with one that has a buffer
          have writes := keys_directReturns _ _ key
          rw [here] at writes
          have owner := ranged.writes_own wired inverse alone direct used writes model
          rw [here]
          have noretbuf : (P.G.models m_e.idx).noretbuf = true := by
            rw [show m_e.idx = c.1.1 from congrArg Prod.fst owner]
            exact direct
          unfold Solver.unpackvalue
          simp only [noretbuf, if_true]
        · exact other here
  refine ⟨within.called, fun c inside' => ?_, within.once, fun u set' outside => ?_⟩
  · have old := within.calls c inside'
    exact ⟨old.value, old.closed, old.used, fun v needs => ⟨(old.prems v needs).1, fun inside'' =>
      (old.prems v needs).2 (List.mem_cons_of_mem _ inside'')⟩, old.given, old.args, old.ret⟩
  · by_cases here : u = x
    · rw [here]
      refine ⟨_, _, _, args, ret, slot, ?_, written⟩
      rw [same.2.1]
      exact there
    · exact within.stored u set' (List.not_mem_cons_of_ne_of_not_mem here outside)

end Problem
end M2.Fhk
