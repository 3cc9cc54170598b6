import M2.Fhk.Values

/-!
# The recursion of `S_compute_value`

`S_compute_value` keeps the invariant of the stored values. Its recursion goes along recorded chains, so no variable
instance is on it twice, and it is no deeper than there are variable instances.
-/
namespace M2.Fhk
open M2.Lib

namespace Problem
variable {P : Problem} {D E : Type} {caller : Caller P.G D E} {s : Search P.G} {mem : Memory P.G D E} {path : List P.G.VI}
  {mpath : List P.G.MI} {x : P.G.VI} {m : P.G.MI}

/-- What computing changes: chains stay, value bits are set, and the solver yields. -/
structure Advances (caller : Caller P.G D E) (w w' : Search P.G × Memory P.G D E) : Prop where
  same : P.SameSearch w.1 w'.1
  value : ∀ u, (w.1.vs u).value = true → (w'.1.vs u).value = true
  mvalue : ∀ m, (w.1.ms m).value = true → (w'.1.ms m).value = true
  ranged : P.Ranged w'.1
  moves : w.2.Moves caller w'.2

/-- Evaluation records no chains. -/
theorem Ranged.computed {s' : Search P.G} (ranged : P.Ranged s) (same : P.SameSearch s s')
    (value : ∀ u, (s'.vs u).value = true → (s'.vs u).chain.isSome = true) : P.Ranged s' where
  toChained := ranged.toChained.computed same value
  inside u some' := ranged.inside u (same.chain u ▸ some')

theorem SameSearch.refl : P.SameSearch s s := ⟨rfl, fun _ => rfl, fun _ => rfl, fun _ => rfl, fun _ => rfl⟩

theorem SameSearch.trans {s' s'' : Search P.G} (first : P.SameSearch s s') (second : P.SameSearch s' s'') : P.SameSearch s s'' :=
  ⟨second.ss.trans first.ss, fun u => (second.cost u).trans (first.cost u), fun u => (second.chain u).trans (first.chain u),
    fun m => (second.mcost m).trans (first.mcost m), fun m => (second.mchain m).trans (first.mchain m)⟩

theorem Advances.refl {w : Search P.G × Memory P.G D E} (ranged : P.Ranged w.1) : Advances caller w w :=
  ⟨.refl, fun _ => id, fun _ => id, ranged, .refl⟩

theorem Advances.trans {w w' w'' : Search P.G × Memory P.G D E} (first : Advances caller w w') (second : Advances caller w' w'') :
    Advances caller w w'' :=
  ⟨first.same.trans second.same, fun u set => second.value u (first.value u set), fun m set => second.mvalue m (first.mvalue m set),
    second.ranged, first.moves.trans second.moves⟩

theorem sameSearch_setValue (s : Search P.G) (x : P.G.VI) : P.SameSearch s (s.setValue x) := by
  refine ⟨rfl, fun u => ?_, s.setValue_chain x, fun _ => rfl, fun _ => rfl⟩
  by_cases same : u = x
  · subst same; simp [Search.setValue]
  · rw [s.setValue_of_ne same]

theorem sameSearch_setModelValue (s : Search P.G) (m : P.G.MI) : P.SameSearch s (s.setModelValue m) := by
  refine ⟨rfl, fun _ => rfl, fun _ => rfl, fun n => ?_, fun n => ?_⟩
  · by_cases same : n = m
    · subst same; simp [Search.setModelValue]
    · rw [s.setModelValue_of_ne same]
  · by_cases same : n = m
    · subst same; simp [Search.setModelValue]
    · rw [s.setModelValue_of_ne same]

/-- The exits of `S_compute_value`: those of the caller, and the end of the stack where it is too `short`. -/
def Stops (caller : Caller P.G D E) (short : Prop) (e : Exit) : Prop := caller.Fails e ∨ e = .costack ∧ short

/-- What a call of `S_compute_value` below these instances does, where `C` are the instances that have chains. -/
def Computes (caller : Caller P.G D E) (short : Prop) (C : Finset P.G.VI) (path : List P.G.VI) (mpath : List P.G.MI)
    (compute : Search P.G × Memory P.G D E → P.G.VI → Except Exit (Search P.G × Memory P.G D E)) : Prop :=
  ∀ w x, P.Ranged w.1 → (∀ u, (w.1.vs u).chain.isSome = true → u ∈ C) → Sound w.1 w.2 path mpath →
    (w.1.vs x).chain.isSome = true → (w.1.vs x).value = false → Above w.1 path mpath x → Post (compute w x)
      (fun w' => Advances caller w w' ∧ Sound w'.1 w'.2 path mpath ∧ (w'.1.vs x).value = true) (Stops caller short)

variable {short : Prop} {C : Finset P.G.VI} {compute : Search P.G × Memory P.G D E → P.G.VI → Except Exit (Search P.G × Memory P.G D E)}

/-- `S_get_computed_si` gives every instance a value. -/
theorem S_get_computed_si_post (computes : Computes caller short C path mpath compute) {xi : Fin P.G.nv} {insts : List Inst}
    {w : Search P.G × Memory P.G D E} (ranged : P.Ranged w.1) (within : ∀ u, (w.1.vs u).chain.isSome = true → u ∈ C)
    (sound : Sound w.1 w.2 path mpath) (needed : ∀ i ∈ insts, (w.1.vs (xi, i)).chain.isSome = true ∧ Above w.1 path mpath (xi, i)) :
    Post (Solver.S_get_computed_si compute xi insts w) (fun w' => Advances caller w w' ∧ Sound w'.1 w'.2 path mpath ∧
      ∀ i ∈ insts, (w'.1.vs (xi, i)).value = true) (Stops caller short) := by
  apply Post.foldlM fun (done : List Inst) (w' : Search P.G × Memory P.G D E) => Advances caller w w' ∧ Sound w'.1 w'.2 path mpath ∧
      ∀ i ∈ done, (w'.1.vs (xi, i)).value = true
  · exact ⟨.refl ranged, sound, fun _ mem => by cases mem⟩
  · rintro done i rest w' split ⟨advances, sound', valued⟩
    obtain ⟨chain, above⟩ := needed i (by simp [split])
    apply Post.ite
    · intro set
      refine ⟨advances, sound', fun j there => ?_⟩
      rcases List.mem_append.mp there with old | new
      · exact valued j old
      · cases List.mem_singleton.mp new
        exact set
    · intro unset
      rw [Bool.not_eq_true] at unset
      have here := computes w' (xi, i) advances.ranged (fun u => by rw [advances.same.chain]; exact within u) sound'
        (by rw [advances.same.chain]; exact chain) unset (above.congr advances.same.chain)
      refine here.mono ?_ fun _ => id
      rintro w'' ⟨more, sound'', set⟩
      refine ⟨advances.trans more, sound'', fun j there => ?_⟩
      rcases List.mem_append.mp there with old | new
      · exact more.value _ (valued j old)
      · cases List.mem_singleton.mp new
        exact set

/-- The loop over the computed parameters of a model instance. -/
theorem cparams_post (computes : Computes caller short C path mpath compute) {w : Search P.G × Memory P.G D E} (ranged : P.Ranged w.1)
    (within : ∀ u, (w.1.vs u).chain.isSome = true → u ∈ C) (sound : Sound w.1 w.2 path mpath)
    (needed : ∀ v ∈ P.G.prems P.maps m, (w.1.vs v).chain.isSome = true ∧ Above w.1 path mpath v) :
    Post ((P.G.models m.1).cparams.foldlM (fun w e => Solver.S_get_computed_si compute e.idx (P.maps.mapE e.map m.2) w) w)
      (fun w' => Advances caller w w' ∧ Sound w'.1 w'.2 path mpath ∧ ∀ v ∈ P.G.prems P.maps m, (w'.1.vs v).value = true)
      (Stops caller short) := by
  have loop : Post ((P.G.models m.1).cparams.foldlM (fun w e => Solver.S_get_computed_si compute e.idx (P.maps.mapE e.map m.2) w) w)
      (fun w' => Advances caller w w' ∧ Sound w'.1 w'.2 path mpath ∧ ∀ e ∈ (P.G.models m.1).cparams, ∀ i ∈ P.maps.mapE e.map m.2,
        (w'.1.vs (e.idx, i)).value = true) (Stops caller short) := by
    apply Post.foldlM fun (done : List (Edge P.G.nv)) (w' : Search P.G × Memory P.G D E) => Advances caller w w' ∧
      Sound w'.1 w'.2 path mpath ∧ ∀ e ∈ done, ∀ i ∈ P.maps.mapE e.map m.2, (w'.1.vs (e.idx, i)).value = true
    · exact ⟨.refl ranged, sound, fun _ mem => by cases mem⟩
    · rintro done e rest w' split ⟨advances, sound', valued⟩
      have inside : e ∈ (P.G.models m.1).cparams := by simp [split]
      refine (S_get_computed_si_post computes advances.ranged (fun u => by rw [advances.same.chain]; exact within u) sound' ?_).mono ?_ fun _ => id
      · intro i listed
        obtain ⟨chain, above⟩ := needed _ (Graph.mem_prems_of (List.mem_reverse.mpr inside) listed)
        exact ⟨by rw [advances.same.chain]; exact chain, above.congr advances.same.chain⟩
      · rintro w'' ⟨more, sound'', here⟩
        refine ⟨advances.trans more, sound'', fun d there i listed => ?_⟩
        rcases List.mem_append.mp there with old | new
        · exact more.value _ (valued d old i listed)
        · cases List.mem_singleton.mp new
          exact here i listed
  refine loop.mono ?_ fun _ => id
  rintro w' ⟨advances, sound', valued⟩
  refine ⟨advances, sound', fun v needs => ?_⟩
  obtain ⟨e, there, idx, listed⟩ := Graph.mem_prems.mp needs
  have set := valued e (List.mem_reverse.mp there) v.2 listed
  rwa [idx] at set

/-- The loop over the given parameters of a model instance. -/
theorem gparams_post (honest : caller.Honest) :
    Post ((P.G.models m.1).gparams.foldlM (fun mem e => Solver.S_get_given P.maps caller e.idx e.map m.2 mem) mem)
      (fun mem' => mem.Asks caller mem' ∧ ∀ e ∈ (P.G.models m.1).gparams, ∀ i ∈ P.maps.mapE e.map m.2,
        mem'.out.missing (e.idx, i) = false) caller.Fails := by
  apply Post.foldlM fun (done : List (Edge P.G.nv)) (mem' : Memory P.G D E) => mem.Asks caller mem' ∧
    ∀ e ∈ done, ∀ i ∈ P.maps.mapE e.map m.2, mem'.out.missing (e.idx, i) = false
  · exact ⟨.refl, fun _ mem => by cases mem⟩
  · rintro done e rest mem' - ⟨asks, present⟩
    refine (Solver.S_get_given_post honest e.idx e.map m.2).mono ?_ fun _ => id
    rintro mem'' ⟨more, here⟩
    refine ⟨asks.trans more, fun d there i listed => ?_⟩
    rcases List.mem_append.mp there with old | new
    · exact (more.kept honest).out.present _ (present d old i listed)
    · cases List.mem_singleton.mp new
      exact here i listed

theorem moves_modcall (args : List (Nat × List D)) (mem : Memory P.G D E) :
    mem.Moves caller (Solver.J_modcall P.maps caller m args mem) := by
  apply Relation.ReflTransGen.single
  apply Memory.Move.yield (.modcall m args (caller.model mem.out m args))
  · rfl
  · exact out_modcall args mem
  · unfold Solver.J_modcall
    simp only
    split <;> rfl

theorem moves_unpackvalue (m_e : Edge P.G.nm) (m_inst : Inst) (mem : Memory P.G D E) :
    mem.Moves caller (Solver.unpackvalue P.maps x m_e m_inst mem) := by
  apply Relation.ReflTransGen.single
  unfold Solver.unpackvalue
  simp only
  split
  · exact .write rfl rfl
  · split
    · exact .write rfl rfl
    · exact .write rfl rfl

/-- A model instance is called on the values of its parameters. -/
theorem callModel_post (honest : caller.Honest) (wired : P.G.Wired) (inverse : P.maps.Inverse P.G) (alone : P.maps.Alone P.G)
    (computes : Computes caller short C path (m :: mpath) compute) (ranged : P.Ranged s)
    (within : ∀ u, (s.vs u).chain.isSome = true → u ∈ C) (sound : Sound s mem path mpath) (model : s.model x = some m)
    (unset : (s.ms m).value = false) (fresh : m ∉ mpath)
    (needed : ∀ v ∈ P.G.prems P.maps m, Above s path (m :: mpath) v) :
    Post (Solver.callModel P.maps caller compute m (s, mem))
      (fun w => Advances caller (s, mem) w ∧ Sound w.1 w.2 path mpath ∧ (w.1.ms m).value = true) (Stops caller short) := by
  have marks := sameSearch_setModelValue s m
  have ranged' : P.Ranged (s.setModelValue m) := ranged.computed marks ranged.value
  have mchain := ranged.solved x m model
  have marked : Advances caller (s, mem) (s.setModelValue m, mem) := by
    refine ⟨marks, fun _ => id, fun n set => ?_, ranged', .refl⟩
    by_cases same : n = m
    · rw [same]
      exact s.setModelValue_self m
    · rw [s.setModelValue_of_ne same]
      exact set
  unfold Solver.callModel
  simp only
  apply (cparams_post (w := (s.setModelValue m, mem)) computes ranged' within (sound.setModelValue unset) ?_).bind
  · rintro ⟨s', mem₁⟩ ⟨advances, sound', valued⟩
    have chain (v : P.G.VI) (needs : v ∈ P.G.prems P.maps m) : (s'.vs v).chain.isSome = true :=
      advances.ranged.value v (valued v needs)
    have prems (v : P.G.VI) (needs : v ∈ P.G.prems P.maps m) : (s'.vs v).value = true ∧ v ∉ path :=
      ⟨valued v needs, ((needed v needs).congr (marks.trans advances.same).chain).fresh advances.ranged.toChained (chain v needs)⟩
    apply ((gparams_post honest).mono (fun _ => id) fun _ => Or.inl).bind
    rintro mem₂ ⟨asks, given⟩
    apply ((Solver.collect_post m).mono (fun _ => id) fun _ => Or.inl).bind
    rintro ⟨args, mem₃⟩ ⟨collected, same⟩
    apply ((Solver.expandReturns_post m).mono (fun _ => id) fun _ => Or.inl).bind
    intro mem₄ asks'
    have same' : mem₂.Same mem₃ := ⟨same.out, same.value, same.rbuf, same.yields⟩
    have kept : mem₂.Kept mem₄ := same'.kept.trans (asks'.kept honest)
    have given' (e) (there : e ∈ (P.G.models m.1).gparams) (i) (listed : i ∈ P.maps.mapE e.map m.2) :
        mem₄.out.missing (e.idx, i) = false := kept.out.present _ (given e there i listed)
    have values : args = Solver.arguments P.maps mem₄ m := by
      rw [show args = _ from collected]
      exact (advances.ranged.arguments wired chain given kept.out fun v _ => by rw [kept.value]).symm
    have sound'' := sound'.kept wired advances.ranged.toChained ((asks.kept honest).trans kept)
    have set := advances.mvalue m (s.setModelValue_self m)
    rw [values]
    refine ⟨?_, sound''.modcall honest wired inverse alone advances.ranged ((model_congr (marks.trans advances.same).chain x).trans model)
      set fresh prems given', set⟩
    apply (marked.trans advances).trans
    refine ⟨.refl, fun _ => id, fun _ => id, advances.ranged, ?_⟩
    exact ((asks.moves.trans same'.moves).trans asks'.moves).trans (moves_modcall _ _)
  · intro v needs
    exact ⟨(marks.chain v).symm ▸ ranged.closed m mchain v needs, (needed v needs).congr marks.chain⟩

theorem Ranged.setValue (ranged : P.Ranged s) (chain : (s.vs x).chain.isSome = true) : P.Ranged (s.setValue x) := by
  apply ranged.computed (sameSearch_setValue s x)
  intro u set
  rw [s.setValue_chain]
  by_cases same : u = x
  · rw [same]
    exact chain
  · rw [s.setValue_of_ne same] at set
    exact ranged.value u set

/-- The instances above have chains, and none of them is above another one. -/
theorem Above.length_lt (chained : P.Chained s) (above : Above s path mpath x) (nodup : path.Nodup)
    (chain : (s.vs x).chain.isSome = true) (within : ∀ u, (s.vs u).chain.isSome = true → u ∈ C) : path.length < C.card := by
  have all : (x :: path).Nodup := List.nodup_cons.mpr ⟨above.fresh chained chain, nodup⟩
  have inside : (x :: path).toFinset ⊆ C := by
    intro u there
    rcases List.mem_cons.mp (List.mem_toFinset.mp there) with rfl | higher
    · exact within u chain
    · obtain ⟨v, ⟨m, model, -⟩, -⟩ := Relation.TransGen.head'_iff.mp (above.needs u higher)
      exact within u (model_chain model)
  have card := Finset.card_le_card inside
  rw [List.toFinset_card_of_nodup all, List.length_cons] at card
  omega

/-- `S_compute_value` gives the instance its value, and stops for want of stack only where there are more chains than that. -/
theorem S_compute_value_post (honest : caller.Honest) (wired : P.G.Wired) (inverse : P.maps.Inverse P.G)
    (alone : P.maps.Alone P.G) (depth : Nat) (nodup : path.Nodup) (room : C.card ≤ path.length + depth ∨ short) :
    Computes caller short C path mpath (Solver.S_compute_value P.maps caller depth) := by
  induction depth generalizing path mpath with
  | zero =>
    intro w x ranged within _ chain _ above
    apply Post.error
    have more := above.length_lt ranged.toChained nodup chain within
    exact .inr ⟨rfl, room.resolve_left (by omega)⟩
  | succ depth ih =>
    rintro ⟨s, mem⟩ x ranged within sound chain unset above
    obtain ⟨⟨m, j⟩, model⟩ : ∃ m, s.model x = some m := by
      cases ranged.grounded x chain with
      | intro model _ => exact ⟨_, model⟩
    obtain ⟨ei, recorded, cand⟩ : ∃ ei, (s.vs x).chain = some (ei, j) ∧ (ei, (m, j)) ∈ candInsts (xcands P.maps x) :=
      ranged.cand x (m, j) model
    obtain ⟨e, edge, idx, -⟩ := mem_candInsts cand
    obtain rfl : e.idx = m := idx
    have marks := sameSearch_setValue s x
    have ranged' := ranged.setValue chain
    have sound' := sound.setValue unset
    have model' := (model_congr marks.chain x).trans model
    have marked : Advances caller (s, mem) (s.setValue x, mem) := by
      refine ⟨marks, fun u set => ?_, fun _ => id, ranged', .refl⟩
      by_cases same : u = x
      · rw [same]
        exact s.setValue_self x
      · rw [s.setValue_of_ne same]
        exact set
    have fresh := above.fresh_model ranged.toChained model
    -- the value is taken out of the returns of a model instance that was called
    have unpack (w : Search P.G × Memory P.G D E) (advances : Advances caller (s.setValue x, mem) w)
        (sound : Sound w.1 w.2 (x :: path) mpath) (set : (w.1.ms (e.idx, j)).value = true) :
        Advances caller (s, mem) (w.1, Solver.unpackvalue P.maps x e j w.2) ∧
          Sound w.1 (Solver.unpackvalue P.maps x e j w.2) path mpath ∧ (w.1.vs x).value = true := by
      have chain' : (w.1.vs x).chain = some (ei, j) := ((marks.trans advances.same).chain x).trans recorded
      refine ⟨(marked.trans advances).trans ⟨.refl, fun _ => id, fun _ => id, advances.ranged, moves_unpackvalue e j w.2⟩,
        sound.unpackvalue wired inverse alone advances.ranged chain' edge set fresh, advances.value x (s.setValue_self x)⟩
    unfold Solver.S_compute_value
    simp only [recorded, Option.getD_some, edge]
    by_cases set : ((s.setValue x).ms (e.idx, j)).value = true
    · rw [if_pos set]
      exact unpack _ (.refl ranged') sound' set
    · rw [if_neg set]
      rw [Bool.not_eq_true] at set
      have deeper : C.card ≤ (x :: path).length + depth ∨ short := by
        apply room.imp_left
        intro enough
        rw [List.length_cons]
        omega
      apply (callModel_post honest wired inverse alone (ih (List.nodup_cons.mpr ⟨above.fresh ranged.toChained chain, nodup⟩) deeper)
        ranged' (fun u => by rw [marks.chain]; exact within u) sound' model' set fresh ?_).bind
      · rintro w ⟨advances, sound'', called⟩
        exact unpack w advances sound'' called
      · intro v needs
        exact (above.below model needs).congr marks.chain

end Problem
end M2.Fhk
