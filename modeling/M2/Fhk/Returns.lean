import M2.Lib.Writes
import M2.Fhk.Solving
import M2.Fhk.Compute

/-!
# Where returns go

Which variable instances a model instance writes without a buffer, and which place among its returns a variable instance
takes its value of. `g_mretbuf` of `src/fhk/build.c` lets a model write without a buffer where being selected implies that it
is chosen for each of its return edges. For a return over a whole group that needs a model with one instance only.
-/
namespace M2.Fhk
open M2.Lib

/-- What the builder leaves: a model edge names its return edge and the other way round, parameters are split, and the flag
`M_NORETBUF` is that of `g_mretbuf`. -/
structure Graph.Wired (G : Graph) : Prop where
  returned : ∀ (x : Fin G.nv) (ei : Nat) (e : Edge G.nm), (G.vars x).models[ei]? = some e →
    ∃ r : Edge G.nv, (G.models e.idx).returns[e.ex]? = some r ∧ r.idx = x
  listed : ∀ (m : Fin G.nm) (k : Nat) (r : Edge G.nv), (G.models m).returns[k]? = some r →
    ∃ e ∈ (G.vars r.idx).models, e.idx = m ∧ e.ex = k
  given : ∀ m, ∀ e ∈ (G.models m).gparams, G.given e.idx = true
  direct : ∀ m, (G.models m).noretbuf = true → (∃ r : Edge G.nv, (G.models m).returns = [r] ∧ r.map = MAP_IDENT) ∨
    ∀ r ∈ (G.models m).returns, (G.vars r.idx).models.length = 1 ∧ (r.map = MAP_IDENT ∨ 0 ≤ r.map ∧ r.map < G.ng)

/-- The variable instance is one of its group. -/
def Maps.Has (maps : Maps) (G : Graph) (u : G.VI) : Prop := u.2.val < maps.shape (G.vars u.1).group

/-- The model instance is one of its group. -/
def Maps.HasModel (maps : Maps) (G : Graph) (m : G.MI) : Prop := m.2.val < maps.shape (G.models m.1).group

/-- What the maps owe the solver: a space map is its whole group, an inverse map leads back to where the map came out, and
mapped instances are in their groups. -/
structure Maps.Inverse (maps : Maps) (G : Graph) : Prop where
  space : ∀ (map : Int) inst, 0 ≤ map → map < G.ng → maps.subset map inst = (List.range (maps.shape map.toNat)).map (Fin.ofNat 65536)
  small : ∀ group, maps.shape group < 65536
  inverse : ∀ (u : G.VI) (ei : Nat) (m : G.MI) (e : Edge G.nm) (r : Edge G.nv), maps.Has G u →
    (ei, m) ∈ candInsts (xcands maps u) → (G.vars u.1).models[ei]? = some e → (G.models e.idx).returns[e.ex]? = some r →
    u.2 ∈ maps.mapE r.map m.2
  models : ∀ (u : G.VI) (ei : Nat) (m : G.MI), maps.Has G u → (ei, m) ∈ candInsts (xcands maps u) → maps.HasModel G m
  params : ∀ (m : G.MI) (v : G.VI), maps.HasModel G m → v ∈ G.prems maps m → maps.Has G v
  shadows : ∀ (m : G.MI) (e : ShEdge G.nw) (i : Inst), maps.HasModel G m → e ∈ (G.models m.1).shadows → i ∈ maps.mapE e.map m.2 →
    maps.Has G ((G.shadows e.idx).xi, i)

/-- A model that writes a whole group without a buffer has one instance at most. -/
def Maps.Alone (maps : Maps) (G : Graph) : Prop :=
  ∀ m, (G.models m).noretbuf = true → ∀ r ∈ (G.models m).returns, r.map ≠ MAP_IDENT → maps.shape (G.models m).group ≤ 1

namespace Problem

/-- The recorded chains are those of instances in their groups. -/
structure Ranged (P : Problem) (s : Search P.G) : Prop extends P.Chained s where
  inside : ∀ u, (s.vs u).chain.isSome = true → P.maps.Has P.G u

variable {P : Problem} {s s' : Search P.G}

/-- The place of the value of `u`: the model instance, its return edge, and the position there. -/
def slot (s : Search P.G) (u : P.G.VI) : Option (P.G.MI × Nat × Nat) :=
  (s.vs u).chain.bind fun chain => (P.G.vars u.1).models[chain.1]?.bind fun e =>
    (P.G.models e.idx).returns[e.ex]?.map fun r => ((e.idx, chain.2), e.ex, Solver.mapE_indexof P.maps r.map chain.2 u.2)

/-- The model instance writes the value of `w` without a buffer. -/
def WritesTo (m : P.G.MI) (w : P.G.VI) : Prop :=
  ∃ r ∈ (P.G.models m.1).returns, r.idx = w.1 ∧ w.2 ∈ Solver.mapE_directref P.maps r.map m.2

theorem keys_directReturns {D : Type} (m : P.G.MI) (ret : Nat → Nat → D) {p : P.G.VI × D}
    (mem : p ∈ Solver.directReturns P.maps m ret) : WritesTo m p.1 := by
  obtain ⟨e, there, inside⟩ := List.mem_flatMap.mp mem
  obtain ⟨i, listed, rfl⟩ := List.mem_map.mp inside
  exact ⟨e.1, List.mem_of_getElem? (List.mem_zipIdx_iff_getElem?.mp there), rfl,
    List.mem_of_getElem? (List.mem_zipIdx_iff_getElem?.mp listed)⟩

/-- A value behind a direct reference. -/
theorem mem_directReturns {D : Type} {m : P.G.MI} (ret : Nat → Nat → D) {ex k : Nat} {r : Edge P.G.nv} {i : Inst}
    (edge : (P.G.models m.1).returns[ex]? = some r) (here : (Solver.mapE_directref P.maps r.map m.2)[k]? = some i) :
    ((r.idx, i), ret ex k) ∈ Solver.directReturns P.maps m ret := by
  refine List.mem_flatMap.mpr ⟨(r, ex), List.mem_zipIdx_iff_getElem?.mpr edge, ?_⟩
  exact List.mem_map.mpr ⟨(i, k), List.mem_zipIdx_iff_getElem?.mpr here, rfl⟩

theorem map_space_eq {map : Int} (inverse : P.maps.Inverse P.G) (low : 0 ≤ map) (high : map < P.G.ng) (j : Inst) :
    P.maps.mapE map j = (List.range (P.maps.shape map.toNat)).map (Fin.ofNat 65536) := by
  rw [Maps.mapE, if_neg (by unfold MAP_IDENT; omega), inverse.space map j low high]

/-- A direct reference has the instances of the map. -/
theorem mapE_directref_eq {map : Int} (inverse : P.maps.Inverse P.G) (kind : map = MAP_IDENT ∨ 0 ≤ map ∧ map < P.G.ng) (j : Inst) :
    Solver.mapE_directref P.maps map j = P.maps.mapE map j := by
  unfold Solver.mapE_directref
  split
  · rename_i ident
    rw [Maps.mapE, if_pos ident]
  · rename_i other
    rcases kind with ident | ⟨low, high⟩
    · exact absurd ident other
    · rw [map_space_eq inverse low high, List.length_map, List.length_range]

theorem nodup_space {n : Nat} (small : n < 65536) : ((List.range n).map (Fin.ofNat 65536)).Nodup := by
  apply (List.nodup_range).map_on
  intro i hi j hj same
  have values := congrArg Fin.val same
  simp only [Fin.val_ofNat] at values
  rw [List.mem_range] at hi hj
  omega

theorem nodup_directref {map : Int} (inverse : P.maps.Inverse P.G) (kind : map = MAP_IDENT ∨ 0 ≤ map ∧ map < P.G.ng) (j : Inst) :
    (Solver.mapE_directref P.maps map j).Nodup := by
  rw [mapE_directref_eq inverse kind]
  rcases kind with ident | ⟨low, high⟩
  · rw [Maps.mapE, if_pos ident]
    exact List.nodup_singleton j
  · rw [map_space_eq inverse low high]
    exact nodup_space (inverse.small _)

/-- The position in the map is the position of the reference. -/
theorem directref_indexof {map : Int} (inverse : P.maps.Inverse P.G) (kind : map = MAP_IDENT ∨ 0 ≤ map ∧ map < P.G.ng)
    {j i : Inst} (mem : i ∈ P.maps.mapE map j) :
    (Solver.mapE_directref P.maps map j)[Solver.mapE_indexof P.maps map j i]? = some i := by
  rw [mapE_directref_eq inverse kind, Solver.mapE_indexof]
  split
  · rename_i ident
    rw [Maps.mapE, if_pos ident] at mem ⊢
    cases List.mem_singleton.mp mem
    rfl
  · rw [List.getElem?_eq_getElem (List.idxOf_lt_length_of_mem mem), List.getElem_idxOf]

/-! ## One model for each written instance -/

section Owners
variable {m m' : P.G.MI} {u w : P.G.VI}

theorem slot_model {ex k : Nat} (here : slot s u = some (m, ex, k)) : s.model u = some m := by
  obtain ⟨chain, recorded, rest⟩ := Option.bind_eq_some_iff.mp here
  obtain ⟨e, edge, rest⟩ := Option.bind_eq_some_iff.mp rest
  obtain ⟨r, -, same⟩ := Option.map_eq_some_iff.mp rest
  cases same
  rw [Search.model, recorded, Option.bind_some, edge, Option.map_some]

/-- The return edge that the chain of `u` takes its value of. -/
theorem Ranged.return_edge (ranged : P.Ranged s) (wired : P.G.Wired) (inverse : P.maps.Inverse P.G) (model : s.model u = some m) :
    ∃ ei e r, (s.vs u).chain = some (ei, m.2) ∧ (P.G.vars u.1).models[ei]? = some e ∧ e.idx = m.1 ∧
      (P.G.models m.1).returns[e.ex]? = some r ∧ r.idx = u.1 ∧ u.2 ∈ P.maps.mapE r.map m.2 ∧
      slot s u = some (m, e.ex, Solver.mapE_indexof P.maps r.map m.2 u.2) := by
  obtain ⟨ei, chain, cand⟩ := ranged.cand u m model
  obtain ⟨e, edge, idx, -⟩ := mem_candInsts cand
  obtain ⟨r, back, same⟩ := wired.returned u.1 ei e edge
  have inside := inverse.inverse u ei m e r (ranged.inside u (model_chain model)) cand edge back
  refine ⟨ei, e, r, chain, edge, idx, idx ▸ back, same, inside, ?_⟩
  rw [slot, chain, Option.bind_some, edge, Option.bind_some, back, Option.map_some, idx]

theorem eq_of_length_one {α : Type} {l : List α} (one : l.length = 1) {a b : α} (left : a ∈ l) (right : b ∈ l) : a = b := by
  obtain ⟨c, rfl⟩ := List.length_eq_one_iff.mp one
  rw [List.mem_singleton.mp left, List.mem_singleton.mp right]

/-- The model instance that writes a value at a place of a whole group is the first one. -/
theorem Ranged.first (ranged : P.Ranged s) (inverse : P.maps.Inverse P.G) (alone : P.maps.Alone P.G)
    (direct : (P.G.models m.1).noretbuf = true) {r : Edge P.G.nv} (mem : r ∈ (P.G.models m.1).returns)
    (space : r.map ≠ MAP_IDENT) (used : s.model u = some m) : m.2 = 0 := by
  obtain ⟨ei, -, cand⟩ := ranged.cand u m used
  have lt := inverse.models u ei m (ranged.inside u (model_chain used)) cand
  have one := alone m.1 direct r mem space
  apply Fin.ext
  simp only [Fin.val_zero]
  unfold Maps.HasModel at lt
  omega

/-- A model with one return, of the same instance, writes the instance it was selected for. -/
theorem Ranged.writes_single (ranged : P.Ranged s) (wired : P.G.Wired) (inverse : P.maps.Inverse P.G) (used : s.model u = some m)
    (writes : WritesTo m w) (one : ∃ r, (P.G.models m.1).returns = [r] ∧ r.map = MAP_IDENT) : w = u := by
  obtain ⟨r, mem, idx, inside⟩ := writes
  obtain ⟨r0, single, ident⟩ := one
  obtain ⟨ei, e, r1, -, -, -, back, same, there, -⟩ := ranged.return_edge wired inverse used
  rw [single, List.mem_singleton] at mem
  have there1 := List.mem_of_getElem? back
  rw [single, List.mem_singleton] at there1
  subst mem there1
  rw [Maps.mapE, if_pos ident, List.mem_singleton] at there
  rw [Solver.mapE_directref, if_pos ident, List.mem_singleton] at inside
  exact Prod.ext (idx.symm.trans same) (inside.trans there.symm)

/-- An instance that a selected model instance writes without a buffer has no other chain. -/
theorem Ranged.writes_own (ranged : P.Ranged s) (wired : P.G.Wired) (inverse : P.maps.Inverse P.G) (alone : P.maps.Alone P.G)
    (direct : (P.G.models m.1).noretbuf = true) (used : s.model u = some m) (writes : WritesTo m w) (other : s.model w = some m') :
    m' = m := by
  rcases wired.direct m.1 direct with one | all
  · rw [ranged.writes_single wired inverse used writes one, used] at other
    exact (Option.some.inj other).symm
  obtain ⟨r, mem, idx, inside⟩ := writes
  obtain ⟨ei', e', r', -, edge', idx', back', -, there', -⟩ := ranged.return_edge wired inverse other
  obtain ⟨one, kind⟩ := all r mem
  obtain ⟨k, here⟩ := List.mem_iff_getElem?.mp mem
  obtain ⟨e, listed, owner, place⟩ := wired.listed m.1 k r here
  rw [idx] at one listed
  obtain rfl : e' = e := eq_of_length_one one (List.mem_of_getElem? edge') listed
  have first : m'.1 = m.1 := idx'.symm.trans owner
  rw [first, place, here] at back'
  cases back'
  apply Prod.ext first
  rcases kind with ident | ⟨low, high⟩
  · rw [Maps.mapE, if_pos ident, List.mem_singleton] at there'
    rw [Solver.mapE_directref, if_pos ident, List.mem_singleton] at inside
    rw [← there', inside]
  · have space : r.map ≠ MAP_IDENT := by
      unfold MAP_IDENT
      omega
    rw [ranged.first inverse alone (first ▸ direct) (first ▸ mem) space other, ranged.first inverse alone direct mem space used]

/-- Two selected model instances write apart. -/
theorem Ranged.writes_apart (ranged : P.Ranged s) (wired : P.G.Wired) (inverse : P.maps.Inverse P.G) (alone : P.maps.Alone P.G)
    (direct : (P.G.models m.1).noretbuf = true) (direct' : (P.G.models m'.1).noretbuf = true) {u' : P.G.VI}
    (used : s.model u = some m) (used' : s.model u' = some m') (writes : WritesTo m w) (writes' : WritesTo m' w) : m = m' := by
  rcases wired.direct m.1 direct with one | all
  · have here := ranged.writes_single wired inverse used writes one
    rw [← here] at used
    exact ranged.writes_own wired inverse alone direct' used' writes' used
  rcases wired.direct m'.1 direct' with one' | all'
  · have here := ranged.writes_single wired inverse used' writes' one'
    rw [← here] at used'
    exact (ranged.writes_own wired inverse alone direct used writes used').symm
  · obtain ⟨r, mem, idx, inside⟩ := writes
    obtain ⟨r', mem', idx', inside'⟩ := writes'
    obtain ⟨one, kind⟩ := all r mem
    obtain ⟨k, here⟩ := List.mem_iff_getElem?.mp mem
    obtain ⟨k', here'⟩ := List.mem_iff_getElem?.mp mem'
    obtain ⟨e, listed, owner, place⟩ := wired.listed m.1 k r here
    obtain ⟨e', listed', owner', place'⟩ := wired.listed m'.1 k' r' here'
    rw [idx] at one listed
    rw [idx'] at listed'
    obtain rfl := eq_of_length_one one listed listed'
    have first : m.1 = m'.1 := owner.symm.trans owner'
    have same : r = r' := by
      rw [first, ← place, place', here'] at here
      exact (Option.some.inj here).symm
    apply Prod.ext first
    rcases kind with ident | ⟨low, high⟩
    · rw [Solver.mapE_directref, if_pos ident, List.mem_singleton] at inside
      rw [Solver.mapE_directref, if_pos (same ▸ ident), List.mem_singleton] at inside'
      rw [← inside, inside']
    · have space : r.map ≠ MAP_IDENT := by
        unfold MAP_IDENT
        omega
      rw [ranged.first inverse alone direct mem space used, ranged.first inverse alone direct' mem' (same ▸ space) used']

end Owners

/-- Each instance is written once. -/
theorem nodup_directReturns {D : Type} (wired : P.G.Wired) (inverse : P.maps.Inverse P.G) {m : P.G.MI}
    (direct : (P.G.models m.1).noretbuf = true) (ret : Nat → Nat → D) :
    ((Solver.directReturns P.maps m ret).map Prod.fst).Nodup := by
  have kinds : ∀ r ∈ (P.G.models m.1).returns, r.map = MAP_IDENT ∨ 0 ≤ r.map ∧ r.map < P.G.ng := by
    intro r mem
    rcases wired.direct m.1 direct with ⟨r0, single, ident⟩ | all
    · rw [single, List.mem_singleton] at mem
      exact .inl (mem ▸ ident)
    · exact (all r mem).2
  -- two return edges of a model do not go to one variable
  have apart : ∀ (k k' : Nat) (r r' : Edge P.G.nv), (P.G.models m.1).returns[k]? = some r →
      (P.G.models m.1).returns[k']? = some r' → r.idx = r'.idx → k = k' := by
    intro k k' r r' here here' same
    rcases wired.direct m.1 direct with ⟨r0, single, -⟩ | all
    · have lt := (List.getElem?_eq_some_iff.mp here).1
      have lt' := (List.getElem?_eq_some_iff.mp here').1
      rw [single, List.length_singleton] at lt lt'
      omega
    · obtain ⟨e, listed, -, place⟩ := wired.listed m.1 k r here
      obtain ⟨e', listed', -, place'⟩ := wired.listed m.1 k' r' here'
      rw [same] at listed
      obtain rfl := eq_of_length_one (all r' (List.mem_of_getElem? here')).1 listed listed'
      exact place.symm.trans place'
  unfold Solver.directReturns
  rw [List.map_flatMap, List.nodup_flatMap]
  constructor
  · rintro ⟨r, k⟩ mem
    have here := List.mem_zipIdx_iff_getElem?.mp mem
    have nodup := nodup_directref inverse (kinds r (List.mem_of_getElem? here)) m.2
    rw [List.map_map]
    have keys : ((Prod.fst ∘ fun i : Inst × Nat => ((r.idx, i.1), ret k i.2)) : Inst × Nat → P.G.VI) =
        (fun i : Inst => ((r.idx, i) : P.G.VI)) ∘ Prod.fst := rfl
    rw [keys, ← List.map_map, List.zipIdx_map_fst]
    exact nodup.map fun a b same => congrArg Prod.snd same
  · have indices : ((P.G.models m.1).returns.zipIdx).Pairwise fun e e' => e.2 ≠ e'.2 := by
      rw [← List.pairwise_map (f := Prod.snd), List.zipIdx_map_snd]
      exact List.nodup_range'
    apply indices.imp_of_mem
    rintro ⟨r, k⟩ ⟨r', k'⟩ mem mem' ne
    rw [Function.onFun, List.disjoint_left]
    intro w left right
    obtain ⟨p, here, rfl⟩ := List.mem_map.mp left
    obtain ⟨p', here', same⟩ := List.mem_map.mp right
    obtain ⟨i, -, rfl⟩ := List.mem_map.mp here
    obtain ⟨i', -, rfl⟩ := List.mem_map.mp here'
    exact ne (apart k k' r r' (List.mem_zipIdx_iff_getElem?.mp mem) (List.mem_zipIdx_iff_getElem?.mp mem')
      (congrArg Prod.fst same).symm)

end Problem
end M2.Fhk
