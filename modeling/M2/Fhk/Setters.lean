import M2.Fhk.Given
import M2.Fhk.MapCodes
import M2.Fhk.Status

/-!
# The setters of the solver

`fhkS_setshape`, `fhkS_setvaluei` and `fhkS_setmap` of `src/fhk/solve.c`, of arbitrary arguments of their
parameter types. An access outside of the arrays of the graph and the solver is an outcome of its own.
The bits around a range are kept by `bm_cleari` only where the last word of the range held ones.
-/
namespace M2.Fhk

open M2.Lib.Bitmap
open M2.Mem (Word)

/-! ## The bits around a range -/

section Bits
variable {m : Word} {start stop i : Nat}

theorem bm_clearw_below (lt : start < 64) (le : start ≤ stop) (below : i < start) :
    (bm_clearw m start stop).getLsbD i = m.getLsbD i := by
  rw [bm_clearw, add_sub_run m lt le]
  exact getLsbD_sub_run_below (by omega) (Nat.min_le_right _ _) below

theorem bm_clearw_at (small : stop < 64) {j : Nat} (ge : start ≤ j) (lt : j < stop) (zero : m.getLsbD j = false) :
    (bm_clearw m start stop).getLsbD stop = !m.getLsbD stop := by
  rw [bm_clearw, add_sub_run m (by omega) (by omega), Nat.min_eq_left (by omega)]
  exact getLsbD_sub_run_at small ge lt zero

/-- A word of a bitmap, bit by bit. -/
theorem word_getLsbD (bm : List Word) {k : Nat} (small : i < 64) :
    ((bm[k]?).getD (BitVec.allOnes 64)).getLsbD i = bit bm (64 * k + i) := by
  rw [bit, show (64 * k + i) / 64 = k by omega, show (64 * k + i) % 64 = i by omega]

/-- One word of a bitmap is cleared from `start` on: the bits below the range. -/
theorem bit_set_clearw_below {bm : List Word} {k : Nat} (inside : k < bm.length) (lt : start < 64) (le : start ≤ stop)
    (below : i < 64 * k + start) :
    bit (bm.set k (bm_clearw ((bm[k]?).getD (BitVec.allOnes 64)) start stop)) i = bit bm i := by
  rw [bit_set inside]
  split
  · rename_i here
    rw [bm_clearw_below lt le (by omega), word_getLsbD bm (by omega)]
    congr 1
    omega
  · rfl

/-- The bits behind the range, where its part of the word held ones or reaches the end of the word. -/
theorem bit_set_clearw_behind {bm : List Word} {k : Nat} (inside : k < bm.length) (lt : start < 64) (le : start ≤ stop)
    (ones : stop < 64 → ∀ j, 64 * k + start ≤ j → j < 64 * k + stop → bit bm j = true) (behind : 64 * k + stop ≤ i) :
    bit (bm.set k (bm_clearw ((bm[k]?).getD (BitVec.allOnes 64)) start stop)) i = bit bm i := by
  rw [bit_set inside]
  split
  · rename_i here
    have set : ∀ j < 64, start ≤ j → j < stop → ((bm[k]?).getD (BitVec.allOnes 64)).getLsbD j = true := by
      intro j small ge below
      rw [word_getLsbD bm small]
      exact ones (by omega) _ (by omega) (by omega)
    rw [getLsbD_bm_clearw lt le set (by omega), decide_eq_false (by omega), Bool.not_false, Bool.and_true,
      word_getLsbD bm (by omega)]
    congr 1
    omega
  · rfl

/-- The bits of the range that holds ones up to its last word are not looked at: a bit behind it. -/
theorem bm_clearLoop_behind {bm : List Word} {k left : Nat} (room : 64 * k + left ≤ 64 * bm.length)
    (ones : left % 64 ≠ 0 → ∀ j, 64 * (k + left / 64) ≤ j → j < 64 * k + left → bit bm j = true)
    (behind : 64 * k + left ≤ i) : bit (bm_clearLoop bm k left) i = bit bm i := by
  fun_induction bm_clearLoop bm k left with
  | case1 bm k left more ih =>
    have inside : k < bm.length := by omega
    have same {j : Nat} (ge : 64 * k + left ≤ j ∨ 64 ≤ left ∧ 64 * (k + 1) ≤ j) :
        bit (bm.set k (bm_clearw ((bm[k]?).getD (BitVec.allOnes 64)) 0 left)) j = bit bm j := by
      by_cases here : j / 64 = k
      · exact bit_set_clearw_behind inside (by decide) (Nat.zero_le _)
          (fun small j low high => ones (by omega) j (by omega) high) (by omega)
      · rw [bit_set inside, if_neg here]
    by_cases long : 64 ≤ left
    · rw [ih (by rw [List.length_set]; omega) (fun part j low high => ?_) (by omega), same (.inl behind)]
      rw [same (.inr ⟨long, by omega⟩)]
      exact ones (by omega) j (by omega) (by omega)
    · rw [show left - 64 = 0 by omega, bm_clearLoop, if_neg (by decide), same (.inl behind)]
  | case2 => rfl

theorem bm_clearLoop_below {bm : List Word} {k left : Nat} (room : 64 * k + left ≤ 64 * bm.length) (below : i < 64 * k) :
    bit (bm_clearLoop bm k left) i = bit bm i := by
  fun_induction bm_clearLoop bm k left with
  | case1 bm k left more ih =>
    rw [ih (by rw [List.length_set]; omega) (by omega)]
    exact bit_set_clearw_below (by omega) (by decide) (Nat.zero_le _) (by omega)
  | case2 => rfl

/-- A zero in the last word of the range flips the bit behind it. -/
theorem bm_clearLoop_at {bm : List Word} {k left j : Nat} (room : 64 * k + left ≤ 64 * bm.length) (part : left % 64 ≠ 0)
    (low : 64 * (k + left / 64) ≤ j) (high : j < 64 * k + left) (zero : bit bm j = false) :
    bit (bm_clearLoop bm k left) (64 * k + left) = !bit bm (64 * k + left) := by
  fun_induction bm_clearLoop bm k left with
  | case1 bm k left more ih =>
    have inside : k < bm.length := by omega
    by_cases long : 64 ≤ left
    · have kept {i : Nat} (ge : 64 * (k + 1) ≤ i) :
          bit (bm.set k (bm_clearw ((bm[k]?).getD (BitVec.allOnes 64)) 0 left)) i = bit bm i := by
        rw [bit_set inside, if_neg (by omega)]
      have later := ih (by rw [List.length_set]; omega) (by omega) (by omega) (by omega)
        (by rw [kept (by omega)]; exact zero)
      rw [show 64 * (k + 1) + (left - 64) = 64 * k + left by omega, kept (by omega)] at later
      exact later
    · rw [show left - 64 = 0 by omega, bm_clearLoop, if_neg (by decide), bit_set inside, if_pos (by omega),
        show (64 * k + left) % 64 = left by omega,
        bm_clearw_at (j := j - 64 * k) (by omega) (Nat.zero_le _) (by omega)
          (by rw [word_getLsbD bm (by omega), show 64 * k + (j - 64 * k) = j by omega]; exact zero),
        word_getLsbD bm (by omega)]
  | case2 bm k left done => exact absurd (by omega : left % 64 = 0) part

/-- The part of a range in its last word holds ones, or reaches the end of the word. -/
def LastOnes (bm : List Word) (inst num : Nat) : Prop :=
  (inst + num) % 64 ≠ 0 → ∀ j, inst ≤ j → 64 * ((inst + num) / 64) ≤ j → j < inst + num → bit bm j = true

theorem bm_cleari_below {bm : List Word} {inst num : Nat} (pos : 0 < num) (room : inst + num ≤ 64 * bm.length) (below : i < inst) :
    bit (bm_cleari bm inst num) i = bit bm i := by
  have word : inst >>> 6 = inst / 64 := Nat.shiftRight_eq_div_pow inst 6
  have place : inst &&& 0x3f = inst % 64 := Nat.and_two_pow_sub_one_eq_mod inst 6
  unfold bm_cleari
  simp only [word, place]
  by_cases here : i < 64 * (inst / 64 + 1)
  · by_cases more : 64 - inst % 64 ≤ num
    · rw [bm_clearLoop_below (by rw [List.length_set]; omega) (by omega)]
      exact bit_set_clearw_below (by omega) (by omega) (by omega) (by omega)
    · rw [show num - (64 - inst % 64) = 0 by omega, bm_clearLoop, if_neg (by decide)]
      exact bit_set_clearw_below (by omega) (by omega) (by omega) (by omega)
  · omega

theorem bm_cleari_behind {bm : List Word} {inst num : Nat} (pos : 0 < num) (room : inst + num ≤ 64 * bm.length)
    (last : LastOnes bm inst num) (behind : inst + num ≤ i) : bit (bm_cleari bm inst num) i = bit bm i := by
  have word : inst >>> 6 = inst / 64 := Nat.shiftRight_eq_div_pow inst 6
  have place : inst &&& 0x3f = inst % 64 := Nat.and_two_pow_sub_one_eq_mod inst 6
  have inside : inst / 64 < bm.length := by omega
  unfold bm_cleari
  simp only [word, place]
  have first {j : Nat} (ge : inst + num ≤ j ∨ 64 * (inst / 64 + 1) ≤ j) :
      bit (bm.set (inst / 64) (bm_clearw ((bm[inst / 64]?).getD (BitVec.allOnes 64)) (inst % 64) (inst % 64 + num))) j =
        bit bm j := by
    by_cases here : j / 64 = inst / 64
    · exact bit_set_clearw_behind inside (by omega) (by omega)
        (fun small l low high => last (by omega) l (by omega) (by omega) (by omega)) (by omega)
    · rw [bit_set inside, if_neg here]
  by_cases more : 64 - inst % 64 < num
  · rw [bm_clearLoop_behind (by rw [List.length_set]; omega) (fun part l low high => ?_) (by omega), first (.inl behind)]
    rw [first (.inr (by omega))]
    exact last (by omega) l (by omega) (by omega) (by omega)
  · rw [show num - (64 - inst % 64) = 0 by omega, bm_clearLoop, if_neg (by decide), first (.inl behind)]

theorem bm_cleari_at {bm : List Word} {inst num : Nat} (room : inst + num ≤ 64 * bm.length)
    (last : ¬ LastOnes bm inst num) : bit (bm_cleari bm inst num) (inst + num) = !bit bm (inst + num) := by
  unfold LastOnes at last
  push Not at last
  obtain ⟨part, j, ge, low, high, zero⟩ := last
  rw [ne_eq, Bool.not_eq_true] at zero
  have word : inst >>> 6 = inst / 64 := Nat.shiftRight_eq_div_pow inst 6
  have place : inst &&& 0x3f = inst % 64 := Nat.and_two_pow_sub_one_eq_mod inst 6
  have inside : inst / 64 < bm.length := by omega
  unfold bm_cleari
  simp only [word, place]
  by_cases more : 64 - inst % 64 < num
  · have kept {i : Nat} (ge : 64 * (inst / 64 + 1) ≤ i) :
        bit (bm.set (inst / 64) (bm_clearw ((bm[inst / 64]?).getD (BitVec.allOnes 64)) (inst % 64) (inst % 64 + num))) i =
          bit bm i := by
      rw [bit_set inside, if_neg (by omega)]
    have flipped := @bm_clearLoop_at (bm.set (inst / 64)
      (bm_clearw ((bm[inst / 64]?).getD (BitVec.allOnes 64)) (inst % 64) (inst % 64 + num))) (inst / 64 + 1)
      (num - (64 - inst % 64)) j (by rw [List.length_set]; omega) (by omega) (by omega) (by omega)
      (by rw [kept (by omega)]; exact zero)
    rw [show 64 * (inst / 64 + 1) + (num - (64 - inst % 64)) = inst + num by omega, kept (by omega)] at flipped
    exact flipped
  · rw [show num - (64 - inst % 64) = 0 by omega, bm_clearLoop, if_neg (by decide), bit_set inside, if_pos (by omega),
      show (inst + num) % 64 = inst % 64 + num by omega,
      bm_clearw_at (j := j - 64 * (inst / 64)) (by omega) (by omega) (by omega)
        (by rw [word_getLsbD bm (by omega), show 64 * (inst / 64) + (j - 64 * (inst / 64)) = j by omega]; exact zero),
      word_getLsbD bm (by omega)]
    congr 2
    omega

end Bits

/-! ## The setters -/

/-- The counts and the source groups of the maps of a graph. The arrays of `s_mapstate` have the indices
from `-nimap` up to `nkmap`, the groups among them. -/
structure MapCounts (G : Graph) where
  nkmap : BitVec 8
  nimap : BitVec 8
  umap_assoc : Int → Nat
  ng_le : G.ng ≤ nkmap.toNat
  assoc : ∀ map, umap_assoc map < G.ng ∨ nkmap.toNat ≤ umap_assoc map
  groups : ∀ xi, (G.vars xi).group < G.ng

namespace Def
variable {D D' : Def}

/-- A nonconstant map belongs to a group of the definition, or to none. -/
def Associated (D : Def) : Prop := ∀ map, D.umap_assoc map = FHK_NGRP ∨ (D.umap_assoc map : Int) ≤ D.maxg

theorem Associated.associate (assoc : D.Associated) {m : Int} {group : Nat} (le : (group : Int) ≤ D.maxg)
    (ok : D.associate m group = some D') : D'.Associated ∧ D'.maxg = D.maxg := by
  unfold Def.associate at ok
  split at ok
  · cases ok
    exact ⟨assoc, rfl⟩
  split at ok
  · cases ok
    refine ⟨fun map => ?_, rfl⟩
    by_cases same : map = m
    · subst same
      simp only [Function.update_self]
      exact .inr le
    · simp only [Function.update_of_ne same]
      exact assoc map
  split at ok
  · cases ok
  · cases ok
    exact ⟨assoc, rfl⟩

theorem Associated.d_checkmap (assoc : D.Associated) {map : ExtMap} {src dst : Nat} (src_le : (src : Int) ≤ D.maxg)
    (dst_le : (dst : Int) ≤ D.maxg) (ok : D.d_checkmap map src dst = some D') : D'.Associated := by
  cases map with
  | FHKMAP_IDENT =>
    cases ok
    exact assoc
  | FHKMAP_SPACE =>
    cases ok
    exact assoc
  | FHKMAP_USER m i =>
    obtain ⟨D1, first, ok⟩ := Option.bind_eq_some_iff.mp ok
    obtain ⟨D2, second, ok⟩ := Option.bind_eq_some_iff.mp ok
    obtain ⟨assoc1, maxg1⟩ := assoc.associate src_le first
    obtain ⟨assoc2, -⟩ := assoc1.associate (maxg1 ▸ dst_le) second
    simp only at ok
    split at ok
    · cases ok
    split at ok
    · cases ok
    · cases ok
      exact assoc2

theorem Associated.addEdge (assoc : D.Associated) (inv : D.Inv) {full : DefModel → DefVar → Bool}
    {link : DefModel → DefEdge → DefModel} {count : DefVar → DefVar} {mi xi : Nat} {map : ExtMap}
    (ok : D.addEdge full link count mi xi map = some D') : D'.Associated := by
  obtain ⟨dm, dx, D1, model, var, -, checked, rfl⟩ := addEdge_some ok
  have assoc1 : D1.Associated := assoc.d_checkmap (inv.modelGroup dm (List.mem_of_getElem? model))
    (inv.varGroup dx (List.mem_of_getElem? var)) checked
  exact assoc1

theorem Associated.grow (assoc : D.Associated) {maxg : Int} (le : D.maxg ≤ maxg) (map : Int) :
    D.umap_assoc map = FHK_NGRP ∨ (D.umap_assoc map : Int) ≤ maxg := (assoc map).imp_right fun old => old.trans le

theorem Associated.add (assoc : D.Associated) (inv : D.Inv) (add : D.Add D') : D'.Associated := by
  cases add with
  | model group k c cmin ok =>
    unfold fhk_def_add_model at ok
    split at ok
    · cases ok
    split at ok
    · cases ok
    split at ok
    · cases ok
    cases ok
    exact assoc.grow (le_max_left _ _)
  | var group size cdiff ok =>
    unfold fhk_def_add_var at ok
    split at ok
    · cases ok
    split at ok
    · cases ok
    split at ok
    · cases ok
    cases ok
    exact assoc.grow (le_max_left _ _)
  | shadow xi handle guard arg ok =>
    unfold fhk_def_add_shadow at ok
    split at ok
    · cases ok
    split at ok
    · cases ok
    cases ok
    exact assoc
  | param mi xi map ok => exact assoc.addEdge inv ok
  | returns mi xi map ok => exact assoc.addEdge inv ok
  | check mi wi map penalty ok =>
    obtain ⟨dm, model, ok⟩ := Option.bind_eq_some_iff.mp ok
    obtain ⟨w, shadow, ok⟩ := Option.bind_eq_some_iff.mp ok
    obtain ⟨dx, var, ok⟩ := Option.bind_eq_some_iff.mp ok
    split at ok
    · cases ok
    obtain ⟨D1, checked, ok⟩ := Option.bind_eq_some_iff.mp ok
    cases ok
    have assoc1 : D1.Associated := assoc.d_checkmap (inv.modelGroup dm (List.mem_of_getElem? model))
      (inv.varGroup dx (List.mem_of_getElem? var)) checked
    exact assoc1

theorem Defined.associated (defined : D.Defined) : D.Associated := by
  induction defined with
  | refl => exact fun _ => .inl rfl
  | tail built add ih => exact ih.add (Defined.inv built) add

/-- The maps of a graph that is built from a definition. -/
def mapCounts (D : Def) (defined : D.Defined) (G : Graph) (ng : G.ng = D.ng)
    (groups : ∀ xi, ((G.vars xi).group : Int) ≤ D.maxg) : MapCounts G where
  nkmap := BitVec.ofInt 8 (D.ng + D.maxkmap + 1)
  nimap := BitVec.ofInt 8 (-D.minimap)
  umap_assoc := D.umap_assoc
  ng_le := by
    have counted : (D.nkmap : Int) = D.ng + D.maxkmap + 1 := defined.inv.nkmap_eq
    have least := defined.inv.maxkmap
    change G.ng ≤ D.nkmap
    omega
  assoc map := by
    have counted := defined.inv.ng_eq
    have total : (D.nkmap : Int) = D.ng + D.maxkmap + 1 := defined.inv.nkmap_eq
    have limit := defined.inv.limit
    obtain none | le := defined.associated map
    · refine .inr ?_
      change D.nkmap ≤ _
      rw [none, FHK_NGRP]
      omega
    · refine .inl ?_
      omega
  groups xi := by
    have counted := defined.inv.ng_eq
    have le := groups xi
    omega

end Def

/-- The state of the solver that the setters change: the map entries below 0 next to `GivenState`, none
where no array is allocated. -/
structure SetterState (G : Graph) (α : Type) extends GivenState G α where
  imap : Int → Option (Nat → BitVec 64)

/-- How a call ends: it returns, it goes to `E_exit`, or it reads or writes outside of an array. -/
inductive SetterState.Outcome (G : Graph) (α : Type)
  | done (S : SetterState G α)
  | E_exit (site : Site) (S : SetterState G α)
  | outside

namespace SetterState
variable {G : Graph} {α : Type} (M : MapCounts G) (S : SetterState G α)

/-- `fhkS_setshape`. -/
def fhkS_setshape (group : BitVec 8) (shape : BitVec 16) : Outcome G α :=
  if group.toNat ≥ G.ng then .E_exit (.setshape_group group) S
  else
    match M2.Fhk.fhkS_setshape shape with
    | none => .E_exit (.setshape_shape group shape) S
    | some ss =>
      if S.kmap group.toNat ≠ SS_UNDEF then .E_exit (.setshape_overwrite group) S
      else .done { S with kmap := Function.update S.kmap group.toNat ss }

/-- `fhkS_setvaluei`. A range that only the wrapped sum lets through is copied behind the end of the
buffer. -/
def fhkS_setvaluei (xi inst : BitVec 16) (n : BitVec 32) (vp arena : Nat → α) : Outcome G α :=
  if n = 0 then .done S
  else if xi.toInt > G.nv then .E_exit (.setvaluei_fail xi inst) S
  else if index : 0 ≤ xi.toInt ∧ xi.toInt.toNat < G.nv then
    let x : Fin G.nv := ⟨xi.toInt.toNat, index.2⟩
    let (accepted, T) := S.toGivenState.fhkS_setvaluei x inst n vp arena
    if ¬ accepted then .E_exit (.setvaluei_fail xi inst) S
    else if inst.toNat + n.toNat ≤ S.shape x then .done { S with toGivenState := T }
    else .outside
  else .outside

/-- `map_fromext`. -/
def map_fromext (G : Graph) (map : Int) : Int := if 0 ≤ map then map + G.ng else map

/-- `fhkS_setmap`. -/
def fhkS_setmap (emap : BitVec 32) (inst : BitVec 16) (ss : BitVec 64) : Outcome G α :=
  if emap.toInt < -M.nimap.toNat ∨ emap.toInt ≥ M.nkmap.toNat then .E_exit (.setmap_fail emap inst) S
  else
    let map := map_fromext G emap.toInt
    if 0 ≤ map then
      if map.toNat ≥ M.nkmap.toNat then .outside
      else if S.kmap map.toNat ≠ SS_UNDEF then .E_exit (.setmap_fail emap inst) S
      else .done { S with kmap := Function.update S.kmap map.toNat ss }
    else
      let group := M.umap_assoc map
      if group ≥ M.nkmap.toNat then .outside
      else
        let space := S.kmap group
        let num := PK_N1 (space.setWidth 32)
        if space = SS_UNDEF then .E_exit (.setmap_fail emap inst) S
        else if inst.toNat ≥ num then .E_exit (.setmap_fail emap inst) S
        else
          match S.imap map with
          | none =>
            .done { S with imap := Function.update S.imap map (some (Function.update (fun _ => SS_UNDEF) inst.toNat ss)) }
          | some imap =>
            if imap inst.toNat ≠ SS_UNDEF then .E_exit (.setmap_fail emap inst) S
            else .done { S with imap := Function.update S.imap map (some (Function.update imap inst.toNat ss)) }

/-- An entry of a nonconstant map, as `fhkI_umap` reads it. -/
def entry (map : Int) (inst : Nat) : BitVec 64 := ((S.imap map).map (· inst)).getD SS_UNDEF

/-- The state of a new solver. -/
def create (G : Graph) (α : Type) : SetterState G α := { GivenState.create G α with imap := fun _ => none }

/-- A call of a setter. -/
inductive Call (α : Type)
  | setshape (group : BitVec 8) (shape : BitVec 16)
  | setvaluei (xi inst : BitVec 16) (n : BitVec 32) (vp arena : Nat → α)
  | setmap (emap : BitVec 32) (inst : BitVec 16) (ss : BitVec 64)

def run : Call α → Outcome G α
  | .setshape group shape => S.fhkS_setshape group shape
  | .setvaluei xi inst n vp arena => S.fhkS_setvaluei xi inst n vp arena
  | .setmap emap inst ss => S.fhkS_setmap M emap inst ss

/-- What changes the state: a call of a setter that returns, or another step of the solver and its driver. -/
inductive Step : SetterState G α → SetterState G α → Prop
  | call {S S' : SetterState G α} (c : Call α) (returned : S.run M c = .done S') : Step S S'
  | solver {S : SetterState G α} (T : GivenState G α) (step : GivenState.Step S.toGivenState T) :
      Step S { S with toGivenState := T }

def Reachable : Prop := Relation.ReflTransGen (Step M) (create G α) S

/-! ## What is claimed of a call -/

/-- A given variable of a group whose shape is known, with the range inside of it. -/
def NamesValues (x : Fin G.nv) (inst : BitVec 16) (n : BitVec 32) : Prop :=
  V_GIVEN (G.vars x) = true ∧ S.kmap (G.vars x).group ≠ SS_UNDEF ∧ inst.toNat + n.toNat ≤ S.shape x

/-- The arguments of a call name an existing slot. -/
def Names : Call α → Prop
  | .setshape group _ => group.toNat < G.ng
  | .setvaluei xi inst n _ _ => ∃ x : Fin G.nv, xi.toInt = x.val ∧ S.NamesValues x inst n
  | .setmap emap inst _ =>
    0 ≤ emap.toInt ∧ emap.toInt < (M.nkmap.toNat - G.ng : Nat) ∨
      -M.nimap.toNat ≤ emap.toInt ∧ emap.toInt < 0 ∧ M.umap_assoc emap.toInt < G.ng ∧
        S.kmap (M.umap_assoc emap.toInt) ≠ SS_UNDEF ∧ inst.toNat < PK_N1 ((S.kmap (M.umap_assoc emap.toInt)).setWidth 32)

/-- Shapes and map entries are what they were, but for these. -/
structure SameMaps (S S' : SetterState G α) (shape : Nat → Prop) (umap : Int → Nat → Prop) : Prop where
  kmap : ∀ i, ¬ shape i → S'.kmap i = S.kmap i
  imap : ∀ map inst, ¬ umap map inst → S'.entry map inst = S.entry map inst

/-- Presence bits and values are what they were, but for these. -/
def SameValues (S S' : SetterState G α) (slot : Fin G.nv → Nat → Prop) : Prop :=
  ∀ yi i, i < S.shape yi → ¬ slot yi i →
    (S'.Present yi i ↔ S.Present yi i) ∧ S'.fhkI_value yi i = S.fhkI_value yi i

/-- Only the slot the arguments name is written. -/
def Writes (S' : SetterState G α) : Call α → Prop
  | .setshape group _ =>
    SameMaps S S' (fun i => i = group.toNat) (fun _ _ => False) ∧ SameValues S S' fun _ _ => False
  | .setvaluei xi inst n _ _ =>
    SameMaps S S' (fun _ => False) (fun _ _ => False) ∧
      SameValues S S' fun yi i => xi.toInt = yi.val ∧ GivenState.Covers inst n i
  | .setmap emap inst _ =>
    SameMaps S S' (fun i => 0 ≤ emap.toInt ∧ (i : Int) = emap.toInt + G.ng)
      (fun map i => map = emap.toInt ∧ i = inst.toNat) ∧ SameValues S S' fun _ _ => False

/-- A call reports an error and changes nothing, or names an existing slot and writes only that. -/
def Meets (c : Call α) : Prop :=
  match S.run M c with
  | .done S' => S.Names M c ∧ S.Writes S' c
  | .E_exit _ S' => S' = S
  | .outside => False

/-- `fhkS_setvaluei` gets past the checks of the variable and of the sum, and not to the check of the first
instance. -/
def Passes (x : Fin G.nv) (inst : BitVec 16) (n : BitVec 32) : Prop :=
  V_GIVEN (G.vars x) = true ∧ S.kmap (G.vars x).group ≠ SS_UNDEF ∧ (inst.setWidth 32 + n).toNat ≤ S.shape x ∧
    ¬ S.Present x inst.toNat

/-- The arguments that the checks treat right. For values: an empty range is not looked at, so it has to
name a slot; the index is neither negative nor the number of variables; the sum does not wrap; and the
part of the range in its last word of the bitmap is missing, unless the range ends with the word or the
group. For maps: a constant map is below the number of user maps, or not below that of all maps, and a
nonconstant map belongs to a group. -/
def Guarded : Call α → Prop
  | .setshape _ _ => True
  | .setvaluei xi inst n vp arena =>
    if n = 0 then S.Names M (.setvaluei xi inst n vp arena)
    else xi.toInt > G.nv ∨ ∃ x : Fin G.nv, xi.toInt = x.val ∧ (S.Passes x inst n →
      inst.toNat + n.toNat ≤ S.shape x ∧ ((inst.toNat + n.toNat) % 64 = 0 ∨ inst.toNat + n.toNat = S.shape x ∨
        ∀ i, GivenState.Covers inst n i → 64 * ((inst.toNat + n.toNat) / 64) ≤ i → ¬ S.Present x i))
  | .setmap emap _ _ =>
    emap.toInt < -M.nimap.toNat ∨ emap.toInt ≥ M.nkmap.toNat ∨
      0 ≤ emap.toInt ∧ emap.toInt < (M.nkmap.toNat - G.ng : Nat) ∨
      emap.toInt < 0 ∧ M.umap_assoc emap.toInt < G.ng

end SetterState

/-! ## Values -/

namespace GivenState
variable {G : Graph} {α : Type} {S : GivenState G α} {xi : Fin G.nv} {inst : BitVec 16} {n : BitVec 32} {vp arena : Nat → α}

theorem Marked.kmap {r : Bool × GivenState G α} (inv : S.Inv) (marked : Marked S xi inst n vp arena r) : r.2.kmap = S.kmap := by
  cases marked with
  | zero => rfl
  | reject => rfl
  | whole known fresh all pos => exact (inv.bm_getall0 pos (shape_lt xi)).kmap
  | part => rfl
  | new known => exact (inv.newMissing known).kmap

/-- What is marked says what is kept. -/
theorem Marks.others {S' : GivenState G α} (marks : Marks S S' xi inst n vp) {yi : Fin G.nv} {i : Nat} (small : i < S.shape yi)
    (other : ¬ (yi = xi ∧ Covers inst n i)) : (S'.Present yi i ↔ S.Present yi i) ∧ S'.fhkI_value yi i = S.fhkI_value yi i := by
  constructor
  · rw [marks.present yi i small]
    exact or_iff_right other
  · rw [marks.value yi i small, if_neg other]

/-- A copy into a bitmap with a one at the first instance keeps what is outside of the range, where the bits
outside of it are kept. -/
theorem Inv.copyValues_others (inv : S.Inv) (buffered : S.Buffered) {p : Nat} (here : S.vmstate xi = some p)
    (one : bit (S.bm p) inst.toNat = true) (pos : 0 < n.toNat) (room : inst.toNat + n.toNat ≤ S.shape xi) {yi : Fin G.nv}
    {i : Nat} (other : ¬ (yi = xi ∧ Covers inst n i))
    (kept : yi = xi → bit (bm_cleari (S.bm p) inst.toNat n.toNat) i = bit (S.bm p) i) :
    ((S.copyValues xi p inst.toNat n.toNat vp arena).Present yi i ↔ S.Present yi i) ∧
      (S.copyValues xi p inst.toNat n.toNat vp arena).fhkI_value yi i = S.fhkI_value yi i := by
  obtain ⟨-, covered⟩ := inv.covers xi p here
  obtain ⟨alone, -⟩ := inv.alone here (by omega) one
  have vmstate : (S.copyValues xi p inst.toNat n.toNat vp arena).vmstate = S.vmstate := rfl
  by_cases same : yi = xi
  · subst same
    have here' : (S.copyValues yi p inst.toNat n.toNat vp arena).vmstate yi = some p := here
    have bits : bit ((S.copyValues yi p inst.toNat n.toNat vp arena).bm p) i = bit (S.bm p) i := by
      simp only [GivenState.copyValues, Function.update_self]
      exact kept rfl
    obtain ⟨buf, is_buf⟩ := Option.isSome_iff_exists.mp (buffered yi (by rw [here]; rfl))
    constructor
    · rw [present_iff here', present_iff here, bits]
    · rw [fhkI_value_some here', fhkI_value_some here, bits]
      simp only [GivenState.copyValues, Function.update_self, is_buf, Option.map_some, Option.getD_some]
      have outside : ¬ (inst.toNat ≤ i ∧ i < inst.toNat + n.toNat) := fun covers => other ⟨rfl, covers⟩
      rw [if_neg outside]
  · have value : (S.copyValues xi p inst.toNat n.toNat vp arena).value yi = S.value yi := by
      simp only [GivenState.copyValues]
      exact Function.update_of_ne same _ _
    cases there : S.vmstate yi with
    | none =>
      have there' : (S.copyValues xi p inst.toNat n.toNat vp arena).vmstate yi = none := there
      constructor
      · exact iff_of_false (not_present there' i) (not_present there i)
      · rw [fhkI_value, fhkI_value, there', there, Option.bind_none, Option.bind_none]
    | some q =>
      have there' : (S.copyValues xi p inst.toNat n.toNat vp arena).vmstate yi = some q := there
      have bm : (S.copyValues xi p inst.toNat n.toNat vp arena).bm q = S.bm q := by
        simp only [GivenState.copyValues]
        exact Function.update_of_ne (fun eq => alone yi same (there.trans (congrArg some eq))) _ _
      constructor
      · rw [present_iff there', present_iff there, bm]
      · rw [fhkI_value_some there', fhkI_value_some there, bm, value]

/-- A range that is accepted passes the checks, and its first instance is missing. -/
theorem accepted_passes (nonempty : n ≠ 0) (accepted : (S.fhkS_setvaluei xi inst n vp arena).1 = true) :
    V_GIVEN (G.vars xi) = true ∧ S.kmap (G.vars xi).group ≠ SS_UNDEF ∧ (inst.setWidth 32 + n).toNat ≤ S.shape xi ∧
      ¬ S.Present xi inst.toNat := by
  rw [fhkS_setvaluei, if_neg nonempty] at accepted
  split at accepted
  · cases accepted
  rename_i given
  split at accepted
  · cases accepted
  rename_i known
  split at accepted
  · cases accepted
  rename_i room
  refine ⟨not_not.mp given, known, Nat.not_lt.mp room, ?_⟩
  cases here : S.vmstate xi with
  | none => exact not_present here _
  | some p =>
    rw [here] at accepted
    split at accepted
    · rw [if_pos Option.isSome_some] at accepted
      cases accepted
    · change (if ¬ bm_isset (S.bm p) inst.toNat = true then (false, S)
        else (true, S.copyValues xi p inst.toNat n.toNat vp arena)).1 = true at accepted
      split at accepted
      · cases accepted
      · rename_i first
        rw [present_iff here, ← bm_isset_eq]
        exact fun clear => first (by rw [clear]; exact Bool.false_ne_true)

/-- Past the checks a range is accepted, or is the whole group. -/
theorem passes_accepted (nonempty : n ≠ 0) (given : V_GIVEN (G.vars xi) = true) (known : S.kmap (G.vars xi).group ≠ SS_UNDEF)
    (room : (inst.setWidth 32 + n).toNat ≤ S.shape xi) (missing : ¬ S.Present xi inst.toNat) :
    (S.fhkS_setvaluei xi inst n vp arena).1 = true ∨ inst.toNat + n.toNat = S.shape xi := by
  rw [fhkS_setvaluei, if_neg nonempty, if_neg (not_not.mpr given), if_neg known, if_neg (Nat.not_lt.mpr room)]
  split
  · rename_i all
    have small := shape_lt (S := S) xi
    have low := inst.isLt
    rw [BitVec.toNat_sub, BitVec.toNat_setWidth] at all
    rw [BitVec.toNat_add, BitVec.toNat_setWidth] at room
    have high := n.isLt
    exact .inr (by omega)
  · cases here : S.vmstate xi with
    | none => exact .inl rfl
    | some p =>
      rw [present_iff here] at missing
      simp only [bm_isset_eq]
      rw [if_neg (by simpa using missing)]
      exact .inl rfl

end GivenState

namespace SetterState
variable {G : Graph} {α : Type} {M : MapCounts G} {S : SetterState G α}

/-- The entries of user maps are no shapes of variables. -/
theorem inv_of_kmap {T : GivenState G α} (inv : T.Inv) {kmap : Nat → BitVec 64}
    (same : ∀ xi, kmap (G.vars xi).group = T.kmap (G.vars xi).group) : ({ T with kmap } : GivenState G α).Inv := by
  refine ⟨fun xi p here => ?_, inv.below, inv.belowShadow, inv.belowIntern, inv.shared, inv.intern, inv.apart⟩
  obtain ⟨known, covered⟩ := inv.covers xi p here
  change kmap _ ≠ SS_UNDEF ∧ PK_N1 ((kmap _).setWidth 32) ≤ _
  rw [same]
  exact ⟨known, covered⟩

/-- What a call that returns leaves of the fields of `GivenState`. -/
theorem done_given {c : Call α} {S' : SetterState G α} (inv : S.toGivenState.Inv) (buffered : S.toGivenState.Buffered)
    (returned : S.run M c = .done S') : S'.toGivenState.Inv ∧ S'.toGivenState.Buffered := by
  cases c with
  | setshape group shape =>
    simp only [run, fhkS_setshape] at returned
    split at returned
    · cases returned
    split at returned
    · cases returned
    rename_i ss accepted
    split at returned
    · cases returned
    rename_i unset
    cases returned
    exact inv.step buffered (.setshape group.toNat shape ss (not_not.mp unset) accepted)
  | setvaluei xi inst n vp arena =>
    simp only [run, fhkS_setvaluei] at returned
    split at returned
    · cases returned
      exact ⟨inv, buffered⟩
    split at returned
    · cases returned
    split at returned
    · rename_i index
      split at returned
      · cases returned
      split at returned
      · cases returned
        exact inv.step buffered (.setvaluei ⟨xi.toInt.toNat, index.2⟩ inst n vp arena)
      · cases returned
    · cases returned
  | setmap emap inst ss =>
    simp only [run, fhkS_setmap] at returned
    split at returned
    · cases returned
    split at returned
    · rename_i const
      split at returned
      · cases returned
      split at returned
      · cases returned
      cases returned
      refine ⟨inv_of_kmap inv fun xi => Function.update_of_ne (fun same => ?_) _ _, buffered⟩
      have group := M.groups xi
      unfold map_fromext at const same
      split at const <;> split at same <;> omega
    · split at returned
      · cases returned
      split at returned
      · cases returned
      split at returned
      · cases returned
      split at returned
      · cases returned
        exact ⟨inv, buffered⟩
      · split at returned
        · cases returned
        · cases returned
          exact ⟨inv, buffered⟩

theorem Reachable.given (reachable : S.Reachable M) : S.toGivenState.Inv ∧ S.toGivenState.Buffered := by
  induction reachable with
  | refl => exact ⟨GivenState.create_inv, fun _ there => by cases there⟩
  | tail _ step ih =>
    cases step with
    | call c returned => exact done_given ih.1 ih.2 returned
    | solver T step => exact ih.1.step ih.2 step

theorem SameValues.refl (slot : Fin G.nv → Nat → Prop) : SameValues S S slot := fun _ _ _ _ => ⟨Iff.rfl, rfl⟩

theorem meets_setshape (group : BitVec 8) (shape : BitVec 16) : S.Meets M (.setshape group shape) := by
  simp only [Meets, run, fhkS_setshape]
  by_cases names : group.toNat ≥ G.ng
  · rw [if_pos names]
  rw [if_neg names]
  cases M2.Fhk.fhkS_setshape shape with
  | none => rfl
  | some ss =>
    by_cases set : S.kmap group.toNat ≠ SS_UNDEF
    · simp only [if_pos set]
    · simp only [if_neg set]
      exact ⟨Nat.not_le.mp names, ⟨fun i other => Function.update_of_ne other _ _, fun _ _ _ => rfl⟩,
        fun _ _ _ _ => ⟨Iff.rfl, rfl⟩⟩

theorem meets_setmap (emap : BitVec 32) (inst : BitVec 16) (ss : BitVec 64) :
    S.Meets M (.setmap emap inst ss) ↔ S.Guarded M (.setmap emap inst ss) := by
  have counts := M.ng_le
  simp only [Meets, run, fhkS_setmap, Guarded]
  by_cases refused : emap.toInt < -M.nimap.toNat ∨ emap.toInt ≥ M.nkmap.toNat
  · rw [if_pos refused]
    exact iff_of_true rfl (refused.elim .inl fun ge => .inr (.inl ge))
  rw [if_neg refused]
  by_cases const : 0 ≤ emap.toInt
  · have map : map_fromext G emap.toInt = emap.toInt + G.ng := if_pos const
    rw [map, if_pos (by omega)]
    by_cases past : (emap.toInt + G.ng).toNat ≥ M.nkmap.toNat
    · rw [if_pos past]
      exact iff_of_false not_false (by omega)
    rw [if_neg past]
    have guarded : emap.toInt < (M.nkmap.toNat - G.ng : Nat) := by omega
    refine iff_of_true ?_ (.inr (.inr (.inl ⟨const, guarded⟩)))
    by_cases set : S.kmap (emap.toInt + G.ng).toNat ≠ SS_UNDEF
    · rw [if_pos set]
    · rw [if_neg set]
      refine ⟨.inl ⟨const, guarded⟩, ⟨fun i other => Function.update_of_ne (fun same => ?_) _ _, fun _ _ _ => rfl⟩,
        fun _ _ _ _ => ⟨Iff.rfl, rfl⟩⟩
      exact other ⟨const, by omega⟩
  · have map : map_fromext G emap.toInt = emap.toInt := if_neg const
    rw [map, if_neg const]
    by_cases past : M.umap_assoc emap.toInt ≥ M.nkmap.toNat
    · rw [if_pos past]
      exact iff_of_false not_false (by omega)
    rw [if_neg past]
    have group : M.umap_assoc emap.toInt < G.ng := (M.assoc emap.toInt).resolve_right past
    refine iff_of_true ?_ (.inr (.inr (.inr ⟨by omega, group⟩)))
    by_cases unknown : S.kmap (M.umap_assoc emap.toInt) = SS_UNDEF
    · rw [if_pos unknown]
    rw [if_neg unknown]
    by_cases large : inst.toNat ≥ PK_N1 ((S.kmap (M.umap_assoc emap.toInt)).setWidth 32)
    · rw [if_pos large]
    rw [if_neg large]
    have names : S.Names M (.setmap emap inst ss) := .inr ⟨by omega, by omega, group, unknown, by omega⟩
    cases here : S.imap emap.toInt with
    | none =>
      refine ⟨names, ⟨fun _ _ => rfl, fun map i other => ?_⟩, fun _ _ _ _ => ⟨Iff.rfl, rfl⟩⟩
      by_cases same : map = emap.toInt
      · subst same
        simp only [entry, Function.update_self, here, Option.map_some, Option.getD_some, Option.map_none, Option.getD_none]
        exact Function.update_of_ne (fun eq => other ⟨rfl, eq⟩) _ _
      · simp only [entry, Function.update_of_ne same]
    | some imap =>
      by_cases set : imap inst.toNat ≠ SS_UNDEF
      · simp only [if_pos set]
      · simp only [if_neg set]
        refine ⟨names, ⟨fun _ _ => rfl, fun map i other => ?_⟩, fun _ _ _ _ => ⟨Iff.rfl, rfl⟩⟩
        by_cases same : map = emap.toInt
        · subst same
          simp only [entry, Function.update_self, here, Option.map_some, Option.getD_some]
          exact Function.update_of_ne (fun eq => other ⟨rfl, eq⟩) _ _
        · simp only [entry, Function.update_of_ne same]

/-- The end of a range that `Guarded` allows. -/
def EndsWell (T : GivenState G α) (x : Fin G.nv) (inst : BitVec 16) (n : BitVec 32) : Prop :=
  (inst.toNat + n.toNat) % 64 = 0 ∨ inst.toNat + n.toNat = T.shape x ∨
    ∀ i, GivenState.Covers inst n i → 64 * ((inst.toNat + n.toNat) / 64) ≤ i → ¬ T.Present x i

/-- Where the last word of the range is all missing, its bits behind the range are kept. -/
theorem EndsWell.kept {T : GivenState G α} {x : Fin G.nv} {inst : BitVec 16} {n : BitVec 32} {p i : Nat}
    (ends : EndsWell T x inst n) (here : T.vmstate x = some p) (pos : 0 < n.toNat)
    (room : inst.toNat + n.toNat ≤ 64 * (T.bm p).length) (small : i < T.shape x) (outside : ¬ GivenState.Covers inst n i) :
    bit (bm_cleari (T.bm p) inst.toNat n.toNat) i = bit (T.bm p) i := by
  unfold GivenState.Covers at outside
  by_cases below : i < inst.toNat
  · exact bm_cleari_below pos room below
  · apply bm_cleari_behind pos room _ (by omega)
    intro part j low word high
    obtain whole | last | missing := ends
    · exact absurd whole part
    · omega
    · have absent := missing j ⟨low, high⟩ word
      rw [GivenState.present_iff here] at absent
      simpa using absent

/-- An instance that is present in the last word of the range flips the presence of the one behind it. -/
theorem not_endsWell_flips {T : GivenState G α} {x : Fin G.nv} {inst : BitVec 16} {n : BitVec 32} {p : Nat} {vp arena : Nat → α}
    (ends : ¬ EndsWell T x inst n) (here : T.vmstate x = some p) (room : inst.toNat + n.toNat ≤ 64 * (T.bm p).length) :
    ¬ ((T.copyValues x p inst.toNat n.toNat vp arena).Present x (inst.toNat + n.toNat) ↔
      T.Present x (inst.toNat + n.toNat)) := by
  unfold EndsWell at ends
  push Not at ends
  obtain ⟨part, -, j, covers, word, present⟩ := ends
  have here' : (T.copyValues x p inst.toNat n.toNat vp arena).vmstate x = some p := here
  have last : ¬ LastOnes (T.bm p) inst.toNat n.toNat := by
    intro ones
    have one := ones part j covers.1 word covers.2
    rw [GivenState.present_iff here, one] at present
    cases present
  have flipped := bm_cleari_at room last
  rw [GivenState.present_iff here', GivenState.present_iff here]
  simp only [GivenState.copyValues, Function.update_self, flipped]
  cases bit (T.bm p) (inst.toNat + n.toNat) <;> simp

/-- A range that is accepted inside of the shape changes nothing else exactly where its end is allowed. -/
theorem sameValues_iff (inv : S.toGivenState.Inv) (buffered : S.toGivenState.Buffered) {x : Fin G.nv} {xi inst : BitVec 16}
    (index : xi.toInt = x.val) {n : BitVec 32} {vp arena : Nat → α} (nonempty : n ≠ 0)
    (accepted : (S.toGivenState.fhkS_setvaluei x inst n vp arena).1 = true) (room : inst.toNat + n.toNat ≤ S.shape x) :
    SameValues S { S with toGivenState := (S.toGivenState.fhkS_setvaluei x inst n vp arena).2 }
        (fun yi i => xi.toInt = yi.val ∧ GivenState.Covers inst n i) ↔ EndsWell S.toGivenState x inst n := by
  have pos : 0 < n.toNat := Nat.pos_of_ne_zero fun zero => nonempty (BitVec.eq_of_toNat_eq zero)
  have slot (yi : Fin G.nv) (i : Nat) : (xi.toInt = yi.val ∧ GivenState.Covers inst n i) ↔ (yi = x ∧ GivenState.Covers inst n i) := by
    rw [index, Fin.ext_iff]
    exact and_congr_left fun _ => by omega
  have marked := GivenState.marked S.toGivenState x inst n vp arena
  generalize S.toGivenState.fhkS_setvaluei x inst n vp arena = r at accepted marked ⊢
  cases marked with
  | zero empty => exact absurd empty nonempty
  | reject => cases accepted
  | whole known fresh all shape_pos =>
    have whole := (GivenState.whole_iff pos room).mp all
    refine iff_of_true (fun yi i small other => ?_) (.inr (.inl (by omega)))
    have marks := (inv.bm_getall0 shape_pos (GivenState.shape_lt x)).marks inv fresh whole vp
    exact marks.others small fun both => other ((slot yi i).mpr both)
  | part here first not_all =>
    rename_i p
    rw [bm_isset_eq] at first
    obtain ⟨-, covered⟩ := inv.covers x p here
    constructor
    · intro same
      by_contra ends
      have inside : inst.toNat + n.toNat < S.shape x := by
        refine lt_of_le_of_ne room fun eq => ends (.inr (.inl eq))
      refine not_endsWell_flips ends here (by omega) (same x _ inside fun both => ?_).1
      exact absurd both.2.2 (Nat.lt_irrefl _)
    · intro ends yi i small other
      replace other := (not_congr (slot yi i)).mp other
      refine inv.copyValues_others buffered here first pos room other fun eq => ?_
      subst eq
      exact ends.kept here pos (by omega) small fun covers => other ⟨rfl, covers⟩
  | new known fresh not_all =>
    refine iff_of_true (fun yi i small other => ?_) (.inr (.inr fun i _ _ => GivenState.not_present fresh i))
    exact (inv.new_marks known fresh pos room vp arena).others small fun both => other ((slot yi i).mpr both)

theorem meets_setvaluei (inv : S.toGivenState.Inv) (buffered : S.toGivenState.Buffered) (xi inst : BitVec 16) (n : BitVec 32)
    (vp arena : Nat → α) : S.Meets M (.setvaluei xi inst n vp arena) ↔ S.Guarded M (.setvaluei xi inst n vp arena) := by
  simp only [Meets, run, fhkS_setvaluei, Guarded]
  by_cases empty : n = 0
  · rw [if_pos empty, if_pos empty]
    exact and_iff_left ⟨⟨fun _ _ => rfl, fun _ _ _ => rfl⟩, SameValues.refl _⟩
  rw [if_neg empty, if_neg empty]
  by_cases high : xi.toInt > G.nv
  · rw [if_pos high]
    exact iff_of_true rfl (.inl high)
  rw [if_neg high]
  by_cases index : 0 ≤ xi.toInt ∧ xi.toInt.toNat < G.nv
  · rw [dif_pos index]
    have is_x : xi.toInt = (⟨xi.toInt.toNat, index.2⟩ : Fin G.nv).val := (Int.toNat_of_nonneg index.1).symm
    generalize (⟨xi.toInt.toNat, index.2⟩ : Fin G.nv) = x at is_x ⊢
    have same_x {y : Fin G.nv} (is_y : xi.toInt = y.val) : y = x := Fin.ext (by omega)
    have marked := GivenState.marked S.toGivenState x inst n vp arena
    by_cases accepted : (S.toGivenState.fhkS_setvaluei x inst n vp arena).1 = true
    · rw [if_neg (not_not.mpr accepted)]
      have passes : S.Passes x inst n := GivenState.accepted_passes empty accepted
      by_cases room : inst.toNat + n.toNat ≤ S.shape x
      · rw [if_pos room]
        have same := sameValues_iff inv buffered is_x empty accepted room
        constructor
        · rintro ⟨-, -, values⟩
          exact .inr ⟨x, is_x, fun _ => ⟨room, same.mp values⟩⟩
        · intro guarded
          obtain ⟨y, is_y, ends⟩ := guarded.resolve_left high
          rw [same_x is_y] at ends
          refine ⟨⟨x, is_x, passes.1, passes.2.1, room⟩, ⟨fun i _ => ?_, fun _ _ _ => rfl⟩, same.mpr (ends passes).2⟩
          exact congrFun (marked.kmap inv) i
      · rw [if_neg room]
        refine iff_of_false not_false fun guarded => ?_
        obtain ⟨y, is_y, ends⟩ := guarded.resolve_left high
        rw [same_x is_y] at ends
        exact room (ends passes).1
    · rw [if_pos accepted]
      refine iff_of_true rfl (.inr ⟨x, is_x, fun passes => ?_⟩)
      have checked := @GivenState.passes_accepted _ α S.toGivenState x inst n vp arena empty passes.1 passes.2.1 passes.2.2.1
        passes.2.2.2
      have whole := checked.resolve_left accepted
      exact ⟨whole.le, .inr (.inl whole)⟩
  · rw [dif_neg index]
    refine iff_of_false not_false fun guarded => ?_
    obtain ⟨y, is_y, -⟩ := guarded.resolve_left high
    exact index ⟨by omega, by omega⟩

/-- In every reachable state a call of a setter reports an error and changes nothing, or names an existing
slot and writes only that, exactly where the checks treat its arguments right. -/
theorem meets_iff (reachable : S.Reachable M) (c : Call α) : S.Meets M c ↔ S.Guarded M c := by
  obtain ⟨inv, buffered⟩ := reachable.given
  cases c with
  | setshape group shape => exact iff_of_true (meets_setshape group shape) trivial
  | setvaluei xi inst n vp arena => exact meets_setvaluei inv buffered xi inst n vp arena
  | setmap emap inst ss => exact meets_setmap emap inst ss

end SetterState

namespace Overlap

/-- One group, the constant user map 0, and the nonconstant user map -1 of the group. -/
def counts : MapCounts graph where
  nkmap := 2
  nimap := 1
  umap_assoc map := if map = -1 then 0 else FHK_NGRP
  ng_le := by decide
  assoc map := by
    split
    · exact .inl Nat.one_pos
    · exact .inr (by decide)
  groups _ := Nat.one_pos

def created : SetterState graph Nat := SetterState.create graph Nat

theorem meets_iff_created : created.Meets counts (.setmap (-1) 0 0x10000) ↔ created.Guarded counts (.setmap (-1) 0 0x10000) :=
  SetterState.meets_iff Relation.ReflTransGen.refl _

/-- The group has four instances. -/
def grouped : SetterState graph Nat := { created with kmap := Function.update (fun _ => SS_UNDEF) 0 (SS_PKIVAL 0 4) }

theorem grouped_reachable : grouped.Reachable counts :=
  Relation.ReflTransGen.single (.call (.setshape 0 4) rfl)

/-- A variable index that is the number of variables or negative, a constant map that is the number of user
maps, and a sum that wraps lead outside of the arrays. -/
theorem not_meets : grouped.Reachable counts ∧
    ¬ grouped.Meets counts (.setvaluei 1 0 1 (fun _ => 7) fun _ => 0) ∧
    ¬ grouped.Meets counts (.setvaluei (-1) 0 1 (fun _ => 7) fun _ => 0) ∧
    ¬ grouped.Meets counts (.setvaluei 0 1 0xffffffff (fun _ => 7) fun _ => 0) ∧
    ¬ grouped.Meets counts (.setmap 1 0 0x10000) := by
  have refused {c : SetterState.Call Nat} (outside : grouped.run counts c = .outside) : ¬ grouped.Meets counts c := by
    rw [SetterState.Meets, outside]
    exact not_false
  exact ⟨grouped_reachable, refused rfl, refused rfl, refused rfl, refused rfl⟩

end Overlap
end M2.Fhk
