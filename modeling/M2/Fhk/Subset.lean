import Mathlib.Tactic.Linarith
import M2.Lib.Bits
import M2.Fhk.Graph

/-!
# Packed subset iterators

The `SS_*`, `PK_*` and `SI_*` macros of `src/fhk/solve.c` on 64-bit words, with
`fhkS_setshape`, `mapE_ssiter` and `si_cnexti`. The intervals of a complex subset are read
through a partial memory, so that a read outside of what is stored has no value. In
`SS_PKIVAL` the `uint16_t` shape is promoted to `int` before it is complemented and
shifted, and the `int` is sign extended by the addition.
-/
namespace M2.Fhk

/-- `SS_EMPTYSET`. -/
def SS_EMPTYSET : BitVec 64 := 0x00010000

/-- `G_MAXINST`. -/
def G_MAXINST : Nat := 0xfffe

/-- `SI_HINT_BITS`. -/
def SI_HINT_BITS : Nat := 7

/-- `SS_PKIVAL(i,n)` of an `int` and a `uint16_t`. -/
def SS_PKIVAL (i : BitVec 32) (n : BitVec 16) : BitVec 64 :=
  (((~~~ n.setWidth 32) <<< 16) + i).signExtend 64 + 0xfffffffc00020000

/-- `SS_ISCOMPLEX(ss)`. -/
def SS_ISCOMPLEX (ss : BitVec 64) : Bool := SS_EMPTYSET.slt ss

/-- `SS_CPTR(ss)`. -/
def SS_CPTR (ss : BitVec 64) : BitVec 48 := (ss >>> 16).setWidth 48

/-- `SS_CNUMI(ss)`. -/
def SS_CNUMI (ss : BitVec 64) : Nat := (ss &&& 0xffff).toNat

/-- `PK_FIRST(pki)`. -/
def PK_FIRST (pki : BitVec 32) : Nat := (pki &&& 0xffff).toNat

/-- `PK_N1(pki)`. -/
def PK_N1 (pki : BitVec 32) : Nat := ((1 - (pki >>> 16)) &&& 0xffff).toNat

/-- `SI_INST(it)`. -/
def SI_INST (it : BitVec 64) : Nat := (it &&& 0xffff).toNat

/-- `SI_MAP(it)`, the byte. -/
def SI_MAP (it : BitVec 64) : BitVec 8 := (it >>> 56).setWidth 8

/-- `SI_MAP_INST(it)`. -/
def SI_MAP_INST (it : BitVec 64) : BitVec 16 := (it >>> 40).setWidth 16

/-- `SI_HINT(it)`. The `int` mask is sign extended. -/
def SI_HINT (it : BitVec 64) : BitVec 64 :=
  (it >>> 33) &&& (~~~ ((1 <<< SI_HINT_BITS) - 1 : BitVec 32)).signExtend 64

/-- `SI_INCR`. -/
def SI_INCR : BitVec 64 := 0x00010001

/-- `SI_NEXTMASK`. -/
def SI_NEXTMASK : BitVec 64 := 0xffff0000

/-- `SI_NEXTIMASK`. -/
def SI_NEXTIMASK : BitVec 64 := 0x100000000

/-- `SI_CFIRST(map,inst,pki)`. -/
def SI_CFIRST (map : BitVec 8) (inst : BitVec 16) (pki : BitVec 32) : BitVec 64 :=
  (map.signExtend 64 <<< 56) ||| (inst.setWidth 64 <<< 40) ||| pki.setWidth 64

/-- `SI_CNEXT(it,hint,last,pki)`. The expansion does not use `last`. -/
def SI_CNEXT (it hint : BitVec 64) (_last : Bool) (pki : BitVec 32) : BitVec 64 :=
  (it &&& (BitVec.allOnes 64 <<< 40)) ||| ((hint &&& ((1 <<< SI_HINT_BITS) - 1)) <<< 33) |||
    pki.setWidth 64

/-- What the iterators read of the solver: `s_mapstate`, and the interval memory. -/
structure MapState where
  kmap : BitVec 8 → BitVec 64
  imap : BitVec 8 → BitVec 16 → BitVec 64
  mem : BitVec 48 → Nat → Option (BitVec 32)

/-- The kinds of end of the loop body: go on with an iterator, or leave the loop. -/
inductive Next where
  | go (it : BitVec 64)
  | stop
  deriving DecidableEq

/-- The subset `fhkS_setshape` stores; an invalid shape is refused. -/
def fhkS_setshape (shape : BitVec 16) : Option (BitVec 64) :=
  if G_MAXINST < shape.toNat then none
  else some (if shape = 0 then SS_EMPTYSET else SS_PKIVAL 0 shape)

namespace MapState
variable (S : MapState)

/-- `mapE_subset`. -/
def mapE_subset (map : BitVec 8) (inst : BitVec 16) : BitVec 64 :=
  if map.msb then S.imap map inst else S.kmap map

/-- `mapE_ssiter` of a map other than the identity: no iterator for an empty set. -/
def mapE_ssiter (map : BitVec 8) (inst : BitVec 16) : Option (BitVec 64) :=
  let ss := S.mapE_subset map inst
  if SS_ISCOMPLEX ss then (S.mem (SS_CPTR ss) 0).map (SI_CFIRST map inst)
  else if ss = SS_EMPTYSET then none
  else some ss

/-- The blocked binary search of `si_cnexti`. -/
def searchBlock (p : Nat → Option (BitVec 32)) (prev a b : Nat) : Option Nat :=
  if a < b then do
    let i := a + ((b - a) >>> 1)
    let pki ← p (((i + 1) <<< SI_HINT_BITS) - 1)
    if PK_FIRST pki < prev then searchBlock p prev (i + 1) b else searchBlock p prev a i
  else some a
termination_by b - a
decreasing_by
  · omega
  · have : (b - a) >>> 1 < b - a := by rw [Nat.shiftRight_eq_div_pow]; omega
    omega

/-- `si_cnexti`; a read outside of the stored intervals has no result. -/
def si_cnexti (it : BitVec 64) : Option (BitVec 64) := do
  let ss := S.mapE_subset (SI_MAP it) (SI_MAP_INST it)
  let n := SS_CNUMI ss
  let p := S.mem (SS_CPTR ss)
  let a ← searchBlock p (SI_INST it) 0 (n >>> SI_HINT_BITS)
  let ivl := BitVec.ofNat 64 (a <<< SI_HINT_BITS) ||| SI_HINT it
  let pki ← p ivl.toNat
  return SI_CNEXT it (SI_HINT it + 1) (ivl.toNat == n) pki

/-- `SI_NEXT(it)`. -/
def SI_NEXT (it : BitVec 64) : Option Next :=
  if it &&& SI_NEXTMASK ≠ 0 then some (.go (it + SI_INCR))
  else if it &&& SI_NEXTIMASK ≠ 0 then (S.si_cnexti it).map .go
  else some .stop

/-- The loop from an iterator ends, reads what is stored, and visits these instances. -/
inductive Visits : BitVec 64 → List Nat → Prop
  | stop (it) (next : S.SI_NEXT it = some .stop) : Visits it [SI_INST it]
  | go (it it' l) (next : S.SI_NEXT it = some (.go it')) (rest : Visits it' l) :
      Visits it (SI_INST it :: l)

end MapState

/-- The instances of a packed interval. -/
def intervalInsts (pki : BitVec 32) : List Nat := List.range' (PK_FIRST pki) (PK_N1 pki)

/-- A map entry: a space map set by `fhkS_setshape`, or a complex subset in a user map. -/
inductive Entry where
  | space (group : BitVec 8) (shape : BitVec 16)
  | complex (map : BitVec 8) (inst : BitVec 16) (ivals : List (BitVec 32))

namespace Entry

/-- The instances of the subset, in order. -/
def insts : Entry → List Nat
  | space _ shape => List.range shape.toNat
  | complex _ _ ivals => ivals.flatMap intervalInsts

/-- The entry as the solver stores it, in a graph with `ng` groups: group numbers are
below `ng` and nonnegative, user maps are the other ones, and an interval list is sorted
and disjoint. -/
inductive Stored (S : MapState) (ng : Nat) : Entry → Prop
  | space (group shape) (below : group.toNat < ng) (nonneg : group.msb = false) (pos : 0 < shape.toNat)
      (set : fhkS_setshape shape = some (S.kmap group)) : Stored S ng (space group shape)
  | complex (map inst ivals) (groups : 0 < ng) (user : ng ≤ map.toNat)
      (ident : map ≠ 0x80) (isComplex : SS_ISCOMPLEX (S.mapE_subset map inst) = true)
      (num : SS_CNUMI (S.mapE_subset map inst) + 1 = ivals.length) (many : 2 ≤ ivals.length)
      (mem : ∀ i, S.mem (SS_CPTR (S.mapE_subset map inst)) i = ivals[i]?)
      (within : ∀ pki ∈ ivals, 0 < PK_N1 pki ∧ PK_FIRST pki + PK_N1 pki ≤ G_MAXINST)
      (sorted : ivals.Pairwise fun p q => PK_FIRST p + PK_N1 p ≤ PK_FIRST q) :
      Stored S ng (complex map inst ivals)

/-- The iterator of the entry, for a mapped instance. -/
def ssiter (S : MapState) (inst : BitVec 16) : Entry → Option (BitVec 64)
  | space group _ => S.mapE_ssiter group inst
  | complex map m _ => S.mapE_ssiter map m

/-- Iterating the entry visits exactly its instances. -/
def Iterates (S : MapState) (inst : BitVec 16) (e : Entry) : Prop :=
  ∃ it, e.ssiter S inst = some it ∧ S.Visits it e.insts

/-- The entries that are iterated right: space maps of at most 32767 instances. -/
def Short : Entry → Prop
  | space _ shape => shape.toNat ≤ 0x7fff
  | complex _ _ _ => False

end Entry

section Words

theorem SI_INST_eq (it : BitVec 64) : SI_INST it = it.toNat % 2 ^ 16 := by
  rw [SI_INST, BitVec.toNat_and]
  exact Nat.and_two_pow_sub_one_eq_mod _ 16

theorem nextmask_ne_zero (it : BitVec 64) : it &&& SI_NEXTMASK ≠ 0 ↔ it.toNat / 2 ^ 16 % 2 ^ 16 ≠ 0 := by
  rw [ne_eq, ← BitVec.toNat_inj, BitVec.toNat_and]
  exact not_congr (Lib.Bits.and_mask_eq_zero it.toNat 16 16)

theorem nextimask_ne_zero (it : BitVec 64) : it &&& SI_NEXTIMASK ≠ 0 ↔ it.toNat / 2 ^ 32 % 2 ≠ 0 := by
  rw [ne_eq, ← BitVec.toNat_inj, BitVec.toNat_and]
  exact not_congr (Lib.Bits.and_mask_eq_zero it.toNat 1 32)

theorem shape_word_toNat (n : BitVec 16) : ((~~~ n.setWidth 32 : BitVec 32) <<< 16 + 0).toNat =
    (2 ^ 32 - 1 - n.toNat) * 2 ^ 16 % 2 ^ 32 := by
  have lt := n.isLt
  rw [show ∀ w : BitVec 32, w + 0 = w from BitVec.add_zero, BitVec.toNat_shiftLeft, BitVec.toNat_not,
    BitVec.toNat_setWidth, Nat.shiftLeft_eq, Nat.mod_eq_of_lt (by omega : n.toNat < 2 ^ 32)]

/-- The packed interval `[0, n)`. From `n = 32768` on the shifted `int` has lost its sign:
the word is `2^32` larger. -/
theorem SS_PKIVAL_toNat (n : BitVec 16) (pos : 0 < n.toNat) :
    (SS_PKIVAL 0 n).toNat = 2 ^ 64 - 2 ^ 34 + (if n.toNat ≤ 0x7fff then 0 else 2 ^ 32) -
      (n.toNat - 1) * 2 ^ 16 := by
  have lt := n.isLt
  have word := shape_word_toNat n
  unfold SS_PKIVAL
  generalize (~~~ n.setWidth 32 : BitVec 32) <<< 16 + 0 = w at word
  rw [BitVec.toNat_add, BitVec.toNat_signExtend, BitVec.msb_eq_decide, BitVec.toNat_setWidth, word,
    show BitVec.toNat (0xfffffffc00020000 : BitVec 64) = 0xfffffffc00020000 from rfl]
  simp only [decide_eq_true_eq]
  split <;> split <;> omega

theorem SI_CFIRST_toNat (map : BitVec 8) (inst : BitVec 16) (pki : BitVec 32) :
    (SI_CFIRST map inst pki).toNat = (map.toNat * 2 ^ 16 + inst.toNat) * 2 ^ 40 + pki.toNat := by
  have hm := map.isLt
  have hi := inst.isLt
  have hp := pki.isLt
  have high : (map.signExtend 64 <<< 56).toNat = map.toNat <<< 56 := by
    rw [BitVec.toNat_shiftLeft, BitVec.toNat_signExtend, BitVec.toNat_setWidth, Nat.shiftLeft_eq,
      Nat.shiftLeft_eq]
    split <;> omega
  have mid : (inst.setWidth 64 <<< 40).toNat = inst.toNat <<< 40 := by
    rw [BitVec.toNat_shiftLeft, BitVec.toNat_setWidth, Nat.shiftLeft_eq, Nat.shiftLeft_eq]
    omega
  have low : (pki.setWidth 64).toNat = pki.toNat := by
    rw [BitVec.toNat_setWidth]
    omega
  have front : map.toNat <<< 56 ||| inst.toNat <<< 40 = (map.toNat * 2 ^ 16 + inst.toNat) <<< 40 := by
    rw [← Nat.shiftLeft_add_eq_or_of_lt (by rw [Nat.shiftLeft_eq]; omega)]
    simp only [Nat.shiftLeft_eq]
    omega
  rw [SI_CFIRST, BitVec.toNat_or, BitVec.toNat_or, high, mid, low, front,
    ← Nat.shiftLeft_add_eq_or_of_lt (by omega), Nat.shiftLeft_eq]

theorem SI_HINT_toNat (it : BitVec 64) : (SI_HINT it).toNat = it.toNat / 2 ^ 40 * 2 ^ 7 := by
  have lt := it.isLt
  rw [SI_HINT, BitVec.toNat_and, BitVec.toNat_ushiftRight, Nat.shiftRight_eq_div_pow,
    show ((~~~ ((1 <<< SI_HINT_BITS) - 1 : BitVec 32)).signExtend 64).toNat = Lib.Bits.mask 57 7 from rfl,
    Lib.Bits.and_mask]
  omega

theorem SI_MAP_toNat (it : BitVec 64) : (SI_MAP it).toNat = it.toNat / 2 ^ 56 := by
  have lt := it.isLt
  rw [SI_MAP, BitVec.toNat_setWidth, BitVec.toNat_ushiftRight, Nat.shiftRight_eq_div_pow]
  omega

theorem SI_MAP_INST_toNat (it : BitVec 64) : (SI_MAP_INST it).toNat = it.toNat / 2 ^ 40 % 2 ^ 16 := by
  rw [SI_MAP_INST, BitVec.toNat_setWidth, BitVec.toNat_ushiftRight, Nat.shiftRight_eq_div_pow]

/-- One increment moves the instance and the remaining count, without a carry out. -/
theorem add_SI_INCR_toNat (it : BitVec 64) (room : it.toNat + 65537 < 2 ^ 64) :
    (it + SI_INCR).toNat = it.toNat + 65537 := by
  rw [BitVec.toNat_add, show SI_INCR.toNat = 65537 from rfl, Nat.mod_eq_of_lt room]

/-- The two halves of a packed interval. -/
theorem pki_halves (pki : BitVec 32) (pos : 0 < PK_N1 pki) (lt : PK_N1 pki < 2 ^ 16) :
    pki.toNat = (if PK_N1 pki = 1 then 0 else (65537 - PK_N1 pki) * 2 ^ 16) + PK_FIRST pki := by
  have w := pki.isLt
  have first : PK_FIRST pki = pki.toNat % 2 ^ 16 := by
    rw [PK_FIRST, BitVec.toNat_and]
    exact Nat.and_two_pow_sub_one_eq_mod _ 16
  have n1 : PK_N1 pki = (2 ^ 32 - pki.toNat / 2 ^ 16 + 1) % 2 ^ 32 % 2 ^ 16 := by
    rw [PK_N1, BitVec.toNat_and, BitVec.toNat_sub, BitVec.toNat_ushiftRight, Nat.shiftRight_eq_div_pow]
    exact Nat.and_two_pow_sub_one_eq_mod _ 16
  split <;> omega

end Words

namespace MapState
variable {S : MapState}

theorem SI_NEXT_rem {it : BitVec 64} (rem : it.toNat / 2 ^ 16 % 2 ^ 16 ≠ 0) :
    S.SI_NEXT it = some (.go (it + SI_INCR)) := by
  rw [SI_NEXT, if_pos ((nextmask_ne_zero it).mpr rem)]

theorem SI_NEXT_stop {it : BitVec 64} (rem : it.toNat / 2 ^ 16 % 2 ^ 16 = 0) (last : it.toNat / 2 ^ 32 % 2 = 0) :
    S.SI_NEXT it = some .stop := by
  rw [SI_NEXT, if_neg (by rw [nextmask_ne_zero]; simpa using rem),
    if_neg (by rw [nextimask_ne_zero]; simpa using last)]

theorem SI_NEXT_interval {it : BitVec 64} (rem : it.toNat / 2 ^ 16 % 2 ^ 16 = 0)
    (more : it.toNat / 2 ^ 32 % 2 ≠ 0) : S.SI_NEXT it = (S.si_cnexti it).map .go := by
  rw [SI_NEXT, if_neg (by rw [nextmask_ne_zero]; simpa using rem),
    if_pos ((nextimask_ne_zero it).mpr more)]

/-- A run that goes on visits the instance and what the rest visits. -/
theorem Visits.of_go {it it' : BitVec 64} {l : List Nat} (visits : S.Visits it l)
    (next : S.SI_NEXT it = some (.go it')) : ∃ rest, l = SI_INST it :: rest ∧ S.Visits it' rest := by
  cases visits with
  | stop _ stops => rw [next] at stops; cases stops
  | go _ it'' rest goes visits =>
    rw [next] at goes
    cases goes
    exact ⟨rest, rfl, visits⟩

theorem Visits.length_pos {it : BitVec 64} {l : List Nat} (visits : S.Visits it l) : 0 < l.length := by
  cases visits <;> exact Nat.succ_pos _

/-- A space map of at most 32767 instances: the iterator visits the rest of the space. -/
theorem visits_space {left j : Nat} (small : j + left < 0x7fff) (it : BitVec 64)
    (at' : it.toNat + left * 2 ^ 16 = 2 ^ 64 - 2 ^ 34 + j) : S.Visits it (List.range' j (left + 1)) := by
  have inst : SI_INST it = j := by rw [SI_INST_eq]; omega
  induction left generalizing j it with
  | zero =>
    have stop : S.SI_NEXT it = some .stop := SI_NEXT_stop (by omega) (by omega)
    rw [List.range'_one, ← inst]
    exact .stop it stop
  | succ left ih =>
    have next : S.SI_NEXT it = some (.go (it + SI_INCR)) := SI_NEXT_rem (by omega)
    have moved := add_SI_INCR_toNat it (by omega)
    have inst' : SI_INST (it + SI_INCR) = j + 1 := by rw [SI_INST_eq, moved]; omega
    have rest := ih (j := j + 1) (by omega) (it + SI_INCR) (by omega) inst'
    rw [List.range'_succ, ← inst]
    exact .go it _ _ next (inst ▸ rest)

/-- A space map of more instances: the iterator goes on past the last one. -/
theorem visits_long {left j : Nat} (small : j + left < G_MAXINST) (it : BitVec 64)
    (at' : it.toNat + left * 2 ^ 16 = 2 ^ 64 - 2 ^ 34 + 2 ^ 32 + j) {l : List Nat}
    (visits : S.Visits it l) : left + 1 < l.length := by
  rw [G_MAXINST] at small
  induction left generalizing j it l with
  | zero =>
    have next : S.SI_NEXT it = (S.si_cnexti it).map .go := SI_NEXT_interval (by omega) (by omega)
    cases visits with
    | stop _ stops =>
      rw [next] at stops
      obtain ⟨_, _, other⟩ := Option.map_eq_some_iff.mp stops
      cases other
    | go _ it' rest _ visits =>
      have := visits.length_pos
      rw [List.length_cons]
      omega
  | succ left ih =>
    obtain ⟨rest, rfl, further⟩ := visits.of_go (SI_NEXT_rem (by omega))
    have moved := add_SI_INCR_toNat it (by omega)
    have := ih (j := j + 1) (by omega) (it + SI_INCR) (by omega) further
    rw [List.length_cons]
    omega

/-- `si_cnexti` of an iterator of a user map reads outside of the stored intervals. -/
theorem si_cnexti_outside {map : BitVec 8} {inst : BitVec 16} {ivals : List (BitVec 32)} (user : 0 < map.toNat)
    (few : ivals.length ≤ 2 ^ 16) (mem : ∀ i, S.mem (SS_CPTR (S.mapE_subset map inst)) i = ivals[i]?)
    {it : BitVec 64} {low : Nat} (at' : it.toNat = (map.toNat * 2 ^ 16 + inst.toNat) * 2 ^ 40 + low)
    (small : low < 2 ^ 40) : S.si_cnexti it = none := by
  have hi := inst.isLt
  have map_eq : SI_MAP it = map := by
    rw [← BitVec.toNat_inj, SI_MAP_toNat]
    omega
  have inst_eq : SI_MAP_INST it = inst := by
    rw [← BitVec.toNat_inj, SI_MAP_INST_toNat]
    omega
  have hint : 2 ^ 23 ≤ (SI_HINT it).toNat := by
    rw [SI_HINT_toNat]
    omega
  unfold si_cnexti
  simp only [map_eq, inst_eq]
  cases searchBlock (S.mem (SS_CPTR (S.mapE_subset map inst))) (SI_INST it) 0
      (SS_CNUMI (S.mapE_subset map inst) >>> SI_HINT_BITS) with
  | none => rfl
  | some a =>
    have outside : ivals.length ≤ (BitVec.ofNat 64 (a <<< SI_HINT_BITS) ||| SI_HINT it).toNat := by
      rw [BitVec.toNat_or]
      have := Nat.right_le_or (n := (BitVec.ofNat 64 (a <<< SI_HINT_BITS)).toNat) (m := (SI_HINT it).toNat)
      omega
    have read : S.mem (SS_CPTR (S.mapE_subset map inst))
        (BitVec.ofNat 64 (a <<< SI_HINT_BITS) ||| SI_HINT it).toNat = none := by
      rw [mem, List.getElem?_eq_none outside]
    show (do let pki ← S.mem _ _; return _) = none
    rw [read]
    rfl

/-- The loop over a complex subset never ends well once it has left a first interval of
two instances or more. -/
theorem not_visits_interval {map : BitVec 8} {inst : BitVec 16} {ivals : List (BitVec 32)} (user : 0 < map.toNat)
    (few : ivals.length ≤ 2 ^ 16) (mem : ∀ i, S.mem (SS_CPTR (S.mapE_subset map inst)) i = ivals[i]?)
    {left j : Nat} (small : j + left < G_MAXINST) (it : BitVec 64)
    (at' : it.toNat + left * 2 ^ 16 = (map.toNat * 2 ^ 16 + inst.toNat) * 2 ^ 40 + 2 ^ 32 + j)
    (l : List Nat) : ¬ S.Visits it l := by
  have hm := map.isLt
  have hi := inst.isLt
  rw [G_MAXINST] at small
  induction left generalizing j it l with
  | zero =>
    have next : S.SI_NEXT it = (S.si_cnexti it).map .go := SI_NEXT_interval (by omega) (by omega)
    have fields : it.toNat = (map.toNat * 2 ^ 16 + inst.toNat) * 2 ^ 40 + (2 ^ 32 + j) := by linarith
    rw [si_cnexti_outside user few mem fields (by omega)] at next
    intro visits
    cases visits with
    | stop _ stops => rw [next] at stops; cases stops
    | go _ _ _ goes _ => rw [next] at goes; cases goes
  | succ left ih =>
    intro visits
    obtain ⟨rest, rfl, further⟩ := visits.of_go (SI_NEXT_rem (by omega))
    have moved := add_SI_INCR_toNat it (by omega)
    exact ih (j := j + 1) (by omega) (it + SI_INCR) (by omega) rest further

end MapState

namespace Entry
variable {S : MapState}

/-- The iterator of a space map is the packed interval. -/
theorem ssiter_space {ng : Nat} {group : BitVec 8} {shape : BitVec 16} (stored : Stored S ng (space group shape))
    (inst : BitVec 16) : (space group shape).ssiter S inst = some (SS_PKIVAL 0 shape) ∧ shape.toNat ≤ G_MAXINST := by
  cases stored with
  | space _ _ _ nonneg pos set =>
    unfold fhkS_setshape at set
    split at set
    · cases set
    · rename_i small
      have some' : shape ≠ 0 := by
        rintro rfl
        exact absurd pos (by decide)
      rw [if_neg some', Option.some_inj] at set
      have word := SS_PKIVAL_toNat shape pos
      have large : 2 ^ 63 ≤ (SS_PKIVAL 0 shape).toNat := by
        rw [word]
        have := shape.isLt
        split <;> omega
      have plain : SS_ISCOMPLEX (SS_PKIVAL 0 shape) = false := by
        rw [SS_ISCOMPLEX, BitVec.slt, decide_eq_false_iff_not, BitVec.toInt_eq_toNat_cond (SS_PKIVAL 0 shape),
          if_neg (by omega), show SS_EMPTYSET.toInt = 65536 from rfl]
        have := (SS_PKIVAL 0 shape).isLt
        omega
      have nonempty : SS_PKIVAL 0 shape ≠ SS_EMPTYSET := by
        intro same
        rw [same] at large
        exact absurd large (by decide)
      refine ⟨?_, not_lt.mp small⟩
      have subset : S.mapE_subset group inst = SS_PKIVAL 0 shape := by
        rw [MapState.mapE_subset, nonneg]
        exact set.symm
      unfold ssiter MapState.mapE_ssiter
      simp only [subset, plain, nonempty, if_false]
      rfl

/-- A space map is iterated right up to 32767 instances. -/
theorem iterates_space {ng : Nat} {group : BitVec 8} {shape : BitVec 16} (stored : Stored S ng (space group shape))
    (inst : BitVec 16) : (space group shape).Iterates S inst ↔ shape.toNat ≤ 0x7fff := by
  obtain ⟨iter, small⟩ := ssiter_space stored inst
  have pos : 0 < shape.toNat := by cases stored; assumption
  have word := SS_PKIVAL_toNat shape pos
  constructor
  · rintro ⟨it, same, visits⟩
    rw [iter] at same
    obtain same := Option.some.inj same
    subst same
    by_contra long
    rw [if_neg long] at word
    obtain ⟨left, full⟩ : ∃ left, shape.toNat = left + 1 := Nat.exists_eq_succ_of_ne_zero pos.ne'
    have at' : (SS_PKIVAL 0 shape).toNat + left * 2 ^ 16 = 2 ^ 64 - 2 ^ 34 + 2 ^ 32 + 0 := by omega
    have longer := MapState.visits_long (by omega) _ at' visits
    rw [insts, List.length_range] at longer
    omega
  · intro short
    rw [if_pos short] at word
    refine ⟨_, iter, ?_⟩
    obtain ⟨left, full⟩ : ∃ left, shape.toNat = left + 1 := Nat.exists_eq_succ_of_ne_zero pos.ne'
    have at' : (SS_PKIVAL 0 shape).toNat + left * 2 ^ 16 = 2 ^ 64 - 2 ^ 34 + 0 := by omega
    have visits := MapState.visits_space (S := S) (by omega) _ at'
    rwa [← full, ← List.range_eq_range'] at visits

/-- A complex subset is never iterated right. -/
theorem not_iterates_complex {ng : Nat} {map : BitVec 8} {m : BitVec 16} {ivals : List (BitVec 32)}
    (stored : Stored S ng (complex map m ivals)) (inst : BitVec 16) : ¬ (complex map m ivals).Iterates S inst := by
  rintro ⟨it, iter, visits⟩
  cases stored with
  | complex _ _ _ groups user _ isComplex num many mem within _ =>
    have few : ivals.length ≤ 2 ^ 16 := by
      have := (Nat.and_le_right : (S.mapE_subset map m).toNat &&& 0xffff ≤ 0xffff)
      rw [← num, SS_CNUMI, BitVec.toNat_and]
      exact Nat.succ_le_succ this
    obtain ⟨first, second, rest, rfl⟩ : ∃ p q r, ivals = p :: q :: r := by
      match ivals, many with
      | p :: q :: r, _ => exact ⟨p, q, r, rfl⟩
    obtain ⟨pos, fits⟩ := within first (by simp)
    obtain ⟨pos', _⟩ := within second (by simp)
    have start : (complex map m (first :: second :: rest)).ssiter S inst = some (SI_CFIRST map m first) := by
      simp only [ssiter, MapState.mapE_ssiter, isComplex, if_true, mem]
      rfl
    rw [start] at iter
    cases iter
    have word := SI_CFIRST_toNat map m first
    have halves := pki_halves first pos (by rw [G_MAXINST] at fits; omega)
    rw [G_MAXINST] at fits
    by_cases one : PK_N1 first = 1
    · -- no carry: the loop ends after the first interval
      rw [if_pos one] at halves
      have next : S.SI_NEXT (SI_CFIRST map m first) = some .stop := MapState.SI_NEXT_stop (by omega) (by omega)
      have once : ∀ l, S.Visits (SI_CFIRST map m first) l → l.length = 1 := by
        intro l visits
        cases visits with
        | stop => rfl
        | go _ _ _ goes _ => rw [next] at goes; cases goes
      have total := once _ visits
      simp only [insts, List.flatMap_cons, List.length_append, intervalInsts, List.length_range'] at total
      omega
    · rw [if_neg one] at halves
      obtain ⟨left, full⟩ : ∃ left, PK_N1 first = left + 1 := Nat.exists_eq_succ_of_ne_zero pos.ne'
      have at' : (SI_CFIRST map m first).toNat + left * 2 ^ 16 =
          (map.toNat * 2 ^ 16 + m.toNat) * 2 ^ 40 + 2 ^ 32 + PK_FIRST first := by omega
      have inside : PK_FIRST first + left < G_MAXINST := by rw [G_MAXINST]; omega
      exact MapState.not_visits_interval (lt_of_lt_of_le groups user) few mem inside _ at' _ visits

end Entry

/-- An entry is iterated right exactly when it is a space map of at most 32767 instances. -/
theorem iterates_iff_short (S : MapState) (ng : Nat) (e : Entry) (stored : e.Stored S ng) (inst : BitVec 16) :
    e.Iterates S inst ↔ e.Short := by
  cases e with
  | space group shape => exact Entry.iterates_space stored inst
  | complex map m ivals => exact iff_of_false (Entry.not_iterates_complex stored inst) id

namespace Packed

/-- A space of `shape` instances in group 0. -/
def spaceState (shape : BitVec 16) : MapState where
  kmap _ := (fhkS_setshape shape).getD SS_EMPTYSET
  imap _ _ := SS_EMPTYSET
  mem _ _ := none

/-- `{3,4}` and `{7,8}` at address 16, in the nonconstant user map -1. -/
def ivals : List (BitVec 32) := [0xffff0003, 0xffff0007]

def complexState : MapState where
  kmap _ := SS_EMPTYSET
  imap _ _ := 0x100001
  mem p n := if p = 16 then ivals[n]? else none

theorem ivals_within : ∀ pki ∈ ivals, 0 < PK_N1 pki ∧ PK_FIRST pki + PK_N1 pki ≤ G_MAXINST := by
  intro pki mem
  have two : pki = 0xffff0003 ∨ pki = 0xffff0007 := by simpa [ivals] using mem
  have first : PK_N1 0xffff0003 = 2 ∧ PK_FIRST 0xffff0003 = 3 := by decide +kernel
  have second : PK_N1 0xffff0007 = 2 ∧ PK_FIRST 0xffff0007 = 7 := by decide +kernel
  rcases two with rfl | rfl
  · rw [first.1, first.2, G_MAXINST]; omega
  · rw [second.1, second.2, G_MAXINST]; omega

theorem complex_mem (i : Nat) :
    complexState.mem (SS_CPTR (complexState.mapE_subset 255 0)) i = ivals[i]? := by
  have ptr : SS_CPTR (complexState.mapE_subset 255 0) = 16 := by decide +kernel
  rw [ptr]
  rfl

theorem complex_stored : (Entry.complex 255 0 ivals).Stored complexState 1 :=
  .complex 255 0 ivals Nat.one_pos (by decide) (by decide) (by decide +kernel) (by decide +kernel)
    (by decide) complex_mem ivals_within (by decide +kernel)

end Packed

/-- A space of three instances. -/
theorem iterates_three : (Entry.space 0 3).Iterates (Packed.spaceState 3) 0 :=
  (iterates_iff_short (Packed.spaceState 3) 1 (.space 0 3) (.space 0 3 (by decide) rfl (by decide) (by decide)) 0).mpr
    (show (3 : BitVec 16).toNat ≤ 0x7fff by decide)

/-- A space of 32768 instances, and a complex subset of two intervals. -/
theorem iterates_fails :
    (Entry.space 0 32768).Stored (Packed.spaceState 32768) 1 ∧
    ¬ (Entry.space 0 32768).Iterates (Packed.spaceState 32768) 0 ∧
    (Entry.complex 255 0 Packed.ivals).Stored Packed.complexState 1 ∧
    ¬ (Entry.complex 255 0 Packed.ivals).Iterates Packed.complexState 0 := by
  have space : (Entry.space 0 32768).Stored (Packed.spaceState 32768) 1 :=
    .space 0 32768 (by decide) rfl (by decide) (by decide)
  have complex := Packed.complex_stored
  have long : ¬ (32768 : BitVec 16).toNat ≤ 0x7fff := by decide
  exact ⟨space, fun iterates => long ((Entry.iterates_space space 0).mp iterates), complex,
    Entry.not_iterates_complex complex 0⟩

end M2.Fhk
