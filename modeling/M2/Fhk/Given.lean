import M2.Lib.Bitmap
import M2.Mem.Region
import M2.Fhk.Subset

/-!
# Values of given variables

`fhkS_setvaluei` of `src/fhk/solve.c` and the bitmaps of missing instances. A bitmap is named by its
address: variables whose values were all given at once share one interned bitmap of zeros. Bits are
cleared by an addition, which is right for a range of ones only, and only the first bit of the range
is looked at before.
-/
namespace M2.Fhk

open M2.Lib.Bitmap
open M2.Mem (Word ALIGN le_ALIGN ALIGN_block)

/-- `SS_UNDEF`. -/
def SS_UNDEF : BitVec 64 := BitVec.allOnes 64

/-- `PK_NS(pki)`. -/
def PK_NS (pki : BitVec 32) : Int := -(pki.sshiftRight 16).toInt

/-- `V_GIVEN(x)`. -/
def V_GIVEN {nm : Nat} (x : Var nm) : Bool := x.models.isEmpty

/-- `bm_isset`. -/
def bm_isset (b : List Word) (inst : Nat) : Bool :=
  (b[inst >>> 6]?).getD (BitVec.allOnes 64) &&& (1 : Word) <<< (inst &&& 0x3f) != 0

/-- The words `bm_alloc` allocates. -/
def bm_alloc (num init : Word) : List Word := List.replicate ((ALIGN num 64).toNat / 8) init

/-- One word of `bm_cleari`: a run of ones from `start` up to `stop` becomes zeros. -/
def bm_clearw (m : Word) (start stop : Nat) : Word :=
  m + (1 : Word) <<< start - (if stop < 64 then (1 : Word) <<< stop else 0)

/-- The loop of `bm_cleari`, at word `k`, where `left` does not go below 0. -/
def bm_clearLoop (bm : List Word) (k left : Nat) : List Word :=
  if 0 < left then
    bm_clearLoop (bm.set k (bm_clearw ((bm[k]?).getD (BitVec.allOnes 64)) 0 left)) (k + 1) (left - 64)
  else bm
termination_by left

/-- `bm_cleari`. -/
def bm_cleari (bm : List Word) (inst num : Nat) : List Word :=
  let k := inst >>> 6
  let start := inst &&& 0x3f
  bm_clearLoop (bm.set k (bm_clearw ((bm[k]?).getD (BitVec.allOnes 64)) start (start + num))) (k + 1)
    (num - (64 - start))

/-! ## Bits -/

theorem bm_isset_eq (b : List Word) (inst : Nat) : bm_isset b inst = bit b inst := by
  have word : inst >>> 6 = inst / 64 := Nat.shiftRight_eq_div_pow inst 6
  have place : inst &&& 0x3f = inst % 64 := Nat.and_two_pow_sub_one_eq_mod inst 6
  rw [bm_isset, bit, word, place]
  generalize (b[inst / 64]?).getD (BitVec.allOnes 64) = w
  have small := Nat.mod_lt inst (show 0 < 64 by decide)
  have power : (1 : Word) <<< (inst % 64) = BitVec.twoPow 64 (inst % 64) := rfl
  rw [power, BitVec.and_twoPow]
  split
  · rename_i set
    rw [set, bne_iff_ne]
    exact twoPow_ne_zero small
  · rename_i clear
    rw [Bool.not_eq_true _ |>.mp clear]
    rfl

/-- A run of ones in a word is cleared, the part behind the word left out. -/
theorem getLsbD_bm_clearw {m : Word} {start stop : Nat} (lt : start < 64) (le : start ≤ stop)
    (ones : ∀ i < 64, start ≤ i → i < stop → m.getLsbD i = true) {i : Nat} (small : i < 64) :
    (bm_clearw m start stop).getLsbD i = (m.getLsbD i && !decide (start ≤ i ∧ i < stop)) := by
  rw [bm_clearw, add_sub_run m lt le,
    getLsbD_sub_run (fun j small le lt => ones j small le (by omega)) small]
  congr 3
  rw [eq_iff_iff]
  omega

theorem bm_clearLoop_length (bm : List Word) (k left : Nat) : (bm_clearLoop bm k left).length = bm.length := by
  fun_induction bm_clearLoop bm k left with
  | case1 bm k left more ih => rw [ih, List.length_set]
  | case2 => rfl

theorem bit_bm_clearLoop {bm : List Word} {k left : Nat} (room : 64 * k + left ≤ 64 * bm.length)
    (ones : ∀ i, 64 * k ≤ i → i < 64 * k + left → bit bm i = true) (i : Nat) :
    bit (bm_clearLoop bm k left) i = (bit bm i && !decide (64 * k ≤ i ∧ i < 64 * k + left)) := by
  fun_induction bm_clearLoop bm k left with
  | case1 bm k left more ih =>
    have inside : k < bm.length := by omega
    have word (j : Nat) (here : j / 64 = k) : ((bm[k]?).getD (BitVec.allOnes 64)).getLsbD (j % 64) = bit bm j := by
      rw [bit, here]
    have cleared (j : Nat) (here : j / 64 = k) :
        (bm_clearw ((bm[k]?).getD (BitVec.allOnes 64)) 0 left).getLsbD (j % 64) =
          (bit bm j && !decide (j % 64 < left)) := by
      rw [getLsbD_bm_clearw (by decide) (Nat.zero_le _) ?_ (by omega), word j here]
      · simp only [Nat.zero_le, true_and]
      · intro l small _ lt
        have := word (64 * k + l) (by omega)
        rw [show (64 * k + l) % 64 = l by omega] at this
        rw [this]
        exact ones _ (by omega) (by omega)
    rw [ih (by rw [List.length_set]; omega) fun j le lt => by
      rw [bit_set inside, if_neg (by omega)]
      exact ones j (by omega) (by omega)]
    rw [bit_set inside]
    by_cases here : i / 64 = k
    · rw [if_pos here, cleared i here, Bool.and_assoc, ← Bool.not_or, ← Bool.decide_or]
      congr 3
      rw [eq_iff_iff]
      omega
    · rw [if_neg here]
      congr 3
      rw [eq_iff_iff]
      omega
  | case2 bm k left done =>
    rw [decide_eq_false (by omega), Bool.not_false, Bool.and_true]

/-- `bm_cleari` clears a range of ones. -/
theorem bit_bm_cleari {bm : List Word} {inst num : Nat} (pos : 0 < num) (room : inst + num ≤ 64 * bm.length)
    (ones : ∀ i, inst ≤ i → i < inst + num → bit bm i = true) (i : Nat) :
    bit (bm_cleari bm inst num) i = (bit bm i && !decide (inst ≤ i ∧ i < inst + num)) := by
  have word : inst >>> 6 = inst / 64 := Nat.shiftRight_eq_div_pow inst 6
  have place : inst &&& 0x3f = inst % 64 := Nat.and_two_pow_sub_one_eq_mod inst 6
  have inside : inst / 64 < bm.length := by omega
  unfold bm_cleari
  simp only [word, place]
  have cleared (j : Nat) (here : j / 64 = inst / 64) :
      (bm_clearw ((bm[inst / 64]?).getD (BitVec.allOnes 64)) (inst % 64) (inst % 64 + num)).getLsbD (j % 64) =
        (bit bm j && !decide (inst ≤ j ∧ j < inst + num)) := by
    rw [getLsbD_bm_clearw (by omega) (by omega) ?_ (by omega), bit, here]
    · congr 3
      rw [eq_iff_iff]
      omega
    · intro l small le lt
      have := ones (64 * (inst / 64) + l) (by omega) (by omega)
      rwa [bit, show (64 * (inst / 64) + l) / 64 = inst / 64 by omega,
        show (64 * (inst / 64) + l) % 64 = l by omega] at this
  rw [bit_bm_clearLoop (by rw [List.length_set]; omega) fun j le lt => by
    rw [bit_set inside, if_neg (by omega)]
    exact ones j (by omega) (by omega)]
  rw [bit_set inside]
  by_cases here : i / 64 = inst / 64
  · rw [if_pos here, cleared i here, Bool.and_assoc, ← Bool.not_or, ← Bool.decide_or]
    congr 3
    rw [eq_iff_iff]
    omega
  · rw [if_neg here]
    congr 3
    rw [eq_iff_iff]
    omega

theorem bm_cleari_length (bm : List Word) (inst num : Nat) : (bm_cleari bm inst num).length = bm.length := by
  rw [bm_cleari, bm_clearLoop_length, List.length_set]

/-! ## The state -/

/-- The fields of `struct fhk_solver` for given variables, bitmaps and values of type `α` stored
behind the pointers. -/
structure GivenState (G : Graph) (α : Type) where
  kmap : Nat → BitVec 64
  vmstate : Fin G.nv → Option Nat
  sstate : Fin G.nw → Option Nat
  value : Fin G.nv → Option (Nat → α)
  bm : Nat → List Word
  next : Nat
  bm0_size : BitVec 16
  bm0_intern : Nat

namespace GivenState
variable {G : Graph} {α : Type} (S : GivenState G α)

/-- The known shape of a variable's group. -/
def shape (xi : Fin G.nv) : Nat := PK_N1 ((S.kmap (G.vars xi).group).setWidth 32)

/-- A bitmap at a new address. -/
def addBitmap (words : List Word) : Nat × GivenState G α :=
  (S.next, { S with bm := Function.update S.bm S.next words, next := S.next + 1 })

/-- `num` of `bm_getall0`, one-based. -/
def bm0_num (n : Nat) : Int :=
  (List.range G.ng).foldl (fun num i => max num (PK_NS ((S.kmap i).setWidth 32))) n + 1

/-- `bm_getall0`. -/
def bm_getall0 (n : Nat) : Nat × GivenState G α :=
  if S.bm0_size.toNat ≥ n then (S.bm0_intern, S)
  else
    let num := BitVec.ofInt 64 (S.bm0_num n)
    let (p, S) := S.addBitmap (bm_alloc num 0)
    (p, { S with bm0_size := (ALIGN num 64).setWidth 16, bm0_intern := p })

/-- The end of `fhkS_setvaluei`: the bits are cleared, and the values copied into the buffer of `xi` or
a new one. -/
def copyValues (xi : Fin G.nv) (p inst n : Nat) (vp arena : Nat → α) : GivenState G α :=
  let buf := (S.value xi).getD arena
  let copied := fun i => if inst ≤ i ∧ i < inst + n then vp (i - inst) else buf i
  { S with
    bm := Function.update S.bm p (bm_cleari (S.bm p) inst n)
    value := Function.update S.value xi (some copied) }

/-- A bitmap of ones for `xi`. -/
def newMissing (xi : Fin G.nv) : Nat × GivenState G α :=
  let (p, S) := S.addBitmap (bm_alloc (BitVec.ofNat 64 (S.shape xi)) (BitVec.allOnes 64))
  (p, { S with vmstate := Function.update S.vmstate xi (some p) })

/-- `fhkS_setvaluei` of a variable index, and whether it accepts. The values are those behind the
pointers, `arena` being what a new buffer holds. -/
def fhkS_setvaluei (xi : Fin G.nv) (inst : BitVec 16) (n : BitVec 32) (vp arena : Nat → α) :
    Bool × GivenState G α :=
  if n = 0 then (true, S)
  else if ¬ V_GIVEN (G.vars xi) then (false, S)
  else if S.kmap (G.vars xi).group = SS_UNDEF then (false, S)
  else if (inst.setWidth 32 + n).toNat > S.shape xi then (false, S)
  else if (n - inst.setWidth 32).toNat = S.shape xi then
    if (S.vmstate xi).isSome then (false, S)
    else
      let (p, S) := S.bm_getall0 (S.shape xi)
      (true, { S with
        vmstate := Function.update S.vmstate xi (some p)
        value := Function.update S.value xi (some vp) })
  else
    match S.vmstate xi with
    | some p =>
      if ¬ bm_isset (S.bm p) inst.toNat then (false, S)
      else (true, S.copyValues xi p inst.toNat n.toNat vp arena)
    | none =>
      let (p, S) := S.newMissing xi
      (true, S.copyValues xi p inst.toNat n.toNat vp arena)

/-- An instance that is not missing. -/
def Present (xi : Fin G.nv) (i : Nat) : Prop := ∃ p, S.vmstate xi = some p ∧ bm_isset (S.bm p) i = false

/-- `fhkI_value` of a given variable, read. -/
def fhkI_value (xi : Fin G.nv) (i : Nat) : Option α :=
  (S.vmstate xi).bind fun p => if bm_isset (S.bm p) i then none else (S.value xi).map (· i)

/-- The state of a new solver. -/
def create (G : Graph) (α : Type) : GivenState G α where
  kmap _ := SS_UNDEF
  vmstate _ := none
  sstate _ := none
  value _ := none
  bm _ := []
  next := 0
  bm0_size := 0
  bm0_intern := 0

/-- What changes the state: the driver gives shapes, values and roots, and the solver expands and
writes the bitmaps of shadows. -/
inductive Step : GivenState G α → GivenState G α → Prop
  | setshape {S : GivenState G α} (group : Nat) (shape : BitVec 16) (ss : BitVec 64)
      (unset : S.kmap group = SS_UNDEF) (accepted : fhkS_setshape shape = some ss) :
      Step S { S with kmap := Function.update S.kmap group ss }
  | setvaluei {S : GivenState G α} (xi : Fin G.nv) (inst : BitVec 16) (n : BitVec 32) (vp arena : Nat → α) :
      Step S (S.fhkS_setvaluei xi inst n vp arena).2
  | setroot {S : GivenState G α} (xi : Fin G.nv) (buf : Nat → α) (unset : S.value xi = none) :
      Step S { S with value := Function.update S.value xi (some buf) }
  | expand {S : GivenState G α} (wi : Fin G.nw) (unset : S.sstate wi = none) (num : Word) :
      Step S { (S.addBitmap (bm_alloc num 0)).2 with sstate := Function.update S.sstate wi (some S.next) }
  | check {S : GivenState G α} (wi : Fin G.nw) (p : Nat) (here : S.sstate wi = some p) (words : List Word) :
      Step S { S with bm := Function.update S.bm p words }

def Reachable (S : GivenState G α) : Prop := Relation.ReflTransGen Step (create G α) S

/-- All bits of a bitmap are zero. -/
def Zeros (b : List Word) : Prop := ∀ i < 64 * b.length, bit b i = false

/-- The invariant: a bitmap covers its group, and only zeros are shared. -/
structure Inv (S : GivenState G α) : Prop where
  covers : ∀ xi p, S.vmstate xi = some p →
    S.kmap (G.vars xi).group ≠ SS_UNDEF ∧ S.shape xi ≤ 64 * (S.bm p).length
  below : ∀ xi p, S.vmstate xi = some p → p < S.next
  belowShadow : ∀ wi p, S.sstate wi = some p → p < S.next
  belowIntern : 0 < S.bm0_size.toNat → S.bm0_intern < S.next
  shared : ∀ xi yi p, S.vmstate xi = some p → S.vmstate yi = some p → xi ≠ yi → Zeros (S.bm p)
  intern : 0 < S.bm0_size.toNat → Zeros (S.bm S.bm0_intern) ∧
    S.bm0_size.toNat ≤ 64 * (S.bm S.bm0_intern).length
  apart : ∀ wi p, S.sstate wi = some p → (∀ xi, S.vmstate xi ≠ some p) ∧
    (0 < S.bm0_size.toNat → S.bm0_intern ≠ p)

/-- A variable with a bitmap has a buffer. -/
def Buffered (S : GivenState G α) : Prop := ∀ xi, (S.vmstate xi).isSome → (S.value xi).isSome

theorem create_inv : (create G α).Inv := by
  refine ⟨?_, ?_, ?_, ?_, ?_, ?_, ?_⟩ <;> intros <;> contradiction

variable {S : GivenState G α}

theorem addBitmap_new (words : List Word) : (S.addBitmap words).2.bm S.next = words :=
  Function.update_self ..

theorem addBitmap_old (words : List Word) {p : Nat} (lt : p < S.next) : (S.addBitmap words).2.bm p = S.bm p :=
  Function.update_of_ne (by omega) _ _

/-- A new bitmap keeps the invariant. -/
theorem Inv.addBitmap (inv : S.Inv) (words : List Word) : (S.addBitmap words).2.Inv := by
  refine ⟨fun xi p here => ?_, fun xi p here => Nat.lt_succ_of_lt (inv.below xi p here),
    fun wi p here => Nat.lt_succ_of_lt (inv.belowShadow wi p here), fun pos => Nat.lt_succ_of_lt (inv.belowIntern pos),
    fun xi yi p here there ne => ?_, fun pos => ?_, inv.apart⟩
  · rw [addBitmap_old words (inv.below xi p here)]
    exact inv.covers xi p here
  · rw [addBitmap_old words (inv.below xi p here)]
    exact inv.shared xi yi p here there ne
  · change Zeros ((S.addBitmap words).2.bm S.bm0_intern) ∧
      S.bm0_size.toNat ≤ 64 * ((S.addBitmap words).2.bm S.bm0_intern).length
    rw [addBitmap_old words (inv.belowIntern pos)]
    exact inv.intern pos

theorem bm_alloc_zeros (num : Word) : Zeros (bm_alloc num 0) := by
  intro i lt
  rw [bm_alloc, List.length_replicate] at lt
  rw [bm_alloc, bit_replicate _ (by omega)]
  exact BitVec.getLsbD_zero

/-- An allocated bitmap has a bit for every instance. -/
theorem le_bm_alloc {num : Word} (room : num.toNat + 63 < 2 ^ 64) (init : Word) :
    (ALIGN num 64).toNat ≤ 64 * (bm_alloc num init).length ∧ num.toNat ≤ (ALIGN num 64).toNat := by
  have block := ALIGN_block num
  rw [bm_alloc, List.length_replicate]
  exact ⟨by omega, le_ALIGN (by decide) room⟩

/-- The count of `bm_getall0` is at least what is asked for, and a small number. -/
theorem bm0_num_bounds (n : Nat) (small : n < 2 ^ 16) : (n : Int) + 1 ≤ S.bm0_num n ∧ S.bm0_num n ≤ 2 ^ 32 := by
  have signed (i : Nat) : PK_NS ((S.kmap i).setWidth 32) ≤ 2 ^ 31 := by
    unfold PK_NS
    have := BitVec.le_toInt (((S.kmap i).setWidth 32).sshiftRight 16)
    omega
  have fold : ∀ (l : List Nat) (num : Int), (n : Int) ≤ num → num ≤ 2 ^ 31 →
      (n : Int) ≤ l.foldl (fun num i => max num (PK_NS ((S.kmap i).setWidth 32))) num ∧
        l.foldl (fun num i => max num (PK_NS ((S.kmap i).setWidth 32))) num ≤ 2 ^ 31 := by
    intro l
    induction l with
    | nil => exact fun num low high => ⟨low, high⟩
    | cons i l ih =>
      intro num low high
      have := signed i
      exact ih (max num _) (by omega) (by omega)
  have := fold (List.range G.ng) n le_rfl (by omega)
  unfold bm0_num
  omega

/-- What `bm_getall0` returns: an all-zero bitmap that is large enough and belongs to no shadow. -/
structure AllZero (S S' : GivenState G α) (n p : Nat) : Prop where
  inv : S'.Inv
  kmap : S'.kmap = S.kmap
  vmstate : S'.vmstate = S.vmstate
  sstate : S'.sstate = S.sstate
  value : S'.value = S.value
  kept : ∀ q < S.next, S'.bm q = S.bm q
  zeros : Zeros (S'.bm p)
  room : n ≤ 64 * (S'.bm p).length
  below : p < S'.next
  apart : ∀ wi, S.sstate wi ≠ some p

theorem Inv.bm_getall0 (inv : S.Inv) {n : Nat} (pos : 0 < n) (small : n < 2 ^ 16) :
    AllZero S (S.bm_getall0 n).2 n (S.bm_getall0 n).1 := by
  unfold GivenState.bm_getall0
  split
  · rename_i enough
    obtain ⟨zeros, room⟩ := inv.intern (by omega)
    exact ⟨inv, rfl, rfl, rfl, rfl, fun _ _ => rfl, zeros, by simp only; omega, inv.belowIntern (by omega),
      fun wi here => (inv.apart wi _ here).2 (by omega) rfl⟩
  · simp only
    obtain ⟨low, high⟩ := bm0_num_bounds (S := S) n small
    generalize S.bm0_num n = num at low high ⊢
    have num_toNat : (BitVec.ofInt 64 num).toNat = num.toNat := by
      rw [BitVec.toNat_ofInt]
      omega
    obtain ⟨words, le⟩ := @le_bm_alloc (BitVec.ofInt 64 num) (by omega) 0
    have zeros := bm_alloc_zeros (BitVec.ofInt 64 num)
    have size : ((ALIGN (BitVec.ofInt 64 num) 64).setWidth 16).toNat ≤ (ALIGN (BitVec.ofInt 64 num) 64).toNat := by
      rw [BitVec.toNat_setWidth]
      exact Nat.mod_le _ _
    have added := inv.addBitmap (bm_alloc (BitVec.ofInt 64 num) 0)
    have apart (wi : Fin G.nw) : S.sstate wi ≠ some S.next := fun here =>
      absurd (inv.belowShadow wi _ here) (Nat.lt_irrefl _)
    refine ⟨⟨added.covers, added.below, added.belowShadow, fun _ => Nat.lt_succ_self _, added.shared, fun _ => ?_,
      fun wi p here => ⟨(inv.apart wi p here).1, fun _ same => apart wi (here.trans (congrArg some same.symm))⟩⟩,
      rfl, rfl, rfl, rfl, fun q lt => addBitmap_old _ lt, ?_, ?_, Nat.lt_succ_self _, apart⟩
    · change Zeros ((S.addBitmap _).2.bm S.next) ∧ _ ≤ 64 * ((S.addBitmap _).2.bm S.next).length
      rw [addBitmap_new]
      exact ⟨zeros, le_trans size words⟩
    · change Zeros ((S.addBitmap _).2.bm S.next)
      rwa [addBitmap_new]
    · change n ≤ 64 * ((S.addBitmap (bm_alloc (BitVec.ofInt 64 num) 0)).2.bm S.next).length
      rw [addBitmap_new]
      omega

theorem bm_cleari_outside {bm : List Word} {inst num : Nat} (outside : 64 * bm.length ≤ inst) :
    bm_cleari bm inst num = bm := by
  have word : inst >>> 6 = inst / 64 := Nat.shiftRight_eq_div_pow inst 6
  have loop (k left : Nat) (past : bm.length ≤ k) : bm_clearLoop bm k left = bm := by
    induction left using Nat.strongRecOn generalizing k with
    | _ left ih =>
      rw [bm_clearLoop]
      split
      · rw [List.set_eq_of_length_le past]
        exact ih (left - 64) (by omega) (k + 1) (by omega)
      · rfl
  unfold bm_cleari
  simp only [word]
  rw [List.set_eq_of_length_le (by omega)]
  exact loop _ _ (by omega)

/-- A bitmap with a one inside belongs to one variable, and is neither interned nor a shadow's. -/
theorem Inv.alone (inv : S.Inv) {xi : Fin G.nv} {p i : Nat} (here : S.vmstate xi = some p)
    (inside : i < 64 * (S.bm p).length) (one : bit (S.bm p) i = true) :
    (∀ yi, yi ≠ xi → S.vmstate yi ≠ some p) ∧ (0 < S.bm0_size.toNat → S.bm0_intern ≠ p) := by
  have zeros : ¬ Zeros (S.bm p) := fun zeros => by
    rw [zeros i inside] at one
    cases one
  refine ⟨fun yi ne there => zeros (inv.shared xi yi p here there (Ne.symm ne)), fun pos same => zeros ?_⟩
  rw [← same]
  exact (inv.intern pos).1

theorem Inv.copyValues (inv : S.Inv) {xi : Fin G.nv} {p inst n : Nat} (here : S.vmstate xi = some p)
    (one : bit (S.bm p) inst = true) (vp arena : Nat → α) : (S.copyValues xi p inst n vp arena).Inv := by
  have length (q : Nat) : ((S.copyValues xi p inst n vp arena).bm q).length = (S.bm q).length := by
    unfold GivenState.copyValues
    by_cases same : q = p
    · subst same
      simp only [Function.update_self]
      exact bm_cleari_length _ _ _
    · simp only [Function.update_of_ne same]
  have other (q : Nat) (ne : q ≠ p ∨ 64 * (S.bm p).length ≤ inst) :
      (S.copyValues xi p inst n vp arena).bm q = S.bm q := by
    unfold GivenState.copyValues
    by_cases same : q = p
    · subst same
      simp only [Function.update_self]
      exact bm_cleari_outside (ne.resolve_left (fun ne => ne rfl))
    · simp only [Function.update_of_ne same]
  have apart (q : Nat) (zero : Zeros (S.bm q)) : q ≠ p ∨ 64 * (S.bm p).length ≤ inst := by
    by_contra both
    obtain ⟨same, inside⟩ := not_or.mp both
    obtain rfl := not_not.mp same
    rw [zero inst (Nat.lt_of_not_le inside)] at one
    cases one
  refine ⟨fun yi q there => ?_, inv.below, inv.belowShadow, inv.belowIntern, fun yi zi q there there' ne => ?_,
    fun pos => ?_, inv.apart⟩
  · rw [length]
    exact inv.covers yi q there
  · have zeros := inv.shared yi zi q there there' ne
    rw [other q (apart q zeros)]
    exact zeros
  · obtain ⟨zeros, room⟩ := inv.intern pos
    change Zeros ((S.copyValues xi p inst n vp arena).bm S.bm0_intern) ∧
      S.bm0_size.toNat ≤ 64 * ((S.copyValues xi p inst n vp arena).bm S.bm0_intern).length
    rw [other _ (apart _ zeros)]
    exact ⟨zeros, room⟩

/-- The copy gives `xi` a buffer. -/
theorem Buffered.copyValues {xi : Fin G.nv} (others : ∀ yi, yi ≠ xi → (S.vmstate yi).isSome → (S.value yi).isSome)
    (p inst n : Nat) (vp arena : Nat → α) : (S.copyValues xi p inst n vp arena).Buffered := by
  intro yi there
  unfold GivenState.copyValues
  by_cases same : yi = xi
  · subst same
    simp only [Function.update_self]
    rfl
  · simp only [Function.update_of_ne same]
    exact others yi same there

/-- A new bitmap of ones. -/
structure AllMissing (S S' : GivenState G α) (xi : Fin G.nv) (p : Nat) : Prop where
  inv : S'.Inv
  kmap : S'.kmap = S.kmap
  vmstate : S'.vmstate = Function.update S.vmstate xi (some p)
  value : S'.value = S.value
  kept : ∀ q < S.next, S'.bm q = S.bm q
  new : p = S.next
  ones : ∀ i, bit (S'.bm p) i = true
  room : S.shape xi ≤ 64 * (S'.bm p).length

theorem PK_N1_lt (pki : BitVec 32) : PK_N1 pki < 2 ^ 16 := by
  rw [PK_N1, BitVec.toNat_and]
  exact lt_of_le_of_lt Nat.and_le_right (by decide)

theorem shape_lt (xi : Fin G.nv) : S.shape xi < 2 ^ 16 := PK_N1_lt _

theorem Inv.newMissing (inv : S.Inv) {xi : Fin G.nv} (known : S.kmap (G.vars xi).group ≠ SS_UNDEF) :
    AllMissing S (S.newMissing xi).2 xi (S.newMissing xi).1 := by
  have small := shape_lt (S := S) xi
  have num : (BitVec.ofNat 64 (S.shape xi)).toNat = S.shape xi := by
    rw [BitVec.toNat_ofNat, Nat.mod_eq_of_lt (by omega)]
  obtain ⟨words, le⟩ := @le_bm_alloc (BitVec.ofNat 64 (S.shape xi)) (by omega) (BitVec.allOnes 64)
  have added := inv.addBitmap (bm_alloc (BitVec.ofNat 64 (S.shape xi)) (BitVec.allOnes 64))
  have room : S.shape xi ≤
      64 * ((S.addBitmap (bm_alloc (BitVec.ofNat 64 (S.shape xi)) (BitVec.allOnes 64))).2.bm S.next).length := by
    rw [addBitmap_new]
    omega
  have cases (yi : Fin G.nv) (q : Nat) (there : Function.update S.vmstate xi (some S.next) yi = some q) :
      yi = xi ∧ q = S.next ∨ S.vmstate yi = some q := by
    by_cases same : yi = xi
    · subst same
      rw [Function.update_self] at there
      exact .inl ⟨rfl, (Option.some.inj there).symm⟩
    · rw [Function.update_of_ne same] at there
      exact .inr there
  refine ⟨⟨fun yi q there => ?_, fun yi q there => ?_, added.belowShadow, added.belowIntern,
    fun yi zi q there there' ne => ?_, added.intern, fun wi q there => ⟨fun yi there' => ?_, (added.apart wi q there).2⟩⟩,
    rfl, rfl, rfl, fun q lt => addBitmap_old _ lt, rfl, fun i => ?_, room⟩
  · obtain ⟨rfl, rfl⟩ | old := cases yi q there
    · exact ⟨known, room⟩
    · exact added.covers yi q old
  · obtain ⟨rfl, rfl⟩ | old := cases yi q there
    · exact Nat.lt_succ_self _
    · exact added.below yi q old
  · obtain ⟨rfl, rfl⟩ | old := cases yi q there
    · obtain ⟨rfl, -⟩ | old' := cases zi _ there'
      · exact absurd rfl ne
      · exact absurd (inv.below zi _ old') (Nat.lt_irrefl _)
    · obtain ⟨rfl, rfl⟩ | old' := cases zi _ there'
      · exact absurd (inv.below yi _ old) (Nat.lt_irrefl _)
      · exact added.shared yi zi q old old' ne
  · obtain ⟨rfl, rfl⟩ | old := cases yi q there'
    · exact absurd (inv.belowShadow wi _ there) (Nat.lt_irrefl _)
    · exact (added.apart wi q there).1 yi old
  · change bit ((S.addBitmap (bm_alloc (BitVec.ofNat 64 (S.shape xi)) (BitVec.allOnes 64))).2.bm S.next) i = true
    rw [addBitmap_new, bit, bm_alloc, List.getElem?_replicate]
    have ones : (BitVec.allOnes 64).getLsbD (i % 64) = true := by
      rw [BitVec.getLsbD_allOnes]
      exact decide_eq_true (Nat.mod_lt _ (by decide))
    split
    · exact ones
    · exact ones

/-- What `fhkS_setvaluei` does: nothing, or one of the two ways of marking. -/
inductive Marked (S : GivenState G α) (xi : Fin G.nv) (inst : BitVec 16) (n : BitVec 32) (vp arena : Nat → α) :
    Bool × GivenState G α → Prop
  | zero (empty : n = 0) : Marked S xi inst n vp arena (true, S)
  | reject : Marked S xi inst n vp arena (false, S)
  | whole (known : S.kmap (G.vars xi).group ≠ SS_UNDEF) (fresh : S.vmstate xi = none)
      (all : (n - inst.setWidth 32).toNat = S.shape xi) (pos : 0 < S.shape xi) :
      Marked S xi inst n vp arena (true, { (S.bm_getall0 (S.shape xi)).2 with
        vmstate := Function.update (S.bm_getall0 (S.shape xi)).2.vmstate xi (some (S.bm_getall0 (S.shape xi)).1)
        value := Function.update (S.bm_getall0 (S.shape xi)).2.value xi (some vp) })
  | part {p : Nat} (here : S.vmstate xi = some p) (first : bm_isset (S.bm p) inst.toNat = true)
      (not_all : (n - inst.setWidth 32).toNat ≠ S.shape xi) :
      Marked S xi inst n vp arena (true, S.copyValues xi p inst.toNat n.toNat vp arena)
  | new (known : S.kmap (G.vars xi).group ≠ SS_UNDEF) (fresh : S.vmstate xi = none)
      (not_all : (n - inst.setWidth 32).toNat ≠ S.shape xi) :
      Marked S xi inst n vp arena
        (true, (S.newMissing xi).2.copyValues xi (S.newMissing xi).1 inst.toNat n.toNat vp arena)

theorem marked (S : GivenState G α) (xi : Fin G.nv) (inst : BitVec 16) (n : BitVec 32) (vp arena : Nat → α) :
    Marked S xi inst n vp arena (S.fhkS_setvaluei xi inst n vp arena) := by
  unfold fhkS_setvaluei
  split
  · rename_i empty
    exact .zero empty
  rename_i nonempty
  split
  · exact .reject
  split
  · exact .reject
  rename_i known
  split
  · exact .reject
  rename_i room
  split
  · rename_i all
    split
    · exact .reject
    · rename_i fresh
      refine .whole known (by simpa using fresh) all ?_
      by_contra zero
      have low := inst.isLt
      have high := n.isLt
      have n_pos : n.toNat ≠ 0 := fun zero => nonempty (BitVec.eq_of_toNat_eq zero)
      rw [BitVec.toNat_sub, BitVec.toNat_setWidth] at all
      rw [BitVec.toNat_add, BitVec.toNat_setWidth] at room
      omega
  · rename_i not_all
    split
    · rename_i p here
      split
      · exact .reject
      · rename_i first
        exact .part here (by simpa using first) not_all
    · rename_i fresh
      exact .new known fresh not_all

theorem AllZero.whole {S' : GivenState G α} {xi : Fin G.nv} {p : Nat}
    (known : S.kmap (G.vars xi).group ≠ SS_UNDEF) (zero : AllZero S S' (S.shape xi) p)
    (value : Fin G.nv → Option (Nat → α)) :
    ({ S' with vmstate := Function.update S'.vmstate xi (some p), value } : GivenState G α).Inv := by
  have cases (yi : Fin G.nv) (q : Nat) (there : Function.update S'.vmstate xi (some p) yi = some q) :
      yi = xi ∧ q = p ∨ S'.vmstate yi = some q := by
    by_cases same : yi = xi
    · subst same
      rw [Function.update_self] at there
      exact .inl ⟨rfl, (Option.some.inj there).symm⟩
    · rw [Function.update_of_ne same] at there
      exact .inr there
  have inv' := zero.inv
  refine ⟨fun yi q there => ?_, fun yi q there => ?_, inv'.belowShadow, inv'.belowIntern,
    fun yi zi q there there' ne => ?_, inv'.intern, fun wi q there => ⟨fun yi there' => ?_, (inv'.apart wi q there).2⟩⟩
  · obtain ⟨rfl, rfl⟩ | old := cases yi q there
    · refine ⟨?_, ?_⟩
      · change S'.kmap _ ≠ _
        rwa [zero.kmap]
      · change S'.shape yi ≤ _
        unfold shape
        rw [zero.kmap]
        exact zero.room
    · exact inv'.covers yi q old
  · obtain ⟨rfl, rfl⟩ | old := cases yi q there
    · exact zero.below
    · exact inv'.below yi q old
  · obtain ⟨rfl, rfl⟩ | old := cases yi q there
    · exact zero.zeros
    · obtain ⟨rfl, rfl⟩ | old' := cases zi _ there'
      · exact zero.zeros
      · exact inv'.shared yi zi q old old' ne
  · obtain ⟨rfl, rfl⟩ | old := cases yi q there'
    · rw [zero.sstate] at there
      exact zero.apart wi there
    · exact (inv'.apart wi q there).1 yi old

theorem Inv.marked {r : Bool × GivenState G α} (inv : S.Inv) (buffered : S.Buffered) {xi : Fin G.nv}
    {inst : BitVec 16} {n : BitVec 32} {vp arena : Nat → α} (marked : Marked S xi inst n vp arena r) :
    r.2.Inv ∧ r.2.Buffered := by
  cases marked with
  | zero => exact ⟨inv, buffered⟩
  | reject => exact ⟨inv, buffered⟩
  | whole known fresh all pos =>
    have zero := inv.bm_getall0 pos (shape_lt xi)
    refine ⟨zero.whole known _, fun yi there => ?_⟩
    by_cases same : yi = xi
    · subst same
      simp only [Function.update_self]
      rfl
    · simp only [Function.update_of_ne same, zero.vmstate, zero.value] at there ⊢
      exact buffered yi there
  | part here first =>
    rw [bm_isset_eq] at first
    exact ⟨inv.copyValues here first vp arena, Buffered.copyValues (fun yi _ there => buffered yi there) _ _ _ _ _⟩
  | new known fresh =>
    have missing := inv.newMissing known
    have here : (S.newMissing xi).2.vmstate xi = some (S.newMissing xi).1 := by
      rw [missing.vmstate, Function.update_self]
    refine ⟨missing.inv.copyValues here (missing.ones _) vp arena, Buffered.copyValues (fun yi ne there => ?_) _ _ _ _ _⟩
    rw [missing.vmstate, Function.update_of_ne ne] at there
    rw [missing.value]
    exact buffered yi there

theorem Inv.step {S' : GivenState G α} (inv : S.Inv) (buffered : S.Buffered) (step : Step S S') :
    S'.Inv ∧ S'.Buffered := by
  cases step with
  | setshape group shape ss unset accepted =>
    refine ⟨⟨fun xi p here => ?_, inv.below, inv.belowShadow, inv.belowIntern, inv.shared, inv.intern, inv.apart⟩,
      buffered⟩
    obtain ⟨known, room⟩ := inv.covers xi p here
    have other : (G.vars xi).group ≠ group := fun same => known (same ▸ unset)
    have kept : Function.update S.kmap group ss (G.vars xi).group = S.kmap (G.vars xi).group :=
      Function.update_of_ne other _ _
    refine ⟨by simpa only [kept] using known, ?_⟩
    unfold GivenState.shape at room ⊢
    simpa only [kept] using room
  | setvaluei xi inst n vp arena => exact inv.marked buffered (S.marked xi inst n vp arena)
  | setroot xi buf unset =>
    refine ⟨⟨inv.covers, inv.below, inv.belowShadow, inv.belowIntern, inv.shared, inv.intern, inv.apart⟩,
      fun yi there => ?_⟩
    by_cases same : yi = xi
    · subst same
      simp only [Function.update_self]
      rfl
    · simp only [Function.update_of_ne same]
      exact buffered yi there
  | expand wi unset num =>
    have added := inv.addBitmap (bm_alloc num 0)
    have cases (vi : Fin G.nw) (q : Nat) (there : Function.update S.sstate wi (some S.next) vi = some q) :
        q = S.next ∨ S.sstate vi = some q := by
      by_cases same : vi = wi
      · subst same
        rw [Function.update_self] at there
        exact .inl (Option.some.inj there).symm
      · rw [Function.update_of_ne same] at there
        exact .inr there
    refine ⟨⟨added.covers, added.below, fun vi q there => ?_, added.belowIntern, added.shared, added.intern,
      fun vi q there => ?_⟩, buffered⟩
    · obtain rfl | old := cases vi q there
      · exact Nat.lt_succ_self _
      · exact added.belowShadow vi q old
    · obtain rfl | old := cases vi q there
      · exact ⟨fun xi here => absurd (inv.below xi _ here) (Nat.lt_irrefl _),
          fun pos same => absurd (inv.belowIntern pos) (same ▸ Nat.lt_irrefl _)⟩
      · exact added.apart vi q old
  | check wi p here words =>
    obtain ⟨notVar, notIntern⟩ := inv.apart wi p here
    have kept (xi : Fin G.nv) (q : Nat) (there : S.vmstate xi = some q) :
        Function.update S.bm p words q = S.bm q :=
      Function.update_of_ne (fun same => notVar xi (there.trans (congrArg some same))) _ _
    refine ⟨⟨fun xi q there => ?_, inv.below, inv.belowShadow, inv.belowIntern, fun xi yi q there there' ne => ?_,
      fun pos => ?_, inv.apart⟩, buffered⟩
    · simp only [kept xi q there]
      exact inv.covers xi q there
    · simp only [kept xi q there]
      exact inv.shared xi yi q there there' ne
    · simp only [Function.update_of_ne (notIntern pos)]
      exact inv.intern pos

theorem Reachable.inv (reachable : S.Reachable) : S.Inv ∧ S.Buffered := by
  induction reachable with
  | refl => exact ⟨create_inv, fun _ there => by cases there⟩
  | tail _ step ih => exact ih.1.step ih.2 step

/-! ## One call -/

/-- The instances a call is about. -/
def Covers (inst : BitVec 16) (n : BitVec 32) (i : Nat) : Prop := inst.toNat ≤ i ∧ i < inst.toNat + n.toNat

instance (inst : BitVec 16) (n : BitVec 32) (i : Nat) : Decidable (Covers inst n i) := by
  unfold Covers
  infer_instance

/-- Exactly the covered instances of `xi` go from missing to present, with their values. -/
structure Marks (S S' : GivenState G α) (xi : Fin G.nv) (inst : BitVec 16) (n : BitVec 32) (vp : Nat → α) :
    Prop where
  missing : ∀ i, Covers inst n i → ¬ S.Present xi i
  present : ∀ yi i, i < S.shape yi → (S'.Present yi i ↔ yi = xi ∧ Covers inst n i ∨ S.Present yi i)
  value : ∀ yi i, i < S.shape yi →
    S'.fhkI_value yi i = if yi = xi ∧ Covers inst n i then some (vp (i - inst.toNat)) else S.fhkI_value yi i

/-- A call that accepts marks exactly the covered instances, and where one of them was present it
rejects and changes nothing. -/
def Sets (S : GivenState G α) (xi : Fin G.nv) (inst : BitVec 16) (n : BitVec 32) (vp arena : Nat → α) : Prop :=
  ((S.fhkS_setvaluei xi inst n vp arena).1 = true →
    Marks S (S.fhkS_setvaluei xi inst n vp arena).2 xi inst n vp) ∧
  ((∃ i, Covers inst n i ∧ S.Present xi i) → (S.fhkS_setvaluei xi inst n vp arena).1 = false ∧
    ∀ yi i, ((S.fhkS_setvaluei xi inst n vp arena).2.Present yi i ↔ S.Present yi i) ∧
      (S.fhkS_setvaluei xi inst n vp arena).2.fhkI_value yi i = S.fhkI_value yi i)

/-- The call is about the whole group, or its first instance is present, or none of them is. -/
def Uniform (S : GivenState G α) (xi : Fin G.nv) (inst : BitVec 16) (n : BitVec 32) : Prop :=
  inst.toNat = 0 ∧ n.toNat = S.shape xi ∨ S.Present xi inst.toNat ∨ ∀ i, Covers inst n i → ¬ S.Present xi i

theorem present_iff {xi : Fin G.nv} {p : Nat} (here : S.vmstate xi = some p) (i : Nat) :
    S.Present xi i ↔ bit (S.bm p) i = false := by
  unfold Present
  simp only [here, Option.some.injEq, exists_eq_left', bm_isset_eq]

theorem not_present {xi : Fin G.nv} (fresh : S.vmstate xi = none) (i : Nat) : ¬ S.Present xi i := by
  rintro ⟨p, here, -⟩
  rw [fresh] at here
  cases here

theorem fhkI_value_some {xi : Fin G.nv} {p : Nat} (here : S.vmstate xi = some p) (i : Nat) :
    S.fhkI_value xi i = if bit (S.bm p) i = true then none else (S.value xi).map (· i) := by
  rw [fhkI_value, here, Option.bind_some, bm_isset_eq]

/-- A call in range is about the whole group where the code takes it to be. -/
theorem whole_iff {xi : Fin G.nv} {inst : BitVec 16} {n : BitVec 32} (pos : 0 < n.toNat)
    (room : inst.toNat + n.toNat ≤ S.shape xi) :
    (n - inst.setWidth 32).toNat = S.shape xi ↔ inst.toNat = 0 ∧ n.toNat = S.shape xi := by
  have small := shape_lt (S := S) xi
  rw [BitVec.toNat_sub, BitVec.toNat_setWidth]
  omega

/-- The copy into a bitmap of one variable marks a range of missing instances. -/
theorem Inv.copyValues_marks (inv : S.Inv) {xi : Fin G.nv} {p : Nat} {inst : BitVec 16} {n : BitVec 32}
    (here : S.vmstate xi = some p) (pos : 0 < n.toNat) (room : inst.toNat + n.toNat ≤ S.shape xi)
    (ones : ∀ i, Covers inst n i → bit (S.bm p) i = true)
    (buffer : (S.value xi).isSome ∨ ∀ i, bit (S.bm p) i = true) (vp arena : Nat → α) :
    Marks S (S.copyValues xi p inst.toNat n.toNat vp arena) xi inst n vp := by
  obtain ⟨-, covered⟩ := inv.covers xi p here
  obtain ⟨alone, -⟩ := inv.alone here (by omega) (ones inst.toNat ⟨le_rfl, by omega⟩)
  have cleared := bit_bm_cleari pos (by omega : inst.toNat + n.toNat ≤ 64 * (S.bm p).length)
    fun i le lt => ones i ⟨le, lt⟩
  have bits (i : Nat) : bit ((S.copyValues xi p inst.toNat n.toNat vp arena).bm p) i =
      (bit (S.bm p) i && !decide (Covers inst n i)) := by
    simp only [GivenState.copyValues, Function.update_self]
    exact cleared i
  have others (yi : Fin G.nv) (ne : yi ≠ xi) (q : Nat) (there : S.vmstate yi = some q) :
      (S.copyValues xi p inst.toNat n.toNat vp arena).bm q = S.bm q := by
    simp only [GivenState.copyValues]
    exact Function.update_of_ne (fun same => alone yi ne (there.trans (congrArg some same))) _ _
  refine ⟨fun i covers => ?_, fun yi i small => ?_, fun yi i small => ?_⟩
  · rw [present_iff here, ones i covers]
    exact Bool.true_eq_false_eq_False
  · by_cases same : yi = xi
    · subst same
      have here' : (S.copyValues yi p inst.toNat n.toNat vp arena).vmstate yi = some p := here
      rw [present_iff here', present_iff here, bits]
      by_cases covers : Covers inst n i
      · simp [covers]
      · simp [covers]
    · cases there : S.vmstate yi with
      | none =>
        have there' : (S.copyValues xi p inst.toNat n.toNat vp arena).vmstate yi = none := there
        exact iff_of_false (not_present there' i) (by simp [same, not_present there i])
      | some q =>
        have there' : (S.copyValues xi p inst.toNat n.toNat vp arena).vmstate yi = some q := there
        rw [present_iff there', present_iff there, others yi same q there]
        simp [same]
  · by_cases same : yi = xi
    · subst same
      have here' : (S.copyValues yi p inst.toNat n.toNat vp arena).vmstate yi = some p := here
      have copied : ((S.copyValues yi p inst.toNat n.toNat vp arena).value yi).map (· i) =
          some (if Covers inst n i then vp (i - inst.toNat) else (S.value yi).getD arena i) := by
        simp only [GivenState.copyValues, Function.update_self]
        rfl
      rw [fhkI_value_some here', fhkI_value_some here, bits, copied]
      by_cases covers : Covers inst n i
      · simp only [covers, decide_true, Bool.not_true, Bool.and_false, Bool.false_eq_true, if_false, if_true, and_self]
      · simp only [covers, decide_false, Bool.not_false, Bool.and_true, if_false, and_false]
        split
        · rfl
        · rename_i present
          obtain ⟨buf, is_buf⟩ := Option.isSome_iff_exists.mp (buffer.resolve_right fun all => present (all i))
          rw [is_buf]
          rfl
    · rw [if_neg fun both => same both.1]
      have kept : (S.copyValues xi p inst.toNat n.toNat vp arena).value yi = S.value yi := by
        simp only [GivenState.copyValues]
        exact Function.update_of_ne same _ _
      cases there : S.vmstate yi with
      | none =>
        rw [fhkI_value, fhkI_value, there]
        change (S.vmstate yi).bind _ = _
        rw [there]
        rfl
      | some q =>
        have there' : (S.copyValues xi p inst.toNat n.toNat vp arena).vmstate yi = some q := there
        rw [fhkI_value_some there', fhkI_value_some there, others yi same q there, kept]

/-- What is present does not change where the bitmaps of the variables stay what they are. -/
theorem Marks.of_same {T S' : GivenState G α} {xi : Fin G.nv} {inst : BitVec 16} {n : BitVec 32} {vp : Nat → α}
    (marks : Marks T S' xi inst n vp) (shape : ∀ yi, T.shape yi = S.shape yi)
    (present : ∀ yi i, T.Present yi i ↔ S.Present yi i) (value : ∀ yi i, T.fhkI_value yi i = S.fhkI_value yi i) :
    Marks S S' xi inst n vp := by
  refine ⟨fun i covers => ?_, fun yi i small => ?_, fun yi i small => ?_⟩
  · rw [← present]
    exact marks.missing i covers
  · rw [← present]
    exact marks.present yi i (shape yi ▸ small)
  · rw [← value]
    exact marks.value yi i (shape yi ▸ small)

/-- A call about a whole group that had nothing. -/
theorem AllZero.marks {S' : GivenState G α} {xi : Fin G.nv} {p : Nat} {inst : BitVec 16} {n : BitVec 32}
    (zero : AllZero S S' (S.shape xi) p) (inv : S.Inv) (fresh : S.vmstate xi = none)
    (whole : inst.toNat = 0 ∧ n.toNat = S.shape xi) (vp : Nat → α) :
    Marks S { S' with vmstate := Function.update S'.vmstate xi (some p)
                      value := Function.update S'.value xi (some vp) } xi inst n vp := by
  have covers (i : Nat) (small : i < S.shape xi) : Covers inst n i := by
    unfold Covers
    omega
  have clear (i : Nat) (small : i < S.shape xi) : bit (S'.bm p) i = false :=
    zero.zeros i (by have := zero.room; omega)
  have here : Function.update S'.vmstate xi (some p) xi = some p := Function.update_self ..
  refine ⟨fun i _ => not_present fresh i, fun yi i small => ?_, fun yi i small => ?_⟩
  · by_cases same : yi = xi
    · subst same
      rw [present_iff here]
      exact iff_of_true (clear i small) (.inl ⟨rfl, covers i small⟩)
    · unfold Present
      simp only [Function.update_of_ne same, zero.vmstate, same, false_and, false_or]
      exact exists_congr fun q => and_congr_right fun there => by rw [zero.kept q (inv.below yi q there)]
  · by_cases same : yi = xi
    · subst same
      rw [fhkI_value_some here, if_neg (by rw [clear i small]; exact Bool.false_ne_true),
        if_pos ⟨rfl, covers i small⟩]
      simp only [Function.update_self, Option.map_some, whole.1, Nat.sub_zero]
    · rw [if_neg fun both => same both.1]
      unfold fhkI_value
      simp only [Function.update_of_ne same, zero.vmstate, zero.value]
      cases there : S.vmstate yi with
      | none => rfl
      | some q => rw [Option.bind_some, Option.bind_some, zero.kept q (inv.below yi q there)]

theorem Inv.new_marks (inv : S.Inv) {xi : Fin G.nv} {inst : BitVec 16} {n : BitVec 32}
    (known : S.kmap (G.vars xi).group ≠ SS_UNDEF) (fresh : S.vmstate xi = none) (pos : 0 < n.toNat)
    (room : inst.toNat + n.toNat ≤ S.shape xi) (vp arena : Nat → α) :
    Marks S ((S.newMissing xi).2.copyValues xi (S.newMissing xi).1 inst.toNat n.toNat vp arena) xi inst n vp := by
  have missing := inv.newMissing known
  have here : (S.newMissing xi).2.vmstate xi = some (S.newMissing xi).1 := by
    rw [missing.vmstate, Function.update_self]
  have shape (yi : Fin G.nv) : (S.newMissing xi).2.shape yi = S.shape yi := by
    unfold GivenState.shape
    rw [missing.kmap]
  have other (yi : Fin G.nv) (ne : yi ≠ xi) : (S.newMissing xi).2.vmstate yi = S.vmstate yi := by
    rw [missing.vmstate, Function.update_of_ne ne]
  have marks := missing.inv.copyValues_marks here pos (by rw [shape]; exact room) (fun i _ => missing.ones i)
    (.inr missing.ones) vp arena
  refine marks.of_same shape (fun yi i => ?_) fun yi i => ?_
  · by_cases same : yi = xi
    · subst same
      rw [present_iff here, missing.ones]
      exact iff_of_false (by simp) (not_present fresh i)
    · unfold Present
      rw [other yi same]
      exact exists_congr fun q => and_congr_right fun there => by rw [missing.kept q (inv.below yi q there)]
  · by_cases same : yi = xi
    · subst same
      rw [fhkI_value_some here, missing.ones, if_pos rfl, fhkI_value, fresh]
      rfl
    · unfold fhkI_value
      rw [other yi same, missing.value]
      cases there : S.vmstate yi with
      | none => rfl
      | some q => rw [Option.bind_some, Option.bind_some, missing.kept q (inv.below yi q there)]

/-- In every reachable state a call in range sets exactly its instances, or rejects for one that is
present, exactly where it is about the whole group, its first instance is present, or none is. -/
theorem setvaluei_iff (reachable : S.Reachable) {xi : Fin G.nv} (given : V_GIVEN (G.vars xi) = true)
    (known : S.kmap (G.vars xi).group ≠ SS_UNDEF) {inst : BitVec 16} {n : BitVec 32} (pos : 0 < n.toNat)
    (room : inst.toNat + n.toNat ≤ S.shape xi) (vp arena : Nat → α) :
    S.Sets xi inst n vp arena ↔ S.Uniform xi inst n := by
  obtain ⟨inv, buffered⟩ := reachable.inv
  have small := shape_lt (S := S) xi
  have nonempty : ¬ n = 0 := by
    rintro rfl
    exact absurd pos (Nat.lt_irrefl _)
  have sum : ¬ (inst.setWidth 32 + n).toNat > S.shape xi := by
    rw [BitVec.toNat_add, BitVec.toNat_setWidth]
    omega
  unfold Sets
  rw [fhkS_setvaluei, if_neg nonempty, if_neg (by simpa using given), if_neg known, if_neg sum]
  by_cases all : inst.toNat = 0 ∧ n.toNat = S.shape xi
  · rw [if_pos ((whole_iff pos room).mpr all)]
    refine iff_of_true ?_ (.inl all)
    cases here : S.vmstate xi with
    | some p => exact ⟨fun accepted => absurd accepted Bool.false_ne_true, fun _ => ⟨rfl, fun _ _ => ⟨Iff.rfl, rfl⟩⟩⟩
    | none =>
      exact ⟨fun _ => (inv.bm_getall0 (by omega) small).marks inv here all vp,
        fun ⟨i, _, present⟩ => absurd present (not_present here i)⟩
  · rw [if_neg (not_congr (whole_iff pos room) |>.mpr all)]
    cases here : S.vmstate xi with
    | some p =>
      simp only [bm_isset_eq]
      by_cases first : bit (S.bm p) inst.toNat = true
      · rw [if_neg (by simpa using first)]
        have absent : ¬ S.Present xi inst.toNat := by
          rw [present_iff here, first]
          exact Bool.true_eq_false_eq_False
        constructor
        · intro sets
          refine .inr (.inr fun i covers present => ?_)
          exact absurd (sets.2 ⟨i, covers, present⟩).1 (by simp)
        · intro uniform
          have missing := (uniform.resolve_left all).resolve_left absent
          refine ⟨fun _ => inv.copyValues_marks here pos room (fun i covers => ?_)
            (.inl (buffered xi (by rw [here]; rfl))) vp arena,
            fun ⟨i, covers, present⟩ => absurd present (missing i covers)⟩
          have := missing i covers
          rw [present_iff here] at this
          simpa using this
      · rw [if_pos (by simpa using first)]
        refine iff_of_true ?_ (.inr (.inl ((present_iff here _).mpr (by simpa using first))))
        exact ⟨fun accepted => absurd accepted Bool.false_ne_true, fun _ => ⟨rfl, fun _ _ => ⟨Iff.rfl, rfl⟩⟩⟩
    | none =>
      refine iff_of_true ?_ (.inr (.inr fun i _ => not_present here i))
      exact ⟨fun _ => inv.new_marks known here pos room vp arena,
        fun ⟨i, _, present⟩ => absurd present (not_present here i)⟩

end GivenState

namespace Overlap

/-- One given variable. -/
def graph : Graph where
  nv := 1
  nm := 0
  nw := 0
  ng := 1
  vars _ := ⟨[], [], 0, 1⟩
  models mi := mi.elim0
  shadows wi := wi.elim0

def x : Fin graph.nv := ⟨0, Nat.one_pos⟩

/-- A group of four instances. -/
def shaped : GivenState graph Nat :=
  { GivenState.create graph Nat with kmap := Function.update (fun _ => SS_UNDEF) 0 (SS_PKIVAL 0 4) }

/-- The value 7 at instance 2. -/
def third : GivenState graph Nat := (shaped.fhkS_setvaluei x 2 1 (fun _ => 7) (fun _ => 0)).2

theorem third_reachable : third.Reachable := by
  have first : GivenState.Step (GivenState.create graph Nat) shaped := .setshape 0 4 (SS_PKIVAL 0 4) rfl rfl
  exact (Relation.ReflTransGen.single first).tail (.setvaluei x 2 1 _ _)

theorem setvaluei_iff_third : third.Sets x 1 2 (fun _ => 8) (fun _ => 0) ↔ third.Uniform x 1 2 :=
  GivenState.setvaluei_iff third_reachable rfl (by decide) (by decide) (by decide) _ _

theorem third_present : third.Present x 2 := ⟨0, rfl, by decide +kernel⟩

/-- The range of instances 1 and 2 is accepted although 2 has a value. -/
theorem not_sets_third : third.Reachable ∧ ¬ third.Sets x 1 2 (fun _ => 8) (fun _ => 0) := by
  refine ⟨third_reachable, fun sets => ?_⟩
  have rejects := (sets.2 ⟨2, by decide, third_present⟩).1
  revert rejects
  decide +kernel

end Overlap
end M2.Fhk
