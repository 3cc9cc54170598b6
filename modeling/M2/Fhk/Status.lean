import M2.Lib.Bits
import M2.Mem.Region

/-!
# Statuses and error infos

`E_META` and `SARG` with the error sites of `src/fhk/solve.c`, `src/fhk/build.c` and
`src/fhk/prune.c`, the decoding macros of `src/fhk/fhk.h`, and `einfo` and `check` of
`src/frontend/fhk/ctypes.lua`. A tagged value is widened by a cast to `uint64_t`, which
extends the sign of the signed types.
-/
namespace M2.Fhk

open M2.Mem (Word)

/-- The error codes. -/
inductive FHKE
  | NYI
  | INVAL
  | OVERWRITE
  | DEPTH
  | NVALUE
  | MEM
  | CHAIN
  deriving DecidableEq

/-- The tags. -/
inductive FHKEI
  | I
  | J
  | G
  | P
  deriving DecidableEq

def FHKE.word : FHKE → Word
  | .NYI => 1
  | .INVAL => 2
  | .OVERWRITE => 3
  | .DEPTH => 4
  | .NVALUE => 5
  | .MEM => 6
  | .CHAIN => 7

def FHKEI.word : FHKEI → Word
  | .I => 1
  | .J => 2
  | .G => 3
  | .P => 4

/-- `E_META(n,f,x)`, of the widened value. -/
def E_META (n : Nat) (f : FHKEI) (x : Word) : Word := (f.word <<< (4 * (n + 1))) ||| (x <<< (16 * n))

/-- A tagged value, as the cast widened it. -/
structure Tagged where
  tag : FHKEI
  value : Word

/-- The integer that was tagged. -/
def Tagged.int (t : Tagged) : Int := t.value.toInt

/-- A code and the tagged values of `E_META(1,..)` and `E_META(2,..)`. -/
structure ErrorInfo where
  code : FHKE
  info1 : Option Tagged
  info2 : Option Tagged

/-- The `fhk_ei` an error site composes. -/
def ErrorInfo.ei (e : ErrorInfo) : Word :=
  match e.info1, e.info2 with
  | none, none => e.code.word
  | some a, none => e.code.word ||| E_META 1 a.tag a.value
  | none, some b => e.code.word ||| E_META 2 b.tag b.value
  | some a, some b => e.code.word ||| E_META 1 a.tag a.value ||| E_META 2 b.tag b.value

/-- `SARG(.s_ei=ei)`. -/
def SARG (ei : Word) : Word := ei <<< 16

def FHK_OK : Word := 0

def FHK_ERROR : Word := 1

/-- The status that carries an error. -/
def ErrorInfo.status (e : ErrorInfo) : Word := FHK_ERROR ||| SARG e.ei

/-- `OIDX(o)`, assigned to an `xidx`. -/
def OIDX (o : Word) : Word := ((o &&& 0xffff).setWidth 16).signExtend 64

/-- The error sites, with the arguments in their types: `fhkS_setshape` has three, `fhkS_setvaluei` and
`fhkS_setmap` one each, under `fail`; `add_*` are those of `fhk_def_add_*`, and `prune_skipped` is that of
`prune_insert_given` and `prune_mark_selects`. -/
inductive Site
  | setshape_group (group : BitVec 8)
  | setshape_shape (group : BitVec 8) (shape : BitVec 16)
  | setshape_overwrite (group : BitVec 8)
  | setvaluei_fail (xi inst : BitVec 16)
  | setmap_fail (emap : BitVec 32) (inst : BitVec 16)
  | JE_maxdepth (xi inst : Word)
  | JE_nyi
  | JE_nvalue (xi inst : Word)
  | JE_nmap (idx inst : Word)
  | JE_nbuf
  | JE_nchain (xi inst : Word)
  | add_full
  | add_group (group : BitVec 8)
  | add_index (o : Word)
  | add_inval
  | add_mem
  | prune_skipped (i : Word)
  | prune_mem

/-- What each site composes. -/
def Site.error : Site → ErrorInfo
  | setshape_group group => ⟨.INVAL, some ⟨.G, group.setWidth 64⟩, none⟩
  | setshape_shape group shape => ⟨.INVAL, some ⟨.G, group.setWidth 64⟩, some ⟨.J, shape.setWidth 64⟩⟩
  | setshape_overwrite group => ⟨.OVERWRITE, some ⟨.G, group.setWidth 64⟩, none⟩
  | setvaluei_fail xi inst => ⟨.INVAL, some ⟨.I, xi.signExtend 64⟩, some ⟨.J, inst.setWidth 64⟩⟩
  | setmap_fail emap inst => ⟨.INVAL, some ⟨.P, emap.signExtend 64⟩, some ⟨.J, inst.setWidth 64⟩⟩
  | JE_maxdepth xi inst => ⟨.DEPTH, some ⟨.I, xi⟩, some ⟨.J, inst⟩⟩
  | JE_nyi => ⟨.NYI, none, none⟩
  | JE_nvalue xi inst => ⟨.NVALUE, some ⟨.I, xi⟩, some ⟨.J, inst⟩⟩
  | JE_nmap idx inst => ⟨.NVALUE, some ⟨.P, idx⟩, some ⟨.J, inst⟩⟩
  | JE_nbuf => ⟨.MEM, none, none⟩
  | JE_nchain xi inst => ⟨.CHAIN, some ⟨.I, xi⟩, some ⟨.J, inst⟩⟩
  | add_full => ⟨.INVAL, some ⟨.I, 0x7ffe⟩, none⟩
  | add_group group => ⟨.INVAL, some ⟨.G, group.setWidth 64⟩, none⟩
  | add_index o => ⟨.INVAL, some ⟨.I, OIDX o⟩, none⟩
  | add_inval => ⟨.INVAL, none, none⟩
  | add_mem => ⟨.MEM, none, none⟩
  | prune_skipped i => ⟨.CHAIN, some ⟨.I, i⟩, none⟩
  | prune_mem => ⟨.MEM, none, none⟩

/-! ## Decoding -/

def FHK_CODE (s : Word) : Word := s &&& 0xffff

def FHK_ARG (s : Word) : Word := s >>> 16

def FHK_ECODE (ei : Word) : Word := ei &&& 0xff

def FHK_ETAG1 (ei : Word) : Word := (ei >>> 8) &&& 0xf

def FHK_ETAG2 (ei : Word) : Word := (ei >>> 12) &&& 0xf

def FHK_EINFO1 (ei : Word) : Word := (ei >>> 16) &&& 0xffff

def FHK_EINFO2 (ei : Word) : Word := (ei >>> 32) &&& 0xffff

/-- What `einfo` returns, none for `false`. -/
structure LuaInfo where
  ecode : Nat
  tag1 : Option Nat
  v1 : Option Int
  tag2 : Option Nat
  v2 : Option Int
  deriving DecidableEq

/-- `einfo`. The values are cast to `int16_t`. -/
def einfo (ei : Word) : LuaInfo :=
  let ecode := ei &&& 0xff
  let tag1 := (ei >>> 8) &&& 0xf
  let tag2 := (ei >>> 12) &&& 0xf
  ⟨ecode.toNat,
    if tag1 ≠ 0 then some tag1.toNat else none,
    if tag1 ≠ 0 then some (((ei >>> 16) &&& 0xffff).setWidth 16).toInt else none,
    if tag2 ≠ 0 then some tag2.toNat else none,
    if tag2 ≠ 0 then some (((ei >>> 32) &&& 0xffff).setWidth 16).toInt else none⟩

/-- `check`: an error is raised, or the value is passed on. -/
def check (ei : Word) : Except Word Word :=
  if ei ≠ 0 ∧ ei < 0xffffffffffff then .error ei else .ok ei

/-- The two readings of a tag and its value are those of the site. -/
def Recovered (t : Option Tagged) (tag info : Word) (luaTag : Option Nat) (luaValue : Option Int) : Prop :=
  match t with
  | none => tag = 0 ∧ luaTag = none ∧ luaValue = none
  | some t => tag = t.tag.word ∧ (info.toNat : Int) = t.int % 2 ^ 16 ∧ luaTag = some t.tag.word.toNat ∧
      ∃ v, luaValue = some v ∧ v % 2 ^ 16 = t.int % 2 ^ 16

/-- The C macros and `einfo` read the error out of a word. -/
structure ErrorInfo.Decodes (e : ErrorInfo) (ei : Word) : Prop where
  code : FHK_ECODE ei = e.code.word
  lua_code : (einfo ei).ecode = e.code.word.toNat
  info1 : Recovered e.info1 (FHK_ETAG1 ei) (FHK_EINFO1 ei) (einfo ei).tag1 (einfo ei).v1
  info2 : Recovered e.info2 (FHK_ETAG2 ei) (FHK_EINFO2 ei) (einfo ei).tag2 (einfo ei).v2

/-- The error is read out of the info and out of the status, and `check` raises it. -/
structure ErrorInfo.RoundTrips (e : ErrorInfo) : Prop where
  direct : e.Decodes e.ei
  code : FHK_CODE e.status = FHK_ERROR
  arg : e.Decodes (FHK_ARG e.status)
  below : e.ei.toNat < 2 ^ 48
  raised : check e.ei = .error e.ei

/-- The value fits in 16 bits, signed or unsigned. -/
def Tagged.Fits (t : Tagged) : Prop := -2 ^ 15 ≤ t.int ∧ t.int < 2 ^ 16

instance (t : Tagged) : Decidable t.Fits := by
  unfold Tagged.Fits
  infer_instance

/-! ## The round trip -/

/-- The fields of an info do not overlap. -/
theorem or_fields {c t1 t2 v1 v2 : Nat} (c_lt : c < 2 ^ 8) (t1_lt : t1 < 2 ^ 4) (t2_lt : t2 < 2 ^ 4) (v1_lt : v1 < 2 ^ 16) :
    c ||| (t1 <<< 8 ||| v1 <<< 16) ||| (t2 <<< 12 ||| v2 <<< 32) =
      v2 * 2 ^ 32 + v1 * 2 ^ 16 + t2 * 2 ^ 12 + t1 * 2 ^ 8 + c := by
  have order (a b c d e : Nat) : a ||| (b ||| c) ||| (d ||| e) = e ||| (c ||| (d ||| (b ||| a))) := by
    ac_rfl
  have first : t1 <<< 8 ||| c = t1 * 2 ^ 8 + c := by
    rw [← Nat.shiftLeft_add_eq_or_of_lt c_lt, Nat.shiftLeft_eq]
  have second : t2 <<< 12 ||| (t1 * 2 ^ 8 + c) = t2 * 2 ^ 12 + (t1 * 2 ^ 8 + c) := by
    rw [← Nat.shiftLeft_add_eq_or_of_lt (by omega), Nat.shiftLeft_eq]
  have third : v1 <<< 16 ||| (t2 * 2 ^ 12 + (t1 * 2 ^ 8 + c)) = v1 * 2 ^ 16 + (t2 * 2 ^ 12 + (t1 * 2 ^ 8 + c)) := by
    rw [← Nat.shiftLeft_add_eq_or_of_lt (by omega), Nat.shiftLeft_eq]
  rw [order, first, second, third, ← Nat.shiftLeft_add_eq_or_of_lt (by omega), Nat.shiftLeft_eq]
  omega

def tagNat : Option Tagged → Nat
  | none => 0
  | some t => t.tag.word.toNat

def valueNat : Option Tagged → Nat
  | none => 0
  | some t => t.value.toNat

theorem FHKE.word_lt (code : FHKE) : code.word.toNat < 255 := by cases code <;> decide

theorem FHKE.word_pos (code : FHKE) : 0 < code.word.toNat := by cases code <;> decide

theorem FHKEI.word_bounds (tag : FHKEI) : 0 < tag.word.toNat ∧ tag.word.toNat < 2 ^ 4 := by cases tag <;> decide

theorem tagNat_lt (t : Option Tagged) : tagNat t < 2 ^ 4 := by
  cases t with
  | none => decide
  | some t => exact t.tag.word_bounds.2

/-- Nothing is tagged with 0 in place of a missing value. -/
theorem tagNat_pos (t : Tagged) : 0 < tagNat (some t) := t.tag.word_bounds.1

theorem valueNat_lt {t : Option Tagged} (small : ∀ a ∈ t, a.value.toNat < 2 ^ 16) : valueNat t < 2 ^ 16 := by
  cases t with
  | none => decide
  | some a => exact small a rfl

theorem E_META_toNat {n : Nat} (le : n ≤ 2) {f : FHKEI} {x : Word} (small : x.toNat < 2 ^ 16) :
    (E_META n f x).toNat = f.word.toNat <<< (4 * (n + 1)) ||| x.toNat <<< (16 * n) := by
  have tag := f.word_bounds.2
  have tag_room : f.word.toNat * 2 ^ (4 * (n + 1)) < 2 ^ 4 * 2 ^ 12 :=
    Nat.mul_lt_mul_of_lt_of_le tag (Nat.pow_le_pow_right (by decide) (by omega)) (by decide)
  have value_room : x.toNat * 2 ^ (16 * n) < 2 ^ 16 * 2 ^ 32 :=
    Nat.mul_lt_mul_of_lt_of_le small (Nat.pow_le_pow_right (by decide) (by omega)) (by decide)
  rw [E_META, BitVec.toNat_or, BitVec.toNat_shiftLeft, BitVec.toNat_shiftLeft, Nat.shiftLeft_eq, Nat.shiftLeft_eq,
    Nat.mod_eq_of_lt (by omega), Nat.mod_eq_of_lt (by omega)]

namespace ErrorInfo
variable {e : ErrorInfo}

/-- Where the values are 16 bits wide, the info is the sum of its fields. -/
theorem ei_toNat (small1 : ∀ t ∈ e.info1, t.value.toNat < 2 ^ 16) (small2 : ∀ t ∈ e.info2, t.value.toNat < 2 ^ 16) :
    e.ei.toNat = valueNat e.info2 * 2 ^ 32 + valueNat e.info1 * 2 ^ 16 + tagNat e.info2 * 2 ^ 12 +
      tagNat e.info1 * 2 ^ 8 + e.code.word.toNat := by
  obtain ⟨code, info1, info2⟩ := e
  have code_lt : code.word.toNat < 255 := code.word_lt
  have value1 : valueNat info1 < 2 ^ 16 := valueNat_lt small1
  change _ = valueNat info2 * 2 ^ 32 + valueNat info1 * 2 ^ 16 + tagNat info2 * 2 ^ 12 + tagNat info1 * 2 ^ 8 + code.word.toNat
  rw [← or_fields (by omega) (tagNat_lt info1) (tagNat_lt info2) value1]
  cases info1 <;> cases info2 <;> simp only [ei, tagNat, valueNat, Nat.zero_shiftLeft, Nat.or_zero, BitVec.toNat_or]
  · rw [E_META_toNat le_rfl (small2 _ rfl)]
  · rw [E_META_toNat (by decide) (small1 _ rfl)]
  · rw [E_META_toNat (by decide) (small1 _ rfl), E_META_toNat le_rfl (small2 _ rfl)]

theorem field_toNat (w : Word) (low width : Nat) (m : Word) (mask : m.toNat = 2 ^ width - 1) :
    ((w >>> low) &&& m).toNat = w.toNat / 2 ^ low % 2 ^ width := by
  rw [BitVec.toNat_and, BitVec.toNat_ushiftRight, Nat.shiftRight_eq_div_pow, mask, Nat.and_two_pow_sub_one_eq_mod]

/-- A value that is not negative and fits is 16 bits wide. -/
theorem toNat_of_nonneg {t : Tagged} (fits : t.Fits) (nonneg : 0 ≤ t.int) : t.value.toNat < 2 ^ 16 ∧ t.int = t.value.toNat := by
  obtain ⟨-, high⟩ := fits
  unfold Tagged.int at *
  rw [BitVec.toInt_eq_toNat_cond] at *
  split at nonneg <;> omega

/-- The cast of a field to `int16_t` keeps its residue. -/
theorem cast_emod (v : Word) : (v.setWidth 16).toInt % 2 ^ 16 = (v.toNat : Int) % 2 ^ 16 := by
  rw [BitVec.toInt_setWidth, Int.bmod_def]
  split <;> omega

theorem recovered {t : Option Tagged} {tag info : Word} (tag_eq : tag.toNat = tagNat t) (info_eq : info.toNat = valueNat t)
    (small : ∀ a ∈ t, a.value.toNat < 2 ^ 16) (int : ∀ a ∈ t, a.int = a.value.toNat) :
    Recovered t tag info (if tag ≠ 0 then some tag.toNat else none)
      (if tag ≠ 0 then some (info.setWidth 16).toInt else none) := by
  cases t with
  | none =>
    have zero : tag = 0 := BitVec.eq_of_toNat_eq tag_eq
    exact ⟨zero, if_neg (by simpa using zero), if_neg (by simpa using zero)⟩
  | some a =>
    have nonzero : tag ≠ 0 := by
      rintro rfl
      exact absurd tag_eq.symm (tagNat_pos a).ne'
    have width := small a rfl
    have value : info.toNat = a.value.toNat := info_eq
    have same := int a rfl
    refine ⟨BitVec.eq_of_toNat_eq tag_eq, ?_, ?_, _, if_pos nonzero, ?_⟩
    · rw [value, same]
      omega
    · rw [if_pos nonzero, tag_eq]
      rfl
    · rw [cast_emod info, value, same]

/-- A word whose fields are those of the error decodes to it. -/
theorem decodes_of_fields {w : Word} (small1 : ∀ t ∈ e.info1, t.value.toNat < 2 ^ 16) (small2 : ∀ t ∈ e.info2, t.value.toNat < 2 ^ 16)
    (int1 : ∀ t ∈ e.info1, t.int = t.value.toNat) (int2 : ∀ t ∈ e.info2, t.int = t.value.toNat)
    (fields : w.toNat = valueNat e.info2 * 2 ^ 32 + valueNat e.info1 * 2 ^ 16 + tagNat e.info2 * 2 ^ 12 +
      tagNat e.info1 * 2 ^ 8 + e.code.word.toNat) : e.Decodes w := by
  have code_lt := e.code.word_lt
  have tag1 := tagNat_lt e.info1
  have tag2 := tagNat_lt e.info2
  have value1 := valueNat_lt small1
  have value2 := valueNat_lt small2
  have code : (w &&& 0xff).toNat = e.code.word.toNat := by
    rw [BitVec.toNat_and, show (0xff : Word).toNat = 2 ^ 8 - 1 from rfl, Nat.and_two_pow_sub_one_eq_mod]
    omega
  refine ⟨BitVec.eq_of_toNat_eq code, code, recovered ?_ ?_ small1 int1, recovered ?_ ?_ small2 int2⟩
  · rw [FHK_ETAG1, field_toNat w 8 4 _ rfl]
    omega
  · rw [FHK_EINFO1, field_toNat w 16 16 _ rfl]
    omega
  · rw [FHK_ETAG2, field_toNat w 12 4 _ rfl]
    omega
  · rw [FHK_EINFO2, field_toNat w 32 16 _ rfl]
    omega

theorem roundTrips_of_nonneg (fits1 : ∀ t ∈ e.info1, t.Fits ∧ 0 ≤ t.int) (fits2 : ∀ t ∈ e.info2, t.Fits ∧ 0 ≤ t.int) :
    e.RoundTrips := by
  have small1 := fun t mem => (toNat_of_nonneg (fits1 t mem).1 (fits1 t mem).2).1
  have small2 := fun t mem => (toNat_of_nonneg (fits2 t mem).1 (fits2 t mem).2).1
  have int1 := fun t mem => (toNat_of_nonneg (fits1 t mem).1 (fits1 t mem).2).2
  have int2 := fun t mem => (toNat_of_nonneg (fits2 t mem).1 (fits2 t mem).2).2
  have fields := ei_toNat small1 small2
  have code_lt := e.code.word_lt
  have code_pos : 0 < e.code.word.toNat := e.code.word_pos
  have tag1 := tagNat_lt e.info1
  have tag2 := tagNat_lt e.info2
  have value1 := valueNat_lt small1
  have value2 := valueNat_lt small2
  have below : e.ei.toNat < 2 ^ 48 - 1 := by omega
  have shifted : e.status.toNat = e.ei.toNat * 2 ^ 16 + 1 := by
    rw [status, BitVec.or_comm, BitVec.toNat_or, SARG, BitVec.toNat_shiftLeft, Nat.shiftLeft_eq,
      Nat.mod_eq_of_lt (by omega), ← Nat.shiftLeft_eq, show FHK_ERROR.toNat = 1 from rfl,
      ← Nat.shiftLeft_add_eq_or_of_lt (by decide), Nat.shiftLeft_eq]
  refine ⟨decodes_of_fields small1 small2 int1 int2 fields, ?_, decodes_of_fields small1 small2 int1 int2 ?_,
    by omega, if_pos ⟨?_, ?_⟩⟩
  · apply BitVec.eq_of_toNat_eq
    rw [FHK_CODE, BitVec.toNat_and, show (0xffff : Word).toNat = 2 ^ 16 - 1 from rfl, Nat.and_two_pow_sub_one_eq_mod,
      shifted, show FHK_ERROR.toNat = 1 from rfl]
    omega
  · rw [FHK_ARG, BitVec.toNat_ushiftRight, Nat.shiftRight_eq_div_pow, shifted, ← fields]
    omega
  · intro zero
    rw [zero] at fields
    simp only [BitVec.ofNat_eq_ofNat, BitVec.toNat_ofNat, Nat.zero_mod] at fields
    omega
  · exact BitVec.lt_def.mpr below

/-- The sign of a negative value fills the info above its field. -/
theorem le_E_META {n : Nat} (pos : 1 ≤ n) (le : n ≤ 2) {t : Tagged} (fits : t.Fits) (negative : t.int < 0) :
    2 ^ 48 ≤ (E_META n t.tag t.value).toNat := by
  obtain ⟨low, -⟩ := fits
  unfold Tagged.int at *
  have lt := t.value.isLt
  rw [BitVec.toInt_eq_toNat_cond] at *
  have high : 2 ^ 48 ≤ (t.value <<< (16 * n)).toNat := by
    rw [BitVec.toNat_shiftLeft, Nat.shiftLeft_eq]
    obtain rfl | rfl : n = 1 ∨ n = 2 := by omega
    · split at low <;> omega
    · split at low <;> omega
  rw [E_META, BitVec.toNat_or]
  exact high.trans Nat.right_le_or

theorem E_META_le_ei1 {t : Tagged} (mem : t ∈ e.info1) : (E_META 1 t.tag t.value).toNat ≤ e.ei.toNat := by
  obtain ⟨code, info1, info2⟩ := e
  cases mem
  cases info2 <;> simp only [ei, BitVec.toNat_or]
  · exact Nat.right_le_or
  · exact Nat.right_le_or.trans Nat.left_le_or

theorem E_META_le_ei2 {t : Tagged} (mem : t ∈ e.info2) : (E_META 2 t.tag t.value).toNat ≤ e.ei.toNat := by
  obtain ⟨code, info1, info2⟩ := e
  cases mem
  cases info1 <;> simp only [ei, BitVec.toNat_or] <;> exact Nat.right_le_or

end ErrorInfo

namespace Site

/-- The tagged values of a site. -/
def Tags (s : Site) (t : Tagged) : Prop := t ∈ s.error.info1 ∨ t ∈ s.error.info2

/-- An error whose values fit in 16 bits is read back, stays below `2^48` and is raised, exactly where
no value is negative. -/
theorem roundTrips_iff (s : Site) (fits : ∀ t, s.Tags t → t.Fits) : s.error.RoundTrips ↔ ∀ t, s.Tags t → 0 ≤ t.int := by
  constructor
  · intro trips t tags
    by_contra negative
    push Not at negative
    have below := trips.below
    obtain mem | mem := tags
    · have high := ErrorInfo.le_E_META (n := 1) le_rfl (by decide) (fits t (.inl mem)) negative
      exact absurd (high.trans (ErrorInfo.E_META_le_ei1 mem)) (Nat.not_le.mpr below)
    · have high := ErrorInfo.le_E_META (n := 2) (by decide) le_rfl (fits t (.inr mem)) negative
      exact absurd (high.trans (ErrorInfo.E_META_le_ei2 mem)) (Nat.not_le.mpr below)
  · intro nonneg
    exact ErrorInfo.roundTrips_of_nonneg (fun t mem => ⟨fits t (.inl mem), nonneg t (.inl mem)⟩)
      fun t mem => ⟨fits t (.inr mem), nonneg t (.inr mem)⟩

theorem roundTrips_iff_shape : (setshape_shape 3 0xffff).error.RoundTrips ↔ ∀ t, (setshape_shape 3 0xffff).Tags t → 0 ≤ t.int := by
  refine roundTrips_iff (setshape_shape 3 0xffff) fun t tags => ?_
  obtain mem | mem := tags <;> cases mem <;> decide

/-- The usermap -1 with instance 5: the sign of the map fills the second field. The index 0x8000 of an object
that does not exist: the info is too large, and `check` passes it on. -/
theorem not_roundTrips :
    ((FHK_EINFO2 (FHK_ARG (setmap_fail (-1) 5).error.status) = 0xffff ∧ ¬ (setmap_fail (-1) 5).error.RoundTrips) ∧
      ∀ t, (setmap_fail (-1) 5).Tags t → t.Fits) ∧
    (check (add_index 0x8000).error.ei = .ok (add_index 0x8000).error.ei ∧ ¬ (add_index 0x8000).error.RoundTrips) ∧
      ∀ t, (add_index 0x8000).Tags t → t.Fits := by
  refine ⟨⟨⟨by decide, fun trips => ?_⟩, fun t tags => ?_⟩, ⟨by decide, fun trips => ?_⟩, fun t tags => ?_⟩
  · exact absurd trips.below (by decide)
  · obtain mem | mem := tags <;> cases mem <;> decide
  · exact absurd trips.below (by decide)
  · obtain mem | mem := tags <;> cases mem
    decide

end Site
end M2.Fhk
