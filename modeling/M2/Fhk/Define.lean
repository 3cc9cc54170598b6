import M2.Fhk.Graph

/-!
# Graph definitions

The `fhk_def_add_*` calls of `src/fhk/build.c` and the translation of external maps to the map codes
of a built graph. A vector is a list that grows at its end, a handle is the place of its object. The
limits are checked on running maxima, so that no later call has to look at earlier edges.
-/
namespace M2.Fhk

/-- A `float` a caller may pass: a number, one of the infinities or NaN. -/
inductive FloatVal
  | nan
  | neg_inf
  | num (x : ℚ)
  | inf

namespace FloatVal

instance instOfNat {n : Nat} : OfNat FloatVal n := ⟨.num n⟩

/-- `a < b`, false where one is NaN. -/
def lt : FloatVal → FloatVal → Bool
  | .neg_inf, .num _ => true
  | .neg_inf, .inf => true
  | .num x, .num y => x < y
  | .num _, .inf => true
  | _, _ => false

theorem lt_irrefl (a : FloatVal) : a.lt a = false := by
  cases a with
  | num x => exact decide_eq_false (Rat.lt_irrefl)
  | _ => rfl

theorem lt_trans {a b c : FloatVal} (ab : a.lt b = true) (bc : b.lt c = true) : a.lt c = true := by
  cases a <;> cases b <;> cases c <;> simp only [lt, Bool.false_eq_true, decide_eq_true_eq] at ab bc ⊢
  exact ab.trans bc

end FloatVal

/-- `fhk_extmap`: the two constants, and `FHKMAP_USER(map, inverse)` of two bytes. -/
inductive ExtMap
  | FHKMAP_IDENT
  | FHKMAP_SPACE
  | FHKMAP_USER (map inverse : BitVec 8)
  deriving DecidableEq

/-- `struct def_edge`. -/
structure DefEdge where
  idx : Nat
  map : ExtMap

/-- `struct def_shedge`. -/
structure DefShEdge where
  idx : Nat
  map : ExtMap
  penalty : FloatVal

/-- `struct def_model`. -/
structure DefModel where
  params : List DefEdge
  returns : List DefEdge
  shadows : List DefShEdge
  group : Nat
  k : FloatVal
  c : FloatVal
  cmin : FloatVal

/-- `struct def_var`. -/
structure DefVar where
  group : Nat
  size : BitVec 16
  n_fwd : Nat
  n_mod : Nat
  cdiff : FloatVal

/-- `struct def_shadow`. -/
structure DefShadow where
  arg : BitVec 64
  xi : Nat
  guard : BitVec 8

/-- `struct fhk_def`. The array `umap_assoc` is indexed by the map. -/
structure Def where
  models : List DefModel
  vars : List DefVar
  shadows : List DefShadow
  maxg : Int
  minimap : Int
  maxkmap : Int
  umap_assoc : Int → Nat

/-- `FHK_NGRP`. -/
def FHK_NGRP : Nat := 0xff

/-- `G_MAXIDX`. -/
def G_MAXIDX : Nat := 0x7ffe

/-- `G_MAXEDGE`. -/
def G_MAXEDGE : Nat := 0x7f

/-- `G_MAXFWDE`. -/
def G_MAXFWDE : Nat := 0xffff

/-- `G_MAXMODE`. -/
def G_MAXMODE : Nat := 0xff

/-- `G_MAXUMAP`. -/
def G_MAXUMAP : Int := 0x7f

/-- `G_MINUMAP`. -/
def G_MINUMAP : Int := -127

/-- `fhk_create_def`. -/
def fhk_create_def : Def where
  models := []
  vars := []
  shadows := []
  maxg := -1
  minimap := 0
  maxkmap := -1
  umap_assoc _ := FHK_NGRP

namespace Def
variable (D : Def)

/-- One half of a user map in `d_checkmap`: a nonconstant map belongs to one group. -/
def associate (m : Int) (group : Nat) : Option Def :=
  if 0 ≤ m then some D
  else if D.umap_assoc m = FHK_NGRP then some { D with umap_assoc := Function.update D.umap_assoc m group }
  else if D.umap_assoc m ≠ group then none
  else some D

/-- `d_checkmap` of a map between the groups `src` and `dst`, none for false. -/
def d_checkmap (map : ExtMap) (src dst : Nat) : Option Def :=
  match map with
  | .FHKMAP_IDENT => some D
  | .FHKMAP_SPACE => some D
  | .FHKMAP_USER m i => do
    let D ← D.associate m.toInt src
    let D ← D.associate i.toInt dst
    let maxkmap := max D.maxkmap (max m.toInt i.toInt)
    let minimap := min D.minimap (min m.toInt i.toInt)
    if D.maxg + maxkmap > G_MAXUMAP then none
    else if minimap < G_MINUMAP then none
    else some { D with maxkmap, minimap }

/-- `fhk_def_add_model`, the definition with one more model; none where the call is refused. -/
def fhk_def_add_model (group : Nat) (k c cmin : FloatVal) : Option Def :=
  if D.models.length = G_MAXIDX then none
  else if group + D.maxkmap > G_MAXUMAP then none
  else if k.lt 0 ∨ c.lt 1 then none
  else some { D with maxg := max D.maxg group, models := D.models ++ [⟨[], [], [], group, k, c, cmin⟩] }

/-- `fhk_def_add_var`. -/
def fhk_def_add_var (group : Nat) (size : BitVec 16) (cdiff : FloatVal) : Option Def :=
  if D.vars.length + D.shadows.length = G_MAXIDX then none
  else if group + D.maxkmap > G_MAXUMAP then none
  else if size &&& (size - 1) ≠ 0 then none
  else some { D with maxg := max D.maxg group, vars := D.vars ++ [⟨group, size, 0, 0, cdiff⟩] }

/-- `fhk_def_add_shadow`. -/
def fhk_def_add_shadow (xi : Nat) (guard : BitVec 8) (arg : BitVec 64) : Option Def :=
  if D.vars.length + D.shadows.length = G_MAXIDX then none
  else if xi > D.vars.length then none
  else some { D with shadows := D.shadows ++ [⟨arg, xi, guard⟩] }

/-- What the calls for parameters and returns have in common: `full` is the limit check, `link` adds
the edge to the model and `count` counts it at the variable. -/
-- The source lets an index through that is the length itself, but that is no handle.
def addEdge (full : DefModel → DefVar → Bool) (link : DefModel → DefEdge → DefModel) (count : DefVar → DefVar)
    (mi xi : Nat) (map : ExtMap) : Option Def := do
  let dm ← D.models[mi]?
  let dx ← D.vars[xi]?
  if full dm dx then none
  else
    let D ← D.d_checkmap map dm.group dx.group
    some { D with models := D.models.set mi (link dm ⟨xi, map⟩), vars := D.vars.set xi (count dx) }

/-- `fhk_def_add_param`. -/
def fhk_def_add_param (mi xi : Nat) (map : ExtMap) : Option Def :=
  D.addEdge (fun dm dx => dm.params.length = G_MAXEDGE ∨ dx.n_fwd = G_MAXFWDE)
    (fun dm e => { dm with params := dm.params ++ [e] }) (fun dx => { dx with n_fwd := dx.n_fwd + 1 }) mi xi map

/-- `fhk_def_add_return`. -/
def fhk_def_add_return (mi xi : Nat) (map : ExtMap) : Option Def :=
  D.addEdge (fun dm dx => dm.returns.length = G_MAXEDGE ∨ dx.n_mod = G_MAXMODE)
    (fun dm e => { dm with returns := dm.returns ++ [e] }) (fun dx => { dx with n_mod := dx.n_mod + 1 }) mi xi map

/-- `fhk_def_add_check`. -/
def fhk_def_add_check (mi wi : Nat) (map : ExtMap) (penalty : FloatVal) : Option Def := do
  let dm ← D.models[mi]?
  let w ← D.shadows[wi]?
  let dx ← D.vars[w.xi]?
  if dm.shadows.length = G_MAXEDGE then none
  else
    let D ← D.d_checkmap map dm.group dx.group
    some { D with models := D.models.set mi { dm with shadows := dm.shadows ++ [⟨wi, map, penalty⟩] } }

/-- An accepted call with handles of the definition. -/
inductive Add (D D' : Def) : Prop
  | model (group : BitVec 8) (k c cmin : FloatVal) (ok : D.fhk_def_add_model group.toNat k c cmin = some D')
  | var (group : BitVec 8) (size : BitVec 16) (cdiff : FloatVal) (ok : D.fhk_def_add_var group.toNat size cdiff = some D')
  | shadow (xi : Nat) (handle : xi < D.vars.length) (guard : BitVec 8) (arg : BitVec 64)
      (ok : D.fhk_def_add_shadow xi guard arg = some D')
  | param (mi xi : Nat) (map : ExtMap) (ok : D.fhk_def_add_param mi xi map = some D')
  | returns (mi xi : Nat) (map : ExtMap) (ok : D.fhk_def_add_return mi xi map = some D')
  | check (mi wi : Nat) (map : ExtMap) (penalty : FloatVal) (ok : D.fhk_def_add_check mi wi map penalty = some D')

/-- The definitions that accepted calls reach. -/
def Defined (D : Def) : Prop := Relation.ReflTransGen Add fhk_create_def D

/-! ## Map codes -/

/-- A value stored as an `int8_t`, the type of a map code. -/
def int8 (x : Int) : Int := (BitVec.ofInt 8 x).toInt

/-- `G->ng`. -/
def ng : Nat := (BitVec.ofInt 8 (D.maxg + 1)).toNat

/-- `G->nkmap`. -/
def nkmap : Nat := (BitVec.ofInt 8 (D.ng + D.maxkmap + 1)).toNat

/-- `G->nimap`. -/
def nimap : Nat := (BitVec.ofInt 8 (-D.minimap)).toNat

/-- `MAP_UMAP(map, ng)`. -/
def MAP_UMAP (map : Int) : Int := map + if 0 ≤ map then D.ng else 0

/-- `g_extmap`, of a variable's group. -/
def g_extmap (group : Nat) : ExtMap → Int
  | .FHKMAP_IDENT => MAP_IDENT
  | .FHKMAP_SPACE => int8 group
  | .FHKMAP_USER map _ => int8 (D.MAP_UMAP map.toInt)

/-- `g_extmapi`, of a model's group. -/
def g_extmapi (group : Nat) : ExtMap → Int
  | .FHKMAP_IDENT => MAP_IDENT
  | .FHKMAP_SPACE => int8 group
  | .FHKMAP_USER _ inverse => int8 (D.MAP_UMAP inverse.toInt)

end Def
end M2.Fhk
