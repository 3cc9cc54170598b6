import M2.Lib.ExchangeSort
import M2.Fhk.Define

/-!
# Building graphs

`fhk_build_graph` of `src/fhk/build.c`. The edge arrays lie in one memory behind the nodes. Addresses
are in bytes, edges are read and written by words of four bytes, which is what all arrays are aligned
to. The memory is used twice: for the models of each variable, which decide the order of the arrays,
and then for the arrays. A model `i` has the index `~i`. Left out are the precomputed inverse `ki`,
`ci` (see `Model.ki`), which the builder does not read, and the debug symbols.
-/
namespace M2.Fhk
open M2.Lib

/-- A word of the edge area: an `fhk_edge`, or the front of an `fhk_shedge` with its flags in the place
of `ex`, or the penalty behind it. -/
inductive Cell
  | edge (idx map : Int) (ex : Nat)
  | penalty (x : FloatVal)

namespace Cell

def idx : Cell → Int
  | .edge idx _ _ => idx
  | .penalty _ => 0

def map : Cell → Int
  | .edge _ map _ => map
  | .penalty _ => 0

def ex : Cell → Nat
  | .edge _ _ ex => ex
  | .penalty _ => 0

def value : Cell → FloatVal
  | .edge _ _ _ => .nan
  | .penalty x => x

/-- A write to the field `idx` alone. -/
def setIdx (idx : Int) (c : Cell) : Cell := .edge idx c.map c.ex

/-- A write to the fields `idx` and `map`. -/
def setIdxMap (idx map : Int) (c : Cell) : Cell := .edge idx map c.ex

end Cell

/-- `struct fhk_var` with the addresses of its arrays. -/
structure VarNode where
  models : Nat
  fwds : Nat
  group : Nat
  n_mod : Nat
  size : BitVec 16
  n_fwd : Nat

/-- `struct fhk_model`. The array `shadows` ends where `params` starts. -/
structure ModelNode where
  params : Nat
  returns : Nat
  group : Nat
  p_shadow : Int
  p_cparam : Nat
  p_param : Nat
  p_return : Nat
  noretbuf : Bool
  k : FloatVal
  c : FloatVal
  cmin : FloatVal

/-- `struct fhk_shadow`. -/
structure ShadowNode where
  arg : BitVec 64
  xi : Nat
  group : Nat
  guard : BitVec 8

/-- `struct fhk_graph` and the memory behind it. -/
structure Build where
  mem : Nat → Cell
  vars : Nat → VarNode
  models : Nat → ModelNode
  shadows : Nat → ShadowNode

namespace Build

/-- `ALIGN`. -/
def align (p m : Nat) : Nat := (p + m - 1) / m * m

variable (G : Build)

def load (a : Nat) : Cell := G.mem (a / 4)

def store (a : Nat) (f : Cell → Cell) : Build := { G with mem := Function.update G.mem (a / 4) (f (G.mem (a / 4))) }

def setVar (i : Nat) (x : VarNode) : Build := { G with vars := Function.update G.vars i x }

def setModel (i : Nat) (m : ModelNode) : Build := { G with models := Function.update G.models i m }

/-- The number of the model with this index. -/
def modelOf (idx : Int) : Nat := (~~~idx).toNat

/-- `params` of model `i`. -/
def params (i : Nat) : List Cell := (List.range (G.models i).p_param).map fun j => G.load ((G.models i).params + j * 4)

/-- `returns` of model `i`. -/
def returns (i : Nat) : List Cell := (List.range (G.models i).p_return).map fun j => G.load ((G.models i).returns + j * 4)

/-- `shadows[p_shadow .. -1]` of model `i`, the edge and its penalty. -/
def checks (i : Nat) : List (Cell × FloatVal) :=
  (List.range (-(G.models i).p_shadow).toNat).map fun j : Nat =>
    let a := ((G.models i).params + ((G.models i).p_shadow + j) * 8 : Int).toNat
    (G.load a, (G.load (a + 4)).value)

/-- `models` of variable `x`. -/
def varModels (x : Nat) : List Cell := (List.range (G.vars x).n_mod).map fun j => G.load ((G.vars x).models + j * 4)

/-- `fwds` of variable `x`. -/
def varFwds (x : Nat) : List Cell := (List.range (G.vars x).n_fwd).map fun j => G.load ((G.vars x).fwds + j * 4)

end Build

namespace Def
variable (D : Def)

/-- `D->models[i]`. -/
def model (i : Nat) : DefModel := D.models.getD i ⟨[], [], [], 0, 0, 0, 0⟩

/-- `D->vars[i]`. -/
def var (i : Nat) : DefVar := D.vars.getD i ⟨0, 0, 0, 0, 0⟩

/-- `D->shadows[i]`. -/
def shadow (i : Nat) : DefShadow := D.shadows.getD i ⟨0, 0, 0⟩

/-- The nodes, `fhk_model` of 48 bytes, `fhk_graph`, `fhk_var` and `fhk_shadow` of 24. -/
def nodeBytes : Nat := D.models.length * 48 + 24 + (D.vars.length + D.shadows.length) * 24

/-- `fhk_graph_size`. -/
def fhk_graph_size : Nat :=
  let ne := (D.models.map fun dm => 2 * (dm.params.length + dm.returns.length)).sum
  let nc := (D.models.map fun dm => dm.shadows.length).sum
  D.nodeBytes + nc * 8 + ne * 4 + (-D.minimap).toNat

/-- `g_copy_nodes`. -/
def g_copy_nodes (mem : Nat → Cell) : Build where
  mem
  vars i := ⟨0, 0, (D.var i).group, (D.var i).n_mod, (D.var i).size, (D.var i).n_fwd⟩
  models i := ⟨0, 0, (D.model i).group, 0, 0, 0, 0, false, (D.model i).k, (D.model i).c, (D.model i).cmin⟩
  shadows i := ⟨(D.shadow i).arg, (D.shadow i).xi, (D.var (D.shadow i).xi).group, (D.shadow i).guard⟩

/-! ## `g_build_edges` -/

/-- The arrays of a variable in the scratch space, and its counters zeroed. -/
def scratchVar (st : Build × Nat) (i : Nat) : Build × Nat :=
  let (G, scratch) := st
  let x := G.vars i
  let models := scratch
  let scratch := scratch + x.n_mod * 4
  let fwds := scratch
  let scratch := scratch + x.n_fwd * 4
  (G.setVar i { x with models, fwds, n_mod := 0, n_fwd := 0 }, scratch)

/-- `x->fwds[x->n_fwd++].idx = ~i`. -/
def scratchFwd (i : Nat) (G : Build) (e : DefEdge) : Build :=
  let x := G.vars e.idx
  (G.store (x.fwds + x.n_fwd * 4) (Cell.setIdx (~~~(i : Int)))).setVar e.idx { x with n_fwd := x.n_fwd + 1 }

/-- `x->models[x->n_mod++].idx = ~i`. -/
def scratchMod (i : Nat) (G : Build) (e : DefEdge) : Build :=
  let x := G.vars e.idx
  (G.store (x.models + x.n_mod * 4) (Cell.setIdx (~~~(i : Int)))).setVar e.idx { x with n_mod := x.n_mod + 1 }

/-- The edges to model `i` in the scratch space. -/
def scratchModel (G : Build) (i : Nat) : Build :=
  let G := (D.model i).params.foldl (scratchFwd i) G
  (D.model i).returns.foldl (scratchMod i) G

/-- The edge positions of model `i`. -/
def countModel (G : Build) (i : Nat) : Build :=
  let dm := D.model i
  let m := G.models i
  G.setModel i { m with
    params := 0, returns := 0, p_shadow := -(dm.shadows.length : Int),
    p_cparam := dm.params.foldl (fun n e => if (D.var e.idx).n_mod ≠ 0 then n + 1 else n) 0,
    p_param := dm.params.length, p_return := dm.returns.length }

/-- `if(!m->params)`: checks and parameters of model `i` at `p`. -/
def assignParams (st : Build × Nat) (i : Nat) : Build × Nat :=
  let (G, p) := st
  let m := G.models i
  if m.params = 0 then
    let p := if m.p_shadow ≠ 0 then Build.align p 4 else p
    let p := p + (-m.p_shadow).toNat * 8
    (G.setModel i { m with params := p }, p + m.p_param * 4)
  else (G, p)

/-- `if(!m->returns)`: returns of model `i` at `p`. -/
def assignReturns (st : Build × Nat) (i : Nat) : Build × Nat :=
  let (G, p) := st
  let m := G.models i
  if m.returns = 0 then (G.setModel i { m with returns := p }, p + m.p_return * 4)
  else (G, p)

/-- The models of a variable, and behind them the arrays of those that have none yet. -/
def assignModels (st : Build × Nat) (i : Nat) : Build × Nat :=
  let (G, p) := st
  let x := G.vars i
  let models := x.models
  let G := G.setVar i { x with models := p }
  let (G, p) := (List.range x.n_mod).foldl (fun st j => assignParams st (Build.modelOf (st.1.load (models + j * 4)).idx))
    (G, p + x.n_mod * 4)
  -- a counter from here on
  (G.setVar i { G.vars i with n_mod := 0 }, p)

/-- The forward edges of a variable, and behind them the returns of their models. -/
def assignFwds (st : Build × Nat) (i : Nat) : Build × Nat :=
  let (G, p) := st
  let x := G.vars i
  let fwds := x.fwds
  let G := G.setVar i { x with fwds := p }
  let (G, p) := (List.range x.n_fwd).foldl (fun st j => assignReturns st (Build.modelOf (st.1.load (fwds + j * 4)).idx))
    (G, p + x.n_fwd * 4)
  (G.setVar i { G.vars i with n_fwd := 0 }, p)

/-- The arrays of a model that no variable led to. -/
def assignRest (st : Build × Nat) (i : Nat) : Build × Nat := assignReturns (assignParams st i) i

/-- `W_COMPUTED`. -/
def W_COMPUTED : Nat := 1

/-- One check of model `i`, with the running `p_shadow`. -/
def buildCheck (i : Nat) (st : Build × Int) (e : DefShEdge) : Build × Int :=
  let (G, p_shadow) := st
  let w := G.shadows e.idx
  let dx := D.var w.xi
  let p_shadow := p_shadow - 1
  let ep := ((G.models i).params + p_shadow * 8 : Int).toNat
  let G := G.store (ep + 4) fun _ => .penalty e.penalty
  let flags := if dx.n_mod ≠ 0 then W_COMPUTED else 0
  (G.store ep fun _ => .edge (D.vars.length + e.idx) (D.g_extmap (G.vars w.xi).group e.map) flags, p_shadow)

/-- Parameter `j` of model `i` with the running `p_cparam` and `p_gparam`, and its forward edge. -/
def buildParam (i : Nat) (st : Build × Nat × Nat) (de : DefEdge × Nat) : Build × Nat × Nat :=
  let (G, p_cparam, p_gparam) := st
  let (e, j) := de
  let dx := D.var e.idx
  let at' := if dx.n_mod ≠ 0 then p_cparam else p_gparam
  let G := G.store ((G.models i).params + at' * 4) fun _ => .edge e.idx (D.g_extmap (G.vars e.idx).group e.map) j
  let x := G.vars e.idx
  let G := G.store (x.fwds + x.n_fwd * 4) (Cell.setIdxMap (~~~(i : Int)) (D.g_extmapi (G.models i).group e.map))
  (G.setVar e.idx { x with n_fwd := x.n_fwd + 1 },
    if dx.n_mod ≠ 0 then p_cparam + 1 else p_cparam, if dx.n_mod ≠ 0 then p_gparam else p_gparam + 1)

/-- Return `j` of model `i`, and its inverse. -/
def buildReturn (i : Nat) (G : Build) (de : DefEdge × Nat) : Build :=
  let (e, j) := de
  let G := G.store ((G.models i).returns + j * 4) fun _ => .edge e.idx (D.g_extmap (G.vars e.idx).group e.map) j
  let x := G.vars e.idx
  let G := G.store (x.models + x.n_mod * 4) fun _ => .edge (~~~(i : Int)) (D.g_extmapi (G.models i).group e.map) j
  G.setVar e.idx { x with n_mod := x.n_mod + 1 }

/-- The edges of model `i`. -/
def buildModel (G : Build) (i : Nat) : Build :=
  let dm := D.model i
  let (G, _) := dm.shadows.foldl (D.buildCheck i) (G, 0)
  let (G, _, _) := dm.params.zipIdx.foldl (D.buildParam i) (G, 0, (G.models i).p_cparam)
  dm.returns.zipIdx.foldl (D.buildReturn i) G

/-- `g_build_edges`, with the position behind the arrays. -/
def g_build_edges (G : Build) (p : Nat) : Build × Nat :=
  let nv := List.range D.vars.length
  let nm := List.range D.models.length
  let (G, _) := nv.foldl scratchVar (G, p)
  let G := nm.foldl D.scratchModel G
  let G := nm.foldl D.countModel G
  let (G, p) := nv.foldl assignModels (G, p)
  let (G, p) := nv.foldl assignFwds (G, p)
  let (G, p) := nm.foldl assignRest (G, p)
  (nm.foldl D.buildModel G, p)

/-! ## Order and flags -/

/-- `g_mretbuf`. -/
def g_mretbuf (G : Build) (i : Nat) : Bool :=
  let returns := G.returns i
  if returns.map Cell.map = [MAP_IDENT] then false
  else returns.any fun e =>
    (G.vars e.idx.toNat).n_mod ≠ 1 || e.map ≠ MAP_IDENT && decide (D.ng ≤ (BitVec.ofInt 8 e.map).toNat)

/-- `g_mflags` of model `i`. -/
def flagModel (G : Build) (i : Nat) : Build := G.setModel i { G.models i with noretbuf := !D.g_mretbuf G i }

/-- Writes words from a word address on. -/
def storeCells (mem : Nat → Cell) (w : Nat) : List Cell → Nat → Cell
  | [] => mem
  | c :: cells => storeCells (Function.update mem w c) (w + 1) cells

/-- `g_reorder_edges` of model `i`: its computed parameters by cost difference, its checks by
penalty. -/
def reorderModel (G : Build) (i : Nat) : Build :=
  let m := G.models i
  let params := exchangeSort (fun a b => (D.var b.idx.toNat).cdiff.lt (D.var a.idx.toNat).cdiff)
    ((G.params i).take m.p_cparam)
  let G := { G with mem := storeCells G.mem (m.params / 4) params }
  let checks := exchangeSort (fun a b => a.2.lt b.2) (G.checks i)
  let words := checks.flatMap fun e => [e.1, .penalty e.2]
  { G with mem := storeCells G.mem ((m.params + m.p_shadow * 8 : Int).toNat / 4) words }

/-- `fhk_build_graph` in the memory from `base` on, with the position behind the graph. -/
def fhk_build_graph (mem : Nat → Cell) (base : Nat) : Build × Nat :=
  let nm := List.range D.models.length
  let (G, p) := D.g_build_edges (D.g_copy_nodes mem) (base + D.nodeBytes)
  -- `g_copy_umaps`: one byte for each nonconstant map
  let p := p + (-D.minimap).toNat
  let G := nm.foldl D.reorderModel G
  (nm.foldl D.flagModel G, p)

end Def
end M2.Fhk
