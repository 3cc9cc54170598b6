import Mathlib.Data.Prod.Lex
import M2.Lib.Heap
import M2.Lib.Run
import M2.Fhk.Graph

/-!
# The pruner

`src/fhk/prune.c`. The heap holds variables only, and compares its nodes by cost, then color, then
index, as the union of the source does for costs that are not negative. Allocation does not fail, and
the assertions are not part of the model: a build with `NDEBUG` goes on where they fail.
-/
namespace M2.Fhk
open M2.Lib

/-- `MAP_ISUSER`. -/
def MAP_ISUSER (map : Int) (ng : Nat) : Bool := map ≠ MAP_IDENT ∧ ng ≤ (BitVec.ofInt 8 map).toNat

theorem MAP_ISUSER_iff {map : Int} {ng : Nat} :
    MAP_ISUSER map ng = true ↔ map ≠ MAP_IDENT ∧ ng ≤ (BitVec.ofInt 8 map).toNat := decide_eq_true_iff

/-- `xidx`: a model has the index `~m`. -/
inductive Node (G : Graph)
  | model (m : Fin G.nm)
  | var (x : Fin G.nv)
  deriving DecidableEq

/-- `xcolor`: the lowest min cost possible and the lowest max cost possible. -/
inductive Color
  | GRAY
  | BLACK
  deriving DecidableEq

def Color.toNat : Color → Nat
  | .GRAY => 0
  | .BLACK => 1

theorem Color.toNat_injective : Function.Injective Color.toNat := by
  intro a b same
  cases a <;> cases b <;> first | rfl | cases same

/-- `hnode`. -/
structure HNode (G : Graph) where
  cost : Cost
  color : Color
  xi : Fin G.nv

/-- The `u64` of a heap node. -/
def HNode.u64 {G : Graph} (n : HNode G) : Lex (Cost × Lex (Nat × Fin G.nv)) := toLex (n.cost, toLex (n.color.toNat, n.xi))

theorem HNode.u64_injective {G : Graph} : Function.Injective (HNode.u64 (G := G)) := by
  rintro ⟨cost, color, xi⟩ ⟨cost', color', xi'⟩ same
  have pair := Prod.ext_iff.mp (toLex.injective same)
  have low := Prod.ext_iff.mp (toLex.injective pair.2)
  simp only at pair low
  rw [pair.1, Color.toNat_injective low.1, low.2]

instance instLinearOrderHNode {G : Graph} : LinearOrder (HNode G) := LinearOrder.lift' HNode.u64 HNode.u64_injective

/-- The flags of a node. The markers `COLOR(GRAY)` and `COLOR(BLACK)` are a function of the color. -/
structure NodeFlags where
  given : Bool
  skip : Bool
  select : Bool
  color : Color → Bool
  selected : Bool
  retedge : Bool

/-- `struct fhk_prune`. -/
structure Prune (G : Graph) where
  flags : Node G → NodeFlags
  bound : Node G × Color → Cost
  p_miss : Fin G.nm × Color → Nat
  heap : Heap (HNode G)

/-- Why a run ends: `FHKE_CHAIN` at a node, or no fuel. -/
inductive Stop (G : Graph)
  | chain (i : Node G)
  | fuel

namespace Graph
variable (G : Graph)

/-- `xnonempty`. -/
def xnonempty (map : Int) : Bool := !MAP_ISUSER map G.ng

end Graph

namespace Prune
variable {G : Graph} (P : Prune G)

def setFlags (i : Node G) (f : NodeFlags → NodeFlags) : Prune G :=
  { P with flags := Function.update P.flags i (f (P.flags i)) }

def setBound (i : Node G) (color : Color) (cost : Cost) : Prune G :=
  { P with bound := Function.update P.bound (i, color) cost }

/-- `flags |= FHKF_SKIP` of a model. -/
def skipModel (P : Prune G) (e : Edge G.nm) : Prune G := P.setFlags (.model e.idx) fun F => { F with skip := true }

/-- `flags |= COLOR(color)`. -/
def mark (i : Node G) (color : Color) : Prune G :=
  P.setFlags i fun F => { F with color := Function.update F.color color true }

/-- `prune_mark_given`. -/
def prune_mark_given : Prune G :=
  (List.finRange G.nv).foldl (fun P x =>
    if (P.flags (.var x)).given then (G.vars x).models.foldl skipModel P else P) P

/-- `prune_mark_skips`. -/
def prune_mark_skips : Prune G :=
  (List.finRange G.nv).foldl (fun P x =>
    if (P.flags (.var x)).skip then (G.vars x).fwds.foldl skipModel ((G.vars x).models.foldl skipModel P) else P) P

/-- The counters of a model, one byte each, in `prune_init_mstate`. -/
def missInit (G : Graph) (m : Fin G.nm) : Color → Nat
  | .GRAY => (G.models m).params.foldl (fun n e => (n + if G.xnonempty e.map then 1 else 0) % 256) 0
  | .BLACK => (G.models m).params.length % 256

/-- `prune_init_mstate`. -/
def prune_init_mstate : Prune G := { P with p_miss := fun w => missInit G w.1 w.2 }

/-- `prune_insert_var`. -/
def prune_insert_var (xi : Fin G.nv) (cost : Cost) (color : Color) : Prune G :=
  { P with heap := P.heap.push ⟨cost, color, xi⟩ }

/-- The penalties that a bound of a model counts: all of them, or those of skipped variables. -/
def addPenalty (m : Model G.nv G.nw) (color : Color) (cost : Cost) : Cost :=
  m.shadows.foldl (fun cost e =>
    if color = .BLACK ∨ (P.flags (.var (G.shadows e.idx).xi)).skip then cost + e.penalty else cost) cost

/-- The loop over the returns in `prune_bound_model`. -/
def insertReturn (cost : Cost) (color : Color) (P : Prune G) (e : Edge G.nv) : Prune G :=
  if color = .GRAY ∨ G.xnonempty e.map then P.prune_insert_var e.idx cost color else P

/-- `prune_bound_model`. -/
def prune_bound_model (mi : Fin G.nm) (color : Color) : Prune G :=
  if (P.flags (.model mi)).skip then P
  else
    let m := G.models mi
    let P := P.mark (.model mi) color
    let cost := m.costf (P.addPenalty m color (P.bound (.model mi, color)))
    let P := P.setBound (.model mi) color cost
    m.returns.foldl (insertReturn cost color) P

/-- The loop over the forward edges in `prune_bound_var`. -/
def boundFwd (cost : Cost) (color : Color) (P : Prune G) (e : Edge G.nm) : Prune G :=
  if color = .GRAY ∧ !G.xnonempty e.map then P
  else
    let P := P.setBound (.model e.idx) color (P.bound (.model e.idx, color) + cost)
    -- the counter is a byte
    let miss := (P.p_miss (e.idx, color) + 255) % 256
    let P := { P with p_miss := Function.update P.p_miss (e.idx, color) miss }
    if miss = 0 then P.prune_bound_model e.idx color else P

/-- `prune_bound_var`. -/
def prune_bound_var (xi : Fin G.nv) (cost : Cost) (color : Color) : Prune G :=
  if (P.flags (.var xi)).color color then P
  else
    let P := P.mark (.var xi) color
    let P := P.setBound (.var xi) color cost
    (G.vars xi).fwds.foldl (boundFwd cost color) P

/-- One turn of `prune_insert_given`. -/
def insertGiven (P : Prune G) (x : Fin G.nv) : Except (Stop G) (Prune G) :=
  if (P.flags (.var x)).given then
    if (P.flags (.var x)).skip then .error (.chain (.var x))
    else .ok ((P.prune_insert_var x 0 .GRAY).prune_insert_var x 0 .BLACK)
  else .ok P

/-- `prune_insert_given`. -/
def prune_insert_given : Except (Stop G) (Prune G) := (List.finRange G.nv).foldlM insertGiven P

/-- One turn of `prune_insert_constmods`, for one color. -/
def insertConst (m : Fin G.nm) (color : Color) : Prune G :=
  if P.p_miss (m, color) = 0 then P.prune_bound_model m color else P

/-- One turn of `prune_insert_constmods`. -/
def insertConstmod (P : Prune G) (m : Fin G.nm) : Prune G :=
  if (P.flags (.model m)).skip then P else (P.insertConst m .GRAY).insertConst m .BLACK

/-- `prune_insert_constmods`. -/
def prune_insert_constmods : Prune G := (List.finRange G.nm).foldl insertConstmod P

/-- One turn of the loop of `prune_propagate`, none where the heap is empty. -/
def propagateStep : Option (Prune G) :=
  if P.heap.pos = 0 then none
  else
    let (next, heap) := P.heap.pop
    some ({ P with heap }.prune_bound_var next.xi next.cost next.color)

/-- `prune_propagate`. -/
def prune_propagate (fuel : Nat) : Except (Stop G) (Prune G) :=
  match Run.untilHalt propagateStep fuel P with
  | some P => .ok P
  | none => .error .fuel

/-- One node of `prune_mark_unreachable`. -/
def markUnreachable (P : Prune G) (i : Node G) : Prune G :=
  let P := if (P.flags i).color .GRAY then P else P.setBound i .GRAY ⊤
  let P := if (P.flags i).color .BLACK then P else P.setBound i .BLACK ⊤
  if P.bound (i, .GRAY) = ⊤ then P.setFlags i fun F => { F with skip := true } else P

/-- The nodes in the order of their indices. -/
def nodes (G : Graph) : List (Node G) := (List.finRange G.nm).reverse.map .model ++ (List.finRange G.nv).map .var

/-- `prune_mark_unreachable`. -/
def prune_mark_unreachable : Prune G := (nodes G).foldl markUnreachable P

/-- `flags |= SELECTED | FHKF_SELECT`. -/
def setSelected (i : Node G) : Prune G := P.setFlags i fun F => { F with selected := true, select := true }

/-- `flags |= RETEDGE` of a returned variable. -/
def setRetedge (P : Prune G) (e : Edge G.nv) : Prune G := P.setFlags (.var e.idx) fun F => { F with retedge := true }

/-- A variable takes this model: its low bound is below `beta`, or it is the one that attains it. -/
def takes (bound : Node G × Color → Cost) (beta : Cost) (needbeta : Bool) (mi : Fin G.nm) : Bool :=
  bound (.model mi, .GRAY) < beta ∨ (needbeta ∧ bound (.model mi, .BLACK) = beta)

/-- One model of a variable in `prune_select`, which calls itself as `rec`. The flag is `needbeta`. -/
def selectSource (rec : Prune G → Node G → Option (Prune G)) (beta : Cost) (st : Prune G × Bool) (e : Edge G.nm) :
    Option (Prune G × Bool) :=
  let (P, needbeta) := st
  if takes P.bound beta needbeta e.idx then
    (rec P (.model e.idx)).map fun P' => (P', needbeta && decide (P.bound (.model e.idx, .BLACK) > beta))
  else some (P, needbeta)

/-- The variable of a shadow in `prune_select`. -/
def selectShadow (rec : Prune G → Node G → Option (Prune G)) (P : Prune G) (e : ShEdge G.nw) : Option (Prune G) :=
  let xi := (G.shadows e.idx).xi
  if (P.flags (.var xi)).skip then some P else rec P (.var xi)

/-- What `prune_select` does behind a node. -/
def selectBehind (rec : Prune G → Node G → Option (Prune G)) (P : Prune G) : Node G → Option (Prune G)
  | .var xi =>
    let beta := P.bound (.var xi, .BLACK)
    ((G.vars xi).models.foldlM (selectSource rec beta) (P, decide (beta < ⊤))).map Prod.fst
  | .model mi => do
    let m := G.models mi
    let P ← m.shadows.foldlM (selectShadow rec) P
    let P ← m.params.foldlM (fun P e => rec P (.var e.idx)) P
    some (m.returns.foldl setRetedge P)

/-- `prune_select`. The first argument bounds the depth. -/
def prune_select : Nat → Prune G → Node G → Option (Prune G)
  | 0, _, _ => none
  | fuel + 1, P, idx =>
    if (P.flags idx).selected then some P else selectBehind (prune_select fuel) (P.setSelected idx) idx

/-- One node of the first loop of `prune_mark_selects`. -/
def markSelect (fuel : Nat) (P : Prune G) (i : Node G) : Except (Stop G) (Prune G) :=
  if (P.flags i).select then
    if (P.flags i).skip then .error (.chain i)
    else
      match prune_select fuel P i with
      | some P => .ok P
      | none => .error .fuel
  else .ok P

/-- One variable of the second loop of `prune_mark_selects`. -/
def selectRetedge (P : Prune G) (x : Fin G.nv) : Prune G :=
  if (P.flags (.var x)).retedge then P.setFlags (.var x) fun F => { F with select := true } else P

/-- `prune_mark_selects`. -/
def prune_mark_selects (fuel : Nat) : Except (Stop G) (Prune G) := do
  let P ← (nodes G).foldlM (markSelect fuel) P
  .ok ((List.finRange G.nv).foldl selectRetedge P)

/-- `fhk_prune_run`. -/
def fhk_prune_run (fuel : Nat) (P : Prune G) : Except (Stop G) (Prune G) := do
  let P := P.prune_mark_given.prune_mark_skips.prune_init_mstate
  let P ← P.prune_insert_given
  let P ← P.prune_insert_constmods.prune_propagate fuel
  P.prune_mark_unreachable.prune_mark_selects fuel

/-- A fresh `struct fhk_prune`, with any of the flags a caller may set. -/
structure Fresh : Prop where
  flags : ∀ i, (P.flags i).color = (fun _ => false) ∧ (P.flags i).selected = false ∧ (P.flags i).retedge = false
  bound : ∀ w, P.bound w = 0
  heap : P.heap.pos = 0

end Prune
end M2.Fhk
