import M2.Lib.Cost
import Mathlib.Tactic.Ring

/-!
# The solver graph

`src/fhk/def.h`: models, variables and shadows with their edges, as the builder leaves
them. Node indices are `Fin`s of the node counts, so a dangling edge cannot be written
down; an instance is a `uint16_t`. A model's `params` keep the builder's split: the
computed parameters are `[0, p_cparam)`, the given ones follow. The flag `W_COMPUTED` of
a shadow edge is the field `computed`, the flag `M_NORETBUF` of a model is `noretbuf`.
Costs are exact: the `float`s of the source are rationals, `INFINITY` is the top element.
-/
namespace M2.Fhk
open M2.Lib

/-- `fhk_inst`. -/
abbrev Inst := Fin 65536

instance instNeZeroInst : NeZero 65536 := ⟨by decide⟩

/-- `MAP_IDENT`. -/
def MAP_IDENT : Int := -128

/-- `fhk_edge`, into one of `n` nodes. -/
structure Edge (n : Nat) where
  idx : Fin n
  map : Int
  ex : Nat
  deriving DecidableEq, Repr

/-- `fhk_shedge`. -/
structure ShEdge (nw : Nat) where
  idx : Fin nw
  map : Int
  computed : Bool
  penalty : Cost
  deriving DecidableEq

/-- `struct fhk_model`. The list `shadows` is `shadows[p_shadow .. -1]`. -/
structure Model (nv nw : Nat) where
  group : Nat
  shadows : List (ShEdge nw)
  params : List (Edge nv)
  p_cparam : Nat
  returns : List (Edge nv)
  noretbuf : Bool
  k : ℚ
  c : ℚ
  cmin : Cost

/-- `struct fhk_var`. -/
structure Var (nm : Nat) where
  models : List (Edge nm)
  fwds : List (Edge nm)
  group : Nat
  size : Nat

/-- `struct fhk_shadow`, less the guard, which the solver only uses through its outcome. -/
structure Shadow (nv : Nat) where
  xi : Fin nv
  group : Nat

/-- `struct fhk_graph`. -/
structure Graph where
  nv : Nat
  nm : Nat
  nw : Nat
  ng : Nat
  vars : Fin nv → Var nm
  models : Fin nm → Model nv nw
  shadows : Fin nw → Shadow nv

namespace Model
variable {nv nw : Nat} (m : Model nv nw)

/-- `m->ki`, precomputed by the builder. -/
def ki : ℚ := -m.k / m.c

/-- `m->ci`, precomputed by the builder. -/
def ci : ℚ := 1 / m.c

/-- `costf(m, S)`. -/
def costf (s : Cost) : Cost := Cost.affine m.k m.c s

/-- `costf_invS(m, cost)`. -/
def costf_invS (cost : ℚ) : ℚ := m.ki + m.ci * cost

/-- `params [0, p_cparam)`. -/
def cparams : List (Edge nv) := m.params.take m.p_cparam

/-- `params [p_cparam, p_param)`. -/
def gparams : List (Edge nv) := m.params.drop m.p_cparam

theorem costf_invS_eq (b : ℚ) : m.costf_invS b = (b - m.k) / m.c := by
  simp only [costf_invS, ki, ci]
  ring

/-- `k >= 0` and `c >= 1`, which the builder checks, and penalties `>= 0`. -/
structure Valid : Prop where
  k_nonneg : 0 ≤ m.k
  one_le_c : 1 ≤ m.c
  penalty_nonneg : ∀ e ∈ m.shadows, 0 ≤ e.penalty

variable {m}

theorem Valid.c_pos (valid : m.Valid) : 0 < m.c := lt_of_lt_of_le zero_lt_one valid.one_le_c

theorem Valid.costf_mono (valid : m.Valid) {s t : Cost} (h : s ≤ t) : m.costf s ≤ m.costf t :=
  Cost.affine_mono valid.c_pos.le h

/-- The bound the solver keeps on the summand is exactly its bound on the cost. -/
theorem Valid.costf_le_iff (valid : m.Valid) (s : Cost) (b : ℚ) :
    m.costf s ≤ (b : Cost) ↔ s ≤ (m.costf_invS b : Cost) := by
  rw [costf_invS_eq]
  exact Cost.affine_le_iff valid.c_pos s b

theorem Valid.lt_costf_iff (valid : m.Valid) (s : Cost) (b : ℚ) :
    (b : Cost) < m.costf s ↔ (m.costf_invS b : Cost) < s := by
  rw [← not_le, ← not_le, valid.costf_le_iff]

end Model

namespace Graph

/-- `V_GIVEN(x)`. -/
def given (G : Graph) (x : Fin G.nv) : Bool := (G.vars x).models.isEmpty

/-- Every model passes the builder's cost checks and has nonnegative penalties, and
`W_COMPUTED` is set on the shadow edges whose variable has models. -/
structure Valid (G : Graph) : Prop where
  model : ∀ m, (G.models m).Valid
  computed : ∀ m, ∀ e ∈ (G.models m).shadows, e.computed = !G.given (G.shadows e.idx).xi

/-- A variable instance. -/
abbrev VI (G : Graph) := Fin G.nv × Inst

/-- A model instance. -/
abbrev MI (G : Graph) := Fin G.nm × Inst

/-- A shadow instance. -/
abbrev WI (G : Graph) := Fin G.nw × Inst

end Graph

/-- What the shapes and the user maps of a run denote: the size of each group and the
mapped subset of each map and source instance, in ascending order. -/
structure Maps where
  shape : Nat → Nat
  subset : Int → Inst → List Inst

/-- The mapped subset of an edge; the identity map is the instance itself. -/
def Maps.mapE (maps : Maps) (map : Int) (inst : Inst) : List Inst :=
  if map = MAP_IDENT then [inst] else maps.subset map inst

end M2.Fhk
