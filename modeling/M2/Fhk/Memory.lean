import M2.Lib.Post
import M2.Fhk.Search
import M2.Fhk.Scratch
import M2.Fhk.Setters

/-!
# Memory of the solver and requests

What `src/fhk/solve.c` keeps beside the search state: values, buffers of returns, which arrays there are, the maps and
given values that the caller has set, and scratch memory. Next to it stands what was yielded for. The caller only sets
given values, shapes and maps, and writes the returns of the models that it calls. What a map or shape denotes does
not depend on the run (`Maps`); the memory says whether it was set.
-/
namespace M2.Fhk
open M2.Lib
open M2.Mem (Word)
open SetterState (map_fromext)

/-- `FHK_NINST`. -/
def FHK_NINST : Inst := ⟨65535, by decide⟩

/-- `map_toext`. -/
def map_toext (G : Graph) (map : Int) : Int := if 0 ≤ map then map - G.ng else map

/-- What the solver yields for. With a model call stand the values at its argument edges, and what the caller has written
to its return edges. -/
inductive Yield (G : Graph) (D : Type)
  | shape (group : Nat)
  | mapcall (map : Int) (inst : Inst)
  | vref (x : G.VI)
  | modcall (mref : G.MI) (args : List (Nat × List D)) (ret : Nat → Nat → D)

/-- What the caller sets: `s_value` and `s_vmstate` of given variables, and `s_mapstate`. Next to it stands a state of its
own. -/
structure Answers (G : Graph) (D E : Type) where
  value : G.VI → D
  vmstate : Fin G.nv → Option (Inst → Bool)
  kmap : Int → Bool
  imap : Int → Inst → Bool
  state : E

namespace Answers
variable {G : Graph} {D E : Type} (out : Answers G D E)

/-- The bit of the instance is set, or there are no bits. -/
def missing (x : G.VI) : Bool :=
  match out.vmstate x.1 with
  | none => true
  | some bm => bm x.2

/-- The subset is not `SS_UNDEF`. -/
def known (map : Int) (inst : Inst) : Bool := if 0 ≤ map then out.kmap map else out.imap map inst

/-- What is set stays, and values that are there stay the same. -/
structure Le (out out' : Answers G D E) : Prop where
  present : ∀ x, out.missing x = false → out'.missing x = false
  value : ∀ x, out.missing x = false → out'.value x = out.value x
  known : ∀ map inst, out.known map inst = true → out'.known map inst = true

variable {out}

theorem Le.refl : Le out out := ⟨fun _ => id, fun _ _ => rfl, fun _ _ => id⟩

theorem Le.trans {out' out'' : Answers G D E} (first : Le out out') (second : Le out' out'') : Le out out'' where
  present x here := second.present x (first.present x here)
  value x here := (second.value x (first.present x here)).trans (first.value x here)
  known map inst here := second.known map inst (first.known map inst here)

end Answers

/-- The caller of `fhk_continue`, and what else does not change: which mapped subsets are complex, the guards of shadows
on values, and the allocator. -/
structure Caller (G : Graph) (D E : Type) where
  answer : Yield G D → Answers G D E → Answers G D E
  model : Answers G D E → G.MI → List (Nat × List D) → Nat → Nat → D
  complex : Int → Inst → Bool
  guard : Fin G.nw → D → Bool
  arena_alloc : Word → Word → Word

/-- `struct fhk_solver` but for the search state: `s_value` of computed variables and of models (`RBUF`), and which
arrays are allocated. -/
structure Memory (G : Graph) (D E : Type) where
  out : Answers G D E
  value : G.VI → D
  rbuf : G.MI → Nat → Nat → D
  vstate : Fin G.nv → Bool
  mstate : Fin G.nm → Bool
  sstate : Fin G.nw → Bool
  vvalue : Fin G.nv → Bool
  mvalue : Fin G.nm → Bool
  scratch : Scratch
  yields : List (Yield G D)

namespace Memory
variable {G : Graph} {D E : Type}

/-- The memory of a new solver. -/
def create (out : Answers G D E) (value : G.VI → D) (rbuf : G.MI → Nat → Nat → D) (scratch : Scratch) : Memory G D E where
  out
  value
  rbuf
  vstate _ := false
  mstate _ := false
  sstate _ := false
  vvalue _ := false
  mvalue _ := false
  scratch
  yields := []

/-- The value in `s_value`. -/
def read (mem : Memory G D E) (x : G.VI) : D := if G.given x.1 then mem.out.value x else mem.value x

/-- `fhkJ_yield`. -/
def yield (caller : Caller G D E) (y : Yield G D) (mem : Memory G D E) : Memory G D E :=
  { mem with out := caller.answer y mem.out, yields := mem.yields ++ [y] }

end Memory

variable {G : Graph} {D E : Type}

namespace Solver
variable (maps : Maps) (caller : Caller G D E)

/-! ## Shapes and maps -/

/-- `S_expandumap`. -/
def S_expandumap (map : Int) (inst : Inst) (mem : Memory G D E) : Except Exit (Memory G D E) :=
  if mem.out.known map inst then .ok mem
  else
    let mem := mem.yield caller (if 0 ≤ map ∧ map < G.ng then .shape map.toNat else .mapcall (map_toext G map) inst)
    if mem.out.known map inst then .ok mem else .error (.nmap map inst)

/-- `S_expandmap`. -/
def S_expandmap (map : Int) (inst : Inst) (mem : Memory G D E) : Except Exit (Memory G D E) :=
  if map = MAP_IDENT then .ok mem else S_expandumap caller map inst mem

/-- `S_shape`. -/
def S_shape (group : Nat) (mem : Memory G D E) : Except Exit (Memory G D E) := S_expandumap caller group FHK_NINST mem

/-- An array over a group is allocated when it is needed. -/
def expand (group : Nat) (there : Bool) (alloc : Memory G D E → Memory G D E) (mem : Memory G D E) :
    Except Exit (Memory G D E) :=
  if there then .ok mem
  else do
    let mem ← S_shape caller group mem
    .ok (alloc mem)

/-- `S_vexpandsp`. -/
def S_vexpandsp (xi : Fin G.nv) (mem : Memory G D E) : Except Exit (Memory G D E) :=
  expand caller (G.vars xi).group (mem.vstate xi) (fun mem => { mem with vstate := Function.update mem.vstate xi true }) mem

/-- `S_vexpandss`. -/
def S_vexpandss (wi : Fin G.nw) (mem : Memory G D E) : Except Exit (Memory G D E) :=
  expand caller (G.shadows wi).group (mem.sstate wi) (fun mem => { mem with sstate := Function.update mem.sstate wi true }) mem

/-- `S_vexpandvp`. -/
def S_vexpandvp (xi : Fin G.nv) (mem : Memory G D E) : Except Exit (Memory G D E) :=
  expand caller (G.vars xi).group (mem.vvalue xi) (fun mem => { mem with vvalue := Function.update mem.vvalue xi true }) mem

/-- `S_mexpandsp`. -/
def S_mexpandsp (mi : Fin G.nm) (mem : Memory G D E) : Except Exit (Memory G D E) :=
  expand caller (G.models mi).group (mem.mstate mi) (fun mem => { mem with mstate := Function.update mem.mstate mi true }) mem

/-- `S_mexpandvp`. -/
def S_mexpandvp (mi : Fin G.nm) (mem : Memory G D E) : Except Exit (Memory G D E) :=
  expand caller (G.models mi).group (mem.mvalue mi) (fun mem => { mem with mvalue := Function.update mem.mvalue mi true }) mem

/-- `S_vexpandbe`. -/
def S_vexpandbe (xi : Fin G.nv) (inst : Inst) (mem : Memory G D E) : Except Exit (Memory G D E) :=
  (G.vars xi).models.foldlM (fun mem e => do
    let mem ← S_mexpandsp caller e.idx mem
    S_expandmap caller e.map inst mem) mem

/-- `S_mexpandbe`. -/
def S_mexpandbe (mi : Fin G.nm) (inst : Inst) (mem : Memory G D E) : Except Exit (Memory G D E) := do
  let mem ← (G.models mi).shadows.foldlM (fun mem e => do
    let mem ← S_vexpandss caller e.idx mem
    S_expandmap caller e.map inst mem) mem
  (G.models mi).cparams.foldlM (fun mem e => do
    let mem ← S_vexpandsp caller e.idx mem
    S_expandmap caller e.map inst mem) mem

/-! ## Given values -/

/-- A request for a given value, which must be there after it. -/
def J_vref (x : G.VI) (mem : Memory G D E) : Except Exit (Memory G D E) :=
  let mem := mem.yield caller (.vref x)
  if mem.out.missing x then .error (.nvalue x.1 x.2) else .ok mem

/-- `S_touch_vmstate`. -/
def S_touch_vmstate (x : G.VI) (mem : Memory G D E) : Except Exit (Memory G D E) :=
  if (mem.out.vmstate x.1).isSome then .ok mem
  else
    let mem := mem.yield caller (.vref x)
    if (mem.out.vmstate x.1).isSome then .ok mem else .error (.nvalue x.1 x.2)

/-- `S_get_missingi`. -/
def S_get_missingi (xi : Fin G.nv) (insts : List Inst) (mem : Memory G D E) : Except Exit (Memory G D E) :=
  insts.foldlM (fun mem inst => if mem.out.missing (xi, inst) then J_vref caller (xi, inst) mem else .ok mem) mem

/-- `S_get_given1`. -/
def S_get_given1 (x : G.VI) (mem : Memory G D E) : Except Exit (Memory G D E) := do
  let mem ← S_touch_vmstate caller x mem
  if mem.out.missing x then J_vref caller x mem else .ok mem

/-- `S_get_given_si3` and `S_get_giveni`, of the instances they go through. -/
def S_get_given_si3 (xi : Fin G.nv) (insts : List Inst) (mem : Memory G D E) : Except Exit (Memory G D E) :=
  match insts with
  | [] => .ok mem
  | inst :: rest => do
    let mem ← S_touch_vmstate caller (xi, inst) mem
    S_get_missingi caller xi (inst :: rest) mem

/-- `S_get_given`. -/
def S_get_given (xi : Fin G.nv) (map : Int) (inst : Inst) (mem : Memory G D E) : Except Exit (Memory G D E) :=
  if map = MAP_IDENT then S_get_given1 caller (xi, inst) mem
  else do
    let mem ← S_expandumap caller map inst mem
    S_get_given_si3 caller xi (maps.mapE map inst) mem

/-- The instances `(inst, scanv_given(..))`. -/
def scanGiven (x : Fin G.nv) (shape : Nat) (inst : Inst) (mem : Memory G D E) : List Inst :=
  ((List.range' (inst.val + 1) (shape - (inst.val + 1))).map (Fin.ofNat 65536)).takeWhile fun i => !mem.out.missing (x, i)

/-! ## What these functions do -/

end Solver

/-- What was asked for is there. -/
def Yield.Settled (out : Answers G D E) : Yield G D → Prop
  | .shape group => out.known group FHK_NINST = true
  | .mapcall map inst => out.known (map_fromext G map) inst = true
  | .vref x => out.missing x = false
  | .modcall _ _ _ => True

/-- The model instance that is called, with the values at its edges. -/
def Yield.call : Yield G D → Option (G.MI × List (Nat × List D) × (Nat → Nat → D))
  | .modcall mref args ret => some (mref, args, ret)
  | _ => none

namespace Caller
variable (caller : Caller G D E)

/-- The caller does not take back what it has set. -/
def Honest : Prop := ∀ y out, Answers.Le out (caller.answer y out)

/-- The caller sets what it is asked for. -/
def Answering : Prop := ∀ (y : Yield G D) out, y.Settled (caller.answer y out)

/-- The exits that are the caller's, and the one for want of scratch memory. -/
def Fails : Exit → Prop
  | .nvalue _ _ | .nmap _ _ => ¬ caller.Answering
  | .nbuf => ∃ map inst, caller.complex map inst = true
  | _ => False

end Caller

/-- Why the solver yields: for what is not there, or to call a model, which returns what the caller makes of it. -/
def Yield.Due (caller : Caller G D E) (out : Answers G D E) : Yield G D → Prop
  | .modcall mref args ret => ret = caller.model out mref args
  | y => ¬ y.Settled out

theorem Yield.due_of_request {caller : Caller G D E} {out : Answers G D E} {y : Yield G D} (request : y.call = none)
    (unsettled : ¬ y.Settled out) : y.Due caller out := by
  cases y with
  | modcall mref args ret => cases request
  | shape group => exact unsettled
  | mapcall map inst => exact unsettled
  | vref x => exact unsettled

namespace Memory
variable {caller : Caller G D E} {mem mem' mem'' : Memory G D E}

/-- The model calls so far. -/
def calls (mem : Memory G D E) : List (G.MI × List (Nat × List D) × (Nat → Nat → D)) := mem.yields.filterMap Yield.call

/-- Memories that differ in allocations at most. -/
structure Same (mem mem' : Memory G D E) : Prop where
  out : mem'.out = mem.out
  value : mem'.value = mem.value
  rbuf : mem'.rbuf = mem.rbuf
  yields : mem'.yields = mem.yields

theorem Same.refl : Same mem mem := ⟨rfl, rfl, rfl, rfl⟩

theorem Same.trans (first : Same mem mem') (second : Same mem' mem'') : Same mem mem'' :=
  ⟨second.out.trans first.out, second.value.trans first.value, second.rbuf.trans first.rbuf, second.yields.trans first.yields⟩

/-- Between the two memories there are requests only, each for something that is not there. -/
inductive Asks (caller : Caller G D E) (mem : Memory G D E) : Memory G D E → Prop
  | same {mem' : Memory G D E} (same : Same mem mem') : Asks caller mem mem'
  | ask {mem' mem'' : Memory G D E} (before : Asks caller mem mem') (y : Yield G D) (request : y.call = none)
      (unsettled : ¬ y.Settled mem'.out) (same : Same (mem'.yield caller y) mem'') : Asks caller mem mem''

theorem Asks.refl : Asks caller mem mem := .same .refl

theorem Asks.andSame (asks : Asks caller mem mem') (same : Same mem' mem'') : Asks caller mem mem'' := by
  cases asks with
  | same first => exact .same (first.trans same)
  | ask before y request unsettled first => exact .ask before y request unsettled (first.trans same)

theorem Asks.trans (first : Asks caller mem mem') (second : Asks caller mem' mem'') : Asks caller mem mem'' := by
  induction second with
  | same same => exact first.andSame same
  | ask _ y request unsettled same ih => exact .ask ih y request unsettled same

/-- Requests leave the values of computed variables and the model calls alone. -/
structure Kept (mem mem' : Memory G D E) : Prop where
  out : Answers.Le mem.out mem'.out
  value : mem'.value = mem.value
  rbuf : mem'.rbuf = mem.rbuf
  calls : mem'.calls = mem.calls

theorem Same.kept (same : Same mem mem') : Kept mem mem' := by
  refine ⟨?_, same.value, same.rbuf, ?_⟩
  · rw [same.out]
    exact .refl
  · rw [calls, same.yields]
    rfl

theorem Kept.trans (first : Kept mem mem') (second : Kept mem' mem'') : Kept mem mem'' :=
  ⟨first.out.trans second.out, second.value.trans first.value, second.rbuf.trans first.rbuf, second.calls.trans first.calls⟩

theorem Asks.kept (honest : caller.Honest) (asks : Asks caller mem mem') : Kept mem mem' := by
  induction asks with
  | same same => exact same.kept
  | @ask mem' mem'' _ y request _ same ih =>
    have asked : Kept mem' (mem'.yield caller y) := by
      refine ⟨honest y mem'.out, rfl, rfl, ?_⟩
      simp only [calls, yield, List.filterMap_append, List.filterMap_cons, List.filterMap_nil, request, List.append_nil]
    exact (ih.trans asked).trans same.kept

/-- Values are written, or the solver yields with a reason. -/
inductive Move (caller : Caller G D E) (mem mem' : Memory G D E) : Prop
  | write (out : mem'.out = mem.out) (yields : mem'.yields = mem.yields)
  | yield (y : Yield G D) (due : y.Due caller mem.out) (out : mem'.out = caller.answer y mem.out)
      (yields : mem'.yields = mem.yields ++ [y])

/-- What happens to the memory during a run. -/
abbrev Moves (caller : Caller G D E) : Memory G D E → Memory G D E → Prop := Relation.ReflTransGen (Move caller)

theorem Same.moves (same : Same mem mem') : mem.Moves caller mem' := .single (.write same.out same.yields)

theorem Asks.moves (asks : Asks caller mem mem') : mem.Moves caller mem' := by
  induction asks with
  | same same => exact same.moves
  | ask _ y request unsettled same ih => exact (ih.tail (.yield y (y.due_of_request request unsettled) rfl rfl)).trans same.moves

theorem Moves.out (honest : caller.Honest) (moves : mem.Moves caller mem') : mem.out.Le mem'.out := by
  induction moves with
  | refl => exact .refl
  | @tail mem' mem'' _ last ih =>
    apply ih.trans
    cases last with
    | write out _ =>
      rw [out]
      exact .refl
    | yield y _ out _ =>
      rw [out]
      exact honest y mem'.out

end Memory

namespace Solver
variable {maps : Maps} {caller : Caller G D E} {mem : Memory G D E}

theorem map_fromext_toext {map : Int} (user : ¬ (0 ≤ map ∧ map < G.ng)) : map_fromext G (map_toext G map) = map := by
  unfold map_toext map_fromext
  by_cases const : 0 ≤ map
  · have behind : ¬ map < G.ng := fun lt => user ⟨const, lt⟩
    rw [if_pos const, if_pos (by omega)]
    omega
  · rw [if_neg const, if_neg const]

/-- The request for a shape or a map is for the one that is not known. -/
theorem settled_request (map : Int) (inst : Inst) (out : Answers G D E) :
    (if 0 ≤ map ∧ map < G.ng then Yield.shape (D := D) map.toNat else .mapcall (map_toext G map) inst).Settled out ↔
      out.known map inst = true := by
  split
  · rename_i space
    rw [Yield.Settled, show ((map.toNat : Nat) : Int) = map by omega, Answers.known, Answers.known, if_pos space.1, if_pos space.1]
  · rename_i user
    rw [Yield.Settled, map_fromext_toext user]

theorem S_expandumap_post (map : Int) (inst : Inst) : Post (S_expandumap caller map inst mem)
    (fun mem' => mem.Asks caller mem' ∧ mem'.out.known map inst = true) caller.Fails := by
  unfold S_expandumap
  apply Post.ite
  · intro known
    exact ⟨.refl, known⟩
  · intro unknown
    apply Post.ite
    · intro known
      refine ⟨.ask .refl _ ?_ ?_ .refl, known⟩
      · split <;> rfl
      · rwa [settled_request]
    · intro still
      apply Post.error
      intro answering
      exact still ((settled_request map inst _).mp (answering _ _))

theorem S_expandmap_post (map : Int) (inst : Inst) :
    Post (S_expandmap caller map inst mem) (mem.Asks caller) caller.Fails := by
  unfold S_expandmap
  apply Post.ite
  · intro _
    exact .refl
  · intro _
    exact (S_expandumap_post map inst).mono (fun _ h => h.1) fun _ => id

/-- All allocations are alike. -/
theorem expand_post {group : Nat} {there : Bool} {alloc : Memory G D E → Memory G D E}
    (same : ∀ mem : Memory G D E, mem.Same (alloc mem)) :
    Post (expand caller group there alloc mem) (mem.Asks caller) caller.Fails := by
  unfold expand
  apply Post.ite
  · intro _
    exact .refl
  · intro _
    apply (S_expandumap_post _ _).bind
    intro mem' asks
    exact asks.1.andSame (same mem')

theorem S_vexpandsp_post (xi : Fin G.nv) : Post (S_vexpandsp caller xi mem) (mem.Asks caller) caller.Fails :=
  expand_post fun _ => ⟨rfl, rfl, rfl, rfl⟩

theorem S_vexpandss_post (wi : Fin G.nw) : Post (S_vexpandss caller wi mem) (mem.Asks caller) caller.Fails :=
  expand_post fun _ => ⟨rfl, rfl, rfl, rfl⟩

theorem S_vexpandvp_post (xi : Fin G.nv) : Post (S_vexpandvp caller xi mem) (mem.Asks caller) caller.Fails :=
  expand_post fun _ => ⟨rfl, rfl, rfl, rfl⟩

theorem S_mexpandsp_post (mi : Fin G.nm) : Post (S_mexpandsp caller mi mem) (mem.Asks caller) caller.Fails :=
  expand_post fun _ => ⟨rfl, rfl, rfl, rfl⟩

theorem S_mexpandvp_post (mi : Fin G.nm) : Post (S_mexpandvp caller mi mem) (mem.Asks caller) caller.Fails :=
  expand_post fun _ => ⟨rfl, rfl, rfl, rfl⟩

/-- A loop of requests. -/
theorem asks_foldlM {α : Type} {f : Memory G D E → α → Except Exit (Memory G D E)} {l : List α}
    (step : ∀ a mem, Post (f mem a) (mem.Asks caller) caller.Fails) : Post (l.foldlM f mem) (mem.Asks caller) caller.Fails := by
  apply Post.foldlM_const
  · exact .refl
  · intro a _ mem' asks
    exact (step a mem').mono (fun _ more => asks.trans more) fun _ => id

theorem asks_bind {f : Memory G D E → Except Exit (Memory G D E)} {r : Except Exit (Memory G D E)}
    (first : Post r (mem.Asks caller) caller.Fails) (second : ∀ mem, Post (f mem) (mem.Asks caller) caller.Fails) :
    Post (r >>= f) (mem.Asks caller) caller.Fails :=
  first.bind fun mem' asks => (second mem').mono (fun _ more => asks.trans more) fun _ => id

theorem S_vexpandbe_post (xi : Fin G.nv) (inst : Inst) :
    Post (S_vexpandbe caller xi inst mem) (mem.Asks caller) caller.Fails :=
  asks_foldlM fun _ _ => asks_bind (S_mexpandsp_post _) fun _ => S_expandmap_post _ _

theorem S_mexpandbe_post (mi : Fin G.nm) (inst : Inst) : Post (S_mexpandbe caller mi inst mem) (mem.Asks caller) caller.Fails :=
  asks_bind (asks_foldlM fun _ _ => asks_bind (S_vexpandss_post _) fun _ => S_expandmap_post _ _) fun _ =>
    asks_foldlM fun _ _ => asks_bind (S_vexpandsp_post _) fun _ => S_expandmap_post _ _

theorem J_vref_post {x : G.VI} (missing : mem.out.missing x = true) : Post (J_vref caller x mem)
    (fun mem' => mem.Asks caller mem' ∧ mem'.out.missing x = false) caller.Fails := by
  have unsettled : ¬ (Yield.vref (D := D) x).Settled mem.out := by
    rw [Yield.Settled, missing]
    exact Bool.noConfusion
  unfold J_vref
  apply Post.ite
  · intro still
    apply Post.error
    intro answering
    have present : (caller.answer (.vref x) mem.out).missing x = false := answering (.vref x) mem.out
    rw [show (mem.yield caller (.vref x)).out.missing x = false from present] at still
    cases still
  · intro present
    rw [Bool.not_eq_true] at present
    exact ⟨.ask .refl _ rfl unsettled .refl, present⟩

theorem S_touch_vmstate_post (x : G.VI) : Post (S_touch_vmstate caller x mem) (mem.Asks caller) caller.Fails := by
  unfold S_touch_vmstate
  apply Post.ite
  · intro _
    exact .refl
  · intro untouched
    have missing : mem.out.missing x = true := by
      rw [Bool.not_eq_true, Option.isSome_eq_false_iff, Option.isNone_iff_eq_none] at untouched
      rw [Answers.missing, untouched]
    have unsettled : ¬ (Yield.vref (D := D) x).Settled mem.out := by
      rw [Yield.Settled, missing]
      exact Bool.noConfusion
    apply Post.ite
    · intro _
      exact .ask .refl _ rfl unsettled .refl
    · intro still
      apply Post.error
      intro answering
      have present : (caller.answer (.vref x) mem.out).missing x = false := answering (.vref x) mem.out
      rw [Bool.not_eq_true, Option.isSome_eq_false_iff, Option.isNone_iff_eq_none] at still
      rw [Answers.missing, show (caller.answer (.vref x) mem.out).vmstate x.1 = none from still] at present
      cases present

/-- The instance is there after it was asked for. -/
theorem ask_missing_post (x : G.VI) : Post (if mem.out.missing x then J_vref caller x mem else .ok mem)
    (fun mem' => mem.Asks caller mem' ∧ mem'.out.missing x = false) caller.Fails := by
  apply Post.ite
  · intro missing
    exact J_vref_post missing
  · intro present
    rw [Bool.not_eq_true] at present
    exact ⟨.refl, present⟩

theorem S_get_given1_post (x : G.VI) : Post (S_get_given1 caller x mem)
    (fun mem' => mem.Asks caller mem' ∧ mem'.out.missing x = false) caller.Fails := by
  apply (S_touch_vmstate_post x).bind
  intro mem' asks
  exact (ask_missing_post x).mono (fun _ more => ⟨asks.trans more.1, more.2⟩) fun _ => id

theorem S_get_missingi_post (honest : caller.Honest) (xi : Fin G.nv) (insts : List Inst) :
    Post (S_get_missingi caller xi insts mem)
      (fun mem' => mem.Asks caller mem' ∧ ∀ i ∈ insts, mem'.out.missing (xi, i) = false) caller.Fails := by
  apply Post.foldlM fun done mem' => mem.Asks caller mem' ∧ ∀ i ∈ done, mem'.out.missing (xi, i) = false
  · exact ⟨.refl, fun _ mem => by cases mem⟩
  · rintro done inst rest mem' - ⟨asks, present⟩
    apply (ask_missing_post (xi, inst)).mono
    · rintro mem'' ⟨more, there⟩
      refine ⟨asks.trans more, fun i mem => ?_⟩
      rcases List.mem_append.mp mem with old | new
      · exact (more.kept honest).out.present _ (present i old)
      · cases List.mem_singleton.mp new
        exact there
    · exact fun _ => id

theorem S_get_given_si3_post (honest : caller.Honest) (xi : Fin G.nv) (insts : List Inst) :
    Post (S_get_given_si3 caller xi insts mem)
      (fun mem' => mem.Asks caller mem' ∧ ∀ i ∈ insts, mem'.out.missing (xi, i) = false) caller.Fails := by
  unfold S_get_given_si3
  split
  · exact ⟨.refl, fun _ mem => by cases mem⟩
  · apply (S_touch_vmstate_post _).bind
    intro mem' asks
    exact (S_get_missingi_post honest xi _).mono (fun _ more => ⟨asks.trans more.1, more.2⟩) fun _ => id

/-- All mapped instances are there. -/
theorem S_get_given_post (honest : caller.Honest) (xi : Fin G.nv) (map : Int) (inst : Inst) :
    Post (S_get_given maps caller xi map inst mem)
      (fun mem' => mem.Asks caller mem' ∧ ∀ i ∈ maps.mapE map inst, mem'.out.missing (xi, i) = false) caller.Fails := by
  unfold S_get_given
  apply Post.ite
  · rintro rfl
    apply (S_get_given1_post (xi, inst)).mono
    · rintro mem' ⟨asks, present⟩
      refine ⟨asks, fun i mem => ?_⟩
      rw [Maps.mapE, if_pos rfl] at mem
      cases List.mem_singleton.mp mem
      exact present
    · exact fun _ => id
  · intro _
    apply (S_expandumap_post map inst).bind
    rintro mem' ⟨asks, -⟩
    exact (S_get_given_si3_post honest xi _).mono (fun _ more => ⟨asks.trans more.1, more.2⟩) fun _ => id

end Solver
end M2.Fhk
