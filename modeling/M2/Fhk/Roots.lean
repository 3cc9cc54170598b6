import M2.Fhk.RootQueue

/-!
# The rounds of the solver

`S_solve` of `src/fhk/solve.c` over its root queue. The calls in its loops are left open: while one of
them runs, values are stored, shapes are set and further roots are requested, in any order; it returns
when the instances it was called for have their values, or exits. A value is stored once. Next to the
state stands what was requested, and the roots each loop has gone through, round by round.
-/
namespace M2.Fhk

open M2.Mem (Word Bytes)
open M2.Lib

/-- The loops of a round. -/
inductive Phase
  | given
  | solve
  | compute
  | collect
  deriving DecidableEq

/-- The place of the loop in a round. -/
def Phase.rank : Phase → Nat
  | .given => 0
  | .solve => 1
  | .compute => 2
  | .collect => 3

/-- Where the solver is: before its start or in `fhkJ_yield(FHK_OK)`, in a loop at the root `i` and an
instance of it, or out of it after an error. -/
inductive SolvePc
  | ok
  | loop (ph : Phase) (i inst : Nat)
  | error
  deriving DecidableEq

/-- A call of `fhkS_setroot`, with the runs of its subset. -/
structure Request where
  mem : IntervalMem
  xi : Nat
  ss : Word
  runs : List (Nat × Nat)

/-- `struct fhk_solver` and the locals of `S_solve`; `has` are the values that are stored. -/
structure RootSolver extends RootState where
  pc : SolvePc
  num : Nat
  roots : Nat
  mem : Obj → Bytes
  has : Nat → Nat → Bool
  requests : List Request
  seen : Phase → List RootV
  rounds : List (Phase → List RootV)

/-- `memcpy`, undefined where source and destination overlap. -/
def copyObj (mem : Obj → Bytes) (dst src : Obj × Nat) (n : Nat) : Option (Obj → Bytes) :=
  if dst.1 = src.1 ∧ dst.2 < src.2 + n ∧ src.2 < dst.2 + n then none
  else some (Function.update mem dst.1 (Gather.copy (mem dst.1) (mem src.1) dst.2 src.2 n))

namespace RootSolver
variable (vars : Nat → RootVar) (S : RootSolver)

/-- `fhk_create_solver`: the queue and the memory have any contents. -/
def create (cell : Nat → Nat → RootV) (mem : Obj → Bytes) : RootSolver where
  queue := ⟨0, NUM_ROOTBUF, 0, [NUM_ROOTBUF], cell⟩
  s_value _ := none
  kmap _ := SS_UNDEF
  pc := .ok
  num := 0
  roots := 0
  mem
  has _ _ := false
  requests := []
  seen _ := []
  rounds := []

/-- `roots[i]`. -/
def root (i : Nat) : RootV := S.queue.cell S.roots i

/-- The start of a round, or the yield. -/
def top : RootSolver :=
  if S.queue.r_num = 0 then { S with pc := .ok }
  else { S with pc := .loop .given 0 0, num := S.queue.r_num, roots := S.queue.r_buf }

/-- The loop of the phase, at the root `i`. -/
def goto (ph : Phase) (i : Nat) : RootSolver := { S with pc := .loop ph i (S.root i).inst }

/-- The loop of the phase has gone through the root. -/
def see (ph : Phase) (i : Nat) : RootSolver :=
  { S with seen := Function.update S.seen ph (S.seen ph ++ [S.root i]) }

/-- The end of a round. What is left of the queue is moved, by a `memcpy`. -/
def finish : Option RootSolver :=
  if S.queue.r_num - S.num ≤ S.num then
    some { S with queue := S.queue.shift S.num, num := 0, seen := fun _ => [], rounds := S.rounds ++ [S.seen] }.top
  else none

/-- The next root, or the next loop. -/
def next (ph : Phase) (i : Nat) : Option RootSolver :=
  if i + 1 < S.num then some ((S.see ph i).goto ph (i + 1))
  else match ph with
    | .given => some ((S.see ph i).goto .solve 0)
    | .solve => some ((S.see ph i).goto .compute 0)
    | .compute => some ((S.see ph i).goto .collect 0)
    | .collect => (S.see ph i).finish

/-- The solver with other contents of the memory. -/
def setMem (mem : Obj → Bytes) : RootSolver := { S with mem }

/-- The values of a root are copied to its buffer, unless this is where they are. -/
def collect (i : Nat) : Option RootSolver :=
  let r := S.root i
  let size := (vars r.xi).size
  (S.s_value r.xi).bind fun o =>
    if (o, r.inst * size) = r.buf then some S
    else (copyObj S.mem r.buf (o, r.inst * size) ((r.stop - r.inst) * size)).map S.setMem

/-- The solver goes on: it returns from a yield, or from what it called for an instance or a root. -/
def advance : Option RootSolver :=
  match S.pc with
  | .ok => some S.top
  | .loop .given i _ => S.next .given i
  | .loop .collect i _ => (S.collect vars i).bind fun S => S.next .collect i
  | .loop ph i inst =>
    let r := S.root i
    if r.given = false ∧ inst + 1 < r.stop then some { S with pc := .loop ph i (inst + 1) } else S.next ph i
  | .error => some S

/-- The solver is left with an error. -/
def exit : RootSolver := { S with pc := .error, seen := fun _ => [] }

/-- A value is stored, in a buffer that is allocated where there is none. -/
def store (xi inst : Nat) (value : Bytes) : RootSolver :=
  let o := (S.s_value xi).getD (.own xi)
  { S with
    s_value := Function.update S.s_value xi (some o)
    mem := Function.update S.mem o (Gather.copy (S.mem o) value (inst * (vars xi).size) 0 (vars xi).size)
    has := Function.update S.has xi (Function.update (S.has xi) inst true) }

/-- `fhkS_setshape`. -/
def setshape (group : Nat) (shape : BitVec 16) : RootSolver :=
  match fhkS_setshape shape with
  | none => S.exit
  | some ss => if S.kmap group ≠ SS_UNDEF then S.exit else { S with kmap := Function.update S.kmap group ss }

end RootSolver

/-- What happens to the solver. -/
inductive RootAct
  | setroot (q : Request)
  | setshape (group : Nat) (shape : BitVec 16)
  | store (xi inst : Nat) (value : Bytes)
  | advance
  | exit

namespace RootSolver
variable (vars : Nat → RootVar) (S : RootSolver)

/-- The act, where it is defined. -/
def act : RootAct → Option RootSolver
  | .setroot q => (S.fhkS_setroot q.mem (vars q.xi) q.xi q.ss (.root S.requests.length)).map fun R =>
      { S with toRootState := R, requests := S.requests ++ [q] }
  | .setshape group shape => some (S.setshape group shape)
  | .store xi inst value => some (S.store vars xi inst value)
  | .advance => S.advance vars
  | .exit => some S.exit

/-- The solver has not started, has yielded `FHK_OK`, or is in a call that may yield. -/
def Suspended : Prop :=
  match S.pc with
  | .ok | .loop .given _ _ | .loop .solve _ _ | .loop .compute _ _ => True
  | .loop .collect _ _ | .error => False

/-- The instances of the root have their values. -/
def Valued (r : RootV) : Prop := ∀ i, r.inst ≤ i → i < r.stop → S.has r.xi i = true

/-- What may happen: requests for subsets, values that are not there yet, and returns from calls that have
done what they are for. -/
def Allowed : RootAct → Prop
  | .setroot q => S.Suspended ∧ Holds q.mem q.ss q.runs
  | .setshape _ _ => S.Suspended
  | .store xi inst _ => S.Suspended ∧ S.has xi inst = false
  | .advance =>
    match S.pc with
    | .loop .given i _ => (S.root i).given = true → S.Valued (S.root i)
    | .loop .compute i inst => (S.root i).given = false → S.has (S.root i).xi inst = true
    | .error => False
    | _ => True
  | .exit => S.Suspended

/-- The queue stays within `2^15` entries, and no more roots are added in a round than it has. -/
def Careful : RootAct → Prop
  | .setroot q => S.queue.r_num + q.runs.length ≤ 2 ^ 15
  | .advance =>
    match S.pc with
    | .loop .collect i _ => i + 1 = S.num → S.queue.r_num - S.num ≤ S.num
    | _ => True
  | _ => True

end RootSolver

/-- The runs of the solver whose acts are careful. -/
inductive RootRun (vars : Nat → RootVar) : RootSolver → Prop
  | create (cell : Nat → Nat → RootV) (mem : Obj → Bytes) : RootRun vars (.create cell mem)
  | act {S S' : RootSolver} (run : RootRun vars S) (a : RootAct) (allowed : S.Allowed a) (careful : S.Careful a)
      (taken : S.act vars a = some S') : RootRun vars S'

/-! ## What is asked for -/

/-- The entries of the `k`-th request. -/
def Request.entries (vars : Nat → RootVar) (k : Nat) (q : Request) : List RootV :=
  runEntries (.root k) q.xi (vars q.xi) 0 q.runs

/-- The entries of all requests. -/
def requested (vars : Nat → RootVar) (requests : List Request) : List RootV :=
  requests.zipIdx.flatMap fun q => q.1.entries vars q.2

namespace RootSolver
variable (vars : Nat → RootVar) (S : RootSolver)

/-- The buffer of the root has the values of its instances, in order. -/
def Delivered (r : RootV) : Prop :=
  ∃ o, S.s_value r.xi = some o ∧ ∀ i, r.inst ≤ i → i < r.stop → S.has r.xi i = true ∧
    ∀ b < (vars r.xi).size,
      S.mem r.buf.1 (r.buf.2 + ((i - r.inst) * (vars r.xi).size + b)) = S.mem o (i * (vars r.xi).size + b)

/-- The instances of the `k`-th request are ascending, and its buffer has their values, one behind the other. -/
structure Answered (k : Nat) (q : Request) : Prop where
  ascending : (q.runs.flatMap Runs.insts).Pairwise (· < ·)
  values : ∀ j i, (q.runs.flatMap Runs.insts)[j]? = some i → ∃ o, S.s_value q.xi = some o ∧ S.has q.xi i = true ∧
    ∀ b < (vars q.xi).size, S.mem (.root k) (j * (vars q.xi).size + b) = S.mem o (i * (vars q.xi).size + b)

/-- What a loop leaves of a root. -/
def Processed (ph : Phase) (r : RootV) : Prop :=
  match ph with
  | .given => r.given = true → S.Valued r
  | .solve => True
  | .compute => r.given = false → S.Valued r
  | .collect => S.Delivered vars r

/-! ## The invariant -/

/-- How many roots each loop has gone through in this round. -/
def passed (ph : Phase) : Nat :=
  match S.pc with
  | .loop p i _ => if ph.rank < p.rank then S.num else if ph = p then i else 0
  | _ => 0

/-- The buffers of values: a variable has its own one, or that of a request for its whole space. -/
structure Owned : Prop where
  owner : ∀ xi o, S.s_value xi = some o → o = .own xi ∨
    ∃ k q n, o = .root k ∧ S.requests[k]? = some q ∧ q.xi = xi ∧ q.runs = [(0, n)]
  stored : ∀ xi i, S.has xi i = true → ∃ o, S.s_value xi = some o
  holds : ∀ q ∈ S.requests, Holds q.mem q.ss q.runs
  space : ∀ g, S.kmap g = SS_UNDEF ∨ PK_FIRST ((S.kmap g).setWidth 32) = 0

/-- The queue has the entries of all requests that no round has gone through, and each loop has gone through
the first of them, `pos ph` many. -/
structure Scheduled (rs : List RootV) (pos : Phase → Nat) : Prop where
  queue : S.queue.Sound rs
  account : ∀ ph, S.rounds.flatMap (fun round => round ph) ++ rs = requested vars S.requests
  num : S.num ≤ rs.length
  roots : S.roots < S.queue.arrays.length
  root : ∀ i < S.num, rs[i]? = some (S.root i)
  pos_le : ∀ ph, pos ph ≤ S.num
  seen : ∀ ph, S.seen ph = rs.take (pos ph)
  processed : ∀ ph, ∀ r ∈ S.seen ph, S.Processed vars ph r
  delivered : ∀ round ∈ S.rounds, ∀ r ∈ round .collect, S.Delivered vars r

/-- The instances that the loop over an instance has gone through have their values. -/
def AtLoop : Prop :=
  match S.pc with
  | .loop ph i inst => i < S.num ∧
      (ph = .compute → (S.root i).given = false → ∀ j, (S.root i).inst ≤ j → j < inst → S.has (S.root i).xi j = true)
  | _ => True

structure Inv (rs : List RootV) : Prop where
  owned : S.Owned
  scheduled : S.Scheduled vars rs S.passed
  at' : S.AtLoop

variable {vars S} {S' : RootSolver}

theorem mem_requested {requests : List Request} {r : RootV} (mem : r ∈ requested vars requests) :
    ∃ (k : Nat) (q : Request), requests[k]? = some q ∧ r ∈ q.entries vars k := by
  obtain ⟨⟨q, k⟩, there, within⟩ := List.mem_flatMap.mp mem
  exact ⟨k, q, List.mem_zipIdx_iff_getElem?.mp there, within⟩

theorem requested_snoc (requests : List Request) (q : Request) :
    requested vars (requests ++ [q]) = requested vars requests ++ q.entries vars requests.length := by
  rw [requested, List.zipIdx_append, List.flatMap_append, List.zipIdx_singleton, List.flatMap_singleton, Nat.zero_add]
  rfl

/-- The buffer that is a value buffer is that of one root, for the whole space. -/
theorem Owned.adopted (owned : S.Owned) {xi k : Nat} (buffer : S.s_value xi = some (.root k)) {r : RootV}
    (asked : r ∈ requested vars S.requests) (same : r.buf.1 = .root k) : r.xi = xi ∧ r.inst = 0 ∧ r.buf = (.root k, 0) := by
  obtain other | ⟨k', q, n, object, there, var, runs⟩ := owned.owner xi _ buffer
  · cases other
  obtain ⟨k'', q', there', entry⟩ := mem_requested asked
  have buf := (mem_runEntries entry).1
  rw [same] at buf
  cases object
  cases buf
  rw [there] at there'
  obtain rfl := Option.some.inj there'
  rw [Request.entries, runs] at entry
  rw [List.mem_singleton.mp entry]
  exact ⟨var, rfl, rfl⟩

/-- Two variables do not share a value buffer. -/
theorem Owned.var_eq (owned : S.Owned) {xi xi' : Nat} {o : Obj} (here : S.s_value xi = some o)
    (there : S.s_value xi' = some o) : xi = xi' := by
  obtain rfl | ⟨k, q, n, rfl, request, var, -⟩ := owned.owner xi o here
  · obtain same | ⟨k, q, n, other, -⟩ := owned.owner xi' _ there
    · exact Obj.own.inj same
    · cases other
  · obtain other | ⟨k', q', n', same, request', var', -⟩ := owned.owner xi' _ there
    · cases other
    · cases same
      rw [request] at request'
      rw [← var, ← var', Option.some.inj request']

/-! ## Storing a value -/

section Store
variable {xi inst : Nat} {value : Bytes}

theorem has_store : (S.store vars xi inst value).has xi inst = true := by
  simp only [store, Function.update_self]

/-- What has a value keeps it. -/
theorem has_store_of_has {xi' i : Nat} (stored : S.has xi' i = true) : (S.store vars xi inst value).has xi' i = true := by
  simp only [store]
  by_cases var : xi' = xi
  · subst var
    rw [Function.update_self]
    by_cases same : i = inst
    · rw [same, Function.update_self]
    · rw [Function.update_of_ne same, stored]
  · rw [Function.update_of_ne var, stored]

theorem Valued.store {r : RootV} (valued : S.Valued r) : (S.store vars xi inst value).Valued r :=
  fun i ge lt => has_store_of_has (valued i ge lt)

theorem Owned.store (owned : S.Owned) : (S.store vars xi inst value).Owned where
  owner xi' o buffer := by
    simp only [RootSolver.store] at buffer ⊢
    by_cases var : xi' = xi
    · subst var
      rw [Function.update_self] at buffer
      cases old : S.s_value xi' with
      | none =>
        rw [old] at buffer
        exact .inl (Option.some.inj buffer).symm
      | some o' =>
        rw [old] at buffer
        obtain rfl : o' = o := Option.some.inj buffer
        exact owned.owner xi' o' old
    · rw [Function.update_of_ne var] at buffer
      exact owned.owner xi' o buffer
  stored xi' i has := by
    simp only [RootSolver.store] at has ⊢
    by_cases var : xi' = xi
    · subst var
      exact ⟨_, Function.update_self ..⟩
    · rw [Function.update_of_ne var] at has ⊢
      exact owned.stored xi' i has
  holds := owned.holds
  space := owned.space

/-- A root that has been delivered stays so: the place of the value belongs to another instance, or to the same
place of the buffer. -/
theorem Delivered.store (owned : S.Owned) (fresh : S.has xi inst = false) {r : RootV}
    (asked : r ∈ requested vars S.requests) (delivered : S.Delivered vars r) :
    (S.store vars xi inst value).Delivered vars r := by
  obtain ⟨o, buffer, values⟩ := delivered
  have owned' : (S.store vars xi inst value).Owned := owned.store
  have target : (S.store vars xi inst value).s_value xi = some ((S.s_value xi).getD (.own xi)) := Function.update_self ..
  have kept : (S.store vars xi inst value).s_value r.xi = some o := by
    by_cases var : r.xi = xi
    · rw [var] at buffer ⊢
      rw [target, buffer]
      rfl
    · simp only [RootSolver.store]
      rw [Function.update_of_ne var, buffer]
  refine ⟨o, kept, fun i ge lt => ?_⟩
  obtain ⟨has, bytes⟩ := values i ge lt
  refine ⟨has_store_of_has has, fun b byte => ?_⟩
  -- the bytes of the instance
  have source : (S.store vars xi inst value).mem o (i * (vars r.xi).size + b) = S.mem o (i * (vars r.xi).size + b) := by
    simp only [RootSolver.store]
    by_cases object : o = (S.s_value xi).getD (.own xi)
    · have var : r.xi = xi := owned'.var_eq kept (object ▸ target)
      rw [← object, Function.update_self]
      apply Gather.copy_outside
      have differ : i ≠ inst := by
        rintro rfl
        rw [var, fresh] at has
        cases has
      rw [← var]
      obtain less | more := Nat.lt_or_gt_of_ne differ
      · have : (i + 1) * (vars r.xi).size ≤ inst * (vars r.xi).size := Nat.mul_le_mul_right _ less
        rw [Nat.add_mul, Nat.one_mul] at this
        omega
      · have : (inst + 1) * (vars r.xi).size ≤ i * (vars r.xi).size := Nat.mul_le_mul_right _ more
        rw [Nat.add_mul, Nat.one_mul] at this
        omega
    · rw [Function.update_of_ne object]
  obtain ⟨k, q, there, entry⟩ := mem_requested asked
  have object := (mem_runEntries entry).1
  by_cases place : r.buf.1 = (S.s_value xi).getD (.own xi)
  · have buffer' : (S.store vars xi inst value).s_value xi = some (.root k) := by rw [target, ← place, object]
    have adopted := owned'.adopted buffer' asked object
    have same : o = .root k := by
      apply Option.some.inj
      rw [← kept, adopted.1, target, ← place, object]
    rw [adopted.2.1, adopted.2.2, same, Nat.sub_zero, Nat.zero_add]
  · rw [source, ← bytes b byte]
    simp only [RootSolver.store]
    rw [Function.update_of_ne place]

end Store

/-! ## Collecting a root -/

theorem copyObj_apart {mem : Obj → Bytes} {dst src : Obj × Nat} {n : Nat} (apart : dst.1 ≠ src.1) :
    copyObj mem dst src n =
      some (Function.update mem dst.1 (Gather.copy (mem dst.1) (mem src.1) dst.2 src.2 n)) := by
  rw [copyObj, if_neg fun both => apart both.1]

/-- The root that is collected, in the array of the round. -/
theorem collect_root {r : RootV} {i : Nat} (at' : S.root i = r) {o : Obj} (buffer : S.s_value r.xi = some o) :
    S.collect vars i =
      if (o, r.inst * (vars r.xi).size) = r.buf then some S
      else (copyObj S.mem r.buf (o, r.inst * (vars r.xi).size) ((r.stop - r.inst) * (vars r.xi).size)).map S.setMem := by
  unfold RootSolver.collect
  simp only
  rw [at', buffer]
  rfl

section Collect
variable {r : RootV} {o : Obj}

/-- The memory after the values of a root are copied. -/
def copied (vars : Nat → RootVar) (S : RootSolver) (r : RootV) (o : Obj) : Obj → Bytes :=
  Function.update S.mem r.buf.1
    (Gather.copy (S.mem r.buf.1) (S.mem o) r.buf.2 (r.inst * (vars r.xi).size) ((r.stop - r.inst) * (vars r.xi).size))

theorem delivered_copied (buffer : S.s_value r.xi = some o) (valued : S.Valued r) (apart : r.buf.1 ≠ o) :
    (S.setMem (S.copied vars r o)).Delivered vars r := by
  refine ⟨o, buffer, fun i ge lt => ⟨valued i ge lt, fun b byte => ?_⟩⟩
  have within : (i - r.inst + 1) * (vars r.xi).size ≤ (r.stop - r.inst) * (vars r.xi).size :=
    Nat.mul_le_mul_right _ (by omega)
  rw [Nat.add_mul, Nat.one_mul] at within
  have place : r.inst * (vars r.xi).size + ((i - r.inst) * (vars r.xi).size + b) = i * (vars r.xi).size + b := by
    rw [← Nat.add_assoc, ← Nat.add_mul, Nat.add_sub_cancel' ge]
  simp only [setMem, copied]
  rw [Function.update_self, Function.update_of_ne apart.symm, Gather.copy_inside (by omega), place]

/-- The other roots have their values elsewhere, and their buffers before. -/
theorem Delivered.copied (owned : S.Owned) (asked : r ∈ requested vars S.requests) (buffer : S.s_value r.xi = some o)
    (apart : r.buf.1 ≠ o) {r' : RootV} (delivered : S.Delivered vars r')
    (before : r'.buf.1 ≠ r.buf.1 ∨ r'.buf.2 + (r'.stop - r'.inst) * (vars r'.xi).size ≤ r.buf.2) :
    (S.setMem (S.copied vars r o)).Delivered vars r' := by
  obtain ⟨o', buffer', values⟩ := delivered
  obtain ⟨k, q, -, entry⟩ := mem_requested asked
  have object := (mem_runEntries entry).1
  -- a value buffer that is the buffer of the root is where its own values are
  have elsewhere : o' ≠ r.buf.1 := by
    rintro rfl
    rw [object] at buffer'
    have adopted := owned.adopted buffer' asked object
    rw [adopted.1, buffer'] at buffer
    apply apart
    rw [object]
    exact Option.some.inj buffer
  refine ⟨o', buffer', fun i ge lt => ⟨(values i ge lt).1, fun b byte => ?_⟩⟩
  have bytes := (values i ge lt).2 b byte
  have within : (i - r'.inst + 1) * (vars r'.xi).size ≤ (r'.stop - r'.inst) * (vars r'.xi).size :=
    Nat.mul_le_mul_right _ (by omega)
  rw [Nat.add_mul, Nat.one_mul] at within
  simp only [setMem, RootSolver.copied]
  rw [Function.update_of_ne elsewhere, ← bytes]
  by_cases same : r'.buf.1 = r.buf.1
  · have offset := before.resolve_left (not_not.mpr same)
    rw [same, Function.update_self]
    exact Gather.copy_outside (.inl (by omega))
  · rw [Function.update_of_ne same]

/-- A root with all its values is delivered, and the roots before it stay so. -/
theorem Owned.collect (owned : S.Owned) {i : Nat} (at' : S.root i = r) (asked : r ∈ requested vars S.requests)
    (nonempty : r.inst < r.stop) (valued : S.Valued r) :
    ∃ mem, S.collect vars i = some (S.setMem mem) ∧ (S.setMem mem).Delivered vars r ∧
      ∀ r', S.Delivered vars r' →
        r'.buf.1 ≠ r.buf.1 ∨ r'.buf.2 + (r'.stop - r'.inst) * (vars r'.xi).size ≤ r.buf.2 →
        (S.setMem mem).Delivered vars r' := by
  obtain ⟨o, buffer⟩ := owned.stored r.xi r.inst (valued r.inst le_rfl nonempty)
  obtain ⟨k, q, there, entry⟩ := mem_requested asked
  have object := (mem_runEntries entry).1
  rw [collect_root at' buffer]
  by_cases place : (o, r.inst * (vars r.xi).size) = r.buf
  · rw [if_pos place]
    refine ⟨S.mem, rfl, ⟨o, buffer, fun j ge lt => ⟨valued j ge lt, fun b byte => ?_⟩⟩, fun r' delivered _ => delivered⟩
    rw [← place, ← Nat.add_assoc, ← Nat.add_mul, Nat.add_sub_cancel' ge]
  · have apart : r.buf.1 ≠ o := by
      rintro rfl
      rw [object] at buffer
      have adopted := owned.adopted buffer asked object
      apply place
      rw [adopted.2.1, adopted.2.2, Nat.zero_mul]
    rw [if_neg place, copyObj_apart apart]
    exact ⟨_, rfl, delivered_copied buffer valued apart, fun r' delivered before => delivered.copied owned asked buffer apart before⟩

end Collect

/-! ## Requests -/

section SetRoot
variable {q : Request}

/-- A request for a whole space has one run, from the first instance on. -/
theorem Owned.adopts (owned : S.Owned) (holds : Holds q.mem q.ss q.runs) (isIval : SS_ISIVAL q.ss = true)
    (adopts : S.Adopts (vars q.xi) q.xi q.ss) : ∃ n, q.runs = [(0, n)] := by
  generalize ss_eq : q.ss = ss at holds isIval adopts
  generalize runs_eq : q.runs = runs at holds
  cases holds with
  | empty => exact absurd isIval (by decide)
  | interval _ _ pos fits =>
    have first : PK_FIRST (ss.setWidth 32) = 0 := by
      obtain undefined | first := owned.space (vars q.xi).group
      · have low := adopts.1
        rw [undefined] at low
        rw [← low] at pos fits
        have ones : PK_FIRST (SS_UNDEF.setWidth 32) = 0xffff := by decide +kernel
        rw [ones, G_MAXINST] at fits
        omega
      · rw [← adopts.1]
        exact first
    exact ⟨_, by rw [first]⟩
  | complex _ _ _ isComplex => exact absurd isIval (by rw [(SS_ISCOMPLEX_not_ival isComplex).2]; exact Bool.false_ne_true)

/-- The solver after a request whose entries have been queued. -/
def asked (vars : Nat → RootVar) (S : RootSolver) (q : Request) (queue : RootQueue) : RootSolver :=
  { S with queue, s_value := S.adopted (vars q.xi) q.xi q.ss (.root S.requests.length), requests := S.requests ++ [q] }

theorem act_setroot (holds : Holds q.mem q.ss q.runs) : S.act vars (.setroot q) =
    ((q.entries vars S.requests.length).foldlM RootQueue.enqueue S.queue).map (S.asked vars q) := by
  rw [act, fhkS_setroot_eq holds, Option.map_map]
  rfl

/-- A value buffer is not replaced. -/
theorem s_value_asked {queue : RootQueue} {xi : Nat} {o : Obj} (buffer : S.s_value xi = some o) :
    (S.asked vars q queue).s_value xi = some o := by
  simp only [asked, RootState.adopted]
  split
  · rename_i adopts
    by_cases var : xi = q.xi
    · rw [var, adopts.2.2] at buffer
      cases buffer
    · rw [Function.update_of_ne var, buffer]
  · exact buffer

theorem Delivered.asked {queue : RootQueue} {r : RootV} (delivered : S.Delivered vars r) :
    (S.asked vars q queue).Delivered vars r := by
  obtain ⟨o, buffer, values⟩ := delivered
  exact ⟨o, s_value_asked buffer, values⟩

theorem Owned.asked (owned : S.Owned) (holds : Holds q.mem q.ss q.runs) (queue : RootQueue) :
    (S.asked vars q queue).Owned where
  owner xi o buffer := by
    have old {o : Obj} (buffer : S.s_value xi = some o) : o = .own xi ∨
        ∃ k q' n, o = .root k ∧ (S.requests ++ [q])[k]? = some q' ∧ q'.xi = xi ∧ q'.runs = [(0, n)] := by
      obtain own | ⟨k, q', n, object, there, rest⟩ := owned.owner xi o buffer
      · exact .inl own
      · refine .inr ⟨k, q', n, object, ?_, rest⟩
        rw [List.getElem?_append_left (List.getElem?_eq_some_iff.mp there).1]
        exact there
    simp only [RootSolver.asked, RootState.adopted] at buffer ⊢
    split at buffer
    · rename_i adopts
      by_cases var : xi = q.xi
      · obtain ⟨n, runs⟩ := owned.adopts holds adopts.1 adopts.2
        rw [var, Function.update_self] at buffer
        exact .inr ⟨S.requests.length, q, n, (Option.some.inj buffer).symm, List.getElem?_concat_length, var.symm, runs⟩
      · rw [Function.update_of_ne var] at buffer
        exact old buffer
    · exact old buffer
  stored xi i has := by
    obtain ⟨o, buffer⟩ := owned.stored xi i has
    exact ⟨o, s_value_asked buffer⟩
  holds q' mem := by
    rcases List.mem_append.mp mem with mem | mem
    · exact owned.holds q' mem
    · rw [List.mem_singleton.mp mem]
      exact holds
  space := owned.space

end SetRoot

/-! ## Shapes -/

theorem space_first (shape : BitVec 16) {ss : Word} (set : fhkS_setshape shape = some ss) : PK_FIRST (ss.setWidth 32) = 0 := by
  unfold fhkS_setshape at set
  split at set
  · cases set
  · split at set
    · obtain rfl := Option.some.inj set
      decide
    · rename_i fits nonzero
      obtain rfl := Option.some.inj set
      have pos : 0 < shape.toNat := Nat.pos_of_ne_zero fun zero => nonzero (BitVec.eq_of_toNat_eq zero)
      have word := SS_PKIVAL_toNat shape pos
      unfold G_MAXINST at fits
      rw [PK_FIRST_toNat, BitVec.toNat_setWidth, word]
      split <;> omega

end RootSolver
end M2.Fhk
