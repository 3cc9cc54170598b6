import M2.Control.Emit

/-!
Running what the compiler makes. The call stack is one table for all branches: the active part is
`stack[bottom..top]`, and a branch that is not the last one runs on a copy above it. The simulator is what its
branching operations make of the virtual stack, frame by frame. A primitive changes the virtual stack and says how
to go on; so does a raw function, which stops or calls functions in order before it returns.
-/
namespace M2.Control

open Lib.Dfs

variable {N : Nat} {V : Type}

/-! ## The simulator -/

/-- The frames of a simulator, and the contents `v` of its virtual stack. -/
@[ext]
structure Frames (V : Type) where
  nframe : Nat
  fp : Nat
  branchpoint : Nat → Bool
  savepoint : Nat → Option V
  v : V

namespace Frames
variable (room : Frames V → Bool) (sim : Frames V)

/-- `sim_savepoint`, as `check` reports it. Whether the frame has room for a copy is left open. -/
def take_savepoint : Except (Stop String) (Frames V) :=
  if (sim.savepoint sim.fp).isSome then .error (.error "invalid save state")
  else if room sim then .ok { sim with savepoint := Function.update sim.savepoint sim.fp (some sim.v) }
  else .error (.error "failed to allocate memory")

/-- `sim_branch`. -/
def branch : Except (Stop String) (Frames V) :=
  if sim.branchpoint sim.fp then .error (.error "invalid branch point")
  else take_savepoint room { sim with branchpoint := Function.update sim.branchpoint sim.fp true }

/-- `sim_load`. -/
def load (fp : Nat) : Except (Stop String) (Frames V) :=
  if sim.fp < fp then .error (.error "invalid frame")
  else
    match sim.savepoint fp with
    | none => .error (.error "invalid save state")
    | some v => .ok { sim with fp, v }

/-- `sim_enter`. -/
def enter : Except (Stop String) (Frames V) :=
  if sim.nframe ≤ sim.fp + 1 then .error (.error "invalid frame")
  else .ok { sim with
    fp := sim.fp + 1
    branchpoint := Function.update sim.branchpoint (sim.fp + 1) false
    savepoint := Function.update sim.savepoint (sim.fp + 1) none }

/-- `sim_enter_branch`. -/
def enter_branch (fp : Nat) : Except (Stop String) (Frames V) := do
  let sim ← if fp ≠ sim.fp then sim.load fp else .ok sim
  if sim.branchpoint sim.fp then sim.enter else .error (.error "invalid branch point")

end Frames

/-! ## Primitives and raw functions -/

/-- The value a primitive returns. -/
inductive Rv
  | no
  | nil
  | func (k : Nat)
  | other

/-- What a raw function does in the end: nothing, or a call of functions one after the other, behind which the
call stack goes on. -/
inductive Tail
  | stop
  | call (fs : List Nat)

/-- The functions that a program is made of. -/
structure Functions (V : Type) where
  primitive : Value → List Value → V → V × Rv
  raw : Nat → V → V × Tail

/-- A call with the virtual stack it sees. -/
inductive Event (V : Type)
  | primitive (f : Value) (args : List Value) (v : V)
  | raw (k : Nat) (v : V)

/-! ## The call stack -/

abbrev Stack := Int → Option Func

/-- `copystack`. -/
def copystack (stack : Stack) (bottom top : Int) : Stack × Int × Int :=
  if top - bottom < 4 then
    let stack := Function.update stack (top + 1) (stack (top - 3))
    let stack := Function.update stack (top + 2) (stack (top - 2))
    let stack := Function.update stack (top + 3) (stack (top - 1))
    let stack := Function.update stack (top + 4) (stack top)
    (stack, bottom + 4, top + 4)
  else
    let n := (top + 1 - bottom).toNat
    ((List.range n).foldl (fun stack (i : Nat) => Function.update stack (top + 1 + i) (stack (bottom + i))) stack, top + 1, top + n)

/-- `newstack`. -/
def newstack (underflow : Nat) (top : Option Func) : Stack := fun i =>
  if i = 4 then some (top.getD .exit) else if 1 ≤ i ∧ i ≤ 3 then some (.raw underflow) else none

/-- The calls so far, next to the stack and the simulator. -/
structure Machine (V : Type) where
  stack : Stack
  sim : Frames V
  log : List (Event V)

namespace Machine
variable (M : Machine V)

/-- A call that leaves `v`. -/
def see (e : Event V) (v : V) : Machine V := { M with sim := { M.sim with v }, log := M.log ++ [e] }

/-- `stack[i] = f`. -/
def push (i : Int) (f : Func) : Machine V := { M with stack := Function.update M.stack i (some f) }

/-- The functions are pushed, the first one on top. -/
def pushAll (top : Int) : List Nat → Machine V
  | [] => M
  | k :: fs => (pushAll top fs).push (top + fs.length + 1) (.raw k)

end Machine

section Run

/-- A call of the function that it is given, with the bottom and the top of the call stack. -/
abbrev Caller (V : Type) := Func → Int → Int → Machine V → Except (Stop String) (Machine V)

/-- `return stack[top](stack, bottom, top-1)`. -/
def jump (call : Caller V) (bottom top : Int) (M : Machine V) : Except (Stop String) (Machine V) :=
  match M.stack top with
  | none => .error (.error "attempt to call a nil value")
  | some f => call f bottom (top - 1) M

/-- What a branch of `emit_any` calls, none where the branch is `nothing`. -/
def run_branch (call : Caller V) (bottom top : Int) : Option Func → Machine V → Except (Stop String) (Machine V)
  | none, M => jump call bottom top M
  | some f, M => call f bottom top M

/-- The branches of `emit_any`. The last one is a tail call. -/
def run_branches (call : Caller V) (fp : Nat) (bottom top : Int) : List (Option Func) → Machine V →
    Except (Stop String) (Machine V)
  | [], M => .ok M
  | b :: branches, M => do
    let sim ← M.sim.enter_branch fp
    let M := { M with sim }
    match branches with
    | [] => run_branch call bottom top b M
    | _ :: _ => do
      let (stack, bottom', top') := copystack M.stack bottom top
      let M ← run_branch call bottom' top' b { M with stack }
      run_branches call fp bottom top branches M

variable (lib : Functions V) (room : Frames V → Bool) (targets : Fin N → Option Func)

/-- A compiled function, where `fuel` bounds the depth of the calls. -/
def run : Nat → Caller V
  | 0, _, _, _, _ => .error .fuel
  | fuel + 1, f, bottom, top, M =>
    let call := run fuel
    match f with
    | .raw k =>
      let (v, tail) := lib.raw k M.sim.v
      let M := M.see (.raw k M.sim.v) v
      match tail with
      | .stop => .ok M
      | .call [] => jump call bottom top M
      | .call (k :: fs) => call (.raw k) bottom (top + fs.length) (M.pushAll top fs)
    | .nothing => jump call bottom top M
    | .exit => .ok M
    | .primitive f args =>
      let (v, rv) := lib.primitive f args M.sim.v
      let M := M.see (.primitive f args M.sim.v) v
      match rv with
      | .no => .ok M
      | .func k => call (.raw k) bottom top M
      | .other => .error (.error "attempt to call a non-function value")
      | .nil => jump call bottom top M
    | .chain_primitive f args chain =>
      let (v, rv) := lib.primitive f args M.sim.v
      let M := M.see (.primitive f args M.sim.v) v
      match rv with
      | .no => .ok M
      | .func k => call (.raw k) bottom (top + 1) (M.push (top + 1) chain)
      | .other => .error (.error "attempt to call a non-function value")
      | .nil => call chain bottom top M
    | .chain_call f chain => call f bottom (top + 1) (M.push (top + 1) chain)
    | .any branches => do
      let sim ← M.sim.branch room
      run_branches call sim.fp bottom top branches { M with sim }
    | .trampoline id =>
      match if lt : id < N then targets ⟨id, lt⟩ else none with
      | none => .error (.error "attempt to call upvalue '_target' (a nil value)")
      | some f => call f bottom top M

/-- `exec`, with what a fresh table of the call stack holds. -/
def exec (fuel : Nat) (insn : Func) (underflow : Nat) (top : Option Func) (M : Machine V) : Except (Stop String) (Machine V) :=
  run lib room targets fuel insn 4 4 { M with stack := newstack underflow top }

end Run

end M2.Control
