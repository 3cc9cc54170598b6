import M2.Fhk.SessionOptimal
import M2.Fhk.Turns

/-!
# Rounds of the solver with their calls

A round of `S_solve` of `src/fhk/solve.c`, in which the calls run as they are in the source: given roots are asked for, each
root that is not done is searched, then roots are computed. Where every root has a chain that is cheap enough, the
round leaves all values of its roots, each from a cheapest chain.
-/
namespace M2.Fhk
open M2.Lib

/-- A `struct rootv`: a variable, and the instances from `inst` up to `end`. -/
structure RootInsts (G : Graph) where
  xi : Fin G.nv
  insts : List Inst

/-- Where `S_solve` is in a round, with what its loops have left. -/
inductive RoundPc (G : Graph)
  | given (roots : List (RootInsts G))
  | solve (roots : List (RootInsts G))
  | solveInst (xi : Fin G.nv) (insts : List Inst) (roots : List (RootInsts G))
  | select (xi : Fin G.nv) (inst : Inst) (insts : List Inst) (roots : List (RootInsts G))
  | compute (roots : List (RootInsts G))
  | computeInst (xi : Fin G.nv) (insts : List Inst) (roots : List (RootInsts G))
  | collect
  | exited (e : Exit)

/-- A state in a round. Inside `S_select_chain`, `c` is the state of its machine. -/
structure Round (G : Graph) (V : Type) where
  c : Config G V
  pc : RoundPc G

namespace Round
variable {G : Graph} {D E : Type} (maps : Maps) (caller : Caller G D E) (depth : Nat) (roots : List (RootInsts G))

/-- One step of a round over `roots`. -/
def step (R : Round G (Memory G D E)) : Option (Round G (Memory G D E)) :=
  match R.pc with
  | .given [] => some { R with pc := .solve roots }
  | .given (r :: rest) =>
    if G.given r.xi then
      match Solver.S_get_given_si3 caller r.xi r.insts R.c.v with
      | .error e => some { R with pc := .exited e }
      | .ok v => some ⟨{ R.c with v }, .given rest⟩
    else some { R with pc := .given rest }
  | .solve [] => some { R with pc := .compute roots }
  | .solve (r :: rest) =>
    if G.given r.xi then some { R with pc := .solve rest }
    else
      match Solver.S_vexpandsp caller r.xi R.c.v with
      | .error e => some { R with pc := .exited e }
      | .ok v => some ⟨{ R.c with v }, .solveInst r.xi r.insts rest⟩
  | .solveInst _ [] rest => some { R with pc := .solve rest }
  | .solveInst xi (i :: insts) rest =>
    if R.c.s.done (xi, i) then some { R with pc := .solveInst xi insts rest }
    else some ⟨selectChain R.c.s R.c.v (xi, i), .select xi i insts rest⟩
  | .select xi _ insts rest =>
    match Fhk.step maps (Solver.ops maps caller depth) R.c with
    | some c => some { R with c }
    | none =>
      match R.c.pc with
      | .done (some e) => some { R with pc := .exited e }
      | _ => some { R with pc := .solveInst xi insts rest }
  | .compute [] => some { R with pc := .collect }
  | .compute (r :: rest) =>
    if G.given r.xi then some { R with pc := .compute rest } else some { R with pc := .computeInst r.xi r.insts rest }
  | .computeInst _ [] rest => some { R with pc := .compute rest }
  | .computeInst xi (i :: insts) rest =>
    if (R.c.s.vs (xi, i)).value then some { R with pc := .computeInst xi insts rest }
    else
      match Solver.S_compute_value maps caller depth (R.c.s, R.c.v) (xi, i) with
      | .error e => some { R with pc := .exited e }
      | .ok (s, v) => some ⟨{ R.c with s, v }, .computeInst xi insts rest⟩
  | .collect => none
  | .exited _ => none

end Round

namespace Problem
variable {P : Problem} {D E : Type} {caller : Caller P.G D E} {depth : Nat} {roots : List (RootInsts P.G)}
  {R R' : Round P.G (Memory P.G D E)} {s : Search P.G} {mem : Memory P.G D E} {x : P.G.VI}

/-! ## Roots -/

/-- The instances of these roots. -/
def rootInsts (roots : List (RootInsts P.G)) : List P.G.VI := roots.flatMap fun r => r.insts.map fun i => (r.xi, i)

theorem mem_rootInsts_cons {r : RootInsts P.G} : x ∈ rootInsts (r :: roots) ↔ x.1 = r.xi ∧ x.2 ∈ r.insts ∨ x ∈ rootInsts roots := by
  obtain ⟨xi, i⟩ := x
  simp only [rootInsts, List.flatMap_cons, List.mem_append, List.mem_map, Prod.mk.injEq]
  constructor
  · rintro (⟨j, there, rfl, rfl⟩ | rest)
    · exact .inl ⟨rfl, there⟩
    · exact .inr rest
  · rintro (⟨rfl, there⟩ | rest)
    · exact .inl ⟨i, there, rfl, rfl⟩
    · exact .inr rest

/-- The instances that the loop over given roots has left. -/
def ungiven (x : P.G.VI) : RoundPc P.G → Prop
  | .given rest => x ∈ rootInsts rest
  | .exited _ => True
  | _ => False

/-- The instances that the loops over the roots to be solved have left. -/
def unsolved (x : P.G.VI) : RoundPc P.G → Prop
  | .given _ | .exited _ => True
  | .solve rest => x ∈ rootInsts rest
  | .solveInst xi insts rest => (x.1 = xi ∧ x.2 ∈ insts) ∨ x ∈ rootInsts rest
  | .select xi i insts rest => x = (xi, i) ∨ (x.1 = xi ∧ x.2 ∈ insts) ∨ x ∈ rootInsts rest
  | _ => False

/-- The instances that the loops over the roots to be computed have left. -/
def uncomputed (x : P.G.VI) : RoundPc P.G → Prop
  | .compute rest => x ∈ rootInsts rest
  | .computeInst xi insts rest => (x.1 = xi ∧ x.2 ∈ insts) ∨ x ∈ rootInsts rest
  | .collect => False
  | _ => True

/-- The loops go through instances of the roots. -/
def LoopsOver (roots : List (RootInsts P.G)) : RoundPc P.G → Prop
  | .given rest | .solve rest | .compute rest => ∀ x ∈ rootInsts rest, x ∈ rootInsts roots
  | .solveInst xi insts rest | .computeInst xi insts rest => P.G.given xi = false ∧ (∀ i ∈ insts, (xi, i) ∈ rootInsts roots) ∧
      ∀ x ∈ rootInsts rest, x ∈ rootInsts roots
  | .select xi i insts rest => P.G.given xi = false ∧ (xi, i) ∈ rootInsts roots ∧ (∀ i ∈ insts, (xi, i) ∈ rootInsts roots) ∧
      ∀ x ∈ rootInsts rest, x ∈ rootInsts roots
  | .collect | .exited _ => True

/-- Where the machine of `S_select_chain` is. -/
def MachineAt (R : Round P.G (Memory P.G D E)) : Prop :=
  match R.pc with
  | .select xi i _ _ => CallFor (xi, i) R.c
  | .exited e => ∀ xi inst, e ≠ .nchain xi inst
  | _ => R.c.pc = .done none

/-- Some outcome of the guards that were not looked at leaves a chain that is cheaper than `MAX_COST`. -/
def Affordable (caller : Caller P.G D E) (s : Search P.G) (mem : Memory P.G D E) (x : P.G.VI) : Prop :=
  ∃ pass, Agrees caller pass s mem ∧ (P.withPass pass).CminLow ∧ (P.withPass pass).Solvable ∧
    ∃ t ∈ (P.withPass pass).sys.costs x, t < (MAX_COST : Cost)

/-- What holds in each state of a round. -/
structure RoundOk (caller : Caller P.G D E) (depth : Nat) (roots : List (RootInsts P.G)) (R : Round P.G (Memory P.G D E)) : Prop where
  session : P.Session caller depth R.c
  within : LoopsOver roots R.pc
  machine : MachineAt R
  given : ∀ x ∈ rootInsts roots, P.G.given x.1 = true → ungiven x R.pc ∨ Present R.c.s R.c.v x
  solved : ∀ x ∈ rootInsts roots, P.G.given x.1 = false → unsolved x R.pc ∨ (R.c.s.vs x).chain.isSome = true
  computed : ∀ x ∈ rootInsts roots, P.G.given x.1 = false → uncomputed x R.pc ∨ Present R.c.s R.c.v x

/-! ## Chains of roots -/

theorem Later.refl : Later s mem s mem := ⟨fun _ _ => rfl, fun _ => id, fun _ present => ⟨present, rfl⟩⟩

theorem Affordable.chain {c : Config P.G (Memory P.G D E)} (owed : P.Owed caller) (tight : P.Tight)
    (session : P.Session caller depth c) (affordable : Affordable caller c.s c.v x) (done : c.s.done x = true) :
    (c.s.vs x).chain.isSome = true := by
  obtain ⟨pass, agrees, low, solvable, t, cost, cheap⟩ := affordable
  have lower := (session.standing owed tight low solvable agrees).search.var_low x cost
  rcases Bool.or_eq_true_iff.mp done with chain | dear
  · exact chain
  · exact absurd cheap (not_lt.mpr ((of_decide_eq_true dear).trans lower))

theorem Affordable.not_failed {c : Config P.G (Memory P.G D E)} (owed : P.Owed caller) (tight : P.Tight)
    (session : P.Session caller depth c) (affordable : Affordable caller c.s c.v x) : c.pc ≠ .done (some (.nchain x.1 x.2)) := by
  intro exited
  obtain ⟨pass, agrees, low, solvable, t, cost, cheap⟩ := affordable
  cases session.standing owed tight low solvable agrees with
  | between returned _ _ _ =>
    rw [returned] at exited
    cases exited
  | inside root inv =>
    have at' := inv.at'
    rw [exited] at at'
    obtain ⟨-, xi, inst, bound, above, lower⟩ := at'
    obtain rfl : root = x := Prod.ext (Fin.ext xi) inst
    exact absurd cheap (not_lt.mpr (above.le.trans (lower cost)))

theorem Settles.exitsAt (owed : P.Owed caller) (settles : Settles s mem) (depth : Nat) :
    ExitsAt (Solver.ops P.maps caller depth) s mem where
  vexpandsp x _ exited := fails_ofSearch ((Solver.S_vexpandsp_post x).of_error exited)
  vexpandbe x i _ exited := fails_ofSearch ((Solver.S_vexpandbe_post x i).of_error exited)
  mexpandbe m i _ exited := fails_ofSearch ((Solver.S_mexpandbe_post m i).of_error exited)
  given1 x _ exited := fails_ofSearch ((Solver.S_get_given1_post x).of_error exited)
  compute _ _ chain unvalued exited := stops_ofSearch ((settles.compute owed depth chain unvalued).of_error exited)

/-! ## Steps of a round -/

theorem RoundOk.go (ok : RoundOk caller depth roots R) (session : P.Session caller depth R'.c)
    (later : Later R.c.s R.c.v R'.c.s R'.c.v) (within : LoopsOver roots R'.pc) (machine : MachineAt R')
    (given : ∀ x ∈ rootInsts roots, P.G.given x.1 = true → ungiven x R.pc → ungiven x R'.pc ∨ Present R'.c.s R'.c.v x)
    (solved : ∀ x ∈ rootInsts roots, P.G.given x.1 = false → unsolved x R.pc → unsolved x R'.pc ∨ (R'.c.s.vs x).chain.isSome = true)
    (computed : ∀ x ∈ rootInsts roots, P.G.given x.1 = false → uncomputed x R.pc → uncomputed x R'.pc ∨ Present R'.c.s R'.c.v x) :
    RoundOk caller depth roots R' := by
  refine ⟨session, within, machine, fun x there kind => ?_, fun x there kind => ?_, fun x there kind => ?_⟩
  · rcases ok.given x there kind with left | present
    · exact given x there kind left
    · exact .inr (later.stay x present).1
  · rcases ok.solved x there kind with left | chain
    · exact solved x there kind left
    · rw [later.chain x chain]
      exact .inr chain
  · rcases ok.computed x there kind with left | present
    · exact computed x there kind left
    · exact .inr (later.stay x present).1

/-- The loops go on, and nothing else happens. -/
theorem RoundOk.move (ok : RoundOk caller depth roots R) {pc : RoundPc P.G} (within : LoopsOver roots pc) (machine : MachineAt ⟨R.c, pc⟩)
    (given : ∀ x ∈ rootInsts roots, P.G.given x.1 = true → ungiven x R.pc → ungiven x pc ∨ Present R.c.s R.c.v x)
    (solved : ∀ x ∈ rootInsts roots, P.G.given x.1 = false → unsolved x R.pc → unsolved x pc ∨ (R.c.s.vs x).chain.isSome = true)
    (computed : ∀ x ∈ rootInsts roots, P.G.given x.1 = false → uncomputed x R.pc → uncomputed x pc ∨ Present R.c.s R.c.v x) :
    RoundOk caller depth roots ⟨R.c, pc⟩ :=
  ok.go ok.session .refl within machine given solved computed

/-- The round is left, but not for want of a chain. -/
theorem RoundOk.exit (ok : RoundOk caller depth roots R) {e : Exit} (other : ∀ xi inst, e ≠ .nchain xi inst) :
    RoundOk caller depth roots { R with pc := .exited e } :=
  ok.move trivial other (fun _ _ _ _ => .inl trivial) (fun _ _ _ _ => .inl trivial) fun _ _ _ _ => .inl trivial

/-- The machine only stands still where it is done. -/
theorem halted_done {V : Type} {ops : Ops P.G V} {c : Config P.G V} (halted : Fhk.step P.maps ops c = none) : ∃ e, c.pc = .done e := by
  unfold Fhk.step at halted
  split at halted
  case h_13 e pc => exact ⟨e, pc⟩
  all_goals cases halted

section Steps
variable {rest : List (RootInsts P.G)} {xi : Fin P.G.nv} {i : Inst} {insts : List Inst}

/-- Between the calls, the machine of `S_select_chain` has returned. -/
theorem RoundOk.client (ok : RoundOk caller depth roots R) (returned : R.c.pc = .done none) {v : Memory P.G D E}
    (between : Solver.Between caller R.c.v v) (owed : P.Owed caller) :
    P.Session caller depth { R.c with v } ∧ Later R.c.s R.c.v R.c.s v :=
  ⟨ok.session.client returned v between, later_of_between owed between⟩

theorem RoundOk.given_root (owed : P.Owed caller) (ok : RoundOk caller depth roots R) {r : RootInsts P.G}
    (pc : R.pc = .given (r :: rest)) (taken : Round.step P.maps caller depth roots R = some R') : RoundOk caller depth roots R' := by
  have returned : R.c.pc = .done none := by
    have machine := ok.machine
    rwa [MachineAt, pc] at machine
  have covers : ∀ x ∈ rootInsts (r :: rest), x ∈ rootInsts roots := by
    have within := ok.within
    rwa [pc] at within
  have covers' : LoopsOver roots (.given rest) := fun x there => covers x (mem_rootInsts_cons.mpr (.inr there))
  rw [Round.step, pc] at taken
  simp only at taken
  split at taken
  · rename_i isGiven
    split at taken
    · rename_i e exited
      cases taken
      exact ok.exit (ne_nchain (fails_ofSearch ((Solver.S_get_given_si3_post owed.honest r.xi r.insts).of_error exited)))
    · rename_i v asked
      cases taken
      obtain ⟨session, later⟩ := ok.client returned (.given r.xi isGiven r.insts R.c.v v asked) owed
      have there := ((Solver.S_get_given_si3_post owed.honest r.xi r.insts).of_ok asked).2
      apply ok.go
      · exact session
      · exact later
      · exact covers'
      · exact returned
      · intro x _ kind left
        rw [pc, ungiven, mem_rootInsts_cons] at left
        rcases left with ⟨var, inst⟩ | left
        · right
          rw [Present, if_pos kind]
          have missing := there x.2 inst
          rwa [← var] at missing
        · exact .inl left
      · exact fun _ _ _ _ => .inl trivial
      · exact fun _ _ _ _ => .inl trivial
  · rename_i computed
    cases taken
    apply ok.move
    · exact covers'
    · exact returned
    · intro x _ kind left
      rw [pc, ungiven, mem_rootInsts_cons] at left
      rcases left with ⟨var, -⟩ | left
      · rw [var] at kind
        exact absurd kind computed
      · exact .inl left
    · exact fun _ _ _ _ => .inl trivial
    · exact fun _ _ _ _ => .inl trivial

theorem RoundOk.solve_root (owed : P.Owed caller) (ok : RoundOk caller depth roots R) {r : RootInsts P.G}
    (pc : R.pc = .solve (r :: rest)) (taken : Round.step P.maps caller depth roots R = some R') : RoundOk caller depth roots R' := by
  have returned : R.c.pc = .done none := by
    have machine := ok.machine
    rwa [MachineAt, pc] at machine
  have covers : ∀ x ∈ rootInsts (r :: rest), x ∈ rootInsts roots := by
    have within := ok.within
    rwa [pc] at within
  have covers' : ∀ x ∈ rootInsts rest, x ∈ rootInsts roots := fun x there => covers x (mem_rootInsts_cons.mpr (.inr there))
  have fetched (x : P.G.VI) (left : ungiven x R.pc) : False := by
    rw [pc] at left
    exact left
  rw [Round.step, pc] at taken
  simp only at taken
  split at taken
  · rename_i isGiven
    cases taken
    apply ok.move
    · exact covers'
    · exact returned
    · exact fun x _ _ left => (fetched x left).elim
    · intro x _ kind left
      rw [pc, unsolved, mem_rootInsts_cons] at left
      rcases left with ⟨var, -⟩ | left
      · rw [var, isGiven] at kind
        cases kind
      · exact .inl left
    · exact fun _ _ _ _ => .inl trivial
  · rename_i computed
    rw [Bool.not_eq_true] at computed
    split at taken
    · rename_i e exited
      cases taken
      exact ok.exit (ne_nchain (fails_ofSearch ((Solver.S_vexpandsp_post r.xi).of_error exited)))
    · rename_i v expanded
      cases taken
      obtain ⟨session, later⟩ := ok.client returned (.expand r.xi R.c.v v expanded) owed
      apply ok.go
      · exact session
      · exact later
      · exact ⟨computed, fun i there => covers _ (mem_rootInsts_cons.mpr (.inl ⟨rfl, there⟩)), covers'⟩
      · exact returned
      · exact fun x _ _ left => (fetched x left).elim
      · intro x _ _ left
        rw [pc, unsolved, mem_rootInsts_cons] at left
        exact .inl left
      · exact fun _ _ _ _ => .inl trivial

theorem RoundOk.solve_inst (owed : P.Owed caller) (tight : P.Tight) (inside : ∀ x ∈ rootInsts roots, P.maps.Has P.G x)
    (ok : RoundOk caller depth roots R) (affordable : ∀ x ∈ rootInsts roots, P.G.given x.1 = false → Affordable caller R.c.s R.c.v x)
    (pc : R.pc = .solveInst xi (i :: insts) rest) (taken : Round.step P.maps caller depth roots R = some R') :
    RoundOk caller depth roots R' := by
  have returned : R.c.pc = .done none := by
    have machine := ok.machine
    rwa [MachineAt, pc] at machine
  obtain ⟨computed, covers, covers'⟩ : LoopsOver roots (.solveInst xi (i :: insts) rest) := pc ▸ ok.within
  have asked := covers i List.mem_cons_self
  have fetched (x : P.G.VI) (left : ungiven x R.pc) : False := by
    rw [pc] at left
    exact left
  have split' (x : P.G.VI) (left : unsolved x R.pc) : x = (xi, i) ∨ (x.1 = xi ∧ x.2 ∈ insts) ∨ x ∈ rootInsts rest := by
    rw [pc, unsolved, List.mem_cons] at left
    rcases left with ⟨var, first | later⟩ | left
    · exact .inl (Prod.ext var first)
    · exact .inr (.inl ⟨var, later⟩)
    · exact .inr (.inr left)
  rw [Round.step, pc] at taken
  simp only at taken
  split at taken
  · rename_i done
    cases taken
    apply ok.move
    · exact ⟨computed, fun j there => covers j (List.mem_cons_of_mem i there), covers'⟩
    · exact returned
    · exact fun x _ _ left => (fetched x left).elim
    · intro x _ kind left
      rcases split' x left with rfl | left
      · exact .inr ((affordable _ asked kind).chain owed tight ok.session done)
      · exact .inl left
    · exact fun _ _ _ _ => .inl trivial
  · rename_i undone
    rw [Bool.not_eq_true] at undone
    cases taken
    apply ok.go
    · exact ok.session.call returned (xi, i) (inside _ asked) computed undone
    · exact .refl
    · exact ⟨computed, asked, fun j there => covers j (List.mem_cons_of_mem i there), covers'⟩
    · exact CallFor.call R.c.s R.c.v (xi, i)
    · exact fun x _ _ left => (fetched x left).elim
    · exact fun x _ _ left => .inl (split' x left)
    · exact fun _ _ _ _ => .inl trivial

theorem RoundOk.select (owed : P.Owed caller) (tight : P.Tight) (ok : RoundOk caller depth roots R)
    (affordable : ∀ x ∈ rootInsts roots, P.G.given x.1 = false → Affordable caller R.c.s R.c.v x)
    (pc : R.pc = .select xi i insts rest) (taken : Round.step P.maps caller depth roots R = some R') :
    RoundOk caller depth roots R' := by
  have call : CallFor (xi, i) R.c := by
    have machine := ok.machine
    rwa [MachineAt, pc] at machine
  obtain ⟨computed, asked, covers, covers'⟩ : LoopsOver roots (.select xi i insts rest) := pc ▸ ok.within
  have fetched (x : P.G.VI) (left : ungiven x R.pc) : False := by
    rw [pc] at left
    exact left
  obtain ⟨linked, settles⟩ := Solving.settles owed ok.session
  rw [Round.step, pc] at taken
  simp only at taken
  split at taken
  · rename_i c step
    cases taken
    have running (e : Option Exit) : R.c.pc ≠ .done e := by
      intro halted
      rw [Fhk.step, halted] at step
      cases step
    apply ok.go
    · exact ok.session.step step
    · exact later_of_effect owed settles (linked.effect step)
    · exact ⟨computed, asked, covers, covers'⟩
    · exact call.turn running (linked.turn (settles.exitsAt owed depth) step)
    · exact fun x _ _ left => (fetched x left).elim
    · intro x _ _ left
      rw [pc] at left
      exact .inl left
    · exact fun _ _ _ _ => .inl trivial
  · cases call with
    | searching searching here =>
      rename_i halted
      obtain ⟨e, done⟩ := halted_done halted
      rw [done] at searching
      cases searching
    | found returned chain =>
      rw [returned] at taken
      cases taken
      apply ok.move
      · exact ⟨computed, covers, covers'⟩
      · exact returned
      · exact fun x _ _ left => (fetched x left).elim
      · intro x _ _ left
        rw [pc] at left
        rcases left with rfl | left
        · exact .inr chain
        · exact .inl left
      · exact fun _ _ _ _ => .inl trivial
    | failed exited => exact absurd exited ((affordable _ asked computed).not_failed owed tight ok.session)
    | exited e exited other =>
      rw [exited] at taken
      cases taken
      exact ok.exit other

theorem RoundOk.compute_root (ok : RoundOk caller depth roots R) {r : RootInsts P.G} (pc : R.pc = .compute (r :: rest))
    (taken : Round.step P.maps caller depth roots R = some R') : RoundOk caller depth roots R' := by
  have returned : R.c.pc = .done none := by
    have machine := ok.machine
    rwa [MachineAt, pc] at machine
  have covers : ∀ x ∈ rootInsts (r :: rest), x ∈ rootInsts roots := by
    have within := ok.within
    rwa [pc] at within
  have covers' : ∀ x ∈ rootInsts rest, x ∈ rootInsts roots := fun x there => covers x (mem_rootInsts_cons.mpr (.inr there))
  rw [Round.step, pc] at taken
  simp only at taken
  split at taken
  · rename_i isGiven
    cases taken
    apply ok.move
    · exact covers'
    · exact returned
    · exact fun x _ _ left => by rw [pc] at left; exact left.elim
    · exact fun x _ _ left => by rw [pc] at left; exact left.elim
    · intro x _ kind left
      rw [pc, uncomputed, mem_rootInsts_cons] at left
      rcases left with ⟨var, -⟩ | left
      · rw [var, isGiven] at kind
        cases kind
      · exact .inl left
  · rename_i computed
    rw [Bool.not_eq_true] at computed
    cases taken
    apply ok.move
    · exact ⟨computed, fun i there => covers _ (mem_rootInsts_cons.mpr (.inl ⟨rfl, there⟩)), covers'⟩
    · exact returned
    · exact fun x _ _ left => by rw [pc] at left; exact left.elim
    · exact fun x _ _ left => by rw [pc] at left; exact left.elim
    · intro x _ _ left
      rw [pc, uncomputed, mem_rootInsts_cons] at left
      exact .inl left

theorem RoundOk.compute_inst (owed : P.Owed caller) (ok : RoundOk caller depth roots R)
    (pc : R.pc = .computeInst xi (i :: insts) rest) (taken : Round.step P.maps caller depth roots R = some R') :
    RoundOk caller depth roots R' := by
  have returned : R.c.pc = .done none := by
    have machine := ok.machine
    rwa [MachineAt, pc] at machine
  obtain ⟨computed, covers, covers'⟩ : LoopsOver roots (.computeInst xi (i :: insts) rest) := pc ▸ ok.within
  have next : LoopsOver roots (.computeInst xi insts rest) := ⟨computed, fun j there => covers j (List.mem_cons_of_mem i there), covers'⟩
  have split' (x : P.G.VI) (left : uncomputed x R.pc) : x = (xi, i) ∨ (x.1 = xi ∧ x.2 ∈ insts) ∨ x ∈ rootInsts rest := by
    rw [pc, uncomputed, List.mem_cons] at left
    rcases left with ⟨var, first | later⟩ | left
    · exact .inl (Prod.ext var first)
    · exact .inr (.inl ⟨var, later⟩)
    · exact .inr (.inr left)
  have chain : (R.c.s.vs (xi, i)).chain.isSome = true := by
    rcases ok.solved _ (covers i List.mem_cons_self) computed with left | chain
    · rw [pc] at left
      exact left.elim
    · exact chain
  rw [Round.step, pc] at taken
  simp only at taken
  split at taken
  · rename_i value
    cases taken
    apply ok.move
    · exact next
    · exact returned
    · exact fun x _ _ left => by rw [pc] at left; exact left.elim
    · exact fun x _ _ left => by rw [pc] at left; exact left.elim
    · intro x _ kind left
      rcases split' x left with rfl | left
      · right
        rw [Present, if_neg (by rw [kind]; exact Bool.false_ne_true)]
        exact value
      · exact .inl left
  · rename_i unvalued
    rw [Bool.not_eq_true] at unvalued
    obtain ⟨-, settles⟩ := Solving.settles owed ok.session
    split at taken
    · rename_i e exited
      cases taken
      exact ok.exit (ne_nchain (stops_ofSearch ((settles.compute owed depth chain unvalued).of_error exited)))
    · rename_i s v evaluated
      cases taken
      obtain ⟨advances, settles', value⟩ := (settles.compute owed depth chain unvalued).of_ok evaluated
      apply ok.go
      · exact ok.session.compute returned (xi, i) chain unvalued s v evaluated
      · exact later_of_advances owed settles advances settles'
      · exact next
      · exact returned
      · exact fun x _ _ left => by rw [pc] at left; exact left.elim
      · exact fun x _ _ left => by rw [pc] at left; exact left.elim
      · intro x _ kind left
        rcases split' x left with rfl | left
        · right
          rw [Present, if_neg (by rw [kind]; exact Bool.false_ne_true)]
          exact value
        · exact .inl left

end Steps

/-- Every step of a round in which the roots have chains that are cheap enough. -/
theorem RoundOk.step (owed : P.Owed caller) (tight : P.Tight) (inside : ∀ x ∈ rootInsts roots, P.maps.Has P.G x)
    (ok : RoundOk caller depth roots R) (affordable : ∀ x ∈ rootInsts roots, P.G.given x.1 = false → Affordable caller R.c.s R.c.v x)
    (taken : Round.step P.maps caller depth roots R = some R') : RoundOk caller depth roots R' := by
  have machine := ok.machine
  have within := ok.within
  cases pc : R.pc with
  | given rest =>
    cases rest with
    | cons r rest => exact ok.given_root owed pc taken
    | nil =>
      rw [MachineAt, pc] at machine
      rw [Round.step, pc] at taken
      cases taken
      apply ok.move
      · exact fun x there => there
      · exact machine
      · exact fun x _ _ left => by rw [pc] at left; cases left
      · exact fun x there _ _ => .inl there
      · exact fun _ _ _ _ => .inl trivial
  | solve rest =>
    cases rest with
    | cons r rest => exact ok.solve_root owed pc taken
    | nil =>
      rw [MachineAt, pc] at machine
      rw [Round.step, pc] at taken
      cases taken
      apply ok.move
      · exact fun x there => there
      · exact machine
      · exact fun x _ _ left => by rw [pc] at left; cases left
      · exact fun x _ _ left => by rw [pc] at left; cases left
      · exact fun x there _ _ => .inl there
  | solveInst xi insts rest =>
    cases insts with
    | cons i insts => exact ok.solve_inst owed tight inside affordable pc taken
    | nil =>
      rw [MachineAt, pc] at machine
      rw [pc] at within
      rw [Round.step, pc] at taken
      cases taken
      apply ok.move
      · exact within.2.2
      · exact machine
      · exact fun x _ _ left => by rw [pc] at left; cases left
      · intro x _ _ left
        rw [pc] at left
        rcases left with ⟨-, none⟩ | left
        · cases none
        · exact .inl left
      · exact fun _ _ _ _ => .inl trivial
  | select xi i insts rest => exact ok.select owed tight affordable pc taken
  | compute rest =>
    cases rest with
    | cons r rest => exact ok.compute_root pc taken
    | nil =>
      rw [MachineAt, pc] at machine
      rw [Round.step, pc] at taken
      cases taken
      apply ok.move
      · trivial
      · exact machine
      · exact fun x _ _ left => by rw [pc] at left; cases left
      · exact fun x _ _ left => by rw [pc] at left; cases left
      · exact fun x _ _ left => by rw [pc] at left; cases left
  | computeInst xi insts rest =>
    cases insts with
    | cons i insts => exact ok.compute_inst owed pc taken
    | nil =>
      rw [MachineAt, pc] at machine
      rw [pc] at within
      rw [Round.step, pc] at taken
      cases taken
      apply ok.move
      · exact within.2.2
      · exact machine
      · exact fun x _ _ left => by rw [pc] at left; cases left
      · exact fun x _ _ left => by rw [pc] at left; cases left
      · intro x _ _ left
        rw [pc] at left
        rcases left with ⟨-, none⟩ | left
        · cases none
        · exact .inl left
  | collect =>
    rw [Round.step, pc] at taken
    cases taken
  | exited e =>
    rw [Round.step, pc] at taken
    cases taken

/-! ## Whole rounds -/

/-- At the end of a round all of its root instances have their values. -/
theorem RoundOk.collected (ok : RoundOk caller depth roots R) (pc : R.pc = .collect) :
    ∀ x ∈ rootInsts roots, Present R.c.s R.c.v x := by
  intro x there
  cases kind : P.G.given x.1 with
  | true =>
    rcases ok.given x there kind with left | present
    · rw [pc] at left
      cases left
    · exact present
  | false =>
    rcases ok.computed x there kind with left | present
    · rw [pc] at left
      cases left
    · exact present

end Problem

namespace Ladder
open Problem

/-- Whatever the guard says, `y` has a chain. -/
theorem derives_y (pass : Fin problem.G.nw → Inst → Bool) : ∃ t ∈ (problem.withPass pass).sys.costs y, t < (MAX_COST : Cost) := by
  have chain : (problem.withPass pass).sys.Derives y ((problem.withPass pass).sys.value ((0 : Fin 2), 0) fun _ => 1) := by
    apply AndOr.Derives.intro
    · exact List.mem_singleton.mpr rfl
    · intro u needs
      cases List.mem_singleton.mp needs
      exact derives_x pass 0
  have penalty : graph.penaltyOf problem.maps pass 0 ⟨(0 : Fin 1), MAP_IDENT, true, 1⟩ ≤ 1 := by
    unfold Graph.penaltyOf
    split
    · exact zero_le_one
    · exact le_rfl
  have param : graph.paramCost problem.maps 0 (fun _ => 1) ⟨(1 : Fin 3), MAP_IDENT, 0⟩ ≤ 1 := by decide +kernel
  have sum : (problem.withPass pass).sys.value ((0 : Fin 2), 0) (fun _ => 1) ≤ Cost.affine 1 1 ((1 + 0) + (1 + 0)) := by
    apply Cost.affine_mono zero_le_one
    exact add_le_add (add_le_add penalty le_rfl) (add_le_add param le_rfl)
  exact ⟨_, chain, sum.trans_lt (by decide +kernel)⟩

theorem affordable (s : Search problem.G) (mem : Memory problem.G Nat Unit) : Affordable caller s mem y :=
  ⟨_, agrees_observed caller s mem fun _ _ => false, low _, solvable _, derives_y _⟩

/-- The root `y`. -/
def asked : List (RootInsts problem.G) := [⟨y.1, [y.2]⟩]

/-- The start of a round for it. -/
def fresh : Round problem.G (Memory problem.G Nat Unit) := ⟨⟨Search.init problem.G, memory, [], .done none⟩, .given asked⟩

def collected : RoundPc problem.G → Bool
  | .collect => true
  | _ => false

end Ladder

namespace Problem

end Problem
end M2.Fhk
