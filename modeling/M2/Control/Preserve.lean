import M2.Control.Meaning

/-!
Running the compiled function makes the calls that the graph means. The functions of the call stack stand for the
instructions that are ahead, and the last of them does not go on. What is below the active part is left alone, in
the call stack and in the frames of the simulator: a branch finds the savepoint of its `any` as it was, and the
continuations in the copy it runs on.
-/
namespace M2.Control

open Lib.Dfs

variable {N : Nat} {V : Type}

/-! ## The call stack -/

/-- What the active part of the call stack stands for, the next function on top. The last one does not go on. -/
inductive Conts (lib : Functions V) (G : Graph N) (known : Fin N → Prop) (stack : Stack) (bottom : Int) : Int → List (Ref N) → Prop
  | exit (last : stack bottom = some .exit) : Conts lib G known stack bottom bottom []
  | raw {k : Nat} (last : stack bottom = some (.raw k)) (stops : ∀ v, (lib.raw k v).2 = .stop) :
      Conts lib G known stack bottom bottom [.func k]
  | skip {i : Fin N} {top : Int} {ks : List (Ref N)} (node : G i = .nothing) (rest : Conts lib G known stack bottom top ks) :
      Conts lib G known stack bottom top (.node i :: ks)
  | push {f : Func} {top : Int} {rs ks : List (Ref N)} (rest : Conts lib G known stack bottom top ks)
      (entry : stack (top + 1) = some f) (impl : Implements G known f rs) : Conts lib G known stack bottom (top + 1) (rs ++ ks)

section Stack

variable {lib : Functions V} {G : Graph N} {known : Fin N → Prop} {stack stack' : Stack} {bottom top : Int} {ks : List (Ref N)}

theorem Conts.le (conts : Conts lib G known stack bottom top ks) : bottom ≤ top := by
  induction conts with
  | exit => exact le_rfl
  | raw => exact le_rfl
  | skip _ _ ih => exact ih
  | push _ _ _ ih => exact ih.trans (by omega)

/-- A copy stands for the same. -/
theorem Conts.shift (conts : Conts lib G known stack bottom top ks) {d : Int}
    (same : ∀ i, bottom ≤ i → i ≤ top → stack' (i + d) = stack i) : Conts lib G known stack' (bottom + d) (top + d) ks := by
  induction conts with
  | exit last =>
    apply Conts.exit
    rw [same bottom le_rfl le_rfl, last]
  | raw last stops =>
    apply Conts.raw _ stops
    rw [same bottom le_rfl le_rfl, last]
  | skip node _ ih => exact .skip node (ih same)
  | @push f top rs ks rest entry impl ih =>
    rw [add_right_comm]
    apply Conts.push
    · exact ih fun i low high => same i low (by omega)
    · rw [add_right_comm, same (top + 1) (rest.le.trans (by omega)) le_rfl, entry]
    · exact impl

theorem Conts.congr (conts : Conts lib G known stack bottom top ks) (same : ∀ i, bottom ≤ i → i ≤ top → stack' i = stack i) :
    Conts lib G known stack' bottom top ks := by
  have shifted : Conts lib G known stack' (bottom + 0) (top + 0) ks :=
    conts.shift fun i low high => by rw [add_zero, same i low high]
  rwa [add_zero, add_zero] at shifted

/-- The stack while the loop of `copystack` runs. -/
theorem copy_loop (n : Nat) (small : bottom + n ≤ top + 1) (j : Int) :
    (List.range n).foldl (fun stack (i : Nat) => Function.update stack (top + 1 + i) (stack (bottom + i))) stack j =
      if top < j ∧ j ≤ top + n then stack (j - (top + 1 - bottom)) else stack j := by
  induction n generalizing j with
  | zero =>
    rw [if_neg (by omega)]
    rfl
  | succ n ih =>
    rw [List.range_succ, List.foldl_append, List.foldl_cons, List.foldl_nil, Function.update_apply]
    have before := ih (by omega)
    split
    · rename_i here
      rw [before, if_neg (by omega), if_pos (by omega)]
      congr 1
      omega
    · rename_i elsewhere
      rw [before]
      by_cases inside : top < j ∧ j ≤ top + n
      · rw [if_pos inside, if_pos (by omega)]
      · rw [if_neg inside, if_neg (by omega)]

/-- A copy of the active part above it. -/
structure Copied (stack : Stack) (bottom top : Int) (r : Stack × Int × Int) (d : Int) : Prop where
  above : top < bottom + d
  low : r.2.1 = bottom + d
  high : r.2.2 = top + d
  copy : ∀ i, bottom ≤ i → i ≤ top → r.1 (i + d) = stack i
  kept : ∀ i ≤ top, r.1 i = stack i

/-- What leaves the part below the copy alone leaves the active part alone. -/
theorem Copied.below {stack stack' : Stack} {bottom top d : Int} {r : Stack × Int × Int} (copied : Copied stack bottom top r d)
    (kept : ∀ i < bottom + d, stack' i = r.1 i) (i : Int) (le : i ≤ top) : stack' i = stack i :=
  (kept i (le.trans_lt copied.above)).trans (copied.kept i le)

/-- The unrolled copy and the loop both copy the active part. -/
theorem copystack_copied (le : bottom ≤ top) : ∃ d, Copied stack bottom top (copystack stack bottom top) d := by
  unfold copystack
  split
  · rename_i few
    refine ⟨4, by omega, rfl, rfl, fun i low high => ?_, fun i low => ?_⟩
    · simp only [Function.update_apply]
      split_ifs
      all_goals first | omega | (congr 1; omega)
    · simp only [Function.update_apply]
      rw [if_neg (by omega), if_neg (by omega), if_neg (by omega), if_neg (by omega)]
  · have size : (((top + 1 - bottom).toNat : Nat) : Int) = top + 1 - bottom := Int.toNat_of_nonneg (by omega)
    refine ⟨top + 1 - bottom, by omega, by dsimp only; omega, by dsimp only; omega, fun i low high => ?_, fun i low => ?_⟩
    · dsimp only
      rw [copy_loop _ (by omega), if_pos (by omega)]
      congr 1
      omega
    · dsimp only
      rw [copy_loop _ (by omega), if_neg (by omega)]

end Stack

/-! ## The frames -/

/-- The frames below `p` are as they were, and still below the current one. -/
structure Kept (p : Nat) (sim sim' : Frames V) : Prop where
  le : p ≤ sim'.fp
  branchpoint : ∀ i < p, sim'.branchpoint i = sim.branchpoint i
  savepoint : ∀ i < p, sim'.savepoint i = sim.savepoint i

theorem Kept.refl (sim : Frames V) : Kept sim.fp sim sim := ⟨le_rfl, fun _ _ => rfl, fun _ _ => rfl⟩

theorem Kept.trans {p : Nat} {sim sim' sim'' : Frames V} (first : Kept p sim sim') (second : Kept p sim' sim'') :
    Kept p sim sim'' where
  le := second.le
  branchpoint i lt := (second.branchpoint i lt).trans (first.branchpoint i lt)
  savepoint i lt := (second.savepoint i lt).trans (first.savepoint i lt)

theorem Kept.mono {p q : Nat} {sim sim' : Frames V} (kept : Kept q sim sim') (le : p ≤ q) : Kept p sim sim' where
  le := le.trans kept.le
  branchpoint i lt := kept.branchpoint i (lt.trans_le le)
  savepoint i lt := kept.savepoint i (lt.trans_le le)

/-- The savepoint of an `any` in the frame `fp`, which is the current one until a branch is entered. -/
structure Saved (fp : Nat) (v : V) (sim : Frames V) : Prop where
  branchpoint : sim.branchpoint fp = true
  savepoint : sim.savepoint fp = some v
  fp : fp < sim.fp ∨ (sim.fp = fp ∧ sim.v = v)

theorem Saved.keep {fp : Nat} {v : V} {sim sim' : Frames V} (saved : Saved fp v sim) (kept : Kept (fp + 1) sim sim') :
    Saved fp v sim' where
  branchpoint := (kept.branchpoint fp (Nat.lt_succ_self fp)).trans saved.branchpoint
  savepoint := (kept.savepoint fp (Nat.lt_succ_self fp)).trans saved.savepoint
  fp := .inl kept.le

theorem branch_ok {room : Frames V → Bool} {sim sim' : Frames V} (ok : sim.branch room = .ok sim') :
    sim'.fp = sim.fp ∧ Saved sim.fp sim.v sim' ∧ Kept sim.fp sim sim' := by
  unfold Frames.branch Frames.take_savepoint at ok
  split at ok
  · cases ok
  · split at ok
    · cases ok
    · split at ok
      · cases ok
        refine ⟨rfl, ⟨Function.update_self _ _ _, Function.update_self _ _ _, .inr ⟨rfl, rfl⟩⟩, le_rfl, fun i lt => ?_, fun i lt => ?_⟩
        · exact Function.update_of_ne lt.ne _ _
        · exact Function.update_of_ne lt.ne _ _
      · cases ok

/-- Entering a branch gives back the virtual stack of the `any`, in a frame above it. -/
theorem enter_branch_ok {sim sim' : Frames V} {fp : Nat} {v : V} (saved : Saved fp v sim) (ok : sim.enter_branch fp = .ok sim') :
    sim'.fp = fp + 1 ∧ sim'.v = v ∧ Saved fp v sim' ∧ Kept (fp + 1) sim sim' := by
  have enters (here : Frames V) (at' : here.fp = fp) (value : here.v = v) (points : here.branchpoint = sim.branchpoint)
      (saves : here.savepoint = sim.savepoint) (ok : here.enter = .ok sim') :
      sim'.fp = fp + 1 ∧ sim'.v = v ∧ Saved fp v sim' ∧ Kept (fp + 1) sim sim' := by
    unfold Frames.enter at ok
    split at ok
    · cases ok
    · cases ok
      have point (i : Nat) (lt : i < fp + 1) : Function.update here.branchpoint (here.fp + 1) false i = sim.branchpoint i := by
        rw [Function.update_of_ne (by omega), points]
      have save (i : Nat) (lt : i < fp + 1) : Function.update here.savepoint (here.fp + 1) none i = sim.savepoint i := by
        rw [Function.update_of_ne (by omega), saves]
      refine ⟨by simp only [at'], value, ⟨?_, ?_, .inl (by simp only [at']; omega)⟩, by simp only [at']; omega, point, save⟩
      · exact (point fp (by omega)).trans saved.branchpoint
      · exact (save fp (by omega)).trans saved.savepoint
  unfold Frames.enter_branch at ok
  by_cases same : fp = sim.fp
  · rw [if_neg (by simpa using same)] at ok
    have value : sim.v = v := by
      rcases saved.fp with above | ⟨-, value⟩
      · omega
      · exact value
    simp only [bind, Except.bind] at ok
    rw [← same, if_pos saved.branchpoint] at ok
    exact enters sim same.symm value rfl rfl ok
  · have above : fp < sim.fp := by
      rcases saved.fp with above | ⟨here, -⟩
      · exact above
      · exact absurd here.symm same
    rw [if_pos same, Frames.load, if_neg (by omega), saved.savepoint] at ok
    simp only [bind, Except.bind] at ok
    rw [if_pos saved.branchpoint] at ok
    exact enters { sim with fp, v } rfl rfl rfl rfl ok

/-! ## Runs -/

section Runs

variable {lib : Functions V} {G : Graph N} {known : Fin N → Prop} {call : Caller V} {bottom top : Int} {ks : List (Ref N)} {M M' : Machine V}

/-- A run makes the calls that the instructions ahead mean, and leaves alone what is below. -/
structure Ran (lib : Functions V) (G : Graph N) (ks : List (Ref N)) (bottom : Int) (M M' : Machine V) : Prop where
  log : ∃ es, Means lib G ks M.sim.v es ∧ M'.log = M.log ++ es
  stack : ∀ i < bottom, M'.stack i = M.stack i
  frames : Kept M.sim.fp M.sim M'.sim

/-- What is ahead of a call of `f`. -/
inductive Ahead (lib : Functions V) (G : Graph N) (known : Fin N → Prop) (stack : Stack) (bottom top : Int) : Func → List (Ref N) → Prop
  | exit : Ahead lib G known stack bottom top .exit []
  | raw {k : Nat} (stops : ∀ v, (lib.raw k v).2 = .stop) : Ahead lib G known stack bottom top (.raw k) [.func k]
  | conts {f : Func} {rs ks : List (Ref N)} (impl : Implements G known f rs) (rest : Conts lib G known stack bottom top ks) :
      Ahead lib G known stack bottom top f (rs ++ ks)

/-- The calls that are made go right. -/
def CallsRight (lib : Functions V) (G : Graph N) (known : Fin N → Prop) (call : Caller V) : Prop :=
  ∀ f bottom top M M' ks, Ahead lib G known M.stack bottom top f ks → call f bottom top M = .ok M' → Ran lib G ks bottom M M'

theorem jump_ok (right : CallsRight lib G known call) (conts : Conts lib G known M.stack bottom top ks)
    (ok : jump call bottom top M = .ok M') : Ran lib G ks bottom M M' := by
  generalize same : M.stack = stack at conts
  induction conts with
  | exit last =>
    rw [jump, same, last] at ok
    exact right _ _ _ _ _ _ .exit ok
  | raw last stops =>
    rw [jump, same, last] at ok
    exact right _ _ _ _ _ _ (.raw stops) ok
  | skip node _ ih =>
    obtain ⟨⟨es, means, log⟩, kept, frames⟩ := ih ok
    exact ⟨⟨es, means.nothing node, log⟩, kept, frames⟩
  | push rest entry impl =>
    rw [jump, same, entry] at ok
    apply right _ _ _ _ _ _ (.conts impl _) ok
    rwa [same, add_sub_cancel_right]

/-- One branch, on the stack that it gets. -/
theorem run_branch_ok (right : CallsRight lib G known call) (conts : Conts lib G known M.stack bottom top ks) {e : Ref N} {b : Option Func}
    (skips : b = none → isnothing G e = true) (calls : ∀ f, b = some f → Implements G known f [e])
    (ok : run_branch call bottom top b M = .ok M') : Ran lib G (e :: ks) bottom M M' := by
  cases b with
  | none =>
    obtain ⟨i, rfl, node⟩ := isnothing_iff.mp (skips rfl)
    obtain ⟨⟨es, means, log⟩, kept, frames⟩ := jump_ok right conts ok
    exact ⟨⟨es, means.nothing node, log⟩, kept, frames⟩
  | some f => exact right _ _ _ _ _ _ (.conts (calls f rfl) conts) ok

/-- The branches of an `any`, each from the virtual stack that it saved. -/
theorem branches_ok (right : CallsRight lib G known call) {fp : Nat} {v : V} {edges : List (Ref N)} {branches : List (Option Func)}
    (each : Branches G known edges branches)
    (conts : Conts lib G known M.stack bottom top ks) (saved : Saved fp v M.sim)
    (ok : run_branches call fp bottom top branches M = .ok M') :
    (∃ ess : Nat → List (Event V), (∀ (n : Nat) (e : Ref N), edges[n]? = some e → Means lib G (e :: ks) v (ess n)) ∧
      M'.log = M.log ++ (List.range edges.length).flatMap ess) ∧
    (∀ i < bottom, M'.stack i = M.stack i) ∧ Kept fp M.sim M'.sim := by
  induction branches generalizing edges M with
  | nil =>
    obtain rfl := List.length_eq_zero_iff.mp each.length.symm
    cases ok
    refine ⟨⟨fun _ => [], fun n e named => by simp at named, by simp⟩, fun _ _ => rfl, ⟨?_, fun _ _ => rfl, fun _ _ => rfl⟩⟩
    rcases saved.fp with above | ⟨here, -⟩
    · exact above.le
    · exact here.ge
  | cons b branches ih =>
    cases edges with
    | nil => cases each.length
    | cons e edges =>
      have skip : b = none → isnothing G e = true := by
        rintro rfl
        exact each.skips 0 e rfl rfl
      have callee : ∀ f, b = some f → Implements G known f [e] := by
        rintro f rfl
        exact each.calls 0 e f rfl rfl
      rw [run_branches] at ok
      cases entered : M.sim.enter_branch fp with
      | error stop =>
        rw [entered] at ok
        cases ok
      | ok sim =>
        obtain ⟨fp_eq, v_eq, saved', kept⟩ := enter_branch_ok saved entered
        rw [entered] at ok
        simp only [bind, Except.bind] at ok
        cases branches with
        | nil =>
          obtain rfl := List.length_eq_zero_iff.mp (Nat.succ.inj each.length).symm
          obtain ⟨⟨es, means, log⟩, stack, frames⟩ := run_branch_ok (M := { M with sim }) right conts skip callee ok
          refine ⟨⟨fun _ => es, fun n e' named => ?_, by simpa using log⟩, stack, ?_⟩
          · cases n with
            | zero =>
              cases named
              rwa [← v_eq]
            | succ n => simp at named
          · rw [fp_eq] at frames
            exact (kept.trans frames).mono (Nat.le_succ fp)
        | cons b' branches =>
          obtain ⟨d, copied⟩ : ∃ d, Copied M.stack bottom top (copystack M.stack bottom top) d := copystack_copied conts.le
          generalize copystack M.stack bottom top = r at ok copied
          obtain ⟨stack, bottom', top'⟩ := r
          obtain rfl : bottom' = bottom + d := copied.low
          obtain rfl : top' = top + d := copied.high
          simp only at ok
          -- the branch runs on the copy, and leaves the part below the copy to the next one
          cases first : run_branch call (bottom + d) (top + d) b { stack, sim, log := M.log } with
          | error stop =>
            rw [first] at ok
            cases ok
          | ok M₁ =>
            rw [first] at ok
            have ran := run_branch_ok (M := { stack, sim, log := M.log }) right (conts.shift copied.copy) skip callee first
            have below := copied.below ran.stack
            have frames : Kept (fp + 1) sim M₁.sim := fp_eq ▸ ran.frames
            have saved'' := saved'.keep frames
            obtain ⟨⟨ess, means', log'⟩, stack', frames'⟩ := ih each.tail (conts.congr fun i _ high => below i high) saved'' ok
            obtain ⟨es, means, log⟩ := ran.log
            refine ⟨⟨fun n => n.casesOn es ess, fun n e' named => ?_, ?_⟩, fun i low => ?_, ?_⟩
            · cases n with
              | zero =>
                cases named
                rwa [← v_eq]
              | succ n => exact means' n e' named
            · rw [log', log, List.length_cons, List.range_succ_eq_map, List.flatMap_cons, List.flatMap_map, List.append_assoc]
              rfl
            · rw [stack' i low, below i (low.le.trans conts.le)]
            · exact ((kept.trans frames).mono (Nat.le_succ fp)).trans frames'

theorem Ran.see {e : Event V} {v : V} {ks' : List (Ref N)} (ran : Ran lib G ks bottom (M.see e v) M')
    (means : ∀ es, Means lib G ks v es → Means lib G ks' M.sim.v (e :: es)) : Ran lib G ks' bottom M M' := by
  obtain ⟨⟨es, rest, log⟩, stack, frames⟩ := ran
  refine ⟨⟨e :: es, means es rest, ?_⟩, stack, frames.le, frames.branchpoint, frames.savepoint⟩
  rw [log, List.append_cons]
  rfl

/-- The call is the last one. -/
theorem ran_see {e : Event V} {v : V} (means : Means lib G ks M.sim.v [e]) : Ran lib G ks bottom M (M.see e v) :=
  ⟨⟨[e], means, rfl⟩, fun _ _ => rfl, le_rfl, fun _ _ => rfl, fun _ _ => rfl⟩

theorem Ran.push {i : Int} {f : Func} (ran : Ran lib G ks bottom (M.push i f) M') (above : bottom ≤ i) :
    Ran lib G ks bottom M M' where
  log := ran.log
  stack j low := by
    rw [ran.stack j low]
    exact Function.update_of_ne (by omega) _ _
  frames := ran.frames

theorem Conts.pushed (conts : Conts lib G known M.stack bottom top ks) {f : Func} {rs : List (Ref N)} (impl : Implements G known f rs) :
    Conts lib G known (M.push (top + 1) f).stack bottom (top + 1) (rs ++ ks) := by
  apply Conts.push _ (Function.update_self _ _ _) impl
  exact conts.congr fun i _ high => Function.update_of_ne (by omega) _ _

/-- The functions that a raw function pushes. -/
theorem Conts.pushedAll (conts : Conts lib G known M.stack bottom top ks) (fs : List Nat) :
    Conts lib G known (M.pushAll top fs).stack bottom (top + fs.length) (fs.map .func ++ ks) := by
  induction fs with
  | nil =>
    rw [List.length_nil, Int.natCast_zero, add_zero]
    exact conts
  | cons k fs ih =>
    have height : top + ((k :: fs).length : Int) = top + fs.length + 1 := by
      rw [List.length_cons]
      push_cast
      ring
    rw [height]
    exact ih.pushed (.raw k)

theorem Ran.pushAll {fs : List Nat} (le : bottom ≤ top) (ran : Ran lib G ks bottom (M.pushAll top fs) M') :
    Ran lib G ks bottom M M' := by
  induction fs with
  | nil => exact ran
  | cons k fs ih => exact ih (ran.push (by omega))

end Runs

/-! ## The compiled function -/

section Right

variable {lib : Functions V} {room : Frames V → Bool} {targets : Fin N → Option Func} {G : Graph N}
  {known : Fin N → Prop} {fuel : Nat}
  {bottom top : Int} {ks : List (Ref N)} {M M' : Machine V}

/-- The functions that a raw function calls are pushed in front of what is ahead. -/
theorem raw_ok (right : CallsRight lib G known (run lib room targets fuel)) {k : Nat} (conts : Conts lib G known M.stack bottom top ks)
    (ok : run lib room targets (fuel + 1) (.raw k) bottom top M = .ok M') : Ran lib G (.func k :: ks) bottom M M' := by
  rw [run] at ok
  cases result : lib.raw k M.sim.v with
  | mk v tail =>
    simp only [result] at ok
    cases tail with
    | stop =>
      cases ok
      exact ran_see (.raw_stop result)
    | call fs =>
      cases fs with
      | nil =>
        have ran := jump_ok (M := M.see (.raw k M.sim.v) v) right conts ok
        exact ran.see fun es rest => .raw_call result rest
      | cons k' fs =>
        have pushed := Conts.pushedAll (M := M.see (.raw k M.sim.v) v) conts fs
        have ran := right _ _ _ _ _ _ (.conts (.raw k') pushed) ok
        exact (ran.pushAll conts.le).see fun es rest => .raw_call result rest

/-- What a primitive returns says how it goes on. -/
theorem primitive_ok (right : CallsRight lib G known (run lib room targets fuel)) {i : Fin N} {f : Value} {narg : Nat}
    {args : List Value} (node : G i = .primitive f narg args) (conts : Conts lib G known M.stack bottom top ks)
    (ok : run lib room targets (fuel + 1) (.primitive f (unpack args narg)) bottom top M = .ok M') :
    Ran lib G (.node i :: ks) bottom M M' := by
  rw [run] at ok
  cases result : lib.primitive f (unpack args narg) M.sim.v with
  | mk v rv =>
    simp only [result] at ok
    cases rv with
    | no =>
      cases ok
      exact ran_see (.primitive_stop node result)
    | nil =>
      have ran := jump_ok (M := M.see (.primitive f (unpack args narg) M.sim.v) v) right conts ok
      exact ran.see fun es rest => .primitive_next node result rest
    | func k =>
      have ran := right _ _ _ (M.see (.primitive f (unpack args narg) M.sim.v) v) _ _ (.conts (.raw k) conts) ok
      exact ran.see fun es rest => .primitive_call node result rest
    | other => cases ok

/-- A chained primitive goes on with its chain. -/
theorem chain_primitive_ok (right : CallsRight lib G known (run lib room targets fuel)) {i : Fin N} {f : Value} {narg : Nat}
    {args : List Value} {chain : Func} {rs : List (Ref N)} (node : G i = .primitive f narg args) (rest : Implements G known chain rs)
    (conts : Conts lib G known M.stack bottom top ks)
    (ok : run lib room targets (fuel + 1) (.chain_primitive f (unpack args narg) chain) bottom top M = .ok M') :
    Ran lib G (.node i :: (rs ++ ks)) bottom M M' := by
  rw [run] at ok
  cases result : lib.primitive f (unpack args narg) M.sim.v with
  | mk v rv =>
    simp only [result] at ok
    cases rv with
    | no =>
      cases ok
      exact ran_see (.primitive_stop node result)
    | nil =>
      have ran := right _ _ _ (M.see (.primitive f (unpack args narg) M.sim.v) v) _ _ (.conts rest conts) ok
      exact ran.see fun es means => .primitive_next node result means
    | func k =>
      have pushed := Conts.pushed (M := M.see (.primitive f (unpack args narg) M.sim.v) v) conts rest
      have ran := right _ _ _ _ _ _ (.conts (.raw k) pushed) ok
      exact (ran.push (conts.le.trans (by omega))).see fun es means => .primitive_call node result means
    | other => cases ok

/-- The call of a function behind which its instructions and those on the call stack are ahead. -/
theorem implements_ok (right : CallsRight lib G known (run lib room targets fuel))
    (sound : ∀ i f, targets i = some f → Unfolds G known f i) {f : Func} {rs : List (Ref N)} (impl : Implements G known f rs)
    (conts : Conts lib G known M.stack bottom top ks) (ok : run lib room targets (fuel + 1) f bottom top M = .ok M') :
    Ran lib G (rs ++ ks) bottom M M' := by
  induction impl generalizing ks with
  | raw k => exact raw_ok right conts ok
  | @trampoline i _ =>
    rw [run, dif_pos i.isLt] at ok
    cases target : targets i with
    | none =>
      simp only [target] at ok
      cases ok
    | some f =>
      simp only [target] at ok
      exact right _ _ _ _ _ _ (.conts (sound i f target).implements conts) ok
  | nothing =>
    rw [run] at ok
    exact jump_ok right conts ok
  | skip node _ ih =>
    obtain ⟨⟨es, means, log⟩, stack, frames⟩ := ih conts ok
    exact ⟨⟨es, means.nothing node, log⟩, stack, frames⟩
  | trail node _ ih =>
    rw [List.append_assoc]
    exact ih (conts.skip node) ok
  | exit node =>
    rw [run] at ok
    cases ok
    exact ⟨⟨[], .exit node, by rw [List.append_nil]⟩, fun _ _ => rfl, Kept.refl _⟩
  | @empty i node =>
    rw [run] at ok
    cases ok
    have means : Means lib G (.node i :: ks) M.sim.v [] := .any node (fun _ => []) fun n e named => by simp at named
    exact ⟨⟨[], means, by rw [List.append_nil]⟩, fun _ _ => rfl, Kept.refl _⟩
  | primitive node => exact primitive_ok right node conts ok
  | chain_primitive node rest => exact chain_primitive_ok right node rest conts ok
  | chain_call first rest =>
    rw [run] at ok
    have ran := right _ _ _ _ _ _ (.conts first (conts.pushed rest)) ok
    exact ran.push (conts.le.trans (by omega))
  | all node _ ih =>
    obtain ⟨⟨es, means, log⟩, stack, frames⟩ := ih conts ok
    exact ⟨⟨es, means.all node, log⟩, stack, frames⟩
  | @one i e f node _ ih =>
    obtain ⟨⟨es, means, log⟩, stack, frames⟩ := ih conts ok
    refine ⟨⟨es, ?_, log⟩, stack, frames⟩
    have each (n : Nat) (e' : Ref N) (named : [e][n]? = some e') : Means lib G (e' :: ks) M.sim.v es := by
      cases n with
      | zero =>
        cases named
        exact means
      | succ n => simp at named
    have means' := Means.any node (fun _ => es) each
    rwa [List.length_singleton, List.range_one, List.flatMap_singleton] at means'
  | @any i edges branches node length skips calls _ =>
    rw [run] at ok
    cases branched : M.sim.branch room with
    | error stop =>
      rw [branched] at ok
      cases ok
    | ok sim =>
      obtain ⟨fp, saved, kept⟩ := branch_ok branched
      rw [branched] at ok
      simp only [bind, Except.bind, fp] at ok
      obtain ⟨⟨ess, each, log⟩, stack, frames⟩ := branches_ok (M := { M with sim }) right ⟨length, skips, calls⟩ conts saved ok
      exact ⟨⟨_, .any node ess each, log⟩, stack, kept.trans frames⟩

/-- Running a compiled function makes the calls that its instructions and those on the call stack mean. -/
theorem run_right (sound : ∀ i f, targets i = some f → Unfolds G known f i) (fuel : Nat) :
    CallsRight lib G known (run lib room targets fuel) := by
  induction fuel with
  | zero =>
    intro f bottom top M M' ks _ ok
    cases ok
  | succ fuel ih =>
    intro f bottom top M M' ks ahead ok
    cases ahead with
    | exit =>
      rw [run] at ok
      cases ok
      exact ⟨⟨[], .done, by rw [List.append_nil]⟩, fun _ _ => rfl, Kept.refl _⟩
    | @raw k stops =>
      rw [run] at ok
      have stop := stops M.sim.v
      cases result : lib.raw k M.sim.v with
      | mk v tail =>
        rw [result] at stop
        obtain rfl : tail = .stop := stop
        simp only [result] at ok
        cases ok
        exact ran_see (.raw_stop result)
    | conts impl rest => exact implements_ok ih sound impl rest ok

/-- What the compiler makes of a graph makes the calls that the graph means and then those of the functions on the
call stack. It does not touch what is below, in the call stack and in the frames of the simulator. -/
theorem compile_preserves {loads : Chunk → Bool} {root : Ref N} {f : Func} {s : Emitter N}
    (compiled : compile_node loads G fuel root .start = .ok (f, s)) {n : Nat}
    (conts : Conts lib G s.Known M.stack bottom top ks) (ok : run lib room s.targets n f bottom top M = .ok M') :
    (∃ es, Means lib G (root :: ks) M.sim.v es ∧ M'.log = M.log ++ es) ∧ (∀ i < bottom, M'.stack i = M.stack i) ∧
      Kept M.sim.fp M.sim M'.sim := by
  obtain ⟨impl, sound, -⟩ := compile_node_closed compiled
  obtain ⟨log, stack, frames⟩ := run_right sound n _ _ _ _ _ _ (.conts impl conts) ok
  exact ⟨log, stack, frames⟩

end Right

/-! ## An optional instruction

The instruction adds one to the virtual stack, and a second one is behind it. -/
namespace Optional

def graph : Graph 5
  | ⟨0, _⟩ => .all [.node ⟨1, by decide⟩, .node ⟨4, by decide⟩]
  | ⟨1, _⟩ => .any [.node ⟨2, by decide⟩, .node ⟨3, by decide⟩]
  | ⟨2, _⟩ => .primitive (.object 0) 0 []
  | ⟨3, _⟩ => .nothing
  | ⟨_, _⟩ => .primitive (.object 1) 0 []

def library : Functions Nat where
  primitive f _ v := if f = .object 0 then (v + 1, .nil) else (v, .nil)
  raw _ v := (v, .stop)

def compiled : Func × Emitter 5 :=
  match compile_node (fun _ => true) graph 9 (.node ⟨0, by decide⟩) .start with
  | .ok r => r
  | .error _ => (.exit, .start)

theorem compiled_eq : compile_node (fun _ => true) graph 9 (.node ⟨0, by decide⟩) .start = .ok compiled := rfl

def start : Machine Nat := ⟨newstack 0 none, ⟨2, 0, fun _ => false, fun _ => none, 0⟩, []⟩

def last : Machine Nat :=
  match run library (fun _ => true) compiled.2.targets 9 compiled.1 4 4 start with
  | .ok M => M
  | .error _ => start

theorem last_eq : run library (fun _ => true) compiled.2.targets 9 compiled.1 4 4 start = .ok last := rfl

example : last.log = [.primitive (.object 0) [] 0, .primitive (.object 1) [] 1, .primitive (.object 1) [] 0] := rfl

theorem start_conts : Conts library graph compiled.2.Known start.stack 4 4 [] := .exit rfl

theorem compile_preserves_optional :
    (∃ es, Means library graph [.node ⟨0, by decide⟩] start.sim.v es ∧ last.log = start.log ++ es) ∧
      (∀ i < 4, last.stack i = start.stack i) ∧ Kept start.sim.fp start.sim last.sim :=
  compile_preserves compiled_eq start_conts last_eq

end Optional

end M2.Control
