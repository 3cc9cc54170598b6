import M2.Fhk.LowerBound
import M2.Fhk.SessionValues

/-!
# Cheapest chains in a session

The chains that a session records are cheapest, where the outcomes of guards are not assumed but come from the values that
the session computes. What a guard says that was not looked at is left open. A session is followed with surroundings in
which the outcomes are fixed from the start: as long as they are those of the guards that were looked at, both take the
same steps.
-/
namespace M2.Fhk
open M2.Lib

namespace Search
variable {G : Graph} (s : Search G)

/-- Only the guards of the scanned instances matter. -/
theorem checkscan_congr {g g' : Fin G.nw → Inst → Bool} {w : Fin G.nw} {insts : List Inst} (same : ∀ i ∈ insts, g w i = g' w i) :
    s.checkscan g w insts = s.checkscan g' w insts := by
  unfold checkscan
  congr 1
  funext u
  split
  · rename_i scanned
    rw [same u.2 scanned.2]
  · rfl

end Search

namespace Problem
variable {P : Problem} {D E : Type} {caller : Caller P.G D E} {depth : Nat} {c c' : Config P.G (Memory P.G D E)}
  {s s' : Search P.G} {mem mem' : Memory P.G D E} {pass : Fin P.G.nw → Inst → Bool}

/-- The problem with these outcomes of the guards. -/
def withPass (P : Problem) (pass : Fin P.G.nw → Inst → Bool) : Problem := { P with pass }

/-- The outcomes are those of the guards that were evaluated on a value. -/
def Agrees (caller : Caller P.G D E) (pass : Fin P.G.nw → Inst → Bool) (s : Search P.G) (mem : Memory P.G D E) : Prop :=
  ∀ w, (s.ss w).eval = true → Present s mem (watched w) → pass w.1 w.2 = caller.guard w.1 (mem.read (watched w))

/-! ## What stays during a session -/

/-- Checks stay made, chains stay recorded, and values stay there. -/
structure Later (s : Search P.G) (mem : Memory P.G D E) (s' : Search P.G) (mem' : Memory P.G D E) : Prop where
  chain : ∀ u, (s.vs u).chain.isSome = true → (s'.vs u).chain = (s.vs u).chain
  eval : ∀ w, (s.ss w).eval = true → (s'.ss w).eval = true
  stay : Stay s mem s' mem'

theorem Later.trans {s'' : Search P.G} {mem'' : Memory P.G D E} (first : Later s mem s' mem') (second : Later s' mem' s'' mem'') :
    Later s mem s'' mem'' := by
  refine ⟨fun u some' => ?_, fun w set => second.eval w (first.eval w set), fun x present => ?_⟩
  · have kept := first.chain u some'
    exact (second.chain u (kept ▸ some')).trans kept
  obtain ⟨there, same⟩ := first.stay x present
  obtain ⟨there', same'⟩ := second.stay x there
  exact ⟨there', same'.trans same⟩

/-- What was agreed on later was agreed on before. -/
theorem Agrees.before (agrees : Agrees caller pass s' mem') (later : Later s mem s' mem') : Agrees caller pass s mem := by
  intro w eval present
  obtain ⟨there, same⟩ := later.stay _ present
  rw [agrees w (later.eval w eval) there, same]

open Classical in
/-- The outcomes of the guards on the values they were evaluated on, and `other` for the rest. -/
noncomputable def observed (caller : Caller P.G D E) (s : Search P.G) (mem : Memory P.G D E) (other : Fin P.G.nw → Inst → Bool) :
    Fin P.G.nw → Inst → Bool :=
  fun w i => if (s.ss (w, i)).eval = true ∧ Present s mem (watched (w, i)) then caller.guard w (mem.read (watched (w, i))) else other w i

theorem agrees_observed (caller : Caller P.G D E) (s : Search P.G) (mem : Memory P.G D E) (other : Fin P.G.nw → Inst → Bool) :
    Agrees caller (observed caller s mem other) s mem :=
  fun _ eval present => if_pos ⟨eval, present⟩

theorem later_of_kept (kept : mem.Kept mem') : Later s mem s mem' := ⟨fun _ _ => rfl, fun _ => id, stay_of_kept kept⟩

theorem later_of_scan (mem : Memory P.G D E) (g : Fin P.G.nw → Inst → Bool) (w : Fin P.G.nw) (insts : List Inst) :
    Later s mem (s.checkscan g w insts) mem := by
  refine ⟨fun _ _ => rfl, fun u set => ?_, stay_of_retains (.same (fun _ => ⟨rfl, rfl⟩) fun _ => rfl)⟩
  by_cases scanned : u.1 = w ∧ u.2 ∈ insts
  · obtain ⟨rfl, inside⟩ := scanned
    rw [s.checkscan_of_mem inside]
  · rw [s.checkscan_of_not scanned]
    exact set

theorem later_of_advances (owed : P.Owed caller) (settles : Settles s mem) {w : Search P.G × Memory P.G D E}
    (advances : Advances caller (s, mem) w) (settles' : Settles w.1 w.2) : Later s mem w.1 w.2 := by
  refine ⟨fun u _ => advances.same.chain u, fun u set => ?_, stay_of_advances owed settles advances settles'⟩
  rw [advances.same.ss]
  exact set

theorem later_of_effect (owed : P.Owed caller) (settles : Settles c.s c.v) (effect : Effect (Solver.ops P.maps caller depth) c c') :
    Later c.s c.v c'.s c'.v := by
  cases effect with
  | quiet retains bits asked =>
    have eval (w : P.G.WI) (set : (c.s.ss w).eval = true) : (c'.s.ss w).eval = true := by
      rcases bits with same | ⟨u, -, ss⟩
      · rw [same]
        exact set
      · rw [ss]
        by_cases here : w = u
        · rw [here, c.s.setEval_self]
        · rw [c.s.setEval_of_ne here]
          exact set
    have search : Later c.s c.v c'.s c.v := ⟨retains.chain, eval, stay_of_retains retains⟩
    rcases asked with same | gives
    · rw [same]
      exact search
    · exact search.trans (later_of_kept ((gives_asks gives).kept owed.honest))
  | found w i computed value asked result =>
    rw [result]
    exact (later_of_kept ((gives_asks asked).kept owed.honest)).trans (later_of_scan _ _ w _)
  | evaluated w i computed chain unvalued s evaluated result =>
    obtain ⟨advances, settles', -⟩ := (settles.compute owed depth chain unvalued).of_ok evaluated
    rw [result]
    exact (later_of_advances owed settles advances settles').trans (later_of_scan _ _ w _)
  | given w i given asked result =>
    have asks := ((Solver.S_get_given1_post _).of_ok asked).1
    rw [result]
    exact (later_of_kept (asks.kept owed.honest)).trans (later_of_scan _ _ w _)

theorem later_of_between (owed : P.Owed caller) (between : Solver.Between caller mem mem') : Later s mem s mem' := by
  cases between with
  | given xi given insts _ _ returned =>
    exact later_of_kept (((Solver.S_get_given_si3_post owed.honest xi insts).of_ok returned).1.kept owed.honest)
  | expand xi _ _ returned => exact later_of_kept (((Solver.S_vexpandsp_post xi).of_ok returned).kept owed.honest)
  | caller _ out le => exact later_of_kept ⟨le, rfl, rfl, rfl⟩

/-! ## Surroundings with fixed outcomes -/

open Classical in
/-- The surroundings of the source, but the guards have these outcomes, and evaluations are cut to what is assumed of them. -/
noncomputable def frozen (caller : Caller P.G D E) (depth : Nat) (pass : Fin P.G.nw → Inst → Bool) : Ops P.G (Memory P.G D E) :=
  { Solver.ops P.maps caller depth with
    guard := fun _ w i => pass w i
    compute := fun s mem x =>
      match Solver.S_compute_value P.maps caller depth (s, mem) x with
      | .ok w =>
        if P.SameSearch s w.1 ∧ ∀ u, (w.1.vs u).value = true → (w.1.vs u).chain.isSome = true then .ok w else .error .nbuf
      | .error e => if e.ofSearch = true then .error .nbuf else .error e }

theorem fails_ofSearch {e : Exit} (fails : caller.Fails e) : e.ofSearch = false := by
  cases e with
  | nvalue xi inst => rfl
  | nmap map inst => rfl
  | nbuf => rfl
  | maxdepth xi inst => exact fails.elim
  | nyi => exact fails.elim
  | nchain xi inst => exact fails.elim
  | costack => rfl

theorem stops_ofSearch {e : Exit} {short : Prop} (stops : Stops caller short e) : e.ofSearch = false := by
  rcases stops with fails | ⟨rfl, -⟩
  · exact fails_ofSearch fails
  · rfl

theorem frozen_around : (P.withPass pass).Surroundings (frozen (P := P) caller depth pass) where
  guard _ _ _ := rfl
  compute s mem x s' mem' _ _ computed := by
    unfold frozen at computed
    simp only at computed
    split at computed
    · split at computed
      · rename_i w _ quiet
        cases computed
        exact ⟨⟨quiet.1.ss, quiet.1.cost, quiet.1.chain, quiet.1.mcost, quiet.1.mchain⟩, quiet.2⟩
      · cases computed
    · split at computed <;> cases computed
  exits e exits := by
    cases exits with
    | vexpandsp mem x _ exited => exact fails_ofSearch ((Solver.S_vexpandsp_post x).of_error exited)
    | vexpandbe mem x i _ exited => exact fails_ofSearch ((Solver.S_vexpandbe_post x i).of_error exited)
    | mexpandbe mem m i _ exited => exact fails_ofSearch ((Solver.S_mexpandbe_post m i).of_error exited)
    | given1 mem x _ exited => exact fails_ofSearch ((Solver.S_get_given1_post x).of_error exited)
    | compute s mem x _ exited =>
      unfold frozen at exited
      simp only at exited
      split at exited
      · split at exited
        · cases exited
        · cases exited
          rfl
      · split at exited
        · cases exited
          rfl
        · rename_i other
          cases exited
          exact Bool.eq_false_iff.mpr other

section Frozen
variable {X : XState P.G} {e : ShEdge P.G.nw} {edges : List (ShEdge P.G.nw)} {i : Inst} {insts scanned : List Inst}
  {M_costS : Cost} {M_betaS : ℚ}

/-- A scan of guards whose outcomes are the fixed ones. -/
theorem scanCheck_frozen (agrees : Agrees caller pass
      (c.scanCheck (Solver.ops P.maps caller depth) X e edges i insts scanned M_costS M_betaS).s c.v)
    (present : ∀ j ∈ scanned, Present c.s c.v ((P.G.shadows e.idx).xi, j)) :
    c.scanCheck (frozen caller depth pass) X e edges i insts scanned M_costS M_betaS =
      c.scanCheck (Solver.ops P.maps caller depth) X e edges i insts scanned M_costS M_betaS := by
  have same : c.s.checkscan ((frozen caller depth pass).guard c.v) e.idx scanned =
      c.s.checkscan ((Solver.ops P.maps caller depth).guard c.v) e.idx scanned := by
    apply c.s.checkscan_congr
    intro j inside
    rw [scanCheck_s] at agrees
    refine agrees (e.idx, j) ?_ (present j inside)
    rw [c.s.checkscan_of_mem inside]
  unfold Config.scanCheck
  simp only [same]

theorem shadow_inst_frozen (linked : Linked c) (pc : c.pc = .shadow_inst X e edges i insts M_costS M_betaS)
    (agrees : Agrees caller pass (c.shadow_inst P.maps (Solver.ops P.maps caller depth) X e edges i insts M_costS M_betaS).s
      (c.shadow_inst P.maps (Solver.ops P.maps caller depth) X e edges i insts M_costS M_betaS).v) :
    c.shadow_inst P.maps (frozen caller depth pass) X e edges i insts M_costS M_betaS =
      c.shadow_inst P.maps (Solver.ops P.maps caller depth) X e edges i insts M_costS M_betaS := by
  obtain ⟨frame, at'⟩ : PcAt c.s c.stack (.shadow_inst X e edges i insts M_costS M_betaS) := pc ▸ linked.at'
  have kind := at'.computed
  have vexpandsp : (frozen caller depth pass).vexpandsp = (Solver.ops P.maps caller depth).vexpandsp := rfl
  have given1 : (frozen caller depth pass).given1 = (Solver.ops P.maps caller depth).given1 := rfl
  have scanGiven : (frozen caller depth pass).scanGiven = (Solver.ops P.maps caller depth).scanGiven := rfl
  revert agrees
  unfold Config.shadow_inst
  simp only [vexpandsp, given1, scanGiven]
  split
  · exact fun _ => rfl
  split
  · exact fun _ => rfl
  split
  · rename_i computed
    rw [computed, eq_comm, Bool.not_eq_true'] at kind
    split
    · exact fun _ => rfl
    split
    · exact fun _ => rfl
    split
    · rename_i value
      intro agrees
      rw [scanCheck_v] at agrees
      exact scanCheck_frozen agrees (scanComputed_present kind value _)
    · exact fun _ => rfl
  · rename_i given
    rw [Bool.not_eq_true] at given
    rw [given, eq_comm, Bool.not_eq_false'] at kind
    split
    · exact fun _ => rfl
    · rename_i v asked
      have there := ((Solver.S_get_given1_post _).of_ok asked).2
      intro agrees
      rw [scanCheck_v] at agrees
      exact scanCheck_frozen agrees (scanGiven_present kind there _)

theorem shadow_compute_frozen (owed : P.Owed caller) (linked : Linked c) (settles : Settles c.s c.v)
    (pc : c.pc = .shadow_compute X e edges i insts M_costS M_betaS)
    (agrees : Agrees caller pass (c.shadow_compute P.maps (Solver.ops P.maps caller depth) X e edges i insts M_costS M_betaS).s
      (c.shadow_compute P.maps (Solver.ops P.maps caller depth) X e edges i insts M_costS M_betaS).v) :
    c.shadow_compute P.maps (frozen caller depth pass) X e edges i insts M_costS M_betaS =
      c.shadow_compute P.maps (Solver.ops P.maps caller depth) X e edges i insts M_costS M_betaS := by
  obtain ⟨frame, at', computed, chain, unvalued⟩ : PcAt c.s c.stack (.shadow_compute X e edges i insts M_costS M_betaS) :=
    pc ▸ linked.at'
  have kind := at'.computed
  rw [computed, eq_comm, Bool.not_eq_true'] at kind
  have evaluation : (Solver.ops P.maps caller depth).compute c.s c.v ((P.G.shadows e.idx).xi, i) =
      Solver.S_compute_value P.maps caller depth (c.s, c.v) ((P.G.shadows e.idx).xi, i) := rfl
  revert agrees
  unfold Config.shadow_compute
  simp only [evaluation]
  cases evaluated : Solver.S_compute_value P.maps caller depth (c.s, c.v) ((P.G.shadows e.idx).xi, i) with
  | error err =>
    have stops := stops_ofSearch ((settles.compute owed depth chain unvalued).of_error evaluated)
    have cut : (frozen caller depth pass).compute c.s c.v ((P.G.shadows e.idx).xi, i) = .error err := by
      unfold frozen
      simp only
      rw [evaluated]
      simp only
      rw [if_neg (by rw [stops]; exact Bool.false_ne_true)]
    rw [cut]
    exact fun _ => rfl
  | ok w =>
    obtain ⟨advances, settles', value⟩ := (settles.compute owed depth chain unvalued).of_ok evaluated
    have cut : (frozen caller depth pass).compute c.s c.v ((P.G.shadows e.idx).xi, i) = .ok w := by
      unfold frozen
      simp only
      rw [evaluated]
      simp only
      rw [if_pos ⟨advances.same, settles'.ranged.value⟩]
    rw [cut]
    intro agrees
    simp only at agrees
    rw [scanCheck_v] at agrees
    exact scanCheck_frozen agrees (scanComputed_present kind value _)

end Frozen

/-- Both take the same step. -/
theorem frozen_step (owed : P.Owed caller) (linked : Linked c) (settles : Settles c.s c.v)
    (taken : step P.maps (Solver.ops P.maps caller depth) c = some c') (agrees : Agrees caller pass c'.s c'.v) :
    step P.maps (frozen caller depth pass) c = some c' := by
  unfold step at taken ⊢
  split at taken
  case h_7 X e edges i insts M_costS M_betaS pc =>
    cases taken
    rw [shadow_inst_frozen linked pc agrees]
  case h_8 X e edges i insts M_costS M_betaS pc =>
    cases taken
    rw [shadow_compute_frozen owed linked settles pc agrees]
  all_goals exact taken

/-! ## The search in a session -/

/-- Between two calls of `S_select_chain` nothing is marked, and inside a call its invariant holds. -/
inductive Standing (P : Problem) {V : Type} (c : Config P.G V) : Prop
  | between (returned : c.pc = .done none) (search : P.SearchOk c.s) (settled : P.Settled c.s [])
      (unmarked : ∀ u, c.s.marked u = false)
  | inside (root : P.G.VI) (inv : P.Inv root c)

theorem Standing.search {V : Type} {c : Config P.G V} (standing : P.Standing c) : P.SearchOk c.s := by
  cases standing with
  | between _ search _ _ => exact search
  | inside _ inv => exact inv.search

theorem Standing.returned {V : Type} {c : Config P.G V} (standing : P.Standing c) (tight : P.Tight) (returned : c.pc = .done none) :
    P.SearchOk c.s ∧ P.Settled c.s [] ∧ ∀ u, c.s.marked u = false := by
  cases standing with
  | between _ search settled unmarked => exact ⟨search, settled, unmarked⟩
  | inside _ inv => exact ⟨inv.search, Fhk.Session.settled inv returned, Fhk.Session.unmarked inv returned tight⟩

/-- The invariant of the search holds in every session, whatever the guards say that were not looked at. -/
theorem Solving.standing (owed : P.Owed caller) (tight : P.Tight) (low : (P.withPass pass).CminLow)
    (solvable : (P.withPass pass).Solvable) (session : P.Session caller depth c) :
    Agrees caller pass c.s c.v → (P.withPass pass).Standing c := by
  induction session with
  | start mem new =>
    intro _
    have clear (u : P.G.VI) : (Search.init P.G).marked u = false := by simp [Search.marked, Search.init]
    apply Standing.between
    · rfl
    · exact .init low
    · intro u some' _
      cases some'
    · exact clear
  | @step c c' before taken ih =>
    intro agrees
    obtain ⟨linked, settles⟩ := Solving.settles owed before
    have later := later_of_effect owed settles (linked.effect taken)
    cases ih (agrees.before later) with
    | between returned _ _ _ =>
      rw [Fhk.step, returned] at taken
      cases taken
    | inside root inv =>
      have around : (P.withPass pass).Surroundings (frozen (P := P) caller depth pass) := frozen_around
      exact .inside root (inv.step around solvable (inv.good tight) (frozen_step owed linked settles taken agrees))
  | @call c before returned x asked computed undone ih =>
    intro agrees
    obtain ⟨search, settled, unmarked⟩ := (ih agrees).returned tight returned
    have unchained : (c.s.vs x).chain = none := by
      simp only [Search.done, Bool.or_eq_false_iff] at undone
      simpa using undone.1
    exact .inside x (Fhk.Session.start_inv search settled (fun _ => unmarked) unchained)
  | @compute c before returned x chain unvalued s' mem' computed ih =>
    intro agrees
    obtain ⟨-, settles⟩ := Solving.settles owed before
    obtain ⟨advances, settles', -⟩ := (settles.compute owed depth chain unvalued).of_ok computed
    have later := later_of_advances owed settles advances settles'
    have same : (P.withPass pass).SameSearch c.s s' :=
      ⟨advances.same.ss, advances.same.cost, advances.same.chain, advances.same.mcost, advances.same.mchain⟩
    obtain ⟨search, settled, unmarked⟩ := (ih (agrees.before later)).returned tight returned
    apply Standing.between
    · exact returned
    · exact search.same same settles'.ranged.value
    · intro u some' marked
      rw [same.chain] at some'
      rw [same.marked] at marked
      exact settled u some' marked
    · intro u
      rw [same.marked, unmarked]
  | @client c before returned mem' changed ih =>
    intro agrees
    obtain ⟨search, settled, unmarked⟩ := (ih (agrees.before (later_of_between owed changed))).returned tight returned
    exact .between returned search settled unmarked

end Problem

namespace Ladder
open Problem

/-- Each instance of `x` has a chain of cost one, whatever the guard says. -/
theorem derives_x (pass : Fin problem.G.nw → Inst → Bool) (i : Inst) : (problem.withPass pass).sys.Derives (x.1, i) 1 := by
  have value : (problem.withPass pass).sys.value ((1 : Fin 2), i) (fun _ => 0) = 1 := by
    show Cost.affine 1 1 (0 + 0) = 1
    rw [add_zero, ← WithTop.coe_zero, Cost.affine_coe]
    norm_num
  rw [← value]
  exact .intro _ _ _ (List.mem_singleton.mpr rfl) (fun u hu => by cases hu)

theorem solvable (pass : Fin problem.G.nw → Inst → Bool) : (problem.withPass pass).Solvable :=
  fun _ i _ _ => ⟨1, derives_x pass i, by decide +kernel⟩

theorem tight : problem.Tight := by
  intro m
  simp only [problem, graph]
  split <;> exact le_rfl

theorem low (pass : Fin problem.G.nw → Inst → Bool) : (problem.withPass pass).CminLow := by
  intro m t through
  refine le_trans ?_ ((problem.withPass pass).k_low m through)
  simp only [problem, withPass, graph]
  split <;> exact le_rfl

end Ladder

namespace Problem

end Problem
end M2.Fhk
