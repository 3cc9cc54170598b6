import M2.Fhk.ComputeRun
import M2.Fhk.Ranges

/-!
# Sessions of the solver with its memory

A session in which the surroundings of `S_select_chain` are those of the source. What search steps, requests, evaluations,
guards and the caller keep, each session keeps. Of the stored values everything that `S_compute_value` assumes holds in all
states of a session, also inside a call of `S_select_chain`.
-/
namespace M2.Fhk
open M2.Lib

/-- The memory is that of a new solver. -/
def Memory.New {G : Graph} {D E : Type} (mem : Memory G D E) : Prop :=
  ∃ out value rbuf scratch, mem = .create out value rbuf scratch

namespace Problem

/-- What the builder, the maps and the caller owe the solver. -/
structure Owed (P : Problem) {D E : Type} (caller : Caller P.G D E) : Prop where
  honest : caller.Honest
  wired : P.G.Wired
  inverse : P.maps.Inverse P.G
  alone : P.maps.Alone P.G

/-- The states of a session of the solver that `fhk_create_solver` makes. Roots are instances of their groups. -/
abbrev Session (P : Problem) {D E : Type} (caller : Caller P.G D E) (depth : Nat) : Config P.G (Memory P.G D E) → Prop :=
  P.Solving (Solver.ops P.maps caller depth) Memory.New (Solver.Between caller) (P.maps.Has P.G)

variable {P : Problem} {D E : Type} {caller : Caller P.G D E} {depth : Nat} {c : Config P.G (Memory P.G D E)} {s s' : Search P.G}
  {mem mem' : Memory P.G D E} {x : P.G.VI}

/-- The instances that have chains. -/
def recorded (s : Search P.G) : Finset P.G.VI := Finset.univ.filter fun u => (s.vs u).chain.isSome = true

/-- The value of the instance is there. -/
def Present (s : Search P.G) (mem : Memory P.G D E) (x : P.G.VI) : Prop :=
  if P.G.given x.1 = true then mem.out.missing x = false else (s.vs x).value = true

/-- A state between two steps. -/
structure Settles (s : Search P.G) (mem : Memory P.G D E) : Prop where
  ranged : P.Ranged s
  sound : Sound s mem [] []

/-! ## What the surroundings do -/

/-- A root or the variable of a shadow is evaluated. -/
theorem Settles.compute (owed : P.Owed caller) (settles : Settles s mem) (depth : Nat) (chain : (s.vs x).chain.isSome = true)
    (unvalued : (s.vs x).value = false) : Post (Solver.S_compute_value P.maps caller depth (s, mem) x)
      (fun w => Advances caller (s, mem) w ∧ Settles w.1 w.2 ∧ (w.1.vs x).value = true)
      (Stops caller (depth < (recorded s).card)) := by
  have room : (recorded s).card ≤ ([] : List P.G.VI).length + depth ∨ depth < (recorded s).card := by
    rw [List.length_nil]
    omega
  have within (u : P.G.VI) (some' : (s.vs u).chain.isSome = true) : u ∈ recorded s :=
    Finset.mem_filter.mpr ⟨Finset.mem_univ u, some'⟩
  have above : Above s [] [] x := ⟨fun _ there => absurd there List.not_mem_nil, fun _ there => absurd there List.not_mem_nil⟩
  have computes : Computes caller (depth < (recorded s).card) (recorded s) [] [] (Solver.S_compute_value P.maps caller depth) :=
    S_compute_value_post owed.honest owed.wired owed.inverse owed.alone depth List.nodup_nil room
  refine (computes (s, mem) x settles.ranged within settles.sound chain unvalued above).mono ?_ fun _ => id
  rintro w ⟨advances, sound, value⟩
  exact ⟨advances, ⟨advances.ranged, sound⟩, value⟩

theorem Settles.quietAt (owed : P.Owed caller) (settles : Settles s mem) (depth : Nat) :
    QuietAt (Solver.ops P.maps caller depth) s mem := by
  intro x s' mem' chain unvalued computed
  obtain ⟨advances, settles', -⟩ := (settles.compute owed depth chain unvalued).of_ok computed
  exact ⟨advances.same, settles'.ranged.value⟩

theorem gives_asks (gives : (Solver.ops P.maps caller depth).Gives mem mem') : mem.Asks caller mem' := by
  cases gives with
  | vexpandsp x given => exact (Solver.S_vexpandsp_post x).of_ok given
  | vexpandbe x i given => exact (Solver.S_vexpandbe_post x i).of_ok given
  | mexpandbe m i given => exact (Solver.S_mexpandbe_post m i).of_ok given

theorem Settles.kept (owed : P.Owed caller) (settles : Settles s mem) (kept : mem.Kept mem') : Settles s mem' :=
  ⟨settles.ranged, settles.sound.kept owed.wired settles.ranged.toChained kept⟩

theorem Settles.asks (owed : P.Owed caller) (settles : Settles s mem) (asks : mem.Asks caller mem') : Settles s mem' :=
  settles.kept owed (asks.kept owed.honest)

theorem Settles.retains (settles : Settles s mem) (retains : Retains s s') (ranged : P.Ranged s') : Settles s' mem := by
  have models (u : P.G.VI) (m : P.G.MI) (model : s.model u = some m) : s'.model u = some m := by
    rw [← model, Search.model, Search.model, retains.chain u (model_chain model)]
  refine ⟨ranged, settles.sound.search (fun u set => ?_) (fun u m model => ⟨models u m model, ?_⟩) retains.value retains.mvalue⟩
  · rw [slot, slot, retains.chain u (settles.ranged.value u set)]
  · exact retains.solved m (settles.ranged.solved u m model)

theorem Settles.init (new : mem.New) : Settles (Search.init P.G) mem := by
  obtain ⟨out, value, rbuf, scratch, rfl⟩ := new
  refine ⟨⟨.init, fun u set => ?_⟩, fun m set => ?_, fun c there => ?_, List.nodup_nil, fun u set => ?_⟩
  · cases set
  · cases set
  · cases there
  · cases set

/-! ## What holds in every session -/

/-- What everything that happens in a session keeps. -/
structure Invariant (caller : Caller P.G D E) (I : Search P.G → Memory P.G D E → Prop) : Prop where
  start : ∀ mem : Memory P.G D E, mem.New → I (Search.init P.G) mem
  search : ∀ s s' mem, Settles s mem → I s mem → Retains s s' →
    (s'.ss = s.ss ∨ ∃ w, P.G.given (P.G.shadows w.1).xi = false ∧ s'.ss = (s.setEval w).ss) → I s' mem
  asks : ∀ s mem mem', Settles s mem → I s mem → mem.Asks caller mem' → I s mem'
  compute : ∀ s mem w, Settles s mem → I s mem → Advances caller (s, mem) w → Settles w.1 w.2 → I w.1 w.2
  scan : ∀ (s : Search P.G) mem w insts, Settles s mem → I s mem → (∀ i ∈ insts, Present s mem ((P.G.shadows w).xi, i)) →
    I (s.checkscan (fun w i => caller.guard w (mem.read ((P.G.shadows w).xi, i))) w insts) mem
  client : ∀ s mem out, Settles s mem → I s mem → mem.out.Le out → I s { mem with out }

theorem scanComputed_present {w : Fin P.G.nw} {i : Inst} (computed : P.G.given (P.G.shadows w).xi = false)
    (value : (s.vs ((P.G.shadows w).xi, i)).value = true) (shape : Nat) :
    ∀ j ∈ s.scanComputed (P.G.shadows w).xi shape i, Present s mem ((P.G.shadows w).xi, j) := by
  intro j there
  rw [Present, if_neg (by rw [computed]; exact Bool.false_ne_true)]
  rcases List.mem_cons.mp there with rfl | later
  · exact value
  · have set := List.mem_takeWhile_imp later
    exact set

theorem scanGiven_present {w : Fin P.G.nw} {i : Inst} (given : P.G.given (P.G.shadows w).xi = true)
    (there : mem.out.missing ((P.G.shadows w).xi, i) = false) (shape : Nat) :
    ∀ j ∈ i :: Solver.scanGiven (P.G.shadows w).xi shape i mem, Present s mem ((P.G.shadows w).xi, j) := by
  intro j here
  rw [Present, if_pos given]
  rcases List.mem_cons.mp here with rfl | later
  · exact there
  · simpa using List.mem_takeWhile_imp later

variable {I : Search P.G → Memory P.G D E → Prop}

theorem Invariant.scanned (inv : Invariant caller I) (settles : Settles s mem) (holds : I s mem) {w : Fin P.G.nw} {insts : List Inst}
    (present : ∀ i ∈ insts, Present s mem ((P.G.shadows w).xi, i)) :
    Settles (s.checkscan ((Solver.ops P.maps caller depth).guard mem) w insts) mem ∧
      I (s.checkscan ((Solver.ops P.maps caller depth).guard mem) w insts) mem := by
  refine ⟨settles.retains (.same (fun _ => ⟨rfl, rfl⟩) fun _ => rfl) ?_, inv.scan s mem w insts settles holds present⟩
  exact ⟨settles.ranged.unchanged (fun _ => ⟨rfl, rfl⟩) fun _ => rfl, settles.ranged.inside⟩

/-- A step of `S_select_chain`. -/
theorem Invariant.effect (inv : Invariant caller I) (owed : P.Owed caller) {c' : Config P.G (Memory P.G D E)}
    (settles : Settles c.s c.v) (holds : I c.s c.v) (ranged : P.Ranged c'.s) (effect : Effect (Solver.ops P.maps caller depth) c c') :
    Settles c'.s c'.v ∧ I c'.s c'.v := by
  cases effect with
  | quiet retains bits asked =>
    have settles' := settles.retains retains ranged
    have holds' := inv.search _ _ _ settles holds retains bits
    rcases asked with same | gives
    · rw [same]
      exact ⟨settles', holds'⟩
    · have asks := gives_asks gives
      exact ⟨settles'.asks owed asks, inv.asks _ _ _ settles' holds' asks⟩
  | found w i computed value asked result =>
    have asks := gives_asks asked
    rw [result]
    exact inv.scanned (settles.asks owed asks) (inv.asks _ _ _ settles holds asks) (scanComputed_present computed value _)
  | evaluated w i computed chain unvalued s evaluated result =>
    obtain ⟨advances, settles', value⟩ := (settles.compute owed depth chain unvalued).of_ok evaluated
    rw [result]
    exact inv.scanned settles' (inv.compute _ _ _ settles holds advances settles') (scanComputed_present computed value _)
  | given w i given asked result =>
    obtain ⟨asks, there⟩ := (Solver.S_get_given1_post _).of_ok asked
    rw [result]
    exact inv.scanned (settles.asks owed asks) (inv.asks _ _ _ settles holds asks) (scanGiven_present given there _)

/-- What happens between two calls of the solver. -/
theorem Invariant.between (inv : Invariant caller I) (owed : P.Owed caller) (settles : Settles s mem) (holds : I s mem)
    (between : Solver.Between caller mem mem') : Settles s mem' ∧ I s mem' := by
  cases between with
  | given xi given insts _ _ returned =>
    have asks := ((Solver.S_get_given_si3_post owed.honest xi insts).of_ok returned).1
    exact ⟨settles.asks owed asks, inv.asks _ _ _ settles holds asks⟩
  | expand xi _ _ returned =>
    have asks := (Solver.S_vexpandsp_post xi).of_ok returned
    exact ⟨settles.asks owed asks, inv.asks _ _ _ settles holds asks⟩
  | caller _ out le => exact ⟨settles.kept owed ⟨le, rfl, rfl, rfl⟩, inv.client _ _ out settles holds le⟩

/-- Every session keeps it. -/
theorem Invariant.session (inv : Invariant caller I) (owed : P.Owed caller) (session : P.Session caller depth c) :
    Linked c ∧ InGroups c ∧ Settles c.s c.v ∧ I c.s c.v := by
  induction session with
  | start mem new =>
    refine ⟨⟨.init, trivial⟩, ⟨fun u some' => ?_, fun f there => ?_, fun u at' => ?_⟩, .init new, inv.start mem new⟩
    · cases some'
    · cases there
    · cases at'
  | step _ taken ih =>
    obtain ⟨linked, within, settles, holds⟩ := ih
    have linked' := linked.step (settles.quietAt owed depth) taken
    have within' := within.step owed.inverse (settles.quietAt owed depth) linked taken
    exact ⟨linked', within', inv.effect owed settles holds ⟨linked'.chained, within'.chains⟩ (linked.effect taken)⟩
  | call _ returned x asked _ undone ih =>
    obtain ⟨linked, within, settles, holds⟩ := ih
    refine ⟨linked.call undone, ⟨within.chains, fun f there => ?_, fun u at' => ?_⟩, settles, holds⟩
    · cases there
    · cases at'
      exact asked
  | compute _ returned x chain unvalued s' mem' computed ih =>
    obtain ⟨linked, within, settles, holds⟩ := ih
    obtain ⟨advances, settles', -⟩ := (settles.compute owed depth chain unvalued).of_ok computed
    exact ⟨⟨settles'.ranged.toChained, returned ▸ trivial⟩, ⟨settles'.ranged.inside, within.stack, within.searched⟩, settles',
      inv.compute _ _ _ settles holds advances settles'⟩
  | client _ returned mem' changed ih =>
    obtain ⟨linked, within, settles, holds⟩ := ih
    exact ⟨⟨linked.chained, returned ▸ trivial⟩, ⟨within.chains, within.stack, within.searched⟩,
      inv.between owed settles holds changed⟩

theorem Solving.settles (owed : P.Owed caller) (session : P.Session caller depth c) : Linked c ∧ Settles c.s c.v := by
  have inv : Invariant caller fun (_ : Search P.G) (_ : Memory P.G D E) => True := by
    constructor <;> intros <;> trivial
  obtain ⟨linked, -, settles, -⟩ := inv.session owed session
  exact ⟨linked, settles⟩

end Problem
end M2.Fhk
