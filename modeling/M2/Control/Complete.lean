import M2.Control.Preserve

/-!
What the graph means the compiled function comes to: with enough fuel it ends, and what can be missing is the memory
for a savepoint or a frame for a branch. The induction is on the meaning. The functions between two steps of it, the
chains and the continuations, stand for nothing in the end or lead to the next step, because the target of a
trampoline is what its node is.
-/
namespace M2.Control

open Lib.Dfs

variable {N : Nat} {V : Type}

/-! ## Outcomes -/

/-- The run ends, or the simulator has no memory or no frame left. -/
def Settled (r : Except (Stop String) (Machine V)) : Prop :=
  (∃ M, r = .ok M) ∨ r = .error (.error "failed to allocate memory") ∨ r = .error (.error "invalid frame")

/-- With enough fuel there is one outcome. -/
def Settles (run : Nat → Except (Stop String) (Machine V)) : Prop := ∃ n r, Settled r ∧ ∀ m ≥ n, run m = r

theorem settles_const {run : Nat → Except (Stop String) (Machine V)} {r : Except (Stop String) (Machine V)} (settled : Settled r)
    (same : ∀ m, run (m + 1) = r) : Settles run := by
  refine ⟨1, r, settled, fun m le => ?_⟩
  obtain ⟨m, rfl⟩ := Nat.exists_eq_succ_of_ne_zero (Nat.one_le_iff_ne_zero.mp le)
  exact same m

theorem Settles.step {run run' : Nat → Except (Stop String) (Machine V)} (settles : Settles run) (same : ∀ m, run' (m + 1) = run m) :
    Settles run' := by
  obtain ⟨n, r, settled, const⟩ := settles
  refine ⟨n + 1, r, settled, fun m le => ?_⟩
  obtain ⟨m, rfl⟩ := Nat.exists_eq_succ_of_ne_zero (Nat.one_le_iff_ne_zero.mp (le_of_add_le_right le))
  exact (same m).trans (const m (Nat.le_of_succ_le_succ le))

/-! ## The frames -/

/-- Nothing has branched in the current frame. -/
structure Fresh (sim : Frames V) : Prop where
  branchpoint : sim.branchpoint sim.fp = false
  savepoint : sim.savepoint sim.fp = none

theorem branch_settles (room : Frames V → Bool) {sim : Frames V} (fresh : Fresh sim) :
    (∃ sim', sim.branch room = .ok sim') ∨ sim.branch room = .error (.error "failed to allocate memory") := by
  unfold Frames.branch Frames.take_savepoint
  rw [if_neg (by simp [fresh.branchpoint]), if_neg (by simp [fresh.savepoint])]
  split
  · exact .inl ⟨_, rfl⟩
  · exact .inr rfl

theorem enter_branch_settles {sim : Frames V} {fp : Nat} {v : V} (saved : Saved fp v sim) :
    (∃ sim', sim.enter_branch fp = .ok sim' ∧ Fresh sim') ∨ sim.enter_branch fp = .error (.error "invalid frame") := by
  have enters (here : Frames V) : (∃ sim', here.enter = .ok sim' ∧ Fresh sim') ∨ here.enter = .error (.error "invalid frame") := by
    unfold Frames.enter
    split
    · exact .inr rfl
    · exact .inl ⟨_, rfl, Function.update_self _ _ _, Function.update_self _ _ _⟩
  unfold Frames.enter_branch
  by_cases same : fp = sim.fp
  · rw [if_neg (by simpa using same)]
    simp only [bind, Except.bind]
    rw [← same, if_pos saved.branchpoint]
    exact enters sim
  · have above : fp < sim.fp := by
      rcases saved.fp with above | ⟨here, -⟩
      · exact above
      · exact absurd here.symm same
    rw [if_pos same, Frames.load, if_neg (by omega), saved.savepoint]
    simp only [bind, Except.bind]
    rw [if_pos saved.branchpoint]
    exact enters _

/-! ## What is ahead of a step -/

section Steps

variable (lib : Functions V) (room : Frames V → Bool) (targets : Fin N → Option Func) (G : Graph N) (known : Fin N → Prop)

/-- Whatever stands for these instructions settles. -/
structure Follows (ks : List (Ref N)) (v : V) : Prop where
  calls : ∀ f bottom top M rs ks', rs ++ ks' = ks → Implements G known f rs → Conts lib G known M.stack bottom top ks' →
    M.sim.v = v → Fresh M.sim → Settles fun m => run lib room targets m f bottom top M
  jumps : ∀ bottom top M, Conts lib G known M.stack bottom top ks → M.sim.v = v → Fresh M.sim →
    Settles fun m => jump (run lib room targets m) bottom top M

/-- What a step of the meaning leads to settles. -/
def Ready : List (Ref N) → V → Prop
  | [], _ => True
  | .func k :: ks, v => ∀ v' fs, lib.raw k v = (v', .call fs) → Follows lib room targets G known (fs.map .func ++ ks) v'
  | .node i :: ks, v =>
    match G i with
    | .nothing => Follows lib room targets G known ks v
    | .exit => True
    | .primitive f narg args =>
      match lib.primitive f (unpack args narg) v with
      | (_, .no) => True
      | (v', .nil) => Follows lib room targets G known ks v'
      | (v', .func k) => Follows lib room targets G known (.func k :: ks) v'
      | (_, .other) => False
    | .exported _ _ _ => False
    | .all edges => Follows lib room targets G known (edges ++ ks) v
    | .any edges => ∀ e ∈ edges, Follows lib room targets G known (e :: ks) v

end Steps

section Settle

variable {lib : Functions V} {room : Frames V → Bool} {targets : Fin N → Option Func} {G : Graph N} {known : Fin N → Prop}
  {bottom top : Int} {ks : List (Ref N)} {M : Machine V} {v : V}

theorem Fresh.see {e : Event V} (fresh : Fresh M.sim) : Fresh (M.see e v).sim := ⟨fresh.branchpoint, fresh.savepoint⟩

theorem pushAll_sim (M : Machine V) (top : Int) (fs : List Nat) : (M.pushAll top fs).sim = M.sim := by
  induction fs with
  | nil => rfl
  | cons k fs ih => exact ih

theorem raw_settles {k : Nat} (ready : Ready lib room targets G known (.func k :: ks) M.sim.v)
    (conts : Conts lib G known M.stack bottom top ks) (fresh : Fresh M.sim) :
    Settles fun m => run lib room targets m (.raw k) bottom top M := by
  cases result : lib.raw k M.sim.v with
  | mk v tail =>
    cases tail with
    | stop =>
      apply settles_const (.inl ⟨M.see (.raw k M.sim.v) v, rfl⟩)
      intro m
      rw [run, result]
    | call fs =>
      have follows := ready v fs result
      cases fs with
      | nil =>
        apply (follows.jumps bottom top (M.see (.raw k M.sim.v) v) conts rfl fresh.see).step
        intro m
        rw [run, result]
      | cons k' fs =>
        have pushed := Conts.pushedAll (M := M.see (.raw k M.sim.v) v) conts fs
        have sim := pushAll_sim (M.see (.raw k M.sim.v) v) top fs
        apply (follows.calls (.raw k') _ _ _ [.func k'] _ rfl (.raw k') pushed (by rw [sim]; rfl) (by rw [sim]; exact fresh.see)).step
        intro m
        rw [run, result]

theorem primitive_settles {i : Fin N} {f : Value} {narg : Nat} {args : List Value} (node : G i = .primitive f narg args)
    (ready : Ready lib room targets G known (.node i :: ks) M.sim.v) (conts : Conts lib G known M.stack bottom top ks)
    (fresh : Fresh M.sim) : Settles fun m => run lib room targets m (.primitive f (unpack args narg)) bottom top M := by
  simp only [Ready, node] at ready
  cases result : lib.primitive f (unpack args narg) M.sim.v with
  | mk v rv =>
    simp only [result] at ready
    cases rv with
    | no =>
      apply settles_const (.inl ⟨M.see (.primitive f (unpack args narg) M.sim.v) v, rfl⟩)
      intro m
      rw [run, result]
    | nil =>
      apply (ready.jumps bottom top (M.see (.primitive f (unpack args narg) M.sim.v) v) conts rfl fresh.see).step
      intro m
      rw [run, result]
    | func k =>
      apply (ready.calls (.raw k) bottom top (M.see (.primitive f (unpack args narg) M.sim.v) v) _ _ rfl (.raw k) conts rfl fresh.see).step
      intro m
      rw [run, result]
    | other => exact ready.elim

theorem chain_primitive_settles {i : Fin N} {f : Value} {narg : Nat} {args : List Value} {chain : Func} {rs : List (Ref N)}
    (node : G i = .primitive f narg args) (rest : Implements G known chain rs)
    (ready : Ready lib room targets G known (.node i :: (rs ++ ks)) M.sim.v) (conts : Conts lib G known M.stack bottom top ks)
    (fresh : Fresh M.sim) :
    Settles fun m => run lib room targets m (.chain_primitive f (unpack args narg) chain) bottom top M := by
  simp only [Ready, node] at ready
  cases result : lib.primitive f (unpack args narg) M.sim.v with
  | mk v rv =>
    simp only [result] at ready
    cases rv with
    | no =>
      apply settles_const (.inl ⟨M.see (.primitive f (unpack args narg) M.sim.v) v, rfl⟩)
      intro m
      rw [run, result]
    | nil =>
      apply (ready.calls chain bottom top (M.see (.primitive f (unpack args narg) M.sim.v) v) _ _ rfl rest conts rfl fresh.see).step
      intro m
      rw [run, result]
    | func k =>
      have pushed := Conts.pushed (M := M.see (.primitive f (unpack args narg) M.sim.v) v) conts rest
      have fresh' : Fresh (M.see (.primitive f (unpack args narg) M.sim.v) v).sim := fresh.see
      apply (ready.calls (.raw k) bottom (top + 1) _ [.func k] _ rfl (.raw k) pushed rfl fresh').step
      intro m
      rw [run, result]
    | other => exact ready.elim

theorem run_branch_settles {e : Ref N} {b : Option Func} (follows : Follows lib room targets G known (e :: ks) v)
    (skips : b = none → isnothing G e = true) (calls : ∀ f, b = some f → Implements G known f [e])
    (conts : Conts lib G known M.stack bottom top ks) (value : M.sim.v = v) (fresh : Fresh M.sim) :
    Settles fun m => run_branch (run lib room targets m) bottom top b M := by
  cases b with
  | none =>
    obtain ⟨i, rfl, node⟩ := isnothing_iff.mp (skips rfl)
    exact follows.jumps bottom top M (conts.skip node) value fresh
  | some f => exact follows.calls f bottom top M [e] ks rfl (calls f rfl) conts value fresh

/-- The branches one after the other: when one has run, the next one finds the savepoint. -/
theorem branches_settle (sound : ∀ i f, targets i = some f → Unfolds G known f i) {fp : Nat} {edges : List (Ref N)}
    {branches : List (Option Func)} (each : Branches G known edges branches)
    (follows : ∀ e ∈ edges, Follows lib room targets G known (e :: ks) v) (conts : Conts lib G known M.stack bottom top ks)
    (saved : Saved fp v M.sim) : Settles fun m => run_branches (run lib room targets m) fp bottom top branches M := by
  induction branches generalizing edges M with
  | nil => exact settles_const (.inl ⟨M, rfl⟩) fun _ => rfl
  | cons b branches ih =>
    cases edges with
    | nil => cases each.length
    | cons e edges =>
      have skip : b = none → isnothing G e = true := by
        rintro rfl
        exact each.skips 0 e rfl rfl
      have callee : ∀ f, b = some f → Implements G known f [e] := by
        rintro f rfl
        exact each.calls 0 e f rfl rfl
      simp only [run_branches]
      rcases enter_branch_settles saved with ⟨sim, entered, fresh⟩ | full
      · obtain ⟨fp_eq, v_eq, saved', kept⟩ := enter_branch_ok saved entered
        simp only [entered, bind, Except.bind]
        cases branches with
        | nil => exact run_branch_settles (M := { M with sim }) (follows e List.mem_cons_self) skip callee conts v_eq fresh
        | cons b' branches =>
          obtain ⟨d, copied⟩ : ∃ d, Copied M.stack bottom top (copystack M.stack bottom top) d := copystack_copied conts.le
          generalize copystack M.stack bottom top = r at copied ⊢
          obtain ⟨stack, bottom', top'⟩ := r
          obtain rfl : bottom' = bottom + d := copied.low
          obtain rfl : top' = top + d := copied.high
          simp only
          obtain ⟨n, r, settled, const⟩ := run_branch_settles (M := { stack, sim, log := M.log }) (follows e List.mem_cons_self) skip
            callee (conts.shift copied.copy) v_eq fresh
          dsimp only at const
          rcases settled with ⟨M₁, rfl⟩ | failed
          · have ran := run_branch_ok (M := { stack, sim, log := M.log }) (run_right sound n) (conts.shift copied.copy) skip callee
              (const n le_rfl)
            have below := copied.below ran.stack
            have saved'' := saved'.keep (fp_eq ▸ ran.frames : Kept (fp + 1) sim M₁.sim)
            obtain ⟨n', r', settled', const'⟩ := ih (M := M₁) each.tail (fun e' mem => follows e' (List.mem_cons_of_mem _ mem))
              (conts.congr fun i _ high => below i high) saved''
            refine ⟨max n n', r', settled', fun m le => ?_⟩
            simp only [const m (le_of_max_le_left le)]
            exact const' m (le_of_max_le_right le)
          · refine ⟨n, r, .inr failed, fun m le => ?_⟩
            simp only [const m le]
            rcases failed with rfl | rfl
            · rfl
            · rfl
      · simp only [full, bind, Except.bind]
        exact settles_const (.inr (.inr rfl)) fun _ => rfl

theorem any_settles (sound : ∀ i f, targets i = some f → Unfolds G known f i) {i : Fin N} {edges : List (Ref N)}
    {branches : List (Option Func)} (node : G i = .any edges) (each : Branches G known edges branches)
    (ready : Ready lib room targets G known (.node i :: ks) M.sim.v) (conts : Conts lib G known M.stack bottom top ks)
    (fresh : Fresh M.sim) : Settles fun m => run lib room targets m (.any branches) bottom top M := by
  simp only [Ready, node] at ready
  rcases branch_settles room fresh with ⟨sim, branched⟩ | full
  · obtain ⟨fp, saved, -⟩ := branch_ok branched
    apply (branches_settle (M := { M with sim }) sound each ready conts saved).step
    intro m
    rw [run, branched]
    simp only [bind, Except.bind, fp]
  · apply settles_const (.inr (.inl rfl))
    intro m
    rw [run, full]
    rfl

/-- A trampoline has its target, and no target is the trampoline itself. -/
structure Linked (targets : Fin N → Option Func) (G : Graph N) (known : Fin N → Prop) : Prop where
  sound : ∀ i f, targets i = some f → Unfolds G known f i
  total : ∀ i, known i → ∃ f, targets i = some f

/-- What a node is says what the call of its function leads to. -/
theorem unfolds_settles (linked : Linked targets G known) {f : Func} {i : Fin N} (unfolds : Unfolds G known f i)
    (ready : Ready lib room targets G known (.node i :: ks) M.sim.v) (conts : Conts lib G known M.stack bottom top ks)
    (fresh : Fresh M.sim) : Settles fun m => run lib room targets m f bottom top M := by
  cases unfolds with
  | nothing node =>
    simp only [Ready, node] at ready
    exact (ready.jumps bottom top M conts rfl fresh).step fun m => by rw [run]
  | exit node => exact settles_const (.inl ⟨M, rfl⟩) fun m => by rw [run]
  | empty node => exact settles_const (.inl ⟨M, rfl⟩) fun m => by rw [run]
  | primitive node => exact primitive_settles node ready conts fresh
  | all node each =>
    simp only [Ready, node] at ready
    exact ready.calls f bottom top M _ ks rfl each conts rfl fresh
  | @one _ e _ node edge =>
    simp only [Ready, node] at ready
    exact (ready e List.mem_cons_self).calls f bottom top M [e] ks rfl edge conts rfl fresh
  | any node each => exact any_settles linked.sound node each ready conts fresh

theorem implements_nothing {f : Func} {rs : List (Ref N)} (impl : Implements G known f rs) (none' : rs = []) : f = .nothing := by
  cases impl with
  | nothing => rfl
  | trail => simp at none'
  | _ => cases none'

/-- The call of a function that stands for some instructions, when the next step settles. -/
theorem implements_settles (linked : Linked targets G known) {f : Func} {rs : List (Ref N)} (impl : Implements G known f rs)
    (some' : rs ≠ []) (ready : Ready lib room targets G known (rs ++ ks) M.sim.v) (conts : Conts lib G known M.stack bottom top ks)
    (fresh : Fresh M.sim) : Settles fun m => run lib room targets m f bottom top M := by
  induction impl generalizing ks top M with
  | raw k => exact raw_settles ready conts fresh
  | @trampoline i target =>
    obtain ⟨g, linked'⟩ := linked.total i target
    apply (unfolds_settles linked (linked.sound i g linked') ready conts fresh).step
    intro m
    rw [run, dif_pos i.isLt]
    simp only [linked']
  | nothing => exact absurd rfl some'
  | @skip i f rs node rest _ =>
    simp only [List.cons_append, Ready, node] at ready
    exact ready.calls f bottom top M rs ks rfl rest conts rfl fresh
  | @trail i f rs node rest ih =>
    rw [List.append_assoc] at ready
    by_cases none' : rs = []
    · obtain rfl := implements_nothing rest none'
      subst none'
      simp only [List.nil_append, List.cons_append, Ready, node] at ready
      exact (ready.jumps bottom top M conts rfl fresh).step fun m => by rw [run]
    · exact ih none' ready (conts.skip node) fresh
  | exit node => exact unfolds_settles linked (.exit node) ready conts fresh
  | empty node => exact unfolds_settles linked (.empty node) ready conts fresh
  | primitive node => exact primitive_settles node ready conts fresh
  | chain_primitive node rest => exact chain_primitive_settles node rest ready conts fresh
  | @chain_call r call chain rs first rest ih _ =>
    exact (ih (M := M.push (top + 1) chain) (List.cons_ne_nil _ _) ready (conts.pushed rest) fresh).step fun m => by rw [run]
  | all node each => exact unfolds_settles linked (.all node each) ready conts fresh
  | one node edge => exact unfolds_settles linked (.one node edge) ready conts fresh
  | any node length skips calls => exact unfolds_settles linked (.any node ⟨length, skips, calls⟩) ready conts fresh

theorem jump_settles (linked : Linked targets G known) (ready : Ready lib room targets G known ks M.sim.v)
    (conts : Conts lib G known M.stack bottom top ks) (fresh : Fresh M.sim) :
    Settles fun m => jump (run lib room targets m) bottom top M := by
  generalize same : M.stack = stack at conts
  induction conts with
  | exit last =>
    apply settles_const (.inl ⟨M, rfl⟩)
    intro m
    rw [jump, same, last]
    simp only [run]
  | @raw k last stops =>
    have stop := stops M.sim.v
    cases result : lib.raw k M.sim.v with
    | mk v tail =>
      rw [result] at stop
      obtain rfl : tail = .stop := stop
      apply settles_const (.inl ⟨M.see (.raw k M.sim.v) v, rfl⟩)
      intro m
      rw [jump, same, last]
      simp only [run, result]
  | @skip i top ks node rest _ =>
    simp only [Ready, node] at ready
    exact ready.jumps bottom top M (same ▸ rest) rfl fresh
  | @push f top rs ks rest entry impl ih =>
    simp only [jump, same, entry, add_sub_cancel_right]
    by_cases none' : rs = []
    · obtain rfl := implements_nothing impl none'
      subst none'
      exact (ih ready).step fun m => by rw [run]
    · exact implements_settles linked impl none' ready (same ▸ rest) fresh

theorem follows_of_ready (linked : Linked targets G known) (ready : Ready lib room targets G known ks v) :
    Follows lib room targets G known ks v := by
  have jumps (bottom top : Int) (M : Machine V) (conts : Conts lib G known M.stack bottom top ks) (value : M.sim.v = v)
      (fresh : Fresh M.sim) : Settles fun m => jump (run lib room targets m) bottom top M :=
    jump_settles linked (value ▸ ready) conts fresh
  constructor
  · intro f bottom top M rs ks' split impl conts value fresh
    by_cases none' : rs = []
    · obtain rfl := implements_nothing impl none'
      subst none'
      rw [List.nil_append] at split
      exact (jumps bottom top M (split ▸ conts) value fresh).step fun m => by rw [run]
    · exact implements_settles linked impl none' (split ▸ value ▸ ready) conts fresh
  · exact jumps

/-- The meaning of the instructions ahead leads their functions to an end. -/
theorem follows_of_means (linked : Linked targets G known) {es : List (Event V)} (means : Means lib G ks v es) :
    Follows lib room targets G known ks v := by
  induction means with
  | done => exact follows_of_ready linked trivial
  | raw_stop result =>
    apply follows_of_ready linked
    intro v' fs result'
    rw [result] at result'
    cases result'
  | raw_call result _ ih =>
    apply follows_of_ready linked
    intro v' fs result'
    rw [result] at result'
    cases result'
    exact ih
  | nothing node _ ih =>
    apply follows_of_ready linked
    simp only [Ready, node]
    exact ih
  | exit node =>
    apply follows_of_ready linked
    simp only [Ready, node]
  | primitive_stop node result =>
    apply follows_of_ready linked
    simp only [Ready, node, result]
  | primitive_next node result _ ih =>
    apply follows_of_ready linked
    simp only [Ready, node, result]
    exact ih
  | primitive_call node result _ ih =>
    apply follows_of_ready linked
    simp only [Ready, node, result]
    exact ih
  | all node _ ih =>
    apply follows_of_ready linked
    simp only [Ready, node]
    exact ih
  | any node ess each ih =>
    apply follows_of_ready linked
    simp only [Ready, node]
    intro e mem
    obtain ⟨n, named⟩ := List.mem_iff_getElem?.mp mem
    exact ih n e named

/-- What a graph means the compiled function comes to with enough fuel, where the simulator has the frames and the
memory. -/
theorem compile_completes {loads : Chunk → Bool} {fuel : Nat} {root : Ref N} {f : Func} {s : Emitter N}
    (compiled : compile_node loads G fuel root .start = .ok (f, s)) (conts : Conts lib G s.Known M.stack bottom top ks)
    (fresh : Fresh M.sim) {es : List (Event V)} (means : Means lib G (root :: ks) M.sim.v es) :
    ∃ n, (∃ M', M'.log = M.log ++ es ∧ ∀ m ≥ n, run lib room s.targets m f bottom top M = .ok M') ∨
      (∀ m ≥ n, run lib room s.targets m f bottom top M = .error (.error "failed to allocate memory")) ∨
      ∀ m ≥ n, run lib room s.targets m f bottom top M = .error (.error "invalid frame") := by
  obtain ⟨impl, sound, total⟩ := compile_node_closed compiled
  have follows : Follows lib room s.targets G s.Known (root :: ks) M.sim.v := follows_of_means ⟨sound, total⟩ means
  obtain ⟨n, r, settled, const⟩ := follows.calls f bottom top M [root] ks rfl impl conts rfl fresh
  refine ⟨n, ?_⟩
  rcases settled with ⟨M', rfl⟩ | rfl | rfl
  · left
    obtain ⟨⟨es', means', log⟩, -, -⟩ := run_right sound n _ _ _ _ _ _ (.conts impl conts) (const n le_rfl)
    refine ⟨M', ?_, const⟩
    rw [log, means.unique means']
  · exact .inr (.inl const)
  · exact .inr (.inr const)

end Settle

namespace Optional

theorem graph_means : Means library graph [.node ⟨0, by decide⟩] start.sim.v
    [.primitive (.object 0) [] 0, .primitive (.object 1) [] 1, .primitive (.object 1) [] 0] := by
  have root : graph ⟨0, by decide⟩ = .all [.node ⟨1, by decide⟩, .node ⟨4, by decide⟩] := rfl
  have either : graph ⟨1, by decide⟩ = .any [.node ⟨2, by decide⟩, .node ⟨3, by decide⟩] := rfl
  have first : graph ⟨2, by decide⟩ = .primitive (.object 0) 0 [] := rfl
  have second : graph ⟨4, by decide⟩ = .primitive (.object 1) 0 [] := rfl
  have behind (v : Nat) : Means library graph [.node ⟨4, by decide⟩] v [.primitive (.object 1) [] v] :=
    .primitive_next second rfl .done
  apply Means.all root
  apply Means.any either fun n =>
    if n = 0 then [.primitive (.object 0) [] 0, .primitive (.object 1) [] 1] else [.primitive (.object 1) [] 0]
  intro n e named
  match n, named with
  | 0, rfl => exact .primitive_next first rfl (behind 1)
  | 1, rfl => exact .nothing rfl (behind 0)

theorem compile_completes_optional :
    ∃ n, (∃ M', M'.log = start.log ++ [.primitive (.object 0) [] 0, .primitive (.object 1) [] 1, .primitive (.object 1) [] 0] ∧
      ∀ m ≥ n, run library (fun _ => true) compiled.2.targets m compiled.1 4 4 start = .ok M') ∨
      (∀ m ≥ n, run library (fun _ => true) compiled.2.targets m compiled.1 4 4 start =
        .error (.error "failed to allocate memory")) ∨
      ∀ m ≥ n, run library (fun _ => true) compiled.2.targets m compiled.1 4 4 start = .error (.error "invalid frame") :=
  compile_completes compiled_eq start_conts ⟨rfl, rfl⟩ graph_means

end Optional

end M2.Control
