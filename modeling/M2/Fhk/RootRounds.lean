import M2.Fhk.Roots

/-!
# What the rounds go through

The entries of all requests stand in the order in which they were queued: first those that the rounds went
through, then those in the queue. A round takes the entries that are in the queue at its start, and each of
its loops goes through them before the next one starts.
-/
namespace M2.Fhk

open M2.Mem (Word Bytes)
open M2.Lib

namespace RootSolver
variable {vars : Nat → RootVar} {S S' : RootSolver}

/-! ## The schedule -/

/-- Two entries, the first of which comes before the other, lie apart. -/
def Apart (vars : Nat → RootVar) (r s : RootV) : Prop :=
  r.buf.1 ≠ s.buf.1 ∨ r.buf.2 + (r.stop - r.inst) * (vars r.xi).size ≤ s.buf.2

theorem requested_apart (requests : List Request) : (requested vars requests).Pairwise (Apart vars) := by
  induction requests using List.reverseRecOn with
  | nil => exact List.Pairwise.nil
  | append_singleton requests q ih =>
    rw [requested_snoc, List.pairwise_append]
    refine ⟨ih, ?_, fun r earlier s later => .inl ?_⟩
    · apply (runEntries_apart 0 q.runs).imp_of_mem
      intro r s r_mem _ behind
      rw [Apart, (mem_runEntries r_mem).2.1]
      exact .inr behind
    · obtain ⟨k, q', there, entry⟩ := mem_requested earlier
      have lt := (List.getElem?_eq_some_iff.mp there).1
      rw [(mem_runEntries entry).1, (mem_runEntries later).1]
      intro same
      exact absurd (Obj.root.inj same) lt.ne

theorem Owned.nonempty (owned : S.Owned) {r : RootV} (asked : r ∈ requested vars S.requests) : r.inst < r.stop := by
  obtain ⟨k, q, there, entry⟩ := mem_requested asked
  obtain ⟨run, mem, inst, stop⟩ := runEntries_run entry
  have le := (owned.holds q (List.mem_of_getElem? there)).maximal.le run mem
  omega

variable {rs : List RootV} {pos : Phase → Nat}

/-- The queue and what the rounds have gone through are the same. -/
structure SameRounds (S S' : RootSolver) : Prop where
  queue : S'.queue = S.queue
  num : S'.num = S.num
  roots : S'.roots = S.roots
  requests : S'.requests = S.requests
  seen : S'.seen = S.seen
  rounds : S'.rounds = S.rounds

/-- The roots that are collected. -/
def collected (S : RootSolver) : List RootV := S.rounds.flatMap (fun round => round .collect) ++ S.seen .collect

theorem Scheduled.keep (sched : S.Scheduled vars rs pos) (same : SameRounds S S')
    (valued : ∀ r, S.Valued r → S'.Valued r)
    (delivered : ∀ r ∈ S.collected, S.Delivered vars r → S'.Delivered vars r) : S'.Scheduled vars rs pos where
  queue := same.queue ▸ sched.queue
  account ph := by
    rw [same.rounds, same.requests]
    exact sched.account ph
  num := same.num ▸ sched.num
  roots := by
    rw [same.queue, same.roots]
    exact sched.roots
  root i lt := by
    rw [RootSolver.root, same.queue, same.roots]
    exact sched.root i (same.num ▸ lt)
  pos_le ph := same.num ▸ sched.pos_le ph
  seen ph := by
    rw [same.seen]
    exact sched.seen ph
  processed ph r mem := by
    rw [same.seen] at mem
    have processed := sched.processed ph r mem
    cases ph with
    | given => exact fun given => valued r (processed given)
    | solve => trivial
    | compute => exact fun computed => valued r (processed computed)
    | collect => exact delivered r (List.mem_append_right _ mem) processed
  delivered round mem r there := by
    rw [same.rounds] at mem
    apply delivered r (List.mem_append_left _ (List.mem_flatMap.mpr ⟨round, mem, there⟩))
    exact sched.delivered round mem r there

/-- What is collected has been asked for, and so are the entries of the queue. -/
theorem Scheduled.collected_sub (sched : S.Scheduled vars rs pos) {r : RootV} (mem : r ∈ S.collected) :
    r ∈ requested vars S.requests := by
  rw [← sched.account .collect]
  rcases List.mem_append.mp mem with mem | mem
  · exact List.mem_append_left _ mem
  · rw [sched.seen] at mem
    exact List.mem_append_right _ (List.mem_of_mem_take mem)

theorem Scheduled.entry_sub (sched : S.Scheduled vars rs pos) {r : RootV} (mem : r ∈ rs) : r ∈ requested vars S.requests := by
  rw [← sched.account .collect]
  exact List.mem_append_right _ mem

/-- What is collected lies apart from the next root. -/
theorem Scheduled.apart (sched : S.Scheduled vars rs pos) {i : Nat} (at' : pos .collect = i) {r : RootV} (next : rs[i]? = some r)
    {r' : RootV} (mem : r' ∈ S.collected) : Apart vars r' r := by
  have pairwise : (requested vars S.requests).Pairwise (Apart vars) := requested_apart S.requests
  obtain ⟨lt, here⟩ := List.getElem?_eq_some_iff.mp next
  rw [← sched.account .collect, ← List.take_append_drop i rs, List.drop_eq_getElem_cons lt, here, ← List.append_assoc,
    ← at', ← sched.seen .collect, List.pairwise_append] at pairwise
  exact pairwise.2.2 r' mem r List.mem_cons_self

/-- The loop of a phase has gone through one more root. -/
theorem Scheduled.see (sched : S.Scheduled vars rs pos) {ph : Phase} {i : Nat} (at' : pos ph = i) (lt : i < S.num)
    (processed : S.Processed vars ph (S.root i)) : (S.see ph i).Scheduled vars rs (Function.update pos ph (i + 1)) where
  queue := sched.queue
  account := sched.account
  num := sched.num
  roots := sched.roots
  root := sched.root
  pos_le ph' := by
    by_cases same : ph' = ph
    · rw [same, Function.update_self]
      exact lt
    · rw [Function.update_of_ne same]
      exact sched.pos_le ph'
  seen ph' := by
    simp only [RootSolver.see]
    by_cases same : ph' = ph
    · rw [same, Function.update_self, Function.update_self, sched.seen, at', List.take_add_one, sched.root i lt]
      rfl
    · rw [Function.update_of_ne same, Function.update_of_ne same]
      exact sched.seen ph'
  processed ph' r mem := by
    simp only [RootSolver.see] at mem
    by_cases same : ph' = ph
    · subst same
      rw [Function.update_self] at mem
      rcases List.mem_append.mp mem with mem | mem
      · exact sched.processed ph' r mem
      · rw [List.mem_singleton.mp mem]
        exact processed
    · rw [Function.update_of_ne same] at mem
      exact sched.processed ph' r mem
  delivered := sched.delivered

theorem Owned.of_values (owned : S.Owned) (s_value : S'.s_value = S.s_value) (has : S'.has = S.has)
    (requests : S'.requests = S.requests) (kmap : S'.kmap = S.kmap) : S'.Owned where
  owner := by
    rw [s_value, requests]
    exact owned.owner
  stored := by
    rw [s_value, has]
    exact owned.stored
  holds := by
    rw [requests]
    exact owned.holds
  space := by
    rw [kmap]
    exact owned.space

/-- The loop of a phase starts at a root. -/
theorem Inv.goto (owned : S.Owned) (sched : S.Scheduled vars rs pos) {ph : Phase} {i : Nat} (lt : i < S.num)
    (passed : (S.goto ph i).passed = pos) : (S.goto ph i).Inv vars rs where
  owned := owned.of_values rfl rfl rfl rfl
  scheduled := passed ▸ sched.keep ⟨rfl, rfl, rfl, rfl, rfl, rfl⟩ (fun _ valued => valued) fun _ _ delivered => delivered
  at' := ⟨lt, fun _ _ _ ge below => absurd ge (not_le.mpr below)⟩

/-- The start of a round. -/
theorem Inv.top (owned : S.Owned) (sched : S.Scheduled vars rs fun _ => 0) : S.top.Inv vars rs := by
  have num := sched.queue.num
  unfold RootSolver.top
  split
  · constructor
    · exact owned.of_values rfl rfl rfl rfl
    · exact sched.keep ⟨rfl, rfl, rfl, rfl, rfl, rfl⟩ (fun _ valued => valued) fun _ _ delivered => delivered
    · trivial
  · rename_i nonempty
    have start : RootSolver.passed { S with pc := .loop .given 0 0, num := S.queue.r_num, roots := S.queue.r_buf } = fun _ => 0 := by
      funext ph
      cases ph <;> rfl
    constructor
    · exact owned.of_values rfl rfl rfl rfl
    · rw [start]
      constructor
      · exact sched.queue
      · exact sched.account
      · exact num.le
      · exact sched.queue.buf_lt
      · intro i lt
        have within : i < rs.length := num ▸ lt
        rw [List.getElem?_eq_getElem within]
        exact congrArg some (sched.queue.cells i _ (List.getElem?_eq_getElem within)).symm
      · exact fun ph => Nat.zero_le _
      · exact sched.seen
      · exact sched.processed
      · exact sched.delivered
    · exact ⟨Nat.pos_of_ne_zero nonempty, fun other => by cases other⟩

/-- The end of a round whose loops have gone through all of its roots: it is defined where what is moved does not
overlap with where it is moved to. -/
theorem Inv.finish (owned : S.Owned) (sched : S.Scheduled vars rs fun _ => S.num) (room : S.queue.r_num - S.num ≤ S.num) :
    ∃ S', S.finish = some S' ∧ S'.Inv vars (rs.drop S.num) := by
  refine ⟨_, if_pos room, ?_⟩
  apply Inv.top
  · exact owned.of_values rfl rfl rfl rfl
  · constructor
    · exact sched.queue.shift S.num
    · intro ph
      rw [List.flatMap_append, List.flatMap_singleton, sched.seen, List.append_assoc, List.take_append_drop]
      exact sched.account ph
    · exact Nat.zero_le _
    · exact sched.roots
    · exact fun i lt => absurd lt (Nat.not_lt_zero i)
    · exact fun ph => le_rfl
    · exact fun ph => rfl
    · exact fun ph r mem => absurd mem List.not_mem_nil
    · intro round mem r there
      rcases List.mem_append.mp mem with mem | mem
      · exact sched.delivered round mem r there
      · rw [List.mem_singleton.mp mem] at there
        exact sched.processed .collect r there

/-- The loops of the later phases have not started. -/
theorem passed_loop {ph : Phase} {i inst : Nat} (pc : S.pc = .loop ph i inst) (ph' : Phase) :
    S.passed ph' = if ph'.rank < ph.rank then S.num else if ph' = ph then i else 0 := by
  rw [passed, pc]

theorem rank_inj {ph ph' : Phase} (same : ph.rank = ph'.rank) : ph = ph' := by
  cases ph <;> cases ph' <;> first | rfl | cases same

section Next
variable {ph : Phase} {i inst : Nat}

/-- What the loops have gone through after one more root. -/
theorem passed_see (pc : S.pc = .loop ph i inst) (ph' : Phase) : Function.update S.passed ph (i + 1) ph' =
    if ph'.rank < ph.rank then S.num else if ph' = ph then i + 1 else 0 := by
  by_cases same : ph' = ph
  · rw [same, Function.update_self, if_neg (lt_irrefl _), if_pos rfl]
  · rw [Function.update_of_ne same, passed_loop pc, if_neg same, if_neg same]

theorem passed_goto (pc : S.pc = .loop ph i inst) : ((S.see ph i).goto ph (i + 1)).passed = Function.update S.passed ph (i + 1) := by
  funext ph'
  rw [passed_see pc, passed_loop rfl]
  rfl

/-- The next phase starts where the one before it ends. -/
theorem passed_phase (pc : S.pc = .loop ph i inst) (last : i + 1 = S.num) {ph' : Phase} (rank : ph'.rank = ph.rank + 1) :
    ((S.see ph i).goto ph' 0).passed = Function.update S.passed ph (i + 1) := by
  funext ph''
  rw [passed_see pc, passed_loop rfl, ite_self, rank, last]
  change (if ph''.rank < ph.rank + 1 then S.num else 0) = _
  by_cases same : ph'' = ph
  · rw [same, if_pos (Nat.lt_succ_self _), if_neg (lt_irrefl _), if_pos rfl]
  · have differ : ph''.rank ≠ ph.rank := fun eq => same (rank_inj eq)
    rw [if_neg same]
    by_cases earlier : ph''.rank < ph.rank
    · rw [if_pos earlier, if_pos (by omega)]
    · rw [if_neg earlier, if_neg (by omega)]

/-- After the last root of the last phase, all of them have gone through the round. -/
theorem passed_finish (pc : S.pc = .loop .collect i inst) (last : i + 1 = S.num) :
    Function.update S.passed .collect (i + 1) = fun _ => S.num := by
  funext ph
  rw [passed_see pc, last]
  cases ph <;> rfl

/-- The solver goes on to the next root, unless this is the last one of the round and more roots are left than it had. -/
theorem Inv.next (owned : S.Owned) (sched : S.Scheduled vars rs S.passed) (pc : S.pc = .loop ph i inst) (lt : i < S.num)
    (processed : S.Processed vars ph (S.root i))
    (room : ph = .collect → i + 1 = S.num → S.queue.r_num - S.num ≤ S.num) :
    ∃ S' rs', S.next ph i = some S' ∧ S'.Inv vars rs' := by
  have here : S.passed ph = i := by
    rw [passed_loop pc, if_neg (lt_irrefl _), if_pos rfl]
  have seen := sched.see here lt processed
  have owned : (S.see ph i).Owned := owned.of_values rfl rfl rfl rfl
  unfold RootSolver.next
  by_cases more : i + 1 < S.num
  · exact ⟨_, rs, if_pos more, .goto owned seen more (passed_goto pc)⟩
  have last : i + 1 = S.num := le_antisymm lt (not_lt.mp more)
  have pos : 0 < S.num := by omega
  rw [if_neg more]
  cases ph with
  | given => exact ⟨_, rs, rfl, .goto owned seen pos (passed_phase pc last rfl)⟩
  | solve => exact ⟨_, rs, rfl, .goto owned seen pos (passed_phase pc last rfl)⟩
  | compute => exact ⟨_, rs, rfl, .goto owned seen pos (passed_phase pc last rfl)⟩
  | collect =>
    rw [passed_finish pc last] at seen
    obtain ⟨S', finished, inv⟩ := Inv.finish owned seen (room rfl last)
    exact ⟨S', _, finished, inv⟩

theorem next_none (last : i + 1 = S.num) (beyond : S.num < S.queue.r_num - S.num) : S.next .collect i = none := by
  unfold RootSolver.next
  rw [if_neg (show ¬ i + 1 < S.num by omega)]
  exact if_neg (not_le.mpr beyond)

end Next

/-! ## Acts -/

theorem AtLoop.keep (at' : S.AtLoop) (pc : S'.pc = S.pc) (num : S'.num = S.num) (root : ∀ i < S.num, S'.root i = S.root i)
    (has : ∀ xi i, S.has xi i = true → S'.has xi i = true) : S'.AtLoop := by
  unfold AtLoop at at' ⊢
  rw [pc]
  split
  · rename_i ph i inst loop
    rw [loop] at at'
    obtain ⟨lt, partly⟩ := at'
    rw [root i lt, num]
    exact ⟨lt, fun compute computed j ge below => has _ j (partly compute computed j ge below)⟩
  · trivial

theorem Inv.setroot (inv : S.Inv vars rs) {q : Request} (holds : Holds q.mem q.ss q.runs)
    (room : S.queue.r_num + q.runs.length ≤ 2 ^ 15) :
    ∃ S', S.act vars (.setroot q) = some S' ∧ S'.Inv vars (rs ++ q.entries vars S.requests.length) := by
  have sched := inv.scheduled
  have fits : rs.length + (q.entries vars S.requests.length).length ≤ 2 ^ 15 := by
    rw [Request.entries, runEntries_length, ← sched.queue.num]
    exact room
  obtain ⟨queue, queued, sound, keeps⟩ := sched.queue.enqueueAll _ fits
  have taken : S.act vars (.setroot q) = some (S.asked vars q queue) := by
    rw [act_setroot holds, queued, Option.map_some]
  have root : ∀ i < S.num, (S.asked vars q queue).root i = S.root i := by
    intro i lt
    have num := sched.queue.num
    have := sched.num
    exact keeps.cell S.roots sched.roots i (by omega)
  have passed : (S.asked vars q queue).passed = S.passed := rfl
  refine ⟨_, taken, inv.owned.asked holds queue, ?_, ?_⟩
  · rw [passed]
    constructor
    · exact sound
    · intro ph
      change _ = requested vars (S.requests ++ [q])
      rw [requested_snoc, ← sched.account ph, List.append_assoc]
      rfl
    · rw [List.length_append]
      exact sched.num.trans (Nat.le_add_right _ _)
    · exact sched.roots.trans_le keeps.arrays
    · intro i lt
      rw [root i lt, List.getElem?_append_left (lt.trans_le sched.num)]
      exact sched.root i lt
    · exact sched.pos_le
    · intro ph
      rw [List.take_append_of_le_length ((sched.pos_le ph).trans sched.num)]
      exact sched.seen ph
    · intro ph r mem
      have processed := sched.processed ph r mem
      cases ph with
      | given => exact processed
      | solve => trivial
      | compute => exact processed
      | collect => exact processed.asked
    · exact fun round mem r there => (sched.delivered round mem r there).asked
  · exact inv.at'.keep rfl rfl root fun _ _ has => has

theorem Inv.store (inv : S.Inv vars rs) {xi inst : Nat} (fresh : S.has xi inst = false) (value : Bytes) :
    (S.store vars xi inst value).Inv vars rs where
  owned := inv.owned.store
  scheduled := inv.scheduled.keep ⟨rfl, rfl, rfl, rfl, rfl, rfl⟩ (fun _ valued => valued.store)
    fun _ mem delivered => delivered.store inv.owned fresh (inv.scheduled.collected_sub mem)
  at' := inv.at'.keep rfl rfl (fun _ _ => rfl) fun _ _ has => has_store_of_has has

theorem Inv.exit (inv : S.Inv vars rs) : S.exit.Inv vars rs where
  owned := inv.owned.of_values rfl rfl rfl rfl
  scheduled := {
    queue := inv.scheduled.queue
    account := inv.scheduled.account
    num := inv.scheduled.num
    roots := inv.scheduled.roots
    root := inv.scheduled.root
    pos_le := fun _ => Nat.zero_le _
    seen := fun _ => rfl
    processed := fun _ _ mem => absurd mem List.not_mem_nil
    delivered := inv.scheduled.delivered }
  at' := trivial

theorem Inv.setshape (inv : S.Inv vars rs) (group : Nat) (shape : BitVec 16) : (S.setshape group shape).Inv vars rs := by
  unfold RootSolver.setshape
  split
  · exact inv.exit
  split
  · exact inv.exit
  · rename_i ss set _
    constructor
    · constructor
      · exact inv.owned.owner
      · exact inv.owned.stored
      · exact inv.owned.holds
      · intro g
        by_cases here : g = group
        · subst here
          simp only [Function.update_self]
          exact .inr (space_first shape set)
        · simp only [Function.update_of_ne here]
          exact inv.owned.space g
    · exact inv.scheduled.keep ⟨rfl, rfl, rfl, rfl, rfl, rfl⟩ (fun _ valued => valued) fun _ _ delivered => delivered
    · exact inv.at'.keep rfl rfl (fun _ _ => rfl) fun _ _ has => has

section Advance
variable {ph : Phase} {i inst : Nat}

/-- The root of a loop, in the queue and among the requests. -/
theorem Inv.asked (inv : S.Inv vars rs) (pc : S.pc = .loop ph i inst) :
    i < S.num ∧ S.root i ∈ requested vars S.requests := by
  have at' := inv.at'
  unfold AtLoop at at'
  rw [pc] at at'
  exact ⟨at'.1, inv.scheduled.entry_sub (List.mem_of_getElem? (inv.scheduled.root i at'.1))⟩

/-- The loops over instances. -/
theorem Inv.advance_inst (inv : S.Inv vars rs) (pc : S.pc = .loop ph i inst) (loops : ph = .solve ∨ ph = .compute)
    (here : ph = .compute → (S.root i).given = false → S.has (S.root i).xi inst = true) :
    ∃ S' rs', (if (S.root i).given = false ∧ inst + 1 < (S.root i).stop then some { S with pc := .loop ph i (inst + 1) }
      else S.next ph i) = some S' ∧ S'.Inv vars rs' := by
  have at' := inv.at'
  unfold AtLoop at at'
  rw [pc] at at'
  obtain ⟨lt, partly⟩ := at'
  have through : ph = .compute → (S.root i).given = false → ∀ j, (S.root i).inst ≤ j → j < inst + 1 →
      S.has (S.root i).xi j = true := by
    intro compute computed j ge below
    obtain earlier | same := Nat.lt_succ_iff_lt_or_eq.mp below
    · exact partly compute computed j ge earlier
    · rw [same]
      exact here compute computed
  split
  · have passed : RootSolver.passed { S with pc := .loop ph i (inst + 1) } = S.passed := by
      funext ph'
      rw [passed_loop pc, passed_loop rfl]
    refine ⟨_, rs, rfl, inv.owned.of_values rfl rfl rfl rfl, ?_, lt, through⟩
    rw [passed]
    exact inv.scheduled.keep ⟨rfl, rfl, rfl, rfl, rfl, rfl⟩ (fun _ valued => valued) fun _ _ delivered => delivered
  · rename_i last
    apply Inv.next inv.owned inv.scheduled pc lt
    · obtain rfl | rfl := loops
      · trivial
      · intro computed j ge below
        have stop : (S.root i).stop ≤ inst + 1 := not_lt.mp fun more => last ⟨computed, more⟩
        exact through rfl computed j ge (below.trans_le stop)
    · rintro rfl
      obtain other | other := loops <;> cases other

/-- The values of a root are there where it is collected. -/
theorem Inv.valued (inv : S.Inv vars rs) (pc : S.pc = .loop .collect i inst) : S.Valued (S.root i) := by
  obtain ⟨lt, -⟩ := inv.asked pc
  have sched := inv.scheduled
  have within (ph : Phase) (before : ph.rank < Phase.collect.rank) : S.root i ∈ S.seen ph := by
    rw [sched.seen, passed_loop pc, if_pos before]
    apply List.mem_of_getElem? (i := i)
    rw [List.getElem?_take_of_lt lt]
    exact sched.root i lt
  cases given : (S.root i).given with
  | true => exact sched.processed .given _ (within .given (by decide)) given
  | false => exact sched.processed .compute _ (within .compute (by decide)) given

/-- A root is collected, and the solver goes on. -/
theorem Inv.collect (inv : S.Inv vars rs) (pc : S.pc = .loop .collect i inst) :
    ∃ mem, S.collect vars i = some (S.setMem mem) ∧ (S.setMem mem).Owned ∧
      (S.setMem mem).Scheduled vars rs (S.setMem mem).passed ∧ (S.setMem mem).Delivered vars (S.root i) := by
  obtain ⟨lt, asked⟩ := inv.asked pc
  have sched := inv.scheduled
  have here : S.passed .collect = i := by
    rw [passed_loop pc, if_neg (lt_irrefl _), if_pos rfl]
  obtain ⟨mem, taken, delivered, before⟩ := inv.owned.collect rfl asked (inv.owned.nonempty asked) (inv.valued pc)
  refine ⟨mem, taken, inv.owned.of_values rfl rfl rfl rfl, ?_, delivered⟩
  exact sched.keep ⟨rfl, rfl, rfl, rfl, rfl, rfl⟩ (fun _ valued => valued) fun r there old =>
    before r old (sched.apart here (sched.root i lt) there)

theorem Inv.advance (inv : S.Inv vars rs) (allowed : S.Allowed .advance) (careful : S.Careful .advance) :
    ∃ S' rs', S.advance vars = some S' ∧ S'.Inv vars rs' := by
  have sched := inv.scheduled
  unfold Allowed at allowed
  unfold Careful at careful
  cases pc : S.pc with
  | ok =>
    have start : S.passed = fun _ => 0 := by
      funext ph
      rw [passed, pc]
    rw [start] at sched
    rw [RootSolver.advance, pc]
    exact ⟨_, rs, rfl, .top inv.owned sched⟩
  | error =>
    rw [pc] at allowed
    exact allowed.elim
  | loop ph i inst =>
    obtain ⟨lt, -⟩ := inv.asked pc
    rw [pc] at allowed careful
    rw [RootSolver.advance, pc]
    cases ph with
    | given => exact Inv.next inv.owned sched pc lt allowed fun other => by cases other
    | solve => exact inv.advance_inst pc (.inl rfl) fun other => by cases other
    | compute => exact inv.advance_inst pc (.inr rfl) fun _ => allowed
    | collect =>
      obtain ⟨mem, taken, owned, sched, delivered⟩ := inv.collect pc
      simp only
      rw [taken, Option.bind_some]
      exact Inv.next owned sched pc lt delivered fun _ => careful

/-- Where the queue has more roots left than the round had, the end of the round is undefined. -/
theorem Inv.advance_none (inv : S.Inv vars rs) (careless : ¬ S.Careful .advance) : S.advance vars = none := by
  unfold Careful at careless
  cases pc : S.pc with
  | ok => exact absurd (by rw [pc]; trivial) careless
  | error => exact absurd (by rw [pc]; trivial) careless
  | loop ph i inst =>
    rw [pc] at careless
    cases ph with
    | given => exact absurd trivial careless
    | solve => exact absurd trivial careless
    | compute => exact absurd trivial careless
    | collect =>
      simp only [Classical.not_imp, not_le] at careless
      obtain ⟨last, beyond⟩ := careless
      obtain ⟨mem, taken, -⟩ := inv.collect pc
      rw [RootSolver.advance, pc]
      simp only
      rw [taken, Option.bind_some]
      exact next_none last beyond

end Advance

/-- An act that is careful keeps the invariant. -/
theorem Inv.act (inv : S.Inv vars rs) {a : RootAct} (allowed : S.Allowed a) (careful : S.Careful a) :
    ∃ S' rs', S.act vars a = some S' ∧ S'.Inv vars rs' := by
  cases a with
  | setroot q =>
    obtain ⟨S', taken, inv'⟩ := inv.setroot allowed.2 careful
    exact ⟨S', _, taken, inv'⟩
  | setshape group shape => exact ⟨_, rs, rfl, inv.setshape group shape⟩
  | store xi inst value => exact ⟨_, rs, rfl, inv.store allowed.2 value⟩
  | advance => exact inv.advance allowed careful
  | exit => exact ⟨_, rs, rfl, inv.exit⟩

/-- One that is not careful is undefined. -/
theorem Inv.act_none (inv : S.Inv vars rs) {a : RootAct} (allowed : S.Allowed a) (careless : ¬ S.Careful a) :
    S.act vars a = none := by
  cases a with
  | setroot q =>
    have beyond := not_le.mp careless
    rw [act_setroot allowed.2, inv.scheduled.queue.enqueueAll_none, Option.map_none]
    rw [Request.entries, runEntries_length, ← inv.scheduled.queue.num]
    exact beyond
  | setshape group shape => exact absurd trivial careless
  | store xi inst value => exact absurd trivial careless
  | advance => exact inv.advance_none careless
  | exit => exact absurd trivial careless

theorem Inv.create (cell : Nat → Nat → RootV) (mem : Obj → Bytes) : (RootSolver.create cell mem).Inv vars [] := by
  constructor
  · constructor
    · exact fun _ _ none => by cases none
    · exact fun _ _ none => by cases none
    · exact fun _ none => absurd none List.not_mem_nil
    · exact fun _ => .inl rfl
  · constructor
    · exact ⟨⟨0, Nat.zero_le _, rfl⟩, rfl, rfl, Nat.zero_le _, fun _ _ none => by cases none⟩
    · exact fun _ => rfl
    · exact Nat.zero_le _
    · exact Nat.one_pos
    · exact fun i lt => absurd lt (Nat.not_lt_zero i)
    · exact fun _ => le_rfl
    · exact fun _ => rfl
    · exact fun _ _ none => absurd none List.not_mem_nil
    · exact fun _ none => absurd none List.not_mem_nil
  · trivial

/-- The invariant holds in every run. -/
theorem inv_of_run (run : RootRun vars S) : ∃ rs, S.Inv vars rs := by
  induction run with
  | create cell mem => exact ⟨[], .create cell mem⟩
  | act _ a allowed careful taken ih =>
    obtain ⟨rs, inv⟩ := ih
    obtain ⟨S', rs', taken', inv'⟩ := inv.act allowed careful
    rw [taken] at taken'
    exact ⟨rs', Option.some.inj taken' ▸ inv'⟩

/-! ## Answers -/

/-- The values of runs whose roots are delivered lie one behind the other. -/
theorem delivered_runs {buf : Obj} {xi off : Nat} {runs : List (Nat × Nat)}
    (all : ∀ r ∈ runEntries buf xi (vars xi) off runs, S.Delivered vars r) {j i : Nat}
    (there : (runs.flatMap Runs.insts)[j]? = some i) : ∃ o, S.s_value xi = some o ∧ S.has xi i = true ∧
      ∀ b < (vars xi).size, S.mem buf (off + (j * (vars xi).size + b)) = S.mem o (i * (vars xi).size + b) := by
  induction runs generalizing off j with
  | nil => cases there
  | cons r runs ih =>
    rw [List.flatMap_cons, List.getElem?_append, Runs.insts_length] at there
    rw [runEntries] at all
    split at there
    · rename_i within
      rw [Runs.insts, List.getElem?_range' within, Nat.one_mul] at there
      have inst : r.1 + j = i := Option.some.inj there
      obtain ⟨o, buffer, values⟩ := all _ List.mem_cons_self
      obtain ⟨has, bytes⟩ := values i (by simp only; omega) (by simp only; omega)
      refine ⟨o, buffer, has, fun b byte => ?_⟩
      rw [← bytes b byte, ← inst]
      simp only
      rw [Nat.add_sub_cancel_left]
    · rename_i beyond
      obtain ⟨o, buffer, has, bytes⟩ := ih (fun r mem => all r (List.mem_cons_of_mem _ mem)) there
      refine ⟨o, buffer, has, fun b byte => ?_⟩
      rw [← bytes b byte]
      congr 1
      have split_j : (r.2 + 1 - r.1) * (vars xi).size + (j - (r.2 + 1 - r.1)) * (vars xi).size = j * (vars xi).size := by
        rw [← Nat.add_mul, Nat.add_sub_cancel' (not_lt.mp beyond)]
      omega

/-- Where nothing is left in the queue, every request is answered. -/
theorem Inv.answered (inv : S.Inv vars rs) (done : S.queue.r_num = 0) {k : Nat} {q : Request}
    (there : S.requests[k]? = some q) : S.Answered vars k q := by
  have empty : rs = [] := List.length_eq_zero_iff.mp (inv.scheduled.queue.num.symm.trans done)
  have account := inv.scheduled.account .collect
  rw [empty, List.append_nil] at account
  have delivered : ∀ r ∈ runEntries (.root k) q.xi (vars q.xi) 0 q.runs, S.Delivered vars r := by
    intro r mem
    have asked : r ∈ requested vars S.requests :=
      List.mem_flatMap.mpr ⟨(q, k), List.mem_zipIdx_iff_getElem?.mpr there, mem⟩
    rw [← account] at asked
    obtain ⟨round, gone, within⟩ := List.mem_flatMap.mp asked
    exact inv.scheduled.delivered round gone r within
  constructor
  · exact (inv.owned.holds q (List.mem_of_getElem? there)).maximal.sorted
  · intro j i at_j
    have values := delivered_runs delivered at_j
    simp only [Nat.zero_add] at values
    exact values

end RootSolver

/-- In every run of careful acts, each loop of `S_solve` goes through the entries of all requests exactly once and in
their order, those in the queue being left; at `FHK_OK` every request is answered; and exactly the careful acts are
defined. -/
theorem root_queue (vars : Nat → RootVar) (S : RootSolver) (run : RootRun vars S) :
    (∀ ph, S.rounds.flatMap (fun round => round ph) ++ S.queue.entries = requested vars S.requests) ∧
      (S.pc = .ok → S.queue.r_num = 0 → ∀ k q, S.requests[k]? = some q → S.Answered vars k q) ∧
        ∀ a, S.Allowed a → ((S.act vars a).isSome ↔ S.Careful a) := by
  obtain ⟨rs, inv⟩ := RootSolver.inv_of_run run
  refine ⟨fun ph => ?_, fun _ done k q there => inv.answered done there, fun a allowed => ⟨fun some => ?_, fun careful => ?_⟩⟩
  · rw [inv.scheduled.queue.entries]
    exact inv.scheduled.account ph
  · by_contra careless
    rw [inv.act_none allowed careless] at some
    cases some
  · obtain ⟨S', rs', taken, -⟩ := inv.act allowed careful
    rw [taken]
    rfl

/-! ## Roots that are added in a round -/

namespace TwoMore

def vars : Nat → RootVar := fun _ => ⟨0, 1, false⟩

/-- The first instance of a variable. -/
def q : Request := ⟨fun _ => none, 0, unit 0, [(0, 0)]⟩

theorem holds : Holds q.mem q.ss q.runs := by
  have interval : Holds q.mem q.ss _ := .interval q.ss (by decide +kernel) (by decide +kernel) (by decide +kernel)
  have first : PK_FIRST (q.ss.setWidth 32) = 0 := by decide +kernel
  have n1 : PK_N1 (q.ss.setWidth 32) = 1 := by decide +kernel
  rw [first, n1] at interval
  exact interval

def start : RootSolver := .create (fun _ _ => ⟨(.own 0, 0), 0, 0, 0, false⟩) fun _ _ => 0

/-- The solver after some acts. -/
def after (acts : List RootAct) : RootSolver := (acts.foldlM (RootSolver.act vars) start).getD start

/-- One root is asked for, and the round starts. -/
def begun : List RootAct := [.setroot q, .advance, .advance]

/-- Two more are asked for while it is solved. -/
def more : List RootAct := begun ++ [.setroot q, .setroot q]

/-- The value is computed. -/
def computed : List RootAct := [.advance, .store 0 0 fun _ => 7, .advance]

theorem run_begun : RootRun vars (after begun) := by
  have asked : RootRun vars (after [.setroot q]) :=
    .act (S := start) (.create _ _) (.setroot q) ⟨trivial, holds⟩ (show 0 + 1 ≤ 2 ^ 15 by decide) rfl
  have started : RootRun vars (after [.setroot q, .advance]) := .act asked .advance trivial trivial rfl
  exact .act started .advance (fun given => by cases given) trivial rfl

theorem run_more : RootRun vars (after more) := by
  have second : RootRun vars (after (begun ++ [.setroot q])) :=
    .act run_begun (.setroot q) ⟨trivial, holds⟩ (show 1 + 1 ≤ 2 ^ 15 by decide) rfl
  exact .act second (.setroot q) ⟨trivial, holds⟩ (show 2 + 1 ≤ 2 ^ 15 by decide) rfl

theorem run_computed {acts : List RootAct} (run : RootRun vars (after acts)) (same : acts = begun ∨ acts = more) :
    RootRun vars (after (acts ++ computed)) := by
  obtain rfl | rfl := same
  · have solved : RootRun vars (after (begun ++ [.advance])) := .act run .advance trivial trivial rfl
    have stored : RootRun vars (after (begun ++ [.advance, .store 0 0 fun _ => 7])) :=
      .act solved (.store 0 0 fun _ => 7) ⟨trivial, rfl⟩ trivial rfl
    exact .act stored .advance (fun _ => rfl) trivial rfl
  · have solved : RootRun vars (after (more ++ [.advance])) := .act run .advance trivial trivial rfl
    have stored : RootRun vars (after (more ++ [.advance, .store 0 0 fun _ => 7])) :=
      .act solved (.store 0 0 fun _ => 7) ⟨trivial, rfl⟩ trivial rfl
    exact .act stored .advance (fun _ => rfl) trivial rfl

/-- Before the solver starts, the queue takes in `2^15` intervals. -/
theorem filled (n : Nat) (le : n ≤ 2 ^ 15) : ∃ S, RootRun vars S ∧ S.pc = .ok ∧ S.queue.r_num = n := by
  induction n with
  | zero => exact ⟨start, .create _ _, rfl, rfl⟩
  | succ n ih =>
    obtain ⟨S, run, pc, num⟩ := ih (Nat.le_of_succ_le le)
    have suspended : S.Suspended := by
      unfold RootSolver.Suspended
      rw [pc]
      trivial
    have careful : S.queue.r_num + 1 ≤ 2 ^ 15 := by
      rw [num]
      exact le
    obtain ⟨rs, inv⟩ := RootSolver.inv_of_run run
    obtain ⟨S', taken, inv'⟩ := inv.setroot holds careful
    have same : S'.pc = S.pc := by
      rw [RootSolver.act_setroot holds] at taken
      obtain ⟨queue, -, rfl⟩ := Option.map_eq_some_iff.mp taken
      rfl
    refine ⟨S', .act run (.setroot q) ⟨suspended, holds⟩ careful taken, same.trans pc, ?_⟩
    rw [inv'.scheduled.queue.num, List.length_append, ← inv.scheduled.queue.num, num]
    rfl

/-- Without the two, the round ends, and the solver yields. -/
theorem run_yielded : RootRun vars (after (begun ++ computed ++ [.advance])) :=
  .act (run_computed run_begun (.inl rfl)) .advance trivial (fun _ => Nat.zero_le _) rfl

end TwoMore

/-- The one root is answered. -/
theorem root_queue_one : (TwoMore.after (TwoMore.begun ++ TwoMore.computed ++ [.advance])).Answered TwoMore.vars 0 TwoMore.q :=
  (root_queue TwoMore.vars _ TwoMore.run_yielded).2.1 rfl rfl 0 TwoMore.q rfl

/-- With the two added, the end of the round is undefined: the entries that are moved overlap with where they are
moved to. And so is the request of one more interval than `2^15`. -/
theorem root_queue_twoMore :
    (RootRun TwoMore.vars (TwoMore.after (TwoMore.more ++ TwoMore.computed)) ∧
      (TwoMore.after (TwoMore.more ++ TwoMore.computed)).Allowed .advance ∧
        (TwoMore.after (TwoMore.more ++ TwoMore.computed)).act TwoMore.vars .advance = none) ∧
      ∃ S, RootRun TwoMore.vars S ∧ S.Allowed (.setroot TwoMore.q) ∧ S.act TwoMore.vars (.setroot TwoMore.q) = none := by
  obtain ⟨S, run, pc, num⟩ := TwoMore.filled (2 ^ 15) le_rfl
  have allowed : S.Allowed (.setroot TwoMore.q) := by
    refine ⟨?_, TwoMore.holds⟩
    unfold RootSolver.Suspended
    rw [pc]
    trivial
  have careless : ¬ S.queue.r_num + 1 ≤ 2 ^ 15 := by omega
  obtain ⟨rs, inv⟩ := RootSolver.inv_of_run run
  exact ⟨⟨TwoMore.run_computed TwoMore.run_more (.inr rfl), trivial, rfl⟩, S, run, allowed, inv.act_none allowed careless⟩

end M2.Fhk
