import M2.Mem.Trail

/-!
# Memoization

`memoize` of `src/frontend/memoize.lua` in a run of the simulator. The cache is a table outside of the memory of
the simulator. The place of the current entry is a byte of the virtual stack, which a load gives back, and each
evaluation takes a place above it. The arguments of a call are one value here, and so are the results; an
evaluation that raises an error has left the arguments in its entry, but no results.
-/
namespace M2.Mem

open M2.Lib

variable {α β : Type*}

/-- An entry of `_cache`. -/
structure Entry (α β : Type*) where
  arg : α
  ret : Option β

/-- An evaluation, with its place in the cache. -/
structure Evaluation (α β : Type*) where
  slot : BitVec 8
  arg : α
  ret : β

/-- A memoized function and its simulator. -/
structure Memo (α β : Type*) where
  state : State
  cache : BitVec 8 → Option (Entry α β)
  /-- The evaluations on the current path, the last one first; none where the function does not exist. -/
  trail : Checkpoints (Option (List (Evaluation α β)))

/-- `memoize`: the address of the counter, and the function. -/
def memoize (s : State) : Option (Nat × Memo α β) :=
  (sim_alloc s.sim 1 1 .SIM_VSTACK).1.map fun mp => (mp.toNat,
    { state := (s.call (.alloc 1 1 .SIM_VSTACK)).call (.write mp.toNat 0)
      cache := fun _ => none
      trail := ⟨s.sim.fp.toNat, some [], fun _ => some none⟩ })

/-- What a call returns: results of the cache, results of the function, or the error of the function. -/
inductive Returned (β : Type*) where
  | cached (ret : Option β)
  | evaluated (ret : β)
  | raised

/-- `_mp[0]`. -/
def Memo.counter (mp : Nat) (m : Memo α β) : BitVec 8 := m.state.sim.bytes mp

/-- `max(_mp[0]+1, _sim:fp())`. -/
def Memo.above (mp : Nat) (m : Memo α β) : Nat := max ((m.counter mp).toNat + 1) m.state.sim.fp.toNat

/-- The first lines of the function that `memoize` returns: the entry that has the arguments. -/
def Memo.entry [BEq α] (mp : Nat) (m : Memo α β) (arg : α) : Option (Entry α β) :=
  (m.cache (m.counter mp)).filter fun entry => entry.arg == arg

/-- The function that `memoize` returns, on arguments for which the function it was given returns `f`, none for
an error. -/
def Memo.call [BEq α] (mp : Nat) (m : Memo α β) (arg : α) (f : Option β) : Returned β × Memo α β :=
  match m.entry mp arg with
  | some entry => (.cached entry.ret, m)
  | none =>
    let k := BitVec.ofNat 8 (m.above mp)
    let state := m.state.call (.write mp k)
    match f with
    | some ret => (.evaluated ret,
      { state
        cache := Function.update m.cache k (some ⟨arg, some ret⟩)
        trail := m.trail.step (m.trail.cur.map fun path => ⟨k, arg, ret⟩ :: path) })
    | none => (.raised, { m with state, cache := Function.update m.cache k (some ⟨arg, (m.cache k).bind Entry.ret⟩) })

/-- A step of a run: a call of the simulator, or of the memoized function. -/
inductive Event (α β : Type*) where
  | sim (c : Call)
  | call (arg : α) (f : Option β)

def Memo.next [BEq α] (mp : Nat) (m : Memo α β) : Event α β → Memo α β
  | .sim c => { m with state := m.state.call c, trail := follow m.trail m.state.sim c }
  | .call arg f => (m.call mp arg f).2

/-- The client writes into its own live blocks, and calls the function where it exists. -/
def Memo.Legal (mp : Nat) (m : Memo α β) : Event α β → Prop
  | .sim c => m.state.Legal c ∧ ∀ a v, c = .write a v → a ≠ mp
  | .call _ _ => m.trail.cur ≠ none

/-- No allocation wraps, and an evaluation gets a place below 256 and returns. -/
def Memo.Whole [BEq α] (mp : Nat) (m : Memo α β) : Event α β → Prop
  | .sim c => m.state.NoWrap c
  | .call arg f => m.entry mp arg = none → m.above mp < 256 ∧ f ≠ none

/-- Runs whose steps satisfy a condition. -/
abbrev Memo.Run [BEq α] (mp : Nat) (condition : Memo α β → Event α β → Prop) : Memo α β → Memo α β → Prop :=
  Relation.ReflTransGen fun m m' => ∃ e, condition m e ∧ m' = m.next mp e

/-- A call that returns without an evaluation returns the results of the last one on the path, which has had equal
arguments. -/
def Memo.Sound [BEq α] (mp : Nat) (m : Memo α β) : Prop :=
  ∀ arg f ret, m.trail.cur ≠ none → (m.call mp arg f).1 = .cached ret →
    ∃ last rest, m.trail.cur = some (last :: rest) ∧ (last.arg == arg) = true ∧ ret = some last.ret

/-! ## The invariant -/

/-- The place of the last evaluation. -/
def place_of : List (Evaluation α β) → BitVec 8
  | [] => 0
  | last :: _ => last.slot

/-- The counter is allocated, and is the place of the last evaluation. -/
def Counts (mp : Nat) (ptr : Word) (bytes : Bytes) : Option (List (Evaluation α β)) → Prop
  | none => True
  | some path => mp < ptr.toNat ∧ bytes mp = place_of path

/-- The evaluations on one path come first on the other one; where the function does not exist there are none. -/
def Older : Option (List (Evaluation α β)) → Option (List (Evaluation α β)) → Prop
  | none, _ => True
  | some path, some path' => path <:+ path'
  | some _, none => False

/-- The cache has each evaluation of the path at its place, these go up, and there is nothing below them. -/
structure Cached (cache : BitVec 8 → Option (Entry α β)) (path : List (Evaluation α β)) : Prop where
  first : cache 0 = none
  entries : ∀ e ∈ path, cache e.slot = some ⟨e.arg, some e.ret⟩
  order : path.Pairwise fun e e' => e'.slot.toNat < e.slot.toNat

structure Memo.Inv (mp : Nat) (m : Memo α β) : Prop where
  inv : m.state.Inv
  low : m.state.sim.vstack.mem.toNat ≤ mp
  tracks : Tracks (Counts mp) m.state.sim m.state.saved m.trail
  ordered : m.trail.Ordered Older
  cached : ∀ path, m.trail.cur = some path → Cached m.cache path

theorem Older.refl (v : Option (List (Evaluation α β))) : Older v v := by
  cases v with
  | none => trivial
  | some path => exact List.suffix_refl path

theorem Older.trans (u v w : Option (List (Evaluation α β))) (first : Older u v) (second : Older v w) : Older u w := by
  cases u with
  | none => trivial
  | some path =>
    cases v with
    | none => exact first.elim
    | some path' =>
      cases w with
      | none => exact second.elim
      | some path'' => exact List.IsSuffix.trans first second

theorem Counts.of_stack {mem mp : Nat} (low : mem ≤ mp) :
    OfStack mem (Counts mp : Word → Bytes → Option (List (Evaluation α β)) → Prop) where
  local_bytes := by
    intro ptr b b' v same counts
    cases v with
    | none => trivial
    | some path => exact ⟨counts.1, (same mp low counts.1).trans counts.2⟩
  mono := by
    intro ptr ptr' b v le counts
    cases v with
    | none => trivial
    | some path => exact ⟨lt_of_lt_of_le counts.1 le, counts.2⟩

theorem Cached.older {cache : BitVec 8 → Option (Entry α β)} {path path' : List (Evaluation α β)} (cached : Cached cache path')
    (older : path <:+ path') : Cached cache path :=
  ⟨cached.first, fun e mem => cached.entries e (older.subset mem), cached.order.sublist older.sublist⟩

/-- All places on a path are at most the last one. -/
theorem Cached.le_place {cache : BitVec 8 → Option (Entry α β)} {path : List (Evaluation α β)} (cached : Cached cache path) :
    ∀ e ∈ path, e.slot.toNat ≤ (place_of path).toNat := by
  intro e mem
  cases path with
  | nil => cases mem
  | cons last rest =>
    obtain rfl | mem := List.mem_cons.mp mem
    · exact le_rfl
    · exact ((List.pairwise_cons.mp cached.order).1 e mem).le

/-- An evaluation above the last place. -/
theorem Cached.evaluate {cache : BitVec 8 → Option (Entry α β)} {path : List (Evaluation α β)} (cached : Cached cache path)
    {k : BitVec 8} (above : (place_of path).toNat < k.toNat) (arg : α) (ret : β) :
    Cached (Function.update cache k (some ⟨arg, some ret⟩)) (⟨k, arg, ret⟩ :: path) := by
  have below := cached.le_place
  refine ⟨?_, fun e mem => ?_, List.pairwise_cons.mpr ⟨fun e mem => lt_of_le_of_lt (below e mem) above, cached.order⟩⟩
  · rw [Function.update_of_ne, cached.first]
    rintro rfl
    exact Nat.not_lt_zero _ above
  · obtain rfl | mem := List.mem_cons.mp mem
    · rw [Function.update_self]
    · rw [Function.update_of_ne, cached.entries e mem]
      intro same
      have := below e mem
      rw [same] at this
      omega

section Runs
variable [BEq α] {mp : Nat} {m : Memo α β}

/-- What the cache has for the counter is the last evaluation. -/
theorem Memo.Inv.entry (inv : m.Inv mp) {arg : α} {entry : Entry α β} (found : m.entry mp arg = some entry)
    (exists_path : m.trail.cur ≠ none) :
    ∃ last rest, m.trail.cur = some (last :: rest) ∧ (last.arg == arg) = true ∧ entry.ret = some last.ret := by
  obtain ⟨path, cur⟩ := Option.ne_none_iff_exists'.mp exists_path
  have counts := inv.tracks.cur
  rw [cur] at counts
  have cached := inv.cached path cur
  obtain ⟨at_counter, equal⟩ := Option.filter_eq_some_iff.mp found
  rw [Memo.counter, counts.2] at at_counter
  cases path with
  | nil =>
    rw [place_of, cached.first] at at_counter
    cases at_counter
  | cons last rest =>
    rw [place_of, cached.entries last List.mem_cons_self] at at_counter
    cases at_counter
    exact ⟨last, rest, cur, equal, rfl⟩

theorem Memo.Inv.sound (inv : m.Inv mp) : m.Sound mp := by
  intro arg f ret exists_path returned
  unfold Memo.call at returned
  cases found : m.entry mp arg with
  | some entry =>
    rw [found] at returned
    cases returned
    exact inv.entry found exists_path
  | none =>
    rw [found] at returned
    cases f <;> cases returned

/-- The byte of the counter is in no savepoint. -/
theorem State.Inv.write_stack {s : State} (inv : s.Inv) {a : Nat} (low : s.sim.vstack.mem.toNat ≤ a) (value : BitVec 8) :
    (s.call (.write a value)).Inv := by
  refine inv.rewrite fun i less has snap saved k lt => Function.update_of_ne ?_ _ _
  obtain ⟨snap', saved', held, -⟩ := inv.held i less has
  cases saved.symm.trans saved'
  have data_high := held.data_high
  have ptr_le : (s.sim.fstack i).mem.ptr.toNat ≤ (s.sim.fstack i).mem.stop.toNat := (inv.laid.sound (.frame i) less).ptr_le
  have above : (s.sim.fstack i).mem.stop.toNat ≤ s.sim.vstack.mem.toNat := inv.laid.above (.frame i) less (by simp)
  omega

/-- A call of the simulator. -/
theorem Memo.Inv.sim (inv : m.Inv mp) {c : Call} (legal : m.Legal mp (.sim c)) (whole : m.Whole mp (.sim c)) :
    (m.next mp (.sim c)).Inv mp := by
  have of_stack := @Counts.of_stack α β _ _ inv.low
  have older := follow_le Older.refl inv.ordered inv.tracks.top c
  have mem : (m.state.call c).sim.vstack.mem = m.state.sim.vstack.mem := ((m.state.call_bounds c).home .vstack).1
  refine ⟨inv.inv.call legal.1 whole, ?_, inv.tracks.call of_stack inv.inv whole fun a v same => ?_,
    ordered_follow Older.refl inv.ordered inv.tracks.top c, fun path cur => ?_⟩
  · rw [Memo.next, mem]
    exact inv.low
  · have other := legal.2 a v same
    have counts := inv.tracks.cur
    cases cur : m.trail.cur with
    | none => trivial
    | some path =>
      rw [cur] at counts
      exact ⟨counts.1, (Function.update_of_ne other.symm _ _).trans counts.2⟩
  · have cur : (follow m.trail m.state.sim c).cur = some path := cur
    rw [cur] at older
    cases before : m.trail.cur with
    | none =>
      rw [before] at older
      exact older.elim
    | some path' =>
      rw [before] at older
      exact (inv.cached path' before).older older

/-- A call of the memoized function. -/
theorem Memo.Inv.call (inv : m.Inv mp) {arg : α} {f : Option β} (legal : m.Legal mp (.call arg f))
    (whole : m.Whole mp (.call arg f)) : (m.next mp (.call arg f)).Inv mp := by
  rw [Memo.next, Memo.call]
  cases found : m.entry mp arg with
  | some entry => exact inv
  | none =>
    obtain ⟨small, returns⟩ := whole found
    obtain ⟨ret, rfl⟩ := Option.ne_none_iff_exists'.mp returns
    obtain ⟨path, cur⟩ := Option.ne_none_iff_exists'.mp legal
    have counts := inv.tracks.cur
    rw [cur] at counts
    have place : (BitVec.ofNat 8 (m.above mp)).toNat = m.above mp := by
      rw [BitVec.toNat_ofNat, Nat.mod_eq_of_lt small]
    have above : (place_of path).toNat < (BitVec.ofNat 8 (m.above mp)).toNat := by
      rw [place, Memo.above, Memo.counter, counts.2]
      omega
    simp only
    refine ⟨inv.inv.write_stack inv.low _, inv.low, ⟨inv.tracks.top, ?_, inv.tracks.saved⟩, inv.ordered.step Older.trans ?_,
      fun path' cur' => ?_⟩
    · rw [Checkpoints.step, cur]
      exact ⟨counts.1, Function.update_self _ _ _⟩
    · rw [cur]
      exact List.suffix_cons _ _
    · rw [Checkpoints.step, cur] at cur'
      cases cur'
      exact (inv.cached path cur).evaluate above arg ret

theorem Memo.Run.inv {m' : Memo α β} (run : Memo.Run mp (fun m e => m.Legal mp e ∧ m.Whole mp e) m m') (inv : m.Inv mp) :
    m'.Inv mp := by
  induction run with
  | refl => exact inv
  | tail _ step ih =>
    obtain ⟨e, ⟨legal, whole⟩, rfl⟩ := step
    cases e with
    | sim c => exact ih.sim legal whole
    | call arg f => exact ih.call legal whole

end Runs

/-! ## Creation -/

/-- The allocation of the counter does not wrap. -/
theorem State.Inv.one_fits {s : State} (inv : s.Inv) : s.NoWrap (.alloc 1 1 .SIM_VSTACK) := by
  rintro h ⟨⟩
  have sound := inv.laid.sound .vstack trivial
  have le := sound.ptr_le
  have aligned := sound.stop_aligned
  have small := (s.sim.home .vstack).stop.isLt
  have one : (1 : Word).toNat = 1 := rfl
  have high := @le_add_ALIGN (s.sim.home .vstack).ptr 1 (by decide) (by omega)
  exact ⟨by decide, by omega, by omega⟩

/-- A new memoized function. -/
theorem memoize_inv {s : State} {mp : Nat} {m : Memo α β} (inv : s.Inv) (memo : memoize s = some (mp, m)) : m.Inv mp := by
  obtain ⟨p, given, same⟩ := Option.map_eq_some_iff.mp memo
  cases same
  have allocated := inv.alloc inv.one_fits
  obtain ⟨outcome, taken⟩ : ∃ r, reg_alloc s.sim.vstack 1 1 = (some p, r) := ⟨_, Prod.ext given rfl⟩
  obtain ⟨-, -, low, next, -⟩ := reg_alloc_some (inv.one_fits .vstack rfl) taken
  have mem_le : s.sim.vstack.mem.toNat ≤ s.sim.vstack.ptr.toNat := (inv.laid.sound .vstack trivial).mem_le
  have mem : (s.call (.alloc 1 1 .SIM_VSTACK)).sim.vstack.mem = s.sim.vstack.mem :=
    ((s.call_bounds (.alloc 1 1 .SIM_VSTACK)).home .vstack).1
  have sim : (s.call (.alloc 1 1 .SIM_VSTACK)).sim = (sim_alloc s.sim 1 1 .SIM_VSTACK).2 := State.taking_sim _ _ _ _
  have ptr : (s.call (.alloc 1 1 .SIM_VSTACK)).sim.vstack.ptr = outcome.ptr := by
    rw [sim, sim_alloc, taken]
  have low : s.sim.vstack.mem.toNat ≤ p.toNat := mem_le.trans low
  have one : (1 : Word).toNat = 1 := rfl
  refine ⟨allocated.write_stack (by rw [mem]; exact low) 0, ?_, ⟨?_, ⟨?_, Function.update_self _ _ _⟩, ?_⟩, ⟨?_, ?_⟩, ?_⟩
  · show (s.call (.alloc 1 1 .SIM_VSTACK)).sim.vstack.mem.toNat ≤ p.toNat
    rw [mem]
    exact low
  · show s.sim.fp.toNat = (s.call (.alloc 1 1 .SIM_VSTACK)).sim.fp.toNat
    rw [sim, (sim_alloc_flags s.sim 1 1 .SIM_VSTACK).1]
  · show p.toNat < (s.call (.alloc 1 1 .SIM_VSTACK)).sim.vstack.ptr.toNat
    rw [ptr]
    omega
  · exact fun j _ _ snap _ => ⟨none, rfl, trivial⟩
  · rintro j - v ⟨⟩
    trivial
  · rintro k - j - v ⟨⟩ w -
    trivial
  · rintro path ⟨⟩
    exact ⟨rfl, fun e mem => absurd mem List.not_mem_nil, List.Pairwise.nil⟩

/-- In every run from `sim_create` in which the record fits, no allocation wraps, and each evaluation returns
and has a place below 256, a call that does not evaluate returns what the last evaluation on the path has
returned, for equal arguments. -/
theorem memoize_sound [BEq α] {start s : State} (created : start.Created) (fits : start.sim.RecordFits)
    (run : State.Run (fun s c => s.Legal c ∧ s.NoWrap c) start s) {mp : Nat} {m m' : Memo α β}
    (memo : memoize s = some (mp, m)) (calls : Memo.Run mp (fun m e => m.Legal mp e ∧ m.Whole mp e) m m') : m'.Sound mp :=
  (calls.inv (memoize_inv (run.inv (created.inv fits)) memo)).sound

/-! ## 256 evaluations

A savepoint, then evaluations for 0 to 255. The last one takes the place of the savepoint's counter. -/
namespace Full

/-- The function in a new simulator. -/
def new : Memo Nat Nat :=
  { state := (Wrap.newState.call (.alloc 1 1 .SIM_VSTACK)).call (.write 66048 0)
    cache := fun _ => none
    trail := ⟨0, some [], fun _ => some none⟩ }

theorem memoize_new : memoize Wrap.newState = some (66048, new) := by
  have given : (sim_alloc Wrap.newState.sim 1 1 .SIM_VSTACK).1 = some 66048 := by decide +kernel
  rw [memoize, given]
  rfl

theorem new_inv : new.Inv 66048 := memoize_inv (Wrap.newState_created.inv Wrap.newState_fits) memoize_new

/-- A call for 3, and a savepoint. -/
theorem memoize_sound_two :
    ((new.next 66048 (.call 3 (some 9))).next 66048 (.sim .savepoint)).Sound 66048 := by
  apply memoize_sound Wrap.newState_created Wrap.newState_fits .refl memoize_new
  refine .tail (.single ⟨.call 3 (some 9), ⟨?_, fun _ => ⟨?_, ?_⟩⟩, rfl⟩) ⟨.sim .savepoint, ⟨⟨trivial, ?_⟩, trivial⟩, rfl⟩
  · exact Option.some_ne_none _
  · decide +kernel
  · exact Option.some_ne_none _
  · rintro a v ⟨⟩

def saved : Memo Nat Nat := new.next 66048 (.sim .savepoint)

def evaluated : Nat → Memo Nat Nat
  | 0 => saved
  | k + 1 => (evaluated k).next 66048 (.call k (some k))

theorem saved_inv : saved.Inv 66048 := by
  refine new_inv.sim ⟨trivial, ?_⟩ trivial
  rintro a v ⟨⟩

theorem saved_ok : (sim_savepoint new.state.sim).1 = .SIM_OK := by decide +kernel

theorem saved_trail : saved.trail.saved 0 = some (some []) := by
  show (follow new.trail new.state.sim .savepoint).saved 0 = some (some [])
  rw [follow, if_pos saved_ok]
  rfl

/-- The evaluations change the byte of the counter and the path only. -/
theorem evaluated_same (k : Nat) : ∃ b path, (evaluated k).state = { saved.state with sim := { saved.state.sim with bytes := b } } ∧
    (evaluated k).trail = saved.trail.step (some path) ∧ (evaluated k).state.Inv := by
  induction k with
  | zero =>
    have cur : saved.trail.cur = some [] := by
      show (follow new.trail new.state.sim .savepoint).cur = some []
      rw [follow, if_pos saved_ok]
      rfl
    exact ⟨saved.state.sim.bytes, [], rfl, by rw [Checkpoints.step, ← cur]; rfl, saved_inv.inv⟩
  | succ k ih =>
    obtain ⟨b, path, state, trail, inv⟩ := ih
    rw [evaluated, Memo.next, Memo.call]
    cases (evaluated k).entry 66048 k with
    | some entry => exact ⟨b, path, state, trail, inv⟩
    | none =>
      have low : (evaluated k).state.sim.vstack.mem.toNat ≤ 66048 := by
        rw [state]
        exact saved_inv.low
      refine ⟨Function.update b 66048 (BitVec.ofNat 8 ((evaluated k).above 66048)),
        ⟨BitVec.ofNat 8 ((evaluated k).above 66048), k, k⟩ :: path, ?_, ?_, inv.write_stack low _⟩
      · simp only
        rw [state]
        rfl
      · simp only
        rw [trail]
        rfl

theorem evaluated_fp (k : Nat) : (evaluated k).state.sim.fp = 0 := by
  obtain ⟨b, path, state, -⟩ := evaluated_same k
  rw [state]
  rfl

theorem evaluated_cur (k : Nat) : (evaluated k).trail.cur ≠ none := by
  obtain ⟨b, path, -, trail, -⟩ := evaluated_same k
  rw [trail]
  exact Option.some_ne_none path

/-- A call for a number that is not in the entry takes the next place. -/
theorem evaluated_next {k : Nat} (small : k < 256) (counter : (evaluated k).counter 66048 = BitVec.ofNat 8 k)
    (miss : (evaluated k).entry 66048 k = none) :
    (evaluated (k + 1)).counter 66048 = BitVec.ofNat 8 (k + 1) ∧
      (evaluated (k + 1)).cache = Function.update (evaluated k).cache (BitVec.ofNat 8 (k + 1)) (some ⟨k, some k⟩) := by
  have above : (evaluated k).above 66048 = k + 1 := by
    rw [Memo.above, counter, evaluated_fp, BitVec.toNat_ofNat, Nat.mod_eq_of_lt small]
    exact Nat.max_eq_left (Nat.zero_le _)
  rw [evaluated, Memo.next, Memo.call, miss, above]
  refine ⟨?_, rfl⟩
  show Function.update (evaluated k).state.sim.bytes 66048 (BitVec.ofNat 8 (k + 1)) 66048 = BitVec.ofNat 8 (k + 1)
  exact Function.update_self _ _ _

theorem evaluated_at {k : Nat} (small : k < 256) : (evaluated k).counter 66048 = BitVec.ofNat 8 k ∧
    (evaluated k).cache 0 = none ∧ (evaluated k).entry 66048 k = none := by
  induction k with
  | zero =>
    refine ⟨by decide +kernel, rfl, rfl⟩
  | succ k ih =>
    obtain ⟨counter, first, miss⟩ := ih (by omega)
    obtain ⟨next, cache⟩ := evaluated_next (by omega) counter miss
    refine ⟨next, ?_, ?_⟩
    · rw [cache, Function.update_of_ne, first]
      intro zero
      have value := congrArg BitVec.toNat zero
      rw [BitVec.toNat_ofNat, Nat.mod_eq_of_lt small] at value
      cases value
    · rw [Memo.entry, next, cache, Function.update_self, Option.filter_some_eq_none]
      simp

/-- The 256th evaluation has taken the first place. -/
theorem evaluated_full : (evaluated 256).cache 0 = some ⟨255, some 255⟩ := by
  obtain ⟨counter, -, miss⟩ := @evaluated_at 255 (by decide)
  rw [(evaluated_next (by decide) counter miss).2]
  exact Function.update_self _ _ _

/-- Back to the savepoint. -/
def loaded (k : Nat) : Memo Nat Nat := (evaluated k).next 66048 (.sim .reload)

theorem reload_ok (k : Nat) : (sim_reload (evaluated k).state.sim).1 = .SIM_OK := by
  obtain ⟨b, path, state, -⟩ := evaluated_same k
  have has : saved.state.sim.top.has_savepoint = true := by decide +kernel
  rw [sim_reload_ok_iff, state]
  exact has

theorem loaded_counter (k : Nat) : (loaded k).counter 66048 = 0 := by
  obtain ⟨b, path, state, -, inv⟩ := evaluated_same k
  obtain ⟨snap, taken, ⟨-, bytes⟩, -⟩ := sim_reload_spec inv (reload_ok k)
  have same : (sim_reload (evaluated k).state.sim).2.vstack.mem = (evaluated k).state.sim.vstack.mem :=
    ((sim_reload_bounds _).home .vstack).1
  have mem : (sim_reload (evaluated k).state.sim).2.vstack.mem.toNat = 66048 := by
    rw [same, state]
    exact (by decide +kernel : saved.state.sim.vstack.mem.toNat = 66048)
  have kept : (saved.state.saved 0).map (fun s => (s.ptr, s.bytes 66048)) = some (66049, 0) := by decide +kernel
  have taken : saved.state.saved 0 = some snap := by
    rw [evaluated_fp, state] at taken
    exact taken
  rw [taken] at kept
  obtain ⟨ptr, zero⟩ := Prod.mk.inj (Option.some.inj kept)
  rw [← zero]
  exact bytes 66048 mem.le (by rw [ptr]; decide)

theorem loaded_cur (k : Nat) : (loaded k).trail.cur = some [] := by
  obtain ⟨b, path, -, trail, -⟩ := evaluated_same k
  show (follow (evaluated k).trail (evaluated k).state.sim .reload).cur = some []
  rw [follow, if_pos (reload_ok k), evaluated_fp, trail]
  show (saved.trail.saved 0).getD (some path) = some []
  rw [saved_trail, Option.getD_some]

/-- A run to the load, whatever else its condition asks of the steps. -/
theorem run_loaded {condition : Memo Nat Nat → Event Nat Nat → Prop} (savepoint : condition new (.sim .savepoint))
    (calls : ∀ k, condition (evaluated k) (.call k (some k))) (reload : ∀ k, condition (evaluated k) (.sim .reload)) (k : Nat) :
    Memo.Run 66048 condition new (loaded k) := by
  have run : Memo.Run 66048 condition new (evaluated k) := by
    induction k with
    | zero => exact .single ⟨_, savepoint, rfl⟩
    | succ k ih => exact ih.tail ⟨_, calls k, rfl⟩
  exact run.tail ⟨_, reload k, rfl⟩

/-- After the load a call for 255 returns what has been evaluated in the branch that is left. -/
theorem not_memoize_sound : ¬ ∀ (start s : State) (mp : Nat) (m m' : Memo Nat Nat), start.Created → start.sim.RecordFits →
    State.Run (fun s c => s.Legal c ∧ s.NoWrap c) start s → memoize s = some (mp, m) →
      Memo.Run mp (fun m e => m.Legal mp e ∧ (∀ c, e = .sim c → m.state.NoWrap c) ∧ ∀ arg f, e = .call arg f → f ≠ none) m m' →
        m'.Sound mp := by
  intro always
  obtain ⟨k, full⟩ : ∃ k, (evaluated k).cache 0 = some ⟨255, some 255⟩ := ⟨256, evaluated_full⟩
  have run : Memo.Run 66048 (fun m e => m.Legal 66048 e ∧ (∀ c, e = .sim c → m.state.NoWrap c) ∧
      ∀ arg f, e = .call arg f → f ≠ none) new (loaded k) := by
    apply run_loaded
    · refine ⟨⟨trivial, ?_⟩, ?_, ?_⟩
      · rintro a v ⟨⟩
      · rintro c ⟨⟩
        trivial
      · rintro arg f ⟨⟩
    · refine fun k => ⟨evaluated_cur k, ?_, ?_⟩
      · rintro c ⟨⟩
      · rintro arg f ⟨⟩
        exact Option.some_ne_none k
    · refine fun k => ⟨⟨trivial, ?_⟩, ?_, ?_⟩
      · rintro a v ⟨⟩
      · rintro c ⟨⟩
        trivial
      · rintro arg f ⟨⟩
  have sound := always _ _ _ _ _ Wrap.newState_created Wrap.newState_fits .refl memoize_new run
  have found : (loaded k).entry 66048 255 = some ⟨255, some 255⟩ := by
    rw [Memo.entry, loaded_counter, show (loaded k).cache = (evaluated k).cache from rfl, full]
    rfl
  have returned : ((loaded k).call 66048 255 none).1 = .cached (some 255) := by
    rw [Memo.call, found]
  obtain ⟨last, rest, cur, -⟩ := sound 255 none (some 255) (by rw [loaded_cur]; exact Option.some_ne_none _) returned
  rw [loaded_cur] at cur
  cases cur

end Full
end M2.Mem
