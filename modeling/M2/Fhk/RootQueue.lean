import M2.Fhk.Given
import M2.Fhk.SubsetPack

/-!
# The root queue

`fhkS_setrooti` and `fhkS_setroot` of `src/fhk/solve.c`. Positions and sizes are `uint16_t`, and a queue
that grows is copied to a new array, next to which the old one stays. The buffer of a request and the
value buffers of the solver are objects of their own, and a pointer is an object with a byte offset.
-/
namespace M2.Fhk

open M2.Mem (Word Bytes)
open M2.Lib

/-- `NUM_ROOTBUF`. -/
def NUM_ROOTBUF : Nat := 32

/-- What a value pointer points into: the buffer of the `k`-th request, or the buffer allocated for a variable. -/
inductive Obj
  | root (k : Nat)
  | own (xi : Nat)
  deriving DecidableEq

/-- `struct rootv`, with `ROOT_GIVEN` of its flags. -/
structure RootV where
  buf : Obj × Nat
  xi : Nat
  inst : Nat
  stop : Nat
  given : Bool
  deriving DecidableEq

/-- What is used of a variable. -/
structure RootVar where
  group : Nat
  size : Nat
  given : Bool

/-- The fields `r_*` of the solver: arrays are named in the order of their allocation, each with its size. -/
structure RootQueue where
  r_num : Nat
  r_size : Nat
  r_buf : Nat
  arrays : List Nat
  cell : Nat → Nat → RootV

namespace RootQueue
variable (Q : RootQueue)

/-- A new queue of four times the size, in 16 bits; the old entries do not fit where the size wraps. -/
def grow : Option RootQueue :=
  let r_size := (Q.r_size <<< 2) % 2 ^ 16
  let rbuf := Q.arrays.length
  if Q.r_num ≤ r_size then
    some { Q with
      r_size, r_buf := rbuf, arrays := Q.arrays ++ [r_size]
      cell := Function.update Q.cell rbuf fun i => if i < Q.r_num then Q.cell Q.r_buf i else Q.cell rbuf i }
  else none

/-- `S->r_buf[S->r_num++] = r`, inside of the array. -/
def push (r : RootV) : Option RootQueue :=
  if Q.arrays[Q.r_buf]?.any (Q.r_num < ·) then
    some { Q with
      r_num := (Q.r_num + 1) % 2 ^ 16
      cell := Function.update Q.cell Q.r_buf (Function.update (Q.cell Q.r_buf) Q.r_num r) }
  else none

/-- An entry is put in the queue, which grows where it is full. -/
def enqueue (r : RootV) : Option RootQueue := (if Q.r_num = Q.r_size then Q.grow else some Q).bind fun Q => Q.push r

/-- `fhkS_setrooti`. -/
def fhkS_setrooti (xi inst num : Nat) (buf : Obj × Nat) (given : Bool) : Option RootQueue :=
  Q.enqueue ⟨buf, xi, inst, (inst + num) % 2 ^ 16, given⟩

/-- The entries from `num` on are moved to the front. -/
def shift (num : Nat) : RootQueue :=
  { Q with
    r_num := Q.r_num - num
    cell := Function.update Q.cell Q.r_buf fun i =>
      if i < Q.r_num - num then Q.cell Q.r_buf (num + i) else Q.cell Q.r_buf i }

/-- The entries, first to last. -/
def entries : List RootV := (List.range Q.r_num).map (Q.cell Q.r_buf)

end RootQueue

/-- What `fhkS_setroot` reads and writes. -/
structure RootState where
  queue : RootQueue
  s_value : Nat → Option Obj
  kmap : Nat → Word

/-- The whole space of the variable is asked for, and it has no value buffer yet. -/
def RootState.Adopts (S : RootState) (x : RootVar) (xi : Nat) (ss : Word) : Prop :=
  (S.kmap x.group).setWidth 32 = ss.setWidth 32 ∧ S.s_value xi = none

instance (S : RootState) (x : RootVar) (xi : Nat) (ss : Word) : Decidable (S.Adopts x xi ss) :=
  inferInstanceAs (Decidable (_ ∧ _))

/-- The body of the loop over a complex subset: the queue, and the offset in the buffer. -/
def setrootBody (x : RootVar) (xi : Nat) (buf : Obj) (s : Option (RootQueue × Nat)) (inst num : Nat) :
    Option (RootQueue × Nat) :=
  s.bind fun s => (s.1.fhkS_setrooti xi inst num (buf, s.2) x.given).map fun Q => (Q, s.2 + num * x.size)

/-- `fhkS_setroot`. -/
def RootState.fhkS_setroot (mem : IntervalMem) (x : RootVar) (xi : Nat) (ss : Word) (buf : Obj) (S : RootState) :
    Option RootState :=
  if ss = SS_EMPTYSET then some S
  else if SS_ISIVAL ss then
    let s_value := if S.Adopts x xi ss then Function.update S.s_value xi (some buf) else S.s_value
    let pki := ss.setWidth 32
    (S.queue.fhkS_setrooti xi (PK_FIRST pki) (PK_N1 pki) (buf, 0) x.given).map fun queue => { S with queue, s_value }
  else
    ((si3_complex mem ss).bind (si3_loop mem (setrootBody x xi buf) (some (S.queue, 0)))).join.map fun s =>
      { S with queue := s.1 }

/-! ## Subsets and their entries -/

/-- The word of a subset of instances, cut into its runs. -/
inductive Holds (mem : IntervalMem) : Word → List (Nat × Nat) → Prop
  | empty : Holds mem SS_EMPTYSET []
  | interval (ss : Word) (isIval : SS_ISIVAL ss = true) (pos : 0 < PK_N1 (ss.setWidth 32))
      (fits : PK_FIRST (ss.setWidth 32) + PK_N1 (ss.setWidth 32) ≤ G_MAXINST + 1) :
      Holds mem ss [(PK_FIRST (ss.setWidth 32), PK_FIRST (ss.setWidth 32) + PK_N1 (ss.setWidth 32) - 1)]
  | complex (ss : Word) (it : SI3) (rs : List (Nat × Nat)) (isComplex : SS_ISCOMPLEX ss = true)
      (start : si3_complex mem ss = some it) (walks : Walks mem it rs) (maximal : Runs.Maximal (rs.flatMap Runs.insts) rs)
      (fits : ∀ r ∈ rs, r.2 ≤ G_MAXINST) : Holds mem ss rs

/-- The runs of a subset leave gaps or are only one, and none is empty. -/
theorem Holds.maximal {mem : IntervalMem} {ss : Word} {rs : List (Nat × Nat)} (holds : Holds mem ss rs) :
    Runs.Maximal (rs.flatMap Runs.insts) rs := by
  cases holds with
  | empty => exact ⟨rfl, fun r mem => absurd mem List.not_mem_nil, List.Pairwise.nil⟩
  | interval _ _ pos fits =>
    refine ⟨rfl, fun r mem => ?_, List.pairwise_singleton _ _⟩
    rw [List.mem_singleton.mp mem]
    simp only
    omega
  | complex _ _ _ _ _ _ maximal _ => exact maximal

/-- The entries of runs: each has the offset behind the instances of those before it. -/
def runEntries (buf : Obj) (xi : Nat) (x : RootVar) : Nat → List (Nat × Nat) → List RootV
  | _, [] => []
  | off, r :: rs => ⟨(buf, off), xi, r.1, r.2 + 1, x.given⟩ :: runEntries buf xi x (off + (r.2 + 1 - r.1) * x.size) rs

section Entries
variable {buf : Obj} {xi : Nat} {x : RootVar}

theorem runEntries_length (off : Nat) (rs : List (Nat × Nat)) : (runEntries buf xi x off rs).length = rs.length := by
  induction rs generalizing off with
  | nil => rfl
  | cons r rs ih => rw [runEntries, List.length_cons, ih, List.length_cons]

theorem mem_runEntries {off : Nat} {rs : List (Nat × Nat)} {r : RootV} (mem : r ∈ runEntries buf xi x off rs) :
    r.buf.1 = buf ∧ r.xi = xi ∧ r.given = x.given ∧ off ≤ r.buf.2 := by
  induction rs generalizing off with
  | nil => exact absurd mem List.not_mem_nil
  | cons run rs ih =>
    rw [runEntries] at mem
    rcases List.mem_cons.mp mem with rfl | mem
    · exact ⟨rfl, rfl, rfl, le_rfl⟩
    · obtain ⟨object, var, given, above⟩ := ih mem
      exact ⟨object, var, given, by omega⟩

/-- An entry is that of a run. -/
theorem runEntries_run {off : Nat} {rs : List (Nat × Nat)} {r : RootV} (mem : r ∈ runEntries buf xi x off rs) :
    ∃ run ∈ rs, r.inst = run.1 ∧ r.stop = run.2 + 1 := by
  induction rs generalizing off with
  | nil => exact absurd mem List.not_mem_nil
  | cons run rs ih =>
    rw [runEntries] at mem
    rcases List.mem_cons.mp mem with rfl | mem
    · exact ⟨run, List.mem_cons_self, rfl, rfl⟩
    · obtain ⟨run', there, ends⟩ := ih mem
      exact ⟨run', List.mem_cons_of_mem _ there, ends⟩

/-- The parts of the buffer lie one behind the other. -/
theorem runEntries_apart (off : Nat) (rs : List (Nat × Nat)) :
    (runEntries buf xi x off rs).Pairwise fun r s => r.buf.2 + (r.stop - r.inst) * x.size ≤ s.buf.2 := by
  induction rs generalizing off with
  | nil => exact List.Pairwise.nil
  | cons run rs ih =>
    rw [runEntries, List.pairwise_cons]
    exact ⟨fun s mem => (mem_runEntries mem).2.2.2, ih _⟩

end Entries

/-! ## The queue holds its entries -/

namespace RootQueue
variable {Q Q' : RootQueue} {rs : List RootV}

/-- The queue holds the entries. Its size is what quadrupling gives of the first one, below `2^16`. -/
structure Sound (Q : RootQueue) (rs : List RootV) : Prop where
  size : ∃ k ≤ 5, Q.r_size = 2 ^ (5 + 2 * k)
  array : Q.arrays[Q.r_buf]? = some Q.r_size
  num : Q.r_num = rs.length
  room : Q.r_num ≤ Q.r_size
  cells : ∀ i r, rs[i]? = some r → Q.cell Q.r_buf i = r

/-- The entries that were there, in whichever array, stay. -/
structure Keeps (Q Q' : RootQueue) : Prop where
  arrays : Q.arrays.length ≤ Q'.arrays.length
  num : Q.r_num ≤ Q'.r_num
  cell : ∀ b < Q.arrays.length, ∀ i < Q.r_num, Q'.cell b i = Q.cell b i

theorem Keeps.refl (Q : RootQueue) : Q.Keeps Q := ⟨le_rfl, le_rfl, fun _ _ _ _ => rfl⟩

theorem Keeps.trans {Q'' : RootQueue} (first : Q.Keeps Q') (second : Q'.Keeps Q'') : Q.Keeps Q'' where
  arrays := first.arrays.trans second.arrays
  num := first.num.trans second.num
  cell b old i lt := by
    rw [second.cell b (old.trans_le first.arrays) i (lt.trans_le first.num), first.cell b old i lt]

theorem Sound.buf_lt (sound : Q.Sound rs) : Q.r_buf < Q.arrays.length := (List.getElem?_eq_some_iff.mp sound.array).1

theorem Sound.size_le (sound : Q.Sound rs) : Q.r_size ≤ 2 ^ 15 := by
  obtain ⟨k, le, eq⟩ := sound.size
  rw [eq]
  exact Nat.pow_le_pow_right Nat.two_pos (by omega)

theorem Sound.entries (sound : Q.Sound rs) : Q.entries = rs := by
  apply List.ext_getElem?
  intro i
  rw [RootQueue.entries, List.getElem?_map]
  by_cases lt : i < rs.length
  · rw [List.getElem?_range (by rw [sound.num]; exact lt), Option.map_some, List.getElem?_eq_getElem lt]
    exact congrArg some (sound.cells i _ (List.getElem?_eq_getElem lt))
  · rw [List.getElem?_eq_none (by rw [List.length_range, sound.num]; omega), List.getElem?_eq_none (by omega)]
    rfl

/-- A queue of less than the largest size grows. -/
theorem Sound.grow (sound : Q.Sound rs) (small : Q.r_size < 2 ^ 15) :
    ∃ Q', Q.grow = some Q' ∧ Q'.Sound rs ∧ Q.Keeps Q' ∧ Q'.r_num < Q'.r_size := by
  obtain ⟨k, le, eq⟩ := sound.size
  have room := sound.room
  have k_lt : k < 5 := by
    by_contra ge
    rw [eq, show k = 5 by omega] at small
    exact absurd small (lt_irrefl _)
  have next : (Q.r_size <<< 2) % 2 ^ 16 = 2 ^ (5 + 2 * (k + 1)) := by
    rw [Nat.shiftLeft_eq, eq, ← pow_add, show 5 + 2 * k + 2 = 5 + 2 * (k + 1) by omega]
    apply Nat.mod_eq_of_lt
    exact Nat.pow_lt_pow_right (by decide) (by omega)
  have more : Q.r_size < (Q.r_size <<< 2) % 2 ^ 16 := by
    rw [next, eq]
    exact Nat.pow_lt_pow_right (by decide) (by omega)
  have grown : Q.grow = some { Q with
      r_size := (Q.r_size <<< 2) % 2 ^ 16, r_buf := Q.arrays.length, arrays := Q.arrays ++ [(Q.r_size <<< 2) % 2 ^ 16]
      cell := Function.update Q.cell Q.arrays.length fun i =>
        if i < Q.r_num then Q.cell Q.r_buf i else Q.cell Q.arrays.length i } := by
    unfold RootQueue.grow
    exact if_pos (by omega)
  refine ⟨_, grown, ?_, ?_, ?_⟩
  · constructor
    · exact ⟨k + 1, by omega, next⟩
    · exact List.getElem?_concat_length
    · exact sound.num
    · exact room.trans more.le
    · intro i r there
      have lt : i < Q.r_num := by
        rw [sound.num]
        exact (List.getElem?_eq_some_iff.mp there).1
      simp only [Function.update_self, if_pos lt]
      exact sound.cells i r there
  · constructor
    · rw [List.length_append]
      omega
    · exact le_rfl
    · intro b old i _
      exact congrFun (Function.update_of_ne old.ne _ _) i
  · exact room.trans_lt more

/-- The largest size wraps to zero. -/
theorem Sound.grow_none (sound : Q.Sound rs) (full : Q.r_num = 2 ^ 15) : Q.grow = none := by
  have largest : Q.r_size = 2 ^ 15 := le_antisymm sound.size_le (full ▸ sound.room)
  unfold RootQueue.grow
  rw [largest, full]
  rfl

theorem Sound.push (sound : Q.Sound rs) (room : Q.r_num < Q.r_size) (r : RootV) :
    ∃ Q', Q.push r = some Q' ∧ Q'.Sound (rs ++ [r]) ∧ Q.Keeps Q' := by
  have size := sound.size_le
  have fits : Q.arrays[Q.r_buf]?.any (Q.r_num < ·) = true := by
    rw [sound.array]
    exact decide_eq_true room
  have num : (Q.r_num + 1) % 2 ^ 16 = Q.r_num + 1 := Nat.mod_eq_of_lt (by omega)
  have pushed : Q.push r = some { Q with
      r_num := Q.r_num + 1
      cell := Function.update Q.cell Q.r_buf (Function.update (Q.cell Q.r_buf) Q.r_num r) } := by
    unfold RootQueue.push
    rw [if_pos fits, num]
  refine ⟨_, pushed, ?_, ?_⟩
  · constructor
    · exact sound.size
    · exact sound.array
    · rw [List.length_append, ← sound.num]
      rfl
    · exact room
    · intro i r' there
      rw [List.getElem?_append] at there
      simp only [Function.update_self]
      split at there
      · rename_i lt
        rw [Function.update_of_ne (by rw [sound.num]; exact lt.ne)]
        exact sound.cells i r' there
      · rename_i ge
        rw [List.getElem?_singleton] at there
        split at there
        · rename_i zero
          rw [show i = Q.r_num by rw [sound.num]; omega, Function.update_self]
          exact Option.some.inj there
        · cases there
  · constructor
    · exact le_rfl
    · exact Nat.le_succ _
    · intro b _ i lt
      by_cases here : b = Q.r_buf
      · subst here
        simp only [Function.update_self]
        exact Function.update_of_ne lt.ne _ _
      · exact congrFun (Function.update_of_ne here _ _) i

theorem Sound.shift (sound : Q.Sound rs) (num : Nat) : (Q.shift num).Sound (rs.drop num) := by
  have length : Q.r_num - num = (rs.drop num).length := by rw [List.length_drop, sound.num]
  constructor
  · exact sound.size
  · exact sound.array
  · exact length
  · exact (Nat.sub_le _ _).trans sound.room
  · intro i r there
    have lt : i < Q.r_num - num := by
      rw [length]
      exact (List.getElem?_eq_some_iff.mp there).1
    rw [List.getElem?_drop] at there
    simp only [RootQueue.shift, Function.update_self, if_pos lt]
    exact sound.cells _ r there

/-- A queue that is not of the largest length takes in an entry. -/
theorem Sound.enqueue (sound : Q.Sound rs) (room : rs.length < 2 ^ 15) (r : RootV) :
    ∃ Q', Q.enqueue r = some Q' ∧ Q'.Sound (rs ++ [r]) ∧ Q.Keeps Q' := by
  unfold RootQueue.enqueue
  by_cases full : Q.r_num = Q.r_size
  · obtain ⟨G, grown, held, kept, more⟩ := sound.grow (by rw [← full, sound.num]; exact room)
    obtain ⟨Q', pushed, held', kept'⟩ := held.push more r
    rw [if_pos full, grown, Option.bind_some]
    exact ⟨Q', pushed, held', kept.trans kept'⟩
  · have fits := sound.room
    obtain ⟨Q', pushed, held', kept'⟩ := sound.push (by omega) r
    rw [if_neg full, Option.bind_some]
    exact ⟨Q', pushed, held', kept'⟩

/-- One of the largest length does not. -/
theorem Sound.enqueue_none (sound : Q.Sound rs) (full : rs.length = 2 ^ 15) (r : RootV) : Q.enqueue r = none := by
  have num : Q.r_num = 2 ^ 15 := sound.num.trans full
  have largest : Q.r_num = Q.r_size := le_antisymm sound.room (num ▸ sound.size_le)
  unfold RootQueue.enqueue
  rw [if_pos largest, sound.grow_none num, Option.bind_none]

/-- Entries are queued as long as there are at most `2^15` together. -/
theorem Sound.enqueueAll (sound : Q.Sound rs) (l : List RootV) (room : rs.length + l.length ≤ 2 ^ 15) :
    ∃ Q', l.foldlM RootQueue.enqueue Q = some Q' ∧ Q'.Sound (rs ++ l) ∧ Q.Keeps Q' := by
  induction l generalizing Q rs with
  | nil => exact ⟨Q, rfl, by rwa [List.append_nil], .refl Q⟩
  | cons r l ih =>
    rw [List.length_cons] at room
    obtain ⟨Q₁, queued, held, kept⟩ := sound.enqueue (by omega) r
    obtain ⟨Q', rest, held', kept'⟩ := ih held (by rw [List.length_append, List.length_singleton]; omega)
    rw [List.append_assoc] at held'
    refine ⟨Q', ?_, held', kept.trans kept'⟩
    rw [List.foldlM_cons, queued]
    exact rest

theorem Sound.enqueueAll_none (sound : Q.Sound rs) (l : List RootV) (beyond : 2 ^ 15 < rs.length + l.length) :
    l.foldlM RootQueue.enqueue Q = none := by
  induction l generalizing Q rs with
  | nil =>
    have fits := sound.room.trans sound.size_le
    rw [sound.num] at fits
    rw [List.length_nil] at beyond
    omega
  | cons r l ih =>
    rw [List.length_cons] at beyond
    rw [List.foldlM_cons]
    by_cases full : rs.length = 2 ^ 15
    · rw [sound.enqueue_none full]
      rfl
    · have fits := sound.room.trans sound.size_le
      rw [sound.num] at fits
      obtain ⟨Q₁, queued, held, -⟩ := sound.enqueue (by omega) r
      rw [queued]
      exact ih held (by rw [List.length_append, List.length_singleton]; omega)

end RootQueue

/-! ## What `fhkS_setroot` queues -/

section SetRoot
variable {S : RootState} {mem : IntervalMem} {x : RootVar} {xi : Nat} {ss : Word} {buf : Obj} {rs : List (Nat × Nat)}

theorem setrooti_run (Q : RootQueue) {r : Nat × Nat} (le : r.1 ≤ r.2) (fits : r.2 ≤ G_MAXINST) (off : Nat) :
    Q.fhkS_setrooti xi r.1 (r.2 + 1 - r.1) (buf, off) x.given = Q.enqueue ⟨(buf, off), xi, r.1, r.2 + 1, x.given⟩ := by
  unfold G_MAXINST at fits
  rw [RootQueue.fhkS_setrooti, Nat.add_sub_cancel' (le.trans (Nat.le_succ _)),
    Nat.mod_eq_of_lt (show r.2 + 1 < 2 ^ 16 by omega)]

/-- The loop over a complex subset queues the entries of its runs. -/
theorem setrootBody_foldl (le : ∀ r ∈ rs, r.1 ≤ r.2) (fits : ∀ r ∈ rs, r.2 ≤ G_MAXINST) (s : Option (RootQueue × Nat)) :
    ∃ f : Nat → Nat, rs.foldl (fun s r => setrootBody x xi buf s r.1 (r.2 + 1 - r.1)) s =
      s.bind fun s => ((runEntries buf xi x s.2 rs).foldlM RootQueue.enqueue s.1).map fun Q => (Q, f s.2) := by
  induction rs generalizing s with
  | nil => exact ⟨id, by cases s <;> rfl⟩
  | cons r rs ih =>
    obtain ⟨f, rest⟩ := ih (fun r mem => le r (List.mem_cons_of_mem _ mem))
      (fun r mem => fits r (List.mem_cons_of_mem _ mem)) (setrootBody x xi buf s r.1 (r.2 + 1 - r.1))
    refine ⟨fun off => f (off + (r.2 + 1 - r.1) * x.size), ?_⟩
    rw [List.foldl_cons, rest]
    cases s with
    | none => rfl
    | some s =>
      rw [setrootBody, Option.bind_some, Option.bind_some,
        setrooti_run s.1 (le r List.mem_cons_self) (fits r List.mem_cons_self), runEntries, List.foldlM_cons]
      cases s.1.enqueue ⟨(buf, s.2), xi, r.1, r.2 + 1, x.given⟩ <;> rfl

/-- The value buffers after a request: that of a request for the whole space is taken where there is none. -/
def RootState.adopted (S : RootState) (x : RootVar) (xi : Nat) (ss : Word) (buf : Obj) : Nat → Option Obj :=
  if SS_ISIVAL ss ∧ S.Adopts x xi ss then Function.update S.s_value xi (some buf) else S.s_value

theorem SS_ISCOMPLEX_not_ival (isComplex : SS_ISCOMPLEX ss = true) : ss ≠ SS_EMPTYSET ∧ SS_ISIVAL ss = false := by
  obtain ⟨above, below⟩ := (SS_ISCOMPLEX_iff ss).mp isComplex
  constructor
  · rintro rfl
    exact absurd above (by decide)
  · rw [Bool.eq_false_iff, ne_eq, SS_ISIVAL_iff]
    omega

theorem SS_ISIVAL_nonempty (isIval : SS_ISIVAL ss = true) : ss ≠ SS_EMPTYSET := by
  rintro rfl
  exact absurd isIval (by decide)

/-- A request queues the entries of its runs, in order. -/
theorem fhkS_setroot_eq (holds : Holds mem ss rs) : S.fhkS_setroot mem x xi ss buf =
    ((runEntries buf xi x 0 rs).foldlM RootQueue.enqueue S.queue).map fun queue =>
      { S with queue, s_value := S.adopted x xi ss buf } := by
  unfold RootState.fhkS_setroot RootState.adopted
  cases holds with
  | empty =>
    rw [if_pos rfl, if_neg fun both => absurd both.1 (by decide)]
    rfl
  | interval _ isIval pos fits =>
    generalize first_eq : PK_FIRST (ss.setWidth 32) = first at fits
    generalize n1_eq : PK_N1 (ss.setWidth 32) = n1 at pos fits
    have one := @setrooti_run x xi buf S.queue (first, first + n1 - 1) (by simp only; omega) (by simp only; omega) 0
    simp only at one
    rw [show first + n1 - 1 + 1 - first = n1 by omega] at one
    rw [if_neg (SS_ISIVAL_nonempty isIval), if_pos isIval]
    simp only [first_eq, n1_eq, isIval, true_and]
    rw [one, runEntries, runEntries, List.foldlM_cons]
    cases S.queue.enqueue ⟨(buf, 0), xi, first, first + n1 - 1 + 1, x.given⟩ <;> rfl
  | complex _ it _ isComplex start walks maximal fits =>
    obtain ⟨nonempty, notIval⟩ := SS_ISCOMPLEX_not_ival isComplex
    obtain ⟨f, queued⟩ := @setrootBody_foldl x xi buf rs maximal.le fits (some (S.queue, 0))
    rw [if_neg nonempty, if_neg (Bool.not_eq_true _ ▸ notIval), start, Option.bind_some, walks, queued, notIval,
      if_neg fun both => absurd both.1 Bool.false_ne_true]
    simp only [Option.bind_some, Option.join_some, Option.map_map]
    rfl

/-- The subsets of the frontend are cut into the maximal runs of their instances. -/
theorem ssfromidx_holds {idx : List Nat} (insts : Insts idx) {ip : Word} (placed : (ssfromidx idx).Placed mem ip) :
    Holds mem ((ssfromidx idx).ss ip) (Runs.runs (sortInsts idx)) := by
  by_cases nonempty : idx = []
  · subst nonempty
    rw [ssfromidx_nil, sortInsts_nil]
    exact .empty
  obtain ⟨rs, it, maximal, start, walks⟩ := insts.walks nonempty placed
  have packed := ssfromidx_runs nonempty
  rw [maximal.eq_runs] at packed ⊢
  obtain ⟨r, rfl, word⟩ | ⟨many, array⟩ := packed
  · obtain ⟨le, small⟩ := insts.run maximal List.mem_cons_self
    unfold G_MAXINST at small
    have first := pkrange_first le (show r.2 < 2 ^ 16 by omega)
    have n1 := pkrange_n1 le (show r.2 < 2 ^ 16 - 1 by omega)
    have interval : Holds mem (ss1 r.1 r.2) _ := .interval (ss1 r.1 r.2) ((SS_ISIVAL_iff _).mpr ss1_high)
      (by rw [ss1_setWidth, n1]; omega) (by rw [ss1_setWidth, first, n1, G_MAXINST]; omega)
    rw [ss1_setWidth, first, n1, show r.1 + (r.2 + 1 - r.1) - 1 = r.2 by omega] at interval
    rw [word]
    exact interval
  · have few := insts.runs_lt maximal
    rw [array] at placed start ⊢
    obtain ⟨pos, room, -⟩ := placed
    rw [List.length_map] at room
    have isComplex : SS_ISCOMPLEX ((Packed.intervals (rs.map pkrun)).ss ip) = true := by
      rw [SS_ISCOMPLEX_iff, Packed.ss, List.length_map, complex_toNat (by omega) (by omega)]
      omega
    rw [si3_ss, if_pos isComplex] at start
    have flat := maximal.flat
    exact .complex _ it rs isComplex start walks (flat ▸ maximal) fun r there => (insts.run maximal there).2

end SetRoot

end M2.Fhk
