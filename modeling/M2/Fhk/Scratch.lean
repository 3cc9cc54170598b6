import Mathlib.Tactic.IntervalCases
import M2.Mem.Arena

/-!
# Scratch memory of the solver

`S_sbuf_alloc` and `sbuf_alloc_init` of `src/fhk/solve.c`. Buffer, start of the buffer and position
in it are all read off `b_off`. The start computed for a buffer behind the first is twice the
offset at which `b_off` enters it, so only the first allocation there is in bounds.
-/
namespace M2.Fhk

open M2.Mem

def SBUF_MIN_BITS : Nat := 16

def NUM_SBUF : Nat := 8

def SBUF_ALIGN : Word := 8

def f_mask : Word := (1 : Word) <<< SBUF_MIN_BITS - 1

/-- A scratch buffer, with the length it was allocated with. -/
structure Buffer where
  mem : Word
  len : Word

/-- The scratch fields of `struct fhk_solver`. -/
structure Scratch where
  b_off : Word
  b_mem : Nat → Option Buffer

/-- `__builtin_clzl(x | f_mask)`. -/
def sbuf_clzl (x : Word) : Nat := (x ||| f_mask).clz.toNat

/-- `idx` of `S_sbuf_alloc`. -/
def sbuf_idx (b_off size : Word) : Nat := 64 - sbuf_clzl (b_off + size) - SBUF_MIN_BITS

/-- `start` of `S_sbuf_alloc`. A shift by 64 bits only occurs where the call exits. -/
def sbuf_start (newbuf : Nat) : Word := (1 : Word) <<< (64 - newbuf) &&& ~~~ (1 ||| f_mask <<< 1)

/-- The size `S_sbuf_alloc` allocates a buffer with. -/
def sbuf_len (newbuf : Nat) : Word := (1 : Word) <<< (65 - newbuf) - sbuf_start newbuf

/-- `S->b_off` after the change of buffers: the start of the new one, or what it was. -/
def sbuf_off (b_off size : Word) : Word :=
  let oldbuf := sbuf_clzl b_off
  let newbuf := sbuf_clzl (b_off + size)
  if newbuf ≠ oldbuf then sbuf_start newbuf else b_off

/-- `S_sbuf_alloc`, none where it exits with `FHKE_MEM`. -/
def S_sbuf_alloc (arena_alloc : Word → Word → Word) (S : Scratch) (size : Word) : Option (Word × Scratch) :=
  let newbuf := sbuf_clzl (S.b_off + size)
  let idx := sbuf_idx S.b_off size
  let b_off := sbuf_off S.b_off size
  if idx ≥ NUM_SBUF then none
  else
    let buf := (S.b_mem idx).getD ⟨arena_alloc (sbuf_len newbuf) SBUF_ALIGN, sbuf_len newbuf⟩
    some (buf.mem + (b_off - sbuf_start newbuf),
      ⟨ALIGN (b_off + size) SBUF_ALIGN, Function.update S.b_mem idx (some buf)⟩)

/-- `sbuf_alloc_init`. -/
def sbuf_alloc_init (S : Scratch) (size : Word) : Option Word × Scratch :=
  ((S.b_mem 0).map Buffer.mem, { S with b_off := size })

/-! ## The arithmetic of one call -/

theorem sbuf_clzl_le (x : Word) : sbuf_clzl x ≤ 48 := by
  have upper := BitVec.toNat_lt_two_pow_sub_clz (x := x ||| f_mask)
  have low : 65535 ≤ (x ||| f_mask).toNat := by
    rw [BitVec.toNat_or]
    exact Nat.right_le_or
  have big : 65535 < 2 ^ (64 - sbuf_clzl x) := lt_of_le_of_lt low upper
  by_contra over48
  have : 2 ^ (64 - sbuf_clzl x) ≤ 2 ^ 15 := Nat.pow_le_pow_right Nat.two_pos (by omega)
  omega

theorem lt_sbuf_clzl (x : Word) : x.toNat < 2 ^ (64 - sbuf_clzl x) := by
  have upper := BitVec.toNat_lt_two_pow_sub_clz (x := x ||| f_mask)
  rw [BitVec.toNat_or] at upper
  exact lt_of_le_of_lt Nat.left_le_or upper

theorem le_sbuf_clzl {x : Word} (behind : sbuf_clzl x < 48) : 2 ^ (63 - sbuf_clzl x) ≤ x.toNat := by
  have nonzero : x ||| f_mask ≠ 0 := fun zero => by
    have : (x ||| f_mask).clz.toNat = 64 := by rw [zero]; decide
    unfold sbuf_clzl at behind
    omega
  have lower := BitVec.two_pow_sub_clz_le_toNat_of_ne_zero (by decide) nonzero
  change 2 ^ (63 - sbuf_clzl x) ≤ _ at lower
  rw [BitVec.toNat_or] at lower
  by_contra small
  have mask : f_mask.toNat < 2 ^ (63 - sbuf_clzl x) := by
    have : 2 ^ 16 ≤ 2 ^ (63 - sbuf_clzl x) := Nat.pow_le_pow_right Nat.two_pos (by omega)
    have : f_mask.toNat = 65535 := by decide
    omega
  exact absurd lower (Nat.not_le.mpr (Nat.or_lt_two_pow (by omega) mask))

/-- The start and the length of the buffers that there are. -/
theorem sbuf_start_len {newbuf : Nat} (le : newbuf ≤ 48) (few : 64 - newbuf - SBUF_MIN_BITS < NUM_SBUF) :
    (sbuf_start newbuf).toNat = (if newbuf = 48 then 0 else 2 ^ (64 - newbuf)) ∧
      (sbuf_len newbuf).toNat = (if newbuf = 48 then 2 ^ 17 else 2 ^ (64 - newbuf)) := by
  unfold SBUF_MIN_BITS NUM_SBUF at few
  have ge : 41 ≤ newbuf := by omega
  interval_cases newbuf <;> decide

/-! ## Runs -/

def Buffer.stop (b : Buffer) : Nat := b.mem.toNat + b.len.toNat

/-- A scratch memory, with the ranges handed out since the last `sbuf_alloc_init`, the init block
included. -/
structure SbufRun where
  S : Scratch
  taken : List Extent

/-- A call of `sbuf_alloc_init`, or of `S_sbuf_alloc` with the arena as it is then. -/
inductive SbufRun.Op
  | init (size : Word)
  | alloc (arena_alloc : Word → Word → Word) (size : Word)

/-- The session after a call, none after one that exits. -/
def SbufRun.next (s : SbufRun) : Op → Option SbufRun
  | .init size =>
    let (p, S) := sbuf_alloc_init s.S size
    p.map fun p => ⟨S, [⟨p, size⟩]⟩
  | .alloc arena_alloc size =>
    (S_sbuf_alloc arena_alloc s.S size).map fun (p, S) => ⟨S, ⟨p, size⟩ :: s.taken⟩

/-- The scratch memory of a new solver, whose first buffer is at `mem`. -/
def SbufRun.create (mem : Word) : SbufRun :=
  ⟨⟨0, fun idx => if idx = 0 then some ⟨mem, (1 : Word) <<< SBUF_MIN_BITS⟩ else none⟩, []⟩

/-- Every call of the sequence that is made satisfies `P`. -/
def SbufRun.Along (P : SbufRun → Op → Prop) : SbufRun → List Op → Prop
  | _, [] => True
  | s, op :: ops => P s op ∧ ∀ s' ∈ s.next op, Along P s' ops

/-- What the calls are promised: the arena gives memory apart from the buffers, below the end of the
address space, and an init block is smaller than the first buffer, as `sbuf_alloc_init` asserts. -/
def SbufRun.Allowed (s : SbufRun) : Op → Prop
  | .init size => size.toNat < 2 ^ SBUF_MIN_BITS
  | .alloc arena_alloc _ => ∀ len : Word, len.toNat < 2 ^ 24 →
      (arena_alloc len SBUF_ALIGN).toNat + len.toNat ≤ 2 ^ 64 ∧
      ∀ idx, ∀ b ∈ s.S.b_mem idx, (arena_alloc len SBUF_ALIGN).toNat + len.toNat ≤ b.mem.toNat ∨
        b.stop ≤ (arena_alloc len SBUF_ALIGN).toNat

/-- A call exits, or returns a range inside the buffer it was taken from and apart from every range
since the last init. -/
def SbufRun.Sound (s : SbufRun) : Op → Prop
  | .init _ => True
  | .alloc arena_alloc size => ∀ p S', S_sbuf_alloc arena_alloc s.S size = some (p, S') →
      (∃ b ∈ S'.b_mem (sbuf_idx s.S.b_off size), b.mem.toNat ≤ p.toNat ∧ p.toNat + size.toNat ≤ b.stop) ∧
      ∀ r ∈ s.taken, Extent.Apart ⟨p, size⟩ r

/-- A call exits, or its sum does not wrap and ends in the first buffer or at a greater power of two
than the position. -/
def SbufRun.Advances (s : SbufRun) : Op → Prop
  | .init _ => True
  | .alloc _ size => sbuf_idx s.S.b_off size ≥ NUM_SBUF ∨
      s.S.b_off.toNat + size.toNat < 2 ^ 64 ∧
        (s.S.b_off.toNat + size.toNat < 2 ^ SBUF_MIN_BITS ∨
          sbuf_clzl (s.S.b_off + size) ≠ sbuf_clzl s.S.b_off)

/-- The buffers lie apart and have the lengths of the layout. -/
structure Buffers (b_mem : Nat → Option Buffer) : Prop where
  first : (b_mem 0).isSome
  few : ∀ idx, ∀ b ∈ b_mem idx, idx < NUM_SBUF
  len : ∀ idx, ∀ b ∈ b_mem idx, b.len.toNat = 2 ^ (idx + 16)
  stop : ∀ idx, ∀ b ∈ b_mem idx, b.stop ≤ 2 ^ 64
  apart : ∀ i j, i ≠ j → ∀ b ∈ b_mem i, ∀ c ∈ b_mem j, b.stop ≤ c.mem.toNat ∨ c.stop ≤ b.mem.toNat

/-- Where a range lies: behind `b_off` in the first buffer, or in a buffer whose length `b_off` has
passed. -/
def Passed (S : Scratch) (r : Extent) : Prop :=
  ∃ idx, ∃ b ∈ S.b_mem idx, b.mem.toNat ≤ r.start.toNat ∧ r.stop ≤ b.stop ∧
    (idx = 0 ∧ r.stop ≤ b.mem.toNat + S.b_off.toNat ∨ 0 < idx ∧ 2 ^ (idx + 16) ≤ S.b_off.toNat)

/-- The invariant of the calls that advance. -/
structure SbufRun.Inv (s : SbufRun) : Prop where
  buffers : Buffers s.S.b_mem
  off : s.S.b_off.toNat < 2 ^ 24 + 8
  passed : ∀ r ∈ s.taken, Passed s.S r

/-- The buffer that `S_sbuf_alloc` allocates. -/
theorem Buffers.update {b_mem : Nat → Option Buffer} (buffers : Buffers b_mem) {idx : Nat} {b : Buffer}
    (few : idx < NUM_SBUF) (len : b.len.toNat = 2 ^ (idx + 16)) (stop : b.stop ≤ 2 ^ 64)
    (apart : ∀ j, j ≠ idx → ∀ c ∈ b_mem j, b.stop ≤ c.mem.toNat ∨ c.stop ≤ b.mem.toNat) :
    Buffers (Function.update b_mem idx (some b)) := by
  have cases : ∀ i, ∀ c ∈ Function.update b_mem idx (some b) i, i = idx ∧ c = b ∨ i ≠ idx ∧ c ∈ b_mem i := by
    intro i c mem
    by_cases same : i = idx
    · subst same
      rw [Function.update_self, Option.mem_some] at mem
      exact .inl ⟨rfl, mem.symm⟩
    · rw [Function.update_of_ne same] at mem
      exact .inr ⟨same, mem⟩
  refine ⟨?_, fun i c mem => ?_, fun i c mem => ?_, fun i c mem => ?_, fun i j ne c mem_c d mem_d => ?_⟩
  · by_cases zero : 0 = idx
    · rw [zero, Function.update_self]
      rfl
    · rw [Function.update_of_ne zero]
      exact buffers.first
  · obtain ⟨rfl, rfl⟩ | ⟨-, mem⟩ := cases i c mem
    · exact few
    · exact buffers.few i c mem
  · obtain ⟨rfl, rfl⟩ | ⟨-, mem⟩ := cases i c mem
    · exact len
    · exact buffers.len i c mem
  · obtain ⟨rfl, rfl⟩ | ⟨-, mem⟩ := cases i c mem
    · exact stop
    · exact buffers.stop i c mem
  · obtain ⟨rfl, rfl⟩ | ⟨ne_c, old_c⟩ := cases i c mem_c
    · obtain ⟨rfl, rfl⟩ | ⟨ne_d, old_d⟩ := cases j d mem_d
      · exact absurd rfl ne
      · exact apart j ne_d d old_d
    · obtain ⟨rfl, rfl⟩ | ⟨-, old_d⟩ := cases j d mem_d
      · exact (apart i ne_c c old_c).symm
      · exact buffers.apart i j ne c old_c d old_d

/-- What a call returns: the buffer it comes from is in its place among the others, and the old
buffers stay. -/
structure Returned (s : SbufRun) (size p : Word) (S' : Scratch) (b : Buffer) : Prop where
  few : sbuf_idx s.S.b_off size < NUM_SBUF
  buffers : Buffers S'.b_mem
  here : b ∈ S'.b_mem (sbuf_idx s.S.b_off size)
  kept : ∀ idx, ∀ c ∈ s.S.b_mem idx, c ∈ S'.b_mem idx
  at_off : p = b.mem + (sbuf_off s.S.b_off size - sbuf_start (sbuf_clzl (s.S.b_off + size)))
  next : S'.b_off = ALIGN (sbuf_off s.S.b_off size + size) SBUF_ALIGN

theorem Buffers.returned {s : SbufRun} (buffers : Buffers s.S.b_mem) {arena_alloc : Word → Word → Word}
    {size p : Word} {S' : Scratch} (allowed : s.Allowed (.alloc arena_alloc size))
    (taken : S_sbuf_alloc arena_alloc s.S size = some (p, S')) : ∃ b, Returned s size p S' b := by
  unfold S_sbuf_alloc at taken
  simp only at taken
  split at taken
  · cases taken
  rename_i few
  have few := Nat.lt_of_not_le few
  cases taken
  cases old : s.S.b_mem (sbuf_idx s.S.b_off size) with
  | some b =>
    have same : Function.update s.S.b_mem (sbuf_idx s.S.b_off size) (some b) = s.S.b_mem := by
      rw [← old, Function.update_eq_self]
    simp only [Option.getD_some, same]
    exact ⟨b, few, buffers, old, fun _ _ => id, rfl, rfl⟩
  | none =>
    have le := sbuf_clzl_le (s.S.b_off + size)
    have behind : sbuf_clzl (s.S.b_off + size) ≠ 48 := fun zero => by
      have first := buffers.first
      rw [sbuf_idx, zero] at old
      rw [show (0 : Nat) = 64 - 48 - SBUF_MIN_BITS from rfl, old] at first
      cases first
    have len := (sbuf_start_len le few).2
    rw [if_neg behind] at len
    have idx_eq : 64 - sbuf_clzl (s.S.b_off + size) = sbuf_idx s.S.b_off size + 16 := by
      unfold sbuf_idx SBUF_MIN_BITS
      omega
    rw [idx_eq] at len
    have small : (sbuf_len (sbuf_clzl (s.S.b_off + size))).toNat < 2 ^ 24 := by
      rw [len]
      unfold NUM_SBUF at few
      exact Nat.pow_lt_pow_right (by decide) (by omega)
    obtain ⟨room, apart⟩ := allowed _ small
    simp only [Option.getD_none]
    refine ⟨_, few, buffers.update few len room fun j _ c mem => apart j c mem, Function.update_self .., fun idx c mem => ?_,
      rfl, rfl⟩
    have ne : idx ≠ sbuf_idx s.S.b_off size := fun same => by
      rw [same, old] at mem
      cases mem
    simp only [Function.update_of_ne ne]
    exact mem

theorem sbuf_clzl_eq {x : Word} (small : x.toNat < 2 ^ 16) : sbuf_clzl x = 48 := by
  by_contra ne
  have le := sbuf_clzl_le x
  have low := le_sbuf_clzl (x := x) (by omega)
  have : 2 ^ 16 ≤ 2 ^ (63 - sbuf_clzl x) := Nat.pow_le_pow_right Nat.two_pos (by omega)
  omega

theorem le_ALIGN_off {n : Word} (small : n.toNat < 2 ^ 24) :
    n.toNat ≤ (ALIGN n SBUF_ALIGN).toNat ∧ (ALIGN n SBUF_ALIGN).toNat ≤ n.toNat + 7 := by
  have eight : SBUF_ALIGN.toNat = 8 := rfl
  refine ⟨le_ALIGN (by decide) (by omega), ?_⟩
  have := le_add_ALIGN (n := n) (m := SBUF_ALIGN) (by decide) (by omega)
  omega

/-- A call that stays in the first buffer. -/
theorem Returned.first {s : SbufRun} {size p : Word} {S' : Scratch} {b : Buffer} (returned : Returned s size p S' b)
    (sum : s.S.b_off.toNat + size.toNat < 2 ^ 16) :
    sbuf_idx s.S.b_off size = 0 ∧ p = b.mem + s.S.b_off ∧ s.S.b_off.toNat + size.toNat ≤ S'.b_off.toNat ∧
      S'.b_off.toNat < 2 ^ 17 := by
  have total : (s.S.b_off + size).toNat = s.S.b_off.toNat + size.toNat := by
    rw [BitVec.toNat_add, Nat.mod_eq_of_lt (by omega)]
  have new := sbuf_clzl_eq (x := s.S.b_off + size) (by omega)
  have old := sbuf_clzl_eq (x := s.S.b_off) (by omega)
  have off : sbuf_off s.S.b_off size = s.S.b_off := by
    unfold sbuf_off
    simp only [new, old, ne_eq, not_true_eq_false, if_false]
  obtain ⟨low, high⟩ := le_ALIGN_off (n := s.S.b_off + size) (by omega)
  have next := returned.next
  have at_off := returned.at_off
  rw [off] at next at_off
  rw [new, show sbuf_start 48 = 0#64 by decide, BitVec.sub_zero] at at_off
  rw [next]
  exact ⟨by rw [sbuf_idx, new]; rfl, at_off, by omega, by omega⟩

/-- A call that moves on to another buffer. -/
theorem Returned.moves {s : SbufRun} {size p : Word} {S' : Scratch} {b : Buffer} (returned : Returned s size p S' b)
    (sum : s.S.b_off.toNat + size.toNat < 2 ^ 64)
    (ne : sbuf_clzl (s.S.b_off + size) ≠ sbuf_clzl s.S.b_off) :
    0 < sbuf_idx s.S.b_off size ∧ s.S.b_off.toNat < 2 ^ (sbuf_idx s.S.b_off size + 15) ∧ p = b.mem ∧
      size.toNat ≤ b.len.toNat ∧ 2 ^ (sbuf_idx s.S.b_off size + 16) ≤ S'.b_off.toNat ∧ S'.b_off.toNat < 2 ^ 24 + 7 := by
  have total : (s.S.b_off + size).toNat = s.S.b_off.toNat + size.toNat := by
    rw [BitVec.toNat_add, Nat.mod_eq_of_lt (by omega)]
  have le := sbuf_clzl_le (s.S.b_off + size)
  have le_old := sbuf_clzl_le s.S.b_off
  have upper := lt_sbuf_clzl (s.S.b_off + size)
  have less : sbuf_clzl (s.S.b_off + size) < sbuf_clzl s.S.b_off := by
    by_contra not_less
    have lower := le_sbuf_clzl (x := s.S.b_off) (by omega)
    have : 2 ^ (64 - sbuf_clzl (s.S.b_off + size)) ≤ 2 ^ (63 - sbuf_clzl s.S.b_off) :=
      Nat.pow_le_pow_right Nat.two_pos (by omega)
    omega
  have few := returned.few
  have start := (sbuf_start_len le few).1
  rw [if_neg (by omega)] at start
  have idx_eq : 64 - sbuf_clzl (s.S.b_off + size) = sbuf_idx s.S.b_off size + 16 := by
    unfold sbuf_idx SBUF_MIN_BITS
    omega
  rw [idx_eq] at start upper
  have off : sbuf_off s.S.b_off size = sbuf_start (sbuf_clzl (s.S.b_off + size)) := by
    unfold sbuf_off
    simp only [if_pos ne]
  have at_off := returned.at_off
  have next := returned.next
  rw [off, BitVec.sub_self, BitVec.add_zero] at at_off
  rw [off] at next
  have len := returned.buffers.len _ b returned.here
  have old : s.S.b_off.toNat < 2 ^ (sbuf_idx s.S.b_off size + 15) :=
    lt_of_lt_of_le (lt_sbuf_clzl s.S.b_off) (Nat.pow_le_pow_right Nat.two_pos (by omega))
  have half : 2 ^ (sbuf_idx s.S.b_off size + 16) ≤ 2 ^ 23 := by
    unfold NUM_SBUF at few
    exact Nat.pow_le_pow_right Nat.two_pos (by omega)
  have reach : (sbuf_start (sbuf_clzl (s.S.b_off + size)) + size).toNat =
      2 ^ (sbuf_idx s.S.b_off size + 16) + size.toNat := by
    rw [BitVec.toNat_add, start, Nat.mod_eq_of_lt (by omega)]
  obtain ⟨low, high⟩ := le_ALIGN_off (n := sbuf_start (sbuf_clzl (s.S.b_off + size)) + size) (by omega)
  rw [next]
  refine ⟨?_, old, at_off, by omega, by omega, by omega⟩
  unfold sbuf_idx SBUF_MIN_BITS
  omega

/-- A call that stays in a buffer behind the first returns a range before it. -/
theorem Returned.not_inside {s : SbufRun} {size p : Word} {S' : Scratch} {b : Buffer}
    (returned : Returned s size p S' b) (sum : s.S.b_off.toNat + size.toNat < 2 ^ 64)
    (behind : 2 ^ 16 ≤ s.S.b_off.toNat + size.toNat)
    (eq : sbuf_clzl (s.S.b_off + size) = sbuf_clzl s.S.b_off) (low : b.mem.toNat ≤ p.toNat) :
    b.stop < p.toNat + size.toNat := by
  have total : (s.S.b_off + size).toNat = s.S.b_off.toNat + size.toNat := by
    rw [BitVec.toNat_add, Nat.mod_eq_of_lt (by omega)]
  have le := sbuf_clzl_le (s.S.b_off + size)
  have upper := lt_sbuf_clzl (s.S.b_off + size)
  have not_first : sbuf_clzl (s.S.b_off + size) ≠ 48 := fun first => by
    rw [first] at upper
    omega
  have few := returned.few
  have start := (sbuf_start_len le few).1
  rw [if_neg not_first] at start
  have off : sbuf_off s.S.b_off size = s.S.b_off := by
    unfold sbuf_off
    simp only [eq, ne_eq, not_true_eq_false, if_false]
  have at_off := returned.at_off
  rw [off] at at_off
  have idx_eq : 64 - sbuf_clzl (s.S.b_off + size) = sbuf_idx s.S.b_off size + 16 := by
    unfold sbuf_idx SBUF_MIN_BITS
    omega
  have short := lt_sbuf_clzl s.S.b_off
  rw [← eq, idx_eq] at short
  rw [idx_eq] at start
  have len := returned.buffers.len _ b returned.here
  have half : 2 ^ (sbuf_idx s.S.b_off size + 16) ≤ 2 ^ 23 := by
    unfold NUM_SBUF at few
    exact Nat.pow_le_pow_right Nat.two_pos (by omega)
  generalize 2 ^ (sbuf_idx s.S.b_off size + 16) = full at *
  rw [at_off, BitVec.toNat_add, BitVec.toNat_sub, start] at low ⊢
  unfold Buffer.stop
  omega

/-- Where the calls before advanced, a call is sound exactly where it advances. -/
theorem SbufRun.Inv.sound_iff {s : SbufRun} (inv : s.Inv) {op : SbufRun.Op} (allowed : s.Allowed op) :
    s.Sound op ↔ s.Advances op := by
  cases op with
  | init size => exact Iff.rfl
  | alloc arena_alloc size =>
    constructor
    · intro sound
      by_contra stuck
      obtain ⟨few, stuck⟩ := not_or.mp stuck
      have taken : ∃ p S', S_sbuf_alloc arena_alloc s.S size = some (p, S') := by
        unfold S_sbuf_alloc
        simp only [if_neg few]
        exact ⟨_, _, rfl⟩
      obtain ⟨p, S', taken⟩ := taken
      obtain ⟨b, returned⟩ := inv.buffers.returned allowed taken
      obtain ⟨⟨c, here, low, high⟩, -⟩ := sound p S' taken
      obtain rfl : b = c := Option.some.inj (returned.here.symm.trans here)
      have small : b.len.toNat ≤ 2 ^ 23 := by
        rw [returned.buffers.len _ b here]
        have few := returned.few
        unfold NUM_SBUF at few
        exact Nat.pow_le_pow_right Nat.two_pos (by omega)
      have off := inv.off
      by_cases sum : s.S.b_off.toNat + size.toNat < 2 ^ 64
      · obtain ⟨behind, eq⟩ := not_or.mp (not_and.mp stuck sum)
        have := returned.not_inside sum (Nat.not_lt.mp behind) (not_not.mp eq) low
        omega
      · unfold Buffer.stop at high
        omega
    · intro advances p S' taken
      obtain ⟨b, returned⟩ := inv.buffers.returned allowed taken
      obtain few | ⟨sum, first | ne⟩ := advances
      · exact absurd returned.few (Nat.not_lt.mpr few)
      · change _ < 2 ^ 16 at first
        obtain ⟨zero, at_off, next, -⟩ := returned.first first
        have len := returned.buffers.len _ b returned.here
        have stop := returned.buffers.stop _ b returned.here
        have here := returned.here
        rw [zero] at len here
        unfold Buffer.stop at stop
        have p_eq : p.toNat = b.mem.toNat + s.S.b_off.toNat := by
          rw [at_off, BitVec.toNat_add, Nat.mod_eq_of_lt (by omega)]
        refine ⟨⟨b, returned.here, by omega, by unfold Buffer.stop; omega⟩, fun r mem => ?_⟩
        obtain ⟨idx, c, c_here, low, high, side⟩ := inv.passed r mem
        obtain ⟨rfl, before⟩ | ⟨-, past⟩ := side
        · obtain rfl : b = c := Option.some.inj (here.symm.trans (returned.kept 0 c c_here))
          refine .inr ?_
          simp only
          omega
        · have : 2 ^ 16 ≤ 2 ^ (idx + 16) := Nat.pow_le_pow_right Nat.two_pos (by omega)
          omega
      · obtain ⟨pos, old, rfl, size_le, -⟩ := returned.moves sum ne
        refine ⟨⟨b, returned.here, le_rfl, by unfold Buffer.stop; omega⟩, fun r mem => ?_⟩
        obtain ⟨idx, c, c_here, low, high, side⟩ := inv.passed r mem
        have other : sbuf_idx s.S.b_off size ≠ idx := by
          rintro rfl
          obtain ⟨zero, -⟩ | ⟨-, past⟩ := side
          · omega
          · have : 2 ^ (sbuf_idx s.S.b_off size + 15) ≤ 2 ^ (sbuf_idx s.S.b_off size + 16) :=
              Nat.pow_le_pow_right Nat.two_pos (by omega)
            omega
        have apart := returned.buffers.apart _ _ other b returned.here c (returned.kept idx c c_here)
        unfold Extent.Apart Extent.stop Buffer.stop at *
        simp only
        omega

theorem SbufRun.Inv.next {s s' : SbufRun} (inv : s.Inv) {op : SbufRun.Op} (allowed : s.Allowed op)
    (advances : s.Advances op) (next : s' ∈ s.next op) : s'.Inv := by
  cases op with
  | init size =>
    obtain ⟨b, here⟩ := Option.isSome_iff_exists.mp inv.buffers.first
    unfold SbufRun.next sbuf_alloc_init at next
    simp only [here, Option.map_some, Option.mem_some] at next
    subst next
    have small : size.toNat < 2 ^ 16 := allowed
    have len := inv.buffers.len 0 b here
    refine ⟨inv.buffers, by simp only; omega, fun r mem => ?_⟩
    rw [List.mem_singleton.mp mem]
    refine ⟨0, b, here, le_rfl, ?_, .inl ⟨rfl, le_rfl⟩⟩
    unfold Extent.stop Buffer.stop
    simp only
    omega
  | alloc arena_alloc size =>
    obtain ⟨⟨p, S'⟩, taken, rfl⟩ := Option.map_eq_some_iff.mp next
    obtain ⟨b, returned⟩ := inv.buffers.returned allowed taken
    have sound := ((inv.sound_iff allowed).mpr advances) p S' taken
    obtain ⟨⟨c, c_here, low, high⟩, -⟩ := sound
    obtain rfl : b = c := Option.some.inj (returned.here.symm.trans c_here)
    have keep (grows : s.S.b_off.toNat ≤ S'.b_off.toNat) (r : Extent) (mem : r ∈ s.taken) : Passed S' r := by
      obtain ⟨idx, c, c_here, low, high, side⟩ := inv.passed r mem
      exact ⟨idx, c, returned.kept idx c c_here, low, high, by omega⟩
    obtain few | ⟨sum, first | ne⟩ := advances
    · exact absurd returned.few (Nat.not_lt.mpr few)
    · change _ < 2 ^ 16 at first
      obtain ⟨zero, at_off, reach, upper⟩ := returned.first first
      refine ⟨returned.buffers, by simp only; omega, fun r mem => ?_⟩
      obtain rfl | mem := List.mem_cons.mp mem
      · refine ⟨_, b, returned.here, low, high, .inl ⟨zero, ?_⟩⟩
        have stop := returned.buffers.stop _ b returned.here
        have len := returned.buffers.len _ b returned.here
        rw [zero] at len
        unfold Buffer.stop at stop
        unfold Extent.stop
        simp only
        rw [at_off, BitVec.toNat_add, Nat.mod_eq_of_lt (by omega)]
        omega
      · exact keep (by omega) r mem
    · obtain ⟨pos, old, -, -, reach, upper⟩ := returned.moves sum ne
      refine ⟨returned.buffers, by simp only; omega, fun r mem => ?_⟩
      obtain rfl | mem := List.mem_cons.mp mem
      · exact ⟨_, b, returned.here, low, high, .inr ⟨pos, reach⟩⟩
      · refine keep ?_ r mem
        have : 2 ^ (sbuf_idx s.S.b_off size + 15) ≤ 2 ^ (sbuf_idx s.S.b_off size + 16) :=
          Nat.pow_le_pow_right Nat.two_pos (by omega)
        omega

theorem SbufRun.create_inv {mem : Word} (room : mem.toNat + 2 ^ SBUF_MIN_BITS ≤ 2 ^ 64) : (create mem).Inv := by
  have only : ∀ idx, ∀ b ∈ (create mem).S.b_mem idx, idx = 0 ∧ b = ⟨mem, (1 : Word) <<< SBUF_MIN_BITS⟩ := by
    intro idx b here
    unfold create at here
    simp only at here
    split at here
    · rename_i zero
      exact ⟨zero, (Option.some.inj here).symm⟩
    · cases here
  refine ⟨⟨rfl, fun idx b here => ?_, fun idx b here => ?_, fun idx b here => ?_, fun i j ne b b_here c c_here => ?_⟩,
    by simp [create], fun r mem => by cases mem⟩
  · rw [(only idx b here).1]
    decide
  · obtain ⟨rfl, rfl⟩ := only idx b here
    rfl
  · obtain ⟨rfl, rfl⟩ := only idx b here
    exact room
  · exact absurd ((only i b b_here).1.trans (only j c c_here).1.symm) ne

theorem SbufRun.Inv.along {s : SbufRun} (inv : s.Inv) {ops : List SbufRun.Op} (allowed : s.Along Allowed ops) :
    s.Along Sound ops ↔ s.Along Advances ops := by
  induction ops generalizing s with
  | nil => exact Iff.rfl
  | cons op ops ih =>
    rw [SbufRun.Along, SbufRun.Along, inv.sound_iff allowed.1]
    refine and_congr_right fun advances => ?_
    constructor
    · exact fun sound s' next => (ih (inv.next allowed.1 advances next) (allowed.2 s' next)).mp (sound s' next)
    · exact fun later s' next => (ih (inv.next allowed.1 advances next) (allowed.2 s' next)).mpr (later s' next)

/-- In every sequence of calls on the scratch memory of a solver, the ranges are in bounds and
apart exactly where every allocation advances. -/
theorem scratch_sound_iff {mem : Word} (room : mem.toNat + 2 ^ SBUF_MIN_BITS ≤ 2 ^ 64) {ops : List SbufRun.Op}
    (allowed : (SbufRun.create mem).Along SbufRun.Allowed ops) :
    (SbufRun.create mem).Along SbufRun.Sound ops ↔ (SbufRun.create mem).Along SbufRun.Advances ops :=
  (SbufRun.create_inv room).along allowed

namespace SbufRun

/-- An arena that gives memory at `place`. -/
def arenaAt (place _ _ : Word) : Word := place

theorem allowed_arenaAt {s : SbufRun} {place size : Word} (low : place.toNat ≤ 2 ^ 32)
    (below : ∀ idx, ∀ b ∈ s.S.b_mem idx, b.stop ≤ place.toNat) : s.Allowed (.alloc (arenaAt place) size) := by
  intro len short
  have at_len : (arenaAt place len SBUF_ALIGN).toNat = place.toNat := rfl
  rw [at_len]
  exact ⟨by omega, fun idx b here => .inr (below idx b here)⟩

theorem below_create {limit : Nat} (above : 131072 ≤ limit) (idx : Nat) :
    ∀ b ∈ (create 65536).S.b_mem idx, b.stop ≤ limit := by
  intro b here
  unfold create at here
  simp only at here
  split at here
  · cases here
    exact above
  · cases here

/-- The first buffer at 65536, the second at 1048576. -/
def two : SbufRun :=
  ⟨⟨201072, Function.update (create 65536).S.b_mem 1 (some ⟨1048576, 131072⟩)⟩, [⟨1048576, 70000⟩, ⟨65536, 0⟩]⟩

/-- An init block, then an allocation that leaves the first buffer. -/
def leave : List Op := [.init 0, .alloc (arenaAt 1048576) 70000]

theorem below_two (idx : Nat) : ∀ b ∈ two.S.b_mem idx, b.stop ≤ 2097152 := by
  intro b here
  unfold two at here
  by_cases second : idx = 1
  · subst second
    cases here
    decide
  · simp only [Function.update_of_ne second] at here
    exact below_create (by decide) idx b here

theorem next_leave {s : SbufRun} (next : s ∈ (⟨⟨0, (create 65536).S.b_mem⟩, [⟨65536, 0⟩]⟩ : SbufRun).next
    (.alloc (arenaAt 1048576) 70000)) : s = two := by
  cases next
  rfl

/-- Every call of `ops` after `leave` is allowed where those are. -/
theorem allowed_leave {ops : List Op} (rest : two.Along Allowed ops) :
    (create 65536).Along Allowed (leave ++ ops) := by
  refine ⟨Nat.two_pow_pos _, fun s next => ?_⟩
  cases next
  refine ⟨allowed_arenaAt (by decide) (below_create (by decide)), fun s next => ?_⟩
  rw [next_leave next]
  exact rest

theorem scratch_sound_iff_leave :
    (create 65536).Along Sound leave ↔ (create 65536).Along Advances leave :=
  scratch_sound_iff (by decide) (allowed_leave trivial)

/-- The next allocation from the second buffer lies before it. -/
theorem not_sound_stay :
    (create 65536).Along Allowed (leave ++ [.alloc (arenaAt 2097152) 8]) ∧
      ¬ (create 65536).Along Sound (leave ++ [.alloc (arenaAt 2097152) 8]) := by
  refine ⟨allowed_leave ⟨allowed_arenaAt (by decide) below_two, fun _ _ => trivial⟩, fun sound => ?_⟩
  obtain ⟨⟨b, here, low, -⟩, -⟩ := ((sound.2 _ rfl).2 two rfl).1 _ _ rfl
  cases here
  revert low
  decide

end SbufRun
end M2.Fhk
