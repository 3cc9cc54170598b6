import Mathlib.Data.Nat.Bitwise
import Mathlib.Tactic.Ring
import M2.Lib.Bits

/-!
# Regions and block copies

`bump` and `reg_alloc` of `src/mem.c` on 64-bit words, and `blockcpy` of `src/sim.c` on a
byte memory. `bump` compares `r + size` with the end of the region after the sum has
wrapped; its result is in the region only where the sum does not wrap.
-/
namespace M2.Mem

/-- `uintptr_t`, `size_t`. -/
abbrev Word := BitVec 64

/-- A byte memory. -/
abbrev Bytes := Nat → BitVec 8

/-- `SIM_SAVEPOINT_BLOCKSIZE`. -/
def SIM_SAVEPOINT_BLOCKSIZE : Nat := 64

/-- `struct region`. The source's `end` is `stop`. -/
structure Region where
  ptr : Word
  stop : Word
  mem : Word

/-- `ALIGN(n, m)`. -/
def ALIGN (n m : Word) : Word := (n + m - 1) &&& ~~~ (m - 1)

/-- `bump`: the block and the new position, none for `NULL`. -/
def bump (p size align stop : Word) : Option (Word × Word) :=
  let r := ALIGN p align
  if r + size < stop then some (r, r + size) else none

/-- `reg_init`. -/
def reg_init (mem size : Word) : Region := ⟨mem, mem + size, mem⟩

/-- `REG_RESET`. -/
def REG_RESET (r : Region) : Region := { r with ptr := r.mem }

/-- `reg_alloc`: the block, and the region after it. -/
def reg_alloc (r : Region) (sz align : Word) : Option Word × Region :=
  match bump r.ptr sz align r.stop with
  | some (p, ptr) => (some p, { r with ptr })
  | none => (none, r)

/-- The aligned start and the end of a block do not wrap. -/
def Fits (ptr sz align : Word) : Prop :=
  0 < align.toNat ∧ ptr.toNat + (align.toNat - 1) < 2 ^ 64 ∧ (ALIGN ptr align).toNat + sz.toNat < 2 ^ 64

instance (ptr sz align : Word) : Decidable (Fits ptr sz align) := by
  unfold Fits
  infer_instance

/-- Clearing the bits of `y` takes at most `y` away. -/
theorem le_and_not_add (x y : Word) : x.toNat ≤ (x &&& ~~~ y).toNat + y.toNat := by
  have low : (x &&& y).toNat ≤ y.toNat := by
    rw [BitVec.toNat_and]
    exact Nat.and_le_right
  have sum : x.toNat ≤ (x &&& ~~~ y).toNat + (x &&& y).toNat := by
    conv_lhs => rw [← Lib.Bits.and_not_add x y]
    rw [BitVec.toNat_add]
    exact Nat.mod_le _ _
  omega

/-- The sum `ALIGN` masks, where it does not wrap. -/
theorem ALIGN_sum {n m : Word} (pos : 0 < m.toNat) (room : n.toNat + (m.toNat - 1) < 2 ^ 64) :
    (n + m - 1).toNat = n.toNat + (m.toNat - 1) := by
  have less : (m - 1).toNat = m.toNat - 1 := by
    rw [BitVec.toNat_sub]
    have := m.isLt
    rw [show (1 : Word).toNat = 1 from rfl]
    omega
  rw [show n + m - 1 = n + (m - 1) by rw [BitVec.sub_eq_add_neg, BitVec.add_assoc, ← BitVec.sub_eq_add_neg],
    BitVec.toNat_add, less, Nat.mod_eq_of_lt room]

theorem le_ALIGN {n m : Word} (pos : 0 < m.toNat) (room : n.toNat + (m.toNat - 1) < 2 ^ 64) :
    n.toNat ≤ (ALIGN n m).toNat := by
  have less : (m - 1).toNat ≤ m.toNat - 1 := by
    rw [BitVec.toNat_sub]
    have := m.isLt
    rw [show (1 : Word).toNat = 1 from rfl]
    omega
  have := le_and_not_add (n + m - 1) (m - 1)
  rw [ALIGN_sum pos room] at this
  rw [ALIGN]
  omega

theorem le_add_ALIGN {n m : Word} (pos : 0 < m.toNat) (room : n.toNat + (m.toNat - 1) < 2 ^ 64) :
    (ALIGN n m).toNat ≤ n.toNat + (m.toNat - 1) := by
  rw [ALIGN, BitVec.toNat_and, ALIGN_sum pos room]
  exact Nat.and_le_left

/-- Aligning to a power of two gives a multiple of it. -/
theorem ALIGN_power {n m : Word} {k : Nat} (le : k ≤ 64) (power : m.toNat = 2 ^ k) :
    2 ^ k ∣ (ALIGN n m).toNat := by
  have less : (m - 1).toNat = 2 ^ k - 1 := by
    rw [BitVec.toNat_sub, show (1 : Word).toNat = 1 from rfl, power]
    have : 0 < 2 ^ k := Nat.two_pow_pos k
    have := m.isLt
    omega
  have high : (~~~ (m - 1)).toNat = Lib.Bits.mask (64 - k) k := by
    rw [BitVec.toNat_not, less, Lib.Bits.mask, Nat.sub_mul, ← pow_add, Nat.sub_add_cancel le]
    have : 0 < 2 ^ k := Nat.two_pow_pos k
    have : 2 ^ k ≤ 2 ^ 64 := Nat.pow_le_pow_right (by decide) le
    omega
  rw [ALIGN, BitVec.toNat_and, high, Lib.Bits.and_mask]
  exact Nat.dvd_mul_left _ _

/-- Aligning to the block size gives a multiple of it. -/
theorem ALIGN_block (n : Word) : (ALIGN n 64).toNat % 64 = 0 :=
  Nat.mod_eq_zero_of_dvd (ALIGN_power (k := 6) (by decide) rfl)

/-- A multiple of the block size is aligned for the record. -/
theorem ALIGN_of_block {n : Word} (block : n.toNat % 64 = 0) : ALIGN n 8 = n := by
  apply BitVec.eq_of_toNat_eq
  have room : n.toNat + ((8 : Word).toNat - 1) < 2 ^ 64 := by
    have := n.isLt
    rw [show (8 : Word).toNat = 8 from rfl]
    omega
  have low := le_ALIGN (m := 8) (by decide) room
  have high := le_add_ALIGN (m := 8) (by decide) room
  have power := ALIGN_power (n := n) (m := 8) (k := 3) (by decide) rfl
  rw [show (8 : Word).toNat = 8 from rfl] at high
  omega

/-- What `reg_alloc` returns where it does not wrap. -/
theorem reg_alloc_some {r r' : Region} {sz align p : Word} (fits : Fits r.ptr sz align)
    (taken : reg_alloc r sz align = (some p, r')) :
    p = ALIGN r.ptr align ∧ r' = { r with ptr := r'.ptr } ∧ r.ptr.toNat ≤ p.toNat ∧
      r'.ptr.toNat = p.toNat + sz.toNat ∧ r'.ptr.toNat < r.stop.toNat := by
  obtain ⟨pos, room, room'⟩ := fits
  unfold reg_alloc bump at taken
  simp only at taken
  split at taken
  · rename_i p' ptr bumped
    split at bumped
    · rename_i below
      cases bumped
      cases taken
      refine ⟨rfl, rfl, le_ALIGN pos room, ?_, below⟩
      rw [BitVec.toNat_add, Nat.mod_eq_of_lt room']
    · cases bumped
  · cases taken

theorem reg_alloc_none {r r' : Region} {sz align : Word} (failed : reg_alloc r sz align = (none, r')) :
    r' = r := by
  unfold reg_alloc at failed
  split at failed
  · cases failed
  · cases failed
    rfl

/-- One iteration of `blockcpy`. -/
def copyBlock (bytes : Bytes) (dst src : Nat) : Bytes := fun a =>
  if dst ≤ a ∧ a < dst + SIM_SAVEPOINT_BLOCKSIZE then bytes (src + (a - dst)) else bytes a

/-- The loop of `blockcpy`, at index `i`. -/
def blockcpyLoop (bytes : Bytes) (dst src i size : Nat) : Bytes :=
  if i < size then
    blockcpyLoop (copyBlock bytes dst src) (dst + SIM_SAVEPOINT_BLOCKSIZE) (src + SIM_SAVEPOINT_BLOCKSIZE)
      (i + SIM_SAVEPOINT_BLOCKSIZE) size
  else bytes
termination_by size - i
decreasing_by
  simp only [SIM_SAVEPOINT_BLOCKSIZE]
  omega

/-- `blockcpy`. -/
def blockcpy (bytes : Bytes) (dst src size : Nat) : Bytes := blockcpyLoop bytes dst src 0 size

/-- The bytes `blockcpy` writes: `size` rounded up to whole blocks. -/
def copied (size : Nat) : Nat := (size + 63) / 64 * 64

theorem blockcpyLoop_frame (bytes : Bytes) (dst src i size a : Nat)
    (outside : a < dst ∨ dst + copied (size - i) ≤ a) : blockcpyLoop bytes dst src i size a = bytes a := by
  induction bytes, dst, src, i using blockcpyLoop.induct size with
  | case1 bytes dst src i more ih =>
    simp only [SIM_SAVEPOINT_BLOCKSIZE] at ih
    rw [blockcpyLoop, if_pos more]
    simp only [SIM_SAVEPOINT_BLOCKSIZE]
    rw [ih (by unfold copied at *; omega), copyBlock, if_neg (by
      simp only [SIM_SAVEPOINT_BLOCKSIZE]
      unfold copied at outside
      omega)]
  | case2 bytes dst src i last => rw [blockcpyLoop, if_neg last]

/-- Each destination byte is the original source byte where the ranges are apart. -/
theorem blockcpyLoop_read (bytes : Bytes) (dst src i size k : Nat) (inside : k < copied (size - i))
    (apart : src + copied (size - i) ≤ dst ∨ dst + copied (size - i) ≤ src) :
    blockcpyLoop bytes dst src i size (dst + k) = bytes (src + k) := by
  induction bytes, dst, src, i using blockcpyLoop.induct size generalizing k with
  | case1 bytes dst src i more ih =>
    simp only [SIM_SAVEPOINT_BLOCKSIZE] at ih
    rw [blockcpyLoop, if_pos more]
    simp only [SIM_SAVEPOINT_BLOCKSIZE]
    by_cases first : k < 64
    · rw [blockcpyLoop_frame _ _ _ _ _ _ (by omega), copyBlock, if_pos (by
        simp only [SIM_SAVEPOINT_BLOCKSIZE]
        omega)]
      congr 1
      omega
    · have later := ih (k - 64) (by unfold copied at *; omega) (by unfold copied at *; omega)
      rw [show dst + 64 + (k - 64) = dst + k by omega, show src + 64 + (k - 64) = src + k by omega] at later
      rw [later, copyBlock, if_neg (by
        simp only [SIM_SAVEPOINT_BLOCKSIZE]
        unfold copied at *
        omega)]
  | case2 bytes dst src i last =>
    unfold copied at inside
    omega

theorem blockcpy_frame (bytes : Bytes) (dst src size a : Nat)
    (outside : a < dst ∨ dst + copied size ≤ a) : blockcpy bytes dst src size a = bytes a :=
  blockcpyLoop_frame bytes dst src 0 size a outside

theorem blockcpy_read (bytes : Bytes) (dst src size k : Nat) (inside : k < copied size)
    (apart : src + copied size ≤ dst ∨ dst + copied size ≤ src) :
    blockcpy bytes dst src size (dst + k) = bytes (src + k) :=
  blockcpyLoop_read bytes dst src 0 size k inside apart

theorem le_copied (size : Nat) : size ≤ copied size := by
  unfold copied
  omega

/-- Rounding up does not leave a range that ends at a block boundary. -/
theorem copied_within {start size stop : Nat} (aligned : start % 64 = 0) (stopAligned : stop % 64 = 0)
    (within : start + size ≤ stop) : start + copied size ≤ stop := by
  unfold copied
  omega

end M2.Mem
