import M2.Lib.Runs

/-!
# Gathering runs

Elements of a size that lie at consecutive indices are copied one run after the other, each behind the
last. What is gathered is the list the runs stand for, element by element, and nothing else is written.
-/
namespace M2.Lib.Gather

variable {β : Type*}

/-- `n` cells from `start` on are copied to `off`, from one object to another. -/
def copy (dest src : Nat → β) (off start n : Nat) : Nat → β := fun a =>
  if off ≤ a ∧ a < off + n then src (start + (a - off)) else dest a

theorem copy_outside {dest src : Nat → β} {off start n a : Nat} (outside : a < off ∨ off + n ≤ a) :
    copy dest src off start n a = dest a := by
  rw [copy, if_neg (by omega)]

theorem copy_inside {dest src : Nat → β} {off start n j : Nat} (inside : j < n) :
    copy dest src off start n (off + j) = src (start + j) := by
  rw [copy, if_pos (by omega), Nat.add_sub_cancel_left]

/-- Only the cells that are copied matter of the source. -/
theorem copy_congr {dest src src' : Nat → β} {off start start' n : Nat}
    (same : ∀ j < n, src (start + j) = src' (start' + j)) : copy dest src off start n = copy dest src' off start' n := by
  funext a
  rw [copy, copy]
  split
  · exact same _ (by omega)
  · rfl

/-- The run `r` is copied to the offset, which moves behind it. -/
def copyRun (src : Nat → β) (sz : Nat) (s : (Nat → β) × Nat) (r : Nat × Nat) : (Nat → β) × Nat :=
  (copy s.1 src s.2 (sz * r.1) (sz * (r.2 + 1 - r.1)), s.2 + sz * (r.2 + 1 - r.1))

/-- The elements gathered take the place behind the offset, and nothing else changes. -/
theorem frame (src : Nat → β) (sz : Nat) (rs : List (Nat × Nat)) (dest : Nat → β) (off a : Nat)
    (outside : a < off ∨ off + sz * (rs.flatMap Runs.insts).length ≤ a) :
    (rs.foldl (copyRun src sz) (dest, off)).1 a = dest a := by
  induction rs generalizing dest off with
  | nil => rfl
  | cons r rest ih =>
    rw [List.flatMap_cons, List.length_append, Runs.insts_length, Nat.mul_add] at outside
    rw [List.foldl_cons, copyRun, ih _ _ (by omega)]
    exact copy_outside (by omega)

/-- Element `k` of the runs is gathered at position `k`. -/
theorem read (src : Nat → β) (sz : Nat) (rs : List (Nat × Nat)) (dest : Nat → β) (off : Nat) {k i b : Nat}
    (there : (rs.flatMap Runs.insts)[k]? = some i) (byte : b < sz) :
    (rs.foldl (copyRun src sz) (dest, off)).1 (off + (sz * k + b)) = src (sz * i + b) := by
  induction rs generalizing dest off k with
  | nil => cases there
  | cons r rest ih =>
    rw [List.flatMap_cons, List.getElem?_append, Runs.insts_length] at there
    rw [List.foldl_cons, copyRun]
    split at there
    · rename_i within
      have inst : i = r.1 + k := by
        rw [Runs.insts, List.getElem?_range' within, Nat.one_mul] at there
        exact (Option.some.inj there).symm
      have whole : sz * (k + 1) ≤ sz * (r.2 + 1 - r.1) := Nat.mul_le_mul_left sz within
      rw [Nat.mul_add, Nat.mul_one] at whole
      rw [frame _ _ _ _ _ _ (.inl (by omega)), copy_inside (by omega), inst, Nat.mul_add, Nat.add_assoc]
    · rename_i beyond
      have later := ih (copy dest src off (sz * r.1) (sz * (r.2 + 1 - r.1))) (off + sz * (r.2 + 1 - r.1)) there
      have split_k : sz * k = sz * (r.2 + 1 - r.1) + sz * (k - (r.2 + 1 - r.1)) := by
        rw [← Nat.mul_add, Nat.add_sub_cancel' (Nat.not_lt.mp beyond)]
      rwa [split_k, show off + (sz * (r.2 + 1 - r.1) + sz * (k - (r.2 + 1 - r.1)) + b) =
        off + sz * (r.2 + 1 - r.1) + (sz * (k - (r.2 + 1 - r.1)) + b) by omega]

/-! ## Copies inside of one memory -/

/-- `n` cells from `src` on are copied to `dst`. -/
structure Move where
  dst : Nat
  src : Nat
  n : Nat

/-- The copies, one after the other. -/
def moves (mem : Nat → β) (l : List Move) : Nat → β := l.foldl (fun mem m => copy mem mem m.dst m.src m.n) mem

theorem moves_cons (mem : Nat → β) (m : Move) (l : List Move) :
    moves mem (m :: l) = moves (copy mem mem m.dst m.src m.n) l := rfl

theorem moves_outside {mem : Nat → β} {l : List Move} {a : Nat} (outside : ∀ m ∈ l, a < m.dst ∨ m.dst + m.n ≤ a) :
    moves mem l a = mem a := by
  induction l generalizing mem with
  | nil => rfl
  | cons m rest ih =>
    rw [moves_cons, ih fun r mem_r => outside r (List.mem_cons_of_mem _ mem_r)]
    exact copy_outside (outside m List.mem_cons_self)

/-- Where no destination meets another one or a source, each copy is of what was there at first. -/
theorem moves_inside {mem : Nat → β} {l : List Move}
    (sources : ∀ m ∈ l, ∀ m' ∈ l, m.dst + m.n ≤ m'.src ∨ m'.src + m'.n ≤ m.dst)
    (dests : l.Pairwise fun m m' => m.dst + m.n ≤ m'.dst ∨ m'.dst + m'.n ≤ m.dst) {m : Move} (there : m ∈ l) {j : Nat}
    (inside : j < m.n) : moves mem l (m.dst + j) = mem (m.src + j) := by
  induction l generalizing mem with
  | nil => cases there
  | cons first rest ih =>
    obtain ⟨apart, dests⟩ := List.pairwise_cons.mp dests
    rw [moves_cons]
    obtain rfl | there := List.mem_cons.mp there
    · rw [moves_outside fun r mem_r => by have := apart r mem_r; omega]
      exact copy_inside inside
    · rw [ih (fun r mem_r r' mem_r' => sources r (List.mem_cons_of_mem _ mem_r) r' (List.mem_cons_of_mem _ mem_r')) dests there]
      have := sources first List.mem_cons_self m (List.mem_cons_of_mem _ there)
      exact copy_outside (by omega)

end M2.Lib.Gather
