import M2.Lib.Heap
import M2.Lib.Binary32
import M2.Fhk.Prune

/-!
# The heap of the pruner in memory

`hnode`, `heap_create`, `heap_insert` and `heap_remove` of `src/fhk/prune.c` with their 32-bit
counters and the block they are in. An access outside of the block has no result; allocation does not
fail, and what a new block holds is arbitrary. Slot 0 holds the counters. Inside of the block the operations
are those of a binary heap whose nodes compare by their 64-bit keys.
-/
namespace M2.Fhk
open M2.Lib

/-- `hnode`, a union with its 64-bit key. -/
structure PackedNode where
  xi : BitVec 16
  color : BitVec 16
  cost : BitVec 32
  deriving DecidableEq, Repr

namespace PackedNode

/-- The `u64` of the union, little endian. -/
def u64 (n : PackedNode) : BitVec 64 := n.cost ++ n.color ++ n.xi

theorem toNat_u64 (n : PackedNode) :
    n.u64.toNat = n.cost.toNat * 2 ^ 32 + n.color.toNat * 2 ^ 16 + n.xi.toNat := by
  have color := n.color.isLt
  have xi := n.xi.isLt
  have outer : n.u64.toNat = (n.cost ++ n.color : BitVec 48).toNat <<< 16 ||| n.xi.toNat := BitVec.toNat_append _ _
  have inner : (n.cost ++ n.color : BitVec 48).toNat = n.cost.toNat <<< 16 ||| n.color.toNat := BitVec.toNat_append _ _
  rw [outer, ← Nat.shiftLeft_add_eq_or_of_lt xi, Nat.shiftLeft_eq, inner, ← Nat.shiftLeft_add_eq_or_of_lt color,
    Nat.shiftLeft_eq]
  omega

/-- The key, as a number. -/
def key (n : PackedNode) : Nat := n.u64.toNat

theorem key_injective : Function.Injective key := by
  rintro ⟨xi, color, cost⟩ ⟨xi', color', cost'⟩ same
  simp only [key, toNat_u64] at same
  have := xi.isLt
  have := xi'.isLt
  have := color.isLt
  have := color'.isLt
  obtain rfl : xi = xi' := BitVec.eq_of_toNat_eq (by omega)
  obtain rfl : color = color' := BitVec.eq_of_toNat_eq (by omega)
  obtain rfl : cost = cost' := BitVec.eq_of_toNat_eq (by omega)
  rfl

instance instLinearOrderPackedNode : LinearOrder PackedNode := LinearOrder.lift' key key_injective

/-- The comparison of the source. -/
theorem lt_iff_u64 (a b : PackedNode) : a < b ↔ a.u64 < b.u64 := Iff.rfl

end PackedNode

/-- `HSIZE`. -/
def HSIZE : BitVec 32 := 64

/-- `xheap`: the counters of slot 0, the slots of the block and what they hold. -/
structure XHeap where
  pos : BitVec 32
  alloc : BitVec 32
  slots : Nat
  nodes : Nat → PackedNode

/-- `heap_create`, in a block that holds anything. -/
def heap_create (block : Nat → PackedNode) : XHeap := ⟨0, HSIZE, HSIZE.toNat + 1, block⟩

namespace XHeap

/-- Write the counter `pos`. -/
def withPos (H : XHeap) (pos : BitVec 32) : XHeap := { H with pos }

/-- The nodes after writes. -/
def withNodes (H : XHeap) (nodes : Nat → PackedNode) : XHeap := { H with nodes }

/-- Read a slot. -/
def get (H : XHeap) (i : Nat) : Option PackedNode := if i < H.slots then some (H.nodes i) else none

/-- Write a slot. -/
def set (H : XHeap) (i : Nat) (node : PackedNode) : Option XHeap :=
  if i < H.slots then some (H.withNodes (Function.update H.nodes i node)) else none

/-- `realloc` where the heap is full: twice as many nodes. -/
def grow (H : XHeap) : XHeap :=
  if H.pos = H.alloc then
    let num := 2 * H.alloc
    { H with slots := (num + 1).toNat, alloc := num }
  else H

/-- The loop of `heap_insert`. -/
def insertLoop (H : XHeap) (node : PackedNode) (pos : Nat) : Option XHeap :=
  if 1 < pos then do
    let pp := pos / 2
    let parent ← H.get pp
    if parent < node then H.set pos node
    else
      let H ← H.set pos parent
      insertLoop H node pp
  else H.set pos node
termination_by pos

/-- `heap_insert`. -/
def heap_insert (H : XHeap) (node : PackedNode) : Option XHeap :=
  let H := H.grow
  let H := H.withPos (H.pos + 1)
  H.insertLoop node H.pos.toNat

/-- A child that takes the place of the smallest node so far. -/
def child (H : XHeap) (i : Nat) (least : Nat × PackedNode) : Option (Nat × PackedNode) :=
  if i ≤ H.pos.toNat then do
    let node ← H.get i
    if node < least.2 then some (i, node) else some least
  else some least

/-- The loop of `heap_remove`. The first argument bounds the iterations. -/
def removeLoop : Nat → XHeap → PackedNode → Nat → Option XHeap
  | 0, _, _, _ => none
  | fuel + 1, H, last, pos => do
    let least ← H.child (2 * pos) (pos, last)
    let least ← H.child (2 * pos + 1) least
    let H ← H.set pos least.2
    if pos = least.1 then some H else removeLoop fuel H last least.1

/-- `heap_remove`: the root and the heap without it. -/
def heap_remove (H : XHeap) : Option (PackedNode × XHeap) := do
  let root ← H.get 1
  let last ← H.get H.pos.toNat
  let H := H.withPos (H.pos - 1)
  let H ← removeLoop (H.pos.toNat + 2) H last 1
  some (root, H)

/-- The binary heap in the block. -/
def toHeap (H : XHeap) : Heap PackedNode := ⟨H.pos.toNat, H.nodes⟩

/-- The nodes in the heap. -/
def contents (H : XHeap) : Multiset PackedNode := H.toHeap.toMultiset

theorem get_inside {H : XHeap} {i : Nat} (inside : i < H.slots) : H.get i = some (H.nodes i) := if_pos inside

theorem set_inside {H : XHeap} {i : Nat} (inside : i < H.slots) (node : PackedNode) :
    H.set i node = some (H.withNodes (Function.update H.nodes i node)) := if_pos inside

/-- Inside of the block the loop of `heap_insert` sifts up. -/
theorem insertLoop_eq {node : PackedNode} (fuel : Nat) {H : XHeap} {pos : Nat} (enough : pos ≤ fuel) (low : 1 ≤ pos)
    (inside : pos < H.slots) :
    H.insertLoop node pos = some (H.withNodes (Heap.siftUp fuel H.toHeap node pos).nodes) := by
  induction fuel generalizing H pos with
  | zero => omega
  | succ fuel ih =>
    rw [insertLoop, Heap.siftUp]
    by_cases above : 1 < pos
    · rw [if_pos above, if_pos above]
      simp only [get_inside (show pos / 2 < H.slots by omega), set_inside inside, Option.bind_eq_bind, Option.bind_some]
      by_cases fits : H.nodes (pos / 2) < node
      · rw [if_pos fits, if_pos (show H.toHeap.nodes (pos / 2) < node from fits)]
        rfl
      · rw [if_neg fits, if_neg (show ¬ H.toHeap.nodes (pos / 2) < node from fits)]
        have half : pos / 2 < H.slots := by omega
        exact ih (by omega) (by omega) half
    · rw [if_neg above, if_neg above, set_inside inside]
      rfl

/-- The two children are tested as the smallest child is chosen. -/
theorem children_eq {H : XHeap} (inside : H.pos.toNat < H.slots) (last : PackedNode) (pos : Nat) :
    (do
      let least ← H.child (2 * pos) (pos, last)
      H.child (2 * pos + 1) least) = some (H.toHeap.minChild last pos) := by
  have child_eq (i : Nat) (least : Nat × PackedNode) : H.child i least =
      some (if i ≤ H.pos.toNat ∧ H.nodes i < least.2 then (i, H.nodes i) else least) := by
    unfold child
    by_cases le : i ≤ H.pos.toNat
    · rw [if_pos le, get_inside (by omega), Option.bind_eq_bind, Option.bind_some]
      by_cases less : H.nodes i < least.2
      · rw [if_pos less, if_pos ⟨le, less⟩]
      · rw [if_neg less, if_neg fun both => less both.2]
    · rw [if_neg le, if_neg fun both => le both.1]
  rw [child_eq, Option.bind_eq_bind, Option.bind_some, child_eq]
  rfl

/-- Inside of the block the loop of `heap_remove` sifts down. -/
theorem removeLoop_eq {last : PackedNode} (fuel : Nat) {H : XHeap} {pos : Nat} (low : 1 ≤ pos)
    (enough : H.pos.toNat < pos + fuel) (here : pos < H.slots) (inside : H.pos.toNat < H.slots) :
    removeLoop (fuel + 1) H last pos = some (H.withNodes (Heap.siftDown fuel H.toHeap last pos).nodes) := by
  induction fuel generalizing H pos with
  | zero =>
    have least := children_eq inside last pos
    have stay : H.toHeap.minChild last pos = (pos, last) := by
      rcases Heap.minChild_cases H.toHeap last pos with stay | ⟨le, -⟩ | ⟨le, -⟩
      · exact stay
      · exact absurd (show 2 * pos ≤ H.pos.toNat from le) (by omega)
      · exact absurd (show 2 * pos + 1 ≤ H.pos.toNat from le) (by omega)
    obtain ⟨first, tested, second⟩ := Option.bind_eq_some_iff.mp least
    rw [removeLoop]
    simp only [Option.bind_eq_bind, tested, Option.bind_some, second, stay, set_inside here, if_pos]
    rfl
  | succ fuel ih =>
    have least := children_eq inside last pos
    obtain ⟨first, tested, second⟩ := Option.bind_eq_some_iff.mp least
    rw [removeLoop, Heap.siftDown]
    simp only [Option.bind_eq_bind, tested, Option.bind_some, second, set_inside here]
    split
    · rfl
    · rename_i moved
      have down : pos < (H.toHeap.minChild last pos).1 ∧ (H.toHeap.minChild last pos).1 ≤ H.pos.toNat := by
        rcases Heap.minChild_cases H.toHeap last pos with stay | ⟨le, left, -⟩ | ⟨le, right, -⟩
        · rw [stay] at moved
          exact absurd rfl moved
        · rw [left]
          exact ⟨by omega, le⟩
        · rw [right]
          exact ⟨by omega, le⟩
      have room : (H.toHeap.minChild last pos).1 < H.slots := by omega
      have less : H.pos.toNat < (H.toHeap.minChild last pos).1 + fuel := by omega
      exact ih (by omega) less room inside

/-- A heap that the operations have made, in a block with room for its nodes. -/
structure Valid (H : XHeap) : Prop where
  ordered : H.toHeap.Ordered
  size : ∃ k ≤ 25, H.alloc.toNat = 64 * 2 ^ k
  slots : H.slots = H.alloc.toNat + 1
  pos_le : H.pos.toNat ≤ H.alloc.toNat

theorem Valid.alloc_le {H : XHeap} (valid : H.Valid) : H.alloc.toNat ≤ 2 ^ 31 := by
  obtain ⟨k, small, alloc⟩ := valid.size
  have := Nat.pow_le_pow_right (show 0 < 2 by decide) small
  omega

theorem card_contents (H : XHeap) : H.contents.card = H.pos.toNat := by
  rw [contents, Heap.toMultiset, Multiset.card_map]
  exact (Nat.card_Icc 1 H.pos.toNat).trans (Nat.add_sub_cancel _ _)

theorem heap_create_valid (block : Nat → PackedNode) : (heap_create block).Valid := by
  refine ⟨?_, ⟨0, by decide, rfl⟩, rfl, Nat.zero_le _⟩
  intro i two le
  have : (heap_create block).toHeap.pos = 0 := rfl
  omega

/-- Growth keeps the nodes and leaves room for one more, as long as the counter can count the slots. -/
theorem Valid.grow {H : XHeap} (valid : H.Valid) (few : H.pos.toNat < 2 ^ 31) :
    H.grow.Valid ∧ H.grow.pos = H.pos ∧ H.grow.nodes = H.nodes ∧ H.pos.toNat < H.grow.alloc.toNat := by
  unfold XHeap.grow
  split
  · rename_i full
    obtain ⟨k, small, alloc⟩ := valid.size
    have same : H.pos.toNat = H.alloc.toNat := congrArg BitVec.toNat full
    have double : (2 * H.alloc).toNat = 2 * H.alloc.toNat := by
      rw [BitVec.toNat_mul, show (2 : BitVec 32).toNat = 2 from rfl]
      omega
    have next : (2 * H.alloc + 1).toNat = 2 * H.alloc.toNat + 1 := by
      rw [BitVec.toNat_add, double, show (1 : BitVec 32).toNat = 1 from rfl]
      omega
    have larger : k + 1 ≤ 25 := by
      by_contra top
      obtain rfl : k = 25 := by omega
      omega
    have pos : 0 < 2 ^ k := Nat.two_pow_pos k
    refine ⟨⟨valid.ordered, ⟨k + 1, larger, ?_⟩, ?_, ?_⟩, rfl, rfl, ?_⟩
    · rw [double, alloc, Nat.pow_succ]
      omega
    · change (2 * H.alloc + 1).toNat = (2 * H.alloc).toNat + 1
      omega
    · change H.pos.toNat ≤ (2 * H.alloc).toNat
      omega
    · change H.pos.toNat < (2 * H.alloc).toNat
      omega
  · rename_i room
    refine ⟨valid, rfl, rfl, Nat.lt_of_le_of_ne valid.pos_le fun same => room (BitVec.eq_of_toNat_eq same)⟩

theorem Valid.heap_insert {H : XHeap} (valid : H.Valid) (few : H.pos.toNat < 2 ^ 31) (node : PackedNode) :
    ∃ H', H.heap_insert node = some H' ∧ H'.Valid ∧ H'.contents = node ::ₘ H.contents := by
  obtain ⟨grown, pos, nodes, room⟩ := valid.grow few
  have next : (H.grow.pos + 1).toNat = H.pos.toNat + 1 := by
    rw [pos, BitVec.toNat_add, show (1 : BitVec 32).toNat = 1 from rfl]
    omega
  have slots := grown.slots
  have up : (H.grow.withPos (H.grow.pos + 1)).toHeap = { H.toHeap with pos := H.toHeap.pos + 1 } := by
    unfold toHeap withPos
    rw [next, nodes]
  have run := @insertLoop_eq node (H.pos.toNat + 1) (H.grow.withPos (H.grow.pos + 1)) (H.pos.toNat + 1) le_rfl
    (by omega) (show H.pos.toNat + 1 < H.grow.slots by omega)
  rw [up] at run
  have pushed : ((H.grow.withPos (H.grow.pos + 1)).withNodes (H.toHeap.push node).nodes).toHeap = H.toHeap.push node := by
    unfold toHeap withNodes withPos
    rw [next]
    exact congrArg (fun pos => (⟨pos, _⟩ : Heap PackedNode)) (Heap.push_pos H.toHeap node).symm
  refine ⟨(H.grow.withPos (H.grow.pos + 1)).withNodes (H.toHeap.push node).nodes, ?_, ⟨?_, grown.size, slots, ?_⟩, ?_⟩
  · unfold XHeap.heap_insert
    dsimp only
    rw [show (H.grow.withPos (H.grow.pos + 1)).pos.toNat = H.pos.toNat + 1 from next]
    exact run
  · rw [pushed]
    exact valid.ordered.push node
  · change (H.grow.pos + 1).toNat ≤ H.grow.alloc.toNat
    omega
  · unfold contents
    rw [pushed]
    exact Heap.push_nodes H.toHeap node

/-- With `2^31` nodes the doubled size is 0, and the node is written outside of the block. -/
theorem Valid.heap_insert_full {H : XHeap} (valid : H.Valid) (full : H.pos.toNat = 2 ^ 31) (node : PackedNode) :
    H.heap_insert node = none := by
  have alloc : H.alloc.toNat = 2 ^ 31 := Nat.le_antisymm valid.alloc_le (full ▸ valid.pos_le)
  have same : H.pos = H.alloc := BitVec.eq_of_toNat_eq (full.trans alloc.symm)
  have double : (2 * H.alloc).toNat = 0 := by
    rw [BitVec.toNat_mul, alloc]
    rfl
  have slots : (2 * H.alloc + 1).toNat = 1 := by
    rw [BitVec.toNat_add, double]
    rfl
  have next : (H.pos + 1).toNat = 2 ^ 31 + 1 := by
    rw [BitVec.toNat_add, full]
    rfl
  have outside (H' : XHeap) (one : H'.slots = 1) : H'.get ((2 ^ 31 + 1) / 2) = none := if_neg (by
    rw [one]
    decide)
  unfold XHeap.heap_insert XHeap.grow
  rw [if_pos same]
  dsimp only [withPos]
  rw [next, insertLoop, if_pos (by decide)]
  dsimp only
  rw [outside _ slots]
  rfl

theorem Valid.heap_remove {H : XHeap} (valid : H.Valid) (nonempty : H.pos.toNat ≠ 0) :
    ∃ root H', H.heap_remove = some (root, H') ∧ H'.Valid ∧ H.contents = root ::ₘ H'.contents ∧
      ∀ node ∈ H.contents, root ≤ node := by
  have bound := valid.pos_le
  have slots := valid.slots
  have less : (H.pos - 1).toNat = H.pos.toNat - 1 := by
    rw [BitVec.toNat_sub, show (1 : BitVec 32).toNat = 1 from rfl]
    have := H.pos.isLt
    omega
  have down : (H.withPos (H.pos - 1)).toHeap = { H.toHeap with pos := H.toHeap.pos - 1 } := by
    unfold toHeap withPos
    rw [less]
  have run := @removeLoop_eq (H.nodes H.pos.toNat) H.pos.toNat (H.withPos (H.pos - 1)) 1 le_rfl
    (show (H.pos - 1).toNat < 1 + H.pos.toNat by omega) (show 1 < H.slots by omega) (show (H.pos - 1).toNat < H.slots by omega)
  rw [down] at run
  have popped : ((H.withPos (H.pos - 1)).withNodes H.toHeap.pop.2.nodes).toHeap = H.toHeap.pop.2 := by
    unfold toHeap withNodes withPos
    rw [less]
    exact congrArg (fun pos => (⟨pos, _⟩ : Heap PackedNode)) (Heap.pop_pos H.toHeap).symm
  refine ⟨H.nodes 1, (H.withPos (H.pos - 1)).withNodes H.toHeap.pop.2.nodes, ?_, ⟨?_, valid.size, slots, ?_⟩, ?_, ?_⟩
  · unfold XHeap.heap_remove
    dsimp only
    rw [get_inside (show 1 < H.slots by omega), get_inside (show H.pos.toNat < H.slots by omega),
      show (H.withPos (H.pos - 1)).pos.toNat + 2 = H.pos.toNat + 1 from (congrArg (· + 2) less).trans (by omega)]
    simp only [Option.bind_eq_bind, Option.bind_some, run]
    rfl
  · rw [popped]
    exact valid.ordered.pop
  · change (H.pos - 1).toNat ≤ H.alloc.toNat
    omega
  · unfold contents
    rw [popped]
    exact Heap.pop_nodes nonempty
  · exact fun node mem => valid.ordered.pop_le mem

/-- What `heap_insert` and `heap_remove` lead to from `heap_create`, with the nodes inserted and removed. -/
inductive Reached : XHeap → Multiset PackedNode → Multiset PackedNode → Prop
  | create (block : Nat → PackedNode) : Reached (heap_create block) 0 0
  | insert {H H' : XHeap} {inserted removed : Multiset PackedNode} (run : Reached H inserted removed) (node : PackedNode)
      (done : H.heap_insert node = some H') : Reached H' (node ::ₘ inserted) removed
  | remove {H H' : XHeap} {inserted removed : Multiset PackedNode} {root : PackedNode} (run : Reached H inserted removed)
      (nonempty : H.pos ≠ 0) (done : H.heap_remove = some (root, H')) : Reached H' inserted (root ::ₘ removed)

/-- The invariant of a sequence of operations. -/
theorem Reached.valid {H : XHeap} {inserted removed : Multiset PackedNode} (run : Reached H inserted removed) :
    H.Valid ∧ inserted = removed + H.contents := by
  induction run with
  | create block =>
    refine ⟨heap_create_valid block, ?_⟩
    have none_yet : (heap_create block).contents.card = 0 := card_contents _
    rw [Multiset.card_eq_zero.mp none_yet, add_zero]
  | insert run node done ih =>
    rename_i H H' inserted removed
    obtain ⟨valid, sum⟩ := ih
    have few : H.pos.toNat < 2 ^ 31 := by
      have le := valid.pos_le.trans valid.alloc_le
      rcases Nat.lt_or_eq_of_le le with few | full
      · exact few
      · rw [valid.heap_insert_full full] at done
        cases done
    obtain ⟨H'', done', valid', contents⟩ := valid.heap_insert few node
    cases Option.some.inj (done.symm.trans done')
    refine ⟨valid', ?_⟩
    rw [contents, sum, Multiset.add_cons]
  | remove run nonempty done ih =>
    rename_i H H' inserted removed root
    obtain ⟨valid, sum⟩ := ih
    have pos : H.pos.toNat ≠ 0 := fun zero => nonempty (BitVec.eq_of_toNat_eq zero)
    obtain ⟨root', H'', done', valid', contents, -⟩ := valid.heap_remove pos
    cases Option.some.inj (done.symm.trans done')
    refine ⟨valid', ?_⟩
    rw [sum, contents, Multiset.add_cons, Multiset.cons_add]

/-- The heap is a priority queue: it holds what was inserted and not removed, takes one more node while
the counters allow it, and gives away a node of smallest key. -/
structure Queue (H : XHeap) (inserted removed : Multiset PackedNode) : Prop where
  removed_le : removed ≤ inserted
  contents_eq : H.contents = inserted - removed
  inserts : H.contents.card < 2 ^ 31 → ∀ node, ∃ H', H.heap_insert node = some H'
  removes : H.contents ≠ 0 → ∃ root H', H.heap_remove = some (root, H') ∧ root ∈ H.contents ∧
    ∀ node ∈ H.contents, root.u64 ≤ node.u64

theorem Reached.queue {H : XHeap} {inserted removed : Multiset PackedNode} (run : Reached H inserted removed) :
    Queue H inserted removed := by
  obtain ⟨valid, sum⟩ := run.valid
  refine ⟨?_, ?_, ?_, ?_⟩
  · rw [sum]
    exact Multiset.le_add_right _ _
  · rw [sum, add_tsub_cancel_left]
  · intro few node
    rw [card_contents] at few
    obtain ⟨H', done, -⟩ := valid.heap_insert few node
    exact ⟨H', done⟩
  · intro nonempty
    have pos : H.pos.toNat ≠ 0 := by
      rw [← card_contents]
      exact fun zero => nonempty (Multiset.card_eq_zero.mp zero)
    obtain ⟨root, H', done, -, contents, least⟩ := valid.heap_remove pos
    refine ⟨root, H', done, ?_, least⟩
    rw [contents]
    exact Multiset.mem_cons_self _ _

end XHeap

namespace PackedNode

/-- The order that the keys stand for: cost, color, variable index. -/
def rank (n : PackedNode) : Lex (Cost × Lex (Nat × Nat)) :=
  toLex (Binary32.value n.cost, toLex (n.color.toNat, n.xi.toNat))

/-- For costs without a sign the keys are in that order. -/
theorem u64_lt_iff {a b : PackedNode} (ha : a.cost.toNat ≤ Binary32.INF) (hb : b.cost.toNat ≤ Binary32.INF) :
    a.u64 < b.u64 ↔ a.rank < b.rank := by
  have := a.xi.isLt
  have := b.xi.isLt
  have := a.color.isLt
  have := b.color.isLt
  rw [BitVec.lt_def, toNat_u64, toNat_u64, rank, rank, Prod.Lex.toLex_lt_toLex, Prod.Lex.toLex_lt_toLex]
  rw [Binary32.value_lt_iff ha hb, Binary32.value_eq_iff ha hb, ← BitVec.toNat_inj]
  simp only
  omega

end PackedNode

/-- The heap of the pruner is a priority queue after every sequence of operations, and its keys are
ordered by cost, color and index for costs without a sign. -/
theorem prune_heap_queue (H : XHeap) (inserted removed : Multiset PackedNode) (run : H.Reached inserted removed) :
    H.Queue inserted removed ∧ ∀ a b : PackedNode, a.cost.toNat ≤ Binary32.INF → b.cost.toNat ≤ Binary32.INF →
      (a.u64 < b.u64 ↔ a.rank < b.rank) :=
  ⟨run.queue, fun _ _ ha hb => PackedNode.u64_lt_iff ha hb⟩

theorem prune_heap_queue_one : ∃ H : XHeap, H.Queue {⟨1, 0, 0⟩} 0 ∧
    ∀ a b : PackedNode, a.cost.toNat ≤ Binary32.INF → b.cost.toNat ≤ Binary32.INF → (a.u64 < b.u64 ↔ a.rank < b.rank) := by
  obtain ⟨H, done, -⟩ := (XHeap.heap_create_valid fun _ => ⟨0, 0, 0⟩).heap_insert (show 0 < 2 ^ 31 by decide) ⟨1, 0, 0⟩
  exact ⟨H, prune_heap_queue H {⟨1, 0, 0⟩} 0 (.insert (.create _) _ done)⟩

/-- A heap of every size up to `2^31` is reached. -/
theorem XHeap.reached_size (n : Nat) (le : n ≤ 2 ^ 31) :
    ∃ (H : XHeap) (inserted : Multiset PackedNode), H.Reached inserted 0 ∧ H.pos.toNat = n := by
  induction n with
  | zero => exact ⟨_, 0, .create fun _ => ⟨0, 0, 0⟩, rfl⟩
  | succ n ih =>
    obtain ⟨H, inserted, run, size⟩ := ih (by omega)
    obtain ⟨H', done, -, contents⟩ := run.valid.1.heap_insert (by omega) ⟨0, 0, 0⟩
    refine ⟨H', _, run.insert _ done, ?_⟩
    rw [← XHeap.card_contents, contents, Multiset.card_cons, XHeap.card_contents, size]

/-- A heap of `2^31` nodes takes no further one, and the key of the negative zero is behind that of one. -/
theorem not_prune_heap_queue :
    (¬ ∀ (H : XHeap) (inserted removed : Multiset PackedNode), H.Reached inserted removed → ∀ node,
      ∃ H', H.heap_insert node = some H') ∧
    ¬ ∀ a b : PackedNode, Binary32.NonNeg a.cost → Binary32.NonNeg b.cost → (a.u64 < b.u64 ↔ a.rank < b.rank) := by
  constructor
  · intro takes
    obtain ⟨H, inserted, run, size⟩ := XHeap.reached_size (2 ^ 31) le_rfl
    obtain ⟨H', done⟩ := takes H inserted 0 run ⟨0, 0, 0⟩
    rw [run.valid.1.heap_insert_full size] at done
    cases done
  · intro ordered
    have keys := (ordered ⟨0, 0, 0x80000000⟩ ⟨0, 0, 0x3f800000⟩ (.inr rfl) (.inl (by decide))).mpr (by
      rw [PackedNode.rank, PackedNode.rank, Prod.Lex.toLex_lt_toLex]
      left
      exact Binary32.magnitude_lt (a := 0) (b := 0x3f800000) (by decide) (by decide))
    revert keys
    decide

end M2.Fhk
