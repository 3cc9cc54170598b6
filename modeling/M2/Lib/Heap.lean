import Mathlib.Data.Finset.Image
import Mathlib.Data.Multiset.MapFold
import Mathlib.Order.Interval.Finset.Nat
import Mathlib.Order.Defs.LinearOrder
import Mathlib.Logic.Equiv.Basic

/-!
# Binary heaps

A heap in the slots `1 .. pos`, with the node that is being placed held apart from the hole it
will fill. Filling the hole at any time gives the same nodes: a sift only swaps the hole with a
neighbour.
-/
namespace M2.Lib

structure Heap (α : Type*) where
  pos : Nat
  nodes : Nat → α

namespace Heap

variable {α : Type*}

/-- The nodes in the heap. -/
def toMultiset (H : Heap α) : Multiset α := (Finset.Icc 1 H.pos).val.map H.nodes

/-- Swapping two slots keeps the nodes. -/
theorem map_swap {n a b : Nat} (ha : a ∈ Finset.Icc 1 n) (hb : b ∈ Finset.Icc 1 n) (nodes : Nat → α) :
    (Finset.Icc 1 n).val.map (nodes ∘ Equiv.swap a b) = (Finset.Icc 1 n).val.map nodes := by
  have same : (Finset.Icc 1 n).map (Equiv.swap a b).toEmbedding = Finset.Icc 1 n := by
    refine Finset.map_perm fun i moved => ?_
    rcases eq_or_ne i a with rfl | ne_a
    · exact ha
    rcases eq_or_ne i b with rfl | ne_b
    · exact hb
    exact absurd (Equiv.swap_apply_of_ne_of_ne ne_a ne_b) moved
  rw [← Multiset.map_map]
  conv_rhs => rw [← same]
  rfl

/-- Moving the hole from `a` to `b` swaps the two slots. -/
theorem move_hole {nodes : Nat → α} {node : α} {a b : Nat} (ne : a ≠ b) :
    Function.update (Function.update nodes a (nodes b)) b node =
      Function.update nodes a node ∘ Equiv.swap a b := by
  funext i
  simp only [Function.comp, Function.update_apply]
  rcases eq_or_ne i b with rfl | ne_b
  · simp
  rcases eq_or_ne i a with rfl | ne_a
  · simp [ne_b, Ne.symm ne_b]
  · simp [Equiv.swap_apply_of_ne_of_ne ne_a ne_b, ne_a, ne_b]

/-- Write a slot. -/
def set (H : Heap α) (i : Nat) (node : α) : Heap α := { H with nodes := Function.update H.nodes i node }

@[simp] theorem set_pos (H : Heap α) (i : Nat) (node : α) : (H.set i node).pos = H.pos := rfl

@[simp] theorem set_nodes (H : Heap α) (i : Nat) (node : α) : (H.set i node).nodes = Function.update H.nodes i node := rfl

variable [LinearOrder α]

/-- No node is smaller than its parent. -/
def Ordered (H : Heap α) : Prop := ∀ i, 2 ≤ i → i ≤ H.pos → H.nodes (i / 2) ≤ H.nodes i

/-- Move parents down until `node` fits at `pos`. The first argument bounds the iterations. -/
def siftUp : Nat → Heap α → α → Nat → Heap α
  | 0, H, node, pos => H.set pos node
  | fuel + 1, H, node, pos =>
    if 1 < pos then
      let parent := H.nodes (pos / 2)
      if parent < node then H.set pos node
      else siftUp fuel (H.set pos parent) node (pos / 2)
    else H.set pos node

/-- Of `pos`, held by `last`, and its two children the position of the smallest. -/
def minChild (H : Heap α) (last : α) (pos : Nat) : Nat × α :=
  let here := (pos, last)
  let left := if 2 * pos ≤ H.pos ∧ H.nodes (2 * pos) < here.2 then (2 * pos, H.nodes (2 * pos)) else here
  if 2 * pos + 1 ≤ H.pos ∧ H.nodes (2 * pos + 1) < left.2 then (2 * pos + 1, H.nodes (2 * pos + 1)) else left

/-- Move the smallest child up until `last` fits at `pos`. -/
def siftDown : Nat → Heap α → α → Nat → Heap α
  | 0, H, last, pos => H.set pos last
  | fuel + 1, H, last, pos =>
    let least := H.minChild last pos
    let H := H.set pos least.2
    if pos = least.1 then H else siftDown fuel H last least.1

def push (H : Heap α) (node : α) : Heap α :=
  siftUp (H.pos + 1) { H with pos := H.pos + 1 } node (H.pos + 1)

/-- The root and the heap without it. -/
def pop (H : Heap α) : α × Heap α :=
  (H.nodes 1, siftDown H.pos { H with pos := H.pos - 1 } (H.nodes H.pos) 1)

theorem siftUp_pos (fuel : Nat) (H : Heap α) (node : α) (pos : Nat) : (siftUp fuel H node pos).pos = H.pos := by
  induction fuel generalizing H pos with
  | zero => rfl
  | succ fuel ih =>
    rw [siftUp]
    split
    · simp only
      split
      · rfl
      · rw [ih, set_pos]
    · rfl

theorem siftDown_pos (fuel : Nat) (H : Heap α) (last : α) (pos : Nat) : (siftDown fuel H last pos).pos = H.pos := by
  induction fuel generalizing H pos with
  | zero => rfl
  | succ fuel ih =>
    rw [siftDown]
    split
    · rfl
    · rw [ih, set_pos]

@[simp] theorem push_pos (H : Heap α) (node : α) : (H.push node).pos = H.pos + 1 := siftUp_pos _ _ _ _

@[simp] theorem pop_pos (H : Heap α) : H.pop.2.pos = H.pos - 1 := siftDown_pos _ _ _ _

/-! ## The nodes -/

theorem siftUp_nodes {n : Nat} (fuel : Nat) (H : Heap α) (node : α) {pos : Nat} (low : 1 ≤ pos) (high : pos ≤ n) :
    (Finset.Icc 1 n).val.map (siftUp fuel H node pos).nodes =
      (Finset.Icc 1 n).val.map (Function.update H.nodes pos node) := by
  induction fuel generalizing H pos with
  | zero => rfl
  | succ fuel ih =>
    rw [siftUp]
    split
    · simp only
      split
      · rfl
      · rw [ih _ (by omega) (by omega), set_nodes, move_hole (by omega)]
        exact map_swap (Finset.mem_Icc.mpr ⟨low, high⟩) (Finset.mem_Icc.mpr ⟨by omega, by omega⟩) _
    · rfl

theorem minChild_cases (H : Heap α) (last : α) (pos : Nat) :
    H.minChild last pos = (pos, last) ∨
      (2 * pos ≤ H.pos ∧ H.minChild last pos = (2 * pos, H.nodes (2 * pos)) ∧ H.nodes (2 * pos) < last) ∨
      (2 * pos + 1 ≤ H.pos ∧ H.minChild last pos = (2 * pos + 1, H.nodes (2 * pos + 1)) ∧
        H.nodes (2 * pos + 1) < last) := by
  unfold minChild
  by_cases left : 2 * pos ≤ H.pos ∧ H.nodes (2 * pos) < last
  · by_cases right : 2 * pos + 1 ≤ H.pos ∧ H.nodes (2 * pos + 1) < H.nodes (2 * pos)
    · exact .inr (.inr ⟨right.1, by simp [left, right], right.2.trans left.2⟩)
    · exact .inr (.inl ⟨left.1, by simp only [if_pos left, if_neg right], left.2⟩)
  · by_cases right : 2 * pos + 1 ≤ H.pos ∧ H.nodes (2 * pos + 1) < last
    · exact .inr (.inr ⟨right.1, by simp only [if_neg left, if_pos right], right.2⟩)
    · exact .inl (by simp only [if_neg left, if_neg right])

/-- The smallest is at most the node itself and both children. -/
theorem minChild_le (H : Heap α) (last : α) (pos : Nat) :
    (H.minChild last pos).2 ≤ last ∧
      ∀ i, i / 2 = pos → 2 ≤ i → i ≤ H.pos → (H.minChild last pos).2 ≤ H.nodes i := by
  have children : ∀ i, i / 2 = pos → 2 ≤ i → i = 2 * pos ∨ i = 2 * pos + 1 := by omega
  unfold minChild
  by_cases left : 2 * pos ≤ H.pos ∧ H.nodes (2 * pos) < last
  · by_cases right : 2 * pos + 1 ≤ H.pos ∧ H.nodes (2 * pos + 1) < H.nodes (2 * pos)
    · simp only [if_pos left, if_pos right]
      refine ⟨(right.2.trans left.2).le, fun i half two le => ?_⟩
      rcases children i half two with rfl | rfl
      · exact right.2.le
      · exact le_rfl
    · simp only [if_pos left, if_neg right]
      refine ⟨left.2.le, fun i half two le => ?_⟩
      rcases children i half two with rfl | rfl
      · exact le_rfl
      · exact not_lt.mp fun less => right ⟨le, less⟩
  · by_cases right : 2 * pos + 1 ≤ H.pos ∧ H.nodes (2 * pos + 1) < last
    · simp only [if_neg left, if_pos right]
      refine ⟨right.2.le, fun i half two le => ?_⟩
      rcases children i half two with rfl | rfl
      · exact right.2.le.trans (not_lt.mp fun less => left ⟨le, less⟩)
      · exact le_rfl
    · simp only [if_neg left, if_neg right]
      refine ⟨le_rfl, fun i half two le => ?_⟩
      rcases children i half two with rfl | rfl
      · exact not_lt.mp fun less => left ⟨le, less⟩
      · exact not_lt.mp fun less => right ⟨le, less⟩

theorem siftDown_nodes {n : Nat} (fuel : Nat) (H : Heap α) (last : α) {pos : Nat} (low : 1 ≤ pos) (high : pos ≤ n)
    (size : H.pos = n) :
    (Finset.Icc 1 n).val.map (siftDown fuel H last pos).nodes =
      (Finset.Icc 1 n).val.map (Function.update H.nodes pos last) := by
  induction fuel generalizing H pos with
  | zero => rfl
  | succ fuel ih =>
    rw [siftDown]
    rcases minChild_cases H last pos with stay | ⟨le, left, -⟩ | ⟨le, right, -⟩
    · rw [stay, if_pos rfl, set_nodes]
    · rw [size] at le
      rw [left, if_neg (by omega)]
      refine (ih (H.set pos (H.nodes (2 * pos))) (by omega) le size).trans ?_
      rw [set_nodes, move_hole (by omega)]
      exact map_swap (Finset.mem_Icc.mpr ⟨low, high⟩) (Finset.mem_Icc.mpr ⟨by omega, le⟩) _
    · rw [size] at le
      rw [right, if_neg (by omega)]
      refine (ih (H.set pos (H.nodes (2 * pos + 1))) (by omega) le size).trans ?_
      rw [set_nodes, move_hole (by omega)]
      exact map_swap (Finset.mem_Icc.mpr ⟨low, high⟩) (Finset.mem_Icc.mpr ⟨by omega, le⟩) _

/-! ## The order -/

/-- The pairs that the hole is not part of are in order, and the children of the hole are not
smaller than its parent. -/
structure Holed (n : Nat) (nodes : Nat → α) (hole : Nat) : Prop where
  except : ∀ i, 2 ≤ i → i ≤ n → i ≠ hole → i / 2 ≠ hole → nodes (i / 2) ≤ nodes i
  grand : 2 ≤ hole → ∀ i, i / 2 = hole → i ≤ n → nodes (hole / 2) ≤ nodes i

/-- A node that fits the hole on both sides closes it. -/
theorem Holed.close {n : Nat} {nodes : Nat → α} {hole : Nat} (holed : Holed n nodes hole) {node : α}
    (above : 2 ≤ hole → nodes (hole / 2) ≤ node) (below : ∀ i, i / 2 = hole → 2 ≤ i → i ≤ n → node ≤ nodes i) :
    ∀ i, 2 ≤ i → i ≤ n → Function.update nodes hole node (i / 2) ≤ Function.update nodes hole node i := by
  intro i two le
  rcases eq_or_ne i hole with rfl | ne
  · rw [Function.update_self, Function.update_of_ne (by omega)]
    exact above two
  rw [Function.update_of_ne ne]
  rcases eq_or_ne (i / 2) hole with half | half_ne
  · rw [half, Function.update_self]
    exact below i half two le
  · rw [Function.update_of_ne half_ne]
    exact holed.except i two le ne half_ne

/-- The hole moves up: the parent takes its place. -/
theorem Holed.up {n : Nat} {nodes : Nat → α} {hole : Nat} (holed : Holed n nodes hole) (two : 2 ≤ hole)
    (high : hole ≤ n) : Holed n (Function.update nodes hole (nodes (hole / 2))) (hole / 2) where
  except i two_i le ne half_ne := by
    rcases eq_or_ne i hole with rfl | other
    · exact absurd rfl half_ne
    rw [Function.update_of_ne other]
    rcases eq_or_ne (i / 2) hole with half | half_other
    · rw [half, Function.update_self]
      exact holed.grand two i half le
    · rw [Function.update_of_ne half_other]
      exact holed.except i two_i le other half_other
  grand two_half i half le := by
    have parent : nodes (hole / 2 / 2) ≤ nodes (hole / 2) :=
      holed.except (hole / 2) two_half (by omega) (by omega) (by omega)
    rw [Function.update_of_ne (show hole / 2 / 2 ≠ hole by omega)]
    rcases eq_or_ne i hole with rfl | other
    · rwa [Function.update_self]
    · rw [Function.update_of_ne other]
      have := holed.except i (by omega) le other (by omega)
      rw [half] at this
      exact parent.trans this

/-- The hole moves down: a smallest child takes its place. -/
theorem Holed.down {n : Nat} {nodes : Nat → α} {hole child : Nat} (holed : Holed n nodes hole)
    (half : child / 2 = hole) (two : 2 ≤ child) (le : child ≤ n)
    (least : ∀ i, i / 2 = hole → 2 ≤ i → i ≤ n → nodes child ≤ nodes i) :
    Holed n (Function.update nodes hole (nodes child)) child where
  except i two_i le_i ne half_ne := by
    rcases eq_or_ne i hole with rfl | other
    · rw [Function.update_self, Function.update_of_ne (by omega)]
      exact holed.grand two_i child half le
    rw [Function.update_of_ne other]
    rcases eq_or_ne (i / 2) hole with half_i | half_other
    · rw [half_i, Function.update_self]
      exact least i half_i two_i le_i
    · rw [Function.update_of_ne half_other]
      exact holed.except i two_i le_i other half_other
  grand _ i half_i le_i := by
    rw [half, Function.update_self, Function.update_of_ne (by omega)]
    have := holed.except i (by omega) le_i (by omega) (by omega)
    rwa [half_i] at this

theorem siftUp_ordered {n : Nat} {node : α} (fuel : Nat) {H : Heap α} {pos : Nat} (low : 1 ≤ pos)
    (high : pos ≤ n) (enough : pos ≤ fuel) (holed : Holed n H.nodes pos)
    (below : ∀ i, i / 2 = pos → 2 ≤ i → i ≤ n → node ≤ H.nodes i) :
    ∀ i, 2 ≤ i → i ≤ n → (siftUp fuel H node pos).nodes (i / 2) ≤ (siftUp fuel H node pos).nodes i := by
  induction fuel generalizing H pos with
  | zero => omega
  | succ fuel ih =>
    rw [siftUp]
    split
    · simp only
      split
      · rename_i less
        exact holed.close (fun _ => less.le) below
      · rename_i two stop
        refine ih (by omega) (by omega) (by omega) (holed.up two high) fun i half two_i le => ?_
        have small : node ≤ H.nodes (pos / 2) := not_lt.mp stop
        rw [set_nodes]
        rcases eq_or_ne i pos with rfl | other
        · rwa [Function.update_self]
        · rw [Function.update_of_ne other]
          have := holed.except i two_i le other (by omega)
          rw [half] at this
          exact small.trans this
    · exact holed.close (fun two => by omega) below

theorem siftDown_ordered {n : Nat} {last : α} (fuel : Nat) {H : Heap α} {pos : Nat} (size : H.pos = n) (low : 1 ≤ pos)
    (enough : n < pos + fuel) (holed : Holed n H.nodes pos) (above : 2 ≤ pos → H.nodes (pos / 2) ≤ last) :
    ∀ i, 2 ≤ i → i ≤ n → (siftDown fuel H last pos).nodes (i / 2) ≤ (siftDown fuel H last pos).nodes i := by
  induction fuel generalizing H pos with
  | zero =>
    exact holed.close above fun i half two le => by omega
  | succ fuel ih =>
    rw [siftDown]
    have least := minChild_le H last pos
    rw [size] at least
    rcases minChild_cases H last pos with stay | ⟨le, left, less⟩ | ⟨le, right, less⟩
    · rw [stay] at least
      rw [stay, if_pos rfl]
      exact holed.close above least.2
    · rw [size] at le
      rw [left] at least
      rw [left, if_neg (by omega)]
      refine ih size (by omega) (by omega) (holed.down (by omega) (by omega) le least.2) fun _ => ?_
      simp only [set_nodes, show 2 * pos / 2 = pos by omega, Function.update_self]
      exact less.le
    · rw [size] at le
      rw [right] at least
      rw [right, if_neg (by omega)]
      refine ih size (by omega) (by omega) (holed.down (by omega) (by omega) le least.2) fun _ => ?_
      simp only [set_nodes, show (2 * pos + 1) / 2 = pos by omega, Function.update_self]
      exact less.le

/-! ## The operations -/

theorem push_nodes (H : Heap α) (node : α) : (H.push node).toMultiset = node ::ₘ H.toMultiset := by
  have range : Finset.Icc 1 (H.pos + 1) = insert (H.pos + 1) (Finset.Icc 1 H.pos) := by
    ext i
    simp only [Finset.mem_Icc, Finset.mem_insert]
    omega
  rw [toMultiset, push_pos, push, siftUp_nodes _ _ _ (by omega) le_rfl, range, toMultiset]
  simp only
  rw [Finset.insert_val_of_notMem (by simp), Multiset.map_cons, Function.update_self]
  congr 1
  refine Multiset.map_congr rfl fun i mem => Function.update_of_ne ?_ _ _
  have := (Finset.mem_Icc.mp (show i ∈ Finset.Icc 1 H.pos from mem)).2
  omega

theorem Ordered.push {H : Heap α} (ordered : H.Ordered) (node : α) : (H.push node).Ordered := by
  unfold Ordered
  rw [push_pos]
  exact siftUp_ordered _ (by omega) le_rfl le_rfl ⟨fun i two le ne _ => ordered i two (by omega), by omega⟩ (by omega)

/-- The root of an ordered heap is a smallest node. -/
theorem Ordered.root_le {H : Heap α} (ordered : H.Ordered) {i : Nat} (low : 1 ≤ i) (high : i ≤ H.pos) :
    H.nodes 1 ≤ H.nodes i := by
  induction i using Nat.strong_induction_on with
  | h i ih =>
    rcases Nat.lt_or_ge i 2 with one | two
    · obtain rfl : i = 1 := by omega
      exact le_rfl
    · exact (ih (i / 2) (by omega) (by omega) (by omega)).trans (ordered i two high)

theorem Ordered.pop_le {H : Heap α} (ordered : H.Ordered) {node : α} (mem : node ∈ H.toMultiset) :
    H.pop.1 ≤ node := by
  obtain ⟨i, range, rfl⟩ := Multiset.mem_map.mp mem
  obtain ⟨low, high⟩ := Finset.mem_Icc.mp (show i ∈ Finset.Icc 1 H.pos from range)
  exact ordered.root_le low high

theorem pop_nodes {H : Heap α} (nonempty : H.pos ≠ 0) :
    H.toMultiset = H.pop.1 ::ₘ H.pop.2.toMultiset := by
  have range : Finset.Icc 1 H.pos = insert H.pos (Finset.Icc 1 (H.pos - 1)) := by
    ext i
    simp only [Finset.mem_Icc, Finset.mem_insert]
    omega
  have last : H.toMultiset = H.nodes H.pos ::ₘ (Finset.Icc 1 (H.pos - 1)).val.map H.nodes := by
    rw [toMultiset, range, Finset.insert_val_of_notMem (by simp; omega), Multiset.map_cons]
  rw [last, toMultiset, pop_pos, pop]
  simp only
  rcases Nat.lt_or_ge H.pos 2 with one | two
  · have one : H.pos = 1 := by omega
    simp [one]
  rw [siftDown_nodes (n := H.pos - 1) _ _ _ le_rfl (by omega) rfl]
  have first : Finset.Icc 1 (H.pos - 1) = insert 1 (Finset.Icc 2 (H.pos - 1)) := by
    ext i
    simp only [Finset.mem_Icc, Finset.mem_insert]
    omega
  simp only [first]
  rw [Finset.insert_val_of_notMem (by simp), Multiset.map_cons, Multiset.map_cons, Function.update_self,
    Multiset.cons_swap]
  congr 2
  refine Multiset.map_congr rfl fun i mem => (Function.update_of_ne ?_ _ _).symm
  have := (Finset.mem_Icc.mp (show i ∈ Finset.Icc 2 (H.pos - 1) from mem)).1
  omega

theorem Ordered.pop {H : Heap α} (ordered : H.Ordered) : H.pop.2.Ordered := by
  unfold Ordered
  rw [pop_pos]
  exact siftDown_ordered H.pos rfl le_rfl (by omega) ⟨fun i two le _ _ => ordered i two (by omega), by omega⟩ (by omega)

end Heap
end M2.Lib
