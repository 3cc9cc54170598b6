import M2.Mem.Region
import Mathlib.Data.List.Basic
import Mathlib.Logic.Relation

/-!
# Arenas and their clones

`arena_alloc` of `src/mem.c`. The chunks of an arena are a list that only grows at its end; a
position is a chunk and an address in it. Each frame that clones the arena struct of its parent
allocates behind the position the parent stopped at, and what it appends stays for the parent to
reuse once the clone is abandoned.
-/
namespace M2.Mem

/-- `struct chunk`. The source's `end` is `stop`; `prev` and `next` are the neighbours in the list. -/
structure Chunk where
  mem : Word
  stop : Word

/-- `struct arena`, with the place of its chunk in the list. -/
structure Arena where
  chunk : Nat
  mem : Word
  stop : Word

/-- `sizeof(struct chunk)`. -/
def sizeofChunk : Word := 24

/-- What `bump` returns, 0 for `NULL`, and the position after it. -/
def bumpAt (mem size align stop : Word) : Word × Word := (bump mem size align stop).getD (0, mem)

/-- The search for a preallocated chunk, `k` being the place of the first one. -/
def findChunk (size align : Word) : Nat → List Chunk → Option (Word × Arena)
  | _, [] => none
  | k, c :: rest =>
    let taken := bumpAt c.mem size align c.stop
    if taken.1 ≠ 0 then some (taken.1, ⟨k, taken.2, c.stop⟩) else findChunk size align (k + 1) rest

/-- The doubling of `newsz`. A size that has reached 0 is never large enough. -/
def growSize : Nat → Word → Word → Option Word
  | 0, _, _ => none
  | fuel + 1, newsz, need => if newsz < need then growSize fuel (newsz * 2) need else some newsz

/-- The size of a new chunk behind `last`, none where the doubling does not end. -/
def newSize (last : Chunk) (size align : Word) : Option Word :=
  growSize 65 ((last.stop - last.mem) * 2) (size + align - 1)

/-- `arena_alloc`: the block, the chunks and the arena after it; none where it does not return, also
for want of memory. -/
def arena_alloc (malloc : Word → Option Word) (chunks : List Chunk) (arena : Arena) (size align : Word) :
    Option (Word × List Chunk × Arena) :=
  let taken := bumpAt arena.mem size align arena.stop
  if taken.1 ≠ 0 then some (taken.1, chunks, { arena with mem := taken.2 })
  else
    match findChunk size align (arena.chunk + 1) (chunks.drop (arena.chunk + 1)) with
    | some (p, arena) => some (p, chunks, arena)
    | none => do
      let last ← chunks.getLast?
      let newsz ← newSize last size align
      let c ← malloc (sizeofChunk + newsz)
      let mem := c + sizeofChunk
      let taken := bumpAt mem size align (mem + newsz)
      if taken.1 = 0 then none
      else some (taken.1, chunks ++ [⟨mem, mem + newsz⟩], ⟨chunks.length, taken.2, mem + newsz⟩)

/-! ## One allocation -/

/-- No sum of the call wraps, and the alignment is not 0: at the position, at the start of a later
chunk, and in the size of a new one. -/
structure NoWrap (chunks : List Chunk) (arena : Arena) (size align : Word) : Prop where
  position : Fits arena.mem size align
  later : ∀ c ∈ chunks.drop (arena.chunk + 1), Fits c.mem size align
  request : size.toNat + (align.toNat - 1) < 2 ^ 64
  grown : ∀ last ∈ chunks.getLast?, ∀ newsz ∈ newSize last size align, 24 + newsz.toNat < 2 ^ 64

/-- What is relied on of `malloc`: memory apart from the chunks that does not reach the end of the
address space. -/
def Honest (malloc : Word → Option Word) (chunks : List Chunk) : Prop :=
  ∀ n, ∀ p ∈ malloc n, 0 < p.toNat ∧ p.toNat + n.toNat < 2 ^ 64 ∧
    ∀ c ∈ chunks, p.toNat + n.toNat ≤ c.mem.toNat ∨ c.stop.toNat ≤ p.toNat

/-- The chunks lie apart. -/
structure Spread (chunks : List Chunk) : Prop where
  mem_pos : ∀ c ∈ chunks, 0 < c.mem.toNat
  mem_le : ∀ c ∈ chunks, c.mem.toNat ≤ c.stop.toNat
  apart : chunks.Pairwise fun c d => c.stop.toNat ≤ d.mem.toNat ∨ d.stop.toNat ≤ c.mem.toNat

/-- The position of an arena is in its chunk. -/
def Arena.In (chunks : List Chunk) (a : Arena) : Prop :=
  ∃ c, chunks[a.chunk]? = some c ∧ c.mem.toNat ≤ a.mem.toNat ∧ a.mem.toNat ≤ c.stop.toNat ∧ a.stop = c.stop

/-- Where nothing wraps, a block that `bump` returns lies behind the position and in the chunk. -/
theorem bumpAt_some {mem size align stop : Word} (fits : Fits mem size align)
    (taken : (bumpAt mem size align stop).1 ≠ 0) :
    mem.toNat ≤ (bumpAt mem size align stop).1.toNat ∧
      (bumpAt mem size align stop).2.toNat = (bumpAt mem size align stop).1.toNat + size.toNat ∧
      (bumpAt mem size align stop).2.toNat < stop.toNat := by
  unfold bumpAt bump at taken ⊢
  simp only at taken ⊢
  split at taken
  · rename_i below
    rw [if_pos below]
    simp only [Option.getD_some]
    refine ⟨le_ALIGN fits.1 fits.2.1, ?_, below⟩
    rw [BitVec.toNat_add, Nat.mod_eq_of_lt fits.2.2]
  · exact absurd rfl taken

/-- An allocation behind the position of an arena, in one chunk. -/
structure Behind (chunks' : List Chunk) (a a' : Arena) (p : Word) (size : Word) : Prop where
  inside : ∃ c, chunks'[a'.chunk]? = some c ∧ c.mem.toNat ≤ p.toNat ∧ p.toNat + size.toNat ≤ c.stop.toNat ∧
    a'.stop = c.stop
  next : a'.mem.toNat = p.toNat + size.toNat
  after : a.chunk < a'.chunk ∨ a'.chunk = a.chunk ∧ a.mem.toNat ≤ p.toNat

theorem findChunk_some {size align p : Word} {a' : Arena} {k : Nat} {rest : List Chunk}
    (fits : ∀ c ∈ rest, Fits c.mem size align) (found : findChunk size align k rest = some (p, a')) :
    k ≤ a'.chunk ∧ ∃ c, rest[a'.chunk - k]? = some c ∧ c.mem.toNat ≤ p.toNat ∧
      a'.mem.toNat = p.toNat + size.toNat ∧ p.toNat + size.toNat ≤ c.stop.toNat ∧ a'.stop = c.stop := by
  induction rest generalizing k with
  | nil => cases found
  | cons c rest ih =>
    rw [findChunk] at found
    split at found
    · rename_i taken
      cases found
      obtain ⟨low, next, below⟩ := bumpAt_some (fits c List.mem_cons_self) taken
      refine ⟨le_rfl, c, by simp, low, next, ?_, rfl⟩
      omega
    · obtain ⟨le, d, at', rest'⟩ := ih (fun d mem => fits d (List.mem_cons_of_mem _ mem)) found
      refine ⟨by omega, d, ?_, rest'⟩
      rw [show a'.chunk - k = a'.chunk - (k + 1) + 1 by omega, List.getElem?_cons_succ]
      exact at'

theorem growSize_ge {fuel : Nat} {newsz need result : Word} (grown : growSize fuel newsz need = some result) :
    need.toNat ≤ result.toNat := by
  induction fuel generalizing newsz with
  | zero => cases grown
  | succ fuel ih =>
    rw [growSize] at grown
    split at grown
    · exact ih grown
    · rename_i enough
      cases grown
      exact BitVec.le_def.mp (BitVec.not_lt.mp enough)

/-- The chunks after an allocation: the old ones, and at most one new one apart from them. -/
def Extends (chunks chunks' : List Chunk) : Prop :=
  chunks' = chunks ∨ ∃ c : Chunk, chunks' = chunks ++ [c] ∧ 0 < c.mem.toNat ∧ c.mem.toNat ≤ c.stop.toNat ∧
    ∀ d ∈ chunks, c.stop.toNat ≤ d.mem.toNat ∨ d.stop.toNat ≤ c.mem.toNat

/-- What `arena_alloc` does where nothing wraps. -/
theorem arena_alloc_spec {malloc : Word → Option Word} {chunks chunks' : List Chunk} {a a' : Arena} {size align p : Word}
    (inside : a.In chunks) (noWrap : NoWrap chunks a size align) (honest : Honest malloc chunks)
    (returned : arena_alloc malloc chunks a size align = some (p, chunks', a')) :
    Extends chunks chunks' ∧ Behind chunks' a a' p size := by
  obtain ⟨c, here, mem_le, le_stop, stop⟩ := inside
  have aligned : 0 < align.toNat := noWrap.position.1
  unfold arena_alloc at returned
  simp only at returned
  split at returned
  · rename_i taken
    cases returned
    obtain ⟨low, next, below⟩ := bumpAt_some noWrap.position taken
    rw [← stop] at le_stop
    refine ⟨.inl rfl, ⟨c, here, by omega, ?_, stop⟩, next, .inr ⟨rfl, low⟩⟩
    rw [← stop]
    omega
  · split at returned
    · rename_i p' found_arena found
      cases returned
      obtain ⟨le, d, at', low, next, high, stop'⟩ := findChunk_some noWrap.later found
      rw [List.getElem?_drop, show a.chunk + 1 + (a'.chunk - (a.chunk + 1)) = a'.chunk by omega] at at'
      exact ⟨.inl rfl, ⟨d, at', low, high, stop'⟩, next, .inl le⟩
    · obtain ⟨last, is_last, returned⟩ := Option.bind_eq_some_iff.mp returned
      obtain ⟨newsz, grown, returned⟩ := Option.bind_eq_some_iff.mp returned
      obtain ⟨base, allocated, returned⟩ := Option.bind_eq_some_iff.mp returned
      split at returned
      · cases returned
      rename_i taken
      cases returned
      have header : (sizeofChunk + newsz).toNat = 24 + newsz.toNat := by
        rw [sizeofChunk, BitVec.toNat_add, show (24 : Word).toNat = 24 from rfl,
          Nat.mod_eq_of_lt (noWrap.grown last is_last newsz grown)]
      obtain ⟨positive, room, apart⟩ := honest (sizeofChunk + newsz) base allocated
      rw [header] at room apart
      have mem : (base + sizeofChunk).toNat = base.toNat + 24 := by
        rw [sizeofChunk, BitVec.toNat_add, show (24 : Word).toNat = 24 from rfl, Nat.mod_eq_of_lt (by omega)]
      have stop' : (base + sizeofChunk + newsz).toNat = base.toNat + 24 + newsz.toNat := by
        rw [BitVec.toNat_add, mem, Nat.mod_eq_of_lt (by omega)]
      have enough : size.toNat + (align.toNat - 1) ≤ newsz.toNat := by
        have need := growSize_ge grown
        rwa [ALIGN_sum aligned noWrap.request] at need
      have high := le_add_ALIGN (n := base + sizeofChunk) aligned (by omega)
      obtain ⟨low, next, below⟩ := bumpAt_some ⟨aligned, by omega, by omega⟩ taken
      refine ⟨.inr ⟨_, rfl, by simp only; omega, by simp only; omega, fun d mem_d => ?_⟩,
        ⟨⟨_, base + sizeofChunk + newsz⟩, ?_, low, ?_, rfl⟩, next, .inl ?_⟩
      · have := apart d mem_d
        simp only
        omega
      · simp
      · simp only
        omega
      · exact (List.getElem?_eq_some_iff.mp here).1

/-! ## Runs -/

/-- A block that was returned. -/
structure Extent where
  start : Word
  size : Word

def Extent.stop (b : Extent) : Nat := b.start.toNat + b.size.toNat

def Extent.Apart (b c : Extent) : Prop := b.stop ≤ c.start.toNat ∨ c.stop ≤ b.start.toNat

def Extent.Within (b : Extent) (c : Chunk) : Prop := c.mem.toNat ≤ b.start.toNat ∧ b.stop ≤ c.stop.toNat

/-- The copy of the arena that a frame works on, and the blocks it was given, the last one first. -/
structure Clone where
  arena : Arena
  blocks : List Extent

/-- The shared chunks, and the clones of the current frame and its ancestors, the innermost first. -/
structure Clones where
  chunks : List Chunk
  path : List Clone

def pathBlocks (path : List Clone) : List Extent := path.flatMap Clone.blocks

/-- `arena_create`, `p` being what `malloc` returns: the arena and its first chunk come first. -/
def arena_create (p size : Word) : Clones :=
  let mem := p + 48
  ⟨[⟨mem, mem + size⟩], [⟨⟨0, mem, mem + size⟩, []⟩]⟩

/-- `malloc` returned memory for an arena of `size` bytes. -/
def Created (p size : Word) : Prop := 0 < p.toNat ∧ p.toNat + 48 + size.toNat < 2 ^ 64

/-- A step: the current clone allocates, a frame clones the arena of its parent, or the run goes back
to an ancestor. -/
inductive Clones.Step (condition : List Chunk → Arena → Word → Word → Prop) : Clones → Clones → Prop
  | alloc {chunks chunks' : List Chunk} {path : List Clone} {arena arena' : Arena} {blocks : List Extent}
      {malloc : Word → Option Word} {size align p : Word} (honest : Honest malloc chunks)
      (met : condition chunks arena size align)
      (returned : arena_alloc malloc chunks arena size align = some (p, chunks', arena')) :
      Step condition ⟨chunks, ⟨arena, blocks⟩ :: path⟩ ⟨chunks', ⟨arena', ⟨p, size⟩ :: blocks⟩ :: path⟩
  | clone {chunks : List Chunk} {path : List Clone} {parent : Clone} :
      Step condition ⟨chunks, parent :: path⟩ ⟨chunks, ⟨parent.arena, []⟩ :: parent :: path⟩
  | back {chunks : List Chunk} {path : List Clone} (n : Nat) :
      Step condition ⟨chunks, path⟩ ⟨chunks, path.drop n⟩

/-- A block lies before the position of an arena, in one chunk. -/
def Before (chunks : List Chunk) (a : Arena) (b : Extent) : Prop :=
  ∃ (k : Nat) (c : Chunk), chunks[k]? = some c ∧ b.Within c ∧ (k < a.chunk ∨ k = a.chunk ∧ b.stop ≤ a.mem.toNat)

/-- Every clone's position lies behind its blocks and those of the ancestors, which lie apart. -/
def Stacked (chunks : List Chunk) : List Clone → Prop
  | [] => True
  | c :: path => c.arena.In chunks ∧ (∀ b ∈ pathBlocks (c :: path), Before chunks c.arena b) ∧
      (pathBlocks (c :: path)).Pairwise Extent.Apart ∧ Stacked chunks path

/-- The invariant of a run. -/
structure Clones.Inv (s : Clones) : Prop where
  spread : Spread s.chunks
  stacked : Stacked s.chunks s.path

theorem Extends.getElem? {chunks chunks' : List Chunk} (extends' : Extends chunks chunks') {k : Nat} {c : Chunk}
    (here : chunks[k]? = some c) : chunks'[k]? = some c := by
  obtain rfl | ⟨d, rfl, -⟩ := extends'
  · exact here
  · rw [List.getElem?_append_left (List.getElem?_eq_some_iff.mp here).1]
    exact here

theorem Extends.spread {chunks chunks' : List Chunk} (extends' : Extends chunks chunks') (spread : Spread chunks) :
    Spread chunks' := by
  obtain rfl | ⟨d, rfl, mem_pos, mem_le, apart⟩ := extends'
  · exact spread
  refine ⟨fun c mem => ?_, fun c mem => ?_, List.pairwise_append.mpr ⟨spread.apart, List.pairwise_singleton _ _,
    fun c mem e mem_e => ?_⟩⟩
  · obtain mem | mem := List.mem_append.mp mem
    · exact spread.mem_pos c mem
    · rwa [List.mem_singleton.mp mem]
  · obtain mem | mem := List.mem_append.mp mem
    · exact spread.mem_le c mem
    · rwa [List.mem_singleton.mp mem]
  · rw [List.mem_singleton.mp mem_e]
    exact (apart c mem).symm

theorem Stacked.extend {chunks chunks' : List Chunk} (extends' : Extends chunks chunks') {path : List Clone}
    (stacked : Stacked chunks path) : Stacked chunks' path := by
  induction path with
  | nil => trivial
  | cons c path ih =>
    obtain ⟨⟨d, here, inside⟩, before, apart, below⟩ := stacked
    refine ⟨⟨d, extends'.getElem? here, inside⟩, fun b mem => ?_, apart, ih below⟩
    obtain ⟨k, e, at', rest⟩ := before b mem
    exact ⟨k, e, extends'.getElem? at', rest⟩

theorem Stacked.drop {chunks : List Chunk} {path : List Clone} (stacked : Stacked chunks path) (n : Nat) :
    Stacked chunks (path.drop n) := by
  induction n generalizing path with
  | zero => exact stacked
  | succ n ih =>
    cases path with
    | nil => trivial
    | cons c path => exact ih stacked.2.2.2

/-- Blocks in different chunks lie apart. -/
theorem Spread.apart_of_ne {chunks : List Chunk} (spread : Spread chunks) {i j : Nat} {c d : Chunk} {x y : Extent}
    (ne : i ≠ j) (c_at : chunks[i]? = some c) (d_at : chunks[j]? = some d) (x_in : x.Within c) (y_in : y.Within d) :
    x.Apart y := by
  have apart : c.stop.toNat ≤ d.mem.toNat ∨ d.stop.toNat ≤ c.mem.toNat := by
    obtain ⟨i_lt, rfl⟩ := List.getElem?_eq_some_iff.mp c_at
    obtain ⟨j_lt, rfl⟩ := List.getElem?_eq_some_iff.mp d_at
    obtain lt | gt := Nat.lt_or_gt_of_ne ne
    · exact List.pairwise_iff_getElem.mp spread.apart i j i_lt j_lt lt
    · exact (List.pairwise_iff_getElem.mp spread.apart j i j_lt i_lt gt).symm
  have := x_in.1
  have := x_in.2
  have := y_in.1
  have := y_in.2
  unfold Extent.Apart
  omega

/-- A block behind a position lies apart from those before it. -/
theorem Behind.apart {chunks : List Chunk} (spread : Spread chunks) {a a' : Arena} {p size : Word}
    (behind : Behind chunks a a' p size) {b : Extent} (before : Before chunks a b) : Extent.Apart ⟨p, size⟩ b := by
  obtain ⟨c, here, low, high, -⟩ := behind.inside
  obtain ⟨k, d, at', within, side⟩ := before
  by_cases same : a'.chunk = k
  · have after := behind.after
    unfold Extent.Apart
    simp only
    omega
  · exact spread.apart_of_ne same here at' ⟨low, high⟩ within

/-- What lies before a position lies before every position further on. -/
theorem Behind.before {chunks : List Chunk} {a a' : Arena} {p size : Word} (behind : Behind chunks a a' p size)
    {b : Extent} (before : Before chunks a b) : Before chunks a' b := by
  obtain ⟨k, d, at', within, side⟩ := before
  refine ⟨k, d, at', within, ?_⟩
  have next := behind.next
  obtain later | ⟨same, le⟩ := behind.after
  · exact .inl (by omega)
  · omega

theorem Clones.Inv.step {s s' : Clones} (inv : s.Inv) (taken : s.Step NoWrap s') : s'.Inv := by
  cases taken with
  | @alloc chunks chunks' path arena arena' blocks malloc size align p honest met returned =>
    obtain ⟨inside, -, -, -⟩ := inv.stacked
    obtain ⟨extends', behind⟩ := arena_alloc_spec inside met honest returned
    have spread := extends'.spread inv.spread
    obtain ⟨-, before, apart, below⟩ := inv.stacked.extend extends'
    obtain ⟨c, here, low, high, stop⟩ := behind.inside
    have next := behind.next
    have block : Before chunks' arena' ⟨p, size⟩ := ⟨_, c, here, ⟨low, high⟩, .inr ⟨rfl, next.ge⟩⟩
    have position : arena'.In chunks' := ⟨c, here, by omega, by omega, stop⟩
    refine ⟨spread, position, fun b mem => ?_, List.pairwise_cons.mpr ⟨fun b mem => ?_, apart⟩,
      below⟩
    · obtain rfl | mem := List.mem_cons.mp mem
      · exact block
      · exact behind.before (before b mem)
    · exact behind.apart spread (before b mem)
  | clone =>
    obtain ⟨inside, before, apart, -⟩ := inv.stacked
    exact ⟨inv.spread, inside, before, apart, inv.stacked⟩
  | back n => exact ⟨inv.spread, inv.stacked.drop n⟩

theorem arena_create_inv {p size : Word} (created : Created p size) : (arena_create p size).Inv := by
  obtain ⟨positive, room⟩ := created
  have mem : (p + 48).toNat = p.toNat + 48 := by
    rw [BitVec.toNat_add, show (48 : Word).toNat = 48 from rfl, Nat.mod_eq_of_lt (by omega)]
  have stop : (p + 48 + size).toNat = p.toNat + 48 + size.toNat := by
    rw [BitVec.toNat_add, mem, Nat.mod_eq_of_lt (by omega)]
  refine ⟨⟨fun c mem_c => ?_, fun c mem_c => ?_, List.pairwise_singleton _ _⟩,
    ⟨⟨p + 48, p + 48 + size⟩, rfl, le_rfl, by simp only; omega, rfl⟩, fun b mem_b => ?_, List.Pairwise.nil, trivial⟩
  · rw [List.mem_singleton.mp mem_c]
    simp only
    omega
  · rw [List.mem_singleton.mp mem_c]
    simp only
    omega
  · cases mem_b

namespace Clones

/-- 256 bytes at 65536. -/
def created : Clones := arena_create 65488 256

def malloc (n : Word) : Option Word := if n = 536 then some 131072 else none

/-- The parent after its child grew the list, before it allocates. -/
def left : Clones := ⟨[⟨65536, 65792⟩, ⟨131096, 131608⟩], [⟨⟨0, 65536, 65792⟩, []⟩]⟩

end Clones
end M2.Mem
