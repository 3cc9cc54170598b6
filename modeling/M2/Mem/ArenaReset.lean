import M2.Lib.Doubling
import M2.Mem.Arena

/-!
# Allocating and resetting

One arena under `arena_alloc` and `arena_reset` of `src/mem.c`, with the blocks it was asked for since the
last reset. `bump` wants a byte behind the block, so that a new chunk is too small for a request without
alignment that the doubling meets exactly; an arena of no bytes doubles nothing.
-/
namespace M2.Mem

open M2.Lib

/-- `arena_reset`. -/
def arena_reset (chunks : List Chunk) (arena : Arena) : Arena :=
  match chunks with
  | [] => arena
  | c :: _ => ⟨0, c.mem, c.stop⟩

/-- An arena, and the blocks returned since the last reset. -/
structure ArenaState where
  chunks : List Chunk
  arena : Arena
  blocks : List Extent

namespace ArenaState

/-- A new arena. -/
def created (p size : Word) : ArenaState := ⟨[⟨p + 48, p + 48 + size⟩], ⟨0, p + 48, p + 48 + size⟩, []⟩

/-- What a call is promised: a power of two, sums that do not wrap, and memory that `malloc` has, aligned
as documented. -/
structure Call (s : ArenaState) (malloc : Word → Option Word) (size align : Word) : Prop where
  power : ∃ k, align.toNat = 2 ^ k
  noWrap : NoWrap s.chunks s.arena size align
  honest : Honest malloc s.chunks
  aligned : ∀ n, ∀ p ∈ malloc n, 16 ∣ p.toNat
  succeeds : ∀ last ∈ s.chunks.getLast?, ∀ newsz ∈ newSize last size align, (malloc (sizeofChunk + newsz)).isSome

/-- A call that returns a block, and a reset. -/
inductive Step : ArenaState → ArenaState → Prop
  | alloc {s : ArenaState} {malloc : Word → Option Word} {size align p : Word} {chunks : List Chunk} {arena : Arena}
      (call : s.Call malloc size align)
      (returned : arena_alloc malloc s.chunks s.arena size align = some (p, chunks, arena)) :
      Step s ⟨chunks, arena, ⟨p, size⟩ :: s.blocks⟩
  | reset {s : ArenaState} : Step s ⟨s.chunks, arena_reset s.chunks s.arena, []⟩

/-- The call returns an aligned block in one chunk, apart from those returned since the last reset. -/
def Returns (s : ArenaState) (malloc : Word → Option Word) (size align : Word) : Prop :=
  ∃ p chunks arena, arena_alloc malloc s.chunks s.arena size align = some (p, chunks, arena) ∧ p ≠ 0 ∧
    align.toNat ∣ p.toNat ∧ (∃ c ∈ chunks, Extent.Within ⟨p, size⟩ c) ∧ ∀ b ∈ s.blocks, Extent.Apart ⟨p, size⟩ b

end ArenaState

/-- A block at a position ends before the end of the chunk. -/
def Room (mem size align stop : Word) : Prop := (ALIGN mem align).toNat + size.toNat < stop.toNat

/-- The position or a later chunk has room, or a doubling of the last chunk reaches the request, and is
not just as large as one without alignment. -/
def ArenaState.Served (s : ArenaState) (size align : Word) : Prop :=
  Room s.arena.mem size align s.arena.stop ∨ (∃ c ∈ s.chunks.drop (s.arena.chunk + 1), Room c.mem size align c.stop) ∨
    ∃ last ∈ s.chunks.getLast?, ∃ newsz,
      Doubling.First ((last.stop - last.mem) * 2) (size + align - 1) newsz ∧ (align = 1 → newsz ≠ size)

/-! ## The parts of a call -/

theorem bumpAt_aligned {mem size align stop : Word} (taken : (bumpAt mem size align stop).1 ≠ 0) :
    (bumpAt mem size align stop).1 = ALIGN mem align := by
  unfold bumpAt bump at taken ⊢
  simp only at taken ⊢
  split at taken
  · rename_i below
    rw [if_pos below]
    rfl
  · exact absurd rfl taken

/-- `bump` succeeds where there is room. -/
theorem bumpAt_iff {mem size align stop : Word} (fits : Fits mem size align) (pos : 0 < mem.toNat) :
    (bumpAt mem size align stop).1 ≠ 0 ↔ Room mem size align stop := by
  have low := le_ALIGN fits.1 fits.2.1
  have nonzero : ALIGN mem align ≠ 0 := by
    intro zero
    rw [zero] at low
    exact absurd (lt_of_lt_of_le pos low) (Nat.lt_irrefl _)
  have sum : (ALIGN mem align + size).toNat = (ALIGN mem align).toNat + size.toNat := by
    rw [BitVec.toNat_add, Nat.mod_eq_of_lt fits.2.2]
  unfold bumpAt bump Room
  simp only [BitVec.lt_def, sum]
  split
  · rename_i below
    exact iff_of_true nonzero below
  · rename_i full
    exact iff_of_false (not_not.mpr rfl) full

theorem findChunk_none {size align : Word} {k : Nat} {rest : List Chunk} (none : findChunk size align k rest = none) :
    ∀ c ∈ rest, (bumpAt c.mem size align c.stop).1 = 0 := by
  induction rest generalizing k with
  | nil => exact fun c mem => absurd mem List.not_mem_nil
  | cons c rest ih =>
    rw [findChunk] at none
    split at none
    · cases none
    · rename_i full
      intro d mem
      obtain rfl | mem := List.mem_cons.mp mem
      · exact not_not.mp full
      · exact ih none d mem

theorem findChunk_aligned {size align p : Word} {a : Arena} {k : Nat} {rest : List Chunk}
    (found : findChunk size align k rest = some (p, a)) :
    ∃ c ∈ rest, p = ALIGN c.mem align ∧ (bumpAt c.mem size align c.stop).1 ≠ 0 := by
  induction rest generalizing k with
  | nil => cases found
  | cons c rest ih =>
    rw [findChunk] at found
    split at found
    · rename_i taken
      cases found
      exact ⟨c, List.mem_cons_self, bumpAt_aligned taken, taken⟩
    · obtain ⟨d, mem, found⟩ := ih found
      exact ⟨d, List.mem_cons_of_mem _ mem, found⟩

theorem growSize_eq (fuel : Nat) (newsz need : Word) : growSize fuel newsz need = Doubling.grow fuel newsz need := by
  induction fuel generalizing newsz with
  | zero => rfl
  | succ fuel ih => rw [growSize, Doubling.grow, ih]

theorem newSize_iff {last : Chunk} {size align newsz : Word} :
    newSize last size align = some newsz ↔ Doubling.First ((last.stop - last.mem) * 2) (size + align - 1) newsz := by
  rw [newSize, growSize_eq]
  exact Doubling.grow_some_iff (by decide)

theorem ALIGN_one {n : Word} : ALIGN n 1 = n := by
  apply BitVec.eq_of_toNat_eq
  have low := @le_ALIGN n 1 (by decide) n.isLt
  have high := @le_add_ALIGN n 1 (by decide) n.isLt
  rw [show (1 : Word).toNat = 1 from rfl] at high
  omega

/-- A new chunk as large as the request and its alignment has room, but for the byte behind a block that
needs no alignment. -/
theorem fresh_room {mem size align newsz : Word} (even : mem.toNat % 2 = 0) (power : ∃ k, align.toNat = 2 ^ k)
    (request : size.toNat + (align.toNat - 1) ≤ newsz.toNat) (room : mem.toNat + newsz.toNat < 2 ^ 64) :
    Room mem size align (mem + newsz) ↔ (align = 1 → newsz ≠ size) := by
  have stop : (mem + newsz).toNat = mem.toNat + newsz.toNat := by
    rw [BitVec.toNat_add, Nat.mod_eq_of_lt room]
  rw [Room, stop]
  by_cases one : align = 1
  · subst one
    rw [ALIGN_one]
    rw [show (1 : Word).toNat = 1 from rfl] at request
    constructor
    · rintro below - same
      rw [same] at below
      exact absurd below (Nat.lt_irrefl _)
    · intro differ
      have : newsz.toNat ≠ size.toNat := fun same => differ rfl (BitVec.eq_of_toNat_eq same)
      omega
  · refine iff_of_true ?_ fun is_one => absurd is_one one
    obtain ⟨k, power⟩ := power
    have k_lt : k < 64 := (Nat.pow_lt_pow_iff_right (by decide)).mp (power ▸ align.isLt)
    have two_dvd : 2 ∣ 2 ^ k := by
      refine dvd_pow_self 2 fun zero => one ?_
      subst zero
      exact BitVec.eq_of_toNat_eq power
    have pos : 0 < align.toNat := power ▸ Nat.two_pow_pos k
    have high := @le_add_ALIGN mem align pos (by omega)
    have aligned := two_dvd.trans (@ALIGN_power mem align k (Nat.le_of_lt k_lt) power)
    rw [power] at high request
    generalize 2 ^ k = unit at *
    omega

/-! ## One call -/

/-- A block is where `bump` aligned some address to. -/
theorem arena_alloc_aligned {malloc : Word → Option Word} {chunks chunks' : List Chunk} {a a' : Arena} {size align p : Word}
    (returned : arena_alloc malloc chunks a size align = some (p, chunks', a')) : p ≠ 0 ∧ ∃ n, p = ALIGN n align := by
  unfold arena_alloc at returned
  simp only at returned
  split at returned
  · rename_i taken
    cases returned
    exact ⟨taken, _, bumpAt_aligned taken⟩
  split at returned
  · rename_i found
    cases returned
    obtain ⟨c, -, start, taken⟩ := findChunk_aligned found
    exact ⟨start ▸ bumpAt_aligned taken ▸ taken, _, start⟩
  · obtain ⟨last, -, returned⟩ := Option.bind_eq_some_iff.mp returned
    obtain ⟨newsz, -, returned⟩ := Option.bind_eq_some_iff.mp returned
    obtain ⟨base, -, returned⟩ := Option.bind_eq_some_iff.mp returned
    split at returned
    · cases returned
    · rename_i taken
      cases returned
      exact ⟨taken, _, bumpAt_aligned taken⟩

namespace ArenaState
variable {s : ArenaState} {malloc : Word → Option Word} {size align : Word}

/-- The chunk that `malloc` gave for `newsz` bytes. -/
theorem Call.fresh (call : s.Call malloc size align) {last : Chunk} (is_last : last ∈ s.chunks.getLast?) {newsz base : Word}
    (grown : newSize last size align = some newsz) (given : malloc (sizeofChunk + newsz) = some base) :
    (bumpAt (base + sizeofChunk) size align (base + sizeofChunk + newsz)).1 ≠ 0 ↔ (align = 1 → newsz ≠ size) := by
  have aligned : 0 < align.toNat := call.noWrap.position.1
  have header : (sizeofChunk + newsz).toNat = 24 + newsz.toNat := by
    rw [sizeofChunk, BitVec.toNat_add, show (24 : Word).toNat = 24 from rfl,
      Nat.mod_eq_of_lt (call.noWrap.grown last is_last newsz grown)]
  obtain ⟨positive, room, -⟩ := call.honest _ base given
  have multiple := call.aligned _ base given
  rw [header] at room
  have mem : (base + sizeofChunk).toNat = base.toNat + 24 := by
    rw [sizeofChunk, BitVec.toNat_add, show (24 : Word).toNat = 24 from rfl, Nat.mod_eq_of_lt (by omega)]
  have enough : size.toNat + (align.toNat - 1) ≤ newsz.toNat := by
    have need := (newSize_iff.mp grown).ge
    rwa [ALIGN_sum aligned call.noWrap.request] at need
  have high := @le_add_ALIGN (base + sizeofChunk) align aligned (by omega)
  have fits : Fits (base + sizeofChunk) size align := ⟨aligned, by omega, by omega⟩
  rw [bumpAt_iff fits (by omega)]
  exact fresh_room (by omega) call.power enough (by omega)

/-- A call returns exactly where it is served. -/
theorem Call.returned_iff (call : s.Call malloc size align) (spread : Spread s.chunks) (inside : s.arena.In s.chunks) :
    (∃ r, arena_alloc malloc s.chunks s.arena size align = some r) ↔ s.Served size align := by
  have mem_pos : 0 < s.arena.mem.toNat := by
    obtain ⟨c, here, low, -, -⟩ := inside
    exact lt_of_lt_of_le (spread.mem_pos c (List.mem_of_getElem? here)) low
  have position := @bumpAt_iff s.arena.mem size align s.arena.stop call.noWrap.position mem_pos
  have later : ∀ c ∈ s.chunks.drop (s.arena.chunk + 1),
      ((bumpAt c.mem size align c.stop).1 ≠ 0 ↔ Room c.mem size align c.stop) := fun c mem =>
    bumpAt_iff (call.noWrap.later c mem) (spread.mem_pos c (List.mem_of_mem_drop mem))
  unfold Served arena_alloc
  simp only
  split
  · rename_i taken
    exact iff_of_true ⟨_, rfl⟩ (.inl (position.mp taken))
  rename_i full
  rw [position] at full
  split
  · rename_i found
    obtain ⟨c, mem, -, taken⟩ := findChunk_aligned found
    exact iff_of_true ⟨_, rfl⟩ (.inr (.inl ⟨c, mem, (later c mem).mp taken⟩))
  rename_i none
  have all_full : ¬ ∃ c ∈ s.chunks.drop (s.arena.chunk + 1), Room c.mem size align c.stop := by
    rintro ⟨c, mem, room⟩
    exact (later c mem).mpr room (findChunk_none none c mem)
  rw [or_iff_right full, or_iff_right all_full]
  constructor
  · rintro ⟨r, returned⟩
    obtain ⟨last, is_last, returned⟩ := Option.bind_eq_some_iff.mp returned
    obtain ⟨newsz, grown, returned⟩ := Option.bind_eq_some_iff.mp returned
    obtain ⟨base, given, returned⟩ := Option.bind_eq_some_iff.mp returned
    refine ⟨last, is_last, newsz, newSize_iff.mp grown, (call.fresh is_last grown given).mp ?_⟩
    split at returned
    · cases returned
    · rename_i taken
      exact taken
  · rintro ⟨last, is_last, newsz, first, larger⟩
    have grown := newSize_iff.mpr first
    obtain ⟨base, given⟩ := Option.isSome_iff_exists.mp (call.succeeds last is_last newsz grown)
    have taken := (call.fresh is_last grown given).mpr larger
    rw [Option.mem_def] at is_last
    rw [← Option.isSome_iff_exists]
    simp only [is_last, grown, given, Option.bind_eq_bind, Option.bind_some]
    rw [if_neg taken, Option.isSome_some]

end ArenaState

/-! ## Runs -/

namespace ArenaState

/-- The invariant is the one of the clones, for an arena that is not cloned. -/
def Inv (s : ArenaState) : Prop := s.chunks ≠ [] ∧ Clones.Inv ⟨s.chunks, [⟨s.arena, s.blocks⟩]⟩

theorem created_inv {p size : Word} (made : Created p size) : (created p size).Inv :=
  ⟨List.cons_ne_nil _ _, arena_create_inv made⟩

theorem Inv.step {s s' : ArenaState} (inv : s.Inv) (taken : s.Step s') : s'.Inv := by
  obtain ⟨nonempty, inv⟩ := inv
  cases taken with
  | alloc call returned =>
    refine ⟨?_, inv.step (.alloc call.honest call.noWrap returned)⟩
    obtain ⟨extends', -⟩ := arena_alloc_spec inv.stacked.1 call.noWrap call.honest returned
    obtain rfl | ⟨c, rfl, -⟩ := extends'
    · exact nonempty
    · exact List.append_ne_nil_of_right_ne_nil _ (List.cons_ne_nil _ _)
  | reset =>
    refine ⟨nonempty, inv.spread, ?_⟩
    obtain ⟨chunks, arena, blocks⟩ := s
    obtain _ | ⟨c, rest⟩ := chunks
    · exact absurd rfl nonempty
    · refine ⟨⟨c, rfl, le_rfl, inv.spread.mem_le c List.mem_cons_self, rfl⟩, fun b mem => ?_, List.Pairwise.nil, trivial⟩
      exact absurd mem List.not_mem_nil

theorem reached_inv {p size : Word} {s : ArenaState} (made : Created p size)
    (run : Relation.ReflTransGen Step (created p size) s) : s.Inv := by
  induction run with
  | refl => exact created_inv made
  | tail _ taken ih => exact ih.step taken

theorem arena_alloc_apart {s : ArenaState} (inv : s.Inv) {malloc : Word → Option Word} {size align p : Word} {chunks : List Chunk}
    {arena : Arena} (call : s.Call malloc size align)
    (returned : arena_alloc malloc s.chunks s.arena size align = some (p, chunks, arena)) :
    (∃ c ∈ chunks, Extent.Within ⟨p, size⟩ c) ∧ ∀ b ∈ s.blocks, Extent.Apart ⟨p, size⟩ b := by
  have next : Clones.Inv ⟨chunks, [⟨arena, ⟨p, size⟩ :: s.blocks⟩]⟩ :=
    inv.2.step (.alloc call.honest call.noWrap returned)
  obtain ⟨-, before, apart, -⟩ := next.stacked
  obtain ⟨k, c, here, within, -⟩ := before ⟨p, size⟩ List.mem_cons_self
  refine ⟨⟨c, List.mem_of_getElem? here, within⟩, fun b mem => ?_⟩
  exact (List.pairwise_cons.mp apart).1 b (List.mem_append_left _ mem)

/-- In every state reached by allocations and resets a call returns an aligned block in one chunk, apart
from the live ones, exactly where it is served. -/
theorem returns_iff {p initial : Word} {s : ArenaState} (made : Created p initial)
    (run : Relation.ReflTransGen Step (created p initial) s) {malloc : Word → Option Word} {size align : Word}
    (call : s.Call malloc size align) : s.Returns malloc size align ↔ s.Served size align := by
  have inv := reached_inv made run
  have served := call.returned_iff inv.2.spread inv.2.stacked.1
  rw [← served]
  constructor
  · rintro ⟨p, chunks, arena, returned, -⟩
    exact ⟨_, returned⟩
  · rintro ⟨⟨p, chunks, arena⟩, returned⟩
    obtain ⟨nonzero, n, start⟩ := arena_alloc_aligned returned
    obtain ⟨within, apart⟩ := arena_alloc_apart inv call returned
    obtain ⟨k, power⟩ := call.power
    have k_le : k ≤ 64 := ((Nat.pow_lt_pow_iff_right (by decide)).mp (power ▸ align.isLt)).le
    refine ⟨p, chunks, arena, returned, nonzero, ?_, within, apart⟩
    rw [start, power]
    exact ALIGN_power k_le power

/-! ## An arena of eight bytes -/

/-- Eight bytes at 65536. -/
def eight : ArenaState := created 65488 8

/-- A heap with room for two chunks. -/
def heap (n : Word) : Option Word := if n = 40 then some 131072 else if n = 56 then some 131072 else none

theorem heap_call {size : Word} (request : ¬ 16 < size) : eight.Call heap size 1 := by
  have small : size.toNat ≤ 16 := BitVec.le_def.mp (BitVec.not_lt.mp request)
  have fits (n : Word) (low : n.toNat < 2 ^ 17) : Fits n size 1 := by
    refine ⟨by decide, n.isLt, ?_⟩
    rw [ALIGN_one]
    omega
  have grown : newSize ⟨65536, 65544⟩ size 1 = some 16 := by
    rw [newSize, growSize, if_neg]
    · rfl
    · rw [BitVec.add_sub_cancel]
      exact request
  refine ⟨⟨0, rfl⟩, ⟨fits _ (by decide), fun c mem => absurd mem List.not_mem_nil, ?_, ?_⟩, ?_, ?_, ?_⟩
  · exact size.isLt
  · intro last is_last newsz is_newsz
    cases is_last
    cases grown.symm.trans is_newsz
    decide
  · intro n p given
    rw [Option.mem_def, heap] at given
    split at given
    · rename_i is_n
      cases given
      rw [is_n]
      decide
    · split at given
      · rename_i is_n
        cases given
        rw [is_n]
        decide
      · cases given
  · intro n p given
    rw [Option.mem_def, heap] at given
    split at given
    · cases given
      decide
    · split at given
      · cases given
        decide
      · cases given
  · intro last is_last newsz is_newsz
    cases is_last
    cases grown.symm.trans is_newsz
    rfl

/-- Nine bytes are served from a second chunk. -/
theorem returns_iff_nine : eight.Returns heap 9 1 ↔ eight.Served 9 1 :=
  returns_iff ⟨by decide, by decide⟩ .refl (heap_call (by decide))

/-- Sixteen bytes are as many as the doubling gives, and one too many for `bump`. -/
theorem not_returns_sixteen : ¬ ∀ (p initial : Word) (s : ArenaState), Created p initial →
    Relation.ReflTransGen Step (created p initial) s → ∀ (malloc : Word → Option Word) (size align : Word),
      s.Call malloc size align → s.Returns malloc size align := by
  intro always
  obtain ⟨q, chunks, arena, returned, -⟩ :=
    always 65488 8 eight ⟨by decide, by decide⟩ .refl heap 16 1 (heap_call (by decide))
  have none : arena_alloc heap eight.chunks eight.arena 16 1 = none := by decide +kernel
  rw [none] at returned
  cases returned

end ArenaState
end M2.Mem
