import Mathlib.Data.List.Infix
import Mathlib.Data.List.TakeWhile
import Mathlib.Tactic.Common

/-!
The parser of foreign signatures. A pointer is the list of the bytes from there to the end of its buffer, so
that a read where the list is empty is a read behind the buffer: the run has no result there.
-/
namespace M2.Fff

abbrev Byte := UInt8

def G_MAXEDGE : Nat := 0x7f

/-- `fff_sigtoken`: four bytes, where zeros fill up a shorter token. -/
structure SigToken where
  token : List Byte
  size : token.length = 4

/-- The token as one little endian number. -/
def SigToken.u32 (t : SigToken) : Nat := t.token.foldr (fun b n => b.toNat + 256 * n) 0

/-- `fff_signature`. -/
structure Signature where
  np : Byte
  nr : Byte
  types : Vector Byte (2 * G_MAXEDGE)

/-- What `n` points to. -/
inductive Counter
  | np
  | nr
  deriving DecidableEq

def Signature.count (s : Signature) : Counter → Byte
  | .np => s.np
  | .nr => s.nr

/-- `++(*n)`. -/
def Signature.bump (s : Signature) : Counter → Signature
  | .np => { s with np := s.np + 1 }
  | .nr => { s with nr := s.nr + 1 }

/-- `types[ep] = tok`, which keeps the low 8 bits. -/
def Signature.put (s : Signature) (ep tok : Nat) (bound : ep < 2 * G_MAXEDGE) : Signature :=
  { s with types := s.types.set ep (UInt8.ofNat tok) bound }

def separator (c : Byte) : Bool :=
  c == ' '.toUInt8 || c == ','.toUInt8 || c == '\t'.toUInt8 || c == '\n'.toUInt8

def arrow : Byte := '>'.toUInt8

/-- The comparison of one token's bytes with the text: `some none` is the jump to `next`, else the result is
the text behind the token. -/
def token_at : List Byte → List Byte → Option (Option (List Byte))
  | [], ss => some (some ss)
  | t :: token, ss =>
    if t = 0 then some (some ss)
    else match ss with
      | [] => none
      | c :: ss => if t ≠ c then some none else token_at token ss

/-- The loop over the table from its `k`-th token on: the token that the text starts with, and the text behind. -/
def find_token (sig : List Byte) : List SigToken → Nat → Option (Option (Nat × List Byte))
  | [], _ => none
  | tok :: more, k =>
    if tok.u32 = 0 then some none
    else match token_at tok.token sig with
      | none => none
      | some none => find_token sig more (k + 1)
      | some (some ss) => some (some (k, ss))

/-- The loop over the text: the return value and the signature. -/
def parse_from (table : List SigToken) (s : Signature) (n : Counter) (ep : Nat) (sig : List Byte) :
    Option (Int × Signature) :=
  match sig with
  | [] => none
  | c :: rest =>
    if c = 0 then some (0, s)
    else if separator c then parse_from table s n ep rest
    else if c = arrow then
      if n = .nr then some (-1, s) else parse_from table s .nr ep rest
    else match find_token (c :: rest) table 0 with
      | none => none
      | some none => some (-1, s)
      | some (some (tok, ss)) =>
        if ep = 2 * G_MAXEDGE then some (-1, s)
        else if (s.bump n).count n = 0 then some (-1, s.bump n)
        else if bound : ep < 2 * G_MAXEDGE then parse_from table ((s.bump n).put ep tok bound) n (ep + 1) ss
        else none
termination_by (2 * G_MAXEDGE - ep, sig.length)

def fff_parse_signature (s : Signature) (sig : List Byte) (table : List SigToken) : Option (Int × Signature) :=
  parse_from table { s with np := 0, nr := 0 } .np 0 sig

/-! ## The grammar -/

/-- The text of a token table: tokens of at most four bytes, none of which starts another. -/
structure TokenTable where
  tokens : List (List Byte)
  nonempty : ∀ t ∈ tokens, t ≠ []
  short : ∀ t ∈ tokens, t.length ≤ 4
  plain : ∀ t ∈ tokens, ∀ c ∈ t, c ≠ 0 ∧ separator c = false ∧ c ≠ arrow
  apart : tokens.Pairwise fun a b => ¬ a <+: b ∧ ¬ b <+: a

/-- A string and the zero byte that ends it. -/
structure CString where
  text : List Byte
  plain : ∀ c ∈ text, c ≠ 0

def CString.bytes (sig : CString) : List Byte := sig.text ++ [0]

/-- Zeros fill up a token. -/
def SigToken.ofText (t : List Byte) : SigToken where
  token := (t ++ List.replicate 4 0).take 4
  size := by simp

/-- The table as the parser gets it: the tokens and the zero token that ends them. -/
def TokenTable.defs (T : TokenTable) : List SigToken := T.tokens.map SigToken.ofText ++ [SigToken.ofText []]

/-- What a signature consists of. -/
inductive Item (T : TokenTable)
  | token (k : Fin T.tokens.length)
  | separator (c : Byte) (sep : separator c = true)
  | arrow

namespace Item

variable {T : TokenTable}

def text : Item T → List Byte
  | token k => T.tokens.get k
  | separator c _ => [c]
  | arrow => [Fff.arrow]

/-- The number of a token in its table. -/
def number : Item T → Option Nat
  | token k => some k
  | separator _ _ => none
  | arrow => none

def isArrow : Item T → Bool
  | arrow => true
  | _ => false

end Item

variable {T : TokenTable}

/-- The text that the items spell. -/
def spell (items : List (Item T)) : List Byte := items.flatMap Item.text

/-- The token numbers in order. -/
def numbers (items : List (Item T)) : List Nat := items.filterMap Item.number

def before (items : List (Item T)) : List (Item T) := items.takeWhile fun i => !i.isArrow

def after (items : List (Item T)) : List (Item T) := items.dropWhile fun i => !i.isArrow

/-- At most one arrow, and no more tokens than the signature has types for. -/
def Fits (items : List (Item T)) : Prop :=
  items.countP Item.isArrow ≤ 1 ∧ (numbers items).length ≤ 2 * G_MAXEDGE

/-! ## The table -/

theorem token_at_prefix {t : List Byte} (plain : ∀ c ∈ t, c ≠ 0) (n : Nat) (ss : List Byte) :
    token_at (t ++ List.replicate n 0) (t ++ ss) = some (some ss) := by
  induction t with
  | nil =>
    cases n with
    | zero => rfl
    | succ n => rfl
  | cons c t ih =>
    rw [List.cons_append, List.cons_append, token_at, if_neg (plain c List.mem_cons_self)]
    simp only [ne_eq, not_true_eq_false, if_false]
    exact ih fun d mem => plain d (List.mem_cons_of_mem _ mem)

/-- A token that the string does not start with differs from it no later than at the string's end. -/
theorem token_at_not_prefix {t text : List Byte} (plain : ∀ c ∈ t, c ≠ 0) (n : Nat) (differ : ¬ t <+: text) :
    token_at (t ++ List.replicate n 0) (text ++ [0]) = some none := by
  induction t generalizing text with
  | nil => exact absurd List.nil_prefix differ
  | cons c t ih =>
    have nonzero := plain c List.mem_cons_self
    cases text with
    | nil =>
      rw [List.cons_append, List.nil_append, token_at, if_neg nonzero]
      simp only [ne_eq, nonzero, not_false_eq_true, if_true]
    | cons d text =>
      rw [List.cons_append, List.cons_append, token_at, if_neg nonzero]
      split
      · rfl
      · rename_i same
        cases not_not.mp same
        apply ih fun d mem => plain d (List.mem_cons_of_mem _ mem)
        exact fun starts => differ (List.cons_prefix_cons.mpr ⟨rfl, starts⟩)

/-- What every token of a table is. -/
def Token (t : List Byte) : Prop := t ≠ [] ∧ t.length ≤ 4 ∧ ∀ c ∈ t, c ≠ 0

theorem SigToken.token_ofText {t : List Byte} (token : Token t) :
    (SigToken.ofText t).token = t ++ List.replicate (4 - t.length) 0 := by
  change (t ++ List.replicate 4 0).take 4 = _
  rw [List.take_append, List.take_of_length_le token.2.1, List.take_replicate,
    Nat.min_eq_left (Nat.sub_le _ _)]

theorem SigToken.u32_ofText {t : List Byte} (token : Token t) : (SigToken.ofText t).u32 ≠ 0 := by
  rw [SigToken.u32, SigToken.token_ofText token]
  cases t with
  | nil => exact absurd rfl token.1
  | cons c t =>
    have nonzero : c.toNat ≠ 0 := fun zero => token.2.2 c List.mem_cons_self (UInt8.toNat_inj.mp zero)
    rw [List.cons_append, List.foldr_cons]
    omega

theorem find_token_cons {t : List Byte} (token : Token t) (sig : List Byte) (more : List SigToken) (k : Nat) :
    find_token sig (SigToken.ofText t :: more) k =
      match token_at (t ++ List.replicate (4 - t.length) 0) sig with
      | none => none
      | some none => find_token sig more (k + 1)
      | some (some ss) => some (some (k, ss)) := by
  rw [find_token, if_neg (SigToken.u32_ofText token), SigToken.token_ofText token]

theorem find_token_none {tokens : List (List Byte)} (each : ∀ t ∈ tokens, Token t) {text : List Byte}
    (none_starts : ∀ t ∈ tokens, ¬ t <+: text) (k : Nat) :
    find_token (text ++ [0]) (tokens.map SigToken.ofText ++ [SigToken.ofText []]) k = some none := by
  induction tokens generalizing k with
  | nil => rfl
  | cons t tokens ih =>
    have token := each t List.mem_cons_self
    rw [List.map_cons, List.cons_append, find_token_cons token,
      token_at_not_prefix token.2.2 _ (none_starts t List.mem_cons_self)]
    apply ih
    · exact fun u mem => each u (List.mem_cons_of_mem _ mem)
    · exact fun u mem => none_starts u (List.mem_cons_of_mem _ mem)

theorem find_token_some {tokens : List (List Byte)} (each : ∀ t ∈ tokens, Token t)
    (apart : tokens.Pairwise fun a b => ¬ a <+: b ∧ ¬ b <+: a) (i : Fin tokens.length) (rest : List Byte) (k : Nat) :
    find_token (tokens.get i ++ rest ++ [0]) (tokens.map SigToken.ofText ++ [SigToken.ofText []]) k =
      some (some (k + i, rest ++ [0])) := by
  induction tokens generalizing k with
  | nil => exact i.elim0
  | cons t tokens ih =>
    have token := each t List.mem_cons_self
    rw [List.map_cons, List.cons_append, find_token_cons token]
    cases i using Fin.cases with
    | zero =>
      rw [List.get_cons_zero, List.append_assoc, token_at_prefix token.2.2]
      rfl
    | succ j =>
      have differ : ¬ t <+: tokens.get j ++ rest := by
        intro starts
        have both := (List.pairwise_cons.mp apart).1 _ (List.get_mem tokens j)
        rcases List.prefix_or_prefix_of_prefix starts (List.prefix_append _ _) with first | second
        · exact both.1 first
        · exact both.2 second
      rw [List.get_cons_succ', token_at_not_prefix token.2.2 _ differ]
      simp only
      rw [ih (fun u mem => each u (List.mem_cons_of_mem _ mem)) (List.pairwise_cons.mp apart).2, Fin.val_succ,
        Nat.add_right_comm, Nat.add_assoc]

theorem TokenTable.token (T : TokenTable) {t : List Byte} (mem : t ∈ T.tokens) : Token t :=
  ⟨T.nonempty t mem, T.short t mem, fun c inside => (T.plain t mem c inside).1⟩

/-! ## Reading items -/

theorem parse_from_separator {table : List SigToken} {c : Byte} (sep : separator c = true) (s : Signature)
    (n : Counter) (ep : Nat) (rest : List Byte) :
    parse_from table s n ep (c :: rest) = parse_from table s n ep rest := by
  have nonzero : c ≠ 0 := by
    rintro rfl
    cases sep
  rw [parse_from, if_neg nonzero, if_pos sep]

theorem parse_from_arrow (table : List SigToken) (s : Signature) (n : Counter) (ep : Nat) (rest : List Byte) :
    parse_from table s n ep (arrow :: rest) =
      if n = .nr then some (-1, s) else parse_from table s .nr ep rest := by
  rw [parse_from, if_neg (by decide), if_neg (by decide), if_pos rfl]

theorem parse_from_token {sig : List Byte} (plain : ∀ c ∈ sig.head?, c ≠ 0 ∧ separator c = false ∧ c ≠ arrow)
    (nonempty : sig ≠ []) (table : List SigToken) (s : Signature) (n : Counter) (ep : Nat) :
    parse_from table s n ep sig =
      match find_token sig table 0 with
      | none => none
      | some none => some (-1, s)
      | some (some (tok, ss)) =>
        if ep = 2 * G_MAXEDGE then some (-1, s)
        else if (s.bump n).count n = 0 then some (-1, s.bump n)
        else if bound : ep < 2 * G_MAXEDGE then parse_from table ((s.bump n).put ep tok bound) n (ep + 1) ss
        else none := by
  cases sig with
  | nil => exact absurd rfl nonempty
  | cons c rest =>
    obtain ⟨nonzero, no_sep, no_arrow⟩ := plain c rfl
    rw [parse_from, if_neg nonzero, if_neg (by rw [no_sep]; exact Bool.false_ne_true), if_neg no_arrow]

/-- Where the loop over the text is: every token so far is counted before or behind the arrow. -/
structure Progress where
  s : Signature
  n : Counter
  ep : Nat
  counted : s.np.toNat + s.nr.toNat = ep
  fits : ep ≤ 2 * G_MAXEDGE

namespace Progress

theorem bump_toNat (p : Progress) (room : p.ep < 2 * G_MAXEDGE) :
    ((p.s.bump p.n).count p.n).toNat = (p.s.count p.n).toNat + 1 := by
  have counted := p.counted
  have small : p.ep < 254 := room
  cases n : p.n with
  | np =>
    change (p.s.np + 1).toNat = p.s.np.toNat + 1
    rw [UInt8.toNat_add, UInt8.toNat_one, Nat.mod_eq_of_lt (by omega)]
  | nr =>
    change (p.s.nr + 1).toNat = p.s.nr.toNat + 1
    rw [UInt8.toNat_add, UInt8.toNat_one, Nat.mod_eq_of_lt (by omega)]

/-- A further token. -/
def push (p : Progress) (k : Nat) (room : p.ep < 2 * G_MAXEDGE) : Progress where
  s := (p.s.bump p.n).put p.ep k room
  n := p.n
  ep := p.ep + 1
  counted := by
    have counted := p.counted
    have more := p.bump_toNat room
    cases n : p.n with
    | np =>
      rw [n] at more
      change (p.s.np + 1).toNat + p.s.nr.toNat = p.ep + 1
      change (p.s.np + 1).toNat = p.s.np.toNat + 1 at more
      omega
    | nr =>
      rw [n] at more
      change p.s.np.toNat + (p.s.nr + 1).toNat = p.ep + 1
      change (p.s.nr + 1).toNat = p.s.nr.toNat + 1 at more
      omega
  fits := room

/-- What an item does: none where the parser gives up. -/
def step (p : Progress) : Item T → Option Progress
  | .token k => if room : p.ep < 2 * G_MAXEDGE then some (p.push k room) else none
  | .separator _ _ => some p
  | .arrow => if p.n = .nr then none else some { p with n := .nr }

def parse (p : Progress) (table : List SigToken) (sig : List Byte) : Option (Int × Signature) :=
  parse_from table p.s p.n p.ep sig

/-- One item is read whole, and the loop goes on behind it. -/
theorem parse_item (p : Progress) (i : Item T) (rest : List Byte) :
    p.parse T.defs (i.text ++ rest ++ [0]) =
      match p.step i with
      | some q => q.parse T.defs (rest ++ [0])
      | none => some (-1, p.s) := by
  cases i with
  | separator c sep => exact parse_from_separator sep p.s p.n p.ep _
  | arrow =>
    change parse_from T.defs p.s p.n p.ep (Fff.arrow :: (rest ++ [0])) = _
    rw [parse_from_arrow, step]
    by_cases again : p.n = .nr
    · rw [if_pos again, if_pos again]
    · rw [if_neg again, if_neg again]
      rfl
  | token k =>
    have mem := List.get_mem T.tokens k
    have nonempty := T.nonempty _ mem
    have head : ∀ c ∈ (T.tokens.get k ++ rest ++ [0]).head?, c ≠ 0 ∧ separator c = false ∧ c ≠ Fff.arrow := by
      intro c first
      rw [List.append_assoc, List.head?_append_of_ne_nil _ nonempty] at first
      exact T.plain _ mem c (List.mem_of_mem_head? first)
    change parse_from T.defs p.s p.n p.ep (T.tokens.get k ++ rest ++ [0]) = _
    rw [parse_from_token head (List.append_ne_nil_of_right_ne_nil _ (List.cons_ne_nil _ _)), TokenTable.defs,
      find_token_some (fun _ inside => T.token inside) T.apart, Nat.zero_add, step]
    by_cases room : p.ep < 2 * G_MAXEDGE
    · have more : (p.s.bump p.n).count p.n ≠ 0 := by
        intro zero
        have count := p.bump_toNat room
        rw [zero] at count
        exact absurd count.symm (Nat.succ_ne_zero _)
      simp only [dif_pos room, if_neg more, if_neg (Nat.ne_of_lt room)]
      rfl
    · have full : p.ep = 2 * G_MAXEDGE := Nat.le_antisymm p.fits (Nat.le_of_not_lt room)
      simp only [dif_neg room, if_pos full]

theorem parse_spell_some {p q : Progress} {items : List (Item T)} (read : items.foldlM step p = some q)
    (rest : List Byte) : p.parse T.defs (spell items ++ rest ++ [0]) = q.parse T.defs (rest ++ [0]) := by
  induction items generalizing p with
  | nil =>
    cases read
    rfl
  | cons i items ih =>
    rw [List.foldlM_cons] at read
    cases first : p.step i with
    | none =>
      rw [first] at read
      cases read
    | some r =>
      rw [first] at read
      rw [spell, List.flatMap_cons, List.append_assoc i.text, parse_item, first]
      exact ih read

theorem parse_spell_none {p : Progress} {items : List (Item T)} (stop : items.foldlM step p = none)
    (rest : List Byte) : ∃ s, p.parse T.defs (spell items ++ rest ++ [0]) = some (-1, s) := by
  induction items generalizing p with
  | nil => cases stop
  | cons i items ih =>
    rw [List.foldlM_cons] at stop
    rw [spell, List.flatMap_cons, List.append_assoc i.text, parse_item]
    cases first : p.step i with
    | none => exact ⟨p.s, rfl⟩
    | some r =>
      rw [first] at stop
      exact ih stop

/-- The items fit behind what is read already. -/
def Room (p : Progress) (items : List (Item T)) : Prop :=
  items.countP Item.isArrow + (if p.n = .nr then 1 else 0) ≤ 1 ∧ p.ep + (numbers items).length ≤ 2 * G_MAXEDGE

/-- What the parser has counted and stored after the items. -/
structure After (p q : Progress) (items : List (Item T)) : Prop where
  np : q.s.np.toNat = p.s.np.toNat + if p.n = .np then (numbers (before items)).length else 0
  nr : q.s.nr.toNat = p.s.nr.toNat + (numbers (if p.n = .np then after items else items)).length
  types : q.s.types.toList.take q.ep = p.s.types.toList.take p.ep ++ (numbers items).map UInt8.ofNat

theorem push_types (p : Progress) (k : Nat) (room : p.ep < 2 * G_MAXEDGE) :
    (p.push k room).s.types.toList.take (p.ep + 1) = p.s.types.toList.take p.ep ++ [UInt8.ofNat k] := by
  have size : p.ep < (p.s.types.toList.set p.ep (UInt8.ofNat k)).length := by
    rw [List.length_set, Vector.length_toList]
    exact room
  have types : (p.push k room).s.types.toList = p.s.types.toList.set p.ep (UInt8.ofNat k) := by
    have same : (p.s.bump p.n).types = p.s.types := by
      cases p.n with
      | np => rfl
      | nr => rfl
    change ((p.s.bump p.n).types.set p.ep (UInt8.ofNat k) room).toList = _
    rw [same, Vector.toList_set]
  rw [types, List.take_succ_eq_append_getElem size, List.getElem_set_self, List.take_set_of_le le_rfl]

theorem push_count (p : Progress) (k : Nat) (room : p.ep < 2 * G_MAXEDGE) :
    (p.push k room).s.np.toNat = p.s.np.toNat + (if p.n = .np then 1 else 0) ∧
      (p.push k room).s.nr.toNat = p.s.nr.toNat + (if p.n = .np then 0 else 1) := by
  have more := p.bump_toNat room
  change ((p.s.bump p.n).np.toNat = _) ∧ ((p.s.bump p.n).nr.toNat = _)
  cases n : p.n with
  | np =>
    rw [n] at more
    exact ⟨more, rfl⟩
  | nr =>
    rw [n] at more
    exact ⟨rfl, more⟩

theorem room_cons (p : Progress) (i : Item T) (items : List (Item T)) :
    p.Room (i :: items) ↔ ∃ q, p.step i = some q ∧ q.Room items := by
  cases i with
  | separator c sep =>
    constructor
    · exact fun room => ⟨p, rfl, room⟩
    · rintro ⟨q, same, room⟩
      cases same
      exact room
  | arrow =>
    rw [step, Room, List.countP_cons_of_pos rfl]
    by_cases again : p.n = .nr
    · rw [if_pos again, if_pos again]
      constructor
      · rintro ⟨arrows, -⟩
        exact absurd arrows (by omega)
      · rintro ⟨q, stop, -⟩
        cases stop
    · rw [if_neg again, if_neg again]
      constructor
      · rintro ⟨arrows, tokens⟩
        exact ⟨_, rfl, arrows, tokens⟩
      · rintro ⟨q, same, room⟩
        cases same
        exact room
  | token k =>
    have numbers_cons : (numbers (.token k :: items)).length = (numbers items).length + 1 := rfl
    rw [step, Room, numbers_cons, List.countP_cons_of_neg Bool.false_ne_true]
    constructor
    · rintro ⟨arrows, tokens⟩
      have room : p.ep < 2 * G_MAXEDGE := by omega
      refine ⟨p.push k room, dif_pos room, arrows, ?_⟩
      change p.ep + 1 + _ ≤ _
      omega
    · rintro ⟨q, same, arrows, tokens⟩
      by_cases room : p.ep < 2 * G_MAXEDGE
      · rw [dif_pos room] at same
        cases same
        change p.ep + 1 + _ ≤ _ at tokens
        exact ⟨arrows, by omega⟩
      · rw [dif_neg room] at same
        cases same

theorem after_cons {p q r : Progress} {i : Item T} {items : List (Item T)} (first : p.step i = some q)
    (rest : q.After r items) : p.After r (i :: items) := by
  cases i with
  | separator c sep =>
    cases first
    constructor
    · exact rest.np
    · rw [rest.nr]
      cases p.n with
      | np => rfl
      | nr => rfl
    · exact rest.types
  | arrow =>
    rw [step] at first
    by_cases again : p.n = .nr
    · rw [if_pos again] at first
      cases first
    · have n : p.n = .np := by
        cases n : p.n with
        | np => rfl
        | nr => exact absurd n again
      rw [if_neg again] at first
      cases first
      constructor
      · rw [rest.np, n]
        rfl
      · rw [rest.nr, n]
        rfl
      · exact rest.types
  | token k =>
    rw [step] at first
    by_cases room : p.ep < 2 * G_MAXEDGE
    · rw [dif_pos room] at first
      cases first
      have count := p.push_count k room
      have same : (p.push k room).n = p.n := rfl
      constructor
      · rw [rest.np, count.1, same]
        cases p.n with
        | np =>
          change _ + 1 + _ = _ + ((numbers (before items)).length + 1)
          simp only [if_true]
          omega
        | nr => rfl
      · rw [rest.nr, count.2, same]
        cases p.n with
        | np => rfl
        | nr =>
          change _ + 1 + (numbers items).length = _ + ((numbers items).length + 1)
          omega
      · rw [rest.types]
        change (p.push k room).s.types.toList.take (p.ep + 1) ++ _ = _ ++ UInt8.ofNat k :: _
        rw [push_types, List.append_assoc]
        rfl
    · rw [dif_neg room] at first
      cases first

theorem room_iff (p : Progress) (items : List (Item T)) : p.Room items ↔ ∃ q, items.foldlM step p = some q := by
  induction items generalizing p with
  | nil =>
    refine iff_of_true ⟨?_, p.fits⟩ ⟨p, rfl⟩
    change 0 + _ ≤ 1
    split <;> omega
  | cons i items ih =>
    rw [room_cons, List.foldlM_cons]
    cases first : p.step i with
    | none =>
      constructor
      · rintro ⟨q, same, -⟩
        cases same
      · rintro ⟨q, same⟩
        cases same
    | some q =>
      have rest := ih q
      constructor
      · rintro ⟨r, same, room⟩
        cases same
        exact rest.mp room
      · exact fun read => ⟨q, rfl, rest.mpr read⟩

theorem after_of_steps {p q : Progress} {items : List (Item T)} (read : items.foldlM step p = some q) :
    p.After q items := by
  induction items generalizing p with
  | nil =>
    cases read
    constructor
    · split <;> rfl
    · split <;> rfl
    · exact (List.append_nil _).symm
  | cons i items ih =>
    rw [List.foldlM_cons] at read
    cases first : p.step i with
    | none =>
      rw [first] at read
      cases read
    | some r =>
      rw [first] at read
      exact after_cons first (ih read)

/-- The start of a run. -/
def start (s : Signature) : Progress where
  s := { s with np := 0, nr := 0 }
  n := .np
  ep := 0
  counted := rfl
  fits := Nat.zero_le _

theorem start_parse (s : Signature) (sig : List Byte) (table : List SigToken) :
    fff_parse_signature s sig table = (start s).parse table sig := rfl

theorem start_room (s : Signature) (items : List (Item T)) : (start s).Room items ↔ Fits items := by
  rw [Room, Fits]
  change _ + 0 ≤ 1 ∧ 0 + _ ≤ _ ↔ _
  rw [Nat.add_zero, Nat.zero_add]

end Progress

/-! ## Texts -/

/-- No item starts the text. -/
def Stuck (T : TokenTable) (text : List Byte) : Prop := ∀ i : Item T, ¬ i.text <+: text

theorem Item.text_ne_nil (i : Item T) : i.text ≠ [] := by
  cases i with
  | token k => exact T.nonempty _ (List.get_mem _ k)
  | separator c sep => exact List.cons_ne_nil _ _
  | arrow => exact List.cons_ne_nil _ _

/-- A text is spelled up to its end or to a place where no item goes on. -/
theorem exists_spelled (T : TokenTable) (text : List Byte) :
    ∃ (items : List (Item T)) (tail : List Byte), text = spell items ++ tail ∧ (tail = [] ∨ Stuck T tail) := by
  induction len : text.length using Nat.strongRecOn generalizing text with
  | ind n ih =>
    by_cases stuck : Stuck T text
    · exact ⟨[], text, rfl, .inr stuck⟩
    · obtain ⟨i, starts⟩ := not_forall_not.mp stuck
      obtain ⟨rest, rfl⟩ := starts
      have shorter : rest.length < n := by
        rw [← len, List.length_append]
        have := List.length_pos_of_ne_nil i.text_ne_nil
        omega
      obtain ⟨items, tail, rfl, stop⟩ := ih _ shorter rest rfl
      refine ⟨i :: items, tail, ?_, stop⟩
      change _ = i.text ++ spell items ++ tail
      rw [List.append_assoc]

theorem parse_stuck {tail : List Byte} (stuck : Stuck T tail) (plain : ∀ c ∈ tail, c ≠ 0) (nonempty : tail ≠ [])
    (p : Progress) : p.parse T.defs (tail ++ [0]) = some (-1, p.s) := by
  have head : ∀ c ∈ (tail ++ [0]).head?, c ≠ 0 ∧ separator c = false ∧ c ≠ arrow := by
    intro c first
    rw [List.head?_append_of_ne_nil _ nonempty] at first
    obtain ⟨rest, rfl⟩ := List.head?_eq_some_iff.mp first
    refine ⟨plain c List.mem_cons_self, ?_, ?_⟩
    · by_contra sep
      exact stuck (.separator c (by rwa [Bool.not_eq_false] at sep)) ⟨rest, rfl⟩
    · rintro rfl
      exact stuck .arrow ⟨rest, rfl⟩
  have none_starts : ∀ t ∈ T.tokens, ¬ t <+: tail := by
    intro t mem
    obtain ⟨k, rfl⟩ := List.get_of_mem mem
    exact stuck (.token k)
  change parse_from T.defs p.s p.n p.ep _ = _
  rw [parse_from_token head (List.append_ne_nil_of_right_ne_nil _ (List.cons_ne_nil _ _)), TokenTable.defs,
    find_token_none (fun _ inside => T.token inside) none_starts]

/-- Items that fit are read, counted and stored. -/
theorem parse_fits (s : Signature) {items : List (Item T)} (fits : Fits items) :
    ∃ q, (Progress.start s).After q items ∧
      fff_parse_signature s (spell items ++ [0]) T.defs = some (0, q.s) := by
  obtain ⟨q, read⟩ := ((Progress.start s).room_iff items).mp ((Progress.start_room s items).mpr fits)
  have whole := Progress.parse_spell_some read []
  rw [List.append_nil] at whole
  refine ⟨q, Progress.after_of_steps read, ?_⟩
  rw [Progress.start_parse, whole]
  change parse_from _ _ _ _ [0] = _
  rw [parse_from, if_pos rfl]

/-- A text that no fitting items spell is refused. -/
theorem parse_refuses (s : Signature) (sig : CString)
    (bad : ¬ ∃ items : List (Item T), spell items = sig.text ∧ Fits items) :
    ∃ r, fff_parse_signature s sig.bytes T.defs = some (-1, r) := by
  obtain ⟨items, tail, text, stop⟩ := exists_spelled T sig.text
  rw [Progress.start_parse, CString.bytes, text]
  by_cases read : ∃ q, items.foldlM Progress.step (Progress.start s) = some q
  · have fits : Fits items :=
      (Progress.start_room s items).mp (((Progress.start s).room_iff items).mpr read)
    obtain ⟨q, read⟩ := read
    rw [Progress.parse_spell_some read]
    have nonempty : tail ≠ [] := by
      rintro rfl
      exact bad ⟨items, by rw [text, List.append_nil], fits⟩
    have stuck := stop.resolve_left nonempty
    refine ⟨q.s, parse_stuck stuck ?_ nonempty q⟩
    intro c mem
    exact sig.plain c (by rw [text]; exact List.mem_append_right _ mem)
  · apply Progress.parse_spell_none
    exact Option.eq_none_iff_forall_ne_some.mpr fun q some => read ⟨q, some⟩

/-- The parser ends without a read behind the zero byte and returns 0 exactly on the texts of the grammar. There
it has counted the tokens on both sides of the arrow and stored what `kept` leaves of their numbers. -/
def TokenTable.Parses (T : TokenTable) (s : Signature) (sig : CString) (kept : Nat → Nat) : Prop :=
  ∃ ret r, fff_parse_signature s sig.bytes T.defs = some (ret, r) ∧
    (ret = 0 ↔ ∃ items : List (Item T), spell items = sig.text ∧ Fits items) ∧
    ∀ items : List (Item T), spell items = sig.text → Fits items →
      r.np.toNat = (numbers (before items)).length ∧ r.nr.toNat = (numbers (after items)).length ∧
        (r.types.toList.take (r.np.toNat + r.nr.toNat)).map UInt8.toNat = (numbers items).map kept

/-- The parser accepts its grammar, and keeps 8 bits of each token number. -/
theorem fff_parse_signature_grammar (T : TokenTable) (s : Signature) (sig : CString) :
    T.Parses s sig (· % 256) := by
  by_cases good : ∃ items : List (Item T), spell items = sig.text ∧ Fits items
  · obtain ⟨items, text, fits⟩ := good
    obtain ⟨q, -, parsed⟩ := parse_fits s fits
    rw [text] at parsed
    refine ⟨0, q.s, parsed, iff_of_true rfl ⟨items, text, fits⟩, ?_⟩
    intro others same others_fit
    obtain ⟨r, read, again⟩ := parse_fits s others_fit
    rw [same] at again
    have equal : r.s = q.s := (Prod.mk.inj (Option.some.inj (again.symm.trans parsed))).2
    have np := read.np
    have nr := read.nr
    have types := read.types
    rw [← r.counted, equal] at types
    rw [equal] at np nr
    refine ⟨np.trans (Nat.zero_add _), nr.trans (Nat.zero_add _), ?_⟩
    rw [types]
    change (([] : List Byte) ++ _).map _ = _
    rw [List.nil_append, List.map_map]
    apply List.map_congr_left
    exact fun k _ => UInt8.toNat_ofNat'
  · obtain ⟨r, refused⟩ := parse_refuses s sig good
    refine ⟨-1, r, refused, iff_of_false (by decide) good, ?_⟩
    exact fun items text fits => absurd ⟨items, text, fits⟩ good

/-- A token of two bytes that are no ASCII. -/
def pair (i : Nat) : List Byte := [UInt8.ofNat (128 + i / 128), UInt8.ofNat (128 + i % 128)]

theorem pair_injective {i j : Nat} (bound_i : i < 257) (bound_j : j < 257) (same : pair i = pair j) : i = j := by
  have high := congrArg UInt8.toNat (List.cons.inj same).1
  have low := congrArg UInt8.toNat (List.cons.inj (List.cons.inj same).2).1
  simp only [UInt8.toNat_ofNat'] at high low
  omega

theorem pair_plain {i : Nat} (bound : i < 257) {c : Byte} (mem : c ∈ pair i) :
    c ≠ 0 ∧ separator c = false ∧ c ≠ arrow := by
  have high : 128 ≤ c.toNat := by
    rcases List.mem_pair.mp mem with rfl | rfl
    · rw [UInt8.toNat_ofNat']
      omega
    · rw [UInt8.toNat_ofNat']
      omega
  refine ⟨?_, ?_, ?_⟩
  · rintro rfl
    exact absurd high (by decide)
  · by_contra sep
    have cases' : c = ' '.toUInt8 ∨ c = ','.toUInt8 ∨ c = '\t'.toUInt8 ∨ c = '\n'.toUInt8 := by
      simpa only [separator, Bool.not_eq_false, Bool.or_eq_true, beq_iff_eq, or_assoc] using sep
    rcases cases' with rfl | rfl | rfl | rfl
    · exact absurd high (by decide)
    · exact absurd high (by decide)
    · exact absurd high (by decide)
    · exact absurd high (by decide)
  · rintro rfl
    exact absurd high (by decide)

/-- A table of 257 tokens. -/
def pairs : TokenTable where
  tokens := (List.range 257).map pair
  nonempty := by
    intro t mem
    obtain ⟨i, -, rfl⟩ := List.mem_map.mp mem
    exact List.cons_ne_nil _ _
  short := by
    intro t mem
    obtain ⟨i, -, rfl⟩ := List.mem_map.mp mem
    exact (by decide : 2 ≤ 4)
  plain := by
    intro t mem c inside
    obtain ⟨i, bound, rfl⟩ := List.mem_map.mp mem
    exact pair_plain (List.mem_range.mp bound) inside
  apart := by
    rw [List.pairwise_map]
    refine List.pairwise_lt_range.imp_of_mem fun {i j} mem_i mem_j less => ?_
    have differ : pair i ≠ pair j := fun same =>
      absurd (pair_injective (List.mem_range.mp mem_i) (List.mem_range.mp mem_j) same) (Nat.ne_of_lt less)
    exact ⟨fun starts => differ (starts.eq_of_length rfl), fun starts => differ (starts.eq_of_length rfl).symm⟩

/-- The last of them. -/
def lastPair : CString := ⟨pair 256, fun _ mem => (pair_plain (by decide) mem).1⟩

/-- The number of the 257th token does not fit its 8 bits. -/
theorem not_parses_lastPair : ¬ pairs.Parses ⟨0, 0, Vector.replicate _ 0⟩ lastPair id := by
  rintro ⟨ret, r, -, -, stored⟩
  have bound : 256 < pairs.tokens.length := by
    rw [pairs, List.length_map, List.length_range]
    decide
  have spelled : spell [Item.token (T := pairs) ⟨256, bound⟩] = lastPair.text := by
    rw [lastPair, spell, List.flatMap_singleton, Item.text, List.get_eq_getElem]
    simp only [pairs, List.getElem_map, List.getElem_range]
  obtain ⟨-, -, types⟩ := stored _ spelled ⟨Nat.zero_le 1, Nat.succ_le_succ (Nat.zero_le _)⟩
  have kept : 256 ∈ (r.types.toList.take (r.np.toNat + r.nr.toNat)).map UInt8.toNat := by
    rw [types]
    exact List.mem_cons_self
  obtain ⟨c, -, same⟩ := List.mem_map.mp kept
  exact absurd c.toNat_lt (by rw [same]; decide)

end M2.Fff
