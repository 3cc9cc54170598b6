import Mathlib
import M2.Lib.LuaPattern

/-!
# Edge rules

`edge_view` and `parserule` of `src/frontend/fhk/view.lua`. A closure is the truth of what it returns: a call
that falls off its end returns nothing, which is false. The groups of an edge are those
`graph.groupof` finds in the names of its model and variable.
-/
namespace M2.Fhk
open M2.Lib.LuaPattern

abbrev LuaString := List Char

/-- What `parserule` returns, as the truth of its result. -/
abbrev Selector := LuaString → LuaString → Bool

/-- `src:gmatch("([^|])+")`. The `+` behind the capture is a literal one. -/
def alternatives (src : LuaString) : List LuaString :=
  (gmatch [.openCapture, .one (· ≠ '|'), .closeCapture, .one (· = '+')] src).map fun caps => caps.headD []

/-- A match takes a character and the `+` behind it. -/
theorem alternative_match (s : LuaString) (r : List LuaString × LuaString) :
    run false [.openCapture, .one (· ≠ '|'), .closeCapture, .one (· = '+')] s [] = some r ↔
      ∃ c rest, s = c :: '+' :: rest ∧ c ≠ '|' ∧ r = ([[c]], rest) := by
  constructor
  · intro matched
    match s with
    | [] => simp [run] at matched
    | [c] =>
      simp only [run] at matched
      split at matched
      · simp at matched
      · cases matched
    | c :: d :: rest =>
      simp only [run] at matched
      split at matched
      · rename_i first
        split at matched
        · rename_i second
          obtain rfl : d = '+' := of_decide_eq_true second
          simp only [Bool.false_and, Bool.false_eq_true, if_false, Option.map_some, Option.some.injEq] at matched
          exact ⟨c, rest, rfl, of_decide_eq_true first, matched.symm⟩
        · cases matched
      · cases matched
  · rintro ⟨c, rest, rfl, bar, rfl⟩
    simp [run, bar]

/-- Each alternative is a single character with a `+` behind it. -/
theorem alternative_char {src x : LuaString} (mem : x ∈ alternatives src) :
    ∃ c, x = [c] ∧ c ≠ '|' ∧ [c, '+'] <:+: src := by
  obtain ⟨caps, found, rfl⟩ := List.mem_map.mp mem
  clear mem
  induction n : src.length using Nat.strongRecOn generalizing src with
  | _ n ih =>
    cases src with
    | nil =>
      rw [gmatch] at found
      simp [run] at found
    | cons d s =>
      rw [gmatch] at found
      split at found
      · obtain ⟨c, here, bar, inside⟩ := ih s.length (by rw [← n]; exact Nat.lt_succ_self _) found rfl
        exact ⟨c, here, bar, inside.trans (List.suffix_cons d s).isInfix⟩
      · rename_i caps' rest matched
        obtain ⟨c, rest', split, bar, same⟩ := (alternative_match _ _).mp matched
        cases same
        have shorter : rest.length < s.length := by
          cases split
          exact Nat.lt_succ_self _
        rw [if_pos (by
          rw [List.length_cons]
          omega)] at found
        rcases List.mem_cons.mp found with rfl | later
        · refine ⟨c, rfl, bar, ?_⟩
          rw [split]
          exact List.IsPrefix.isInfix ⟨rest, rfl⟩
        · obtain ⟨c', here, bar', inside⟩ := ih rest.length (by
            rw [← n, List.length_cons]
            omega) later rfl
          refine ⟨c', here, bar', inside.trans ?_⟩
          rw [split]
          exact List.IsSuffix.isInfix ⟨[c, '+'], rfl⟩

theorem alternative_shorter {src x : LuaString} (mem : x ∈ alternatives src) : x.length < src.length := by
  obtain ⟨c, rfl, -, inside⟩ := alternative_char mem
  exact Nat.lt_of_lt_of_le (Nat.lt_succ_self 1) inside.length_le

/-- The loop over the alternatives, whose body returns either way. -/
def tryRules (a b : LuaString) : List Selector → Bool
  | [] => false
  | r :: _ => if r a b then true else false

/-- `parserule`. -/
def parserule (src : LuaString) : Selector :=
  match src with
  | '!' :: rest =>
    let rule := parserule rest
    fun a b => !rule a b
  | src =>
    if '|' ∈ src then
      let rules := (alternatives src).attach.map fun x => parserule x.1
      fun a b => tryRules a b rules
    else if src = ['$'] then fun a b => decide (a = b)
    else fun name _ => decide (name = src)
termination_by src.length
decreasing_by
  · exact Nat.lt_succ_self _
  · exact alternative_shorter x.2

/-- The fields of an edge view that decide what it matches. -/
structure EdgeView where
  sel_from : Selector
  sel_to : Selector
  mapname : Option LuaString

/-- `"^([^=]*)=>([^:]*):?(.*)$"`. -/
def rulePattern : List Item :=
  [.openCapture, .star (· ≠ '='), .closeCapture, .one (· = '='), .one (· = '>'), .openCapture, .star (· ≠ ':'),
    .closeCapture, .opt (· = ':'), .openCapture, .star fun _ => true, .closeCapture]

/-- One end of a rule: an empty one is `true_`. -/
def ruleEnd (src : LuaString) : Selector := if src ≠ [] then parserule src else fun _ _ => true

/-- `edge_view` of a rule text; no result where the text is no rule. -/
def edge_view (rule : LuaString) : Option EdgeView :=
  match matchAll rulePattern (strip rule) with
  | some [src_from, src_to, name] => some ⟨ruleEnd src_from, ruleEnd src_to, if name ≠ [] then some name else none⟩
  | _ => none

/-- `edge_view_mt.edge`: whether an edge from a model of group `a` to a variable of group `b` gets the map. -/
def EdgeView.edge (V : EdgeView) (a b : LuaString) (map : Option LuaString) : Bool :=
  if V.mapname ≠ map then false
  else if !V.sel_from a b then false
  else if !V.sel_to b a then false
  else true

/-! ## Rules as documented -/

/-- A character that means something in a rule. -/
def special (c : Char) : Bool := c ∈ ['!', '|', '=', '>', ':', '$'] || space c

/-- A literal name. -/
structure PlainName where
  text : LuaString
  nonempty : text ≠ []
  plain : ∀ c ∈ text, special c = false

/-- What a side lists: `$` for the group at the other end, or a literal group. -/
inductive GroupName
  | other
  | literal (name : PlainName)

/-- A side of a rule. A bang stands before at least one name. -/
structure Side where
  neg : Bool
  names : List GroupName
  banged : neg = true → names ≠ []

/-- `[!]f1|...|fN=>[!]t1|...|tM[:name]`. -/
structure EdgeRule where
  side_from : Side
  side_to : Side
  name : Option PlainName

def GroupName.text : GroupName → LuaString
  | other => ['$']
  | literal name => name.text

/-- The names of a side with bars between them. -/
def barred : List GroupName → LuaString
  | [] => []
  | [n] => n.text
  | n :: m :: rest => n.text ++ '|' :: barred (m :: rest)

def Side.text (s : Side) : LuaString := (if s.neg then ['!'] else []) ++ barred s.names

/-- `[:name]`. -/
def EdgeRule.nameText (r : EdgeRule) : LuaString :=
  match r.name with
  | some n => ':' :: n.text
  | none => []

def EdgeRule.text (r : EdgeRule) : LuaString :=
  r.side_from.text ++ '=' :: '>' :: (r.side_to.text ++ r.nameText)

/-- A name stands for a group, where `other` is the group at the other end. -/
def GroupName.Names (x other : LuaString) : GroupName → Prop
  | .other => x = other
  | .literal name => x = name.text

/-- The groups a side selects: any where it is empty, those it lists, or with a bang those it does not. -/
def Side.Selects (s : Side) (x other : LuaString) : Prop :=
  s.names = [] ∨ (s.neg = true ↔ ¬ ∃ n ∈ s.names, n.Names x other)

/-- The edge view of the rule, with any spaces in its text, matches what the rule documents. -/
def EdgeRule.Means (r : EdgeRule) : Prop :=
  ∀ text, strip text = r.text → ∃ V, edge_view text = some V ∧ ∀ a b map,
    V.edge a b map = true ↔ map = r.name.map PlainName.text ∧ r.side_from.Selects a b ∧ r.side_to.Selects b a

/-! ## The text -/

theorem PlainName.avoids (name : PlainName) {c : Char} (sp : special c = true) : c ∉ name.text := by
  intro mem
  rw [name.plain c mem] at sp
  cases sp

theorem GroupName.text_ne_nil (n : GroupName) : n.text ≠ [] := by
  cases n with
  | other => exact List.cons_ne_nil _ _
  | literal name => exact name.nonempty

/-- A name holds no special character but `$`. -/
theorem GroupName.avoids (n : GroupName) {c : Char} (sp : special c = true) (ne : c ≠ '$') : c ∉ n.text := by
  cases n with
  | other => exact fun mem => ne (List.mem_singleton.mp mem)
  | literal name => exact name.avoids sp

theorem barred_avoids {names : List GroupName} {c : Char} (sp : special c = true) (dollar : c ≠ '$') (bar : c ≠ '|') :
    c ∉ barred names := by
  fun_induction barred names with
  | case1 => exact List.not_mem_nil
  | case2 n => exact n.avoids sp dollar
  | case3 n m rest ih =>
    rw [List.mem_append, List.mem_cons]
    rintro (mem | rfl | mem)
    · exact n.avoids sp dollar mem
    · exact bar rfl
    · exact ih mem

theorem barred_eq_nil {names : List GroupName} : barred names = [] ↔ names = [] := by
  fun_cases barred names with
  | case1 => exact iff_of_true rfl rfl
  | case2 n => exact iff_of_false n.text_ne_nil (List.cons_ne_nil _ _)
  | case3 n m rest => exact iff_of_false (List.append_ne_nil_of_right_ne_nil _ (List.cons_ne_nil _ _)) (List.cons_ne_nil _ _)

theorem Side.text_eq_nil (s : Side) : s.text = [] ↔ s.names = [] := by
  unfold Side.text
  cases neg : s.neg with
  | false => exact barred_eq_nil
  | true => exact iff_of_false (List.cons_ne_nil _ _) (s.banged neg)

theorem Side.text_avoids (s : Side) {c : Char} (sp : special c = true) (bang : c ≠ '!') (dollar : c ≠ '$') (bar : c ≠ '|') :
    c ∉ s.text := by
  unfold Side.text
  rw [List.mem_append]
  rintro (mem | mem)
  · split at mem
    · exact bang (List.mem_singleton.mp mem)
    · cases mem
  · exact barred_avoids sp dollar bar mem

/-- There are no spaces in the text. -/
theorem EdgeRule.strip_text (r : EdgeRule) : strip r.text = r.text := by
  apply List.filter_eq_self.mpr
  intro c mem
  rw [Bool.not_eq_true']
  by_contra blank
  rw [Bool.not_eq_false] at blank
  have sp : special c = true := by
    unfold special
    rw [blank, Bool.or_true]
  have ne (d : Char) (visible : space d = false) : c ≠ d := by
    rintro rfl
    rw [blank] at visible
    cases visible
  have out (s : Side) : c ∉ s.text := s.text_avoids sp (ne _ rfl) (ne _ rfl) (ne _ rfl)
  unfold EdgeRule.text EdgeRule.nameText at mem
  simp only [List.mem_append, List.mem_cons] at mem
  rcases mem with mem | rfl | rfl | mem | mem
  · exact out _ mem
  · exact absurd rfl (ne '=' rfl)
  · exact absurd rfl (ne '>' rfl)
  · exact out _ mem
  · cases named : r.name with
    | none =>
      rw [named] at mem
      cases mem
    | some n =>
      rw [named] at mem
      rcases List.mem_cons.mp mem with rfl | mem
      · exact absurd rfl (ne ':' rfl)
      · exact n.avoids sp mem

/-- What the code takes a side for. -/
def Side.code (s : Side) : Selector := ruleEnd s.text

/-- The pattern cuts a rule into its sides and its name. -/
theorem edge_view_text {r : EdgeRule} {text : LuaString} (strips : strip text = r.text) :
    edge_view text = some ⟨r.side_from.code, r.side_to.code, r.name.map PlainName.text⟩ := by
  have all_from : ∀ c ∈ r.side_from.text, decide (c ≠ '=') = true := by
    intro c mem
    rw [decide_eq_true_eq]
    rintro rfl
    exact r.side_from.text_avoids rfl (by decide) (by decide) (by decide) mem
  have all_to : ∀ c ∈ r.side_to.text, decide (c ≠ ':') = true := by
    intro c mem
    rw [decide_eq_true_eq]
    rintro rfl
    exact r.side_to.text_avoids rfl (by decide) (by decide) (by decide) mem
  have name (cur : LuaString) : run true [.opt (· = ':'), .openCapture, .star fun _ => true, .closeCapture]
      r.nameText cur = some ([(r.name.map PlainName.text).getD []], []) := by
    unfold EdgeRule.nameText
    cases r.name with
    | none =>
      rw [run_opt_nil]
      exact run_capture_rest [] cur
    | some n => exact run_opt rfl (run_capture_rest n.text _)
  have colon : ∀ c ∈ r.nameText.head?, decide (c ≠ ':') = false := by
    unfold EdgeRule.nameText
    cases r.name with
    | none => exact fun c mem => by cases mem
    | some n =>
      intro c mem
      cases mem
      rfl
  have arrow : ∀ c ∈ ('=' :: '>' :: (r.side_to.text ++ r.nameText)).head?, decide (c ≠ '=') = false := by
    intro c mem
    cases mem
    rfl
  have cut : matchAll rulePattern r.text =
      some [r.side_from.text, r.side_to.text, (r.name.map PlainName.text).getD []] := by
    have behind : run true rulePattern.tail.tail.tail ('=' :: '>' :: (r.side_to.text ++ r.nameText)) [] =
        some ([r.side_to.text, (r.name.map PlainName.text).getD []], []) := by
      unfold rulePattern
      rw [List.tail_cons, List.tail_cons, List.tail_cons, run_one rfl, run_one rfl]
      exact run_capture_star colon all_to (name _)
    unfold matchAll EdgeRule.text
    rw [show rulePattern = .openCapture :: .star (· ≠ '=') :: .closeCapture :: rulePattern.tail.tail.tail from rfl,
      run_capture_star arrow all_from behind]
    rfl
  unfold edge_view
  rw [strips, cut]
  unfold Side.code
  cases r.name with
  | none => rfl
  | some n =>
    simp only [Option.map_some, Option.getD_some, if_pos n.nonempty]

/-! ## The sides -/

theorem parserule_bang (rest a b : LuaString) : parserule ('!' :: rest) a b = !parserule rest a b := by
  rw [parserule]

theorem parserule_bars {src : LuaString} (bang : src.head? ≠ some '!') (bar : '|' ∈ src) (a b : LuaString) :
    parserule src a b = tryRules a b ((alternatives src).map parserule) := by
  rw [parserule.eq_def]
  split
  · exact absurd rfl bang
  · rw [if_pos bar, List.map_attach_eq_pmap, List.pmap_eq_map]

theorem parserule_name {src : LuaString} (bang : src.head? ≠ some '!') (bar : '|' ∉ src) (a b : LuaString) :
    parserule src a b = if src = ['$'] then decide (a = b) else decide (a = src) := by
  rw [parserule.eq_def]
  split
  · exact absurd rfl bang
  · rw [if_neg bar]
    split <;> rfl

theorem parserule_literal (name : PlainName) (a b : LuaString) : parserule name.text a b = decide (a = name.text) := by
  rw [parserule_name (fun bang => name.avoids rfl (List.mem_of_head? bang)) (name.avoids rfl), if_neg]
  intro dollar
  exact name.avoids (c := '$') rfl (by rw [dollar]; exact List.mem_singleton_self _)

theorem parserule_text (n : GroupName) (x other : LuaString) :
    parserule n.text x other = true ↔ n.Names x other := by
  cases n with
  | other =>
    rw [GroupName.text, parserule_name (by decide) (by decide), if_pos rfl, decide_eq_true_eq]
    exact Iff.rfl
  | literal name =>
    rw [GroupName.text, parserule_literal, decide_eq_true_eq]
    exact Iff.rfl

theorem barred_head (names : List GroupName) : (barred names).head? ≠ some '!' := fun bang =>
  barred_avoids rfl (by decide) (by decide) (List.mem_of_head? bang)

/-- Two characters that are no bars lie on one side of a bar. -/
theorem infix_of_bar {c d : Char} (hc : c ≠ '|') (hd : d ≠ '|') {l r : LuaString} (inside : [c, d] <:+: l ++ '|' :: r) :
    [c, d] <:+: l ∨ [c, d] <:+: r := by
  induction l with
  | nil =>
    rcases List.infix_cons_iff.mp inside with first | later
    · exact absurd (List.cons_prefix_cons.mp first).1 hc
    · exact .inr later
  | cons e l ih =>
    rcases List.infix_cons_iff.mp inside with first | later
    · obtain ⟨rfl, second⟩ := List.cons_prefix_cons.mp first
      cases l with
      | nil => exact absurd (List.cons_prefix_cons.mp second).1 hd
      | cons e' l =>
        obtain ⟨rfl, -⟩ := List.cons_prefix_cons.mp second
        exact .inl ⟨[], l, rfl⟩
    · rcases ih later with left | right
      · exact .inl (left.trans (List.suffix_cons e l).isInfix)
      · exact .inr right

/-- A character with a `+` behind it comes from a literal name, which is longer. -/
theorem literal_of_infix {names : List GroupName} {c : Char} (bar : c ≠ '|') (inside : [c, '+'] <:+: barred names) :
    ∃ name, .literal name ∈ names ∧ [c, '+'] <:+: name.text := by
  have of_text (n : GroupName) (inside : [c, '+'] <:+: n.text) : ∃ name, n = .literal name ∧ [c, '+'] <:+: name.text := by
    cases n with
    | other => exact absurd inside.length_le (Nat.not_succ_le_self 1)
    | literal name => exact ⟨name, rfl, inside⟩
  fun_induction barred names with
  | case1 => exact absurd inside.length_le (Nat.not_succ_le_zero 1)
  | case2 n =>
    obtain ⟨name, rfl, here⟩ := of_text n inside
    exact ⟨name, List.mem_singleton_self _, here⟩
  | case3 n m rest ih =>
    rcases infix_of_bar bar (by decide) inside with first | later
    · obtain ⟨name, rfl, here⟩ := of_text n first
      exact ⟨name, List.mem_cons_self, here⟩
    · obtain ⟨name, mem, here⟩ := ih later
      exact ⟨name, List.mem_cons_of_mem _ mem, here⟩

theorem bar_mem_barred {names : List GroupName} : '|' ∈ barred names ↔ 2 ≤ names.length := by
  fun_cases barred names with
  | case1 => exact iff_of_false List.not_mem_nil (by decide)
  | case2 n =>
    apply iff_of_false
    · exact n.avoids rfl (by decide)
    · exact Nat.not_succ_le_self 1
  | case3 n m rest =>
    apply iff_of_true
    · exact List.mem_append_right _ List.mem_cons_self
    · exact Nat.le_add_left 2 rest.length

/-- Several names are taken for one string at most, and some literal name is another one. -/
theorem parserule_several {names : List GroupName} (several : 2 ≤ names.length) :
    ∃ hit : Option LuaString, (∀ x other, parserule (barred names) x other = decide (hit = some x)) ∧
      ∀ c, hit = some c → ∃ name, .literal name ∈ names ∧ name.text ≠ c := by
  cases alts : alternatives (barred names) with
  | nil =>
    refine ⟨none, fun x other => ?_, fun c here => (by cases here)⟩
    rw [parserule_bars (barred_head names) (bar_mem_barred.mpr several), alts]
    rfl
  | cons src rest =>
    have mem : src ∈ alternatives (barred names) := alts ▸ List.mem_cons_self
    obtain ⟨c, rfl, bar, inside⟩ := alternative_char mem
    obtain ⟨name, listed, within⟩ := literal_of_infix bar inside
    have plain : ∀ d ∈ [c], special d = false := by
      intro d here
      cases List.mem_singleton.mp here
      exact name.plain c (within.subset List.mem_cons_self)
    refine ⟨some [c], fun x other => ?_, fun d here => ⟨name, listed, ?_⟩⟩
    · rw [parserule_bars (barred_head names) (bar_mem_barred.mpr several), alts, List.map_cons, tryRules]
      have literal := parserule_literal ⟨[c], List.cons_ne_nil _ _, plain⟩ x other
      simp only at literal
      rw [literal]
      by_cases same : x = [c]
      · rw [same, decide_eq_true rfl, decide_eq_true rfl, if_pos rfl]
      · rw [decide_eq_false same, decide_eq_false fun here => same (Option.some.inj here).symm, if_neg Bool.false_ne_true]
    · cases here
      intro short
      have longer := within.length_le
      rw [short] at longer
      exact absurd longer (Nat.not_succ_le_self 1)

/-- A side with a bang is the negation of the side without. -/
theorem Side.code_eq (s : Side) (nonempty : s.names ≠ []) (x other : LuaString) :
    s.code x other = (s.neg != parserule (barred s.names) x other) := by
  unfold Side.code ruleEnd
  rw [if_pos fun empty => nonempty (s.text_eq_nil.mp empty)]
  unfold Side.text
  cases s.neg with
  | false =>
    rw [if_neg Bool.false_ne_true, List.nil_append, Bool.false_bne]
  | true =>
    rw [if_pos rfl, List.singleton_append, parserule_bang, Bool.true_bne]

theorem Side.code_nil (s : Side) (empty : s.names = []) (x other : LuaString) : s.code x other = true := by
  unfold Side.code ruleEnd
  rw [if_neg fun nonempty => nonempty (s.text_eq_nil.mpr empty)]

/-- What a side selects, where it lists something. -/
theorem Side.selects_iff (s : Side) (nonempty : s.names ≠ []) (x other : LuaString) :
    s.Selects x other ↔ (s.neg = true ↔ ¬ ∃ n ∈ s.names, n.Names x other) :=
  or_iff_right nonempty

/-- A side of one name at most selects what it documents. -/
theorem Side.code_few (s : Side) (few : s.names.length ≤ 1) (x other : LuaString) :
    s.code x other = true ↔ s.Selects x other := by
  by_cases empty : s.names = []
  · exact iff_of_true (s.code_nil empty x other) (.inl empty)
  · rw [s.code_eq empty, s.selects_iff empty]
    obtain ⟨n, single⟩ := List.length_eq_one_iff.mp (Nat.le_antisymm few (List.length_pos_iff.mpr empty))
    have reads : (∃ m ∈ s.names, m.Names x other) ↔ parserule (barred s.names) x other = true := by
      rw [single, barred, parserule_text]
      simp only [List.mem_singleton, exists_eq_left]
    rw [reads]
    cases s.neg <;> cases parserule (barred s.names) x other <;> decide

/-! ## Both sides -/

/-- The code takes a pair of sides for what they document. -/
def Agree (s t : Side) : Prop :=
  ∀ a b, s.code a b = true ∧ t.code b a = true ↔ s.Selects a b ∧ t.Selects b a

theorem Agree.symm {s t : Side} (agree : Agree s t) : Agree t s := fun a b => by
  rw [and_comm, agree b a, and_comm]

/-- A side that repeats `$` only, next to a side that makes up for it: none of the pair matches, or both
read as `!$`. -/
def Side.Idle (s t : Side) : Prop :=
  2 ≤ s.names.length ∧ (∀ n ∈ s.names, n = .other) ∧ t.neg = true ∧
    (s.neg = false ∧ .other ∈ t.names ∨ s.neg = true ∧ t.names = [.other])

theorem fresh (l : List LuaString) : ∃ v, v ∉ l := by
  obtain ⟨v, out⟩ := Infinite.exists_notMem_finset l.toFinset
  exact ⟨v, fun mem => out (List.mem_toFinset.mpr mem)⟩

/-- The texts of the literal names. -/
def Side.literals (s : Side) : List LuaString := s.names.map GroupName.text

theorem not_names_of_fresh {s : Side} {x other : LuaString} (out : x ∉ s.literals) (ne : x ≠ other) :
    ¬ ∃ n ∈ s.names, n.Names x other := by
  rintro ⟨n, mem, names⟩
  cases n with
  | other => exact ne names
  | literal name => exact out (List.mem_map.mpr ⟨_, mem, names.symm⟩)

theorem not_names_of_plain {s : Side} {x other : LuaString} (out : x ∉ s.literals) (plain : .other ∉ s.names) :
    ¬ ∃ n ∈ s.names, n.Names x other := by
  rintro ⟨n, mem, names⟩
  cases n with
  | other => exact plain mem
  | literal name => exact out (List.mem_map.mpr ⟨_, mem, names.symm⟩)

/-- Every side selects some group, whatever is at the other end. -/
theorem Side.selects_some (s : Side) (other : LuaString) : ∃ x, s.Selects x other := by
  by_cases empty : s.names = []
  · exact ⟨other, .inl empty⟩
  cases neg : s.neg with
  | true =>
    obtain ⟨x, out⟩ := fresh (other :: s.literals)
    refine ⟨x, .inr (iff_of_true neg ?_)⟩
    exact not_names_of_fresh (fun mem => out (List.mem_cons_of_mem _ mem)) fun same => out (same ▸ List.mem_cons_self)
  | false =>
    obtain ⟨n, mem⟩ := List.exists_mem_of_ne_nil s.names empty
    have names : ∃ x, n.Names x other := by
      cases n with
      | other => exact ⟨other, rfl⟩
      | literal name => exact ⟨name.text, rfl⟩
    obtain ⟨x, here⟩ := names
    refine ⟨x, .inr (iff_of_false (by rw [neg]; exact Bool.false_ne_true) (not_not.mpr ⟨n, mem, here⟩))⟩

/-- A side selects some group with itself at the other end, unless it says that they differ. -/
theorem Side.selects_same (s : Side) : (∃ x, s.Selects x x) ∨ s.neg = true ∧ .other ∈ s.names := by
  by_cases empty : s.names = []
  · exact .inl ⟨[], .inl empty⟩
  cases neg : s.neg with
  | true =>
    by_cases other : .other ∈ s.names
    · exact .inr ⟨rfl, other⟩
    · obtain ⟨x, out⟩ := fresh s.literals
      exact .inl ⟨x, .inr (iff_of_true neg (not_names_of_plain out other))⟩
  | false =>
    obtain ⟨n, mem⟩ := List.exists_mem_of_ne_nil s.names empty
    have names : ∃ x, n.Names x x := by
      cases n with
      | other => exact ⟨[], rfl⟩
      | literal name => exact ⟨name.text, rfl⟩
    obtain ⟨x, here⟩ := names
    refine .inl ⟨x, .inr (iff_of_false (by rw [neg]; exact Bool.false_ne_true) (not_not.mpr ⟨n, mem, here⟩))⟩

/-- A side lists a literal name, or `$` only. -/
theorem Side.literal_or (s : Side) : (∃ name, .literal name ∈ s.names) ∨ ∀ n ∈ s.names, n = .other := by
  by_cases literal : ∃ name, .literal name ∈ s.names
  · exact .inl literal
  · right
    intro n mem
    cases n with
    | other => rfl
    | literal name => exact absurd ⟨name, mem⟩ literal

/-- How the code reads a side of several names. -/
theorem Side.code_several (s : Side) (several : 2 ≤ s.names.length) :
    ∃ hit : Option LuaString, (∀ x other, s.code x other = (s.neg != decide (hit = some x))) ∧
      ∀ c, hit = some c → ∃ name, .literal name ∈ s.names ∧ name.text ≠ c := by
  have nonempty : s.names ≠ [] := by
    rintro empty
    rw [empty] at several
    exact absurd several (Nat.not_succ_le_zero 1)
  obtain ⟨hit, reads, longer⟩ := parserule_several several
  refine ⟨hit, fun x other => ?_, longer⟩
  rw [s.code_eq nonempty, reads]

/-- The code finds some group for a side, unless that is several names none of which it reads. -/
theorem Side.code_some (t : Side) (other : LuaString) :
    (∃ x, t.code x other = true) ∨ 2 ≤ t.names.length ∧ t.neg = false ∧ ∀ x other, t.code x other = false := by
  rcases Nat.lt_or_ge 1 t.names.length with several | few
  · obtain ⟨hit, reads, -⟩ := t.code_several several
    cases neg : t.neg with
    | true =>
      obtain ⟨x, out⟩ := fresh hit.toList
      refine .inl ⟨x, ?_⟩
      rw [reads, neg, decide_eq_false fun here => out (by rw [here]; exact List.mem_singleton_self x)]
      rfl
    | false =>
      cases hit with
      | none =>
        refine .inr ⟨several, rfl, fun x other => ?_⟩
        rw [reads, neg]
        rfl
      | some c =>
        refine .inl ⟨c, ?_⟩
        rw [reads, neg, decide_eq_true rfl]
        rfl
  · obtain ⟨x, selects⟩ := t.selects_some other
    exact .inl ⟨x, (t.code_few few x other).mpr selects⟩

/-- A side that repeats `$` only is read as nothing, or with a bang as anything. -/
theorem Side.code_dollars {s : Side} (several : 2 ≤ s.names.length) (dollars : ∀ n ∈ s.names, n = .other)
    (x other : LuaString) : s.code x other = s.neg := by
  obtain ⟨hit, reads, longer⟩ := s.code_several several
  rw [reads]
  cases hit with
  | none => exact Bool.bne_false _
  | some c =>
    obtain ⟨name, mem, -⟩ := longer c rfl
    cases dollars _ mem

/-- It documents that the groups are the same, or with a bang that they differ. -/
theorem Side.selects_dollars {s : Side} (nonempty : s.names ≠ []) (dollars : ∀ n ∈ s.names, n = .other)
    (x other : LuaString) : s.Selects x other ↔ (s.neg = true ↔ x ≠ other) := by
  have names : (∃ n ∈ s.names, n.Names x other) ↔ x = other := by
    constructor
    · rintro ⟨n, mem, names⟩
      rw [dollars n mem] at names
      exact names
    · intro same
      obtain ⟨n, mem⟩ := List.exists_mem_of_ne_nil s.names nonempty
      exact ⟨n, mem, by rw [dollars n mem]; exact same⟩
  rw [s.selects_iff nonempty, names]

theorem ne_nil_of_several {s : Side} (several : 2 ≤ s.names.length) : s.names ≠ [] := by
  rintro empty
  rw [empty] at several
  exact absurd several (Nat.not_succ_le_zero 1)

theorem Side.Idle.agree {s t : Side} (idle : s.Idle t) : Agree s t := by
  obtain ⟨several, dollars, bang, cases'⟩ := idle
  intro a b
  rw [Side.code_dollars several dollars, Side.selects_dollars (ne_nil_of_several several) dollars]
  rcases cases' with ⟨plain, listed⟩ | ⟨neg, single⟩
  · rw [plain, t.selects_iff (List.ne_nil_of_mem listed)]
    constructor
    · rintro ⟨never, -⟩
      cases never
    · rintro ⟨same, differ⟩
      have equal : a = b := by
        by_contra ne
        exact absurd (same.mpr ne) Bool.false_ne_true
      exact absurd ⟨_, listed, equal.symm⟩ (differ.mp bang)
  · have few : t.names.length ≤ 1 := by
      rw [single]
      exact le_rfl
    rw [neg, t.code_few few, Side.selects_dollars (s := t) (by rw [single]; exact List.cons_ne_nil _ _) (by
      intro n mem
      rw [single] at mem
      exact List.mem_singleton.mp mem), bang]
    simp only [true_iff, true_and, ne_eq, eq_comm, and_self]

/-- A nonnegated side that lists a literal name documents it. -/
theorem Side.selects_literal {s : Side} {name : PlainName} (listed : .literal name ∈ s.names) (other : LuaString) :
    s.Selects name.text other ↔ s.neg = false := by
  rw [s.selects_iff (List.ne_nil_of_mem listed)]
  have names : ∃ n ∈ s.names, n.Names name.text other := ⟨_, listed, rfl⟩
  cases s.neg with
  | false => exact iff_of_true (iff_of_false Bool.false_ne_true (not_not.mpr names)) rfl
  | true => exact iff_of_false (fun same => same.mp rfl names) (by decide)

/-- A literal name of a side of several that the code does not read. -/
theorem Side.misses {s : Side} (several : 2 ≤ s.names.length) (literal : ∃ name, .literal name ∈ s.names) :
    ∃ name, .literal name ∈ s.names ∧ ∀ other, s.code name.text other = s.neg := by
  obtain ⟨hit, reads, longer⟩ := s.code_several several
  cases hit with
  | none =>
    obtain ⟨name, mem⟩ := literal
    refine ⟨name, mem, fun other => ?_⟩
    rw [reads]
    exact Bool.bne_false _
  | some c =>
    obtain ⟨name, mem, ne⟩ := longer c rfl
    refine ⟨name, mem, fun other => ?_⟩
    rw [reads, decide_eq_false fun here => ne (Option.some.inj here).symm]
    exact Bool.bne_false _

/-- Where the code never reads `t`, which is documented with a negated `s`. -/
theorem Agree.idle_of_never {s t : Side} (agree : Agree s t) (neg : s.neg = true) (several : 2 ≤ t.names.length)
    (plain : t.neg = false) (never : ∀ x other, t.code x other = false) : t.Idle s := by
  have none_selected (a b : LuaString) : ¬ (s.Selects a b ∧ t.Selects b a) := by
    intro both
    have found := ((agree a b).mpr both).2
    rw [never] at found
    cases found
  rcases t.literal_or with ⟨name, listed⟩ | dollars
  · obtain ⟨a, out⟩ := fresh (name.text :: s.literals)
    refine absurd ⟨.inr (iff_of_true neg ?_), (Side.selects_literal listed a).mpr plain⟩ (none_selected a name.text)
    exact not_names_of_fresh (fun mem => out (List.mem_cons_of_mem _ mem)) fun same => out (same ▸ List.mem_cons_self)
  · rcases s.selects_same with ⟨a, selects⟩ | ⟨-, dollar⟩
    · refine absurd ⟨selects, ?_⟩ (none_selected a a)
      rw [Side.selects_dollars (ne_nil_of_several several) dollars, plain]
      exact iff_of_false Bool.false_ne_true (not_not.mpr rfl)
    · exact ⟨several, dollars, neg, .inl ⟨plain, dollar⟩⟩

/-- The code reads the two sides right only where none lists several names, or one is idle. -/
theorem Agree.idle {s t : Side} (agree : Agree s t) (several : 2 ≤ s.names.length) : s.Idle t ∨ t.Idle s := by
  rcases s.literal_or with literal | dollars
  · obtain ⟨name, listed, code⟩ := Side.misses several literal
    cases neg : s.neg with
    | false =>
      -- the code misses the name, which is documented
      obtain ⟨b, selects⟩ := t.selects_some name.text
      have both := (agree name.text b).mpr ⟨(Side.selects_literal listed b).mpr neg, selects⟩
      rw [code, neg] at both
      exact absurd both.1 Bool.false_ne_true
    | true =>
      rcases t.code_some name.text with ⟨b, found⟩ | ⟨several_t, plain, never⟩
      · have both := (agree name.text b).mp ⟨by rw [code, neg], found⟩
        rw [Side.selects_literal listed, neg] at both
        exact absurd both.1.symm Bool.false_ne_true
      · exact .inr (agree.idle_of_never neg several_t plain never)
  · have code := Side.code_dollars several dollars
    have selects := Side.selects_dollars (ne_nil_of_several several) dollars
    cases neg : s.neg with
    | false =>
      rcases t.selects_same with ⟨b, same⟩ | ⟨bang, dollar⟩
      · have both := (agree b b).mpr ⟨(selects b b).mpr (by
          rw [neg]
          exact iff_of_false Bool.false_ne_true (not_not.mpr rfl)), same⟩
        rw [code, neg] at both
        exact absurd both.1 Bool.false_ne_true
      · exact .inl ⟨several, dollars, bang, .inl ⟨neg, dollar⟩⟩
    | true =>
      have never (b : LuaString) : t.code b b = false := by
        by_contra found
        have both := (agree b b).mp ⟨by rw [code, neg], Bool.not_eq_false _ |>.mp found⟩
        exact ((selects b b).mp both.1).mp neg rfl
      rcases Nat.lt_or_ge 1 t.names.length with several_t | few
      · obtain ⟨hit, reads, -⟩ := t.code_several several_t
        have plain : t.neg = false := by
          by_contra bang
          obtain ⟨b, out⟩ := fresh hit.toList
          have found := never b
          rw [reads, Bool.not_eq_false _ |>.mp bang,
            decide_eq_false fun here => out (by rw [here]; exact List.mem_singleton_self b)] at found
          cases found
        have nothing : hit = none := by
          cases hit with
          | none => rfl
          | some c =>
            have found := never c
            rw [reads, plain, decide_eq_true rfl] at found
            cases found
        refine .inr (agree.idle_of_never neg several_t plain fun x other => ?_)
        rw [reads, plain, nothing]
        rfl
      · rcases t.selects_same with ⟨b, same⟩ | ⟨bang, dollar⟩
        · rw [← t.code_few few, never] at same
          cases same
        · obtain ⟨n, single⟩ := List.length_eq_one_iff.mp (Nat.le_antisymm few (List.length_pos_of_mem dollar))
          rw [single, List.mem_singleton] at dollar
          exact .inl ⟨several, dollars, bang, .inr ⟨neg, by rw [single, dollar]⟩⟩

/-- The rules the code reads right: at most one name on each side, or an idle side. -/
def EdgeRule.Read (r : EdgeRule) : Prop :=
  r.side_from.names.length ≤ 1 ∧ r.side_to.names.length ≤ 1 ∨
    r.side_from.Idle r.side_to ∨ r.side_to.Idle r.side_from

theorem agree_iff (s t : Side) :
    Agree s t ↔ s.names.length ≤ 1 ∧ t.names.length ≤ 1 ∨ s.Idle t ∨ t.Idle s := by
  constructor
  · intro agree
    rcases Nat.lt_or_ge 1 s.names.length with several | few
    · exact .inr (agree.idle several)
    · rcases Nat.lt_or_ge 1 t.names.length with several_t | few_t
      · exact .inr (agree.symm.idle several_t).symm
      · exact .inl ⟨few, few_t⟩
  · rintro (⟨few, few_t⟩ | idle | idle)
    · intro a b
      rw [s.code_few few, t.code_few few_t]
    · exact idle.agree
    · exact idle.agree.symm

theorem edge_eq_true (V : EdgeView) (a b : LuaString) (map : Option LuaString) :
    V.edge a b map = true ↔ map = V.mapname ∧ V.sel_from a b = true ∧ V.sel_to b a = true := by
  unfold EdgeView.edge
  split
  · rename_i differ
    exact iff_of_false Bool.false_ne_true fun all => differ all.1.symm
  · rename_i same
    cases V.sel_from a b <;> cases V.sel_to b a <;> simp [not_not.mp same]

theorem EdgeRule.Means.agree {r : EdgeRule} (means : r.Means) : Agree r.side_from r.side_to := by
  intro a b
  obtain ⟨V, view, matches'⟩ := means r.text r.strip_text
  rw [edge_view_text r.strip_text] at view
  cases view
  have here := matches' a b (r.name.map PlainName.text)
  rw [edge_eq_true] at here
  simpa only [true_and] using here

/-- A rule's edge view matches the documented edges exactly where each side lists at most one name, or
one repeats `$` only in a way that the other side makes up for. -/
theorem edge_rule_means_iff (r : EdgeRule) : r.Means ↔ r.Read := by
  constructor
  · exact fun means => (agree_iff _ _).mp means.agree
  · intro read text stripped
    refine ⟨_, edge_view_text stripped, fun a b map => ?_⟩
    rw [edge_eq_true]
    simp only [(agree_iff _ _).mpr read a b]

/-- `tree|plot=>`. -/
def treeOrPlot : EdgeRule where
  side_from := ⟨false, [.literal ⟨['t', 'r', 'e', 'e'], List.cons_ne_nil _ _, by simp [special, space]⟩,
    .literal ⟨['p', 'l', 'o', 't'], List.cons_ne_nil _ _, by simp [special, space]⟩], fun neg => by cases neg⟩
  side_to := ⟨false, [], fun neg => by cases neg⟩
  name := none

/-- The view of a rule with two groups on a side does not match the edges from them. -/
theorem not_means_treeOrPlot : ¬ treeOrPlot.Means := by
  intro means
  rcases means.agree.idle le_rfl with idle | idle
  · cases idle.2.2.1
  · exact absurd idle.1 (Nat.not_succ_le_zero 1)

end M2.Fhk
