import Mathlib.Data.List.Basic

/-!
# Lua patterns

A pattern is a list of items; a quantifier stands on a single character class only, and the text
between two marks is captured. `*` and `?` take as much as they can and give back what the rest of the
pattern needs. A string is the list of its bytes, written as characters. Captures are not nested.
-/
namespace M2.Lib.LuaPattern

/-- The items of a pattern. -/
inductive Item
  | one (p : Char → Bool)
  | star (p : Char → Bool)
  | opt (p : Char → Bool)
  | openCapture
  | closeCapture

/-- Match the items at the start of a string: the captures and the rest of the string. `ends` is the
anchor `$`, and `cur` is what the open capture has so far, last character first. -/
def run (ends : Bool) : List Item → List Char → List Char → Option (List (List Char) × List Char)
  | [], s, _ => if ends && !s.isEmpty then none else some ([], s)
  | .openCapture :: ps, s, _ => run ends ps s []
  | .closeCapture :: ps, s, cur => (run ends ps s []).map fun r => (cur.reverse :: r.1, r.2)
  | .one _ :: _, [], _ => none
  | .one p :: ps, c :: s, cur => if p c then run ends ps s (c :: cur) else none
  | .star _ :: ps, [], cur => run ends ps [] cur
  | .star p :: ps, c :: s, cur =>
    if p c then (run ends (.star p :: ps) s (c :: cur)).or (run ends ps (c :: s) cur) else run ends ps (c :: s) cur
  | .opt _ :: ps, [], cur => run ends ps [] cur
  | .opt p :: ps, c :: s, cur =>
    if p c then (run ends ps s (c :: cur)).or (run ends ps (c :: s) cur) else run ends ps (c :: s) cur
termination_by ps s => ps.length + s.length

/-- `string.match` of a pattern anchored at both ends: its captures. -/
def matchAll (ps : List Item) (s : List Char) : Option (List (List Char)) := (run true ps s []).map Prod.fst

/-- `string.gmatch`: the captures of the matches, one after the other; an empty match moves on by one. -/
def gmatch (ps : List Item) : List Char → List (List (List Char))
  | [] => ((run false ps [] []).map Prod.fst).toList
  | c :: s =>
    match run false ps (c :: s) [] with
    | none => gmatch ps s
    | some (caps, rest) => if rest.length < (c :: s).length then caps :: gmatch ps rest else caps :: gmatch ps s
termination_by s => s.length
decreasing_by
  · exact Nat.lt_succ_self _
  · assumption
  · exact Nat.lt_succ_self _

/-- `%s`. -/
def space (c : Char) : Bool := c ∈ [' ', '\t', '\n', '\x0b', '\x0c', '\r']

/-- `s:gsub("%s", "")`. -/
def strip (s : List Char) : List Char := s.filter fun c => !space c

/-- A greedy repetition takes the whole run of its class, where the rest matches behind it. -/
theorem run_star {ends : Bool} {p : Char → Bool} {ps : List Item} {rest : List Char}
    {r : List (List Char) × List Char} (stop : ∀ c ∈ rest.head?, p c = false) (pre cur : List Char)
    (all : ∀ c ∈ pre, p c = true) (matched : run ends ps rest (pre.reverse ++ cur) = some r) :
    run ends (.star p :: ps) (pre ++ rest) cur = some r := by
  induction pre generalizing cur with
  | nil =>
    cases rest with
    | nil =>
      rw [List.append_nil, run]
      exact matched
    | cons c rest =>
      rw [List.nil_append, run, if_neg (by rw [stop c rfl]; exact Bool.false_ne_true)]
      exact matched
  | cons c pre ih =>
    have more := ih (c :: cur) (fun d mem => all d (List.mem_cons_of_mem c mem)) (by
      rwa [List.reverse_cons, List.append_assoc] at matched)
    rw [List.cons_append, run, if_pos (all c List.mem_cons_self), more]
    rfl

/-- A captured greedy repetition. -/
theorem run_capture_star {ends : Bool} {p : Char → Bool} {ps : List Item} {pre rest cur : List Char}
    {r : List (List Char) × List Char} (stop : ∀ c ∈ rest.head?, p c = false) (all : ∀ c ∈ pre, p c = true)
    (matched : run ends ps rest [] = some r) :
    run ends (.openCapture :: .star p :: .closeCapture :: ps) (pre ++ rest) cur = some (pre :: r.1, r.2) := by
  rw [run]
  apply run_star stop pre [] all
  rw [run, matched, Option.map_some, List.append_nil, List.reverse_reverse]

theorem run_one {ends : Bool} {p : Char → Bool} {ps : List Item} {c : Char} {s cur : List Char} (takes : p c = true) :
    run ends (.one p :: ps) (c :: s) cur = run ends ps s (c :: cur) := by
  rw [run, if_pos takes]

theorem run_opt {ends : Bool} {p : Char → Bool} {ps : List Item} {c : Char} {s cur : List Char}
    {r : List (List Char) × List Char} (takes : p c = true) (matched : run ends ps s (c :: cur) = some r) :
    run ends (.opt p :: ps) (c :: s) cur = some r := by
  rw [run, if_pos takes, matched]
  rfl

theorem run_opt_nil {ends : Bool} {p : Char → Bool} {ps : List Item} (cur : List Char) :
    run ends (.opt p :: ps) [] cur = run ends ps [] cur := by
  rw [run]

/-- `(.*)$` captures the rest of the string. -/
theorem run_capture_rest (s cur : List Char) :
    run true [.openCapture, .star fun _ => true, .closeCapture] s cur = some ([s], []) := by
  have ended : run true [] [] [] = some ([], []) := by
    rw [run]
    rfl
  have whole := @run_capture_star true (fun _ => true) [] s [] cur _ (fun c mem => by cases mem) (fun _ _ => rfl) ended
  rwa [List.append_nil] at whole

end M2.Lib.LuaPattern
