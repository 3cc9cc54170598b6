import Mathlib.Logic.Relation
import Mathlib.Order.WellFounded

/-!
# Runs of a partial step function

A machine is a partial function `step : σ → Option σ`; it has halted where `step` is
undefined. Runs are reachability over defined steps. The guarded run keeps, next to the
steps, a condition that every state a step leaves satisfies: it is what a safety
statement of the form "as long as no step takes the bad branch" quantifies over. Loops are folds.
-/
namespace M2.Lib.Run

variable {σ : Type*}

/-- `target` is reached from `source` by finitely many defined steps. -/
abbrev Reaches (step : σ → Option σ) : σ → σ → Prop :=
  Relation.ReflTransGen fun a b => step a = some b

/-- As `Reaches`, and every state that a step of the run leaves satisfies `good`. -/
abbrev ReachesWhile (good : σ → Prop) (step : σ → Option σ) : σ → σ → Prop :=
  Relation.ReflTransGen fun a b => good a ∧ step a = some b

theorem Reaches.while_true {step : σ → Option σ} {source target : σ}
    (run : Reaches step source target) : ReachesWhile (fun _ => True) step source target :=
  run.lift id fun _ _ h => ⟨trivial, h⟩

/-- What every good step preserves holds along every run of good steps. -/
theorem ReachesWhile.invariant {good I : σ → Prop} {step : σ → Option σ} {source target : σ}
    (preserve : ∀ a b, I a → good a → step a = some b → I b)
    (run : ReachesWhile good step source target) (start : I source) : I target := by
  induction run with
  | refl => exact start
  | tail _ last ih => exact preserve _ _ ih last.1 last.2

/-- What every step preserves holds along every run. -/
theorem Reaches.invariant {I : σ → Prop} {step : σ → Option σ} {source target : σ}
    (preserve : ∀ a b, I a → step a = some b → I b)
    (run : Reaches step source target) (start : I source) : I target :=
  ReachesWhile.invariant (fun a b h _ s => preserve a b h s) run.while_true start

/-- `n` steps, where all of them are defined. -/
def steps (step : σ → Option σ) : Nat → σ → Option σ
  | 0, source => some source
  | n + 1, source => (step source).bind (steps step n)

theorem steps_reaches {step : σ → Option σ} {n : Nat} {source target : σ}
    (taken : steps step n source = some target) : Reaches step source target := by
  induction n generalizing source with
  | zero =>
    cases taken
    exact .refl
  | succ n ih =>
    obtain ⟨next, first, rest⟩ := Option.bind_eq_some_iff.mp taken
    exact .head first (ih rest)

/-- A machine whose steps decrease a well-founded measure under an invariant halts, and
the invariant holds where it does. -/
theorem halts_of_decreasing {α : Type*} {lt : α → α → Prop} (wf : WellFounded lt)
    {I : σ → Prop} {step : σ → Option σ} (measure : σ → α)
    (preserve : ∀ a b, I a → step a = some b → I b)
    (decrease : ∀ a b, I a → step a = some b → lt (measure b) (measure a))
    (source : σ) (start : I source) :
    ∃ target, Reaches step source target ∧ I target ∧ step target = none := by
  have main : ∀ m source, measure source = m → I source →
      ∃ target, Reaches step source target ∧ I target ∧ step target = none := by
    intro m
    induction m using wf.induction with
    | h m ih =>
      intro source size start
      cases taken : step source with
      | none => exact ⟨source, .refl, start, taken⟩
      | some next =>
        have smaller := decrease source next start taken
        obtain ⟨target, run, kept, halted⟩ :=
          ih (measure next) (size ▸ smaller) next rfl (preserve source next start taken)
        exact ⟨target, .head taken run, kept, halted⟩
  exact main _ source rfl start

/-- A partial function is deterministic: two halted ends of runs from one state agree. -/
theorem Reaches.halted_unique {step : σ → Option σ} {source first second : σ}
    (left : Reaches step source first) (leftHalted : step first = none)
    (right : Reaches step source second) (rightHalted : step second = none) :
    first = second := by
  induction left using Relation.ReflTransGen.head_induction_on with
  | refl =>
    rcases right.cases_head with equal | ⟨next, taken, _⟩
    · exact equal
    · rw [leftHalted] at taken
      cases taken
  | head taken _ ih =>
    rcases right.cases_head with equal | ⟨next, other, rest⟩
    · subst equal
      rw [rightHalted] at taken
      cases taken
    · rw [taken] at other
      cases other
      exact ih rest

/-- The state where the machine halts, none where the fuel does not reach that far. -/
def untilHalt (step : σ → Option σ) : Nat → σ → Option σ
  | 0, _ => none
  | fuel + 1, source =>
    match step source with
    | none => some source
    | some next => untilHalt step fuel next

theorem untilHalt_reaches {step : σ → Option σ} {fuel : Nat} {source target : σ}
    (halted : untilHalt step fuel source = some target) : Reaches step source target ∧ step target = none := by
  induction fuel generalizing source with
  | zero => cases halted
  | succ fuel ih =>
    rw [untilHalt] at halted
    split at halted
    · rename_i stop
      cases halted
      exact ⟨.refl, stop⟩
    · rename_i next taken
      obtain ⟨run, stop⟩ := ih halted
      exact ⟨.head taken run, stop⟩

theorem Reaches.untilHalt {step : σ → Option σ} {source target : σ} (run : Reaches step source target)
    (stop : step target = none) : ∃ enough, ∀ fuel, enough ≤ fuel → untilHalt step fuel source = some target := by
  induction run using Relation.ReflTransGen.head_induction_on with
  | refl =>
    refine ⟨1, fun fuel le => ?_⟩
    obtain ⟨fuel, rfl⟩ := Nat.exists_eq_add_of_le' le
    rw [Run.untilHalt, stop]
  | head taken _ ih =>
    obtain ⟨enough, ih⟩ := ih
    refine ⟨enough + 1, fun fuel le => ?_⟩
    obtain ⟨fuel, rfl⟩ := Nat.exists_eq_add_of_le' (show 1 ≤ fuel by omega)
    rw [Run.untilHalt, taken]
    exact ih fuel (by omega)

/-! ## Loops -/

/-- A counting loop keeps an invariant that may speak of the counter. -/
theorem foldl_range (P : Nat → σ → Prop) (body : σ → Nat → σ) {n : Nat} {s : σ} (first : P 0 s)
    (step : ∀ i < n, ∀ s, P i s → P (i + 1) (body s i)) : P n ((List.range n).foldl body s) := by
  induction n with
  | zero => exact first
  | succ n ih =>
    rw [List.range_succ, List.foldl_append]
    exact step n (Nat.lt_succ_self n) _ (ih fun i lt => step i (Nat.lt_succ_of_lt lt))

/-- A loop over a list simulates another one over what its elements stand for. -/
theorem foldl_simulates {τ α β : Type*} (R : σ → τ → Prop) (body : σ → α → σ) (body' : τ → β → τ) (f : α → List β)
    {l : List α} {s : σ} {t : τ} (first : R s t)
    (step : ∀ a ∈ l, ∀ s t, R s t → R (body s a) ((f a).foldl body' t)) :
    R (l.foldl body s) ((l.flatMap f).foldl body' t) := by
  induction l generalizing s t with
  | nil => exact first
  | cons a l ih =>
    rw [List.foldl_cons, List.flatMap_cons, List.foldl_append]
    exact ih (step a List.mem_cons_self s t first) fun b mem => step b (List.mem_cons_of_mem a mem)

end M2.Lib.Run
