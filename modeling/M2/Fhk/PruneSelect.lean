import M2.Fhk.PruneStart

/-!
# Selection

`prune_select` is a depth-first search: what it selects is closed under the edges it follows, and all of
it is reached from where it starts. The search changes flags of selection only.
-/
namespace M2.Fhk
open M2.Lib

namespace Prune
variable {G : Graph} {P P' : Prune G}

/-- The flags that selection does not change. -/
def core (F : NodeFlags) : NodeFlags := { F with select := false, selected := false, retedge := false }

/-- Selection changes its own flags only, and never takes one back. -/
structure Extends (P P' : Prune G) : Prop where
  core : ∀ i, core (P'.flags i) = core (P.flags i)
  bound : P'.bound = P.bound
  select : ∀ i, (P.flags i).select → (P'.flags i).select
  selected : ∀ i, (P.flags i).selected → (P'.flags i).selected
  retedge : ∀ i, (P.flags i).retedge → (P'.flags i).retedge

theorem Extends.refl : Extends P P := ⟨fun _ => rfl, rfl, fun _ => id, fun _ => id, fun _ => id⟩

theorem Extends.trans {P₁ P₂ : Prune G} (first : Extends P P₁) (second : Extends P₁ P₂) : Extends P P₂ :=
  ⟨fun i => (second.core i).trans (first.core i), second.bound.trans first.bound, fun i => second.select i ∘ first.select i,
    fun i => second.selected i ∘ first.selected i, fun i => second.retedge i ∘ first.retedge i⟩

theorem Extends.skip (extends' : Extends P P') (i : Node G) : (P'.flags i).skip = (P.flags i).skip := by
  have same := congrArg NodeFlags.skip (extends'.core i)
  exact same

theorem Extends.given (extends' : Extends P P') (i : Node G) : (P'.flags i).given = (P.flags i).given := by
  have same := congrArg NodeFlags.given (extends'.core i)
  exact same

theorem setFlags_extends (i : Node G) (f : NodeFlags → NodeFlags) (same : ∀ F, core (f F) = core F)
    (select : ∀ F, F.select → (f F).select) (selected : ∀ F, F.selected → (f F).selected)
    (retedge : ∀ F, F.retedge → (f F).retedge) : Extends P (P.setFlags i f) := by
  refine ⟨fun j => ?_, rfl, fun j => ?_, fun j => ?_, fun j => ?_⟩ <;> simp only [setFlags, Function.update_apply] <;>
    split
  · rename_i here
    rw [here, same]
  · rfl
  · rename_i here
    rw [here]
    exact select _
  · exact id
  · rename_i here
    rw [here]
    exact selected _
  · exact id
  · rename_i here
    rw [here]
    exact retedge _
  · exact id

theorem setSelected_extends (i : Node G) : Extends P (P.setSelected i) :=
  setFlags_extends i _ (fun _ => rfl) (fun _ _ => rfl) (fun _ _ => rfl) fun _ => id

theorem setRetedge_extends (e : Edge G.nv) : Extends P (setRetedge P e) :=
  setFlags_extends _ _ (fun _ => rfl) (fun _ => id) (fun _ => id) fun _ _ => rfl

theorem foldl_extends {α : Type*} {body : Prune G → α → Prune G} (one : ∀ P a, Extends P (body P a)) (l : List α) :
    Extends P (l.foldl body P) := by
  induction l generalizing P with
  | nil => exact .refl
  | cons a l ih => exact (one P a).trans ih

theorem foldlM_extends {α : Type*} {body : Prune G → α → Option (Prune G)}
    (one : ∀ P a P', body P a = some P' → Extends P P') {l : List α} (run : l.foldlM body P = some P') : Extends P P' := by
  induction l generalizing P with
  | nil =>
    cases run
    exact .refl
  | cons a l ih =>
    obtain ⟨P₁, first, rest⟩ := Option.bind_eq_some_iff.mp run
    exact (one P a P₁ first).trans (ih rest)

theorem selectBehind_extends {rec : Prune G → Node G → Option (Prune G)} (one : ∀ P i P', rec P i = some P' → Extends P P')
    {i : Node G} (run : selectBehind rec P i = some P') : Extends P P' := by
  cases i with
  | var x =>
    obtain ⟨⟨P₁, need⟩, scan, rfl⟩ := Option.map_eq_some_iff.mp run
    clear run
    generalize decide (P.bound (.var x, .BLACK) < ⊤) = need₀ at scan
    generalize P.bound (.var x, .BLACK) = beta at scan
    generalize (G.vars x).models = l at scan
    induction l generalizing P need₀ with
    | nil =>
      cases scan
      exact .refl
    | cons e l ih =>
      obtain ⟨⟨P₂, need₂⟩, first, rest⟩ := Option.bind_eq_some_iff.mp scan
      refine Extends.trans ?_ (ih _ rest)
      simp only [selectSource] at first
      split at first
      · obtain ⟨P₃, called, same⟩ := Option.map_eq_some_iff.mp first
        cases same
        exact one _ _ _ called
      · cases first
        exact .refl
  | model m =>
    obtain ⟨P₁, shadows, run⟩ := Option.bind_eq_some_iff.mp run
    obtain ⟨P₂, params, run⟩ := Option.bind_eq_some_iff.mp run
    cases run
    refine ((foldlM_extends (fun P e P' called => ?_) shadows).trans (foldlM_extends (fun P e P' => one P _ P') params)).trans
      (foldl_extends (fun P e => setRetedge_extends e) _)
    unfold selectShadow at called
    simp only at called
    split at called
    · cases called
      exact .refl
    · exact one _ _ _ called

theorem prune_select_extends (fuel : Nat) {i : Node G} (run : prune_select fuel P i = some P') : Extends P P' := by
  induction fuel generalizing P P' i with
  | zero => cases run
  | succ fuel ih =>
    rw [prune_select] at run
    split at run
    · cases run
      exact .refl
    · exact (setSelected_extends i).trans (selectBehind_extends (fun P i P' => ih) run)

/-! ## Termination -/

theorem mem_nodes (i : Node G) : i ∈ nodes G := by
  cases i with
  | model m => simp [nodes]
  | var x => simp [nodes]

/-- The nodes that are not selected. -/
def unselected (P : Prune G) : Nat := (nodes G).countP fun i => ¬ (P.flags i).selected

theorem Extends.unselected_le (extends' : Extends P P') : P'.unselected ≤ P.unselected := by
  apply List.countP_mono_left
  intro i _ fresh
  simp only [Bool.not_eq_true, decide_eq_true_eq] at fresh ⊢
  by_contra old
  rw [Bool.not_eq_false] at old
  rw [extends'.selected i old] at fresh
  cases fresh

theorem countP_lt {α : Type*} {p q : α → Bool} {l : List α} (less : ∀ a ∈ l, q a → p a) {a : α} (mem : a ∈ l) (here : p a)
    (gone : ¬ q a) : l.countP q < l.countP p := by
  induction l with
  | nil => cases mem
  | cons b l ih =>
    have rest := List.countP_mono_left (p := q) (q := p) (l := l) fun c mem => less c (List.mem_cons_of_mem b mem)
    rcases List.mem_cons.mp mem with rfl | tail
    · rw [List.countP_cons_of_pos here, List.countP_cons_of_neg gone]
      omega
    · have more := ih (fun c mem => less c (List.mem_cons_of_mem b mem)) tail
      have head := less b List.mem_cons_self
      rw [List.countP_cons, List.countP_cons]
      split <;> split <;> first | omega | (rename_i yes no; exact absurd (head yes) no)

theorem setSelected_unselected {i : Node G} (fresh : (P.flags i).selected = false) :
    (P.setSelected i).unselected < P.unselected := by
  refine countP_lt (fun j _ new => ?_) (mem_nodes i) (by simpa using fresh) ?_
  · simp only [setSelected, setFlags, Function.update_apply] at new
    split at new
    · simp at new
    · exact new
  · simp [setSelected, setFlags]

/-- A loop whose turns all return. -/
theorem foldlM_returns {α σ : Type*} {f : σ → α → Option σ} {I : σ → Prop} (one : ∀ s a, I s → ∃ s', f s a = some s' ∧ I s')
    (l : List α) {s : σ} (first : I s) : ∃ s', l.foldlM f s = some s' ∧ I s' := by
  induction l generalizing s with
  | nil => exact ⟨s, rfl, first⟩
  | cons a l ih =>
    obtain ⟨s₁, here, kept⟩ := one s a first
    obtain ⟨s', rest, last⟩ := ih kept
    exact ⟨s', by rw [List.foldlM_cons, here]; exact rest, last⟩

/-- The search returns where its depth may reach the number of nodes that are not selected. -/
theorem prune_select_returns (fuel : Nat) (P : Prune G) (i : Node G) (enough : P.unselected < fuel) :
    ∃ P', prune_select fuel P i = some P' := by
  induction fuel generalizing P i with
  | zero => omega
  | succ fuel ih =>
    rw [prune_select]
    split
    · exact ⟨P, rfl⟩
    rename_i fresh
    have less := setSelected_unselected (P := P) (i := i) (by simpa using fresh)
    have start : (P.setSelected i).unselected < fuel := by omega
    generalize P.setSelected i = P₀ at start
    have call (Q : Prune G) (j : Node G) (small : Q.unselected < fuel) :
        ∃ Q', prune_select fuel Q j = some Q' ∧ Q'.unselected < fuel := by
      obtain ⟨Q', run⟩ := ih Q j small
      have le := (prune_select_extends fuel run).unselected_le
      exact ⟨Q', run, by omega⟩
    cases i with
    | var x =>
      obtain ⟨⟨P', need⟩, run, -⟩ := foldlM_returns (I := fun st : Prune G × Bool => st.1.unselected < fuel)
        (f := selectSource (prune_select fuel) (P₀.bound (.var x, .BLACK))) (fun ⟨Q, need⟩ e small => by
          unfold selectSource
          simp only
          split
          · obtain ⟨Q', run, small'⟩ := call Q (.model e.idx) small
            exact ⟨_, by rw [run]; rfl, small'⟩
          · exact ⟨_, rfl, small⟩) (G.vars x).models (s := (P₀, decide (P₀.bound (.var x, .BLACK) < ⊤))) start
      exact ⟨P', by rw [selectBehind, run]; rfl⟩
    | model m =>
      obtain ⟨P₁, shadows, small₁⟩ := foldlM_returns (I := fun Q : Prune G => Q.unselected < fuel)
        (f := selectShadow (prune_select fuel)) (fun Q e small => by
          unfold selectShadow
          simp only
          split
          · exact ⟨Q, rfl, small⟩
          · exact call Q _ small) (G.models m).shadows start
      obtain ⟨P₂, params, -⟩ := foldlM_returns (I := fun Q : Prune G => Q.unselected < fuel)
        (f := fun Q e => prune_select fuel Q (.var e.idx)) (fun Q e small => call Q _ small) (G.models m).params small₁
      refine ⟨(G.models m).returns.foldl setRetedge P₂, ?_⟩
      rw [selectBehind, shadows]
      simp only [Option.bind_eq_bind, Option.bind_some, params]

end Prune
end M2.Fhk
