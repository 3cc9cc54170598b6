import Mathlib.Data.Finset.Card
import Mathlib.Data.List.Nodup
import Mathlib.Logic.Relation
import Mathlib.Tactic.Common

/-!
# Depth first walks

A walk enters a node it has not seen, which may change a state and may fail, and goes on to each of the node's
children in order. With fuel beyond the number of nodes it has not seen, it fails only where an entering does.
What it leaves is what entering the reachable nodes leaves, once each and in some order.
-/
namespace M2.Lib.Dfs

universe u

/-- Why a walk has no result: its fuel is used up, or it met an error. -/
inductive Stop (ε : Type u)
  | fuel
  | error (e : ε)

section Walk

variable {ν σ ε : Type u}

/-- `enter` gives the state after it and the node's children. -/
def walk [DecidableEq ν] (enter : ν → σ → Except (Stop ε) (σ × List ν)) : Nat → ν → σ × List ν → Except (Stop ε) (σ × List ν)
  | 0, _, _ => .error .fuel
  | fuel + 1, v, (w, seen) =>
    if v ∈ seen then .ok (w, seen)
    else do
      let (w, children) ← enter v w
      children.foldlM (fun s e => walk enter fuel e s) (w, v :: seen)

/-- The nodes are entered in order. -/
def visits (enter : ν → σ → Except (Stop ε) (σ × List ν)) (order : List ν) (w : σ) : Except (Stop ε) σ :=
  order.foldlM (fun w v => Prod.fst <$> enter v w) w

theorem visits_append {enter : ν → σ → Except (Stop ε) (σ × List ν)} {first second : List ν} {w w' w'' : σ}
    (one : visits enter first w = .ok w') (two : visits enter second w' = .ok w'') :
    visits enter (first ++ second) w = .ok w'' := by
  rw [visits, List.foldlM_append]
  change (visits enter first w >>= _) = _
  rw [one]
  exact two

theorem visits_cons {enter : ν → σ → Except (Stop ε) (σ × List ν)} {v : ν} {order : List ν} {w w' : σ}
    (run : visits enter (v :: order) w = .ok w') :
    ∃ w₁ children, enter v w = .ok (w₁, children) ∧ visits enter order w₁ = .ok w' := by
  rw [visits, List.foldlM_cons] at run
  cases entered : enter v w with
  | error e =>
    rw [entered] at run
    cases run
  | ok r =>
    rw [entered] at run
    exact ⟨r.1, r.2, rfl, run⟩

/-- `b` is reached from `a` through children. -/
abbrev Reach (next : ν → List ν) : ν → ν → Prop := Relation.ReflTransGen fun a b => b ∈ next a

/-- What walks from `roots` leave: the nodes in the order in which they were entered. -/
structure Walked (enter : ν → σ → Except (Stop ε) (σ × List ν)) (next : ν → List ν) (roots : List ν)
    (s s' : σ × List ν) (order : List ν) : Prop where
  seen : s'.2 = order.reverse ++ s.2
  nodup : order.Nodup
  unseen : ∀ x ∈ order, x ∉ s.2
  reach : ∀ x ∈ order, ∃ r ∈ roots, Reach next r x
  roots : ∀ r ∈ roots, r ∈ s'.2
  closed : ∀ x ∈ order, ∀ y ∈ next x, y ∈ s'.2
  run : visits enter order s.1 = .ok s'.1

variable {enter : ν → σ → Except (Stop ε) (σ × List ν)} {next : ν → List ν} {s s' s'' : σ × List ν} {order : List ν}

theorem Walked.mono {roots : List ν} (h : Walked enter next roots s s' order) : s.2 ⊆ s'.2 := by
  rw [h.seen]
  exact List.subset_append_right _ _

theorem Walked.nil (s : σ × List ν) : Walked enter next [] s s [] where
  seen := rfl
  nodup := List.nodup_nil
  unseen _ mem := absurd mem List.not_mem_nil
  reach _ mem := absurd mem List.not_mem_nil
  roots _ mem := absurd mem List.not_mem_nil
  closed _ mem := absurd mem List.not_mem_nil
  run := rfl

/-- A node that is seen already is left alone. -/
theorem Walked.known {v : ν} (known : v ∈ s.2) : Walked enter next [v] s s [] where
  seen := rfl
  nodup := List.nodup_nil
  unseen _ mem := absurd mem List.not_mem_nil
  reach _ mem := absurd mem List.not_mem_nil
  roots _ mem := List.mem_singleton.mp mem ▸ known
  closed _ mem := absurd mem List.not_mem_nil
  run := rfl

/-- Two walks, one after the other. -/
theorem Walked.append {first second : List ν} {order₁ order₂ : List ν} (one : Walked enter next first s s' order₁)
    (two : Walked enter next second s' s'' order₂) :
    Walked enter next (first ++ second) s s'' (order₁ ++ order₂) where
  seen := by rw [two.seen, one.seen, List.reverse_append, List.append_assoc]
  nodup := by
    apply List.nodup_append.mpr
    refine ⟨one.nodup, two.nodup, fun x mem₁ y mem₂ => ?_⟩
    rintro rfl
    apply two.unseen x mem₂
    rw [one.seen]
    exact List.mem_append_left _ (List.mem_reverse.mpr mem₁)
  unseen x mem := by
    rcases List.mem_append.mp mem with mem | mem
    · exact one.unseen x mem
    · exact fun known => two.unseen x mem (one.mono known)
  reach x mem := by
    rcases List.mem_append.mp mem with mem | mem
    · obtain ⟨r, root, reach⟩ := one.reach x mem
      exact ⟨r, List.mem_append_left _ root, reach⟩
    · obtain ⟨r, root, reach⟩ := two.reach x mem
      exact ⟨r, List.mem_append_right _ root, reach⟩
  roots r mem := by
    rcases List.mem_append.mp mem with mem | mem
    · exact two.mono (one.roots r mem)
    · exact two.roots r mem
  closed x mem y child := by
    rcases List.mem_append.mp mem with mem | mem
    · exact two.mono (one.closed x mem y child)
    · exact two.closed x mem y child
  run := visits_append one.run two.run

/-- A node is entered and its children are walked. -/
theorem Walked.entered {v : ν} {w : σ} {seen : List ν} {w₁ : σ} (unseen : v ∉ seen)
    (entered : enter v w = .ok (w₁, next v)) (children : Walked enter next (next v) (w₁, v :: seen) s' order) :
    Walked enter next [v] (w, seen) s' (v :: order) where
  seen := by rw [children.seen, List.reverse_cons, List.append_assoc, List.singleton_append]
  nodup := List.nodup_cons.mpr ⟨fun mem => children.unseen v mem List.mem_cons_self, children.nodup⟩
  unseen x mem := by
    rcases List.mem_cons.mp mem with rfl | mem
    · exact unseen
    · exact fun known => children.unseen x mem (List.mem_cons_of_mem _ known)
  reach x mem := by
    refine ⟨v, List.mem_singleton.mpr rfl, ?_⟩
    rcases List.mem_cons.mp mem with rfl | mem
    · exact .refl
    · obtain ⟨r, child, reach⟩ := children.reach x mem
      exact .head child reach
  roots r mem := by
    rw [List.mem_singleton.mp mem]
    exact children.mono List.mem_cons_self
  closed x mem y child := by
    rcases List.mem_cons.mp mem with rfl | mem
    · exact children.roots y child
    · exact children.closed x mem y child
  run := by
    rw [visits, List.foldlM_cons, entered]
    exact children.run

/-- A walk from one root that saw nothing before enters what is reachable. -/
theorem Walked.mem_iff {v : ν} {w w' : σ} {seen : List ν} (h : Walked enter next [v] (w, []) (w', seen) order) (x : ν) :
    x ∈ order ↔ Reach next v x := by
  have all : ∀ x, x ∈ seen ↔ x ∈ order := by
    intro x
    rw [show seen = order.reverse ++ [] from h.seen, List.append_nil, List.mem_reverse]
  constructor
  · intro mem
    obtain ⟨r, root, reach⟩ := h.reach x mem
    rwa [List.mem_singleton.mp root] at reach
  · intro reach
    induction reach with
    | refl => exact (all v).mp (h.roots v (List.mem_singleton.mpr rfl))
    | tail _ child ih => exact (all _).mp (h.closed _ ih _ child)

/-! Below, `I` is a property of the state that entering keeps and that fixes the children. -/

variable [DecidableEq ν] {I : σ → Prop}
  (keep : ∀ v w w' children, I w → enter v w = .ok (w', children) → I w' ∧ children = next v)

include keep

/-- What a walk leaves. -/
theorem walk_walked {fuel : Nat} {v : ν} (start : I s.1) (done : walk enter fuel v s = .ok s') :
    I s'.1 ∧ ∃ order, Walked enter next [v] s s' order := by
  induction fuel generalizing v s s' with
  | zero => cases done
  | succ fuel ih =>
    obtain ⟨w, seen⟩ := s
    rw [walk] at done
    by_cases known : v ∈ seen
    · rw [if_pos known] at done
      cases done
      exact ⟨start, [], .known known⟩
    · rw [if_neg known] at done
      cases entered : enter v w with
      | error e =>
        rw [entered] at done
        cases done
      | ok r =>
        obtain ⟨w₁, children⟩ := r
        obtain ⟨start₁, rfl⟩ := keep v w w₁ children start entered
        rw [entered] at done
        have loop : ∀ (l : List ν) (s s' : σ × List ν), I s.1 →
            l.foldlM (fun s e => walk enter fuel e s) s = .ok s' → I s'.1 ∧ ∃ order, Walked enter next l s s' order := by
          intro l
          induction l with
          | nil =>
            intro s s' start done
            cases done
            exact ⟨start, [], .nil s⟩
          | cons e l rest =>
            intro s s' start done
            rw [List.foldlM_cons] at done
            cases first : walk enter fuel e s with
            | error stop =>
              rw [first] at done
              cases done
            | ok t =>
              rw [first] at done
              obtain ⟨start', order₁, walked₁⟩ := ih start first
              obtain ⟨finish, order₂, walked₂⟩ := rest t s' start' done
              exact ⟨finish, _, walked₁.append walked₂⟩
        obtain ⟨finish, order, walked⟩ := loop _ _ _ start₁ done
        exact ⟨finish, _, walked.entered known entered⟩

/-- With enough fuel, a walk that has no result met a reachable node that cannot be entered. -/
theorem walk_ends {fuel : Nat} {v : ν} (start : I s.1) {U : Finset ν} (inside : ∀ x ∈ U, ∀ y ∈ next x, y ∈ U)
    (mem : v ∈ U) (enough : (U.filter (· ∉ s.2)).card < fuel) :
    (∃ s', walk enter fuel v s = .ok s') ∨
      ∃ x w stop, Reach next v x ∧ I w ∧ enter x w = .error stop ∧ walk enter fuel v s = .error stop := by
  induction fuel generalizing v s with
  | zero => exact absurd enough (Nat.not_lt_zero _)
  | succ fuel ih =>
    obtain ⟨w, seen⟩ := s
    rw [walk]
    by_cases known : v ∈ seen
    · rw [if_pos known]
      exact .inl ⟨_, rfl⟩
    · rw [if_neg known]
      have enough : (U.filter (· ∉ seen)).card < fuel + 1 := enough
      cases entered : enter v w with
      | error stop => exact .inr ⟨v, w, stop, .refl, start, entered, rfl⟩
      | ok r =>
        obtain ⟨w₁, children⟩ := r
        obtain ⟨start₁, rfl⟩ := keep v w w₁ children start entered
        have loop : ∀ (l : List ν) (s : σ × List ν), (∀ e ∈ l, e ∈ next v) → I s.1 → v :: seen ⊆ s.2 →
            (∃ s', l.foldlM (fun s e => walk enter fuel e s) s = .ok s') ∨
              ∃ x w stop, Reach next v x ∧ I w ∧ enter x w = .error stop ∧
                l.foldlM (fun s e => walk enter fuel e s) s = .error stop := by
          intro l
          induction l with
          | nil => exact fun s _ _ _ => .inl ⟨s, rfl⟩
          | cons e l rest =>
            intro s child start more
            have fewer : U.filter (· ∉ s.2) ⊂ U.filter (· ∉ seen) := by
              apply Finset.ssubset_iff_subset_ne.mpr
              constructor
              · intro x out
                rw [Finset.mem_filter] at out ⊢
                exact ⟨out.1, fun known => out.2 (more (List.mem_cons_of_mem _ known))⟩
              · intro same
                have mem : v ∈ U.filter (· ∉ seen) := Finset.mem_filter.mpr ⟨mem, known⟩
                rw [← same] at mem
                exact (Finset.mem_filter.mp mem).2 (more List.mem_cons_self)
            have enough' : (U.filter (· ∉ s.2)).card < fuel := by
              have := Finset.card_lt_card fewer
              omega
            have head := child e List.mem_cons_self
            rcases ih start (inside v mem e head) enough' with ⟨t, first⟩ | ⟨x, w, stop, reach, inv, fails, first⟩
            · obtain ⟨start', order, walked⟩ := walk_walked keep start first
              rw [List.foldlM_cons, first]
              apply rest t (fun e mem => child e (List.mem_cons_of_mem _ mem)) start'
              exact fun x mem => walked.mono (more mem)
            · refine .inr ⟨x, w, stop, .head head reach, inv, fails, ?_⟩
              rw [List.foldlM_cons, first]
              rfl
        exact loop (next v) _ (fun _ mem => mem) start₁ (fun _ mem => mem)

end Walk

end M2.Lib.Dfs
