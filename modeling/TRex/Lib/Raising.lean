import Mathlib.Data.Set.Lattice

/-!
# Steps that raise or log

A step takes a log and either raises an exception or adds to the log. `Serves raises adds f` says
when the step `f` does the one and what it adds in the other case, whatever the log holds. Such
steps compose, and a loop of them raises exactly if one of its turns would. -/

namespace Raising

variable {ε ω α : Type*} {raises raises' : Prop} {adds adds' : Set ω}
  {f g : List ω → Except ε (List ω)}

structure Serves (raises : Prop) (adds : Set ω) (f : List ω → Except ε (List ω)) : Prop where
  fails : raises → ∀ log, ∃ e, f log = .error e
  logs : ¬ raises → ∀ log, ∃ log', f log = .ok log' ∧ ∀ x, x ∈ log' ↔ x ∈ log ∨ x ∈ adds

theorem Serves.congr (serves : Serves raises adds f) (same : raises ↔ raises')
    (sameAdds : adds = adds') : Serves raises' adds' f := by
  subst sameAdds
  exact ⟨fun bad => serves.fails (same.mpr bad), fun good => serves.logs (mt same.mp good)⟩

theorem Serves.pure : Serves False ∅ (fun log : List ω => (.ok log : Except ε (List ω))) :=
  ⟨False.elim, fun _ log => ⟨log, rfl, fun _ => (or_iff_left (Set.notMem_empty _)).symm⟩⟩

theorem Serves.bind (first : Serves raises adds f) (second : Serves raises' adds' g) :
    Serves (raises ∨ raises') (adds ∪ adds') (fun log => f log >>= g) := by
  constructor
  · rintro bad log
    by_cases raised : raises
    · obtain ⟨e, failed⟩ := first.fails raised log
      exact ⟨e, by rw [failed]; rfl⟩
    · obtain ⟨log', ran, -⟩ := first.logs raised log
      obtain ⟨e, failed⟩ := second.fails (bad.resolve_left raised) log'
      exact ⟨e, by rw [ran]; exact failed⟩
  · rintro good log
    obtain ⟨log', ran, members⟩ := first.logs (fun raised => good (.inl raised)) log
    obtain ⟨log'', ran', members'⟩ := second.logs (fun raised => good (.inr raised)) log'
    refine ⟨log'', by rw [ran]; exact ran', fun x => ?_⟩
    rw [members', members, or_assoc]
    rfl

/-- A loop raises if some turn does, and adds what all turns add. -/
theorem Serves.foldlM {raises : α → Prop} {adds : α → Set ω}
    {f : List ω → α → Except ε (List ω)} {xs : List α}
    (step : ∀ x ∈ xs, Serves (raises x) (adds x) (fun log => f log x)) :
    Serves (∃ x ∈ xs, raises x) {y | ∃ x ∈ xs, y ∈ adds x} (fun log => xs.foldlM f log) := by
  induction xs with
  | nil =>
      refine Serves.pure.congr ?_ ?_
      · simp
      · simp
  | cons x rest ih =>
      have here := step x List.mem_cons_self
      have later := ih fun y mem => step y (List.mem_cons_of_mem x mem)
      refine (here.bind later).congr ?_ ?_
      · simp only [List.mem_cons, exists_eq_or_imp]
      · ext y
        simp only [Set.mem_union, Set.mem_ofPred_eq, List.mem_cons, exists_eq_or_imp]

/-! ## The element that a loop stops at -/

/-- Steps that never raise and only add. -/
theorem foldlM_ok {f : List ω → α → Except ε (List ω)} {g : α → List ω} {xs : List α}
    (ok : ∀ x ∈ xs, ∀ log, f log x = .ok (log ++ g x)) (log : List ω) :
    xs.foldlM f log = .ok (log ++ xs.flatMap g) := by
  induction xs generalizing log with
  | nil => simp [pure, Except.pure]
  | cons x rest ih =>
      obtain ⟨here, there⟩ := List.forall_mem_cons.mp ok
      rw [List.foldlM_cons, here]
      refine (ih there _).trans ?_
      rw [List.flatMap_cons, List.append_assoc]

section Stopping

variable {P Q : α → Prop}

theorem not_exists_stop_nil : ¬ ∃ before x after, ([] : List α) = before ++ x :: after ∧
    (∀ b ∈ before, P b) ∧ Q x := by
  rintro ⟨before, x, after, whole, -⟩
  exact absurd whole.symm (List.append_ne_nil_of_right_ne_nil _ (List.cons_ne_nil _ _))

/-- A loop that goes on at elements with `P` stops at the first element, or goes on and stops later.
-/
theorem exists_stop_cons_iff (y : α) (rest : List α) :
    (∃ before x after, y :: rest = before ++ x :: after ∧ (∀ b ∈ before, P b) ∧ Q x) ↔
      Q y ∨ (P y ∧ ∃ before x after, rest = before ++ x :: after ∧ (∀ b ∈ before, P b) ∧ Q x) := by
  constructor
  · rintro ⟨before, x, after, whole, passed, stops⟩
    cases before with
    | nil =>
        cases whole
        exact .inl stops
    | cons b before =>
        cases whole
        rw [List.forall_mem_cons] at passed
        exact .inr ⟨passed.1, before, x, after, rfl, passed.2, stops⟩
  · rintro (stops | ⟨first, before, x, after, whole, passed, stops⟩)
    · exact ⟨[], y, rest, rfl, List.forall_mem_nil _, stops⟩
    · exact ⟨y :: before, x, after, congrArg (y :: ·) whole,
        List.forall_mem_cons.mpr ⟨first, passed⟩, stops⟩

end Stopping

end Raising
