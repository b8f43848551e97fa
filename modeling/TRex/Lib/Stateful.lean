import Mathlib.Logic.Basic

/-!
# State and failure

Computations with a state that may fail: what a run of a sequence, of a lifted result or of a loop
says about its parts.
-/

namespace Stateful

variable {σ α β γ : Type}

theorem bind_run (m : StateT σ Option α) (f : α → StateT σ Option β) (s : σ) :
    (m >>= f) s = (m s).bind fun x => f x.1 x.2 := rfl

theorem bind_eq_some {m : StateT σ Option α} {f : α → StateT σ Option β} {s : σ} {y : β × σ} :
    (m >>= f) s = some y ↔ ∃ a s', m s = some (a, s') ∧ f a s' = some y := by
  rw [bind_run, Option.bind_eq_some_iff]
  exact Prod.exists

theorem map_run (m : StateT σ Option α) (f : α → β) (s : σ) :
    (do return f (← m)) s = (m s).map fun x => (f x.1, x.2) := by
  have run : (do return f (← m)) s = (m s).bind fun x => some (f x.1, x.2) := rfl
  rw [run, Option.map_eq_bind]
  rfl

theorem get_bind (f : σ → StateT σ Option α) (s : σ) : (get >>= f) s = f s s := rfl

theorem lift_bind (o : Option α) (f : α → StateT σ Option β) (s : σ) :
    ((liftM o : StateT σ Option α) >>= f) s = o.bind fun a => f a s := by
  cases o <;> rfl

theorem lift_bind_eq_some {o : Option α} {f : α → StateT σ Option β} {s : σ} {y : β × σ} :
    ((liftM o : StateT σ Option α) >>= f) s = some y ↔ ∃ a, o = some a ∧ f a s = some y := by
  rw [lift_bind, Option.bind_eq_some_iff]

/-- A relation of the elements and the states around them holds of a loop that does not fail when
it can be extended by a turn in front. -/
theorem forM_induct {f : α → StateT σ Option Unit} {R : σ → List α → σ → Prop}
    (nil : ∀ s, R s [] s)
    (cons : ∀ x xs s mid s', f x s = some ((), mid) → R mid xs s' → R s (x :: xs) s')
    {l : List α} {s s' : σ} (run : l.forM f s = some ((), s')) : R s l s' := by
  induction l generalizing s with
  | nil =>
      have same : s = s' := congrArg Prod.snd (Option.some.inj run)
      exact same ▸ nil s
  | cons x xs ih =>
      have turns : (f x >>= fun _ => xs.forM f) s = some ((), s') := run
      obtain ⟨_, mid, turn, rest⟩ := bind_eq_some.mp turns
      exact cons x xs s mid s' turn (ih rest)

/-! ## The turns of a loop -/

section Turns

variable {f : α → StateT σ Option Unit} {s s' : σ}

theorem forM_split {before after : List α} {x : α}
    (run : (before ++ x :: after).forM f s = some ((), s')) :
    ∃ u v, before.forM f s = some ((), u) ∧ f x u = some ((), v) ∧
      after.forM f v = some ((), s') := by
  rw [List.forM_eq_forM, List.forM_append, List.forM_cons] at run
  obtain ⟨_, u, front, run⟩ := bind_eq_some.mp run
  obtain ⟨_, v, turn, back⟩ := bind_eq_some.mp run
  exact ⟨u, v, front, turn, back⟩

/-- What holds behind a loop and not before it came to hold in one of the turns. -/
theorem forM_origin {P : σ → Prop} {l : List α} (run : l.forM f s = some ((), s'))
    (before : ¬ P s) (behind : P s') :
    ∃ done x rest u v, l = done ++ x :: rest ∧ done.forM f s = some ((), u) ∧
      f x u = some ((), v) ∧ ¬ P u ∧ P v := by
  refine forM_induct (R := fun s l s' => ¬ P s → P s' → ∃ done x rest u v,
    l = done ++ x :: rest ∧ done.forM f s = some ((), u) ∧ f x u = some ((), v) ∧
      ¬ P u ∧ P v) ?_ ?_ run before behind
  · intro s before behind
    exact absurd behind before
  · intro x xs s mid s' turn ih before behind
    by_cases now : P mid
    · exact ⟨[], x, xs, s, mid, rfl, rfl, turn, before, now⟩
    · obtain ⟨done, y, rest, u, v, split, front, later, was, is⟩ := ih now behind
      refine ⟨x :: done, y, rest, u, v, congrArg (x :: ·) split, ?_, later, was, is⟩
      exact bind_eq_some.mpr ⟨(), mid, turn, front⟩

/-- What the turns keep, a loop keeps. -/
theorem forM_keeps {R : σ → σ → Prop} (refl : ∀ s, R s s)
    (trans : ∀ {s mid s'}, R s mid → R mid s' → R s s')
    (keep : ∀ x s s', f x s = some ((), s') → R s s') {l : List α}
    (run : l.forM f s = some ((), s')) : R s s' :=
  forM_induct (R := fun s _ s' => R s s') refl
    (fun x _ s mid _ turn rest => trans (keep x s mid turn) rest) run

end Turns

end Stateful
