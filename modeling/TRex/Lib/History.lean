import Mathlib.Tactic.Common

/-!
# Histories of a partial transition function

A system takes calls one after the other; a call may end the history, and only allowed calls are
made. `Always` says that a property holds of every state of a history, `AtEachCall` that a condition
holds of every call in the state that it meets. `always_iff` is the rule that reduces the one to the
other: an invariant of the system, and one call that keeps the property exactly under the condition.
-/

namespace Histories

variable {S C : Type*} (step : S → C → Option S) (allowed : S → C → Prop)

/-- The property holds before and after every call. -/
def Always (P : S → Prop) : S → List C → Prop
  | s, [] => P s
  | s, c :: rest => P s ∧ (allowed s c → ∀ s', step s c = some s' → Always P s' rest)

/-- The condition holds of every call that is made and returns. -/
def AtEachCall (Q : S → C → Prop) : S → List C → Prop
  | _, [] => True
  | s, c :: rest => allowed s c → ∀ s', step s c = some s' → Q s c ∧ AtEachCall Q s' rest

variable {step allowed} {P inv : S → Prop} {Q : S → C → Prop}

theorem Always.here {s : S} {cs : List C} (always : Always step allowed P s cs) : P s := by
  cases cs with
  | nil => exact always
  | cons c rest => exact always.1

/-- The state at the end of a history of allowed calls. -/
def run (step : S → C → Option S) (allowed : S → C → Prop) [∀ s c, Decidable (allowed s c)] :
    S → List C → Option S
  | s, [] => some s
  | s, c :: rest =>
    if allowed s c then (step s c).bind fun s' => run step allowed s' rest else none

theorem Always.of_run [∀ s c, Decidable (allowed s c)] {s s' : S} {cs : List C}
    (always : Always step allowed P s cs) (ran : run step allowed s cs = some s') : P s' := by
  induction cs generalizing s with
  | nil =>
      cases ran
      exact always
  | cons c rest ih =>
      rw [run] at ran
      split at ran
      case isTrue ok =>
        obtain ⟨next, stepped, ranOn⟩ := Option.bind_eq_some_iff.mp ran
        exact ih (always.2 ok next stepped) ranOn
      case isFalse _ => cases ran

theorem always_iff
    (keepsInv : ∀ s c s', inv s → allowed s c → step s c = some s' → inv s')
    (keeps : ∀ s c s', inv s → P s → allowed s c → step s c = some s' → (P s' ↔ Q s c))
    {s : S} (init : inv s) (holds : P s) (cs : List C) :
    Always step allowed P s cs ↔ AtEachCall step allowed Q s cs := by
  induction cs generalizing s with
  | nil => exact iff_of_true holds trivial
  | cons c rest ih =>
      constructor
      · rintro ⟨-, later⟩ ok s' next
        have always := later ok s' next
        have holds' := always.here
        exact ⟨(keeps s c s' init holds ok next).mp holds',
          (ih (keepsInv s c s' init ok next) holds').mp always⟩
      · intro each
        refine ⟨holds, fun ok s' next => ?_⟩
        obtain ⟨here, later⟩ := each ok s' next
        have holds' := (keeps s c s' init holds ok next).mpr here
        exact (ih (keepsInv s c s' init ok next) holds').mpr later

/-- An invariant of the state and the calls to come turns one condition on calls into another. -/
theorem AtEachCall.imp {R : S → C → Prop} (inv : S → List C → Prop)
    (keeps : ∀ s c rest s', inv s (c :: rest) → Q s c → allowed s c → step s c = some s' →
      R s c ∧ inv s' rest)
    {s : S} {cs : List C} (init : inv s cs) (each : AtEachCall step allowed Q s cs) :
    AtEachCall step allowed R s cs := by
  induction cs generalizing s with
  | nil => trivial
  | cons c rest ih =>
      intro ok s' next
      obtain ⟨here, later⟩ := each ok s' next
      obtain ⟨holds, init'⟩ := keeps s c rest s' init here ok next
      exact ⟨holds, ih init' later⟩

/-- Where calls always return, it reaches the end of the history. -/
theorem AtEachCall.foldl {f : S → C → S} (inv : S → List C → Prop)
    (keeps : ∀ s c rest, inv s (c :: rest) → Q s c → inv (f s c) rest)
    {s : S} {cs : List C} (init : inv s cs)
    (each : AtEachCall (fun s c => some (f s c)) (fun _ _ => True) Q s cs) :
    inv (cs.foldl f s) [] := by
  induction cs generalizing s with
  | nil => exact init
  | cons c rest ih =>
      obtain ⟨here, later⟩ := each trivial (f s c) rfl
      exact ih (keeps s c rest init here) later

end Histories
