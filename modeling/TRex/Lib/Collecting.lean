import Mathlib.Data.List.Forall2
import Mathlib.Data.List.GetD
import Mathlib.Logic.Function.Basic

/-!
# Entries in the order of a counter

Workers that have found something take the next number of a shared counter and, as long as there is
room, change the entry with that number in a shared buffer. Whatever the order of the workers, the
counter ends at the number of those that found something, and if there is room for all of them, each
has an entry of its own.
-/

namespace Collecting

variable {α β γ : Type*} (capacity : Nat) (entry : α → β → β)

/-- One worker, with the buffer and the counter. -/
def put (s : (Nat → β) × Nat) (a : α) : (Nat → β) × Nat :=
  if s.2 ≥ capacity then (s.1, s.2 + 1)
  else (Function.update s.1 s.2 (entry a (s.1 s.2)), s.2 + 1)

variable {capacity entry} {s : (Nat → β) × Nat} {xs : List α}

@[simp] theorem put_snd (a : α) : (put capacity entry s a).2 = s.2 + 1 := by
  unfold put
  split <;> rfl

theorem put_of_ne (a : α) {i : Nat} (ne : i ≠ s.2) : (put capacity entry s a).1 i = s.1 i := by
  unfold put
  split
  · rfl
  · exact Function.update_of_ne ne ..

theorem put_self (a : α) (room : s.2 < capacity) :
    (put capacity entry s a).1 s.2 = entry a (s.1 s.2) := by
  unfold put
  rw [if_neg (Nat.not_le.mpr room)]
  exact Function.update_self ..

theorem foldl_put_snd : (xs.foldl (put capacity entry) s).2 = s.2 + xs.length := by
  induction xs generalizing s with
  | nil => rfl
  | cons a rest ih =>
      rw [List.foldl_cons, ih, put_snd, List.length_cons]
      omega

/-- Entries below the counter stay as they are. -/
theorem foldl_put_of_lt {i : Nat} (lt : i < s.2) :
    (xs.foldl (put capacity entry) s).1 i = s.1 i := by
  induction xs generalizing s with
  | nil => rfl
  | cons a rest ih =>
      rw [List.foldl_cons, ih (by rw [put_snd]; omega), put_of_ne a (Nat.ne_of_lt lt)]

theorem foldl_put_getElem {i : Nat} (lt : i < xs.length) (room : s.2 + i < capacity) :
    (xs.foldl (put capacity entry) s).1 (s.2 + i) = entry xs[i] (s.1 (s.2 + i)) := by
  induction xs generalizing s i with
  | nil => cases lt
  | cons a rest ih =>
      rw [List.foldl_cons]
      cases i with
      | zero =>
          rw [Nat.add_zero, foldl_put_of_lt (by rw [put_snd]; exact Nat.lt_succ_self _)]
          exact put_self a room
      | succ i =>
          have next := @ih (put capacity entry s a) i (Nat.lt_of_succ_lt_succ lt)
            (by rw [put_snd]; omega)
          rw [put_snd, Nat.add_assoc, Nat.add_comm 1 i] at next
          rw [next, put_of_ne a (by omega)]
          rfl

/-- If there is room for all, the entries are those of the workers, one for each. -/
theorem forall₂_foldl_put {r : β → γ → Prop} {results : List γ}
    (made : List.Forall₂ (fun a c => ∀ b, r (entry a b) c) xs results)
    (room : xs.length ≤ capacity) (buffer : Nat → β) :
    List.Forall₂ (fun i c => r ((xs.foldl (put capacity entry) (buffer, 0)).1 i) c)
      (List.range xs.length) results := by
  refine List.forall₂_iff_get.mpr ⟨by rw [List.length_range, made.length_eq], fun i lt lt' => ?_⟩
  rw [List.length_range] at lt
  have inside : (buffer, 0).2 + i < capacity := by
    simp only [Nat.zero_add]
    omega
  have there := @foldl_put_getElem α β capacity entry (buffer, 0) xs i lt inside
  rw [Nat.zero_add] at there
  simp only [List.get_eq_getElem, List.getElem_range, there]
  exact made.get lt lt' _

end Collecting
