import Mathlib.Algebra.Order.Ring.Int
import Mathlib.Tactic.Common

/-!
# Reading at an offset

A reader that keeps the whole input and an offset into it. `read` refuses a range that is not in the
input, `slice` takes what there is of it. `At buf pos rest` says what is at the offset and behind
it; with it a read is one of the rest alone, so that an input can be taken apart from its front. -/

namespace Cursor

variable {α : Type}

/-- The `n` elements at an offset, all of them. -/
def read (buf : List α) (pos : Int) (n : Nat) : Option (List α) :=
  if 0 ≤ pos ∧ pos + n ≤ buf.length then some ((buf.drop pos.toNat).take n) else none

/-- The elements between two offsets, as far as there are any. -/
def slice (buf : List α) (start stop : Int) : List α := (buf.take stop.toNat).drop start.toNat

/-- Where a list of two parts is cut: in the first of them or behind it. -/
theorem cut {part missing first rest : List α} (whole : part ++ missing = first ++ rest) :
    part.length < first.length ∨ ∃ more, part = first ++ more ∧ more ++ missing = rest := by
  rcases Nat.lt_or_ge part.length first.length with short | long
  · exact .inl short
  · have front : first <+: part :=
      List.prefix_of_prefix_length_le ⟨rest, whole.symm⟩ ⟨missing, rfl⟩ long
    obtain ⟨more, rfl⟩ := front
    rw [List.append_assoc] at whole
    exact .inr ⟨more, rfl, List.append_cancel_left whole⟩

/-- The rest of the input at an offset. -/
structure At (buf : List α) (pos : Int) (rest : List α) : Prop where
  nonneg : 0 ≤ pos
  drop : buf.drop pos.toNat = rest

namespace At

variable {buf rest : List α} {pos : Int}

theorem start (buf : List α) : At buf 0 buf := ⟨le_rfl, rfl⟩

theorem skip (here : At buf pos rest) (n : Nat) : At buf (pos + n) (rest.drop n) := by
  have nonneg := here.nonneg
  have moved : (pos + n).toNat = pos.toNat + n := by omega
  exact ⟨by omega, by rw [moved, ← List.drop_drop, here.drop]⟩

/-- Behind a part of known length. -/
theorem next {bytes : List α} (here : At buf pos (bytes ++ rest)) {n : Nat}
    (length : bytes.length = n) : At buf (pos + n) rest := by
  have behind := here.skip n
  rwa [List.drop_left' length] at behind

theorem read {bytes : List α} (here : At buf pos (bytes ++ rest)) {n : Nat}
    (length : bytes.length = n) (positive : 0 < n) : Cursor.read buf pos n = some bytes := by
  have nonneg := here.nonneg
  have size := congrArg List.length here.drop
  rw [List.length_drop, List.length_append] at size
  rw [Cursor.read, if_pos (by omega), here.drop, List.take_left' length]

/-- There is less than is asked for. -/
theorem read_short (here : At buf pos rest) {n : Nat} (short : rest.length < n) :
    Cursor.read buf pos n = none := by
  have nonneg := here.nonneg
  have size := congrArg List.length here.drop
  rw [List.length_drop] at size
  rw [Cursor.read, if_neg (by omega)]

theorem slice (here : At buf pos rest) (n : Nat) :
    Cursor.slice buf pos (pos + n) = rest.take n := by
  have nonneg := here.nonneg
  have moved : (pos + n).toNat = pos.toNat + n := by omega
  rw [Cursor.slice, moved, ← List.take_drop, here.drop]

end At

end Cursor
