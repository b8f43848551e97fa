import Mathlib.Data.List.Basic
import Mathlib.Order.Basic
import Mathlib.Order.Lattice
import Mathlib.Tactic.Common

/-!
# Lists sorted by a key

`SortedBy key l`: the keys of `l` never decrease. Equal keys are allowed, so the list is a history
ordered by time rather than a set. The module relates the three ways a sorted list is cut: at an
index (`take`, `drop`), by a threshold on the key (`filter`), and by inserting at the boundary of a
threshold.
-/

variable {α β : Type*} [LinearOrder β] {key : α → β} {l : List α}

/-- The keys of `l` never decrease. -/
def SortedBy (key : α → β) (l : List α) : Prop :=
  l.Pairwise fun a b => key a ≤ key b

namespace SortedBy

theorem nil : SortedBy key ([] : List α) := List.Pairwise.nil

theorem sublist {l' : List α} (sorted : SortedBy key l) (sub : l'.Sublist l) : SortedBy key l' :=
  List.Pairwise.sublist sub sorted

theorem filter (p : α → Bool) (sorted : SortedBy key l) : SortedBy key (l.filter p) :=
  sorted.sublist List.filter_sublist

theorem drop (k : Nat) (sorted : SortedBy key l) : SortedBy key (l.drop k) :=
  sorted.sublist (List.drop_sublist k l)

theorem append {l' : List α} (sorted : SortedBy key l) (sorted' : SortedBy key l')
    (between : ∀ a ∈ l, ∀ b ∈ l', key a ≤ key b) : SortedBy key (l ++ l') :=
  List.pairwise_append.mpr ⟨sorted, sorted', between⟩

/-- An element that belongs at index `k` may be inserted there. -/
theorem insertAt {k : Nat} {x : α} (sorted : SortedBy key l)
    (before : ∀ a ∈ l.take k, key a ≤ key x) (after : ∀ b ∈ l.drop k, key x ≤ key b) :
    SortedBy key (l.take k ++ x :: l.drop k) := by
  have tail : SortedBy key (x :: l.drop k) := List.pairwise_cons.mpr ⟨after, sorted.drop k⟩
  refine (sorted.sublist (List.take_sublist k l)).append tail ?_
  intro a memA b memB
  rcases List.mem_cons.mp memB with rfl | memB
  · exact before a memA
  · exact (before a memA).trans (after b memB)

theorem le_of_index_le {i j : Nat} (sorted : SortedBy key l) (le : i ≤ j) (lt : j < l.length) :
    key l[i] ≤ key l[j] := by
  rcases Nat.lt_or_eq_of_le le with less | rfl
  · exact List.pairwise_iff_getElem.mp sorted i j (by omega) lt less
  · exact le_rfl

/-- The head of a sorted list has the least key. -/
theorem head_le {a : α} (sorted : SortedBy key l) (head : l[0]? = some a) :
    ∀ b ∈ l, key a ≤ key b := by
  intro b mem
  obtain ⟨j, lt, rfl⟩ := List.getElem_of_mem mem
  obtain ⟨pos, rfl⟩ := List.getElem?_eq_some_iff.mp head
  exact sorted.le_of_index_le (Nat.zero_le j) lt

/-- Everything before an element below the bound is below it. -/
theorem forall_mem_take_le {k : Nat} {m : β} (sorted : SortedBy key l) (lt : k < l.length)
    (below : key l[k] ≤ m) : ∀ a ∈ l.take (k + 1), key a ≤ m := by
  intro a mem
  obtain ⟨i, iLt, rfl⟩ := List.getElem_of_mem mem
  rw [List.length_take] at iLt
  rw [List.getElem_take]
  exact (sorted.le_of_index_le (by omega) lt).trans below

/-- Everything from an element above the bound on is above it. -/
theorem forall_mem_drop_lt {k : Nat} {m : β} (sorted : SortedBy key l) (lt : k < l.length)
    (above : m < key l[k]) : ∀ a ∈ l.drop k, m < key a := by
  intro a mem
  obtain ⟨i, iLt, rfl⟩ := List.getElem_of_mem mem
  rw [List.length_drop] at iLt
  rw [List.getElem_drop]
  exact above.trans_le (sorted.le_of_index_le (by omega) (by omega))

end SortedBy

/-! ## Cutting at the boundary of a predicate -/

namespace List

variable {q : α → Bool} {k : Nat}

theorem take_eq_filter_of_boundary (inside : ∀ a ∈ l.take k, q a = true)
    (outside : ∀ a ∈ l.drop k, q a = false) : l.take k = l.filter q := by
  conv_rhs => rw [← List.take_append_drop k l]
  rw [List.filter_append, List.filter_eq_self.mpr inside,
    List.filter_eq_nil_iff.mpr (fun a mem => by simp [outside a mem]), List.append_nil]

theorem drop_eq_filter_of_boundary (outside : ∀ a ∈ l.take k, q a = false)
    (inside : ∀ a ∈ l.drop k, q a = true) : l.drop k = l.filter q := by
  conv_rhs => rw [← List.take_append_drop k l]
  rw [List.filter_append, List.filter_eq_self.mpr inside,
    List.filter_eq_nil_iff.mpr (fun a mem => by simp [outside a mem]), List.nil_append]

end List
