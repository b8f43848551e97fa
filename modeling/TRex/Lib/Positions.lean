import Mathlib.Data.List.Basic
import Mathlib.Tactic.Common

/-!
# Entries of a list that satisfy a predicate

A list may hold one value several times, so "the entries that satisfy `p`" are pairs of a value and
the position it is found at. `positions p l` enumerates them in order, `first` and `last` keep the
one with the least or the greatest position.
-/

namespace Positions

variable {α : Type*} {p : α → Bool} {l : List α} {x : α} {j : Nat}

/-- The entries of `l` that satisfy `p`, each with its position. -/
def positions (p : α → Bool) (l : List α) : List (α × Nat) := l.zipIdx.filter fun e => p e.1

theorem mem_positions : (x, j) ∈ positions p l ↔ l[j]? = some x ∧ p x = true := by
  simp [positions, List.mem_zipIdx_iff_getElem?]

theorem map_fst_positions : (positions p l).map Prod.fst = l.filter p := by
  have aux : ∀ n, ((l.zipIdx n).filter fun e => p e.1).map Prod.fst = l.filter p := by
    intro n
    induction l generalizing n with
    | nil => rfl
    | cons a l ih =>
        rw [List.zipIdx_cons, List.filter_cons, List.filter_cons]
        by_cases holds : p a = true
        · simp only [holds, ↓reduceIte, List.map_cons, ih]
        · simp only [holds, ↓reduceIte, Bool.false_eq_true, ih]
  exact aux 0

/-- Positions increase along the enumeration. -/
theorem pairwise_positions : (positions p l).Pairwise fun a b => a.2 < b.2 := by
  apply List.Pairwise.filter
  rw [List.pairwise_iff_getElem]
  intro i j hi hj lt
  simpa using lt

theorem nodup_map_snd {entries : List (α × Nat)} (sub : entries.Sublist (positions p l)) :
    (entries.map Prod.snd).Nodup := by
  have increasing : (entries.map Prod.snd).Pairwise (· < ·) :=
    List.pairwise_map.mpr (pairwise_positions.sublist sub)
  exact increasing.imp Nat.ne_of_lt

/-! ## The first and the last entry -/

def first (p : α → Bool) (l : List α) : List (α × Nat) := (positions p l).take 1

def last (p : α → Bool) (l : List α) : List (α × Nat) := (positions p l).reverse.take 1

/-- In a list ordered by position, the head is the entry no other one precedes. -/
theorem mem_take_one {entries : List (α × Nat)} (ordered : entries.Pairwise fun a b => a.2 < b.2) :
    (x, j) ∈ entries.take 1 ↔ (x, j) ∈ entries ∧ ∀ e ∈ entries, ¬ e.2 < j := by
  cases entries with
  | nil => simp
  | cons e rest =>
      have after := (List.pairwise_cons.mp ordered).1
      rw [List.take_succ_cons, List.take_zero, List.mem_singleton]
      constructor
      · rintro rfl
        refine ⟨List.mem_cons_self, ?_⟩
        intro e mem
        rcases List.mem_cons.mp mem with rfl | mem
        · exact Nat.lt_irrefl _
        · exact Nat.not_lt_of_lt (after e mem)
      · rintro ⟨mem, least⟩
        rcases List.mem_cons.mp mem with rfl | mem
        · rfl
        · exact (least e List.mem_cons_self (after _ mem)).elim

theorem mem_take_one_reverse {entries : List (α × Nat)}
    (ordered : entries.Pairwise fun a b => a.2 < b.2) :
    (x, j) ∈ entries.reverse.take 1 ↔ (x, j) ∈ entries ∧ ∀ e ∈ entries, ¬ j < e.2 := by
  cases reversed : entries.reverse with
  | nil => simp [List.reverse_eq_nil_iff.mp reversed]
  | cons e rest =>
      have before := List.pairwise_reverse.mpr ordered
      rw [reversed] at before
      have after := (List.pairwise_cons.mp before).1
      have same : ∀ e', e' ∈ entries ↔ e' ∈ e :: rest := by
        intro e'
        rw [← reversed, List.mem_reverse]
      simp only [same]
      rw [List.take_succ_cons, List.take_zero, List.mem_singleton]
      constructor
      · rintro rfl
        refine ⟨List.mem_cons_self, ?_⟩
        intro e mem
        rcases List.mem_cons.mp mem with rfl | mem
        · exact Nat.lt_irrefl _
        · exact Nat.not_lt_of_lt (after e mem)
      · rintro ⟨mem, greatest⟩
        rcases List.mem_cons.mp mem with rfl | mem
        · rfl
        · exact (greatest e List.mem_cons_self (after _ mem)).elim

theorem mem_first :
    (x, j) ∈ first p l ↔ (l[j]? = some x ∧ p x = true) ∧
      ∀ j' x', l[j']? = some x' → j' < j → ¬ p x' = true := by
  rw [first, mem_take_one pairwise_positions, mem_positions]
  refine and_congr_right fun _ => ?_
  constructor
  · intro least j' x' lookup lt holds
    exact least (x', j') (mem_positions.mpr ⟨lookup, holds⟩) lt
  · rintro least ⟨x', j'⟩ mem lt
    obtain ⟨lookup, holds⟩ := mem_positions.mp mem
    exact least j' x' lookup lt holds

theorem mem_last :
    (x, j) ∈ last p l ↔ (l[j]? = some x ∧ p x = true) ∧
      ∀ j' x', l[j']? = some x' → j < j' → ¬ p x' = true := by
  rw [last, mem_take_one_reverse pairwise_positions, mem_positions]
  refine and_congr_right fun _ => ?_
  constructor
  · intro greatest j' x' lookup lt holds
    exact greatest (x', j') (mem_positions.mpr ⟨lookup, holds⟩) lt
  · rintro greatest ⟨x', j'⟩ mem lt
    obtain ⟨lookup, holds⟩ := mem_positions.mp mem
    exact greatest j' x' lookup lt holds

theorem map_fst_first : (first p l).map Prod.fst = (l.filter p).take 1 := by
  rw [first, List.map_take, map_fst_positions]

theorem map_fst_last : (last p l).map Prod.fst = (l.filter p).reverse.take 1 := by
  rw [last, List.map_take, List.map_reverse, map_fst_positions]

theorem nodup_map_snd_first : ((first p l).map Prod.snd).Nodup :=
  nodup_map_snd (List.take_sublist 1 _)

theorem nodup_map_snd_last : ((last p l).map Prod.snd).Nodup := by
  have reversed : ((positions p l).reverse.map Prod.snd).Nodup := by
    rw [List.map_reverse, (List.reverse_perm _).nodup_iff]
    exact nodup_map_snd (List.Sublist.refl _)
  exact reversed.sublist ((List.take_sublist 1 _).map _)

end Positions
