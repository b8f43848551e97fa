import Mathlib.Data.Set.Insert
import Mathlib.Logic.Function.Basic
import Mathlib.Order.MinMax
import Mathlib.Tactic.Common

/-!
# Electing the best by shared maxima

Workers in groups look for the one of the greatest value. Each raises the maximum of its group and
gives up if that is above its own value. Otherwise it raises the maximum of all, and if that is its
own value now, it takes the prize from whoever has it. In whatever order the workers come, one of
the greatest value has the prize in the end (`winner_foldl_offer`), as long as the maxima start at
values that no worker is below.
-/

namespace Contest

structure State (ι γ α : Type*) where
  best : γ → α
  overall : α
  winner : Option ι

variable {ι γ α : Type*} [LinearOrder α] [DecidableEq γ] (value : ι → α) (group : ι → γ)

def offer (s : State ι γ α) (i : ι) : State ι γ α :=
  let best := Function.update s.best (group i) (max (s.best (group i)) (value i))
  if value i < best (group i) then { s with best }
  else
    let overall := max s.overall (value i)
    if overall = value i then { best, overall, winner := some i } else { s with best, overall }

/-- Groups are behind the maximum of all or behind every worker; the prize is with one of the
greatest among those who have come. -/
structure Inv (workers came : Set ι) (s : State ι γ α) : Prop where
  best_le : ∀ g, s.best g ≤ s.overall ∨ ∀ i ∈ workers, s.best g ≤ value i
  winner : (s.winner = none ∧ came = ∅ ∧ ∀ i ∈ workers, s.overall ≤ value i) ∨
    ∃ i ∈ came, s.winner = some i ∧ value i = s.overall ∧ ∀ j ∈ came, value j ≤ value i

variable {value} {workers came : Set ι} {s : State ι γ α}

omit [DecidableEq γ] in
/-- A worker below the maximum of all changes nothing but maxima. -/
theorem Inv.behind (inv : Inv value workers came s) {i : ι} (mem : i ∈ workers)
    (less : value i < s.overall) :
    ∃ j ∈ insert i came, s.winner = some j ∧ value j = s.overall ∧
      ∀ k ∈ insert i came, value k ≤ value j := by
  rcases inv.winner with ⟨_, _, low⟩ | ⟨j, came', won, top, greatest⟩
  · exact absurd (low i mem) (not_le.mpr less)
  · refine ⟨j, Set.mem_insert_of_mem _ came', won, top, fun k memK => ?_⟩
    rcases Set.mem_insert_iff.mp memK with rfl | earlier
    · exact top ▸ less.le
    · exact greatest k earlier

theorem Inv.offer (inv : Inv value workers came s) {i : ι} (mem : i ∈ workers) :
    Inv value workers (insert i came) (offer value group s i) := by
  unfold Contest.offer
  simp only [Function.update_self]
  split
  case isTrue gaveUp =>
    have ahead : value i < s.best (group i) := by
      rcases lt_max_iff.mp gaveUp with more | same
      · exact more
      · exact absurd same (lt_irrefl _)
    have less : value i < s.overall := by
      rcases inv.best_le (group i) with le | low
      · exact lt_of_lt_of_le ahead le
      · exact absurd (low i mem) (not_le.mpr ahead)
    refine ⟨fun g => ?_, .inr (inv.behind mem less)⟩
    rcases eq_or_ne g (group i) with rfl | other
    · simp only [Function.update_self, max_eq_left ahead.le]
      exact inv.best_le _
    · simp only [Function.update_of_ne other]
      exact inv.best_le g
  case isFalse stays =>
    have own : max (s.best (group i)) (value i) = value i :=
      le_antisymm (not_lt.mp stays) (le_max_right _ _)
    have best_le : ∀ g, Function.update s.best (group i) (max (s.best (group i)) (value i)) g ≤
        max s.overall (value i) ∨ ∀ j ∈ workers,
          Function.update s.best (group i) (max (s.best (group i)) (value i)) g ≤ value j := by
      intro g
      rcases eq_or_ne g (group i) with rfl | other
      · rw [Function.update_self, own]
        exact .inl (le_max_right _ _)
      · rw [Function.update_of_ne other]
        exact (inv.best_le g).imp_left fun le => le.trans (le_max_left _ _)
    split
    case isTrue wins =>
      refine ⟨best_le, .inr ⟨i, Set.mem_insert _ _, rfl, wins.symm, fun k memK => ?_⟩⟩
      rcases Set.mem_insert_iff.mp memK with rfl | earlier
      · exact le_refl _
      · rcases inv.winner with ⟨_, empty, _⟩ | ⟨j, _, _, top, greatest⟩
        · rw [empty] at earlier
          exact absurd earlier (Set.notMem_empty k)
        · exact (greatest k earlier).trans (top ▸ wins ▸ le_max_left _ _)
    case isFalse loses =>
      have less : value i < s.overall := lt_of_not_ge fun le => loses (max_eq_right le)
      refine ⟨best_le, .inr ?_⟩
      rw [max_eq_left less.le]
      exact inv.behind mem less

theorem Inv.foldl_offer (inv : Inv value workers came s) {l : List ι} (sub : ∀ i ∈ l, i ∈ workers) :
    Inv value workers (came ∪ {i | i ∈ l}) (l.foldl (Contest.offer value group) s) := by
  induction l generalizing came s with
  | nil => simpa using inv
  | cons i rest ih =>
    have here := inv.offer group (sub i List.mem_cons_self)
    have after := ih here fun j mem => sub j (List.mem_cons_of_mem i mem)
    have all : insert i came ∪ {j | j ∈ rest} = came ∪ {j | j ∈ i :: rest} := by
      ext j
      simp only [Set.mem_union, Set.mem_insert_iff, Set.mem_ofPred_eq, List.mem_cons]
      tauto
    rwa [all] at after

/-- Without workers nobody has the prize; otherwise one of the greatest value has it. -/
theorem winner_foldl_offer {l : List ι} (best : γ → α) (overall : α)
    (best_le : ∀ g, ∀ i ∈ l, best g ≤ value i) (overall_le : ∀ i ∈ l, overall ≤ value i) :
    (l = [] ∧ (l.foldl (offer value group) ⟨best, overall, none⟩).winner = none) ∨
      ∃ i ∈ l, (l.foldl (offer value group) ⟨best, overall, none⟩).winner = some i ∧
        ∀ j ∈ l, value j ≤ value i := by
  have start : Inv value {i | i ∈ l} ∅ (⟨best, overall, none⟩ : State ι γ α) :=
    ⟨fun g => .inr (best_le g), .inl ⟨rfl, rfl, overall_le⟩⟩
  have after : Inv value {i | i ∈ l} (∅ ∪ {i | i ∈ l})
      (l.foldl (offer value group) ⟨best, overall, none⟩) :=
    start.foldl_offer group fun _ mem => mem
  rw [Set.empty_union] at after
  rcases after.winner with ⟨won, empty, _⟩ | ⟨i, mem, won, _, greatest⟩
  · exact .inl ⟨List.eq_nil_iff_forall_not_mem.mpr (Set.eq_empty_iff_forall_notMem.mp empty), won⟩
  · exact .inr ⟨i, mem, won, greatest⟩

end Contest
