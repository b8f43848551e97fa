import Mathlib.Data.Finset.Card
import Mathlib.Data.Finset.Insert
import Mathlib.Tactic.Common

/-!
# Counts of the holders of resources

Entries of a table hold resources, and a count is kept for each resource. The count is exact for a
set of live entries when it is the number of live entries that hold the resource. Giving a resource
to an entry that is not live and counting it keeps the counts exact (`Exact.grow`). When entries are
given up, the counts of all entries of some set are taken back: `release_iff` says that this must be
the set of the entries given up, but for those that hold nothing.
-/

namespace Ownership

variable {E C : Type*} [DecidableEq E] [DecidableEq C] {live given taken : Finset E}
  {held : E → Option C} {count : C → Int} {e : E} {c : C}

/-- The entries of a set that hold a resource. -/
def holders (entries : Finset E) (held : E → Option C) (c : C) : Finset E :=
  entries.filter fun e => held e = some c

/-- Every resource is counted once for each live entry that holds it. -/
def Exact (live : Finset E) (held : E → Option C) (count : C → Int) : Prop :=
  ∀ c, count c = ((holders live held c).card : Int)

/-- No two live entries hold one resource. -/
def Unshared (live : Finset E) (held : E → Option C) : Prop :=
  ∀ c, ∀ e ∈ live, ∀ e' ∈ live, held e = some c → held e' = some c → e = e'

omit [DecidableEq E] in
theorem mem_holders : e ∈ holders live held c ↔ e ∈ live ∧ held e = some c := Finset.mem_filter

omit [DecidableEq E] in
theorem Exact.nonneg (exact : Exact live held count) (c : C) : 0 ≤ count c := by
  rw [exact c]
  exact Int.natCast_nonneg _

omit [DecidableEq E] in
/-- What is not counted is not held. -/
theorem Exact.not_held (exact : Exact live held count) (free : count c ≤ 0) (mem : e ∈ live) :
    held e ≠ some c := by
  intro holds
  have some : 0 < (holders live held c).card :=
    Finset.card_pos.mpr ⟨e, mem_holders.mpr ⟨mem, holds⟩⟩
  have counted := exact c
  omega

theorem card_holders_insert (new : e ∉ live) : (holders (insert e live) held c).card =
    (holders live held c).card + if held e = some c then 1 else 0 := by
  rw [holders, holders, Finset.filter_insert]
  split
  case isTrue holds =>
    exact Finset.card_insert_of_notMem fun mem => new (Finset.mem_filter.mp mem).1
  case isFalse other => rfl

/-! ## Giving a resource -/

theorem holders_update (new : e ∉ live) (d : C) :
    holders (insert e live) (Function.update held e (some c)) d =
      if d = c then insert e (holders live held d) else holders live held d := by
  ext x
  by_cases same : x = e
  · subst same
    by_cases here : d = c
    · simp [mem_holders, here]
    · simp [mem_holders, here, new, Ne.symm here]
  · by_cases here : d = c
    · simp [mem_holders, here, same]
    · simp [mem_holders, here, same]

theorem Exact.grow (exact : Exact live held count) (new : e ∉ live) :
    Exact (insert e live) (Function.update held e (some c))
      (Function.update count c (count c + 1)) := by
  intro d
  rw [holders_update new]
  by_cases here : d = c
  · subst here
    have absent : e ∉ holders live held d := fun mem => new (mem_holders.mp mem).1
    rw [if_pos rfl, Function.update_self, Finset.card_insert_of_notMem absent, exact d]
    push_cast
    rfl
  · rw [if_neg here, Function.update_of_ne here, exact d]

omit [DecidableEq C] in
theorem Unshared.grow (unshared : Unshared live held) (new : e ∉ live)
    (free : ∀ x ∈ live, held x ≠ some c) :
    Unshared (insert e live) (Function.update held e (some c)) := by
  intro d x memX y memY holdsX holdsY
  rw [Finset.mem_insert] at memX memY
  rcases memX with rfl | oldX
  · rcases memY with rfl | oldY
    · rfl
    · have other : y ≠ x := fun same => new (same ▸ oldY)
      rw [Function.update_self, Option.some.injEq] at holdsX
      rw [Function.update_of_ne other, ← holdsX] at holdsY
      exact absurd holdsY (free y oldY)
  · have otherX : x ≠ e := fun same => new (same ▸ oldX)
    rw [Function.update_of_ne otherX] at holdsX
    rcases memY with rfl | oldY
    · rw [Function.update_self, Option.some.injEq] at holdsY
      rw [← holdsY] at holdsX
      exact absurd holdsX (free x oldX)
    · have otherY : y ≠ e := fun same => new (same ▸ oldY)
      rw [Function.update_of_ne otherY] at holdsY
      exact unshared d x oldX y oldY holdsX holdsY

/-! ## Taking resources back -/

omit [DecidableEq E] [DecidableEq C] in
theorem Unshared.mono (unshared : Unshared live held) (subset : given ⊆ live) :
    Unshared given held :=
  fun c e mem e' mem' => unshared c e (subset mem) e' (subset mem')

theorem card_holders_sdiff (held : E → Option C) (subset : given ⊆ live) (c : C) :
    (holders (live \ given) held c).card + (holders given held c).card =
      (holders live held c).card := by
  rw [← Finset.card_union_of_disjoint]
  · congr 1
    ext x
    simp only [Finset.mem_union, mem_holders, Finset.mem_sdiff]
    constructor
    · rintro (⟨⟨mem, -⟩, holds⟩ | ⟨mem, holds⟩)
      · exact ⟨mem, holds⟩
      · exact ⟨subset mem, holds⟩
    · rintro ⟨mem, holds⟩
      by_cases gone : x ∈ given
      · exact .inr ⟨gone, holds⟩
      · exact .inl ⟨⟨mem, gone⟩, holds⟩
  · rw [Finset.disjoint_left]
    intro x kept gone
    exact (Finset.mem_sdiff.mp (mem_holders.mp kept).1).2 (mem_holders.mp gone).1

/-- Entries are given up and the counts of a set that contains them are taken back: the counts stay
exact if and only if the others of that set hold nothing. -/
theorem release_iff (exact : Exact live held count) (isLive : given ⊆ live)
    (subset : given ⊆ taken) :
    Exact (live \ given) held (fun c => count c - ((holders taken held c).card : Int)) ↔
      ∀ e ∈ taken, e ∉ given → held e = none := by
  have balance : ∀ c, (count c - ((holders taken held c).card : Int) =
      ((holders (live \ given) held c).card : Int)) ↔ holders (taken \ given) held c = ∅ := by
    intro c
    have whole := card_holders_sdiff held isLive c
    have surplus := card_holders_sdiff held subset c
    rw [← Finset.card_eq_zero, exact c]
    omega
  constructor
  · intro exact' e mem kept
    cases holds : held e with
    | none => rfl
    | some c =>
        have empty := (balance c).mp (exact' c)
        have there : e ∈ holders (taken \ given) held c :=
          mem_holders.mpr ⟨Finset.mem_sdiff.mpr ⟨mem, kept⟩, holds⟩
        rw [empty] at there
        exact absurd there (Finset.notMem_empty e)
  · intro nothing c
    apply (balance c).mpr
    rw [Finset.eq_empty_iff_forall_notMem]
    intro e mem
    obtain ⟨inTaken, kept⟩ := Finset.mem_sdiff.mp (mem_holders.mp mem).1
    have holds := (mem_holders.mp mem).2
    rw [nothing e inTaken kept] at holds
    cases holds

end Ownership
