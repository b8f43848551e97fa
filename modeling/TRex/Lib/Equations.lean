import Mathlib.Logic.Relation
import Mathlib.Tactic.Common

/-!
# Systems of equations between places

An equation names two places; a valuation gives a place a value or leaves it undefined, and an
equation holds when its two places have one value. Two places are `Linked` by a system when a chain
of its equations joins them. `linked_iff_entailed`: a system entails an equation exactly when it
links its two places, and valuations with two values are enough to tell.
-/

namespace Equations

variable {P V W : Type*} {system other : List (P × P)} {value : P → Option V} {a b c : P}

/-- Both places have a value, and it is the same. -/
def Agree (value : P → Option V) (a b : P) : Prop := ∃ v, value a = some v ∧ value b = some v

def Holds (value : P → Option V) (system : List (P × P)) : Prop :=
  ∀ e ∈ system, Agree value e.1 e.2

/-- An equation of the system, read in either direction. -/
def Joined (system : List (P × P)) (a b : P) : Prop := (a, b) ∈ system ∨ (b, a) ∈ system

/-- Joined by a chain of at least one equation. -/
def Linked (system : List (P × P)) : P → P → Prop := Relation.TransGen (Joined system)

/-- The first system says no more than the second. -/
def Entailed (other system : List (P × P)) : Prop := ∀ e ∈ other, Linked system e.1 e.2

/-- Both systems say the same. -/
def Equivalent (system other : List (P × P)) : Prop :=
  Entailed other system ∧ Entailed system other

theorem Agree.symm (agree : Agree value a b) : Agree value b a := by
  obtain ⟨v, left, right⟩ := agree
  exact ⟨v, right, left⟩

theorem Agree.comm : Agree value a b ↔ Agree value b a := ⟨.symm, .symm⟩

theorem Agree.trans (first : Agree value a b) (second : Agree value b c) : Agree value a c := by
  obtain ⟨v, left, middle⟩ := first
  obtain ⟨w, middle', right⟩ := second
  have same : v = w := Option.some.inj (middle.symm.trans middle')
  exact ⟨v, left, by rw [right, same]⟩

theorem Joined.symm (joined : Joined system a b) : Joined system b a := joined.elim .inr .inl

/-- A place that some equation names is linked to itself. -/
theorem Linked.refl_of_joined (joined : Joined system a b) : Linked system a a :=
  .tail (.single joined) joined.symm

theorem Holds.agree_of_joined (holds : Holds value system) (joined : Joined system a b) :
    Agree value a b := by
  rcases joined with mem | mem
  · exact holds _ mem
  · exact (holds _ mem).symm

theorem Holds.agree (holds : Holds value system) (linked : Linked system a b) :
    Agree value a b := by
  induction linked with
  | single joined => exact holds.agree_of_joined joined
  | tail _ joined ih => exact ih.trans (holds.agree_of_joined joined)

theorem Holds.of_entailed (entailed : Entailed other system) (holds : Holds value system) :
    Holds value other :=
  fun e mem => holds.agree (entailed e mem)

theorem holds_append :
    Holds value (system ++ other) ↔ Holds value system ∧ Holds value other :=
  List.forall_mem_append

theorem holds_singleton : Holds value [(a, b)] ↔ Agree value a b :=
  List.forall_mem_singleton

theorem Equivalent.holds_iff (equivalent : Equivalent system other) :
    Holds value system ↔ Holds value other :=
  ⟨.of_entailed equivalent.1, .of_entailed equivalent.2⟩

/-! ## Two values tell systems apart -/

section Completeness

open Classical in
/-- Marks the places linked to `a`. -/
noncomputable def mark (system : List (P × P)) (a : P) (b : P) : Option Bool :=
  some (decide (Linked system a b))

open Classical in
/-- Defined everywhere but at `a`. -/
noncomputable def hole (a : P) (b : P) : Option Bool := if b = a then none else some true

theorem holds_mark : Holds (mark system a) system := by
  intro e mem
  have same : Linked system a e.1 ↔ Linked system a e.2 := by
    constructor
    · intro linked
      exact linked.tail (.inl mem)
    · intro linked
      exact linked.tail (.inr mem)
  exact ⟨_, rfl, congrArg some (decide_eq_decide.mpr same.symm)⟩

/-- A system that does not name a place holds whatever that place is. -/
theorem holds_hole (unnamed : ∀ b, ¬ Joined system a b) : Holds (hole a) system := by
  intro e mem
  have left : e.1 ≠ a := fun same => unnamed e.2 (.inl (same ▸ mem))
  have right : e.2 ≠ a := fun same => unnamed e.1 (.inr (same ▸ mem))
  exact ⟨true, by simp [hole, left], by simp [hole, right]⟩

/-- What holds wherever the system does is linked by the system. -/
theorem linked_of_holds
    (follows : ∀ value : P → Option Bool, Holds value system → Agree value a b) :
    Linked system a b := by
  by_cases named : ∃ c, Joined system a c
  · obtain ⟨c, joined⟩ := named
    obtain ⟨v, left, right⟩ := follows _ holds_mark
    have same : mark system a a = mark system a b := left.trans right.symm
    simpa [mark, Linked.refl_of_joined joined] using same
  · obtain ⟨v, left, -⟩ := follows (hole a) (holds_hole fun c joined => named ⟨c, joined⟩)
    simp [hole] at left

theorem entailed_iff :
    Entailed other system ↔ ∀ value : P → Option Bool, Holds value system → Holds value other := by
  constructor
  · intro entailed value holds
    exact holds.of_entailed entailed
  · intro follows e mem
    exact linked_of_holds fun value holds => follows value holds e mem

theorem equivalent_iff :
    Equivalent system other ↔
      ∀ value : P → Option Bool, Holds value system ↔ Holds value other := by
  rw [Equivalent, entailed_iff, entailed_iff]
  constructor
  · intro both value
    exact ⟨both.1 value, both.2 value⟩
  · intro same
    exact ⟨fun value => (same value).mp, fun value => (same value).mpr⟩

end Completeness

/-! ## Changing the values -/

/-- Only the values of the named places matter. -/
theorem Holds.congr {value' : P → Option V}
    (same : ∀ e ∈ system, value e.1 = value' e.1 ∧ value e.2 = value' e.2) :
    Holds value system ↔ Holds value' system := by
  apply forall_congr'
  intro e
  apply imp_congr_right
  intro mem
  rw [Agree, Agree, (same e mem).1, (same e mem).2]

theorem holds_map {f : V → W} (injective : Function.Injective f) :
    Holds (fun p => (value p).map f) system ↔ Holds value system := by
  apply forall_congr'
  intro e
  apply imp_congr_right
  intro _
  constructor
  · rintro ⟨w, left, right⟩
    obtain ⟨v, defined, image⟩ := Option.map_eq_some_iff.mp left
    obtain ⟨v', defined', image'⟩ := Option.map_eq_some_iff.mp right
    have same : v = v' := injective (image.trans image'.symm)
    exact ⟨v, defined, by rw [defined', same]⟩
  · rintro ⟨v, left, right⟩
    exact ⟨f v, by simp only [left, Option.map_some], by simp only [right, Option.map_some]⟩

end Equations
