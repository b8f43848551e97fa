import TRex.IndexExactness
import TRex.Lib.Raising
import TRex.PublicationCodecs

/-!
# The constraint checks of the GPU engine

`checkConstraints`, `checkNegationConstraints` and `checkAggregateConstraints` of `Common/Funs.cc`
decide whether an event fits a state, a negation or an aggregate. Their switch goes by the type of
the event's attribute, whatever the type of the constraint, and not all of its cases test what the
operator says. A string is first copied into an array that has no room for a NUL behind the longest
one. -/

namespace TRex

/-! ## The three functions -/

/-- One turn of the loops, with the attribute of the constraint's name: false where the source
returns false, `none` where the copy of the string overruns `tempString`. -/
def Constraint.check (constr : Constraint) (attr : Attribute) : Option Bool :=
  let o := constr.op
  match attr.type with
  | .int =>
    let tempint := constr.intVal
    let intVal := attr.value.intVal
    some <| match o with
      | .eq => decide (intVal = tempint)
      | .gt => !decide (intVal ≤ tempint)
      | .lt => !decide (intVal ≥ tempint)
      | .le => !decide (intVal > tempint)
      | .ge => !decide (intVal < tempint)
      | .ne | .in_ => true
  | .float =>
    let tempfloat := constr.floatVal
    let floatVal := attr.value.floatVal
    some <| match o with
      | .eq => floatVal.eq tempfloat
      | .gt => !floatVal.le tempfloat
      | .lt => !tempfloat.le floatVal
      | .le => !tempfloat.lt floatVal
      | .ge => !floatVal.lt tempfloat
      | .ne | .in_ => true
  | .bool =>
    let tempbool := constr.boolVal
    let boolVal := attr.value.boolVal
    -- the second condition is no `else if`
    if o = .eq ∧ boolVal ≠ tempbool then some false
    else if o = .ne then some (boolVal != tempbool)
    else some false
  | .string =>
    let tempString := constr.stringVal
    let stringVal := attr.value.stringVal
    if tempString.length < stringValLen then
      match o with
      | .eq => some (decide (stringVal = tempString))
      | .ne => some (decide (stringVal ≠ tempString))
      | _ => some false
    else none

namespace PubPkt

variable (event : PubPkt)

/-- The loop that the three functions have in common. -/
def checkAll : List Constraint → Option Bool
  | [] => some true
  | constr :: rest =>
    match event.getAttributeIndexAndType constr.name with
    | none => some false
    | some (idx, _) =>
      match event.attributes[idx]? with
      | none => some false
      | some attr => do
        if ← constr.check attr then checkAll rest else return false

variable (rule : RulePkt)

def checkConstraints (state : Nat) : Option Bool :=
  (rule.predicates[state]?).bind fun predicate => event.checkAll predicate.constraints

def checkAggregateConstraints (aggNum : Nat) : Option Bool :=
  (rule.aggregates[aggNum]?).bind fun aggregate => event.checkAll aggregate.constraints

def checkNegationConstraints (negNum : Nat) : Option Bool :=
  (rule.negations[negNum]?).bind fun negation => event.checkAll negation.constraints

/-- The function for a kind of elements. -/
def checkFor : StateType → Nat → Option Bool
  | .state => event.checkConstraints rule
  | .agg => event.checkAggregateConstraints rule
  | .neg => event.checkNegationConstraints rule

end PubPkt

/-! ## What the checks are deceived by -/

/-- The types and operators that the checks are written for. -/
def Constraint.Supported (c : Constraint) : Prop :=
  (c.type = .int ∧ c.op ≠ .in_) ∨ ((c.type = .bool ∨ c.type = .string) ∧ (c.op = .eq ∨ c.op = .ne))

/-- The test of the attribute's type does not refuse the value. -/
def Constraint.Lets (c : Constraint) : Value → Prop
  | .int v => c.op = .ne ∨ c.op = .in_ ∨ c.op.holdsInt v c.intVal = true
  | .float f =>
    match c.op with
    | .eq => f.eq c.floatVal = true
    | .gt => f.le c.floatVal = false
    | .lt => c.floatVal.le f = false
    | .le => c.floatVal.lt f = false
    | .ge => f.lt c.floatVal = false
    | .ne | .in_ => True
  | .bool b _ => c.op = .ne ∧ b ≠ c.boolVal
  | .string s => (c.op = .eq ∧ s = c.stringVal) ∨ (c.op = .ne ∧ s ≠ c.stringVal)

/-- The string of the constraint is copied, and it is too long. -/
def Constraint.Overruns (c : Constraint) (v : Value) : Prop :=
  v.type = .string ∧ stringValLen ≤ c.stringVal.length

/-- EQ on a Boolean ends in the branch for operators that are not defined. -/
def Constraint.EqualsBool (c : Constraint) : Prop := c.type = .bool ∧ c.op = .eq

/-- There is no branch for NE on an integer, and a value of another type is compared with a member
of the constraint that its type does not name. -/
def Constraint.Unnoticed (c : Constraint) (v : Value) : Prop :=
  if c.type = v.type then c.type = .int ∧ c.op = .ne else c.Lets v

namespace PubPkt

variable (event : PubPkt) (rule : RulePkt)

/-- All constraints are satisfied by attributes of their names and types. -/
def SatisfiesAll (constraints : List Constraint) : Prop :=
  ∀ c ∈ constraints, ∃ attr ∈ event.attributes, c.satisfiedBy attr = true

/-- The function returns, and it returns whether the event satisfies all constraints. -/
def ChecksExactly (e : Element) : Prop :=
  ∃ b, event.checkFor rule e.stateType e.stateId = some b ∧
    (b = true ↔ event.SatisfiesAll e.constraints)

/-- An attribute of the constraint's name makes the source copy a string that is too long. -/
def Overruns (c : Constraint) : Prop :=
  ∃ attr ∈ event.attributes, attr.name = c.name ∧ c.Overruns attr.value

/-- There is no attribute of the constraint's name; or it should not pass, and that is noticed; or
it is a Boolean that should be equal to another. -/
def Refused (c : Constraint) : Prop :=
  ∀ attr ∈ event.attributes, attr.name = c.name →
    (c.EqualsBool ∧ attr.type = .bool) ∨
      (c.satisfiedBy attr = false ∧ ¬ c.Unnoticed attr.value)

/-- Where all constraints are satisfied, none is EQ on a Boolean. Where one is not, one, be it
another, is refused. Up to there, or to the end, no string is too long for the copy. -/
def Undeceived (constraints : List Constraint) : Prop :=
  (event.SatisfiesAll constraints ∧ ∀ c ∈ constraints, ¬ c.EqualsBool ∧ ¬ event.Overruns c) ∨
  (¬ event.SatisfiesAll constraints ∧ ∃ before c after, constraints = before ++ c :: after ∧
    (∀ b ∈ before, ¬ event.Overruns b) ∧ ¬ event.Overruns c ∧ event.Refused c)

end PubPkt

/-! ## One constraint -/

theorem not_overruns {c : Constraint} {v : Value} (other : v.type ≠ .string) : ¬ c.Overruns v :=
  fun overruns => other overruns.1

/-- What a turn returns: nothing where the string overruns, else whether the value is let
through. -/
theorem check_spec (c : Constraint) (attr : Attribute) :
    (c.Overruns attr.value ∧ c.check attr = none) ∨
      (¬ c.Overruns attr.value ∧ ∃ b, c.check attr = some b ∧ (b = true ↔ c.Lets attr.value)) := by
  obtain ⟨name, value⟩ := attr
  cases value with
  | int v =>
      refine .inr ⟨not_overruns (by simp [Value.type]), ?_⟩
      refine ⟨_, rfl, ?_⟩
      cases op : c.op with
      | ne => exact iff_of_true rfl (.inl op)
      | in_ => exact iff_of_true rfl (.inr (.inl op))
      | eq =>
          simp only [Constraint.Lets, op, Op.holdsInt, reduceCtorEq, false_or]
          rfl
      | _ =>
          simp only [Constraint.Lets, op, Op.holdsInt, reduceCtorEq, false_or, Bool.not_eq_true',
            decide_eq_false_iff_not, decide_eq_true_iff, not_le, not_lt]
          rfl
  | float f =>
      refine .inr ⟨not_overruns (by simp [Value.type]), ?_⟩
      simp only [Constraint.Lets, Constraint.check, Attribute.type, Value.type, Value.floatVal,
        Option.some.injEq, exists_eq_left']
      cases c.op with
      | ne | in_ => exact iff_of_true rfl trivial
      | eq => exact Iff.rfl
      | _ => exact (Bool.not_eq_true' _).to_iff
  | bool b pad =>
      refine .inr ⟨not_overruns (by simp [Value.type]), ?_⟩
      simp only [Constraint.Lets]
      cases op : c.op <;> simp [Constraint.check, Attribute.type, Value.type, Value.boolVal, op]
  | string s =>
      by_cases short : c.stringVal.length < stringValLen
      · refine .inr ⟨fun overruns => absurd short overruns.2.not_gt, ?_⟩
        simp only [Constraint.Lets, Constraint.check, Attribute.type, Value.type,
          Value.stringVal, if_pos short]
        cases c.op with
        | eq => exact ⟨_, rfl, decide_eq_true_iff.trans (by simp)⟩
        | ne => exact ⟨_, rfl, decide_eq_true_iff.trans (by simp)⟩
        | _ => exact ⟨_, rfl, by simp⟩
      · refine .inl ⟨⟨rfl, not_lt.mp short⟩, ?_⟩
        simp only [Constraint.check, Attribute.type, Value.type, if_neg short]

/-- Of an attribute of the constraint's name, the test lets through what satisfies the constraint
and what it does not notice, but never a Boolean that should be equal. -/
theorem lets_iff {c : Constraint} (supported : c.Supported) {attr : Attribute}
    (named : attr.name = c.name) : c.Lets attr.value ↔
      ¬ (c.EqualsBool ∧ attr.type = .bool) ∧
        (c.satisfiedBy attr = true ∨ c.Unnoticed attr.value) := by
  obtain ⟨name, value⟩ := attr
  by_cases typed : c.type = value.type
  · simp only [Constraint.Unnoticed, if_pos typed, Constraint.EqualsBool, Constraint.satisfiedBy]
    rcases supported with ⟨type, op⟩ | ⟨type | type, op⟩
    · cases value <;> simp_all [Value.type, Constraint.Lets, Attribute.type]
      exact or_comm
    · cases value <;> simp_all [Value.type, Constraint.Lets, Attribute.type]
      rcases op with op | op <;> simp [op, Op.holdsBool]
    · cases value <;> simp_all [Value.type, Constraint.Lets, Attribute.type]
      rcases op with op | op <;> simp [op, Op.holdsString]
  · have differs : c.satisfiedBy ⟨name, value⟩ = false := by
      simp only [Constraint.satisfiedBy]
      cases type : c.type <;> cases value <;> simp_all [Value.type]
    simp only [Constraint.Unnoticed, if_neg typed, Constraint.EqualsBool, Attribute.type, differs]
    have other : ¬ ((c.type = .bool ∧ c.op = .eq) ∧ value.type = .bool) :=
      fun both => typed (both.1.1.trans both.2.symm)
    simp [other]

/-- One turn of the loop with the look-up of the name. -/
def PubPkt.checkOne (event : PubPkt) (c : Constraint) : Option Bool :=
  match event.getAttributeIndexAndType c.name with
  | none => some false
  | some (idx, _) =>
    match event.attributes[idx]? with
    | none => some false
    | some attr => c.check attr

theorem checkAll_cons (event : PubPkt) (c : Constraint) (rest : List Constraint) :
    event.checkAll (c :: rest) = event.checkOne c >>= fun passed =>
      if passed then event.checkAll rest else some false := by
  rw [PubPkt.checkAll, PubPkt.checkOne]
  cases event.getAttributeIndexAndType c.name with
  | none => rfl
  | some found =>
      simp only
      cases event.attributes[found.1]? with
      | none => rfl
      | some a => rfl

/-- In a packet with different names, a name finds its attribute. -/
theorem checkOne_of_mem {event : PubPkt}
    (mapped : event.contentMap = PubPkt.buildContentMap event.attributes)
    (names : (event.attributes.map Attribute.name).Nodup) {c : Constraint} {attr : Attribute}
    (mem : attr ∈ event.attributes) (named : attr.name = c.name) :
    event.checkOne c = c.check attr := by
  have found := find?_of_nodup names mem
  rw [named] at found
  rcases PubPkt.getAttributeIndexAndType_mapped mapped c.name with ⟨missing, -⟩ |
    ⟨i, a, found', there, lookup⟩
  · rw [found] at missing
    cases missing
  · rw [found, Option.some.injEq] at found'
    cases found'
    simp only [PubPkt.checkOne, lookup, there]

theorem checkOne_of_missing {event : PubPkt}
    (mapped : event.contentMap = PubPkt.buildContentMap event.attributes) {c : Constraint}
    (missing : ∀ attr ∈ event.attributes, attr.name ≠ c.name) :
    event.checkOne c = some false := by
  rcases PubPkt.getAttributeIndexAndType_mapped mapped c.name with ⟨-, lookup⟩ |
    ⟨i, a, found, there, -⟩
  · simp only [PubPkt.checkOne, lookup]
  · have named : (a.name == c.name) = true := by simpa using List.find?_some found
    exact absurd (beq_iff_eq.mp named) (missing a (List.mem_of_find?_eq_some found))

section

variable {event : PubPkt} (mapped : event.contentMap = PubPkt.buildContentMap event.attributes)
  (names : (event.attributes.map Attribute.name).Nodup) {c : Constraint}

include mapped names

theorem checkOne_spec (supported : c.Supported) :
    (event.Overruns c ∧ event.checkOne c = none) ∨
      (¬ event.Overruns c ∧ ∃ b, event.checkOne c = some b ∧ (b = false ↔ event.Refused c)) := by
  by_cases present : ∃ attr ∈ event.attributes, attr.name = c.name
  · obtain ⟨attr, mem, named⟩ := present
    have only : ∀ other ∈ event.attributes, other.name = c.name → other = attr :=
      fun other mem' named' => List.inj_on_of_nodup_map names mem' mem (named'.trans named.symm)
    have overruns : event.Overruns c ↔ c.Overruns attr.value := by
      constructor
      · rintro ⟨other, mem', named', long⟩
        rwa [← only other mem' named']
      · exact fun long => ⟨attr, mem, named, long⟩
    have refused : event.Refused c ↔ ¬ c.Lets attr.value := by
      rw [lets_iff supported named, not_and_or, not_not, not_or, Bool.not_eq_true]
      constructor
      · exact fun all => all attr mem named
      · intro this other mem' named'
        rwa [only other mem' named']
    rw [checkOne_of_mem mapped names mem named, overruns, refused]
    rcases check_spec c attr with ⟨long, result⟩ | ⟨short, b, result, lets⟩
    · exact .inl ⟨long, result⟩
    · exact .inr ⟨short, b, result, by rw [← lets, Bool.not_eq_true]⟩
  · have missing : ∀ attr ∈ event.attributes, attr.name ≠ c.name :=
      fun attr mem named => present ⟨attr, mem, named⟩
    refine .inr ⟨?_, false, checkOne_of_missing mapped missing, iff_of_true rfl ?_⟩
    · rintro ⟨attr, mem, named, -⟩
      exact missing attr mem named
    · exact fun attr mem named => absurd named (missing attr mem)

/-! ## The loop -/

/-- The loop returns true if no string overruns and no constraint is refused. -/
theorem checkAll_eq_true_iff {constraints : List Constraint}
    (supported : ∀ c ∈ constraints, c.Supported) : event.checkAll constraints = some true ↔
      ∀ c ∈ constraints, ¬ event.Overruns c ∧ ¬ event.Refused c := by
  induction constraints with
  | nil => exact iff_of_true rfl (List.forall_mem_nil _)
  | cons c rest ih =>
      rw [List.forall_mem_cons] at supported
      rw [List.forall_mem_cons, ← ih supported.2, checkAll_cons]
      rcases checkOne_spec mapped names supported.1 with ⟨long, result⟩ |
        ⟨short, b, result, refused⟩
      · rw [result]
        exact iff_of_false nofun fun both => both.1.1 long
      · rw [result]
        cases b with
        | true => exact (and_iff_right ⟨short, fun r => Bool.noConfusion (refused.mpr r)⟩).symm
        | false => exact iff_of_false nofun fun both => both.1.2 (refused.mp rfl)

/-- It returns false if a constraint is refused and no string overruns up to there. -/
theorem checkAll_eq_false_iff {constraints : List Constraint}
    (supported : ∀ c ∈ constraints, c.Supported) : event.checkAll constraints = some false ↔
      ∃ before c after, constraints = before ++ c :: after ∧
        (∀ b ∈ before, ¬ event.Overruns b) ∧ ¬ event.Overruns c ∧ event.Refused c := by
  induction constraints with
  | nil => exact iff_of_false nofun Raising.not_exists_stop_nil
  | cons c rest ih =>
      rw [List.forall_mem_cons] at supported
      rw [Raising.exists_stop_cons_iff, ← ih supported.2, checkAll_cons]
      rcases checkOne_spec mapped names supported.1 with ⟨long, result⟩ |
        ⟨short, b, result, refused⟩
      · rw [result]
        refine iff_of_false nofun ?_
        rintro (⟨fits, -⟩ | ⟨fits, -⟩)
        · exact fits long
        · exact fits long
      · rw [result, and_iff_right short, and_iff_right short, ← refused]
        cases b with
        | false => exact iff_of_true rfl (.inl rfl)
        | true => exact (or_iff_right Bool.noConfusion).symm

end

theorem checkFor_of_mem {rule : RulePkt} {e : Element} (mem : e ∈ rule.elements) (event : PubPkt) :
    event.checkFor rule e.stateType e.stateId = event.checkAll e.constraints := by
  have there := IndexingTable.elementAt_of_mem mem
  obtain ⟨type, i, eventType, constraints⟩ := e
  cases type with
  | state =>
      obtain ⟨p, found, same⟩ := Option.map_eq_some_iff.mp there
      cases same
      exact congrArg (·.bind fun p => event.checkAll p.constraints) found
  | agg =>
      obtain ⟨a, found, same⟩ := Option.map_eq_some_iff.mp there
      cases same
      exact congrArg (·.bind fun a => event.checkAll a.constraints) found
  | neg =>
      obtain ⟨n, found, same⟩ := Option.map_eq_some_iff.mp there
      cases same
      exact congrArg (·.bind fun n => event.checkAll n.constraints) found

/-- What is satisfied is refused only if it is EQ on a Boolean. -/
theorem satisfied_refused_iff {event : PubPkt}
    (names : (event.attributes.map Attribute.name).Nodup) {c : Constraint}
    (satisfied : ∃ attr ∈ event.attributes, c.satisfiedBy attr = true) :
    event.Refused c ↔ c.EqualsBool := by
  obtain ⟨attr, mem, satisfied⟩ := satisfied
  have named : attr.name = c.name := by
    rw [Constraint.satisfiedBy, Bool.and_eq_true] at satisfied
    exact of_decide_eq_true satisfied.1
  constructor
  · intro refused
    rcases refused attr mem named with ⟨equals, -⟩ | ⟨unsatisfied, -⟩
    · exact equals
    · exact absurd (satisfied.symm.trans unsatisfied) Bool.true_eq_false.mp
  · intro equals other mem' named'
    cases List.inj_on_of_nodup_map names mem' mem (named'.trans named.symm)
    obtain ⟨-, v, pad, value, -⟩ := (Constraint.satisfiedBy_bool equals.1).mp satisfied
    exact .inl ⟨equals, congrArg Value.type value⟩

/-- The checks of a state, a negation or an aggregate are right about an event with different names
exactly if it does not deceive them. -/
theorem checksExactly_iff {rule : RulePkt} {e : Element} (mem : e ∈ rule.elements)
    (supported : ∀ c ∈ e.constraints, c.Supported) {event : PubPkt}
    (mapped : event.contentMap = PubPkt.buildContentMap event.attributes)
    (names : (event.attributes.map Attribute.name).Nodup) :
    event.ChecksExactly rule e ↔ event.Undeceived e.constraints := by
  have passes : event.SatisfiesAll e.constraints →
      (event.checkAll e.constraints = some true ↔
        ∀ c ∈ e.constraints, ¬ c.EqualsBool ∧ ¬ event.Overruns c) := by
    intro all
    rw [checkAll_eq_true_iff mapped names supported]
    refine forall₂_congr fun c inList => ?_
    rw [satisfied_refused_iff names (all c inList), and_comm]
  rw [PubPkt.ChecksExactly, PubPkt.Undeceived, checkFor_of_mem mem,
    ← checkAll_eq_false_iff mapped names supported]
  constructor
  · rintro ⟨b, result, exact⟩
    cases b with
    | true => exact .inl ⟨exact.mp rfl, (passes (exact.mp rfl)).mp result⟩
    | false => exact .inr ⟨fun all => Bool.false_ne_true (exact.mpr all), result⟩
  · rintro (⟨all, undeceived⟩ | ⟨some, result⟩)
    · exact ⟨true, (passes all).mpr undeceived, iff_of_true rfl all⟩
    · exact ⟨false, result, iff_of_false nofun some⟩

/-! An alarm that is on does not fit the rule that asks for it, and a room of 45 degrees fits the
one that asks for another temperature. With a second constraint on the humidity that is refused. -/

def alarmRule : RulePkt := oneEventRule 0 [boolConstraint ['s'] .eq true]

def alarmPkt : PubPkt := PubPkt.new 1 [⟨['s'], .bool true 0⟩] 0

def notMild : List Constraint := [intConstraint ['t'] .ne 45, intConstraint ['h'] .lt 20]

def mildPkt : PubPkt := PubPkt.new 1 [⟨['t'], .int 45⟩, ⟨['h'], .int 30⟩] 0

theorem alarmPkt_not_checksExactly :
    (∀ e ∈ alarmRule.elements, alarmPkt.SatisfiesAll e.constraints ∧
      ¬ alarmPkt.ChecksExactly alarmRule e) ∧
    ∀ e ∈ (oneEventRule 0 (notMild.take 1)).elements, ¬ mildPkt.SatisfiesAll e.constraints ∧
      ¬ mildPkt.ChecksExactly (oneEventRule 0 (notMild.take 1)) e := by
  unfold PubPkt.ChecksExactly PubPkt.SatisfiesAll
  decide

theorem notMild_checksExactly :
    mildPkt.ChecksExactly (oneEventRule 0 notMild) ⟨.state, 0, 1, notMild⟩ := by
  have supported : ∀ c ∈ notMild, c.Supported := by
    unfold Constraint.Supported
    decide
  have noString : ∀ attr ∈ mildPkt.attributes, attr.value.type ≠ .string := by decide
  have fits : ∀ c, ¬ mildPkt.Overruns c := by
    rintro c ⟨attr, mem, -, string, -⟩
    exact noString attr mem string
  have humid : ∀ attr ∈ mildPkt.attributes, attr.name = ['h'] → attr.value.type = .int ∧
      (intConstraint ['h'] .lt 20).satisfiedBy attr = false := by
    decide
  have refused : mildPkt.Refused (intConstraint ['h'] .lt 20) := by
    intro attr mem named
    obtain ⟨int, unsatisfied⟩ := humid attr mem named
    refine .inr ⟨unsatisfied, ?_⟩
    have typed : (intConstraint ['h'] .lt 20).type = attr.value.type := int.symm
    rw [Constraint.Unnoticed, if_pos typed]
    decide
  refine (checksExactly_iff (by decide) supported rfl (by decide)).mpr (.inr ⟨?_, ?_⟩)
  · unfold PubPkt.SatisfiesAll
    decide
  · exact ⟨[intConstraint ['t'] .ne 45], intConstraint ['h'] .lt 20, [], rfl,
      fun b _ => fits b, fits _, refused⟩

end TRex
