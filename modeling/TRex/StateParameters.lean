import TRex.Lib.Equations
import TRex.StacksRule

/-!
# Parameters between states

`RulePkt::addParameterBetweenStates`, the copy of the parameters in the `StacksRule` constructor and
`StacksRule::removePartialEventsNotMatchingParameters`. A call names an attribute of each of two
events; the check at the end of a computation compares each name with the event of the other one.
A set of parameters is a system of equations between places, a place being an attribute of a state,
so that the crossing goes unnoticed exactly when the system and its crossed form say the same
(`keepsNamed_iff`).
-/

namespace TRex

open Equations

/-! ## Equal attribute values -/

/-- The two values have one type and are equal. -/
def Value.sameAs (v w : Value) : Bool :=
  match v, w with
  | .int v, .int w => v == w
  | .float f, .float g => f.eq g
  | .bool b _, .bool c _ => b == c
  | .string s, .string t => s == t
  | _, _ => false

open Float.Model (UnpackedFloat)

/-- What IEEE equality goes by: both zeros are one number, and a NaN is none. -/
def standing : UnpackedFloat → Option UnpackedFloat
  | .notANumber => none
  | .zero _ => some (.zero .positive)
  | x => some x

def CFloat.number (f : CFloat) : Option UnpackedFloat :=
  standing (Float32.ofBits f).toModel.unpack

/-- What a value is compared by. -/
inductive Identity
  | int (v : Int)
  | float (number : UnpackedFloat)
  | bool (b : Bool)
  | string (s : CString)

def Value.identity : Value → Option Identity
  | .int v => some (.int v)
  | .float f => f.number.map .float
  | .bool b _ => some (.bool b)
  | .string s => some (.string s)

theorem compare_finite_iff {s : UnpackedFloat.Sign} {m n : Nat} {e f : Int} (pos : 0 < m)
    (pos' : 0 < n) :
    UnpackedFloat.compare (.finite s m e pos) (.finite s n f pos') = some .eq ↔ e = f ∧ m = n := by
  cases s with
  | negative =>
      show some ((compare e f).then (compare m n)).swap = some .eq ↔ _
      simp [Ordering.then_eq_eq]
  | positive =>
      show some ((compare e f).then (compare m n)) = some .eq ↔ _
      simp [Ordering.then_eq_eq]

theorem standing_finite_iff {s : UnpackedFloat.Sign} {m n : Nat} {e f : Int} (pos : 0 < m)
    (pos' : 0 < n) :
    (∃ k, standing (.finite s m e pos) = some k ∧ standing (.finite s n f pos') = some k) ↔
      e = f ∧ m = n := by
  constructor
  · rintro ⟨k, left, right⟩
    cases left
    cases right
    exact ⟨rfl, rfl⟩
  · rintro ⟨rfl, rfl⟩
    exact ⟨_, rfl, rfl⟩

theorem beq_iff_standing (x y : UnpackedFloat) :
    x.beq y = true ↔ ∃ n, standing x = some n ∧ standing y = some n := by
  have same : x.beq y = true ↔ x.compare y = some .eq := beq_iff_eq
  rw [same]
  rcases x with (_ | _) | _ | (_ | _) | ⟨_ | _, m, e, pos⟩ <;>
    rcases y with (_ | _) | _ | (_ | _) | ⟨_ | _, n, f, pos'⟩
  case finite.negative.finite.negative | finite.positive.finite.positive =>
    exact (compare_finite_iff pos pos').trans (standing_finite_iff pos pos').symm
  all_goals first
    | exact iff_of_true rfl ⟨_, rfl, rfl⟩
    | refine iff_of_false nofun ?_
      rintro ⟨k, left, right⟩
      cases left <;> cases right
theorem CFloat.eq_iff (f g : CFloat) :
    f.eq g = true ↔ ∃ n, f.number = some n ∧ g.number = some n :=
  beq_iff_standing _ _

theorem Value.sameAs_iff (v w : Value) :
    v.sameAs w = true ↔ ∃ i, v.identity = some i ∧ w.identity = some i := by
  cases v <;> cases w <;>
    simp [Value.sameAs, Value.identity, CFloat.eq_iff]
  case int.int | bool.bool | string.string => exact eq_comm

/-! ## Places and comparisons -/

/-- An attribute of the event of a state. -/
abbrev Place := Int × CString

def PartialEvent.valueAt (pe : PartialEvent) (place : Place) : Option Value :=
  attributeIn (pe.indexes place.1.toNat) (some place.2)

def PartialEvent.identityAt (pe : PartialEvent) (place : Place) : Option Identity :=
  (pe.valueAt place).bind Value.identity

/-- The arguments of a call of `addParameterBetweenStates`. -/
structure Comparison where
  id1 : Int
  name1 : CString
  id2 : Int
  name2 : CString

namespace Comparison

/-- What the call documents: the event at `id1` has an attribute `name1`, that at `id2` has an
attribute `name2`, of one type and with equal values. -/
def holdsIn (c : Comparison) (pe : PartialEvent) : Bool :=
  match pe.valueAt (c.id1, c.name1), pe.valueAt (c.id2, c.name2) with
  | some v, some w => v.sameAs w
  | _, _ => false

/-- The equation that the call names. -/
def named (c : Comparison) : Place × Place := ((c.id1, c.name1), (c.id2, c.name2))

/-- The two names exchanged. -/
def crossed (c : Comparison) : Place × Place := ((c.id1, c.name2), (c.id2, c.name1))

theorem holdsIn_iff (c : Comparison) (pe : PartialEvent) :
    c.holdsIn pe = true ↔ Agree pe.identityAt c.named.1 c.named.2 := by
  simp only [holdsIn, named, Agree, PartialEvent.identityAt]
  cases pe.valueAt (c.id1, c.name1) with
  | none => simp
  | some v =>
      cases pe.valueAt (c.id2, c.name2) with
      | none => simp
      | some w => exact v.sameAs_iff w

end Comparison

/-- The places that `checkParameter` compares: each name is looked up in the event of the other. -/
def Parameter.checked (par : Parameter) : Place × Place :=
  ((par.evIndex1, par.name2), (par.evIndex2, par.name1))

theorem checkParameter_iff (pe : PartialEvent) (par : Parameter) :
    checkParameter (pe.indexes par.evIndex2.toNat) pe par = true ↔
      Agree pe.identityAt par.checked.1 par.checked.2 := by
  have compared : checkParameter (pe.indexes par.evIndex2.toNat) pe par =
      Comparison.holdsIn ⟨par.evIndex1, par.name2, par.evIndex2, par.name1⟩ pe := by
    simp only [checkParameter, Comparison.holdsIn, PartialEvent.valueAt]
    generalize attributeIn (pe.indexes par.evIndex1.toNat) (some par.name2) = x
    generalize attributeIn (pe.indexes par.evIndex2.toNat) (some par.name1) = y
    rcases x with _ | _ | _ | _ | _ <;> rcases y with _ | _ | _ | _ | _ <;> rfl
  rw [compared]
  exact Comparison.holdsIn_iff _ pe

/-! ## What the builder and the constructor store -/

/-- The parameter that a call adds, as the rule packet keeps it. -/
def RulePkt.BuilderCall.parameter? : RulePkt.BuilderCall → Option Parameter
  | .addParameterBetweenStates id1 name1 id2 name2 =>
    if id1 < id2 then some ⟨id2, name2, id1, name1, .state⟩
    else some ⟨id1, name1, id2, name2, .state⟩
  | .addParameterForNegation id name negId negName => some ⟨id, name, negId, negName, .neg⟩
  | .addParameterForAggregate id name aggId aggName => some ⟨id, name, aggId, aggName, .agg⟩
  | _ => none

/-- The comparison that a call asks for. -/
def RulePkt.BuilderCall.comparison? : RulePkt.BuilderCall → Option Comparison
  | .addParameterBetweenStates id1 name1 id2 name2 => some ⟨id1, name1, id2, name2⟩
  | _ => none

namespace RulePkt

variable {pkt pkt' : RulePkt}

theorem addParameter_eq_some {index1 index2 : Int} {name1 name2 : CString} {type : StateType}
    (accepted : pkt.addParameter index1 name1 index2 name2 type = some pkt') :
    pkt'.parameters = pkt.parameters ++ [⟨index1, name1, index2, name2, type⟩] ∧
      0 ≤ index1 ∧ 0 ≤ index2 := by
  simp only [addParameter] at accepted
  repeat (split at accepted; · cases accepted)
  cases accepted
  exact ⟨rfl, by omega, by omega⟩

theorem addParameterBetweenStates_eq_some {id1 id2 : Int} {name1 name2 : CString}
    (accepted : pkt.addParameterBetweenStates id1 name1 id2 name2 = some pkt') :
    pkt'.parameters = pkt.parameters ++
      (BuilderCall.addParameterBetweenStates id1 name1 id2 name2).parameter?.toList ∧
      0 ≤ id1 ∧ 0 ≤ id2 := by
  simp only [addParameterBetweenStates] at accepted
  split at accepted
  case isTrue lt =>
    have added := addParameter_eq_some accepted
    simp only [BuilderCall.parameter?, lt, ↓reduceIte, Option.toList_some]
    exact ⟨added.1, added.2.2, added.2.1⟩
  case isFalse ge =>
    have added := addParameter_eq_some accepted
    simp only [BuilderCall.parameter?, ge, ↓reduceIte, Option.toList_some]
    exact added

theorem addNegation_parameters {eventType lowerId upperId : Int} {constraints : List Constraint}
    {lowerTime : Nat}
    (accepted : pkt.addNegation eventType constraints lowerId lowerTime upperId = some pkt') :
    pkt'.parameters = pkt.parameters := by
  simp only [addNegation] at accepted
  repeat (split at accepted; · cases accepted)
  cases accepted
  rfl

theorem addAggregate_parameters {eventType lowerId upperId : Int} {constraints : List Constraint}
    {lowerTime : Nat} {name : CString} {fun_ : AggregateFun}
    (accepted :
      pkt.addAggregate eventType constraints lowerId lowerTime upperId name fun_ = some pkt') :
    pkt'.parameters = pkt.parameters := by
  simp only [addAggregate] at accepted
  repeat (split at accepted; · cases accepted)
  cases accepted
  rfl

theorem addComplexParameterWith_parameters {find : OpTree → Int} {type : StateType}
    {operation : Op} {vtype : ValType} {leftTree rightTree : OpTree}
    (accepted : pkt.addComplexParameterWith find type operation vtype leftTree rightTree =
      some pkt') : pkt'.parameters = pkt.parameters := by
  simp only [addComplexParameterWith] at accepted
  split at accepted
  · cases accepted
  · cases accepted
    rfl

theorem call_parameters {b : BuilderCall} (accepted : pkt.call b = some pkt') :
    pkt'.parameters = pkt.parameters ++ b.parameter?.toList := by
  cases b with
  | addParameterBetweenStates i n j m => exact (addParameterBetweenStates_eq_some accepted).1
  | addParameterForNegation i n j m => exact (addParameter_eq_some accepted).1
  | addParameterForAggregate i n j m => exact (addParameter_eq_some accepted).1
  | addRootPredicate t cs =>
      simp only [call, addRootPredicate] at accepted
      split at accepted
      · cases accepted
      · cases accepted
        exact (List.append_nil _).symm
  | addPredicate t cs r w k =>
      simp only [call, addPredicate] at accepted
      split at accepted
      · cases accepted
      · cases accepted
        exact (List.append_nil _).symm
  | addConsuming i =>
      simp only [call, addConsuming] at accepted
      split at accepted
      · cases accepted
      · cases accepted
        exact (List.append_nil _).symm
  | setCompositeEventTemplate t =>
      cases accepted
      exact (List.append_nil _).symm
  | addTimeBasedNegation t cs r w =>
      exact (addNegation_parameters accepted).trans (List.append_nil _).symm
  | addNegationBetweenStates t cs i j now =>
      exact (addNegation_parameters accepted).trans (List.append_nil _).symm
  | addTimeBasedAggregate t cs r w n f =>
      exact (addAggregate_parameters accepted).trans (List.append_nil _).symm
  | addAggregateBetweenStates t cs i j now n f =>
      exact (addAggregate_parameters accepted).trans (List.append_nil _).symm
  | addComplexParameter o v l r =>
      exact (addComplexParameterWith_parameters accepted).trans (List.append_nil _).symm
  | addComplexParameterForNegation o v l r =>
      exact (addComplexParameterWith_parameters accepted).trans (List.append_nil _).symm
  | addComplexParameterForAggregate o v l r =>
      exact (addComplexParameterWith_parameters accepted).trans (List.append_nil _).symm

/-- The calls one after the other; a refused call changes nothing. -/
def calls (pkt : RulePkt) : List BuilderCall → RulePkt
  | [] => pkt
  | b :: rest => ((pkt.call b).getD pkt).calls rest

/-- The comparisons that the accepted calls ask for. -/
def comparisons (pkt : RulePkt) : List BuilderCall → List Comparison
  | [] => []
  | b :: rest =>
    match pkt.call b with
    | none => pkt.comparisons rest
    | some pkt' => b.comparison?.toList ++ pkt'.comparisons rest

/-- The places compared at the end of a computation of the rule. -/
def checkedSystem (pkt : RulePkt) : List (Place × Place) :=
  (StacksRule.new pkt).endStackParameters.map Parameter.checked

section Holding

variable {V : Type} {value : Place → Option V}

/-- A call adds its comparison with the names exchanged, whichever way the builder turns it. -/
theorem holds_checkedSystem_call {b : BuilderCall} (accepted : pkt.call b = some pkt') :
    Holds value pkt'.checkedSystem ↔
      Holds value pkt.checkedSystem ∧
        Holds value (b.comparison?.toList.map Comparison.crossed) := by
  simp only [checkedSystem, StacksRule.new, call_parameters accepted, List.filter_append,
    List.map_append, holds_append]
  apply and_congr_right
  intro _
  cases b with
  | addParameterBetweenStates id1 name1 id2 name2 =>
      by_cases lt : id1 < id2
      · simp [BuilderCall.parameter?, BuilderCall.comparison?, lt, Parameter.checked,
          Comparison.crossed]
      · simp [BuilderCall.parameter?, BuilderCall.comparison?, lt, Parameter.checked,
          Comparison.crossed, holds_singleton, Agree.comm]
  | _ => simp [BuilderCall.parameter?, BuilderCall.comparison?]

theorem holds_checkedSystem_calls (bs : List BuilderCall) :
    Holds value (pkt.calls bs).checkedSystem ↔
      Holds value pkt.checkedSystem ∧
        Holds value ((pkt.comparisons bs).map Comparison.crossed) := by
  induction bs generalizing pkt with
  | nil => simp [calls, comparisons, Holds]
  | cons b rest ih =>
      rw [calls, comparisons, ih]
      cases accepted : pkt.call b with
      | none => rfl
      | some pkt' =>
          rw [Option.getD_some, holds_checkedSystem_call accepted, List.map_append, holds_append,
            and_assoc]

end Holding

theorem comparisons_nonneg (bs : List BuilderCall) :
    ∀ c ∈ pkt.comparisons bs, 0 ≤ c.id1 ∧ 0 ≤ c.id2 := by
  induction bs generalizing pkt with
  | nil => simp [comparisons]
  | cons b rest ih =>
      intro c mem
      rw [comparisons] at mem
      cases accepted : pkt.call b with
      | none =>
          rw [accepted] at mem
          exact ih c mem
      | some pkt' =>
          rw [accepted] at mem
          rcases List.mem_append.mp mem with here | later
          · cases b with
            | addParameterBetweenStates id1 name1 id2 name2 =>
                have same := List.mem_singleton.mp here
                rw [same]
                exact (addParameterBetweenStates_eq_some accepted).2
            | _ => cases here
          · exact ih c later

end RulePkt

/-! ## Which partial results are kept -/

/-- Every state of the rule has an event. -/
def PartialEvent.Complete (r : StacksRule) (pe : PartialEvent) : Prop :=
  ∀ i < r.stacksNum, (pe.indexes i).isSome

/-- The partial results kept are those in which every comparison holds. -/
def KeepsNamed (r : StacksRule) (comparisons : List Comparison) : Prop :=
  ∀ partialEvents : List PartialEvent, (∀ pe ∈ partialEvents, pe.Complete r) →
    r.removePartialEventsNotMatchingParameters partialEvents =
      partialEvents.filter fun pe => comparisons.all fun c => c.holdsIn pe

theorem all_checkParameter_iff (pars : List Parameter) (pe : PartialEvent) :
    (pars.all fun par => checkParameter (pe.indexes par.evIndex2.toNat) pe par) = true ↔
      Holds pe.identityAt (pars.map Parameter.checked) := by
  simp only [List.all_eq_true, checkParameter_iff, Holds, List.forall_mem_map]

theorem all_holdsIn_iff (comparisons : List Comparison) (pe : PartialEvent) :
    (comparisons.all fun c => c.holdsIn pe) = true ↔
      Holds pe.identityAt (comparisons.map Comparison.named) := by
  simp only [List.all_eq_true, Comparison.holdsIn_iff, Holds, List.forall_mem_map]

theorem keepsNamed_iff_holds {r : StacksRule} {comparisons : List Comparison} :
    KeepsNamed r comparisons ↔ ∀ pe : PartialEvent, pe.Complete r →
      (Holds pe.identityAt (r.endStackParameters.map Parameter.checked) ↔
        Holds pe.identityAt (comparisons.map Comparison.named)) := by
  simp only [← all_checkParameter_iff, ← all_holdsIn_iff]
  constructor
  · intro keeps pe complete
    have alone := keeps [pe] (by simpa using complete)
    rw [StacksRule.removePartialEventsNotMatchingParameters, List.filter_singleton,
      List.filter_singleton] at alone
    grind
  · intro same partialEvents complete
    apply List.filter_congr
    intro pe mem
    exact Bool.eq_iff_iff.mpr (same pe (complete pe mem))

/-! ## Events with given attributes -/

/-- Each state has an event that carries the named attributes for which a value is given. -/
def PartialEvent.assigning (names : List CString) (value : Place → Option Bool) : PartialEvent :=
  ⟨fun i =>
    let attributes := names.filterMap fun name =>
      (value (i, name)).map fun b => { name, value := .bool b 0 }
    some ⟨i, ⟨0, 0, attributes, PubPkt.buildContentMap attributes⟩⟩⟩

theorem attributeIn_mapped {p : PubPktPtr}
    (mapped : p.pkt.contentMap = PubPkt.buildContentMap p.pkt.attributes) (name : CString) :
    attributeIn (some p) (some name) =
      (p.pkt.attributes.find? fun a => a.name == name).map Attribute.value := by
  simp only [attributeIn, Option.bind_some]
  rcases PubPkt.getAttributeIndexAndType_mapped mapped name with ⟨missing, lookup⟩ |
    ⟨i, a, found, there, lookup⟩
  · rw [missing, lookup]
    rfl
  · rw [found, lookup]
    simp only [Option.map_some, PubPkt.valueAt, there, Option.getD_some]

theorem find?_given {names : List CString} {given : CString → Option Bool} {name : CString}
    (mem : name ∈ names) :
    ((names.filterMap fun name => (given name).map fun b =>
      ({ name, value := .bool b 0 } : Attribute)).find? fun a => a.name == name) =
      (given name).map fun b => { name, value := .bool b 0 } := by
  induction names with
  | nil => cases mem
  | cons other rest ih =>
      rw [List.filterMap_cons]
      by_cases here : other = name
      · subst here
        cases defined : given other with
        | none =>
            simp only [Option.map_none, List.find?_eq_none]
            intro a inRest
            obtain ⟨n, -, made⟩ := List.mem_filterMap.mp inRest
            obtain ⟨b, known, rfl⟩ := Option.map_eq_some_iff.mp made
            intro same
            have isOther : n = other := eq_of_beq same
            rw [isOther, defined] at known
            cases known
        | some b => simp
      · have inRest : name ∈ rest := (List.mem_cons.mp mem).resolve_left (Ne.symm here)
        cases given other with
        | none => exact ih inRest
        | some b =>
            rw [Option.map_some, List.find?_cons_of_neg (by simpa using here)]
            exact ih inRest

theorem PartialEvent.identityAt_assigning {names : List CString} {value : Place → Option Bool}
    {place : Place} (nonneg : 0 ≤ place.1) (mem : place.2 ∈ names) :
    (PartialEvent.assigning names value).identityAt place = (value place).map .bool := by
  obtain ⟨id, name⟩ := place
  have back : ((id.toNat : Nat) : Int) = id := Int.toNat_of_nonneg nonneg
  simp only [identityAt, valueAt, assigning]
  rw [attributeIn_mapped rfl, back, find?_given mem]
  cases value (id, name) with
  | none => rfl
  | some b => rfl

theorem PartialEvent.assigning_complete (r : StacksRule) (names : List CString)
    (value : Place → Option Bool) : (PartialEvent.assigning names value).Complete r :=
  fun _ _ => rfl

/-- Events can be found for every valuation of the places that the comparisons name. -/
theorem exists_assigning (r : StacksRule) {comparisons : List Comparison}
    (nonneg : ∀ c ∈ comparisons, 0 ≤ c.id1 ∧ 0 ≤ c.id2) (value : Place → Option Bool) :
    ∃ pe : PartialEvent, pe.Complete r ∧
      (Holds pe.identityAt (comparisons.map Comparison.named) ↔
        Holds value (comparisons.map Comparison.named)) ∧
      (Holds pe.identityAt (comparisons.map Comparison.crossed) ↔
        Holds value (comparisons.map Comparison.crossed)) := by
  let names := comparisons.flatMap fun c => [c.name1, c.name2]
  have first : ∀ c ∈ comparisons, c.name1 ∈ names := fun c mem =>
    List.mem_flatMap.mpr ⟨c, mem, List.mem_cons_self⟩
  have second : ∀ c ∈ comparisons, c.name2 ∈ names := fun c mem =>
    List.mem_flatMap.mpr ⟨c, mem, List.mem_cons_of_mem _ List.mem_cons_self⟩
  have injective : Function.Injective Identity.bool := fun _ _ same => Identity.bool.inj same
  refine ⟨.assigning names value, PartialEvent.assigning_complete r names value, ?_, ?_⟩
  · rw [← holds_map injective]
    apply Holds.congr
    rw [List.forall_mem_map]
    intro c mem
    exact ⟨PartialEvent.identityAt_assigning (nonneg c mem).1 (first c mem),
      PartialEvent.identityAt_assigning (nonneg c mem).2 (second c mem)⟩
  · rw [← holds_map injective]
    apply Holds.congr
    rw [List.forall_mem_map]
    intro c mem
    exact ⟨PartialEvent.identityAt_assigning (nonneg c mem).1 (second c mem),
      PartialEvent.identityAt_assigning (nonneg c mem).2 (first c mem)⟩

/-! ## When the crossing goes unnoticed -/

section Rule

variable (resetCount : Bool) (lastId : Nat) (bs : List RulePkt.BuilderCall)

theorem holds_endStackParameters {V : Type} {value : Place → Option V} :
    Holds value
        ((StacksRule.new ((RulePkt.new resetCount lastId).1.calls bs)).endStackParameters.map
          Parameter.checked) ↔
      Holds value (((RulePkt.new resetCount lastId).1.comparisons bs).map Comparison.crossed) := by
  have none : Holds value (RulePkt.new resetCount lastId).1.checkedSystem := by
    intro e mem
    cases mem
  have all : Holds value ((RulePkt.new resetCount lastId).1.calls bs).checkedSystem ↔ _ :=
    RulePkt.holds_checkedSystem_calls bs
  exact all.trans (and_iff_right none)

/-- A rule keeps the partial results in which its comparisons hold exactly when its comparisons, as
a system of equations, say the same with the two names of each exchanged. -/
theorem keepsNamed_iff :
    KeepsNamed (StacksRule.new ((RulePkt.new resetCount lastId).1.calls bs))
      ((RulePkt.new resetCount lastId).1.comparisons bs) ↔
    Equivalent (((RulePkt.new resetCount lastId).1.comparisons bs).map Comparison.named)
      (((RulePkt.new resetCount lastId).1.comparisons bs).map Comparison.crossed) := by
  have nonneg : ∀ c ∈ (RulePkt.new resetCount lastId).1.comparisons bs, 0 ≤ c.id1 ∧ 0 ≤ c.id2 :=
    RulePkt.comparisons_nonneg bs
  rw [keepsNamed_iff_holds, equivalent_iff]
  simp only [holds_endStackParameters]
  constructor
  · intro same value
    obtain ⟨pe, complete, named, crossed⟩ := exists_assigning _ nonneg value
    exact named.symm.trans ((same pe complete).symm.trans crossed)
  · intro same pe _
    have equivalent := equivalent_iff.mpr same
    exact equivalent.holds_iff.symm

end Rule

/-- Comparing one name of two states, or two names of one state, is not affected. -/
theorem keepsNamed_of_same (resetCount : Bool) (lastId : Nat) (bs : List RulePkt.BuilderCall)
    (same : ∀ c ∈ (RulePkt.new resetCount lastId).1.comparisons bs,
      c.name1 = c.name2 ∨ c.id1 = c.id2) :
    KeepsNamed (StacksRule.new ((RulePkt.new resetCount lastId).1.calls bs))
      ((RulePkt.new resetCount lastId).1.comparisons bs) := by
  rw [keepsNamed_iff, equivalent_iff]
  intro value
  simp only [Holds, List.forall_mem_map]
  apply forall_congr'
  intro c
  apply imp_congr_right
  intro mem
  rcases same c mem with name | id
  · rw [Comparison.named, Comparison.crossed, name]
  · rw [Comparison.named, Comparison.crossed, id]
    exact Agree.comm

/-! ## Two states compared by different names -/

/-- The temperature `t` of the second event has to be the limit `l` that the first one carries. -/
def limitCalls : List RulePkt.BuilderCall :=
  [.addRootPredicate 1 [], .addPredicate 2 [] 0 10 .eachWithin,
    .addParameterBetweenStates 1 ['t'] 0 ['l'], .setCompositeEventTemplate ⟨3, [], []⟩]

/-- The first event has `l = 7`, the second one `t = 7`. -/
def atLimit : PartialEvent :=
  ⟨fun i => if i = 0 then some ⟨0, .new 1 [⟨['l'], .int 7⟩] 0⟩
    else some ⟨1, .new 2 [⟨['t'], .int 7⟩] 5⟩⟩

theorem limitCalls_not_keepsNamed :
    ¬ KeepsNamed (StacksRule.new ((RulePkt.new true 0).1.calls limitCalls))
      ((RulePkt.new true 0).1.comparisons limitCalls) := by
  intro keeps
  have complete : atLimit.Complete (StacksRule.new ((RulePkt.new true 0).1.calls limitCalls)) := by
    intro i _
    simp only [atLimit]
    split <;> rfl
  have alone := keeps [atLimit] (by simpa using complete)
  exact absurd (congrArg List.length alone) (by decide)

end TRex
