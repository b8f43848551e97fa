import TRex.Structures

/-!
# Rule packets

`Packets/RulePkt`: the definition of a composite event and the builder calls that assemble it. Every
builder call returns `none` where the source returns false and leaves the packet alone.
`RulePkt.Built` is the set of packets that some sequence of accepted builder calls produces, and
`RulePkt.Built.bounded` is what the builder's own checks guarantee of such a packet.

The GPU copies of the complex parameters are not read by the CPU engine and are left out.
-/

namespace TRex

/-- `EventPredicate`; `refersTo` is -1 for the root. -/
structure Predicate where
  eventType : Int
  constraints : List Constraint
  refersTo : Int
  win : Nat
  kind : CompKind
  deriving DecidableEq

structure RulePkt where
  ruleId : Nat
  predicates : List Predicate
  parameters : List Parameter
  negations : List Negation
  aggregates : List Aggregate
  /-- A set of predicate indexes. -/
  consuming : List Nat
  complexParameters : List CPUParameter
  ceTemplate : Option CompositeEventTemplate
  deriving DecidableEq

namespace RulePkt

/-! ## Construction and identifiers -/

/-- `RulePkt::RulePkt`: takes the next value of the global `lastId`, which is returned advanced. -/
def new (resetCount : Bool) (lastId : Nat) : RulePkt × Nat :=
  let lastId := if resetCount then 0 else lastId
  ({ ruleId := lastId, predicates := [], parameters := [], negations := [], aggregates := []
     consuming := [], complexParameters := [], ceTemplate := none }, lastId + 1)

/-! ## Trees -/

/-- The largest state index in a tree, -1 if there is none. -/
def findLastState : OpTree → Int
  | .leaf (.static _) _ => -1
  | .leaf (.rulePkt index type _) _ => if type = .agg ∨ type = .neg then -1 else index
  | .inner left right _ _ => max (findLastState left) (findLastState right)

/-- The largest index of a reference of the given kind, -1 if there is none: `findAggregate` and
`findNegation` differ only in the kind they look for. -/
def findReference (kind : StateType) : OpTree → Int
  | .leaf (.static _) _ => -1
  | .leaf (.rulePkt index type _) _ => if type = kind then index else -1
  | .inner left right _ _ => max (findReference kind left) (findReference kind right)

def findAggregate (tree : OpTree) : Int := findReference .agg tree

def findNegation (tree : OpTree) : Int := findReference .neg tree

/-! ## Builder calls -/

def addRootPredicate (pkt : RulePkt) (eventType : Int) (constraints : List Constraint) :
    Option RulePkt :=
  if pkt.predicates.length > 0 then none
  else some { pkt with predicates := pkt.predicates ++
    [{ eventType, constraints, refersTo := -1, win := 0, kind := .eachWithin }] }

/-- Only the upper bound of `refersTo` is checked. -/
def addPredicate (pkt : RulePkt) (eventType : Int) (constraints : List Constraint) (refersTo : Int)
    (win : Nat) (kind : CompKind) : Option RulePkt :=
  let numPredicates : Int := pkt.predicates.length
  if numPredicates ≤ 0 ∨ refersTo ≥ numPredicates then none
  else some { pkt with predicates := pkt.predicates ++
    [{ eventType, constraints, refersTo, win, kind }] }

def addNegation (pkt : RulePkt) (eventType : Int) (constraints : List Constraint) (lowerId : Int)
    (lowerTime : Nat) (upperId : Int) : Option RulePkt :=
  let numPredicates : Int := pkt.predicates.length
  if lowerId ≥ numPredicates then none
  else if upperId < 0 ∨ upperId ≥ numPredicates then none
  else if lowerId ≥ 0 ∧ lowerId ≤ upperId then none
  else some { pkt with negations := pkt.negations ++
    [{ eventType, constraints, lowerId, lowerTime, upperId }] }

def addTimeBasedNegation (pkt : RulePkt) (eventType : Int) (constraints : List Constraint)
    (referenceId : Int) (win : Nat) : Option RulePkt :=
  pkt.addNegation eventType constraints (-1) win referenceId

/-- The lower time of a negation between states is the time of the call, `now`; nothing reads it. -/
def addNegationBetweenStates (pkt : RulePkt) (eventType : Int) (constraints : List Constraint)
    (id1 id2 : Int) (now : Nat) : Option RulePkt :=
  let (id1, id2) := if id1 < id2 then (id2, id1) else (id1, id2)
  pkt.addNegation eventType constraints id1 now id2

def addAggregate (pkt : RulePkt) (eventType : Int) (constraints : List Constraint) (lowerId : Int)
    (lowerTime : Nat) (upperId : Int) (name : CString) (fun_ : AggregateFun) : Option RulePkt :=
  let numPredicates : Int := pkt.predicates.length
  if lowerId ≥ numPredicates then none
  else if upperId < 0 ∨ upperId ≥ numPredicates then none
  else if lowerId ≥ 0 ∧ lowerId ≤ upperId then none
  else some { pkt with aggregates := pkt.aggregates ++
    [{ eventType, constraints, lowerId, lowerTime, upperId, fun_, name }] }

def addTimeBasedAggregate (pkt : RulePkt) (eventType : Int) (constraints : List Constraint)
    (referenceId : Int) (win : Nat) (name : CString) (fun_ : AggregateFun) : Option RulePkt :=
  pkt.addAggregate eventType constraints (-1) win referenceId name fun_

def addAggregateBetweenStates (pkt : RulePkt) (eventType : Int) (constraints : List Constraint)
    (id1 id2 : Int) (now : Nat) (name : CString) (fun_ : AggregateFun) : Option RulePkt :=
  let (id1, id2) := if id1 < id2 then (id2, id1) else (id1, id2)
  pkt.addAggregate eventType constraints id1 now id2 name fun_

/-- The index pair of a call between states, larger index first. -/
theorem sorted_pair (id1 id2 : Int) :
    (if id1 < id2 then (id2, id1) else (id1, id2)) = (max id1 id2, min id1 id2) := by
  split
  · rw [max_eq_right (by omega), min_eq_left (by omega)]
  · rw [max_eq_left (by omega), min_eq_right (by omega)]

def addParameter (pkt : RulePkt) (index1 : Int) (name1 : CString) (index2 : Int) (name2 : CString)
    (type : StateType) : Option RulePkt :=
  if index1 < 0 ∨ index1 ≥ pkt.predicates.length then none
  else if index2 < 0 then none
  else if type = .state ∧ index2 ≥ pkt.predicates.length then none
  else if type = .agg ∧ index2 ≥ pkt.aggregates.length then none
  else if type = .neg ∧ index2 ≥ pkt.negations.length then none
  else some { pkt with parameters := pkt.parameters ++
    [{ evIndex1 := index1, name1, evIndex2 := index2, name2, type }] }

def addParameterBetweenStates (pkt : RulePkt) (id1 : Int) (name1 : CString) (id2 : Int)
    (name2 : CString) : Option RulePkt :=
  if id1 < id2 then pkt.addParameter id2 name2 id1 name1 .state
  else pkt.addParameter id1 name1 id2 name2 .state

def addParameterForNegation (pkt : RulePkt) (id : Int) (name : CString) (negId : Int)
    (negName : CString) : Option RulePkt :=
  pkt.addParameter id name negId negName .neg

def addParameterForAggregate (pkt : RulePkt) (id : Int) (name : CString) (aggId : Int)
    (aggName : CString) : Option RulePkt :=
  pkt.addParameter id name aggId aggName .agg

/-- The three `addComplexParameter` calls differ in the kind of parameter and in how they look for
the index that the parameter is stored under. -/
def addComplexParameterWith (pkt : RulePkt) (find : OpTree → Int) (type : StateType)
    (operation : Op) (vtype : ValType) (leftTree rightTree : OpTree) : Option RulePkt :=
  let lIndex := max (find leftTree) (find rightTree)
  if lIndex < 0 then none
  else some { pkt with complexParameters := pkt.complexParameters ++
    [{ operation, type, vtype, leftTree, rightTree, lastIndex := lIndex }] }

def addComplexParameter (pkt : RulePkt) :=
  pkt.addComplexParameterWith findLastState .state

def addComplexParameterForNegation (pkt : RulePkt) :=
  pkt.addComplexParameterWith findNegation .neg

def addComplexParameterForAggregate (pkt : RulePkt) :=
  pkt.addComplexParameterWith findAggregate .agg

def addConsuming (pkt : RulePkt) (eventIndex : Int) : Option RulePkt :=
  if eventIndex < 0 ∨ eventIndex ≥ pkt.predicates.length then none
  else some { pkt with consuming := pkt.consuming.insert eventIndex.toNat }

def setCompositeEventTemplate (pkt : RulePkt) (template : CompositeEventTemplate) : RulePkt :=
  { pkt with ceTemplate := some template }

/-! ## Windows along the reference links -/

/-- The loop of `getWinBetween`; `none` when `lowerId` is not met within the fuel. -/
def winBetweenLoop (pkt : RulePkt) (lowerId : Int) : Nat → Int → Nat → Option Nat
  | 0, _, _ => none
  | fuel + 1, currentIndex, timeBetween =>
    if currentIndex = lowerId then some timeBetween
    else match pkt.predicates[currentIndex.toNat]? with
      | some p => winBetweenLoop pkt lowerId fuel p.refersTo (timeBetween + p.win)
      | none => none

/-- `RulePkt::getWinBetween`: the windows on the links from `upperId` up to `lowerId`. -/
def getWinBetween (pkt : RulePkt) (lowerId upperId : Int) : Option Nat :=
  pkt.winBetweenLoop lowerId (pkt.predicates.length + 1) upperId 0

/-! ## What the builder guarantees -/

/-- One call of the public builder interface, with its arguments. -/
inductive BuilderCall
  | addRootPredicate (eventType : Int) (constraints : List Constraint)
  | addPredicate (eventType : Int) (constraints : List Constraint) (refersTo : Int) (win : Nat)
    (kind : CompKind)
  | addTimeBasedNegation (eventType : Int) (constraints : List Constraint) (referenceId : Int)
    (win : Nat)
  | addNegationBetweenStates (eventType : Int) (constraints : List Constraint) (id1 id2 : Int)
    (now : Nat)
  | addTimeBasedAggregate (eventType : Int) (constraints : List Constraint) (referenceId : Int)
    (win : Nat) (name : CString) (fun_ : AggregateFun)
  | addAggregateBetweenStates (eventType : Int) (constraints : List Constraint) (id1 id2 : Int)
    (now : Nat) (name : CString) (fun_ : AggregateFun)
  | addParameterBetweenStates (id1 : Int) (name1 : CString) (id2 : Int) (name2 : CString)
  | addParameterForNegation (id : Int) (name : CString) (negId : Int) (negName : CString)
  | addParameterForAggregate (id : Int) (name : CString) (aggId : Int) (aggName : CString)
  | addComplexParameter (operation : Op) (vtype : ValType) (leftTree rightTree : OpTree)
  | addComplexParameterForNegation (operation : Op) (vtype : ValType) (leftTree rightTree : OpTree)
  | addComplexParameterForAggregate (operation : Op) (vtype : ValType) (leftTree rightTree : OpTree)
  | addConsuming (eventIndex : Int)
  | setCompositeEventTemplate (template : CompositeEventTemplate)

def call (pkt : RulePkt) : BuilderCall → Option RulePkt
  | .addRootPredicate t cs => pkt.addRootPredicate t cs
  | .addPredicate t cs r w k => pkt.addPredicate t cs r w k
  | .addTimeBasedNegation t cs r w => pkt.addTimeBasedNegation t cs r w
  | .addNegationBetweenStates t cs i j now => pkt.addNegationBetweenStates t cs i j now
  | .addTimeBasedAggregate t cs r w n f => pkt.addTimeBasedAggregate t cs r w n f
  | .addAggregateBetweenStates t cs i j now n f => pkt.addAggregateBetweenStates t cs i j now n f
  | .addParameterBetweenStates i n j m => pkt.addParameterBetweenStates i n j m
  | .addParameterForNegation i n j m => pkt.addParameterForNegation i n j m
  | .addParameterForAggregate i n j m => pkt.addParameterForAggregate i n j m
  | .addComplexParameter o v l r => pkt.addComplexParameter o v l r
  | .addComplexParameterForNegation o v l r => pkt.addComplexParameterForNegation o v l r
  | .addComplexParameterForAggregate o v l r => pkt.addComplexParameterForAggregate o v l r
  | .addConsuming i => pkt.addConsuming i
  | .setCompositeEventTemplate t => some (pkt.setCompositeEventTemplate t)

/-- Packets that a sequence of builder calls produces, refused calls changing nothing. -/
inductive Built : RulePkt → Prop
  | new (resetCount : Bool) (lastId : Nat) : Built (RulePkt.new resetCount lastId).1
  | call {pkt pkt' : RulePkt} (b : BuilderCall) : Built pkt → pkt.call b = some pkt' → Built pkt'

/-- Bounds of a negation or an aggregate: the upper state exists, and a lower state, if any, exists
and comes after it. -/
def InBounds (numPredicates : Nat) (lowerId upperId : Int) : Prop :=
  0 ≤ upperId ∧ upperId < numPredicates ∧ lowerId < numPredicates ∧
    (0 ≤ lowerId → upperId < lowerId)

theorem InBounds.mono {n m : Nat} {lowerId upperId : Int} (le : n ≤ m)
    (bounds : InBounds n lowerId upperId) : InBounds m lowerId upperId := by
  obtain ⟨nonneg, upper, lower, ordered⟩ := bounds
  exact ⟨nonneg, by omega, by omega, ordered⟩

/-- What the checks of the builder establish. A predicate may still refer to a negative index. -/
structure Bounded (pkt : RulePkt) : Prop where
  negations : ∀ n ∈ pkt.negations, InBounds pkt.predicates.length n.lowerId n.upperId
  aggregates : ∀ a ∈ pkt.aggregates, InBounds pkt.predicates.length a.lowerId a.upperId
  refersTo : ∀ (i : Nat) (p : Predicate), pkt.predicates[i]? = some p →
    p.refersTo < (i : Int) ∨ i = 0
  root : ∀ p, pkt.predicates[0]? = some p → p.refersTo = -1
  consuming : ∀ i ∈ pkt.consuming, i < pkt.predicates.length

/-- Every state but the root refers to an earlier state. -/
def RefersBack (pkt : RulePkt) : Prop :=
  ∀ (i : Nat) (p : Predicate), pkt.predicates[i]? = some p → 1 ≤ i → 0 ≤ p.refersTo ∧ p.refersTo < i

/-- Appending the root, or a predicate that refers to an earlier one, keeps the bounds. -/
theorem Bounded.snocPredicate {pkt : RulePkt} {p : Predicate} (bounded : pkt.Bounded)
    (earlier : (pkt.predicates.length = 0 ∧ p.refersTo = -1) ∨
      (0 < pkt.predicates.length ∧ p.refersTo < (pkt.predicates.length : Int))) :
    Bounded { pkt with predicates := pkt.predicates ++ [p] } := by
  have grow : pkt.predicates.length ≤ (pkt.predicates ++ [p]).length := by simp
  refine ⟨fun n mem => (bounded.negations n mem).mono grow,
    fun a mem => (bounded.aggregates a mem).mono grow, ?_, ?_,
    fun i mem => Nat.lt_of_lt_of_le (bounded.consuming i mem) grow⟩
  · intro i q lookup
    rcases Nat.lt_trichotomy i pkt.predicates.length with lt | rfl | gt
    · rw [List.getElem?_append_left lt] at lookup
      exact bounded.refersTo i q lookup
    · rw [List.getElem?_concat_length, Option.some.injEq] at lookup
      rw [← lookup]
      rcases earlier with ⟨first, -⟩ | ⟨-, back⟩
      · exact .inr first
      · exact .inl back
    · rw [List.getElem?_eq_none (by simp; omega)] at lookup
      cases lookup
  · intro q lookup
    rcases earlier with ⟨first, root⟩ | ⟨nonempty, -⟩
    · rw [List.length_eq_zero_iff.mp first] at lookup
      cases lookup
      exact root
    · rw [List.getElem?_append_left nonempty] at lookup
      exact bounded.root q lookup

section Calls

variable {pkt pkt' : RulePkt} (bounded : pkt.Bounded)

include bounded

theorem Bounded.addNegation {eventType lowerId upperId : Int} {constraints : List Constraint}
    {lowerTime : Nat}
    (accepted : pkt.addNegation eventType constraints lowerId lowerTime upperId = some pkt') :
    pkt'.Bounded := by
  simp only [RulePkt.addNegation] at accepted
  split at accepted
  · cases accepted
  split at accepted
  · cases accepted
  split at accepted
  · cases accepted
  cases accepted
  refine ⟨?_, bounded.aggregates, bounded.refersTo, bounded.root, bounded.consuming⟩
  intro n mem
  rcases List.mem_append.mp mem with old | new
  · exact bounded.negations n old
  · rw [List.mem_singleton.mp new]
    refine ⟨?_, ?_, ?_, fun nonneg => ?_⟩ <;> simp only at * <;> omega

theorem Bounded.addAggregate {eventType lowerId upperId : Int} {constraints : List Constraint}
    {lowerTime : Nat} {name : CString} {fun_ : AggregateFun}
    (accepted :
      pkt.addAggregate eventType constraints lowerId lowerTime upperId name fun_ = some pkt') :
    pkt'.Bounded := by
  simp only [RulePkt.addAggregate] at accepted
  split at accepted
  · cases accepted
  split at accepted
  · cases accepted
  split at accepted
  · cases accepted
  cases accepted
  refine ⟨bounded.negations, ?_, bounded.refersTo, bounded.root, bounded.consuming⟩
  intro a mem
  rcases List.mem_append.mp mem with old | new
  · exact bounded.aggregates a old
  · rw [List.mem_singleton.mp new]
    refine ⟨?_, ?_, ?_, fun nonneg => ?_⟩ <;> simp only at * <;> omega

theorem Bounded.addParameter {index1 index2 : Int} {name1 name2 : CString} {type : StateType}
    (accepted : pkt.addParameter index1 name1 index2 name2 type = some pkt') : pkt'.Bounded := by
  simp only [RulePkt.addParameter] at accepted
  repeat (split at accepted; · cases accepted)
  cases accepted
  exact ⟨bounded.negations, bounded.aggregates, bounded.refersTo, bounded.root, bounded.consuming⟩

theorem Bounded.addComplexParameterWith {find : OpTree → Int} {type : StateType} {operation : Op}
    {vtype : ValType} {leftTree rightTree : OpTree}
    (accepted : pkt.addComplexParameterWith find type operation vtype leftTree rightTree =
      some pkt') : pkt'.Bounded := by
  simp only [RulePkt.addComplexParameterWith] at accepted
  split at accepted
  · cases accepted
  · cases accepted
    exact ⟨bounded.negations, bounded.aggregates, bounded.refersTo, bounded.root, bounded.consuming⟩

/-- Every accepted builder call keeps the bounds. -/
theorem Bounded.call {b : BuilderCall} (accepted : pkt.call b = some pkt') : pkt'.Bounded := by
  cases b with
  | addRootPredicate t cs =>
      simp only [RulePkt.call, RulePkt.addRootPredicate] at accepted
      split at accepted
      · cases accepted
      · cases accepted
        exact bounded.snocPredicate (.inl ⟨by omega, rfl⟩)
  | addPredicate t cs r w k =>
      simp only [RulePkt.call, RulePkt.addPredicate] at accepted
      split at accepted
      · cases accepted
      · cases accepted
        exact bounded.snocPredicate (.inr (by simp only; omega))
  | addTimeBasedNegation t cs r w => exact bounded.addNegation accepted
  | addNegationBetweenStates t cs i j now => exact bounded.addNegation accepted
  | addTimeBasedAggregate t cs r w n f => exact bounded.addAggregate accepted
  | addAggregateBetweenStates t cs i j now n f => exact bounded.addAggregate accepted
  | addParameterBetweenStates i n j m =>
      simp only [RulePkt.call, RulePkt.addParameterBetweenStates] at accepted
      split at accepted
      · exact bounded.addParameter accepted
      · exact bounded.addParameter accepted
  | addParameterForNegation i n j m => exact bounded.addParameter accepted
  | addParameterForAggregate i n j m => exact bounded.addParameter accepted
  | addComplexParameter o v l r => exact bounded.addComplexParameterWith accepted
  | addComplexParameterForNegation o v l r => exact bounded.addComplexParameterWith accepted
  | addComplexParameterForAggregate o v l r => exact bounded.addComplexParameterWith accepted
  | addConsuming eventIndex =>
      simp only [RulePkt.call, RulePkt.addConsuming] at accepted
      split at accepted
      · cases accepted
      · cases accepted
        refine ⟨bounded.negations, bounded.aggregates, bounded.refersTo, bounded.root, ?_⟩
        intro i mem
        rcases List.mem_insert_iff.mp mem with rfl | old
        · simp only; omega
        · exact bounded.consuming i old
  | setCompositeEventTemplate t =>
      cases accepted
      exact ⟨bounded.negations, bounded.aggregates, bounded.refersTo, bounded.root,
        bounded.consuming⟩

end Calls

/-- The builder's checks hold of every packet it produces. -/
theorem Built.bounded {pkt : RulePkt} (built : Built pkt) : pkt.Bounded := by
  induction built with
  | new resetCount lastId =>
      exact ⟨by simp [RulePkt.new], by simp [RulePkt.new], by simp [RulePkt.new],
        by simp [RulePkt.new], by simp [RulePkt.new]⟩
  | call b _ accepted ih => exact ih.call accepted

/-! ## An example -/

/-- Smoke, the last high temperature of the five minutes before it in the same area, and no rain
between the two; the temperature is consumed. -/
def fireRule : RulePkt :=
  { ruleId := 0
    predicates := [
      { eventType := 1, constraints := [], refersTo := -1, win := 0, kind := .eachWithin },
      { eventType := 2, constraints := [], refersTo := 0, win := 300, kind := .lastWithin }]
    parameters := []
    negations := [{ eventType := 3, constraints := [], lowerId := 1, lowerTime := 0, upperId := 0 }]
    aggregates := []
    consuming := [1]
    complexParameters := [
      { operation := .eq, type := .state, vtype := .int, lastIndex := 1
        leftTree := .leaf (.rulePkt 0 .state (some ['a'])) .int
        rightTree := .leaf (.rulePkt 1 .state (some ['a'])) .int }]
    ceTemplate := some ⟨4, [], []⟩ }

theorem fireRule_built : fireRule.Built :=
  .call (.setCompositeEventTemplate ⟨4, [], []⟩)
    (.call (.addConsuming 1)
      (.call (.addComplexParameter .eq .int (.leaf (.rulePkt 0 .state (some ['a'])) .int)
          (.leaf (.rulePkt 1 .state (some ['a'])) .int))
        (.call (.addNegationBetweenStates 3 [] 0 1 0)
          (.call (.addPredicate 2 [] 0 300 .lastWithin)
            (.call (.addRootPredicate 1 []) (.new true 0) rfl) rfl) rfl) rfl) rfl) rfl

theorem fireRule_refersBack : fireRule.RefersBack := by
  intro i p lookup pos
  have lt := (List.getElem?_eq_some_iff.mp lookup).1
  have one : i = 1 := by
    simp only [fireRule, List.length_cons, List.length_nil] at lt
    omega
  subst one
  cases lookup
  decide

end RulePkt

end TRex
