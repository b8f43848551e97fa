import Mathlib.Data.List.Infix
import Mathlib.Data.Nat.Basic
import Mathlib.Logic.Function.Basic
import Mathlib.Order.BooleanAlgebra.Basic
import TRex.Lib.OrdMap
import TRex.Lib.Tally
import TRex.RulePkt

/-!
# The constraint index

`Engine/IndexingTable` and the indexes it is made of, `IntConstraintIndex`, `FloatConstraintIndex`,
`BoolConstraintIndex`, `StringConstraintIndex` and `NoConstraintIndex`. Predicates that carry one
constraint share one table constraint; a message looks up the table constraints its attributes
satisfy, and a predicate is reported when as many of them were found as it has constraints.

The four typed indexes are one definition, `ConstraintIndex`, with an `IndexKind` for what differs:
the value read, how stored constraints are compared with a new one, which ordered map an operator
goes to and how the maps are scanned. A table constraint is an object on the heap that the maps
point to; `alloc` gives the address of the next one. Only the order of addresses matters, and only
where `getConstraint` may find several objects. Sets of predicates are lists: nothing depends on the
order in which they are visited.
-/

namespace TRex

/-! ## Predicates and their reports -/

/-- `TablePred`; `addr` tells apart the objects that the table allocates. -/
structure TablePred where
  addr : Nat
  ruleId : Nat
  stateId : Nat
  constraintsNum : Nat
  stateType : StateType
  deriving DecidableEq

/-- `MatchingHandler`: for each rule, the ordered sets of its matching states, aggregates and
negations. -/
structure MatchingHandler where
  matchingStates : Nat → List Nat
  matchingAggregates : Nat → List Nat
  matchingNegations : Nat → List Nat

namespace MatchingHandler

def empty : MatchingHandler := ⟨fun _ => [], fun _ => [], fun _ => []⟩

/-- The part of the handler for one kind of elements. -/
def matching (mh : MatchingHandler) : StateType → Nat → List Nat
  | .state => mh.matchingStates
  | .agg => mh.matchingAggregates
  | .neg => mh.matchingNegations

/-- `AbstractConstraintIndex::addToMatchingHandler`. -/
def addToMatchingHandler (tp : TablePred) (mh : MatchingHandler) : MatchingHandler :=
  let add (sets : Nat → List Nat) : Nat → List Nat :=
    Function.update sets tp.ruleId (OrdSet.insert tp.stateId (sets tp.ruleId))
  match tp.stateType with
  | .state => { mh with matchingStates := add mh.matchingStates }
  | .agg => { mh with matchingAggregates := add mh.matchingAggregates }
  | .neg => { mh with matchingNegations := add mh.matchingNegations }

end MatchingHandler

/-- The counters of `processMessage` and the handler it fills. -/
abbrev Progress := (TablePred → Nat) × MatchingHandler

/-- One turn of the loop of `processConstraint`. -/
def countPredicate : Progress → TablePred → Progress :=
  Tally.hit TablePred.constraintsNum MatchingHandler.addToMatchingHandler

/-! ## One index -/

/-- `IntTableConstraint` and its siblings. -/
structure TableConstraint (V : Type) where
  name : CString
  op : Op
  val : V
  connectedPredicates : List TablePred

def TableConstraint.insertPredicate {V : Type} (itc : TableConstraint V) (predicate : TablePred) :
    TableConstraint V :=
  { itc with connectedPredicates := itc.connectedPredicates.insert predicate }

/-- The maps that an operators table may have. -/
inductive OpMap
  | eq | lt | gt | ne | le | ge | df | in_
  deriving DecidableEq

/-- What distinguishes the typed indexes. -/
structure IndexKind (V : Type) where
  type : ValType
  constraintVal : Constraint → V
  attributeVal : Attribute → V
  /-- The order of the keys of the maps. -/
  keyLt : V → V → Bool
  /-- `getConstraint` passes over a stored value (first) when given a new one (second). -/
  skips : V → V → Bool
  mapOf : Op → Option OpMap
  /-- The constraints that an attribute value is found to satisfy, as addresses. -/
  scan : V → (OpMap → List (V × Nat)) → List Nat

/-- The table constraints by address, and for each attribute name the maps from values to them. -/
structure ConstraintIndex (V : Type) where
  usedConstraints : List (Nat × TableConstraint V)
  indexes : CString → OpMap → List (V × Nat)

namespace ConstraintIndex

variable {V : Type} (kind : IndexKind V)

def empty : ConstraintIndex V := ⟨[], fun _ _ => []⟩

/-- The order of addresses. -/
def addrLt (a b : Nat) : Bool := decide (a < b)

/-- The first table constraint, in the order of addresses, that stands for the given constraint. -/
def getConstraint (idx : ConstraintIndex V) (c : Constraint) : Option Nat :=
  (idx.usedConstraints.find? fun (_, itc) =>
    itc.op = c.op && !kind.skips itc.val (kind.constraintVal c) && itc.name = c.name).map Prod.fst

def createConstraint (c : Constraint) : TableConstraint V :=
  { name := c.name, op := c.op, val := kind.constraintVal c, connectedPredicates := [] }

/-- `installConstraint(IntTableConstraint*)`: an operator without a map is only remembered. -/
def installTableConstraint (idx : ConstraintIndex V) (addr : Nat) (itc : TableConstraint V) :
    ConstraintIndex V :=
  { usedConstraints := OrdMap.insert addrLt addr itc idx.usedConstraints
    indexes := match kind.mapOf itc.op with
      | none => idx.indexes
      | some m => Function.update idx.indexes itc.name (Function.update (idx.indexes itc.name) m
        (OrdMap.insert kind.keyLt itc.val addr (idx.indexes itc.name m))) }

/-- `itc->connectedPredicates.insert(predicate)` for the object at `addr`. -/
def connect (idx : ConstraintIndex V) (addr : Nat) (predicate : TablePred) : ConstraintIndex V :=
  { idx with usedConstraints := idx.usedConstraints.map fun e =>
      (e.1, if e.1 = addr then e.2.insertPredicate predicate else e.2) }

/-- `installConstraint(Constraint&, TablePred*)`; `addr` is where a new table constraint would be
allocated. -/
def installConstraint (idx : ConstraintIndex V) (addr : Nat) (c : Constraint)
    (predicate : TablePred) : ConstraintIndex V :=
  match getConstraint kind idx c with
  | some itc => idx.connect itc predicate
  | none => (idx.installTableConstraint kind addr (createConstraint kind c)).connect addr predicate

/-- The predicates connected to the table constraint at an address. -/
def predicatesAt (idx : ConstraintIndex V) (addr : Nat) : List TablePred :=
  ((OrdMap.find? addrLt addr idx.usedConstraints).map TableConstraint.connectedPredicates).getD []

def processConstraint (idx : ConstraintIndex V) (s : Progress) (addr : Nat) : Progress :=
  (idx.predicatesAt addr).foldl countPredicate s

def processAttribute (idx : ConstraintIndex V) (s : Progress) (a : Attribute) : Progress :=
  if a.type = kind.type then
    (kind.scan (kind.attributeVal a) (idx.indexes a.name)).foldl idx.processConstraint s
  else s

def processMessage (idx : ConstraintIndex V) (pkt : PubPkt) (s : Progress) : Progress :=
  pkt.attributes.foldl (idx.processAttribute kind) s

end ConstraintIndex

/-! ## The four types -/

/-- The indexes for numbers differ in the type of number only. Maps of lower bounds are scanned from
the greatest value down, maps of upper bounds from the least value up. -/
def numericKind {V : Type} (type : ValType) (constraintVal : Constraint → V)
    (attributeVal : Attribute → V) (lt le eq : V → V → Bool) : IndexKind V where
  type
  constraintVal
  attributeVal
  keyLt := lt
  skips stored given := !eq stored given
  mapOf
    | .eq => some .eq
    | .lt => some .lt
    | .gt => some .gt
    | .le => some .le
    | .ge => some .ge
    | _ => some .ne
  scan val maps :=
    (OrdMap.find? lt val (maps .eq)).toList ++
    ((maps .lt).reverse.takeWhile fun e => !le e.1 val).map Prod.snd ++
    ((maps .le).reverse.takeWhile fun e => !lt e.1 val).map Prod.snd ++
    ((maps .gt).takeWhile fun e => !le val e.1).map Prod.snd ++
    ((maps .ge).takeWhile fun e => !lt val e.1).map Prod.snd ++
    ((maps .ne).filter fun e => !eq e.1 val).map Prod.snd

def IntConstraintIndex.kind : IndexKind Int :=
  numericKind .int Constraint.intVal (fun a => a.value.intVal) (fun a b => decide (a < b))
    (fun a b => decide (a ≤ b)) (fun a b => decide (a = b))

def FloatConstraintIndex.kind : IndexKind CFloat :=
  numericKind .float Constraint.floatVal (fun a => a.value.floatVal) CFloat.lt CFloat.le CFloat.eq

/-- Every operator but `EQ` goes to the map of different values. -/
def BoolConstraintIndex.kind : IndexKind Bool where
  type := .bool
  constraintVal := Constraint.boolVal
  attributeVal a := a.value.boolVal
  keyLt a b := decide (a < b)
  skips stored given := stored != given
  mapOf
    | .eq => some .eq
    | _ => some .df
  scan val maps :=
    (OrdMap.find? (fun a b => decide (a < b)) val (maps .eq)).toList ++
    (OrdMap.find? (fun a b => decide (a < b)) (!val) (maps .df)).toList

/-- `std::string::operator<`. -/
def CString.lt (s t : CString) : Bool := decide (s < t)

/-- `val.find(storedVal) != npos`. -/
def CString.contains (val storedVal : CString) : Bool := decide (storedVal <:+: val)

/-- `getConstraint` compares the values the other way round than its siblings: it passes over a
stored constraint with the same value. Operators other than `EQ` and `IN` have no map. -/
def StringConstraintIndex.kind : IndexKind CString where
  type := .string
  constraintVal := Constraint.stringVal
  attributeVal a := a.value.stringVal
  keyLt := CString.lt
  skips stored given := stored == given
  mapOf
    | .eq => some .eq
    | .in_ => some .in_
    | _ => none
  scan val maps :=
    (OrdMap.find? CString.lt val (maps .eq)).toList ++
    ((maps .in_).filter fun e => CString.contains val e.1).map Prod.snd

/-! ## The table -/

/-- A state, an aggregate or a negation of a rule, as the table sees it. -/
structure Element where
  stateType : StateType
  stateId : Nat
  eventType : Int
  constraints : List Constraint
  deriving DecidableEq

/-- The elements of a rule in the order of the three loops of `installRulePkt`. -/
def RulePkt.elements (pkt : RulePkt) : List Element :=
  (pkt.predicates.zipIdx.map fun (p, i) => ⟨.state, i, p.eventType, p.constraints⟩) ++
  (pkt.aggregates.zipIdx.map fun (a, i) => ⟨.agg, i, a.eventType, a.constraints⟩) ++
  (pkt.negations.zipIdx.map fun (n, i) => ⟨.neg, i, n.eventType, n.constraints⟩)

/-- The indexes of each event type; `usedPreds` and `usedConstraints` count the objects allocated.
-/
structure IndexingTable where
  intIndex : Int → ConstraintIndex Int
  floatIndex : Int → ConstraintIndex CFloat
  boolIndex : Int → ConstraintIndex Bool
  stringIndex : Int → ConstraintIndex CString
  noIndex : Int → List TablePred
  usedPreds : Nat
  usedConstraints : Nat

namespace IndexingTable

variable (alloc : Nat → Nat)

def empty : IndexingTable :=
  ⟨fun _ => .empty, fun _ => .empty, fun _ => .empty, fun _ => .empty, fun _ => [], 0, 0⟩

def installNoConstraint (t : IndexingTable) (eventType : Int) (tp : TablePred) : IndexingTable :=
  { t with noIndex := Function.update t.noIndex eventType ((t.noIndex eventType).insert tp) }

def installConstraint (eventType : Int) (tp : TablePred) (t : IndexingTable) (c : Constraint) :
    IndexingTable :=
  let addr := alloc t.usedConstraints
  let t := { t with usedConstraints := t.usedConstraints + 1 }
  match c.type with
  | .int =>
    let idx := (t.intIndex eventType).installConstraint IntConstraintIndex.kind addr c tp
    { t with intIndex := Function.update t.intIndex eventType idx }
  | .float =>
    let idx := (t.floatIndex eventType).installConstraint FloatConstraintIndex.kind addr c tp
    { t with floatIndex := Function.update t.floatIndex eventType idx }
  | .bool =>
    let idx := (t.boolIndex eventType).installConstraint BoolConstraintIndex.kind addr c tp
    { t with boolIndex := Function.update t.boolIndex eventType idx }
  | .string =>
    let idx := (t.stringIndex eventType).installConstraint StringConstraintIndex.kind addr c tp
    { t with stringIndex := Function.update t.stringIndex eventType idx }

def installTablePredicate (t : IndexingTable) (eventType : Int) (constraints : List Constraint)
    (tp : TablePred) : IndexingTable :=
  let t := if constraints.length = 0 then t.installNoConstraint eventType tp else t
  constraints.foldl (installConstraint alloc eventType tp) t

/-- The predicate allocated for an element. -/
def tablePred (addr ruleId : Nat) (e : Element) : TablePred :=
  { addr, ruleId, stateId := e.stateId, constraintsNum := e.constraints.length
    stateType := e.stateType }

def installElement (ruleId : Nat) (t : IndexingTable) (e : Element) : IndexingTable :=
  installTablePredicate alloc { t with usedPreds := t.usedPreds + 1 } e.eventType e.constraints
    (tablePred t.usedPreds ruleId e)

def installRulePkt (t : IndexingTable) (pkt : RulePkt) : IndexingTable :=
  pkt.elements.foldl (installElement alloc pkt.ruleId) t

/-- The table after a sequence of `installRulePkt` calls. -/
def installed (rules : List RulePkt) : IndexingTable :=
  rules.foldl (installRulePkt alloc) empty

/-- Fills the handler with the elements that match the message. -/
def processMessage (t : IndexingTable) (pkt : PubPkt) (mh : MatchingHandler) : MatchingHandler :=
  let eventType : Int := pkt.eventType
  let s : Progress := (fun _ => 0,
    (t.noIndex eventType).foldl (fun mh pred => mh.addToMatchingHandler pred) mh)
  let s := (t.intIndex eventType).processMessage IntConstraintIndex.kind pkt s
  let s := (t.floatIndex eventType).processMessage FloatConstraintIndex.kind pkt s
  let s := (t.boolIndex eventType).processMessage BoolConstraintIndex.kind pkt s
  let s := (t.stringIndex eventType).processMessage StringConstraintIndex.kind pkt s
  s.2

end IndexingTable

end TRex
