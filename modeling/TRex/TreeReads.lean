import TRex.ResultParameters

/-!
# What the evaluation of trees reads

While a rule computes, its trees are evaluated against partial results whose later slots are not
assigned yet, and a leaf takes its value from a slot, from the packet under test or from a constant.
The builder looks at the leaves of a tree only to find the index that a parameter is stored under.
`startComputationReads` lists what a computation reads, each read with the function that makes it,
and `runReads_safe` says which rules, and which packets for them, let a whole run read nothing but
assigned slots, the packets under test and values of the right types.
-/

namespace TRex

/-! ## Reads -/

/-- The function that reads a leaf: one of `compute*ValueForParameters`, called for a packet and the
element at `index` of a kind, or one of the event generator. -/
inductive Reader
  | parameter (pkt : PubPktPtr) (index : Int) (sType : StateType)
  | generator

inductive Reading
  /-- `indexes[index]` of a partial result. -/
  | slot (pe : PartialEvent) (index : Int)
  /-- The value reference of a node of a tree, for a value of a type. -/
  | leaf (reader : Reader) (pe : PartialEvent) (vtype : ValType) (value : Option OpValueReference)

/-- The slot is there and a packet has been assigned to it. -/
def PartialEvent.Assigned (pe : PartialEvent) (index : Int) : Prop :=
  0 ≤ index ∧ (pe.indexes index.toNat).isSome = true

/-- A constant string is no number and no Boolean, and the other way round. -/
def Value.Requested (vtype : ValType) (value : Value) : Prop :=
  value.type = .string ↔ vtype = .string

/-- What a parameter reads is there: a constant of the type, a named attribute of a state that has
been assigned or is under test, or one of the negation or the aggregate under test. -/
def OpValueReference.SafeForParameter (pkt : PubPktPtr) (pe : PartialEvent) (index : Int)
    (sType : StateType) (vtype : ValType) : OpValueReference → Prop
  | .static value => value.Requested vtype
  | .rulePkt refIndex type name =>
    name.isSome = true ∧
      match type with
      | .state => 0 ≤ refIndex ∧
        ((OpValueReference.rulePkt refIndex type name).source pkt pe index sType).isSome = true
      | .neg | .agg => type = sType ∧
        (OpValueReference.rulePkt refIndex type name).source pkt pe index sType = some pkt

/-- What the event generator reads is there. Booleans and strings are taken from the union of an
attribute without a look at its type. -/
def OpValueReference.SafeForGenerator (aggregatesNum : Nat) (pe : PartialEvent) (vtype : ValType) :
    OpValueReference → Prop
  | .static value => value.Requested vtype
  | .rulePkt refIndex type name =>
    match type with
    | .state => name.isSome = true ∧ pe.Assigned refIndex ∧
      (vtype = .bool ∨ vtype = .string →
        ∀ v ∈ attributeIn (pe.indexes refIndex.toNat) name, v.type = vtype)
    | .neg => False
    | .agg => 0 ≤ refIndex ∧ refIndex < aggregatesNum

/-- An inner node has no value reference. -/
def Reading.Safe (aggregatesNum : Nat) : Reading → Prop
  | .slot pe index => pe.Assigned index
  | .leaf _ _ _ none => False
  | .leaf (.parameter pkt index sType) pe vtype (some value) =>
    value.SafeForParameter pkt pe index sType vtype
  | .leaf .generator pe vtype (some value) => value.SafeForGenerator aggregatesNum pe vtype

/-! ## The functions -/

/-- What a loop reads that ends at the first element that passes a test. -/
def upToFirst {α : Type} (test : α → Bool) (reads : α → List Reading) : List α → List Reading
  | [] => []
  | x :: rest => reads x ++ if test x then [] else upToFirst test reads rest

/-- The leaves that a function for values of a type reads. All are read before their values are put
together; there is no operator on strings. -/
def OpTree.read (vtype : ValType) : OpTree → List OpValueReference
  | .leaf value _ => [value]
  | .inner left right _ _ => if vtype = .string then [] else left.refs ++ right.refs

/-- The event generator takes the root of a tree of strings for a leaf. -/
def OpTree.generatorNodes (vtype : ValType) : OpTree → List (Option OpValueReference)
  | .leaf value _ => [some value]
  | .inner left right _ _ =>
    if vtype = .string then [none] else (left.refs ++ right.refs).map some

def CPUParameter.read (parameter : CPUParameter) : List OpValueReference :=
  parameter.leftTree.read parameter.vtype ++ parameter.rightTree.read parameter.vtype

def checkComplexParameterReads (pkt : PubPktPtr) (pe : PartialEvent) (index : Int)
    (sType : StateType) (parameter : CPUParameter) : List Reading :=
  parameter.read.map fun value => .leaf (.parameter pkt index sType) pe parameter.vtype (some value)

def checkParametersReads (pkt : PubPktPtr) (pe : PartialEvent) (index : Int) (sType : StateType)
    (complexParameters : List CPUParameter) : List Reading :=
  upToFirst (fun parameter => !checkComplexParameter pkt pe index sType parameter)
    (checkComplexParameterReads pkt pe index sType) complexParameters

/-- The times between which the events of a negation or an aggregate lie. -/
def boundsReads (lowerId upperId : Int) (pe : PartialEvent) : List Reading :=
  .slot pe upperId :: if lowerId < 0 then [] else [.slot pe lowerId]

def computeAggregateReads (a : Aggregates) (index : Nat) (pe : PartialEvent) : List Reading :=
  match a.aggregates[index]? with
  | none => []
  | some agg =>
    boundsReads agg.lowerId agg.upperId pe ++
      match a.window index agg pe with
      | none => []
      | some pkts => pkts.flatMap fun pkt =>
        checkParametersReads pkt pe (-1) .agg (a.aggregateParameters index)

/-- There are no aggregates of Booleans and of strings. -/
def computeValueReads (a : Aggregates) (pe : PartialEvent) (tree : OpTree) : List Reading :=
  let vtype := tree.getValType
  (tree.generatorNodes vtype).flatMap fun value =>
    .leaf .generator pe vtype value ::
      match value with
      | some (.rulePkt index .agg _) =>
        if vtype = .int ∨ vtype = .float then computeAggregateReads a index.toNat pe else []
      | _ => []

def generateCompositeEventReads (ceTemplate : CompositeEventTemplate) (a : Aggregates)
    (pe : PartialEvent) : List Reading :=
  (ceTemplate.attributes.flatMap fun attr => computeValueReads a pe attr.2) ++ [.slot pe 0]

namespace StacksRule

variable (r : StacksRule)

def checkNegationReads (st : Stacks) (partialResult : PartialEvent) (negIndex : Nat) :
    List Reading :=
  match r.negations[negIndex]? with
  | none => []
  | some neg =>
    let column := st.negs negIndex
    if column.size = 0 then []
    else
      let (minTS, maxTS) := negationBounds neg partialResult
      boundsReads neg.lowerId neg.upperId partialResult ++
        match validRange column.received column.size minTS maxTS with
        | none => []
        | some range =>
          let parameters := r.negationComplexParameters negIndex
          upToFirst (fun tmpPkt => checkParameters tmpPkt partialResult negIndex .neg parameters)
            (fun tmpPkt => checkParametersReads tmpPkt partialResult negIndex .neg parameters)
            (slice column.received range)

/-- The negations that are linked to the state of the last assignment. -/
def linkedNegationsReads (st : Stacks) (index : Nat) (pe : PartialEvent) : List Reading :=
  upToFirst (fun neg => r.checkNegation st neg pe) (r.checkNegationReads st pe)
    (r.getLinkedNegations index)

def winLoopReads (st : Stacks) (index : Nat) (mode : CompKind) (partialEvent : PartialEvent) :
    List PubPktPtr → List Reading
  | [] => []
  | tmpPkt :: rest =>
    let parameters := r.branchStackComplexParameters index
    let usable := checkParameters tmpPkt partialEvent index .state parameters
    let newPartialEvent := partialEvent.set index tmpPkt
    let invalidatedByNegations :=
      (r.getLinkedNegations index).any fun neg => r.checkNegation st neg newPartialEvent
    checkParametersReads tmpPkt partialEvent index .state parameters ++
      (if usable then r.linkedNegationsReads st index newPartialEvent else []) ++
      if usable && !invalidatedByNegations && (mode = .lastWithin ∨ mode = .firstWithin) then []
      else winLoopReads st index mode partialEvent rest

def getWinEventsReads (st : Stacks) (index : Nat) (tsUp : Nat) (mode : CompKind)
    (partialEvent : PartialEvent) : List Reading :=
  let column := st.states index
  if column.size = 0 then []
  else
    let minTimeStamp := tsUp - r.getWindow index
    match validRange column.received column.size minTimeStamp tsUp with
    | none => []
    | some range =>
      let visited := if mode = .lastWithin then (slice column.received range).reverse
        else slice column.received range
      r.winLoopReads st index mode partialEvent visited

def extendReads (st : Stacks) (state : Nat) (prevEvents : List PartialEvent) : List Reading :=
  prevEvents.flatMap fun event =>
    .slot event (r.referenceState state) ::
      r.getWinEventsReads st state (event.timeOf (r.referenceState state)) (r.getKind state) event

def statesLoopReads (st : Stacks) : List Nat → List PartialEvent → List Reading
  | [], _ => []
  | state :: rest, prevEvents =>
    let currentEvents := r.extend st state prevEvents
    r.extendReads st state prevEvents ++
      if currentEvents.isEmpty then [] else statesLoopReads st rest currentEvents

def getPartialResultsReads (st : Stacks) (pkt : PubPktPtr) : List Reading :=
  let last := PartialEvent.empty.set 0 pkt
  r.linkedNegationsReads st 0 last ++
    if (r.getLinkedNegations 0).any fun neg => r.checkNegation st neg last then []
    else r.statesLoopReads st (List.range' 1 (r.stacksNum - 1)) [last]

def removePartialEventsReads (partialEvents : List PartialEvent) : List Reading :=
  partialEvents.flatMap fun pe =>
    upToFirst (fun par => !checkParameter (pe.indexes par.evIndex2.toNat) pe par)
      (fun par => [.slot pe par.evIndex2, .slot pe par.evIndex1]) r.endStackParameters

def createComplexEventsReads (st : Stacks) (partialEvents : List PartialEvent) : List Reading :=
  if r.compositeEventId ≥ 0 then []
  else partialEvents.flatMap fun pe =>
    generateCompositeEventReads r.ceTemplate (r.aggregatesOf st) pe

def startComputationReads (st : Stacks) (pkt : PubPktPtr) : List Reading :=
  let computation := r.startComputation st pkt
  let valid := r.removePartialEventsNotMatchingParameters computation.partialResults
  r.getPartialResultsReads computation.during pkt ++
    r.removePartialEventsReads computation.partialResults ++
    r.createComplexEventsReads computation.during valid

def callReads (st : Stacks) : Call → List Reading
  | .startComputation pkt => r.startComputationReads st pkt
  | _ => []

/-- What a run of calls reads. -/
def runReads : Stacks → List Call → List Reading
  | _, [] => []
  | st, c :: rest => r.callReads st c ++ runReads (r.step st c) rest

/-- What a run reads is there: every slot has been assigned in the partial result, every leaf of a
negation or an aggregate is read from the event under test, and no leaf lacks a name or a value of
the type. -/
def ReadsSafely (calls : List Call) : Prop :=
  ∀ reading ∈ r.runReads .initial calls, reading.Safe r.aggregates.length

end StacksRule

/-! ## Rules and packets that fit -/

/-- A constant of the type, or a named attribute of an element that may be named. -/
def OpValueReference.Readable (vtype : ValType) (mayName : Int → StateType → Prop) :
    OpValueReference → Prop
  | .static value => value.Requested vtype
  | .rulePkt index type name => name.isSome = true ∧ mayName index type

/-- A constant of the type, a named attribute of a state, or an aggregate. -/
def OpValueReference.Generates (vtype : ValType) : OpValueReference → Prop
  | .static value => value.Requested vtype
  | .rulePkt _ type name => type = .agg ∨ (type = .state ∧ name.isSome = true)

namespace RulePkt

variable (pkt : RulePkt)

/-- The attributes of the template, as far as they are computed. -/
def templateTrees : List OpTree :=
  match pkt.ceTemplate with
  | none => []
  | some template => template.attributes.map Prod.snd

/-- A state refers to one before it, and the trees name elements of the rule. -/
structure InRange : Prop where
  refersTo : pkt.RefersBack
  parameters : ∀ par ∈ pkt.complexParameters, ∀ ref ∈ par.refs, ref.NamesExisting pkt.size
  template : ∀ tree ∈ pkt.templateTrees, ∀ ref ∈ tree.refs, ref.NamesExisting pkt.size

/-- A number of the composite event is computed from the aggregate. -/
def Computes (index : Int) : Prop :=
  ∃ tree ∈ pkt.templateTrees, (tree.getValType = .int ∨ tree.getValType = .float) ∧
    ∃ name, OpValueReference.rulePkt index .agg name ∈ tree.refs

/-- The trees read only what there is when they are evaluated. A parameter that names the terminator
alone is never evaluated, nor are those of an aggregate that nothing is computed from. -/
structure ReadsSoundly : Prop where
  states : ∀ par ∈ pkt.complexParameters, par.type = .state → par.lastIndex ≠ 0 →
    ∀ ref ∈ par.read, ref.Readable par.vtype fun _ type => type = .state
  negations : ∀ par ∈ pkt.complexParameters, par.type = .neg → ∀ (k : Nat) (n : Negation),
    par.lastIndex = k → pkt.negations[k]? = some n → ∀ ref ∈ par.read,
      ref.Readable par.vtype fun index type =>
        type = .neg ∨ (type = .state ∧ index ≤ StacksRule.linkedState n)
  aggregates : ∀ par ∈ pkt.complexParameters, par.type = .agg → pkt.Computes par.lastIndex →
    ∀ ref ∈ par.read, ref.Readable par.vtype fun _ type => type ≠ .neg
  template : ∀ tree ∈ pkt.templateTrees, ∀ node ∈ tree.generatorNodes tree.getValType,
    ∃ ref, node = some ref ∧ ref.Generates tree.getValType

/-- The attributes that a Boolean or a string of the composite event is taken from have its type. -/
def Suits (i : Nat) (e : PubPktPtr) : Prop :=
  ∀ tree ∈ pkt.templateTrees, tree.getValType = .bool ∨ tree.getValType = .string →
    ∀ name, some (OpValueReference.rulePkt i .state name) ∈ tree.generatorNodes tree.getValType →
      ∀ v ∈ attributeIn (some e) name, v.type = tree.getValType

def SuitsCall : Call → Prop
  | .addToStack e i => pkt.Suits i e
  | .startComputation e => pkt.Suits 0 e
  | _ => True

end RulePkt

/-! ## Parts of lists -/

theorem mem_of_mem_upToFirst {α : Type} {test : α → Bool} {reads : α → List Reading} {xs : List α}
    {reading : Reading} (mem : reading ∈ upToFirst test reads xs) :
    ∃ x ∈ xs, reading ∈ reads x := by
  induction xs with
  | nil => cases mem
  | cons x rest ih =>
      rw [upToFirst] at mem
      rcases List.mem_append.mp mem with first | later
      · exact ⟨x, List.mem_cons_self, first⟩
      · split at later
        · cases later
        · obtain ⟨y, inRest, isRead⟩ := ih later
          exact ⟨y, List.mem_cons_of_mem x inRest, isRead⟩

theorem mem_refs_of_mem_read {vtype : ValType} {tree : OpTree} {ref : OpValueReference}
    (mem : ref ∈ tree.read vtype) : ref ∈ tree.refs := by
  cases tree with
  | leaf value valType => exact mem
  | inner left right op valType =>
      rw [OpTree.read] at mem
      split at mem
      · cases mem
      · exact mem

theorem CPUParameter.mem_refs_of_mem_read {par : CPUParameter} {ref : OpValueReference}
    (mem : ref ∈ par.read) : ref ∈ par.refs := by
  rcases List.mem_append.mp mem with left | right
  · exact List.mem_append_left _ (TRex.mem_refs_of_mem_read left)
  · exact List.mem_append_right _ (TRex.mem_refs_of_mem_read right)

theorem mem_refs_of_mem_generatorNodes {vtype : ValType} {tree : OpTree} {ref : OpValueReference}
    (mem : some ref ∈ tree.generatorNodes vtype) : ref ∈ tree.refs := by
  cases tree with
  | leaf value valType =>
      cases List.mem_singleton.mp mem
      exact List.mem_cons_self
  | inner left right op valType =>
      rw [OpTree.generatorNodes] at mem
      split at mem
      · cases List.mem_singleton.mp mem
      · obtain ⟨ref', inRefs, same⟩ := List.mem_map.mp mem
        cases same
        exact inRefs

theorem mem_of_mem_slice {column : List PubPktPtr} {range : Int × Int} {e : PubPktPtr}
    (mem : e ∈ slice column range) : e ∈ column :=
  List.mem_of_mem_drop (List.mem_of_mem_take mem)

/-! ## Partial results -/

/-- The slots up to `k` are assigned, each to a packet that fits. -/
def PartialEvent.FilledUpTo (fits : Nat → PubPktPtr → Prop) (k : Nat) (pe : PartialEvent) : Prop :=
  ∀ i ≤ k, ∃ e, pe.indexes i = some e ∧ fits i e

/-- The packets on the stacks of the states fit. -/
def Stacks.AllFit (fits : Nat → PubPktPtr → Prop) (st : Stacks) : Prop :=
  ∀ i, ∀ e ∈ (st.states i).received, fits i e

namespace PartialEvent

variable {fits : Nat → PubPktPtr → Prop} {pe : PartialEvent} {k : Nat}

theorem FilledUpTo.assigned (filled : pe.FilledUpTo fits k) {index : Int} (nonneg : 0 ≤ index)
    (le : index ≤ k) : pe.Assigned index := by
  obtain ⟨e, assigned, -⟩ := filled index.toNat (by omega)
  exact ⟨nonneg, Option.isSome_of_eq_some assigned⟩

theorem FilledUpTo.set (filled : pe.FilledUpTo fits k) {e : PubPktPtr} (new : fits (k + 1) e) :
    (pe.set (k + 1) e).FilledUpTo fits (k + 1) := by
  intro i le
  rcases Nat.lt_or_eq_of_le le with less | rfl
  · rw [PartialEvent.set_of_ne _ _ (by omega)]
    exact filled i (by omega)
  · exact ⟨e, PartialEvent.set_self _ _ _, new⟩

theorem filledUpTo_zero {e : PubPktPtr} (first : fits 0 e) :
    (PartialEvent.empty.set 0 e).FilledUpTo fits 0 := by
  intro i le
  cases Nat.le_zero.mp le
  exact ⟨e, PartialEvent.set_self _ _ _, first⟩

end PartialEvent

/-! ## Packets on the stacks -/

namespace Stacks

variable {fits : Nat → PubPktPtr → Prop} {st : Stacks}

theorem AllFit.update (allFit : st.AllFit fits) {i : Nat} {c : Column}
    (new : ∀ e ∈ c.received, fits i e) :
    Stacks.AllFit fits { st with states := Function.update st.states i c } := by
  intro j e mem
  simp only at mem
  rcases eq_or_ne j i with rfl | other
  · rw [Function.update_self] at mem
    exact new e mem
  · rw [Function.update_of_ne other] at mem
    exact allFit j e mem

theorem AllFit.pushTerminator (allFit : st.AllFit fits) {t : PubPktPtr} (first : fits 0 t) :
    (st.pushTerminator t).AllFit fits :=
  allFit.update (List.forall_mem_append.mpr ⟨allFit 0, List.forall_mem_singleton.mpr first⟩)

theorem AllFit.clearStacks (r : StacksRule) (allFit : st.AllFit fits) :
    (r.clearStacks st).AllFit fits := by
  intro i e mem
  rw [r.clearStacks_states] at mem
  exact allFit i e (r.mem_clearStates mem)

theorem AllFit.removeConsumedEvent (r : StacksRule) (allFit : st.AllFit fits)
    (partialEvents : List PartialEvent) : (r.removeConsumedEvent st partialEvents).AllFit fits :=
  fun i e mem => allFit i e (r.mem_removeConsumedEvent mem)

end Stacks

/-! ## What the search assigns -/

namespace StacksRule

variable {r : StacksRule} {fits : Nat → PubPktPtr → Prop} {st : Stacks} {pe pe' : PartialEvent}
  {i k : Nat} {mode : CompKind} {results : List PartialEvent}

theorem mem_winLoop {visited : List PubPktPtr}
    (mem : pe' ∈ r.winLoop st i mode pe visited results) :
    pe' ∈ results ∨ ∃ e ∈ visited, pe' = pe.set i e := by
  induction visited generalizing results with
  | nil => exact .inl mem
  | cons e rest ih =>
      have extended : pe' ∈ results ++ [pe.set i e] →
          pe' ∈ results ∨ ∃ e' ∈ e :: rest, pe' = pe.set i e' := by
        intro mem
        rcases List.mem_append.mp mem with old | new
        · exact .inl old
        · exact .inr ⟨e, List.mem_cons_self, List.mem_singleton.mp new⟩
      have later : (∃ e ∈ rest, pe' = pe.set i e) → ∃ e' ∈ e :: rest, pe' = pe.set i e' :=
        fun ⟨e', inRest, same⟩ => ⟨e', List.mem_cons_of_mem e inRest, same⟩
      rw [winLoop] at mem
      split at mem
      · split at mem
        · exact extended mem
        · rcases ih mem with old | new
          · exact extended old
          · exact .inr (later new)
      · exact (ih mem).imp_right later

theorem mem_visited {column : List PubPktPtr} {range : Int × Int} {e : PubPktPtr}
    (mem : e ∈ if mode = .lastWithin then (slice column range).reverse else slice column range) :
    e ∈ column := by
  split at mem
  · exact mem_of_mem_slice (List.mem_reverse.mp mem)
  · exact mem_of_mem_slice mem

theorem mem_getWinEvents {tsUp : Nat} (mem : pe' ∈ r.getWinEvents st results i tsUp mode pe) :
    pe' ∈ results ∨ ∃ e ∈ (st.states i).received, pe' = pe.set i e := by
  rw [getWinEvents] at mem
  simp only at mem
  split at mem
  · exact .inl mem
  split at mem
  · exact .inl mem
  · rcases mem_winLoop mem with old | ⟨e, inVisited, same⟩
    · exact .inl old
    · exact .inr ⟨e, mem_visited inVisited, same⟩

theorem mem_extend {prevEvents : List PartialEvent} (mem : pe' ∈ r.extend st i prevEvents) :
    ∃ pe ∈ prevEvents, ∃ e ∈ (st.states i).received, pe' = pe.set i e := by
  have loop : ∀ results, pe' ∈ prevEvents.foldl (fun currentEvents event =>
      r.getWinEvents st currentEvents i (event.timeOf (r.referenceState i)) (r.getKind i) event)
        results → pe' ∈ results ∨ ∃ pe ∈ prevEvents, ∃ e ∈ (st.states i).received,
          pe' = pe.set i e := by
    clear mem
    induction prevEvents with
    | nil => exact fun results mem => .inl mem
    | cons pe rest ih =>
        intro results mem
        rw [List.foldl_cons] at mem
        rcases ih _ mem with old | ⟨pe'', inRest, found⟩
        · rcases mem_getWinEvents old with older | found
          · exact .inl older
          · exact .inr ⟨pe, List.mem_cons_self, found⟩
        · exact .inr ⟨pe'', List.mem_cons_of_mem pe inRest, found⟩
  exact (loop [] mem).resolve_left List.not_mem_nil

theorem extend_filled (allFit : st.AllFit fits) {prevEvents : List PartialEvent}
    (filled : ∀ pe ∈ prevEvents, pe.FilledUpTo fits k) :
    ∀ pe ∈ r.extend st (k + 1) prevEvents, pe.FilledUpTo fits (k + 1) := by
  intro pe mem
  obtain ⟨front, inPrev, e, received, rfl⟩ := mem_extend mem
  exact (filled front inPrev).set (allFit (k + 1) e received)

theorem statesLoop_filled (allFit : st.AllFit fits) {m : Nat} {prevEvents : List PartialEvent}
    (filled : ∀ pe ∈ prevEvents, pe.FilledUpTo fits k) :
    ∀ pe ∈ r.statesLoop st (List.range' (k + 1) m) prevEvents, pe.FilledUpTo fits (k + m) := by
  induction m generalizing k prevEvents with
  | zero => exact filled
  | succ m ih =>
      rw [List.range'_succ, statesLoop]
      have next := extend_filled (r := r) allFit filled
      split
      case isTrue empty =>
        rw [List.isEmpty_iff.mp empty]
        exact List.forall_mem_nil _
      case isFalse =>
        have rest := ih next
        rwa [show k + 1 + m = k + (m + 1) by omega] at rest

theorem getPartialResults_filled (allFit : st.AllFit fits) {t : PubPktPtr} (first : fits 0 t) :
    ∀ pe ∈ r.getPartialResults st t, pe.FilledUpTo fits (r.stacksNum - 1) := by
  rw [getPartialResults]
  split
  · exact List.forall_mem_nil _
  · have loop := statesLoop_filled (r := r) (k := 0) (m := r.stacksNum - 1) allFit
      (List.forall_mem_singleton.mpr (PartialEvent.filledUpTo_zero first))
    rwa [Nat.zero_add, Nat.zero_add] at loop

end StacksRule

/-! ## Parameters -/

theorem RulePkt.Built.parametersExist {pkt : RulePkt} (built : pkt.Built) :
    pkt.ParametersExist := by
  induction built with
  | new resetCount lastId => exact List.forall_mem_nil _
  | call b _ accepted ih => exact ih.call accepted

section Rule

variable {pkt : RulePkt} {fits : Nat → PubPktPtr → Prop} {st : Stacks} {pe : PartialEvent}
  {i k n : Nat} {e : PubPktPtr} {reading : Reading}

theorem StacksRule.mem_parametersUnder {type : StateType} {index : Nat} {par : CPUParameter} :
    par ∈ parametersUnder pkt type index ↔
      par ∈ pkt.complexParameters ∧ par.type = type ∧ par.lastIndex = index := by
  simp only [parametersUnder, List.mem_filter, Bool.and_eq_true, decide_eq_true_eq]

theorem source_state {index : Int} {type : StateType} (other : type ≠ .state) (refIndex : Int)
    (name : Option CString) :
    (OpValueReference.rulePkt refIndex .state name).source e pe index type =
      pe.indexes refIndex.toNat := by
  simp [OpValueReference.source, other]

/-- A parameter is read by its leaves. -/
theorem exists_of_mem_checkParametersReads {index : Int} {type : StateType}
    {parameters : List CPUParameter}
    (mem : reading ∈ checkParametersReads e pe index type parameters) :
    ∃ par ∈ parameters, ∃ ref ∈ par.read,
      reading = .leaf (.parameter e index type) pe par.vtype (some ref) := by
  obtain ⟨par, inParameters, isRead⟩ := mem_of_mem_upToFirst mem
  obtain ⟨ref, inRead, rfl⟩ := List.mem_map.mp isRead
  exact ⟨par, inParameters, ref, inRead, rfl⟩

/-! ## Where reads come from -/

/-- The reads of a computation: slots that have been assigned, and the leaves of the parameters
under a state, a negation or an aggregate and those of the template, each with the slots that have
been assigned by then. The packets assigned fit their states, and the packets of negations and
aggregates are `listed`. -/
inductive Occurs (pkt : RulePkt) (fits : Nat → PubPktPtr → Prop) (listed : PubPktPtr → Prop) :
    Reading → Prop
  | slot {pe : PartialEvent} {k : Nat} {index : Int} (filled : pe.FilledUpTo fits k)
      (nonneg : 0 ≤ index) (le : index ≤ k) : Occurs pkt fits listed (.slot pe index)
  | state {pe : PartialEvent} {k : Nat} {e : PubPktPtr} {par : CPUParameter}
      {ref : OpValueReference} (filled : pe.FilledUpTo fits k) (fit : fits (k + 1) e)
      (inRule : par ∈ pkt.complexParameters) (isState : par.type = .state)
      (filed : par.lastIndex = (k + 1 : Nat)) (inRead : ref ∈ par.read) :
      Occurs pkt fits listed (.leaf (.parameter e (k + 1 : Nat) .state) pe par.vtype (some ref))
  | neg {pe : PartialEvent} {i negIndex : Nat} {neg : Negation} {e : PubPktPtr}
      {par : CPUParameter} {ref : OpValueReference} (filled : pe.FilledUpTo fits i)
      (linked : StacksRule.linkedState neg = i) (lookup : pkt.negations[negIndex]? = some neg)
      (isListed : listed e) (inRule : par ∈ pkt.complexParameters) (isNeg : par.type = .neg)
      (filed : par.lastIndex = negIndex) (inRead : ref ∈ par.read) :
      Occurs pkt fits listed (.leaf (.parameter e negIndex .neg) pe par.vtype (some ref))
  | agg {pe : PartialEvent} {aggIndex : Int} {e : PubPktPtr} {par : CPUParameter}
      {ref : OpValueReference} (filled : pe.FilledUpTo fits (pkt.predicates.length - 1))
      (computes : pkt.Computes aggIndex) (isListed : listed e)
      (inRule : par ∈ pkt.complexParameters) (isAgg : par.type = .agg)
      (filed : par.lastIndex = aggIndex.toNat) (inRead : ref ∈ par.read) :
      Occurs pkt fits listed (.leaf (.parameter e (-1) .agg) pe par.vtype (some ref))
  | template {pe : PartialEvent} {tree : OpTree} {node : Option OpValueReference}
      (filled : pe.FilledUpTo fits (pkt.predicates.length - 1))
      (inTemplate : tree ∈ pkt.templateTrees)
      (inTree : node ∈ tree.generatorNodes tree.getValType) :
      Occurs pkt fits listed (.leaf .generator pe tree.getValType node)

/-- What is on the stacks: packets that fit their states, and packets listed. -/
structure Stacks.Lists (pkt : RulePkt) (fits : Nat → PubPktPtr → Prop) (listed : PubPktPtr → Prop)
    (st : Stacks) : Prop where
  states : st.AllFit fits
  negs : ∀ i < pkt.negations.length, ∀ e ∈ (st.negs i).received, listed e
  aggs : ∀ i < pkt.aggregates.length, ∀ e ∈ (st.aggs i).received, listed e

variable {listed : PubPktPtr → Prop}

theorem PartialEvent.FilledUpTo.occurs_bounds (filled : pe.FilledUpTo fits k)
    {lowerId upperId : Int} (upper : 0 ≤ upperId ∧ upperId ≤ k) (lower : lowerId ≤ k)
    (mem : reading ∈ boundsReads lowerId upperId pe) : Occurs pkt fits listed reading := by
  rcases List.mem_cons.mp mem with rfl | mem
  · exact .slot filled upper.1 upper.2
  · split at mem
    · cases mem
    · cases List.mem_singleton.mp mem
      exact .slot filled (by omega) lower

section Search

variable (refersTo : pkt.RefersBack) (built : pkt.Built) (lists : st.Lists pkt fits listed)

include built lists in
theorem occurs_checkNegationReads {negIndex : Nat}
    (linked : negIndex ∈ (StacksRule.new pkt).getLinkedNegations i) (lt : i < pkt.predicates.length)
    (filled : pe.FilledUpTo fits i)
    (mem : reading ∈ (StacksRule.new pkt).checkNegationReads st pe negIndex) :
    Occurs pkt fits listed reading := by
  obtain ⟨neg, lookup, isLinked⟩ := (StacksRule.mem_new_getLinkedNegations lt).mp linked
  obtain ⟨upper, -, -, ordered⟩ := built.bounded.negations neg (List.mem_of_getElem? lookup)
  have below : neg.upperId ≤ i ∧ neg.lowerId ≤ i := by
    rw [StacksRule.linkedState] at isLinked
    split at isLinked <;> omega
  rw [StacksRule.checkNegationReads, StacksRule.new_negations, lookup] at mem
  simp only at mem
  split at mem
  · cases mem
  rcases List.mem_append.mp mem with bounds | tested
  · exact filled.occurs_bounds ⟨upper, below.1⟩ below.2 bounds
  split at tested
  · cases tested
  · obtain ⟨tmpPkt, inRange, isRead⟩ := mem_of_mem_upToFirst tested
    obtain ⟨par, under, ref, inRead, rfl⟩ := exists_of_mem_checkParametersReads isRead
    obtain ⟨inRule, isNeg, filed⟩ := StacksRule.mem_parametersUnder.mp under
    have less : negIndex < pkt.negations.length := (List.getElem?_eq_some_iff.mp lookup).1
    exact .neg filled isLinked lookup (lists.negs negIndex less tmpPkt (mem_of_mem_slice inRange))
      inRule isNeg filed inRead

include built lists in
theorem occurs_linkedNegationsReads (lt : i < pkt.predicates.length) (filled : pe.FilledUpTo fits i)
    (mem : reading ∈ (StacksRule.new pkt).linkedNegationsReads st i pe) :
    Occurs pkt fits listed reading := by
  obtain ⟨negIndex, linked, isRead⟩ := mem_of_mem_upToFirst mem
  exact occurs_checkNegationReads built lists linked lt filled isRead

include built lists in
theorem occurs_winLoopReads (lt : k + 1 < pkt.predicates.length)
    (filled : pe.FilledUpTo fits k) {mode : CompKind} {visited : List PubPktPtr}
    (fit : ∀ e ∈ visited, fits (k + 1) e)
    (mem : reading ∈ (StacksRule.new pkt).winLoopReads st (k + 1) mode pe visited) :
    Occurs pkt fits listed reading := by
  induction visited with
  | nil => cases mem
  | cons e rest ih =>
      rw [List.forall_mem_cons] at fit
      rw [StacksRule.winLoopReads] at mem
      rcases List.mem_append.mp mem with first | later
      · rcases List.mem_append.mp first with parameters | negations
        · obtain ⟨par, under, ref, inRead, rfl⟩ := exists_of_mem_checkParametersReads parameters
          obtain ⟨inRule, isState, filed⟩ := StacksRule.mem_parametersUnder.mp under
          exact .state filled fit.1 inRule isState filed inRead
        · split at negations
          · exact occurs_linkedNegationsReads built lists lt (filled.set fit.1) negations
          · cases negations
      · split at later
        · cases later
        · exact ih fit.2 later

include refersTo built lists

theorem occurs_extendReads (lt : k + 1 < pkt.predicates.length) {prevEvents : List PartialEvent}
    (filled : ∀ pe ∈ prevEvents, pe.FilledUpTo fits k)
    (mem : reading ∈ (StacksRule.new pkt).extendReads st (k + 1) prevEvents) :
    Occurs pkt fits listed reading := by
  obtain ⟨pe, inPrev, mem⟩ := List.mem_flatMap.mp mem
  have before := filled pe inPrev
  obtain ⟨p, lookup⟩ : ∃ p, pkt.predicates[k + 1]? = some p := ⟨_, List.getElem?_eq_getElem lt⟩
  obtain ⟨nonneg, less⟩ := refersTo (k + 1) p lookup (Nat.succ_pos k)
  rcases List.mem_cons.mp mem with rfl | mem
  · rw [StacksRule.new_referenceState lookup nonneg]
    exact .slot before nonneg (by omega)
  · rw [StacksRule.getWinEventsReads] at mem
    simp only at mem
    split at mem
    · cases mem
    split at mem
    · cases mem
    · exact occurs_winLoopReads built lists lt before
        (fun e visited => lists.states (k + 1) e (StacksRule.mem_visited visited)) mem

theorem occurs_statesLoopReads {m : Nat} (le : k + m + 1 ≤ pkt.predicates.length)
    {prevEvents : List PartialEvent} (filled : ∀ pe ∈ prevEvents, pe.FilledUpTo fits k)
    (mem : reading ∈
      (StacksRule.new pkt).statesLoopReads st (List.range' (k + 1) m) prevEvents) :
    Occurs pkt fits listed reading := by
  induction m generalizing k prevEvents with
  | zero => cases mem
  | succ m ih =>
      rw [List.range'_succ, StacksRule.statesLoopReads] at mem
      rcases List.mem_append.mp mem with first | later
      · exact occurs_extendReads refersTo built lists (by omega) filled first
      · split at later
        · cases later
        · exact ih (by omega) (StacksRule.extend_filled lists.states filled) later

theorem occurs_getPartialResultsReads {t : PubPktPtr} (first : fits 0 t)
    (mem : reading ∈ (StacksRule.new pkt).getPartialResultsReads st t) :
    Occurs pkt fits listed reading := by
  have start := PartialEvent.filledUpTo_zero first
  rw [StacksRule.getPartialResultsReads] at mem
  rcases Nat.eq_zero_or_pos pkt.predicates.length with none | some
  · have nothing : (StacksRule.new pkt).stacks = [] := by
      rw [← List.length_eq_zero_iff]
      exact StacksRule.new_stacksNum.trans none
    simp [StacksRule.linkedNegationsReads, StacksRule.getLinkedNegations, StacksRule.stacksNum,
      nothing, upToFirst, StacksRule.statesLoopReads] at mem
  · rcases List.mem_append.mp mem with negations | states
    · exact occurs_linkedNegationsReads built lists some start negations
    · split at states
      · cases states
      · rw [StacksRule.new_stacksNum] at states
        exact occurs_statesLoopReads refersTo built lists (by omega)
          (List.forall_mem_singleton.mpr start) states

end Search

section Generator

variable (built : pkt.Built) (lists : st.Lists pkt fits listed)

include built lists

theorem occurs_computeAggregateReads {index : Int} (computes : pkt.Computes index)
    (filled : pe.FilledUpTo fits (pkt.predicates.length - 1))
    (mem : reading ∈ computeAggregateReads ((StacksRule.new pkt).aggregatesOf st) index.toNat pe) :
    Occurs pkt fits listed reading := by
  rw [computeAggregateReads] at mem
  split at mem
  · cases mem
  case h_2 agg lookup =>
    obtain ⟨nonneg, lt, lower, -⟩ := built.bounded.aggregates agg (List.mem_of_getElem? lookup)
    rcases List.mem_append.mp mem with bounds | tested
    · exact filled.occurs_bounds ⟨nonneg, by omega⟩ (by omega) bounds
    split at tested
    · cases tested
    case h_2 pkts window =>
      obtain ⟨e, inWindow, isRead⟩ := List.mem_flatMap.mp tested
      obtain ⟨par, under, ref, inRead, rfl⟩ := exists_of_mem_checkParametersReads isRead
      obtain ⟨inRule, isAgg, filed⟩ := StacksRule.mem_parametersUnder.mp under
      have less : index.toNat < pkt.aggregates.length := (List.getElem?_eq_some_iff.mp lookup).1
      obtain ⟨range, -, rfl⟩ := Option.map_eq_some_iff.mp window
      exact .agg filled computes
        (lists.aggs index.toNat less e (mem_of_mem_slice inWindow)) inRule isAgg filed inRead

theorem occurs_computeValueReads {tree : OpTree} (inTemplate : tree ∈ pkt.templateTrees)
    (filled : pe.FilledUpTo fits (pkt.predicates.length - 1))
    (mem : reading ∈ computeValueReads ((StacksRule.new pkt).aggregatesOf st) pe tree) :
    Occurs pkt fits listed reading := by
  obtain ⟨node, inTree, mem⟩ := List.mem_flatMap.mp mem
  rcases List.mem_cons.mp mem with rfl | isRead
  · exact .template filled inTemplate inTree
  · split at isRead
    case h_2 => cases isRead
    case h_1 index name =>
      split at isRead
      case isFalse => cases isRead
      case isTrue number =>
        have computes : pkt.Computes index :=
          ⟨tree, inTemplate, number, name, mem_refs_of_mem_generatorNodes inTree⟩
        exact occurs_computeAggregateReads built lists computes filled isRead

theorem occurs_createComplexEventsReads {partialEvents : List PartialEvent}
    (filled : ∀ pe ∈ partialEvents, pe.FilledUpTo fits (pkt.predicates.length - 1))
    (mem : reading ∈ (StacksRule.new pkt).createComplexEventsReads st partialEvents) :
    Occurs pkt fits listed reading := by
  rw [StacksRule.createComplexEventsReads] at mem
  split at mem
  · cases mem
  obtain ⟨pe, inEvents, mem⟩ := List.mem_flatMap.mp mem
  rcases List.mem_append.mp mem with attributes | time
  · obtain ⟨attr, inTemplate, isRead⟩ := List.mem_flatMap.mp attributes
    have isTree : attr.2 ∈ pkt.templateTrees := by
      rw [RulePkt.templateTrees]
      cases isTemplate : pkt.ceTemplate with
      | none =>
          simp [StacksRule.new, isTemplate] at inTemplate
      | some template =>
          simp only [StacksRule.new, isTemplate, Option.getD_some] at inTemplate
          exact List.mem_map_of_mem inTemplate
    exact occurs_computeValueReads built lists isTree (filled pe inEvents) isRead
  · cases List.mem_singleton.mp time
    exact .slot (filled pe inEvents) le_rfl (by omega)

omit lists in
theorem occurs_removePartialEventsReads {partialEvents : List PartialEvent}
    (filled : ∀ pe ∈ partialEvents, pe.FilledUpTo fits (pkt.predicates.length - 1))
    (mem : reading ∈ (StacksRule.new pkt).removePartialEventsReads partialEvents) :
    Occurs pkt fits listed reading := by
  obtain ⟨pe, inEvents, mem⟩ := List.mem_flatMap.mp mem
  obtain ⟨par, stored, isRead⟩ := mem_of_mem_upToFirst mem
  obtain ⟨original, isParameter, rfl⟩ := List.mem_map.mp stored
  obtain ⟨inRule, isState⟩ := List.mem_filter.mp isParameter
  obtain ⟨⟨nonneg, lt⟩, nonneg', lt'⟩ := built.parametersExist original inRule
  rw [of_decide_eq_true isState] at lt'
  simp only [RulePkt.size] at lt lt'
  have first : original.evIndex1 ≤ (pkt.predicates.length - 1 : Nat) := by omega
  have second : original.evIndex2 ≤ (pkt.predicates.length - 1 : Nat) := by omega
  rcases List.mem_cons.mp isRead with rfl | isRead
  · exact .slot (filled pe inEvents) nonneg first
  · cases List.mem_singleton.mp isRead
    exact .slot (filled pe inEvents) nonneg' second

end Generator

/-- All reads of a computation, by the packets on the stacks that it searches. -/
theorem occurs_startComputationReads (refersTo : pkt.RefersBack) (built : pkt.Built) {t : PubPktPtr}
    (lists : ((StacksRule.new pkt).startComputation st t).during.Lists pkt fits listed)
    (first : fits 0 t) (mem : reading ∈ (StacksRule.new pkt).startComputationReads st t) :
    Occurs pkt fits listed reading := by
  have filled := StacksRule.getPartialResults_filled (r := StacksRule.new pkt) lists.states first
  rw [StacksRule.new_stacksNum] at filled
  rcases List.mem_append.mp mem with search | generated
  · rcases List.mem_append.mp search with search | removed
    · exact occurs_getPartialResultsReads refersTo built lists first search
    · exact occurs_removePartialEventsReads built filled removed
  · refine occurs_createComplexEventsReads built lists (fun pe inValid => ?_) generated
    exact filled pe (List.mem_of_mem_filter inValid)

/-! ## Computations -/

variable (inRange : pkt.InRange) (sound : pkt.ReadsSoundly)

include inRange sound

/-- The reads of a rule whose trees read soundly are safe. Parameters under a state read the states
before it and the packet under test; those of a negation the states up to the one that it is linked
to, and the event under test; those of an aggregate, and the template, all states. -/
theorem Occurs.safe (built : pkt.Built) (occurs : Occurs pkt pkt.Suits listed reading) :
    reading.Safe pkt.aggregates.length := by
  cases occurs with
  | slot filled nonneg le => exact filled.assigned nonneg le
  | @state pe k e par ref filled fit inRule isState filed inRead =>
      have readable := sound.states par inRule isState (by omega) ref inRead
      have inRefs := CPUParameter.mem_refs_of_mem_read inRead
      cases ref with
      | static value => exact readable
      | rulePkt index type name =>
          obtain ⟨named, rfl⟩ := readable
          have nonneg := (inRange.parameters par inRule _ inRefs).1
          have le := (built.lastIndex inRule isState).1 index name inRefs
          refine ⟨named, nonneg, ?_⟩
          by_cases current : index = (k + 1 : Nat)
          · simp [OpValueReference.source, current]
          · simp only [OpValueReference.source, current]
            exact (filled.assigned nonneg (by omega)).2
  | @neg pe i negIndex neg e par ref filled linked lookup isListed inRule isNeg filed inRead =>
      have readable := sound.negations par inRule isNeg negIndex neg filed lookup ref inRead
      have inRefs := CPUParameter.mem_refs_of_mem_read inRead
      cases ref with
      | static value => exact readable
      | rulePkt index type name =>
          obtain ⟨named, rfl | ⟨rfl, le⟩⟩ := readable
          · exact ⟨named, rfl, by simp [OpValueReference.source]⟩
          · have nonneg := (inRange.parameters par inRule _ inRefs).1
            refine ⟨named, nonneg, ?_⟩
            rw [source_state (by decide)]
            exact (filled.assigned nonneg (by omega)).2
  | @agg pe aggIndex e par ref filled computes isListed inRule isAgg filed inRead =>
      have nonneg : 0 ≤ aggIndex := by
        obtain ⟨tree, inTemplate, -, name, inTree⟩ := computes
        exact (inRange.template tree inTemplate _ inTree).1
      rw [Int.toNat_of_nonneg nonneg] at filed
      have readable := sound.aggregates par inRule isAgg (filed ▸ computes) ref inRead
      have inRefs := CPUParameter.mem_refs_of_mem_read inRead
      cases ref with
      | static value => exact readable
      | rulePkt index type name =>
          obtain ⟨named, noNegation⟩ := readable
          obtain ⟨nonneg, lt⟩ := inRange.parameters par inRule _ inRefs
          cases type with
          | neg => exact absurd rfl noNegation
          | agg => exact ⟨named, rfl, by simp [OpValueReference.source]⟩
          | state =>
              refine ⟨named, nonneg, ?_⟩
              simp only [RulePkt.size] at lt
              rw [source_state (by decide)]
              exact (filled.assigned nonneg (by omega)).2
  | @template pe tree node filled inTemplate inTree =>
      obtain ⟨ref, rfl, generates⟩ := sound.template tree inTemplate node inTree
      have named := inRange.template tree inTemplate ref (mem_refs_of_mem_generatorNodes inTree)
      cases ref with
      | static value => exact generates
      | rulePkt index type name =>
          rcases generates with rfl | ⟨rfl, isNamed⟩
          · exact named
          · obtain ⟨nonneg, lt⟩ := named
            simp only [RulePkt.size] at lt
            refine ⟨isNamed, filled.assigned nonneg (by omega), fun other => ?_⟩
            obtain ⟨e, assigned, suits⟩ := filled index.toNat (by omega)
            rw [assigned]
            refine suits tree inTemplate other name ?_
            rwa [Int.toNat_of_nonneg nonneg]

theorem startComputationReads_safe (built : pkt.Built) (allFit : st.AllFit pkt.Suits)
    {t : PubPktPtr} (first : pkt.Suits 0 t)
    (mem : reading ∈ (StacksRule.new pkt).startComputationReads st t) :
    reading.Safe pkt.aggregates.length := by
  have during : ((StacksRule.new pkt).startComputation st t).during.AllFit pkt.Suits :=
    (allFit.pushTerminator first).clearStacks _
  have lists : Stacks.Lists pkt pkt.Suits (fun _ => True)
      ((StacksRule.new pkt).startComputation st t).during :=
    ⟨during, fun _ _ _ _ => trivial, fun _ _ _ _ => trivial⟩
  exact (occurs_startComputationReads inRange.refersTo built lists first mem).safe inRange sound
    built

omit inRange sound in
/-- A call with a packet that suits leaves only packets on the stacks that do. -/
theorem allFit_step (r : StacksRule) (allFit : st.AllFit pkt.Suits) {c : Call}
    (suits : pkt.SuitsCall c) : (r.step st c).AllFit pkt.Suits := by
  cases c with
  | addToStack e i =>
      intro j e' mem
      rcases Stacks.mem_addToStack mem with old | ⟨rfl, rfl⟩
      · exact allFit j e' old
      · exact suits
  | addToNegationStack e i => exact allFit
  | addToAggregateStack e i => exact allFit
  | startComputation t =>
      have during : (r.startComputation st t).during.AllFit pkt.Suits :=
        (allFit.pushTerminator suits).clearStacks r
      exact (during.removeConsumedEvent r _).update (List.forall_mem_nil _)

/-- In every run of a rule whose trees read soundly, all packets suiting, only what is there is
read. -/
theorem runReads_safe (built : pkt.Built) {calls : List Call}
    (suits : ∀ c ∈ calls, pkt.SuitsCall c) : (StacksRule.new pkt).ReadsSafely calls := by
  have run : ∀ st : Stacks, st.AllFit pkt.Suits →
      ∀ reading ∈ (StacksRule.new pkt).runReads st calls, reading.Safe pkt.aggregates.length := by
    induction calls with
    | nil => exact fun _ _ => List.forall_mem_nil _
    | cons c rest ih =>
        rw [List.forall_mem_cons] at suits
        intro st allFit reading mem
        rcases List.mem_append.mp mem with now | later
        · cases c with
          | startComputation t =>
              exact startComputationReads_safe inRange sound built allFit suits.1 now
          | _ => cases now
        · exact ih suits.2 _ (allFit_step _ allFit suits.1) reading later
  exact run .initial fun i => List.forall_mem_nil _

end Rule

/-! ## Rain in the area of a state

Between the two states the area of either can be asked for; before the terminator, that of the
second one is not known yet. -/

namespace RulePkt

def rainInAreaOf (state : Int) : CPUParameter where
  operation := .eq
  type := .neg
  vtype := .int
  leftTree := .leaf (.rulePkt 0 .neg (some ['a'])) .int
  rightTree := .leaf (.rulePkt state .state (some ['a'])) .int
  lastIndex := 0

/-- No rain in the area of the temperature, between the temperature and the smoke. -/
def rainBetween : RulePkt :=
  { fireRule with
    complexParameters := fireRule.complexParameters ++ [rainInAreaOf 1]
    ceTemplate := some ⟨4, [(['a'], .leaf (.rulePkt 0 .state (some ['a'])) .int)], []⟩ }

/-- No rain there in the last hundred moments before the smoke. -/
def rainBefore : RulePkt :=
  { fireRule with
    negations :=
      [{ eventType := 3, constraints := [], lowerId := -1, lowerTime := 100, upperId := 0 }]
    consuming := []
    complexParameters := [rainInAreaOf 1] }

theorem rainBetween_built : rainBetween.Built :=
  .call (.setCompositeEventTemplate ⟨4, [(['a'], .leaf (.rulePkt 0 .state (some ['a'])) .int)], []⟩)
    (.call (.addComplexParameterForNegation .eq .int (rainInAreaOf 1).leftTree
      (rainInAreaOf 1).rightTree) fireRule_built rfl) rfl

theorem rainBefore_built : rainBefore.Built :=
  .call (.setCompositeEventTemplate ⟨4, [], []⟩)
    (.call (.addComplexParameterForNegation .eq .int (rainInAreaOf 1).leftTree
        (rainInAreaOf 1).rightTree)
      (.call (.addTimeBasedNegation 3 [] 0 100)
        (.call (.addPredicate 2 [] 0 300 .lastWithin)
          (.call (.addRootPredicate 1 []) (.new true 0) rfl) rfl) rfl) rfl) rfl

theorem rainBetween_inRange : rainBetween.InRange := by
  refine ⟨fireRule_refersBack, ?_, ?_⟩
  · simp [rainBetween, fireRule, rainInAreaOf, CPUParameter.refs, OpTree.refs,
      OpValueReference.NamesExisting, size]
  · simp [rainBetween, templateTrees, OpTree.refs, OpValueReference.NamesExisting, size, fireRule]

theorem rainBefore_inRange : rainBefore.InRange := by
  refine ⟨fireRule_refersBack, ?_, ?_⟩
  · simp [rainBefore, fireRule, rainInAreaOf, CPUParameter.refs, OpTree.refs,
      OpValueReference.NamesExisting, size]
  · simp [rainBefore, fireRule, templateTrees]

theorem rainBetween_readsSoundly : rainBetween.ReadsSoundly := by
  constructor
  · simp [rainBetween, fireRule, rainInAreaOf, CPUParameter.read, OpTree.read,
      OpValueReference.Readable]
  · intro par mem isNeg k n filed lookup
    have only : par = rainInAreaOf 1 := by
      simp only [rainBetween, fireRule, List.cons_append, List.nil_append, List.mem_cons,
        List.not_mem_nil, or_false] at mem
      rcases mem with rfl | rfl
      · cases isNeg
      · rfl
    subst only
    cases k with
    | succ k => cases filed
    | zero =>
        cases lookup
        simp [rainInAreaOf, CPUParameter.read, OpTree.read, OpValueReference.Readable,
          StacksRule.linkedState]
  · simp [rainBetween, fireRule, rainInAreaOf]
  · simp [rainBetween, templateTrees, OpTree.generatorNodes, OpValueReference.Generates]

end RulePkt

theorem rainBetween_reads_safe : (StacksRule.new RulePkt.rainBetween).ReadsSafely fireCalls := by
  refine runReads_safe RulePkt.rainBetween_inRange RulePkt.rainBetween_readsSoundly
    RulePkt.rainBetween_built ?_
  have numbers : ∀ tree ∈ RulePkt.rainBetween.templateTrees,
      ¬ (tree.getValType = .bool ∨ tree.getValType = .string) := by decide
  have suits : ∀ i e, RulePkt.rainBetween.Suits i e :=
    fun _ _ tree mem other => absurd other (numbers tree mem)
  intro c _
  cases c with
  | addToStack e i => exact suits i e
  | startComputation e => exact suits 0 e
  | _ => trivial

/-- The slot of the temperature is read before it is assigned. -/
theorem rainBefore_reads_unsafe : RulePkt.rainBefore.Built ∧ RulePkt.rainBefore.InRange ∧
    ¬ (StacksRule.new RulePkt.rainBefore).ReadsSafely
      [.addToNegationStack (reading 3 3 50) 0, .startComputation (reading 4 1 100)] := by
  refine ⟨RulePkt.rainBefore_built, RulePkt.rainBefore_inRange, fun all => ?_⟩
  have early := all (.leaf (.parameter (reading 3 3 50) 0 .neg)
    (PartialEvent.empty.set 0 (reading 4 1 100)) .int (some (.rulePkt 1 .state (some ['a']))))
    (List.mem_of_getElem? (i := 2) rfl)
  exact absurd early.2.2 (by decide)

end TRex
