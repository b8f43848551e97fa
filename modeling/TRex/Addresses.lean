import TRex.StacksRule

/-!
# The addresses of packets

A detection sequence compares packets by address only where it erases the consumed ones. So if every
packet is moved to another address, no two of them to the same, all of `StacksRule` does the same
with the moved packets (`act_move`): each definition below has an equation for it, in the order of
`ColumnSearch`, `Parameters`, `CompositeEventGenerator` and `StacksRule`.
-/

namespace TRex

/-- The same packet at another address. -/
def PubPktPtr.move (f : Nat → Nat) (p : PubPktPtr) : PubPktPtr := ⟨f p.addr, p.pkt⟩

def PartialEvent.move (f : Nat → Nat) (pe : PartialEvent) : PartialEvent :=
  ⟨fun i => (pe.indexes i).map (PubPktPtr.move f)⟩

def Column.move (f : Nat → Nat) (c : Column) : Column :=
  ⟨c.size, c.received.map (PubPktPtr.move f)⟩

def Stacks.move (f : Nat → Nat) (st : Stacks) : Stacks :=
  ⟨fun i => (st.states i).move f, fun i => (st.negs i).move f, fun i => (st.aggs i).move f⟩

def Aggregates.move (f : Nat → Nat) (a : Aggregates) : Aggregates :=
  { a with receivedAggs := fun i => (a.receivedAggs i).map (PubPktPtr.move f) }

def Call.move (f : Nat → Nat) : Call → Call
  | .addToStack p i => .addToStack (p.move f) i
  | .addToNegationStack p i => .addToNegationStack (p.move f) i
  | .addToAggregateStack p i => .addToAggregateStack (p.move f) i
  | .startComputation p => .startComputation (p.move f)

section Move

variable (f : Nat → Nat)

@[simp] theorem pkt_move (p : PubPktPtr) : (p.move f).pkt = p.pkt := rfl

@[simp] theorem addr_move (p : PubPktPtr) : (p.move f).addr = f p.addr := rfl

@[simp] theorem getTimeStamp_move (p : PubPktPtr) : (p.move f).getTimeStamp = p.getTimeStamp := rfl

@[simp] theorem states_move (st : Stacks) (i : Nat) : (st.move f).states i = (st.states i).move f :=
  rfl

@[simp] theorem negs_move (st : Stacks) (i : Nat) : (st.move f).negs i = (st.negs i).move f := rfl

@[simp] theorem aggs_move (st : Stacks) (i : Nat) : (st.move f).aggs i = (st.aggs i).move f := rfl

@[simp] theorem size_move (c : Column) : (c.move f).size = c.size := rfl

@[simp] theorem received_move (c : Column) :
    (c.move f).received = c.received.map (PubPktPtr.move f) := rfl

@[simp] theorem indexes_move (pe : PartialEvent) (i : Nat) :
    (pe.move f).indexes i = (pe.indexes i).map (PubPktPtr.move f) := rfl

/-! ## Searches -/

@[simp] theorem timeAt_move (column : List PubPktPtr) (i : Nat) :
    timeAt (column.map (PubPktPtr.move f)) i = timeAt column i := by
  unfold timeAt
  rw [List.getElem?_map, Option.map_map]
  rfl

@[simp] theorem getFirstValidElement_move (column : List PubPktPtr) (size : Int) (minTS : Nat) :
    getFirstValidElement (column.map (PubPktPtr.move f)) size minTS =
      getFirstValidElement column size minTS := by
  simp only [getFirstValidElement, timeAt_move]

@[simp] theorem getLastValidElement_move (column : List PubPktPtr) (size : Int) (maxTS : Nat)
    (minIndex : Int) : getLastValidElement (column.map (PubPktPtr.move f)) size maxTS minIndex =
      getLastValidElement column size maxTS minIndex := by
  simp only [getLastValidElement, timeAt_move]

@[simp] theorem deleteInvalidElements_move (column : List PubPktPtr) (size : Int) (minTS : Nat) :
    deleteInvalidElements (column.map (PubPktPtr.move f)) size minTS =
      deleteInvalidElements column size minTS := by
  simp only [deleteInvalidElements, timeAt_move, getFirstValidElement_move]

@[simp] theorem validRange_move (column : List PubPktPtr) (size : Int) (minTS maxTS : Nat) :
    validRange (column.map (PubPktPtr.move f)) size minTS maxTS =
      validRange column size minTS maxTS := by
  simp only [validRange, timeAt_move, getFirstValidElement_move, getLastValidElement_move]

@[simp] theorem aggregateRange_move (column : List PubPktPtr) (size : Int) (minTS maxTS : Nat) :
    aggregateRange (column.map (PubPktPtr.move f)) size minTS maxTS =
      aggregateRange column size minTS maxTS := by
  simp only [aggregateRange, getFirstValidElement_move, getLastValidElement_move]

@[simp] theorem slice_move (column : List PubPktPtr) (range : Int × Int) :
    slice (column.map (PubPktPtr.move f)) range = (slice column range).map (PubPktPtr.move f) := by
  simp only [slice, List.map_drop, List.map_take]

/-! ## Parameters -/

@[simp] theorem empty_move : PartialEvent.empty.move f = PartialEvent.empty := rfl

theorem set_move (pe : PartialEvent) (i : Nat) (p : PubPktPtr) :
    (pe.set i p).move f = (pe.move f).set i (p.move f) := by
  ext1
  funext j
  by_cases here : j = i
  · simp [here]
  · simp [here]

@[simp] theorem timeOf_move (pe : PartialEvent) (i : Int) : (pe.move f).timeOf i = pe.timeOf i := by
  simp only [PartialEvent.timeOf, indexes_move, Option.map_map]
  rfl

@[simp] theorem attributeIn_move (cPkt : Option PubPktPtr) (name : Option CString) :
    attributeIn (cPkt.map (PubPktPtr.move f)) name = attributeIn cPkt name := by
  cases cPkt <;> rfl

@[simp] theorem source_move (ref : OpValueReference) (pkt : PubPktPtr) (pe : PartialEvent)
    (index : Int) (sType : StateType) :
    ref.source (pkt.move f) (pe.move f) index sType =
      (ref.source pkt pe index sType).map (PubPktPtr.move f) := by
  cases ref with
  | static value => rfl
  | rulePkt refIndex type name =>
      simp only [OpValueReference.source]
      split <;> rfl

section Trees

variable (pkt : PubPktPtr) (pe : PartialEvent) (index : Int) (sType : StateType)

@[simp] theorem computeIntValueForParameters_move (tree : OpTree) :
    computeIntValueForParameters (pkt.move f) (pe.move f) index sType tree =
      computeIntValueForParameters pkt pe index sType tree := by
  induction tree with
  | leaf ref valType =>
      cases ref with
      | static value => rfl
      | rulePkt refIndex type name =>
          simp only [computeIntValueForParameters, source_move, attributeIn_move]
  | inner left right op valType ihLeft ihRight =>
      simp only [computeIntValueForParameters, ihLeft, ihRight]

@[simp] theorem computeFloatValueForParameters_move (tree : OpTree) :
    computeFloatValueForParameters (pkt.move f) (pe.move f) index sType tree =
      computeFloatValueForParameters pkt pe index sType tree := by
  induction tree with
  | leaf ref valType =>
      cases ref with
      | static value => rfl
      | rulePkt refIndex type name =>
          simp only [computeFloatValueForParameters, source_move, attributeIn_move]
  | inner left right op valType ihLeft ihRight =>
      simp only [computeFloatValueForParameters, ihLeft, ihRight]

@[simp] theorem computeBoolValueForParameters_move (tree : OpTree) :
    computeBoolValueForParameters (pkt.move f) (pe.move f) index sType tree =
      computeBoolValueForParameters pkt pe index sType tree := by
  induction tree with
  | leaf ref valType =>
      cases ref with
      | static value => rfl
      | rulePkt refIndex type name =>
          simp only [computeBoolValueForParameters, source_move, attributeIn_move]
  | inner left right op valType ihLeft ihRight =>
      simp only [computeBoolValueForParameters, ihLeft, ihRight]

@[simp] theorem computeStringValueForParameters_move (tree : OpTree) :
    computeStringValueForParameters (pkt.move f) (pe.move f) index sType tree =
      computeStringValueForParameters pkt pe index sType tree := by
  cases tree with
  | leaf ref valType =>
      cases ref with
      | static value => rfl
      | rulePkt refIndex type name =>
          simp only [computeStringValueForParameters, source_move, attributeIn_move]
  | inner left right op valType => rfl

@[simp] theorem checkParameters_move (parameters : List CPUParameter) :
    checkParameters (pkt.move f) (pe.move f) index sType parameters =
      checkParameters pkt pe index sType parameters := by
  unfold checkParameters
  congr 1
  funext parameter
  simp only [checkComplexParameter, computeIntValueForParameters_move,
    computeFloatValueForParameters_move, computeBoolValueForParameters_move,
    computeStringValueForParameters_move]

@[simp] theorem checkParameter_move (cPkt : Option PubPktPtr) (parameter : Parameter) :
    checkParameter (cPkt.map (PubPktPtr.move f)) (pe.move f) parameter =
      checkParameter cPkt pe parameter := by
  simp only [checkParameter, indexes_move, attributeIn_move]

end Trees

/-! ## Composite events -/

@[simp] theorem AggregateAcc.step_move (name : CString) (acc : AggregateAcc) (p : PubPktPtr) :
    acc.step name (p.move f) = acc.step name p := by
  have sameValue : attributeIn (some (p.move f)) (some name) = attributeIn (some p) (some name) :=
    attributeIn_move f (some p) (some name)
  simp only [AggregateAcc.step, sameValue]

@[simp] theorem aggregateValue_move (agg : Aggregate) (pkts : List PubPktPtr) :
    aggregateValue agg (pkts.map (PubPktPtr.move f)) = aggregateValue agg pkts := by
  simp only [aggregateValue, List.foldl_map, AggregateAcc.step_move]

@[simp] theorem window_move (a : Aggregates) (index : Nat) (agg : Aggregate) (pe : PartialEvent) :
    (a.move f).window index agg (pe.move f) =
      (a.window index agg pe).map (List.map (PubPktPtr.move f)) := by
  simp only [Aggregates.window, Aggregates.bounds, Aggregates.move, timeOf_move,
    aggregateRange_move, Option.map_map]
  congr 1
  funext range
  exact slice_move f _ _

@[simp] theorem computeAggregate_move (a : Aggregates) (index : Nat) (pe : PartialEvent) :
    computeAggregate (a.move f) index (pe.move f) = computeAggregate a index pe := by
  have sameAggregates : (a.move f).aggregates = a.aggregates := rfl
  have sameParameters : (a.move f).aggregateParameters = a.aggregateParameters := rfl
  simp only [computeAggregate, sameAggregates, sameParameters, window_move]
  cases a.aggregates[index]? with
  | none => rfl
  | some agg =>
      dsimp only
      cases a.window index agg pe with
      | none => rfl
      | some pkts =>
          simp only [Option.map_some, List.filter_map, aggregateValue_move, Function.comp_def,
            checkParameters_move]

@[simp] theorem computeIntValue_move (a : Aggregates) (pe : PartialEvent) (tree : OpTree) :
    computeIntValue (a.move f) (pe.move f) tree = computeIntValue a pe tree := by
  induction tree with
  | leaf ref valType =>
      cases ref with
      | static value => rfl
      | rulePkt index type name =>
          simp only [computeIntValue, computeAggregate_move, indexes_move, attributeIn_move]
  | inner left right op valType ihLeft ihRight => simp only [computeIntValue, ihLeft, ihRight]

@[simp] theorem computeFloatValue_move (a : Aggregates) (pe : PartialEvent) (tree : OpTree) :
    computeFloatValue (a.move f) (pe.move f) tree = computeFloatValue a pe tree := by
  induction tree with
  | leaf ref valType =>
      cases ref with
      | static value => rfl
      | rulePkt index type name =>
          simp only [computeFloatValue, computeAggregate_move, indexes_move, attributeIn_move]
  | inner left right op valType ihLeft ihRight =>
      simp only [computeFloatValue, ihLeft, ihRight, computeIntValue_move]

@[simp] theorem computeBoolValue_move (pe : PartialEvent) (tree : OpTree) :
    computeBoolValue (pe.move f) tree = computeBoolValue pe tree := by
  induction tree with
  | leaf ref valType =>
      cases ref with
      | static value => rfl
      | rulePkt index type name => simp only [computeBoolValue, indexes_move, attributeIn_move]
  | inner left right op valType ihLeft ihRight => simp only [computeBoolValue, ihLeft, ihRight]

@[simp] theorem computeStringValue_move (pe : PartialEvent) (tree : OpTree) :
    computeStringValue (pe.move f) tree = computeStringValue pe tree := by
  cases tree with
  | leaf ref valType =>
      cases ref with
      | static value => rfl
      | rulePkt index type name => simp only [computeStringValue, indexes_move, attributeIn_move]
  | inner left right op valType => rfl

@[simp] theorem generateCompositeEvent_move (ceTemplate : CompositeEventTemplate) (a : Aggregates)
    (pe : PartialEvent) :
    generateCompositeEvent ceTemplate (a.move f) (pe.move f) =
      generateCompositeEvent ceTemplate a pe := by
  simp only [generateCompositeEvent, computeValue, computeIntValue_move, computeFloatValue_move,
    computeBoolValue_move, computeStringValue_move, timeOf_move]

/-! ## Columns -/

@[simp] theorem add_move (c : Column) (p : PubPktPtr) :
    (c.move f).add (p.move f) = (c.add p).move f := by
  simp only [Column.add, received_move, size_move, getTimeStamp_move, getFirstValidElement_move]
  split <;> simp [Column.move]

@[simp] theorem removeOld_move (c : Column) (minTS : Nat) :
    (c.move f).removeOld minTS = (c.removeOld minTS).move f := by
  simp only [Column.removeOld, received_move, size_move, deleteInvalidElements_move]
  split
  · rfl
  · split
    · rfl
    · simp [Column.move]

/-- Only here must no two packets be moved to the same address. -/
theorem erase_move (injective : Function.Injective f) (c : Column) (addresses : List Nat) :
    (c.move f).erase (addresses.map f) = (c.erase addresses).move f := by
  have contains : ∀ p : PubPktPtr,
      (addresses.map f).contains (p.move f).addr = addresses.contains p.addr := by
    intro p
    rw [Bool.eq_iff_iff, List.contains_iff_mem, List.contains_iff_mem, addr_move,
      List.mem_map_of_injective injective]
  unfold Column.erase Column.move
  simp only [List.countP_map, List.filter_map]
  congr 2
  · congr 1
    apply List.countP_congr
    intro p _
    exact Bool.eq_iff_iff.mp (contains p)
  · congr 1
    funext p
    exact congrArg (! ·) (contains p)

theorem update_move (columns : Nat → Column) (i : Nat) (c : Column) :
    (fun j => (Function.update columns i c j).move f) =
      Function.update (fun j => (columns j).move f) i (c.move f) := by
  funext j
  by_cases here : j = i
  · simp [here]
  · simp [here]

@[simp] theorem initial_move : Stacks.initial.move f = Stacks.initial := rfl

section Stacks

variable (st : Stacks) (p : PubPktPtr) (i : Nat) (c : Column)

@[simp] theorem updateStates_move :
    { st.move f with states := Function.update (st.move f).states i (c.move f) } =
      Stacks.move f { st with states := Function.update st.states i c } := by
  simp only [Stacks.move, update_move]

@[simp] theorem updateNegs_move :
    { st.move f with negs := Function.update (st.move f).negs i (c.move f) } =
      Stacks.move f { st with negs := Function.update st.negs i c } := by
  simp only [Stacks.move, update_move]

@[simp] theorem updateAggs_move :
    { st.move f with aggs := Function.update (st.move f).aggs i (c.move f) } =
      Stacks.move f { st with aggs := Function.update st.aggs i c } := by
  simp only [Stacks.move, update_move]

@[simp] theorem addToStack_move :
    (st.move f).addToStack (p.move f) i = (st.addToStack p i).move f := by
  simp only [Stacks.addToStack, states_move, add_move, updateStates_move]

@[simp] theorem addToNegationStack_move :
    (st.move f).addToNegationStack (p.move f) i = (st.addToNegationStack p i).move f := by
  simp only [Stacks.addToNegationStack, negs_move, add_move, updateNegs_move]

@[simp] theorem addToAggregateStack_move :
    (st.move f).addToAggregateStack (p.move f) i = (st.addToAggregateStack p i).move f := by
  simp only [Stacks.addToAggregateStack, aggs_move, add_move, updateAggs_move]

@[simp] theorem pushTerminator_move :
    (st.move f).pushTerminator (p.move f) = (st.pushTerminator p).move f := by
  have column : (⟨1, ((st.move f).states 0).received ++ [p.move f]⟩ : Column) =
      (⟨1, (st.states 0).received ++ [p]⟩ : Column).move f := by
    simp [Column.move]
  simp only [Stacks.pushTerminator, column, updateStates_move]

@[simp] theorem popTerminator_move :
    (st.move f).popTerminator = st.popTerminator.move f :=
  updateStates_move f st 0 ⟨0, []⟩

end Stacks

/-! ## Computations -/

namespace StacksRule

variable (r : StacksRule) (st : Stacks) (pe : PartialEvent)

@[simp] theorem clearState_move (i : Nat) :
    r.clearState (st.move f) i = (r.clearState st i).move f := by
  simp only [clearState, states_move, size_move, received_move, timeAt_move, removeOld_move,
    updateStates_move]
  split <;> rfl

@[simp] theorem clearNegation_move (k : Nat) :
    r.clearNegation (st.move f) k = (r.clearNegation st k).move f := by
  unfold clearNegation
  split
  · rfl
  · simp only [states_move, negs_move, size_move, received_move, timeAt_move, removeOld_move,
      updateNegs_move]
    split <;> rfl

@[simp] theorem clearAggregate_move (k : Nat) :
    r.clearAggregate (st.move f) k = (r.clearAggregate st k).move f := by
  unfold clearAggregate
  split
  · rfl
  · simp only [states_move, aggs_move, size_move, received_move, timeAt_move, removeOld_move,
      updateAggs_move]
    split <;> rfl

/-- A loop each of whose turns commutes with moving. -/
theorem foldl_move {α : Type} {turn turn' : Stacks → α → Stacks}
    (commutes : ∀ st i, turn' (st.move f) i = (turn st i).move f) (indexes : List α) (st : Stacks) :
    indexes.foldl turn' (st.move f) = (indexes.foldl turn st).move f := by
  induction indexes generalizing st with
  | nil => rfl
  | cons i rest ih => rw [List.foldl_cons, List.foldl_cons, commutes, ih]

@[simp] theorem clearStacks_move : r.clearStacks (st.move f) = (r.clearStacks st).move f := by
  simp only [clearStacks, clearStates, clearNegations, clearAggregates,
    foldl_move f fun st i => clearState_move f r st i,
    foldl_move f fun st i => clearNegation_move f r st i,
    foldl_move f fun st i => clearAggregate_move f r st i]

@[simp] theorem checkNegation_move (k : Nat) :
    r.checkNegation (st.move f) k (pe.move f) = r.checkNegation st k pe := by
  unfold checkNegation
  split
  · rfl
  · simp only [negs_move, size_move, received_move, negationBounds, timeOf_move, validRange_move,
      slice_move, List.any_map, Function.comp_def, checkParameters_move]

theorem winLoop_move (index : Nat) (mode : CompKind) (visited : List PubPktPtr)
    (results : List PartialEvent) :
    r.winLoop (st.move f) index mode (pe.move f) (visited.map (PubPktPtr.move f))
        (results.map (PartialEvent.move f)) =
      (r.winLoop st index mode pe visited results).map (PartialEvent.move f) := by
  induction visited generalizing results with
  | nil => rfl
  | cons p rest ih =>
      have snoc : results.map (PartialEvent.move f) ++ [(pe.set index p).move f] =
          (results ++ [pe.set index p]).map (PartialEvent.move f) := by
        rw [List.map_append, List.map_singleton]
      simp only [List.map_cons, winLoop, checkParameters_move, ← set_move, checkNegation_move, snoc,
        ih]
      split
      · split <;> rfl
      · rfl

theorem getWinEvents_move (results : List PartialEvent) (index tsUp : Nat) (mode : CompKind) :
    r.getWinEvents (st.move f) (results.map (PartialEvent.move f)) index tsUp mode (pe.move f) =
      (r.getWinEvents st results index tsUp mode pe).map (PartialEvent.move f) := by
  unfold getWinEvents
  simp only [states_move, size_move, received_move, validRange_move]
  split
  · rfl
  · split
    · rfl
    · simp only [slice_move, ← List.map_reverse, ← apply_ite (List.map (PubPktPtr.move f)),
        winLoop_move]

theorem extend_move (state : Nat) (prevEvents : List PartialEvent) :
    r.extend (st.move f) state (prevEvents.map (PartialEvent.move f)) =
      (r.extend st state prevEvents).map (PartialEvent.move f) := by
  have general : ∀ events results : List PartialEvent,
      (events.map (PartialEvent.move f)).foldl (fun currentEvents event =>
        r.getWinEvents (st.move f) currentEvents state (event.timeOf (r.referenceState state))
          (r.getKind state) event) (results.map (PartialEvent.move f)) =
      (events.foldl (fun currentEvents event =>
        r.getWinEvents st currentEvents state (event.timeOf (r.referenceState state))
          (r.getKind state) event) results).map (PartialEvent.move f) := by
    intro events
    induction events with
    | nil => exact fun results => rfl
    | cons event rest ih =>
        intro results
        rw [List.map_cons, List.foldl_cons, List.foldl_cons, timeOf_move, getWinEvents_move, ih]
  exact general prevEvents []

theorem statesLoop_move (states : List Nat) (prevEvents : List PartialEvent) :
    r.statesLoop (st.move f) states (prevEvents.map (PartialEvent.move f)) =
      (r.statesLoop st states prevEvents).map (PartialEvent.move f) := by
  induction states generalizing prevEvents with
  | nil => rfl
  | cons state rest ih =>
      simp only [statesLoop, extend_move, List.isEmpty_map, ih]
      split <;> rfl

@[simp] theorem getPartialResults_move (p : PubPktPtr) :
    r.getPartialResults (st.move f) (p.move f) =
      (r.getPartialResults st p).map (PartialEvent.move f) := by
  have last : PartialEvent.empty.set 0 (p.move f) = (PartialEvent.empty.set 0 p).move f :=
    (set_move f .empty 0 p).symm
  simp only [getPartialResults, last, checkNegation_move]
  split
  · rfl
  · exact statesLoop_move f r st _ [PartialEvent.empty.set 0 p]

@[simp] theorem removePartialEventsNotMatchingParameters_move (partialEvents : List PartialEvent) :
    r.removePartialEventsNotMatchingParameters (partialEvents.map (PartialEvent.move f)) =
      (r.removePartialEventsNotMatchingParameters partialEvents).map (PartialEvent.move f) := by
  simp only [removePartialEventsNotMatchingParameters, List.filter_map, Function.comp_def,
    indexes_move, checkParameter_move]

@[simp] theorem createComplexEvents_move (partialEvents : List PartialEvent) :
    r.createComplexEvents (st.move f) (partialEvents.map (PartialEvent.move f)) =
      r.createComplexEvents st partialEvents := by
  have sameAggregates : r.aggregatesOf (st.move f) = (r.aggregatesOf st).move f := rfl
  simp only [createComplexEvents, List.map_map, Function.comp_def, states_move, received_move,
    timeAt_move, sameAggregates, generateCompositeEvent_move]

@[simp] theorem pktsToRemove_move (partialEvents : List PartialEvent) (i : Nat) :
    pktsToRemove (partialEvents.map (PartialEvent.move f)) i =
      (pktsToRemove partialEvents i).map f := by
  simp only [pktsToRemove, List.filterMap_map, List.map_filterMap, Function.comp_def, indexes_move,
    Option.map_map]
  rfl

variable {f} (injective : Function.Injective f)

include injective

theorem removeConsumedEvent_move (partialEvents : List PartialEvent) :
    r.removeConsumedEvent (st.move f) (partialEvents.map (PartialEvent.move f)) =
      (r.removeConsumedEvent st partialEvents).move f := by
  refine foldl_move f (fun st i => ?_) _ st
  simp only [consumeState, pktsToRemove_move, states_move, erase_move f injective,
    updateStates_move]
  split <;> rfl

/-- A computation on moved packets. -/
theorem startComputation_move (p : PubPktPtr) :
    (r.startComputation (st.move f) (p.move f)).results = (r.startComputation st p).results ∧
      (r.startComputation (st.move f) (p.move f)).after =
        ((r.startComputation st p).after).move f := by
  simp only [startComputation, computationWith, pushTerminator_move, clearStacks_move,
    getPartialResults_move, removePartialEventsNotMatchingParameters_move,
    createComplexEvents_move, removeConsumedEvent_move r _ injective, popTerminator_move, and_self]

theorem step_move (call : Call) :
    r.step (st.move f) (call.move f) = (r.step st call).move f := by
  cases call with
  | addToStack p i => exact addToStack_move f st p i
  | addToNegationStack p i => exact addToNegationStack_move f st p i
  | addToAggregateStack p i => exact addToAggregateStack_move f st p i
  | startComputation p => exact (startComputation_move r st injective p).2

end StacksRule

end Move

end TRex
