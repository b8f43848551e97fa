import TRex.Lib.RefCount
import TRex.RecursiveProcessing
import TRex.TreeReads

/-!
# How a rule uses packets

The accesses to packets that each call on a rule's stacks makes, in the order of
`Engine/StacksRule`: packets read, references taken and given up, packets created. Where a search
reads some packets of a stack, all packets of the stack are entered as read; where partial results
are extended and checked, all packets on the stacks of the rule, and then the packets that
`startComputationReads` finds in the slots of partial results. A slot to which nothing has been
assigned is not initialised: it holds whatever address was there before (`wild`).

`keeps_accesses` says that a call on a rule that reads no such slot uses only packets that are on
the stacks or belong to its caller, and that the references it is left with are the slots of the
stacks it leaves.
-/

namespace TRex

open RefCount

/-- The addresses in a vector of pointers. -/
def addrs (pkts : List PubPktPtr) : List Nat := pkts.map PubPktPtr.addr

@[simp] theorem addrs_append (pkts more : List PubPktPtr) :
    addrs (pkts ++ more) = addrs pkts ++ addrs more := List.map_append

theorem addrs_perm {pkts pkts' : List PubPktPtr} (perm : pkts.Perm pkts') :
    (addrs pkts).Perm (addrs pkts') := perm.map _

/-! ## One stack -/

namespace Column

/-- `parametricAddToStack`. -/
def addAccesses (c : Column) (pkt : PubPktPtr) : List (Access Nat) :=
  .read pkt.addr :: (addrs c.received).map .read ++ [.inc pkt.addr]

/-- `removeOldPacketsFromStack`: the search, and then a reference less for each packet erased. -/
def removeOldAccesses (c : Column) (minTS : Nat) : List (Access Nat) :=
  if c.size = 0 then []
  else
    let newSize := deleteInvalidElements c.received c.size minTS
    (addrs c.received).map .read ++
      if newSize = c.size then []
      else (addrs (c.received.take (c.size - newSize).toNat)).map .dec

/-- The inner loop of `removeConsumedEvent`, which compares pointers and reads no packet. -/
def eraseAccesses (c : Column) (addresses : List Nat) : List (Access Nat) :=
  (addrs (c.received.filter fun p => addresses.contains p.addr)).map .dec

/-- One turn of `clearStacks` on the stack `c`; its window ends at the oldest packet of `upper`. -/
def expiryAccesses (c upper : Column) (win : Nat) : List (Access Nat) :=
  if upper.size = 0 then []
  else (addrs (upper.received.take 1)).map .read ++
    c.removeOldAccesses (timeAt upper.received 0 - win)

end Column

/-! ## Slots of partial results -/

/-- What has been assigned to a slot. -/
def PartialEvent.slot (pe : PartialEvent) (index : Int) : Option PubPktPtr :=
  if index < 0 then none else pe.indexes index.toNat

/-- The packet that is read, unless the reading is of no packet; none again if it is to be found in
a slot that has not been assigned. -/
def Reading.packet : Reading → Option (Option PubPktPtr)
  | .slot pe index => some (pe.slot index)
  | .leaf _ _ _ none => none
  | .leaf _ _ _ (some (.static _)) => none
  | .leaf (.parameter pkt index sType) pe _ (some (.rulePkt refIndex type _)) =>
    some (if type = sType ∧ (type = .state → refIndex = index) then some pkt else pe.slot refIndex)
  | .leaf .generator pe _ (some (.rulePkt refIndex type _)) =>
    if type = .agg then none else some (pe.slot refIndex)

/-- The address that is read. -/
def Reading.address (wild : Reading → Nat) (reading : Reading) : Option Nat :=
  reading.packet.map fun found => (found.map PubPktPtr.addr).getD (wild reading)

/-- The functions of `Parameters` read the same packet. -/
theorem Reading.packet_parameter {pkt : PubPktPtr} {index refIndex : Int} {sType type : StateType}
    {pe : PartialEvent} {vtype : ValType} {name : Option CString} (nonneg : 0 ≤ refIndex) :
    (Reading.leaf (.parameter pkt index sType) pe vtype
      (some (.rulePkt refIndex type name))).packet =
      some ((OpValueReference.rulePkt refIndex type name).source pkt pe index sType) := by
  have slot : pe.slot refIndex = pe.indexes refIndex.toNat := if_neg (by omega)
  rw [Reading.packet, slot]
  cases type <;> cases sType <;> simp [OpValueReference.source]

/-! ## Calls -/

namespace StacksRule

variable (r : StacksRule)

def clearStateAccesses (st : Stacks) (stack : Nat) : List (Access Nat) :=
  (st.states stack).expiryAccesses (st.states (r.refersTo stack).toNat) (r.getWindow stack)

def clearNegationAccesses (st : Stacks) (negIndex : Nat) : List (Access Nat) :=
  match r.negations[negIndex]? with
  | none => []
  | some neg =>
    (st.negs negIndex).expiryAccesses (st.states neg.upperId.toNat) (r.negationWindow neg)

def clearAggregateAccesses (st : Stacks) (aggIndex : Nat) : List (Access Nat) :=
  match r.aggregates[aggIndex]? with
  | none => []
  | some agg =>
    (st.aggs aggIndex).expiryAccesses (st.states agg.upperId.toNat)
      (if agg.lowerTime < 0 then r.getWindow agg.lowerId.toNat else agg.lowerTime)

def clearStacksAccesses (st : Stacks) : List (Access Nat) :=
  logged r.clearState r.clearStateAccesses st (List.range' 1 (r.stacksNum - 1)) ++
  logged r.clearNegation r.clearNegationAccesses (r.clearStates st)
    (List.range r.negations.length) ++
  logged r.clearAggregate r.clearAggregateAccesses (r.clearNegations (r.clearStates st))
    (List.range r.aggregates.length)

/-- `getPartialResults`, `removePartialEventsNotMatchingParameters` and the evaluation of templates
in `createComplexEvents`: the stacks, and what is read by way of partial results. -/
def searchAccesses (st : Stacks) (pkt : PubPktPtr) (wild : Reading → Nat) : List (Access Nat) :=
  (addrs (r.held (r.startComputation st pkt).during) ++
    (r.startComputationReads st pkt).filterMap (Reading.address wild)).map .read

def consumeStateAccesses (partialEvents : List PartialEvent) (st : Stacks) (i : Nat) :
    List (Access Nat) :=
  if r.consumingIndexes.contains i then
    (st.states i).eraseAccesses (pktsToRemove partialEvents i)
  else []

def removeConsumedEventAccesses (st : Stacks) (partialEvents : List PartialEvent) :
    List (Access Nat) :=
  logged (r.consumeState partialEvents) (r.consumeStateAccesses partialEvents) st
    (List.range' 1 (r.stacksNum - 1))

/-- The generated packets are placed at the given addresses. -/
def startComputationAccesses (st : Stacks) (pkt : PubPktPtr) (wild : Reading → Nat)
    (addresses : List Nat) : List (Access Nat) :=
  let computation := r.startComputation st pkt
  .inc pkt.addr :: (r.clearStacksAccesses (st.pushTerminator pkt) ++
    r.searchAccesses st pkt wild ++ addresses.map .new ++
    r.removeConsumedEventAccesses computation.during (r.finalResults computation) ++
    [.dec pkt.addr])

def accesses (st : Stacks) (wild : Reading → Nat) (addresses : List Nat) :
    Call → List (Access Nat)
  | .addToStack p i => (st.states i).addAccesses p
  | .addToNegationStack p i => (st.negs i).addAccesses p
  | .addToAggregateStack p i => (st.aggs i).addAccesses p
  | .startComputation p => r.startComputationAccesses st p wild addresses

/-! ## Slots -/

/-- There are no packets beyond the stacks of the rule. -/
def Confined (st : Stacks) : Prop := ∀ i, r.stacksNum ≤ i → (st.states i).received = []

variable {r} {st : Stacks} {i : Nat}

section Change

variable {x : List PubPktPtr} {columns columns' other other' : Nat → Column}

/-- Two families of stacks that differ at one, by the packets `x`. -/
theorem slots_change {n : Nat} (lt : i < n)
    (split : (columns i).received.Perm (x ++ (columns' i).received))
    (others : ∀ j, j ≠ i → columns j = columns' j) :
    ((List.range n).flatMap fun j => (columns j).received).Perm
      (x ++ (List.range n).flatMap fun j => (columns' j).received) :=
  Interleave.flatMap_perm_of_change List.nodup_range (List.mem_range.mpr lt) split
    fun j ne => congrArg Column.received (others j ne)

theorem held_change_states (lt : i < r.stacksNum)
    (split : (columns i).received.Perm (x ++ (columns' i).received))
    (others : ∀ j, j ≠ i → columns j = columns' j) :
    (r.held ⟨columns, other, other'⟩).Perm (x ++ r.held ⟨columns', other, other'⟩) := by
  have changed := slots_change lt split others
  unfold held
  rw [← List.append_assoc, ← List.append_assoc]
  exact (changed.append_right _).append_right _

theorem held_change_negs (lt : i < r.negations.length)
    (split : (columns i).received.Perm (x ++ (columns' i).received))
    (others : ∀ j, j ≠ i → columns j = columns' j) :
    (r.held ⟨other, columns, other'⟩).Perm (x ++ r.held ⟨other, columns', other'⟩) := by
  have changed := slots_change lt split others
  unfold held
  refine ((changed.append_left _).append_right _).trans ?_
  rw [← List.append_assoc, ← List.append_assoc, ← List.append_assoc x]
  exact (List.perm_append_comm.append_right _).append_right _

theorem held_change_aggs (lt : i < r.aggregates.length)
    (split : (columns i).received.Perm (x ++ (columns' i).received))
    (others : ∀ j, j ≠ i → columns j = columns' j) :
    (r.held ⟨other, other', columns⟩).Perm (x ++ r.held ⟨other, other', columns'⟩) := by
  have changed := slots_change lt split others
  unfold held
  refine (changed.append_left _).trans ?_
  rw [← List.append_assoc, ← List.append_assoc x]
  exact List.perm_append_comm.append_right _

end Change

/-- The stack replaced, seen from the other ones. -/
theorem eq_update_of_ne (columns : Nat → Column) (c : Column) {j : Nat} (ne : j ≠ i) :
    columns j = Function.update columns i c j := (Function.update_of_ne ne _ _).symm

theorem perm_append_update {columns : Nat → Column} {x : List PubPktPtr} {c : Column}
    (split : (columns i).received.Perm (x ++ c.received)) :
    (columns i).received.Perm (x ++ (Function.update columns i c i).received) := by
  rw [Function.update_self]
  exact split

theorem mem_held_of_states {q : PubPktPtr} (lt : i < r.stacksNum)
    (mem : q ∈ (st.states i).received) : q ∈ r.held st :=
  List.mem_append_left _ (List.mem_append_left _
    (List.mem_flatMap.mpr ⟨i, List.mem_range.mpr lt, mem⟩))

theorem mem_held_of_negs {q : PubPktPtr} (lt : i < r.negations.length)
    (mem : q ∈ (st.negs i).received) : q ∈ r.held st :=
  List.mem_append_left _ (List.mem_append_right _
    (List.mem_flatMap.mpr ⟨i, List.mem_range.mpr lt, mem⟩))

theorem mem_held_of_aggs {q : PubPktPtr} (lt : i < r.aggregates.length)
    (mem : q ∈ (st.aggs i).received) : q ∈ r.held st :=
  List.mem_append_right _ (List.mem_flatMap.mpr ⟨i, List.mem_range.mpr lt, mem⟩)

/-- Any packet on the stack of a state, whether or not the rule has the state. -/
theorem Confined.mem_held (confined : r.Confined st) {q : PubPktPtr}
    (mem : q ∈ (st.states i).received) : q ∈ r.held st := by
  rcases Nat.lt_or_ge i r.stacksNum with lt | beyond
  · exact mem_held_of_states lt mem
  · rw [confined i beyond] at mem
    cases mem

theorem Confined.update (confined : r.Confined st) (lt : i < r.stacksNum) (c : Column) :
    r.Confined { st with states := Function.update st.states i c } := by
  intro j beyond
  simp only [Function.update_of_ne (show j ≠ i by omega)]
  exact confined j beyond

end StacksRule

/-! ## Expiry -/

section Expiry

variable {lent : List Nat} {c upper : Column} {held : List PubPktPtr}

theorem mem_addrs {q : PubPktPtr} {pkts : List PubPktPtr} (mem : q ∈ pkts) : q.addr ∈ addrs pkts :=
  List.mem_map_of_mem mem

theorem keeps_reads_of_subset {pkts : List PubPktPtr} (subset : ∀ q ∈ pkts, q ∈ held) :
    Keeps lent (addrs held) ((addrs pkts).map .read) (addrs held) := by
  refine keeps_reads fun a mem => .inl ?_
  obtain ⟨q, isRead, rfl⟩ := List.mem_map.mp mem
  exact mem_addrs (subset q isRead)

theorem keeps_decs_of_perm {pkts held' : List PubPktPtr} (perm : held.Perm (pkts ++ held')) :
    Keeps lent (addrs held) ((addrs pkts).map .dec) (addrs held') :=
  keeps_decs (by simpa using addrs_perm perm)

/-- The packets that expire are erased from the front, each with its reference. -/
theorem Column.keeps_removeOld (lent : List Nat) (c : Column) (minTS : Nat) :
    ∃ x, c.received = x ++ (c.removeOld minTS).received ∧
      ∀ held held', (∀ q ∈ c.received, q ∈ held) → held.Perm (x ++ held') →
        Keeps lent (addrs held) (c.removeOldAccesses minTS) (addrs held') := by
  unfold Column.removeOld Column.removeOldAccesses
  simp only
  split
  · exact ⟨[], rfl, fun _ _ _ perm => addrs_perm perm⟩
  split
  · exact ⟨[], rfl, fun _ _ stored perm =>
      (keeps_reads_of_subset stored).append (addrs_perm perm)⟩
  · exact ⟨_, (List.take_append_drop _ _).symm, fun _ _ stored perm =>
      (keeps_reads_of_subset stored).append (keeps_decs_of_perm perm)⟩

/-- One turn of the expiry; `replaced` gives the packets held once the stack is another one. -/
theorem Column.keeps_expiry (replaced : Column → List PubPktPtr)
    (replace : ∀ x c', c.received.Perm (x ++ Column.received c') → held.Perm (x ++ replaced c'))
    (stored : ∀ q ∈ c.received, q ∈ held) (storedUpper : ∀ q ∈ upper.received, q ∈ held)
    (win : Nat) :
    Keeps lent (addrs held) (c.expiryAccesses upper win)
      (addrs (if upper.size = 0 then held
        else replaced (c.removeOld (timeAt upper.received 0 - win)))) := by
  unfold Column.expiryAccesses
  split
  · exact keeps_nil _ _
  · obtain ⟨x, split, keeps⟩ := c.keeps_removeOld lent (timeAt upper.received 0 - win)
    refine (keeps_reads_of_subset fun q mem => storedUpper q (List.mem_of_mem_take mem)).append ?_
    exact keeps _ _ stored (replace x _ (split ▸ List.Perm.refl _))

end Expiry

namespace StacksRule

variable {r : StacksRule} {st : Stacks} {lent : List Nat} {i : Nat}

theorem clearState_confined (confined : r.Confined st) (lt : i < r.stacksNum) :
    r.Confined (r.clearState st i) := by
  rcases r.clearState_cases st i with same | ⟨minTS, dropped⟩
  · rwa [same]
  · rw [dropped]
    exact confined.update lt _

theorem Confined.of_states_eq {st' : Stacks} (confined : r.Confined st)
    (same : st'.states = st.states) : r.Confined st' := by
  intro j beyond
  rw [same]
  exact confined j beyond

theorem keeps_clearState (confined : r.Confined st) (lt : i < r.stacksNum) :
    Keeps lent (addrs (r.held st)) (r.clearStateAccesses st i)
      (addrs (r.held (r.clearState st i))) := by
  unfold clearState
  rw [apply_ite r.held]
  exact Column.keeps_expiry
    (fun c' => r.held { st with states := Function.update st.states i c' })
    (fun _ c' split => held_change_states lt (perm_append_update split)
      fun _ => eq_update_of_ne st.states c') (fun q => mem_held_of_states lt)
    (fun q => confined.mem_held) (r.getWindow i)

theorem keeps_clearNegation (confined : r.Confined st) (lt : i < r.negations.length) :
    Keeps lent (addrs (r.held st)) (r.clearNegationAccesses st i)
      (addrs (r.held (r.clearNegation st i))) := by
  unfold clearNegation clearNegationAccesses
  simp only [List.getElem?_eq_getElem lt]
  rw [apply_ite r.held]
  exact Column.keeps_expiry
    (fun c' => r.held { st with negs := Function.update st.negs i c' })
    (fun _ c' split => held_change_negs lt (perm_append_update split)
      fun _ => eq_update_of_ne st.negs c') (fun q => mem_held_of_negs lt)
    (fun q => confined.mem_held) _

theorem keeps_clearAggregate (confined : r.Confined st) (lt : i < r.aggregates.length) :
    Keeps lent (addrs (r.held st)) (r.clearAggregateAccesses st i)
      (addrs (r.held (r.clearAggregate st i))) := by
  unfold clearAggregate clearAggregateAccesses
  simp only [List.getElem?_eq_getElem lt]
  rw [apply_ite r.held]
  exact Column.keeps_expiry
    (fun c' => r.held { st with aggs := Function.update st.aggs i c' })
    (fun _ c' split => held_change_aggs lt (perm_append_update split)
      fun _ => eq_update_of_ne st.aggs c') (fun q => mem_held_of_aggs lt)
    (fun q => confined.mem_held) _

theorem lt_of_mem_states (mem : i ∈ List.range' 1 (r.stacksNum - 1)) : 1 ≤ i ∧ i < r.stacksNum := by
  have range := List.mem_range'_1.mp mem
  exact ⟨range.1, by omega⟩

theorem clearStates_confined (confined : r.Confined st) : r.Confined (r.clearStates st) :=
  List.foldlRecOn _ _ confined fun _ ih _ mem => clearState_confined ih (lt_of_mem_states mem).2

theorem clearStacks_confined (confined : r.Confined st) : r.Confined (r.clearStacks st) :=
  (clearStates_confined confined).of_states_eq (r.clearStacks_states st)

theorem keeps_clearStacks (confined : r.Confined st) :
    Keeps lent (addrs (r.held st)) (r.clearStacksAccesses st)
      (addrs (r.held (r.clearStacks st))) := by
  have states : Keeps lent (addrs (r.held st)) _ (addrs (r.held (r.clearStates st))) :=
    keeps_logged (fun st => addrs (r.held st)) (P := r.Confined) (fun st confined i mem =>
      ⟨clearState_confined confined (lt_of_mem_states mem).2,
        keeps_clearState confined (lt_of_mem_states mem).2⟩) confined
  have confined' := clearStates_confined confined
  have negations : Keeps lent (addrs (r.held (r.clearStates st))) _
      (addrs (r.held (r.clearNegations (r.clearStates st)))) :=
    keeps_logged (fun st => addrs (r.held st)) (P := r.Confined) (fun st confined i mem =>
      ⟨confined.of_states_eq (r.clearNegation_states st i),
        keeps_clearNegation confined (List.mem_range.mp mem)⟩) confined'
  have aggregates : Keeps lent (addrs (r.held (r.clearNegations (r.clearStates st)))) _
      (addrs (r.held (r.clearStacks st))) :=
    keeps_logged (fun st => addrs (r.held st)) (P := r.Confined) (fun st confined i mem =>
      ⟨confined.of_states_eq (r.clearAggregate_states st i),
        keeps_clearAggregate confined (List.mem_range.mp mem)⟩)
      (confined'.of_states_eq (r.clearNegations_states _))
  exact (states.append negations).append aggregates

/-! ## Consumption -/

theorem keeps_consumeState (partialEvents : List PartialEvent) (lt : i < r.stacksNum) :
    Keeps lent (addrs (r.held st)) (r.consumeStateAccesses partialEvents st i)
      (addrs (r.held (r.consumeState partialEvents st i))) := by
  unfold consumeState consumeStateAccesses
  split
  · refine keeps_decs_of_perm (held_change_states lt (perm_append_update ?_)
      fun _ => eq_update_of_ne st.states _)
    exact (List.filter_append_perm _ _).symm
  · exact keeps_nil _ _

theorem removeConsumedEvent_confined (partialEvents : List PartialEvent)
    (confined : r.Confined st) : r.Confined (r.removeConsumedEvent st partialEvents) := by
  refine List.foldlRecOn _ _ confined fun st' ih i mem => ?_
  rcases r.consumeState_cases partialEvents st' i with same | erased
  · rwa [same]
  · rw [erased]
    exact ih.update (lt_of_mem_states mem).2 _

theorem keeps_removeConsumedEvent (partialEvents : List PartialEvent) :
    Keeps lent (addrs (r.held st)) (r.removeConsumedEventAccesses st partialEvents)
      (addrs (r.held (r.removeConsumedEvent st partialEvents))) :=
  keeps_logged (fun st => addrs (r.held st)) (P := fun _ => True) (fun _ _ _ mem =>
    ⟨trivial, keeps_consumeState partialEvents (lt_of_mem_states mem).2⟩) trivial

/-! ## Whole calls -/

/-- The calls that the engine makes: a computation only for a rule with a root. -/
def Made (r : StacksRule) : Call → Prop
  | .startComputation _ => 0 < r.stacksNum
  | call => call.Valid r

theorem Made.valid {c : Call} (made : r.Made c) : c.Valid r := by
  cases c with
  | startComputation p => trivial
  | addToStack p i => exact made
  | addToNegationStack p i => exact made
  | addToAggregateStack p i => exact made

/-- Insertion puts one packet more on the stack. -/
theorem add_perm (c : Column) (p : PubPktPtr) : (c.add p).received.Perm (p :: c.received) := by
  unfold Column.add
  simp only
  split
  · exact List.perm_append_singleton p _
  · refine List.perm_middle.trans ?_
    rw [List.take_append_drop]

/-- The slots after an insertion, and the accesses that lead there. -/
theorem keeps_add {c : Column} {p : PubPktPtr} {held held' : List PubPktPtr}
    (stored : ∀ q ∈ c.received, q ∈ held) (more : held'.Perm (p :: held)) :
    Keeps [p.addr] (addrs held) (c.addAccesses p) (addrs held') := by
  refine ⟨.inr (List.mem_singleton.mpr rfl), ?_⟩
  refine (keeps_reads_of_subset stored).append ?_
  exact ⟨.inr (List.mem_singleton.mpr rfl), (addrs_perm more).symm⟩

theorem keeps_addToStack {p : PubPktPtr} (lt : i < r.stacksNum) :
    Keeps [p.addr] (addrs (r.held st)) ((st.states i).addAccesses p)
      (addrs (r.held (st.addToStack p i))) := by
  refine keeps_add (fun q => mem_held_of_states lt) ?_
  refine held_change_states (x := [p]) lt ?_ fun j ne => Function.update_of_ne ne _ _
  rw [Function.update_self]
  exact add_perm _ p

theorem keeps_addToNegationStack {p : PubPktPtr} (lt : i < r.negations.length) :
    Keeps [p.addr] (addrs (r.held st)) ((st.negs i).addAccesses p)
      (addrs (r.held (st.addToNegationStack p i))) := by
  refine keeps_add (fun q => mem_held_of_negs lt) ?_
  refine held_change_negs (x := [p]) lt ?_ fun j ne => Function.update_of_ne ne _ _
  rw [Function.update_self]
  exact add_perm _ p

theorem keeps_addToAggregateStack {p : PubPktPtr} (lt : i < r.aggregates.length) :
    Keeps [p.addr] (addrs (r.held st)) ((st.aggs i).addAccesses p)
      (addrs (r.held (st.addToAggregateStack p i))) := by
  refine keeps_add (fun q => mem_held_of_aggs lt) ?_
  refine held_change_aggs (x := [p]) lt ?_ fun j ne => Function.update_of_ne ne _ _
  rw [Function.update_self]
  exact add_perm _ p

/-- While a computation runs, its packet is in one slot more. -/
theorem held_pushTerminator (inv : st.Inv) (nonempty : 0 < r.stacksNum) (p : PubPktPtr) :
    (r.held (st.pushTerminator p)).Perm (p :: r.held st) := by
  refine held_change_states (x := [p]) nonempty ?_ fun j ne => Function.update_of_ne ne _ _
  rw [Function.update_self, inv.terminator]
  exact List.Perm.refl _

theorem held_popTerminator (nonempty : 0 < r.stacksNum) {p : PubPktPtr}
    (terminator : (st.states 0).received = [p]) :
    (r.held st).Perm (p :: r.held st.popTerminator) := by
  refine held_change_states (x := [p]) nonempty (perm_append_update ?_)
    fun _ => eq_update_of_ne st.states _
  rw [terminator]
  exact List.Perm.refl _

theorem pushTerminator_confined (confined : r.Confined st) (nonempty : 0 < r.stacksNum)
    (p : PubPktPtr) : r.Confined (st.pushTerminator p) := confined.update nonempty _

end StacksRule

/-! ## The search -/

/-- The slots that the trees read have been assigned when the trees are evaluated: those of the
states before the one whose packet is tested, of the states up to the one that a negation is linked
to, and all slots for an aggregate and for the template. A parameter that names the terminator alone
is never evaluated, nor are those of an aggregate that nothing is computed from. -/
structure RulePkt.ReadsAssignedSlots (pkt : RulePkt) : Prop where
  refersTo : pkt.RefersBack
  states : ∀ par ∈ pkt.complexParameters, par.type = .state → par.lastIndex ≠ 0 →
    ∀ (index : Int) type name, .rulePkt index type name ∈ par.read →
      0 ≤ index ∧ (index < par.lastIndex ∨ (index = par.lastIndex ∧ type = .state))
  negations : ∀ par ∈ pkt.complexParameters, par.type = .neg → ∀ (k : Nat) (n : Negation),
    par.lastIndex = k → pkt.negations[k]? = some n →
      ∀ (index : Int) type name, .rulePkt index type name ∈ par.read →
        type = .neg ∨ (0 ≤ index ∧ index ≤ StacksRule.linkedState n)
  aggregates : ∀ par ∈ pkt.complexParameters, par.type = .agg →
    ∀ aggIndex, pkt.Computes aggIndex → par.lastIndex = aggIndex.toNat →
      ∀ (index : Int) type name, .rulePkt index type name ∈ par.read →
        type = .agg ∨ (0 ≤ index ∧ index < pkt.predicates.length)
  template : ∀ tree ∈ pkt.templateTrees, ∀ (index : Int) type name,
    some (.rulePkt index type name) ∈ tree.generatorNodes tree.getValType →
      type = .agg ∨ (0 ≤ index ∧ index < pkt.predicates.length)

/-- All slots of a rule whose reads are safe. -/
theorem RulePkt.ReadsSoundly.readsAssignedSlots {pkt : RulePkt} (sound : pkt.ReadsSoundly)
    (inRange : pkt.InRange) (built : pkt.Built) : pkt.ReadsAssignedSlots where
  refersTo := inRange.refersTo
  states par inRule isState filed index type name isRead := by
    obtain ⟨-, rfl⟩ := sound.states par inRule isState filed _ isRead
    have inRefs := CPUParameter.mem_refs_of_mem_read isRead
    have le := (built.lastIndex inRule isState).1 index name inRefs
    exact ⟨(inRange.parameters par inRule _ inRefs).1, (Int.lt_or_eq_of_le le).imp_right (⟨·, rfl⟩)⟩
  negations par inRule isNeg k n filed lookup index type name isRead := by
    refine (sound.negations par inRule isNeg k n filed lookup _ isRead).2.imp_right fun place => ?_
    exact ⟨(inRange.parameters par inRule _ (CPUParameter.mem_refs_of_mem_read isRead)).1, place.2⟩
  aggregates par inRule isAgg aggIndex computes filed index type name isRead := by
    have nonneg : 0 ≤ aggIndex := by
      obtain ⟨tree, inTemplate, -, aggName, inTree⟩ := computes
      exact (inRange.template tree inTemplate _ inTree).1
    rw [Int.toNat_of_nonneg nonneg] at filed
    have noNegation := (sound.aggregates par inRule isAgg (filed ▸ computes) _ isRead).2
    have named := inRange.parameters par inRule _ (CPUParameter.mem_refs_of_mem_read isRead)
    cases type with
    | neg => exact absurd rfl noNegation
    | agg => exact .inl rfl
    | state => exact .inr named
  template tree inTemplate index type name inTree := by
    obtain ⟨ref, same, generates⟩ := sound.template tree inTemplate _ inTree
    cases same
    refine generates.imp_right fun isState => ?_
    obtain ⟨rfl, -⟩ := isState
    exact inRange.template tree inTemplate _ (mem_refs_of_mem_generatorNodes inTree)

section Search

variable {pkt : RulePkt} {held : List PubPktPtr} {pe : PartialEvent} {k : Nat} {index : Int}

theorem PartialEvent.FilledUpTo.exists_slot
    (filled : pe.FilledUpTo (fun _ q => q ∈ held) k) (nonneg : 0 ≤ index) (le : index ≤ k) :
    ∃ q ∈ held, pe.slot index = some q := by
  obtain ⟨q, assigned, isHeld⟩ := filled index.toNat (by omega)
  exact ⟨q, isHeld, (if_neg (by omega)).trans assigned⟩

/-- A rule that reads assigned slots only finds packets that are on its stacks. -/
theorem Occurs.exists_held (reads : pkt.ReadsAssignedSlots) {reading : Reading}
    (occurs : Occurs pkt (fun _ q => q ∈ held) (· ∈ held) reading) {found : Option PubPktPtr}
    (isRead : reading.packet = some found) : ∃ q ∈ held, found = some q := by
  cases occurs with
  | slot filled nonneg le =>
      cases isRead
      exact filled.exists_slot nonneg le
  | @state pe k e par ref filled fit inRule isState filed inRead =>
      cases ref with
      | static value => cases isRead
      | rulePkt index type name =>
          obtain ⟨nonneg, place⟩ :=
            reads.states par inRule isState (by omega) index type name inRead
          simp only [Reading.packet, Option.some.injEq] at isRead
          split at isRead
          · exact ⟨_, fit, isRead.symm⟩
          case isFalse other =>
            rw [filed] at place
            have before : index ≤ k := by
              rcases place with less | ⟨same, rfl⟩
              · exact Int.lt_add_one_iff.mp less
              · exact absurd ⟨rfl, fun _ => same⟩ other
            rw [← isRead]
            exact filled.exists_slot nonneg before
  | @neg pe i negIndex neg e par ref filled linked lookup isListed inRule isNeg filed inRead =>
      cases ref with
      | static value => cases isRead
      | rulePkt index type name =>
          simp only [Reading.packet, Option.some.injEq] at isRead
          split at isRead
          · exact ⟨_, isListed, isRead.symm⟩
          case isFalse other =>
            have place := reads.negations par inRule isNeg negIndex neg filed lookup index type name
              inRead
            rcases place with rfl | ⟨nonneg, le⟩
            · exact absurd ⟨rfl, nofun⟩ other
            · rw [← isRead]
              exact filled.exists_slot nonneg (linked ▸ le)
  | @agg pe aggIndex e par ref filled computes isListed inRule isAgg filed inRead =>
      cases ref with
      | static value => cases isRead
      | rulePkt index type name =>
          simp only [Reading.packet, Option.some.injEq] at isRead
          split at isRead
          · exact ⟨_, isListed, isRead.symm⟩
          case isFalse other =>
            have place := reads.aggregates par inRule isAgg aggIndex computes filed index type name
              inRead
            rcases place with rfl | ⟨nonneg, lt⟩
            · exact absurd ⟨rfl, nofun⟩ other
            · rw [← isRead]
              exact filled.exists_slot nonneg (by omega)
  | @template pe tree node filled inTemplate inTree =>
      cases node with
      | none => cases isRead
      | some ref =>
          cases ref with
          | static value => cases isRead
          | rulePkt index type name =>
              simp only [Reading.packet] at isRead
              split at isRead
              · cases isRead
              case isFalse other =>
                cases isRead
                obtain ⟨nonneg, lt⟩ :=
                  (reads.template tree inTemplate index type name inTree).resolve_left other
                exact filled.exists_slot nonneg (by omega)

end Search

namespace StacksRule

variable {st : Stacks} {lent : List Nat} {pkt : RulePkt}

theorem lists_during (confined : (new pkt).Confined st)
    (nonempty : 0 < (new pkt).stacksNum) (p : PubPktPtr) :
    Stacks.Lists pkt (fun _ q => q ∈ (new pkt).held ((new pkt).startComputation st p).during)
      (· ∈ (new pkt).held ((new pkt).startComputation st p).during)
      ((new pkt).startComputation st p).during where
  states _ _ mem :=
    (clearStacks_confined (pushTerminator_confined confined nonempty p)).mem_held mem
  negs _ lt _ mem := mem_held_of_negs lt mem
  aggs _ lt _ mem := mem_held_of_aggs lt mem

/-- The packets that a computation reads are on the stacks. -/
theorem keeps_searchAccesses (built : pkt.Built) (reads : pkt.ReadsAssignedSlots)
    (confined : (new pkt).Confined st) (nonempty : 0 < (new pkt).stacksNum) (p : PubPktPtr)
    (wild : Reading → Nat) :
    Keeps lent (addrs ((new pkt).held ((new pkt).startComputation st p).during))
      ((new pkt).searchAccesses st p wild)
      (addrs ((new pkt).held ((new pkt).startComputation st p).during)) := by
  have lists := lists_during confined nonempty p
  have terminator : p ∈ (((new pkt).startComputation st p).during.states 0).received := by
    simp only [startComputation, computationWith, clearStacks_states_zero]
    simp [Stacks.pushTerminator]
  refine keeps_reads fun a mem => .inl ?_
  rcases List.mem_append.mp mem with onStack | bySlot
  · exact onStack
  obtain ⟨reading, isRead, address⟩ := List.mem_filterMap.mp bySlot
  obtain ⟨found, isPacket, rfl⟩ := Option.map_eq_some_iff.mp address
  have occurs := occurs_startComputationReads reads.refersTo built lists
    (lists.states 0 p terminator) isRead
  obtain ⟨q, isHeld, rfl⟩ := occurs.exists_held reads isPacket
  exact mem_addrs isHeld

theorem keeps_startComputation (built : pkt.Built) (reads : pkt.ReadsAssignedSlots) (inv : st.Inv)
    (confined : (new pkt).Confined st) (nonempty : 0 < (new pkt).stacksNum) (p : PubPktPtr)
    (wild : Reading → Nat) (addresses : List Nat) :
    Keeps [p.addr] (addrs ((new pkt).held st))
      ((new pkt).startComputationAccesses st p wild addresses)
      (addrs ((new pkt).held ((new pkt).startComputation st p).after)) := by
  have pushed := held_pushTerminator inv nonempty p
  have terminator : (((new pkt).removeConsumedEvent ((new pkt).startComputation st p).during
      ((new pkt).finalResults ((new pkt).startComputation st p))).states 0).received = [p] := by
    have root : ¬ (new pkt).Consuming 0 := fun consuming => absurd consuming.pos (by omega)
    rw [(new pkt).removeConsumedEvent_of_not_consuming _ _ root]
    simp only [startComputation, computationWith, clearStacks_states_zero]
    simp [Stacks.pushTerminator, inv.terminator]
  have expiry : Keeps [p.addr] (addrs ((new pkt).held (st.pushTerminator p))) _ _ :=
    keeps_clearStacks (pushTerminator_confined confined nonempty p)
  have search := @keeps_searchAccesses st [p.addr] pkt built reads confined nonempty p wild
  refine ⟨.inr (List.mem_singleton.mpr rfl), ?_⟩
  refine Keeps.perm ?_ (addrs_perm pushed)
  have consumption := @keeps_removeConsumedEvent (new pkt) ((new pkt).startComputation st p).during
    [p.addr] ((new pkt).finalResults ((new pkt).startComputation st p))
  refine (((expiry.append search).append (keeps_news addresses)).append consumption).append ?_
  have released : Keeps [p.addr] _ ((addrs [p]).map .dec) _ :=
    keeps_decs_of_perm (held_popTerminator nonempty terminator)
  exact released

/-- A call of the engine uses packets of the stacks and its own one, and leaves a reference for each
slot of the stacks. -/
theorem keeps_accesses (built : pkt.Built) (reads : pkt.ReadsAssignedSlots) (inv : st.Inv)
    (confined : (new pkt).Confined st) {call : Call} (made : (new pkt).Made call)
    (wild : Reading → Nat) (addresses : List Nat) :
    Keeps [call.pkt.addr] (addrs ((new pkt).held st)) ((new pkt).accesses st wild addresses call)
      (addrs ((new pkt).held ((new pkt).step st call))) := by
  cases call with
  | addToStack p i => exact keeps_addToStack made.2
  | addToNegationStack p i => exact keeps_addToNegationStack made
  | addToAggregateStack p i => exact keeps_addToAggregateStack made
  | startComputation p =>
      exact keeps_startComputation built reads inv confined made p wild addresses

variable {r : StacksRule}

theorem step_confined (confined : r.Confined st) {call : Call} (made : r.Made call) :
    r.Confined (r.step st call) := by
  cases call with
  | addToStack p i => exact confined.update made.2 _
  | addToNegationStack p i => exact confined
  | addToAggregateStack p i => exact confined
  | startComputation p =>
      have during := clearStacks_confined (pushTerminator_confined confined made p)
      exact (removeConsumedEvent_confined _ during).update made _

/-! ## Packets generated -/

theorem created_expiryAccesses (c upper : Column) (win : Nat) :
    created (c.expiryAccesses upper win) = [] := by
  have removed : ∀ minTS, created (c.removeOldAccesses minTS) = [] := by
    intro minTS
    unfold Column.removeOldAccesses
    simp only
    split
    · rfl
    · split <;> simp
  unfold Column.expiryAccesses
  split
  · rfl
  · simp [removed]

theorem created_clearStacksAccesses (st : Stacks) : created (r.clearStacksAccesses st) = [] := by
  have states : ∀ st i, created (r.clearStateAccesses st i) = [] :=
    fun st i => created_expiryAccesses _ _ _
  have negations : ∀ st i, created (r.clearNegationAccesses st i) = [] := by
    intro st i
    unfold clearNegationAccesses
    split
    · rfl
    · exact created_expiryAccesses _ _ _
  have aggregates : ∀ st i, created (r.clearAggregateAccesses st i) = [] := by
    intro st i
    unfold clearAggregateAccesses
    split
    · rfl
    · exact created_expiryAccesses _ _ _
  unfold clearStacksAccesses
  simp only [created_append, created_logged states, created_logged negations,
    created_logged aggregates, List.append_nil]

theorem created_removeConsumedEventAccesses (st : Stacks) (partialEvents : List PartialEvent) :
    created (r.removeConsumedEventAccesses st partialEvents) = [] := by
  refine created_logged (fun st i => ?_) _ _
  unfold consumeStateAccesses
  split
  · exact created_decs _
  · rfl

/-- Only a computation generates packets. -/
theorem created_accesses (st : Stacks) (wild : Reading → Nat) (addresses : List Nat) (call : Call) :
    created (r.accesses st wild addresses call) =
      match call with
      | .startComputation _ => addresses
      | _ => [] := by
  cases call with
  | startComputation p =>
      simp [accesses, startComputationAccesses, searchAccesses, created_clearStacksAccesses,
        created_removeConsumedEventAccesses, Access.created]
  | addToStack p i => simp [accesses, Column.addAccesses, Access.created]
  | addToNegationStack p i => simp [accesses, Column.addAccesses, Access.created]
  | addToAggregateStack p i => simp [accesses, Column.addAccesses, Access.created]

end StacksRule

end TRex
