import TRex.ArrivalOrder
import TRex.ExactDetection
import TRex.Placements

/-!
# The engine detects what it should

The engine refines `Detection`: a run of it hands out, packet for packet, what `Detection` hands out
(`delivered_eq_detection`). The relation between the two (`Tracks`) says that the engine's stacks
are, up to the addresses of the packets, what expiry has left of the memories of the rules. The
proof goes through the layers of the engine from the bottom: the index and the matching handler, the
calls for one rule, the rules of all workers, a packet with all that is fed back, and a run. -/

namespace TRex

open Feedback
open Detection (takes receive remember react)

/-! ## The matching handler -/

namespace MatchingHandler

/-- The sets of the handler are ordered. -/
def Ordered (mh : MatchingHandler) : Prop := ∀ type id, (mh.matching type id).Pairwise (· < ·)

theorem Ordered.addToMatchingHandler {mh : MatchingHandler} (ordered : mh.Ordered)
    (tp : TablePred) : (MatchingHandler.addToMatchingHandler tp mh).Ordered := by
  have added : ∀ sets : Nat → List Nat, (∀ id, (sets id).Pairwise (· < ·)) → ∀ id,
      (Function.update sets tp.ruleId (OrdSet.insert tp.stateId (sets tp.ruleId)) id).Pairwise
        (· < ·) := by
    intro sets all id
    by_cases here : id = tp.ruleId
    · subst here
      rw [Function.update_self]
      exact OrdSet.pairwise_insert (all _)
    · rw [Function.update_of_ne here]
      exact all id
  intro type id
  unfold MatchingHandler.addToMatchingHandler
  cases tp.stateType <;> cases type
  case state.state => exact added _ (ordered .state) id
  case neg.neg => exact added _ (ordered .neg) id
  case agg.agg => exact added _ (ordered .agg) id
  case neg.state | agg.state => exact ordered .state id
  case state.neg | agg.neg => exact ordered .neg id
  case state.agg | neg.agg => exact ordered .agg id

end MatchingHandler

theorem ordered_countPredicate {s : Progress} (ordered : s.2.Ordered) (tp : TablePred) :
    (countPredicate s tp).2.Ordered := by
  unfold countPredicate Tally.hit
  split
  · exact ordered.addToMatchingHandler tp
  · exact ordered

theorem ConstraintIndex.ordered_processMessage {V : Type} {kind : IndexKind V}
    {idx : ConstraintIndex V} {pkt : PubPkt} {s : Progress} (ordered : s.2.Ordered) :
    (idx.processMessage kind pkt s).2.Ordered := by
  refine List.foldlRecOn (motive := fun s : Progress => s.2.Ordered) _ _ ordered
    fun s ordered a _ => ?_
  unfold processAttribute
  split
  · refine List.foldlRecOn (motive := fun s : Progress => s.2.Ordered) _ _ ordered
      fun s ordered addr _ => ?_
    exact List.foldlRecOn (motive := fun s : Progress => s.2.Ordered) _ _ ordered
      fun s ordered tp _ => ordered_countPredicate ordered tp
  · exact ordered

theorem IndexingTable.ordered_processMessage (t : IndexingTable) (pkt : PubPkt) :
    (t.processMessage pkt .empty).Ordered := by
  have empty : MatchingHandler.empty.Ordered := by
    intro type id
    cases type <;> exact List.Pairwise.nil
  have noIndex : ((t.noIndex pkt.eventType).foldl
      (fun mh pred => mh.addToMatchingHandler pred) MatchingHandler.empty).Ordered :=
    List.foldlRecOn (motive := MatchingHandler.Ordered) _ _ empty
      fun mh ordered tp _ => ordered.addToMatchingHandler tp
  unfold processMessage
  exact ConstraintIndex.ordered_processMessage (ConstraintIndex.ordered_processMessage
    (ConstraintIndex.ordered_processMessage (ConstraintIndex.ordered_processMessage noIndex)))

/-! ## The elements that take a packet -/

/-- What is asked of a rule: it is built by the builder, its parameters read events already chosen,
its negations and aggregates look back no further than expiry does, its simple parameters are
between states and say the same with their names exchanged, its constraints are on integers or
Booleans and none of them is stated twice for one element, and it has a template, whose attributes
have different names. -/
structure RulePkt.Sound (rule : RulePkt) : Prop where
  built : rule.Built
  reads : rule.ReadsAssigned
  lookBack : rule.LooksBackLocally
  betweenStates : ∀ par ∈ rule.parameters, par.type = .state
  exchanged : Equations.Equivalent rule.checkedSystem rule.statedSystem
  intOrBool : ∀ e ∈ rule.elements, ∀ c ∈ e.constraints, c.IntOrBool
  unrepeated : ∀ e ∈ rule.elements, e.constraints.Pairwise fun c x => c.equals x = false
  template : ∃ t, rule.ceTemplate = some t ∧
    (t.attributes.map Prod.fst ++ t.staticAttributes.map Attribute.name).Nodup

def NamesDiffer (pkt : PubPkt) : Prop := (pkt.attributes.map Attribute.name).Nodup

open IndexingTable (installed elementAt)

theorem mem_elements_of_elementAt {rule : RulePkt} {type : StateType} {i : Nat} {e : Element}
    (found : elementAt rule type i = some e) :
    e ∈ rule.elements ∧ e.stateType = type ∧ e.stateId = i := by
  unfold RulePkt.elements
  cases type with
  | state =>
      obtain ⟨x, lookup, rfl⟩ := Option.map_eq_some_iff.mp found
      have listed : (x, i) ∈ rule.predicates.zipIdx := List.mem_zipIdx_iff_getElem?.mpr lookup
      exact ⟨List.mem_append_left _ (List.mem_append_left _ (List.mem_map_of_mem listed)), rfl, rfl⟩
  | agg =>
      obtain ⟨x, lookup, rfl⟩ := Option.map_eq_some_iff.mp found
      have listed : (x, i) ∈ rule.aggregates.zipIdx := List.mem_zipIdx_iff_getElem?.mpr lookup
      exact ⟨List.mem_append_left _ (List.mem_append_right _ (List.mem_map_of_mem listed)), rfl,
        rfl⟩
  | neg =>
      obtain ⟨x, lookup, rfl⟩ := Option.map_eq_some_iff.mp found
      have listed : (x, i) ∈ rule.negations.zipIdx := List.mem_zipIdx_iff_getElem?.mpr lookup
      exact ⟨List.mem_append_right _ (List.mem_map_of_mem listed), rfl, rfl⟩

section Takes

variable {alloc : Nat → Nat} {rules : List RulePkt} {rule : RulePkt} {pkt : PubPkt}

/-- The constraints of an element are counted right: each at most once, and all just if each is
satisfied. -/
theorem reports_iff_takes (fresh : Function.Injective alloc)
    (ids : (rules.map RulePkt.ruleId).Nodup) (sound : ∀ r ∈ rules, r.Sound) (inRules : rule ∈ rules)
    (names : NamesDiffer pkt) {e : Element} (isElement : e ∈ rule.elements) :
    (installed alloc rules).Reports pkt rule.ruleId e ↔ e.Takes pkt := by
  have identified : ∀ r' ∈ rules, r'.ruleId = rule.ruleId → r' = rule :=
    fun r' inRules' same => List.inj_on_of_nodup_map ids inRules' inRules same
  have intOrBool : IndexingTable.IntOrBool rules := fun r mem => (sound r mem).intOrBool
  have length := length_distinct_of_unrepeated ((sound rule inRules).intOrBool e isElement)
    ((sound rule inRules).unrepeated e isElement)
  have norm : ∀ c : Constraint, pkt.attributes.countP c.settled.satisfiedBy = 1 ↔
      pkt.attributes.countP c.satisfiedBy = 1 := fun c => by rw [Constraint.satisfiedBy_settled]
  have once := fun c => countP_satisfiedBy_le_one names c
  rw [IndexingTable.reports_iff fresh intOrBool inRules identified isElement, ← length,
    Tally.length_le_sum_iff fun c _ => once c, forall_distinct norm]
  refine and_congr_right fun _ => forall_congr' fun c => forall_congr' fun _ => ?_
  rw [← List.countP_pos_iff]
  have := once c
  omega

theorem mem_matching_iff_takes (fresh : Function.Injective alloc)
    (ids : (rules.map RulePkt.ruleId).Nodup) (sound : ∀ r ∈ rules, r.Sound) (inRules : rule ∈ rules)
    (names : NamesDiffer pkt) (type : StateType) (i : Nat) :
    i ∈ ((installed alloc rules).processMessage pkt .empty).matching type rule.ruleId ↔
      takes rule type i pkt = true := by
  unfold takes
  rw [Option.any_eq_true]
  constructor
  · intro reported
    obtain ⟨r, inRules', same, e, isElement, rfl, rfl⟩ :=
      IndexingTable.exists_of_mem_matching reported
    obtain rfl := List.inj_on_of_nodup_map ids inRules' inRules same
    refine ⟨e, IndexingTable.elementAt_of_mem isElement, decide_eq_true ?_⟩
    exact (reports_iff_takes fresh ids sound inRules names isElement).mp reported
  · intro ⟨e, found, takesIt⟩
    obtain ⟨isElement, rfl, rfl⟩ := mem_elements_of_elementAt found
    exact (reports_iff_takes fresh ids sound inRules names isElement).mpr
      (of_decide_eq_true takesIt)

end Takes

/-! ## The calls for one rule -/

section Calls

variable {columns : Nat → Column} {p : PubPktPtr} {indexes : List Nat}

theorem foldl_add (nodup : indexes.Nodup) (p : PubPktPtr) (columns : Nat → Column) :
    indexes.foldl (fun columns i => Function.update columns i ((columns i).add p)) columns =
      fun i => if i ∈ indexes then (columns i).add p else columns i := by
  induction indexes generalizing columns with
  | nil => rfl
  | cons i rest ih =>
      obtain ⟨notIn, nodup'⟩ := List.nodup_cons.mp nodup
      rw [List.foldl_cons, ih nodup']
      funext j
      by_cases here : j = i
      · subst here
        simp [notIn]
      · simp [here]

variable (r : StacksRule) (st : Stacks)

theorem run_addToStack (p : PubPktPtr) (indexes : List Nat) :
    r.run st (indexes.map (.addToStack p)) = { st with
      states := indexes.foldl (fun columns i => Function.update columns i ((columns i).add p))
        st.states } := by
  induction indexes generalizing st with
  | nil => rfl
  | cons i rest ih => exact ih (st.addToStack p i)

theorem run_addToNegationStack (p : PubPktPtr) (indexes : List Nat) :
    r.run st (indexes.map (.addToNegationStack p)) = { st with
      negs := indexes.foldl (fun columns i => Function.update columns i ((columns i).add p))
        st.negs } := by
  induction indexes generalizing st with
  | nil => rfl
  | cons i rest ih => exact ih (st.addToNegationStack p i)

theorem run_addToAggregateStack (p : PubPktPtr) (indexes : List Nat) :
    r.run st (indexes.map (.addToAggregateStack p)) = { st with
      aggs := indexes.foldl (fun columns i => Function.update columns i ((columns i).add p))
        st.aggs } := by
  induction indexes generalizing st with
  | nil => rfl
  | cons i rest ih => exact ih (st.addToAggregateStack p i)

/-- The calls of `TRexEngine.ruleCalls` that put the packet on stacks. -/
def insertions (mh : MatchingHandler) (p : PubPktPtr) (id : Nat) : List Call :=
  (mh.matchingNegations id).map (.addToNegationStack p) ++
  (mh.matchingAggregates id).map (.addToAggregateStack p) ++
  ((mh.matchingStates id).filter fun index => decide (index ≠ 0)).map (.addToStack p)

theorem ruleCalls_eq (mh : MatchingHandler) (p : PubPktPtr) (id : Nat) :
    TRexEngine.ruleCalls mh p id =
      insertions mh p id ++ if 0 ∈ mh.matchingStates id then [.startComputation p] else [] := rfl

theorem inserts_of_mem_insertions {mh : MatchingHandler} {id : Nat} {call : Call}
    (mem : call ∈ insertions mh p id) : call.Inserts ∧ call.pkt = p := by
  rcases List.mem_append.mp mem with isAdd | isState
  · rcases List.mem_append.mp isAdd with isNeg | isAgg
    · obtain ⟨i, -, rfl⟩ := List.mem_map.mp isNeg
      exact ⟨trivial, rfl⟩
    · obtain ⟨i, -, rfl⟩ := List.mem_map.mp isAgg
      exact ⟨trivial, rfl⟩
  · obtain ⟨i, -, rfl⟩ := List.mem_map.mp isState
    exact ⟨trivial, rfl⟩

theorem run_append (calls more : List Call) :
    r.run st (calls ++ more) = r.run (r.run st calls) more := List.foldl_append

/-- Insertions put nothing out. -/
theorem runComp_inserts {engine : TRexEngine} {id : Nat} {r : StacksRule}
    (found : engine.ruleOf id = some r) {calls : List Call} (inserts : ∀ c ∈ calls, c.Inserts)
    (st : Stacks) : Interleave.runComp engine.system st (calls.map fun c => (id, c)) =
      (r.run st calls, []) := by
  induction calls generalizing st with
  | nil => rfl
  | cons c rest ih =>
      obtain ⟨here, there⟩ := List.forall_mem_cons.mp inserts
      have act : engine.system.act (id, c) st = (r.step st c, []) := by
        simp only [TRexEngine.system, found]
        cases c with
        | startComputation p => exact here.elim
        | addToStack p i => rfl
        | addToNegationStack p i => rfl
        | addToAggregateStack p i => rfl
      simp only [List.map_cons, Interleave.runComp, act, ih there]
      rfl

/-- Insertions of a packet that is not older than anything. -/
theorem StacksRule.Simulates.inserts {r : StacksRule} {cur full : Stacks}
    (sim : r.Simulates p.getTimeStamp cur full) {calls : List Call}
    (inserts : ∀ c ∈ calls, c.Inserts ∧ c.pkt = p) :
    r.Simulates p.getTimeStamp (r.run cur calls) (r.run full calls) := by
  induction calls generalizing cur full with
  | nil => exact sim
  | cons c rest ih =>
      obtain ⟨⟨here, same⟩, there⟩ := List.forall_mem_cons.mp inserts
      subst same
      refine ih ?_ there
      cases c with
      | startComputation p => exact here.elim
      | addToStack p i => exact sim.addToStack le_rfl i
      | addToNegationStack p i => exact sim.addToNegationStack le_rfl i
      | addToAggregateStack p i => exact sim.addToAggregateStack le_rfl i

end Calls

/-! ## The memory of one rule -/

/-- A memory holds packets that arrived before, none of them twice for one element, in the order of
their times. -/
structure Kept (arrived now : Nat) (memory : Stacks) : Prop where
  inv : memory.Inv
  past : ∀ type i, ∀ q ∈ (memory.columns type i).received, q.getTimeStamp ≤ now
  below : ∀ type i, ∀ q ∈ (memory.columns type i).received, q.addr < arrived
  distinct : ∀ type i, ((memory.columns type i).received.map PubPktPtr.addr).Nodup

theorem kept_initial (arrived now : Nat) : Kept arrived now .initial := by
  have none : ∀ type i, (Stacks.initial.columns type i).received = [] := by
    intro type i
    cases type <;> rfl
  refine ⟨Stacks.inv_initial, ?_, ?_, ?_⟩ <;> intro type i <;> rw [none] <;> simp

section Memory

variable {rule : RulePkt} {memory : Stacks} {p : PubPktPtr} {arrived now : Nat}

/-- The elements other than the root that take the packet. -/
def Remembers (rule : RulePkt) (pkt : PubPkt) : StateType → Nat → Bool
  | .state, i => decide (i ≠ 0) && takes rule .state i pkt
  | .neg, i => takes rule .neg i pkt
  | .agg, i => takes rule .agg i pkt

theorem columns_receive (type : StateType) (i : Nat) :
    (receive rule memory p).columns type i =
      if Remembers rule p.pkt type i then (memory.columns type i).append p
      else memory.columns type i := by
  cases type <;> rfl

theorem Column.Inv.append {c : Column} (inv : c.Inv)
    (newest : ∀ q ∈ c.received, q.getTimeStamp ≤ p.getTimeStamp) : (c.append p).Inv := by
  have same : c.append p = c.add p := (inv.add_newest newest).symm
  rw [same]
  exact inv.add p

theorem Kept.columnInv (kept : Kept arrived now memory) (type : StateType) (i : Nat) :
    (memory.columns type i).Inv := by
  cases type with
  | state => exact kept.inv.states i
  | neg => exact kept.inv.negs i
  | agg => exact kept.inv.aggs i

theorem Kept.mono (kept : Kept arrived now memory) {arrived' now' : Nat} (more : arrived ≤ arrived')
    (later : now ≤ now') : Kept arrived' now' memory :=
  ⟨kept.inv, fun type i q mem => (kept.past type i q mem).trans later,
    fun type i q mem => (kept.below type i q mem).trans_le more, kept.distinct⟩

theorem Kept.receive (kept : Kept p.addr now memory) (le : now ≤ p.getTimeStamp) :
    Kept (p.addr + 1) p.getTimeStamp (receive rule memory p) := by
  have before := kept.mono (Nat.le_succ _) le
  have column : ∀ type i, ((Detection.receive rule memory p).columns type i).Inv ∧
      (∀ q ∈ ((Detection.receive rule memory p).columns type i).received,
        q.getTimeStamp ≤ p.getTimeStamp ∧ q.addr < p.addr + 1) ∧
      (((Detection.receive rule memory p).columns type i).received.map PubPktPtr.addr).Nodup := by
    intro type i
    rw [columns_receive]
    split
    · refine ⟨(kept.columnInv type i).append (before.past type i), fun q mem => ?_, ?_⟩
      · rcases List.mem_append.mp mem with old | new
        · exact ⟨before.past type i q old, before.below type i q old⟩
        · rw [List.mem_singleton.mp new]
          exact ⟨le_rfl, Nat.lt_succ_self _⟩
      · show (((memory.columns type i).received ++ [p]).map PubPktPtr.addr).Nodup
        rw [List.map_append, List.nodup_append]
        refine ⟨kept.distinct type i, List.nodup_singleton _, fun a old b new => ?_⟩
        obtain ⟨q, mem, rfl⟩ := List.mem_map.mp old
        rw [List.mem_singleton.mp new]
        exact Nat.ne_of_lt (kept.below type i q mem)
    · exact ⟨kept.columnInv type i,
        fun q mem => ⟨before.past type i q mem, before.below type i q mem⟩, kept.distinct type i⟩
  exact
    { inv :=
        { states := fun i => (column .state i).1
          negs := fun i => (column .neg i).1
          aggs := fun i => (column .agg i).1
          terminator := kept.inv.terminator }
      past := fun type i q mem => ((column type i).2.1 q mem).1
      below := fun type i q mem => ((column type i).2.1 q mem).2
      distinct := fun type i => (column type i).2.2 }

theorem Column.without_sublist (c : Column) (used : Nat → Bool) :
    (c.without used).received.Sublist c.received := by
  have kept : ((c.received.zipIdx.filter fun x => !used x.2).map Prod.fst).Sublist
      (c.received.zipIdx.map Prod.fst) := List.filter_sublist.map _
  rwa [List.zipIdx_map_fst] at kept

theorem Kept.consume (kept : Kept arrived now memory) (chosen : List (List Nat)) :
    Kept arrived now (Detection.consume rule memory chosen) := by
  have fewer : ∀ type i, ((Detection.consume rule memory chosen).columns type i).received.Sublist
      (memory.columns type i).received := by
    intro type i
    cases type with
    | state =>
        show ((Detection.consume rule memory chosen).states i).received.Sublist _
        rw [states_consume]
        split
        · exact Column.without_sublist _ _
        · exact List.Sublist.refl _
    | neg => exact List.Sublist.refl _
    | agg => exact List.Sublist.refl _
  have states : ∀ i, ((Detection.consume rule memory chosen).states i).Inv := by
    intro i
    refine ⟨(kept.inv.states i).sorted.sublist (fewer .state i), ?_⟩
    rw [states_consume]
    split
    · rfl
    · exact (kept.inv.states i).size
  have idle : ((Detection.consume rule memory chosen).states 0).received = [] :=
    List.sublist_nil.mp (kept.inv.terminator ▸ fewer .state 0)
  exact
    { inv :=
        { states
          negs := kept.inv.negs
          aggs := kept.inv.aggs
          terminator := idle }
      past := fun type i q mem => kept.past type i q ((fewer type i).subset mem)
      below := fun type i q mem => kept.below type i q ((fewer type i).subset mem)
      distinct := fun type i => (kept.distinct type i).sublist ((fewer type i).map _) }

theorem Kept.react (kept : Kept p.addr now memory) (le : now ≤ p.getTimeStamp) :
    Kept (p.addr + 1) p.getTimeStamp (react rule memory p).1 := by
  unfold Detection.react
  dsimp only
  split
  · exact (kept.receive le).consume _
  · exact kept.receive le

/-- The insertions that the handler asks for are those of the elements that take the packet. -/
theorem Kept.run_insertions (kept : Kept p.addr now memory) (le : now ≤ p.getTimeStamp)
    (r : StacksRule) {mh : MatchingHandler} {id : Nat} (ordered : mh.Ordered)
    (reported : ∀ type i, i ∈ mh.matching type id ↔ takes rule type i p.pkt = true) :
    r.run memory (insertions mh p id) = Detection.receive rule memory p := by
  have nodup : ∀ type, (mh.matching type id).Nodup := fun type =>
    (ordered type id).imp Nat.ne_of_lt
  have states : ((mh.matchingStates id).filter fun index => decide (index ≠ 0)).Nodup :=
    (nodup .state).filter _
  have negs : (mh.matchingNegations id).Nodup := nodup .neg
  have aggs : (mh.matchingAggregates id).Nodup := nodup .agg
  have appended : ∀ type i, (memory.columns type i).add p = (memory.columns type i).append p :=
    fun type i => (kept.columnInv type i).add_newest fun q mem => (kept.past type i q mem).trans le
  have column : ∀ type i (taken : Prop) [Decidable taken],
      (taken ↔ Remembers rule p.pkt type i = true) →
      (if taken then (memory.columns type i).add p else memory.columns type i) =
        (Detection.receive rule memory p).columns type i := by
    intro type i taken _ same
    rw [columns_receive, appended]
    exact if_congr same rfl rfl
  unfold insertions
  rw [run_append, run_append, run_addToNegationStack, run_addToAggregateStack, run_addToStack]
  refine Stacks.ext_columns ?_ ?_ ?_
  · dsimp only
    rw [foldl_add states]
    funext i
    refine column .state i _ ?_
    rw [List.mem_filter, Remembers, Bool.and_eq_true, and_comm]
    exact and_congr_right fun _ => reported .state i
  · dsimp only
    rw [foldl_add negs]
    funext i
    exact column .neg i _ (reported .neg i)
  · dsimp only
    rw [foldl_add aggs]
    funext i
    exact column .agg i _ (reported .agg i)

open StacksRule (new)

/-- The calls for one rule do to what expiry has left of its memory what the packet does to the
memory, and generate the same composite events. -/
theorem runComp_ruleCalls {engine : TRexEngine} {id : Nat} {mh : MatchingHandler} {st : Stacks}
    (sound : rule.Sound) (found : engine.ruleOf id = some (new rule))
    (sim : (new rule).Simulates now st memory) (kept : Kept p.addr now memory)
    (le : now ≤ p.getTimeStamp) (ordered : mh.Ordered)
    (reported : ∀ type i, i ∈ mh.matching type id ↔ takes rule type i p.pkt = true) :
    (Interleave.runComp engine.system st
        ((TRexEngine.ruleCalls mh p id).map fun call => (id, call))).2 = (react rule memory p).2 ∧
      (new rule).Simulates p.getTimeStamp (Interleave.runComp engine.system st
        ((TRexEngine.ruleCalls mh p id).map fun call => (id, call))).1 (react rule memory p).1 := by
  have inserted := (sim.later le).inserts fun c mem => @inserts_of_mem_insertions p mh id c mem
  rw [kept.run_insertions le (new rule) ordered reported] at inserted
  have received : Kept (p.addr + 1) p.getTimeStamp (receive rule memory p) := kept.receive le
  have completes : 0 ∈ mh.matchingStates id ↔ takes rule .state 0 p.pkt = true := reported .state 0
  rw [ruleCalls_eq, List.map_append, Interleave.runComp_append,
    runComp_inserts found fun c mem => (inserts_of_mem_insertions mem).1]
  unfold Detection.react
  dsimp only
  by_cases rooted : takes rule .state 0 p.pkt = true
  · -- the packet completes composite events
    have hasRoot : 0 < rule.predicates.length := by
      obtain ⟨e, isRoot, -⟩ := (Option.any_eq_true _ _).mp rooted
      obtain ⟨x, lookup, -⟩ := Option.map_eq_some_iff.mp isRoot
      exact (List.getElem?_eq_some_iff.mp lookup).1
    rw [if_pos rooted, if_pos (completes.mpr rooted)]
    obtain ⟨outcome, after⟩ := inserted.computation sound.built sound.lookBack le_rfl
      received.inv.terminator
    obtain ⟨results, remains⟩ := computation_eq_react (p := p) sound.built sound.reads
      sound.exchanged received.inv (received.distinct .state) hasRoot
    have computed : Interleave.runComp engine.system
        ((new rule).run st (insertions mh p id)) [(id, .startComputation p)] =
        (((new rule).startComputation ((new rule).run st (insertions mh p id)) p).after,
          ((new rule).startComputation ((new rule).run st (insertions mh p id)) p).results) := by
      simp only [Interleave.runComp, TRexEngine.system, found, List.append_nil]
    rw [List.map_singleton, computed]
    refine ⟨?_, ?_⟩
    · exact outcome.results.trans results
    · rw [← remains]
      exact after
  · rw [if_neg rooted, if_neg (completes.not.mpr rooted)]
    exact ⟨rfl, inserted⟩

end Memory

/-! ## The packets generated -/

/-- The packet has this time, and its attributes have different names. -/
def AllowedAt (now : Nat) (pkt : PubPkt) : Prop := pkt.timeStamp = now ∧ NamesDiffer pkt

theorem namesDiffer_new {eventType : Int} {attributes : List Attribute} {now : Nat}
    (names : (attributes.map Attribute.name).Nodup) :
    NamesDiffer (PubPkt.new eventType attributes now) :=
  names.sublist ((List.take_sublist _ _).map _)

theorem AllowedAt.copy {now : Nat} {pkt : PubPkt} (allowed : AllowedAt now pkt) :
    AllowedAt now pkt.copy :=
  ⟨allowed.1, namesDiffer_new allowed.2⟩

/-- A composite event has the time of the packet that completes it. -/
theorem allowedAt_of_mem_react {rule : RulePkt} {memory : Stacks} {p : PubPktPtr} {x : PubPkt}
    (sound : rule.Sound) (mem : x ∈ (react rule memory p).2) : AllowedAt p.getTimeStamp x := by
  unfold Detection.react at mem
  dsimp only at mem
  split at mem
  case isFalse => cases mem
  case isTrue =>
    obtain ⟨pos, -, rfl⟩ := List.mem_map.mp mem
    refine ⟨rfl, namesDiffer_new ?_⟩
    obtain ⟨t, given, differ⟩ := sound.template
    rw [given, Option.getD_some, List.map_append, List.map_map]
    exact differ

/-! ## All rules -/

namespace TRexEngine

theorem callsOf_append (mh : MatchingHandler) (p : PubPktPtr) (ids more : List Nat) :
    callsOf mh p (ids ++ more) = callsOf mh p ids ++ callsOf mh p more := List.flatMap_append

/-- The ranges of the workers, one after the other. -/
theorem flatMap_range' (size m : Nat) :
    (List.range m).flatMap (fun w => List.range' (size * w) size) = List.range (size * m) := by
  induction m with
  | zero => rfl
  | succ m ih =>
      rw [List.range_succ, List.flatMap_append, ih, List.flatMap_singleton, List.range_eq_range',
        List.range_eq_range', Nat.mul_succ]
      simpa using List.range'_append_1 (s := 0) (m := size * m) (n := size)

/-- All workers together go through the rules in the order of their ids. -/
theorem Holds.allCalls_eq {engine : TRexEngine} {numProc : Nat} {ids : List Nat}
    (holds : engine.Holds numProc ids) (pos : 0 < numProc) {mh : MatchingHandler} {p : PubPktPtr}
    (nothing : ∀ i, ids.length ≤ i → ruleCalls mh p i = []) :
    engine.allCalls mh p = callsOf mh p (List.range ids.length) := by
  have workers : engine.allCalls mh p = callsOf mh p ((List.range numProc).flatMap fun w =>
      List.range' ((ids.length / numProc + 1) * w) (ids.length / numProc + 1)) := by
    unfold allCalls callsOf
    rw [holds.numProc_eq, List.flatMap_assoc]
    refine List.flatMap_congr fun w mem => ?_
    unfold workerCalls callsOf
    rw [holds.numProc_eq, if_pos (List.mem_range.mp mem), holds.lower, holds.upper, Nat.mul_succ,
      Nat.add_sub_cancel_left]
  have enough : ids.length ≤ (ids.length / numProc + 1) * numProc := by
    have := Nat.lt_mul_div_succ ids.length pos
    rw [Nat.mul_comm]
    omega
  obtain ⟨rest, total⟩ := Nat.exists_eq_add_of_le enough
  have beyond : callsOf mh p ((List.range rest).map (ids.length + ·)) = [] := by
    refine List.flatMap_eq_nil_iff.mpr fun i mem => ?_
    obtain ⟨j, -, rfl⟩ := List.mem_map.mp mem
    rw [nothing _ (Nat.le_add_right _ _), List.map_nil]
  rw [workers, flatMap_range', total, List.range_add, callsOf_append, beyond, List.append_nil]

/-- The calls of all workers, rule by rule. -/
theorem Holds.run_allCalls {engine : TRexEngine} {numProc : Nat} {ids : List Nat}
    (holds : engine.Holds numProc ids) (pos : 0 < numProc) {mh : MatchingHandler} {p : PubPktPtr}
    (nothing : ∀ i, ids.length ≤ i → ruleCalls mh p i = []) (st : Nat → Stacks) :
    Interleave.run engine.system st (engine.allCalls mh p) =
      (fun i => if i ∈ List.range ids.length then
          (Interleave.runComp engine.system (st i)
            ((ruleCalls mh p i).map fun call => (i, call))).1
        else st i,
        (List.range ids.length).flatMap fun i => (Interleave.runComp engine.system (st i)
          ((ruleCalls mh p i).map fun call => (i, call))).2) := by
  rw [holds.allCalls_eq pos nothing]
  refine Interleave.run_flatMap List.nodup_range _ (fun i x mem => ?_) st
  obtain ⟨call, -, rfl⟩ := List.mem_map.mp mem
  rfl

end TRexEngine

theorem flatMap_range_eq {α β : Type} {l : List α} {f : Nat → List β} {g : α → List β}
    (same : ∀ k x, l[k]? = some x → f k = g x) : (List.range l.length).flatMap f = l.flatMap g := by
  rw [List.flatMap_def, List.flatMap_def]
  refine congrArg _ (List.ext_getElem (by simp) fun k lt lt' => ?_)
  have inside : k < l.length := by simpa using lt'
  simp only [List.getElem_map, List.getElem_range]
  exact same k _ (List.getElem?_eq_getElem inside)

/-! ## A packet -/

open StacksRule (new)
open TRexEngine (installAll)

/-- Rules that are installed under the ids 0, 1, 2 and so on. -/
structure Installable (rules : List RulePkt) : Prop where
  ids : rules.map RulePkt.ruleId = List.range rules.length
  sound : ∀ rule ∈ rules, rule.Sound

/-- The engine's stacks are what expiry has left of the memories, up to the addresses. -/
structure Tracks (engine : TRexEngine) (now : Nat) (c : Contents) (d : Detection) : Prop where
  delivered : c.delivered = d.delivered
  remains : ∃ (st : Nat → Stacks) (f : Equiv.Perm Nat), engine.Fits st ∧
    (c.stacks = fun id => (st id).move f) ∧ (∀ k, d.rules.length ≤ k → st k = .initial) ∧
    ∀ k rule memory, d.rules[k]? = some (rule, memory) →
      (new rule).Simulates now (st k) memory ∧ Kept d.arrived now memory

section Evaluate

variable {alloc : Nat → Nat} {numProc : Nat} {rules : List RulePkt} {now : Nat} {c : Contents}
  {d : Detection} {pkt : PubPkt}

theorem Installable.nodup (installable : Installable rules) :
    (rules.map RulePkt.ruleId).Nodup := installable.ids ▸ List.nodup_range

theorem Installable.ruleOf (installable : Installable rules) {k : Nat} {rule : RulePkt}
    (lookup : rules[k]? = some rule) :
    rule.ruleId = k ∧ (installAll alloc numProc rules).ruleOf k = some (new rule) := by
  obtain ⟨lt, at_⟩ := List.getElem?_eq_some_iff.mp lookup
  have ruleId : rule.ruleId = k := by
    have same := congrArg (fun l => l[k]?) installable.ids
    simpa [lookup, List.getElem?_range lt] using same
  have holds := @TRexEngine.holds_installAll alloc numProc rules installable.nodup
  have inRules : rule ∈ rules := at_ ▸ List.getElem_mem lt
  obtain ⟨r, found⟩ := Option.isSome_iff_exists.mp
    (holds.ruleOf_isSome (ruleId ▸ List.mem_map_of_mem inRules : k ∈ _))
  obtain ⟨other, inRules', entry⟩ := TRexEngine.mem_stacksRules_installAll
    ((OrdMap.find?_eq_some TRexEngine.idLt_iff holds.sorted).mp found)
  obtain ⟨otherId, isNew⟩ := Prod.mk.inj entry
  obtain rfl := List.inj_on_of_nodup_map installable.nodup inRules inRules'
    (ruleId.trans otherId)
  exact ⟨ruleId, isNew ▸ found⟩

/-- The packets held have arrived before. -/
theorem Tracks.addr_lt (installable : Installable rules) (isRules : d.rules.map Prod.fst = rules)
    {st : Nat → Stacks} (simulates : ∀ k rule memory, d.rules[k]? = some (rule, memory) →
      (new rule).Simulates now (st k) memory ∧ Kept d.arrived now memory) :
    d.arrived ∉ ((installAll alloc numProc rules).held st).map PubPktPtr.addr := by
  intro mem
  obtain ⟨q, held, same⟩ := List.mem_map.mp mem
  obtain ⟨⟨id, r⟩, isRule, held⟩ := List.mem_flatMap.mp held
  obtain ⟨rule, inRules, entry⟩ := TRexEngine.mem_stacksRules_installAll isRule
  obtain ⟨k, lt, at_⟩ := List.getElem_of_mem inRules
  obtain ⟨ruleId, -⟩ := @Installable.ruleOf alloc numProc rules installable k rule
    (at_ ▸ List.getElem?_eq_getElem lt)
  obtain ⟨isId, -⟩ := Prod.mk.inj entry
  dsimp only at held
  rw [isId, ruleId] at held
  have lt' : k < d.rules.length := by
    rw [← isRules, List.length_map] at lt
    exact lt
  have isRule' : d.rules[k].1 = rule := by
    rw [← at_]
    simp [← isRules]
  have entry' : d.rules[k]? = some (rule, d.rules[k].2) := by
    rw [← isRule', List.getElem?_eq_getElem lt']
  obtain ⟨sim, kept⟩ := simulates k rule d.rules[k].2 entry'
  have below : q.addr < d.arrived := by
    rcases List.mem_append.mp held with stateOrNeg | isAgg
    · rcases List.mem_append.mp stateOrNeg with isState | isNeg
      · obtain ⟨i, -, there⟩ := List.mem_flatMap.mp isState
        exact kept.below .state i q ((sim.states i).mem_full there)
      · obtain ⟨i, -, there⟩ := List.mem_flatMap.mp isNeg
        exact kept.below .neg i q ((sim.negs i).mem_full there)
    · obtain ⟨i, -, there⟩ := List.mem_flatMap.mp isAgg
      exact kept.below .agg i q ((sim.aggs i).mem_full there)
  omega

/-- The calls of all workers, for packets that are told apart by their number. -/
theorem run_allCalls_eq (fresh : Function.Injective alloc) (pos : 0 < numProc)
    (installable : Installable rules) (isRules : d.rules.map Prod.fst = rules) {st : Nat → Stacks}
    (simulates : ∀ k rule memory, d.rules[k]? = some (rule, memory) →
      (new rule).Simulates now (st k) memory ∧ Kept d.arrived now memory)
    (le : now ≤ pkt.timeStamp) (names : NamesDiffer pkt) :
    let engine := installAll alloc numProc rules
    let after := Interleave.run engine.system st
      (engine.allCalls (engine.indexingTable.processMessage pkt .empty) ⟨d.arrived, pkt⟩)
    after.2 = (d.rules.flatMap fun x => (react x.1 x.2 ⟨d.arrived, pkt⟩).2) ∧
      (∀ k, d.rules.length ≤ k → after.1 k = st k) ∧
      ∀ k rule memory, d.rules[k]? = some (rule, memory) →
        (new rule).Simulates pkt.timeStamp (after.1 k) (react rule memory ⟨d.arrived, pkt⟩).1 ∧
          Kept (d.arrived + 1) pkt.timeStamp (react rule memory ⟨d.arrived, pkt⟩).1 := by
  intro engine after
  have holds : engine.Holds numProc (rules.map RulePkt.ruleId) :=
    TRexEngine.holds_installAll alloc numProc installable.nodup
  have table : engine.indexingTable = IndexingTable.installed alloc rules :=
    TRexEngine.indexingTable_installAll alloc numProc rules
  have length : (rules.map RulePkt.ruleId).length = d.rules.length := by
    rw [List.length_map, ← isRules, List.length_map]
  have ordered := IndexingTable.ordered_processMessage engine.indexingTable pkt
  have reported : ∀ rule ∈ rules, ∀ type i,
      i ∈ (engine.indexingTable.processMessage pkt .empty).matching type rule.ruleId ↔
        takes rule type i pkt = true := by
    intro rule inRules type i
    rw [table]
    exact mem_matching_iff_takes fresh installable.nodup installable.sound inRules names type i
  have nothing : ∀ i, (rules.map RulePkt.ruleId).length ≤ i → TRexEngine.ruleCalls
      (engine.indexingTable.processMessage pkt .empty) ⟨d.arrived, pkt⟩ i = [] := by
    intro i beyond
    refine @ruleCalls_of_not_installed alloc numProc rules ⟨d.arrived, pkt⟩ i fun isId => ?_
    rw [installable.ids, List.mem_range] at isId
    rw [List.length_map] at beyond
    omega
  have each : ∀ k rule memory, d.rules[k]? = some (rule, memory) →
      (Interleave.runComp engine.system (st k) ((TRexEngine.ruleCalls
          (engine.indexingTable.processMessage pkt .empty) ⟨d.arrived, pkt⟩ k).map
            fun call => (k, call))).2 = (react rule memory ⟨d.arrived, pkt⟩).2 ∧
        (new rule).Simulates pkt.timeStamp (Interleave.runComp engine.system (st k)
          ((TRexEngine.ruleCalls (engine.indexingTable.processMessage pkt .empty) ⟨d.arrived, pkt⟩
            k).map fun call => (k, call))).1 (react rule memory ⟨d.arrived, pkt⟩).1 := by
    intro k rule memory lookup
    have inRules : rules[k]? = some rule := by rw [← isRules, List.getElem?_map, lookup]; rfl
    obtain ⟨ruleId, found⟩ := @Installable.ruleOf alloc numProc rules installable k rule inRules
    have isRule := List.mem_of_getElem? inRules
    obtain ⟨sim, kept⟩ := simulates k rule memory lookup
    exact @runComp_ruleCalls rule memory ⟨d.arrived, pkt⟩ now engine k
      (engine.indexingTable.processMessage pkt .empty) (st k) (installable.sound rule isRule) found
      sim kept le ordered (ruleId ▸ reported rule isRule)
  have split : after = _ := holds.run_allCalls pos nothing st
  rw [length] at split
  rw [split]
  refine ⟨flatMap_range_eq fun k x lookup => (each k x.1 x.2 lookup).1, fun k beyond => ?_, ?_⟩
  · exact if_neg fun inside => Nat.not_lt.mpr beyond (List.mem_range.mp inside)
  intro k rule memory lookup
  have inside := (List.getElem?_eq_some_iff.mp lookup).1
  dsimp only
  rw [if_pos (List.mem_range.mpr inside)]
  exact ⟨(each k rule memory lookup).2,
    @Kept.react rule memory ⟨d.arrived, pkt⟩ now (simulates k rule memory lookup).2 le⟩

/-- What `Detection` does with a packet. -/
theorem Tracks.evaluate (fresh : Function.Injective alloc) (pos : 0 < numProc)
    (installable : Installable rules) (isRules : d.rules.map Prod.fst = rules)
    (tracks : Tracks (installAll alloc numProc rules) now c d) (le : now ≤ pkt.timeStamp)
    (names : NamesDiffer pkt) (place : Placement) (order : SetOrder) :
    Tracks (installAll alloc numProc rules) pkt.timeStamp
        ((installAll alloc numProc rules).evaluate place order c pkt).1 (d.evaluate order pkt).1 ∧
      ((installAll alloc numProc rules).evaluate place order c pkt).2 = (d.evaluate order pkt).2 ∧
      ∀ x ∈ ((installAll alloc numProc rules).evaluate place order c pkt).2,
        AllowedAt pkt.timeStamp x := by
  obtain ⟨delivered, st, f, fits, moved, unused, simulates⟩ := tracks
  have sorted := (@TRexEngine.holds_installAll alloc numProc rules installable.nodup).sorted
  have unheld := @Tracks.addr_lt alloc numProc rules now d installable isRules st simulates
  obtain ⟨generated, untouched, remains⟩ := run_allCalls_eq fresh pos installable isRules simulates
    le names
  have made := fun x mem => @made_of_mem_allCalls alloc numProc rules installable.nodup
    ⟨d.arrived, pkt⟩ x mem
  generalize installAll alloc numProc rules = engine at *
  have free := place.fresh ((engine.held c.stacks).map PubPktPtr.addr)
  rw [moved] at free
  obtain ⟨g, here, same⟩ := TRexEngine.exists_extension sorted fits f unheld free
  have run := @TRexEngine.run_allCalls_move engine g g.injective st
    (engine.indexingTable.processMessage pkt .empty) ⟨d.arrived, pkt⟩
  have ptr : PubPktPtr.move g ⟨d.arrived, pkt⟩ =
      ⟨place.pick ((engine.held c.stacks).map PubPktPtr.addr), pkt⟩ := by
    rw [moved, ← here]
    rfl
  rw [ptr, same, ← moved] at run
  have result : (engine.evaluate place order c pkt).2 = (d.evaluate order pkt).2 := by
    simp only [TRexEngine.evaluate, Detection.evaluate, congrArg Prod.snd run, generated, delivered]
  refine ⟨⟨?_, _, g, TRexEngine.run_fits fits made, congrArg Prod.fst run, ?_, ?_⟩, result, ?_⟩
  · rw [delivered_evaluate, result, delivered]
    rfl
  · intro k beyond
    have beyond' : d.rules.length ≤ k := by
      have same : (d.evaluate order pkt).1.rules.length = d.rules.length := List.length_map _
      omega
    exact (untouched k beyond').trans (unused k beyond')
  · intro k rule memory' lookup
    obtain ⟨x, before, entry⟩ := Option.map_eq_some_iff.mp
      ((List.getElem?_map ..).symm.trans lookup)
    obtain ⟨rfl, rfl⟩ := Prod.mk.inj entry
    exact remains k x.1 x.2 before
  · intro x mem
    rw [result] at mem
    obtain ⟨y, isRule, isComposite⟩ := List.mem_flatMap.mp ((order.perm _ _).mem_iff.mp mem)
    have inRules : y.1 ∈ rules := isRules ▸ List.mem_map_of_mem isRule
    exact allowedAt_of_mem_react (installable.sound y.1 inRules) isComposite

theorem map_fst_evaluate (order : SetOrder) (d : Detection) (pkt : PubPkt) :
    (d.evaluate order pkt).1.rules.map Prod.fst = d.rules.map Prod.fst := by
  simp [Detection.evaluate]

/-- Everything that a publication causes happens at its time. -/
theorem mirrors_detection (fresh : Function.Injective alloc) (pos : 0 < numProc)
    (installable : Installable rules) (place : Placement) (order : SetOrder) (now : Nat) :
    Mirrors (AllowedAt now)
      (fun c d => d.rules.map Prod.fst = rules ∧ Tracks (installAll alloc numProc rules) now c d)
      ((installAll alloc numProc rules).feedback place order) (Detection.feedback order) := by
  intro c d x allowed ⟨isRules, tracks⟩
  have copied := allowed.copy
  obtain ⟨after, result, generated⟩ := tracks.evaluate fresh pos installable isRules
    (Nat.le_of_eq copied.1.symm) copied.2 place order
  rw [copied.1] at after generated
  exact ⟨⟨(map_fst_evaluate order d x.copy).trans isRules, after⟩, result, generated⟩

end Evaluate

/-! ## Runs -/

open RecursiveEngine (Operation rulesOf)

def Operation.publication? : Operation → Option PubPkt
  | .processRulePkt _ => none
  | .processPubPkt pkt => some pkt

/-- The packets published by a sequence of operations. -/
def publicationsOf (ops : List Operation) : List PubPkt := ops.filterMap Operation.publication?

/-- The rules are installed under the ids 0, 1, 2 and so on; no packet is published before the time
of an earlier one, and none has two attributes of one name. -/
structure Orderly (ops : List Operation) : Prop where
  installable : Installable (rulesOf ops)
  times : (publicationsOf ops).Pairwise fun pkt later => pkt.timeStamp ≤ later.timeStamp
  names : ∀ pkt ∈ publicationsOf ops, NamesDiffer pkt

theorem Installable.before {rules more : List RulePkt} (installable : Installable (rules ++ more)) :
    Installable rules := by
  refine ⟨?_, fun rule mem => installable.sound rule (List.mem_append_left _ mem)⟩
  have ids := congrArg (List.take rules.length) installable.ids
  rw [List.map_append, List.take_left' (List.length_map _), List.take_range, List.length_append,
    Nat.min_eq_left (Nat.le_add_right _ _)] at ids
  exact ids

theorem publicationsOf_append (ops more : List Operation) :
    publicationsOf (ops ++ more) = publicationsOf ops ++ publicationsOf more :=
  List.filterMap_append

theorem Orderly.before {ops more : List Operation} (orderly : Orderly (ops ++ more)) :
    Orderly ops := by
  obtain ⟨installable, times, names⟩ := orderly
  rw [RecursiveEngine.rulesOf_append] at installable
  rw [publicationsOf_append] at times names
  exact ⟨installable.before, (List.pairwise_append.mp times).1,
    fun pkt mem => names pkt (List.mem_append_left _ mem)⟩

section Runs

variable {alloc : Nat → Nat} {numProc : Nat} {ops : List Operation} {e : RecursiveEngine}
  {place : Placement} {order : SetOrder}

/-- After a run the engine tracks `Detection` at a time that is not after any time from which on
everything could still be published. -/
structure Tracked (place : Placement) (order : SetOrder) (ops : List Operation)
    (e : RecursiveEngine) : Prop where
  rules : (Detection.run order ops).rules.map Prod.fst = rulesOf ops
  tracks : ∃ now, (∀ later, (∀ pkt ∈ publicationsOf ops, pkt.timeStamp ≤ later) → now ≤ later) ∧
    Tracks e.toTRexEngine now e.contents (Detection.run order ops)

theorem run_concat_detection (order : SetOrder) (ops : List Operation) (op : Operation) :
    Detection.run order (ops ++ [op]) = (Detection.run order ops).step order op :=
  List.foldl_concat ..

open Classical in
theorem Detection.feedsBack_iff (d : Detection) (count : Nat) :
    d.feedsBack count = true ↔ Detected (d.rules.map Prod.fst) ∧ count < maxRecursionDepth := by
  unfold Detection.feedsBack
  rw [Bool.and_eq_true, decide_eq_true_eq, decide_eq_true_eq]

/-- A rule installed under a new id has an empty memory. -/
theorem Tracks.install {rules : List RulePkt} {rule : RulePkt} {now : Nat} {c : Contents}
    {d : Detection} (installable : Installable (rules ++ [rule]))
    (tracks : Tracks (TRexEngine.installAll alloc numProc rules) now c d) :
    Tracks (TRexEngine.installAll alloc numProc (rules ++ [rule])) now c
      (d.step order (.processRulePkt rule)) := by
  obtain ⟨delivered, st, f, fits, moved, unused, simulates⟩ := tracks
  refine ⟨delivered, st, f, fits.install installable.nodup, moved, fun k beyond => ?_, ?_⟩
  · have length : d.rules.length ≤ k := by
      have longer : (d.rules ++ [(rule, Stacks.initial)]).length ≤ k := beyond
      rw [List.length_append] at longer
      omega
    exact unused k length
  · intro k rule' memory lookup
    have listed : (d.rules ++ [(rule, Stacks.initial)])[k]? = some (rule', memory) := lookup
    rcases Nat.lt_or_ge k d.rules.length with old | new
    · rw [List.getElem?_append_left old] at listed
      exact simulates k rule' memory listed
    · rw [List.getElem?_append_right new, List.getElem?_singleton] at listed
      split at listed
      · cases listed
        rw [unused k new]
        exact ⟨StacksRule.Simulates.initial.later (Nat.zero_le _), kept_initial _ _⟩
      · cases listed

/-- A publication. -/
theorem Tracks.publish {rules : List RulePkt} {now : Nat} {d : Detection} {pkt : PubPkt}
    (fresh : Function.Injective alloc) (pos : 0 < numProc) (installable : Installable rules)
    (engine : e.toTRexEngine = TRexEngine.installAll alloc numProc rules)
    (isRules : d.rules.map Prod.fst = rules) (flag : e.feedsBack = d.feedsBack)
    (tracks : Tracks (TRexEngine.installAll alloc numProc rules) now e.contents d)
    (le : now ≤ pkt.timeStamp) (names : NamesDiffer pkt) :
    (d.publish order pkt).state.rules.map Prod.fst = rules ∧
      Tracks (TRexEngine.installAll alloc numProc rules) pkt.timeStamp
        (RecursiveEngine.walkOf place order e pkt).state (d.publish order pkt).state := by
  obtain ⟨after, result, generated⟩ :=
    tracks.evaluate fresh pos installable isRules le names place order
  rw [RecursiveEngine.walkOf_eq, Detection.publish, engine, flag, ← result]
  have mirrors := mirrors_detection fresh pos installable place order pkt.timeStamp
  have start := And.intro ((map_fst_evaluate order d pkt).trans isRules) after
  refine (mirrors.walk ?_ rfl generated).state
  exact start

theorem tracked_run (fresh : Function.Injective alloc) (pos : 0 < numProc) (orderly : Orderly ops)
    (reached : RecursiveEngine.run alloc place order (.finalize numProc) ops = some e) :
    Tracked place order ops e := by
  induction ops using List.reverseRecOn generalizing e with
  | nil =>
      cases reached
      exact ⟨rfl, 0, fun _ _ => Nat.zero_le _, rfl, fun _ => .initial, 1, fun _ => fits_initial,
        rfl,
        fun _ _ => rfl, fun k rule memory lookup => by cases lookup⟩
  | append_singleton ops op ih =>
      obtain ⟨mid, before, now⟩ := RecursiveEngine.run_concat alloc place order reached
      have rules := RecursiveEngine.toTRexEngine_run rfl before
      have rules' := RecursiveEngine.toTRexEngine_run rfl reached
      have installable := orderly.installable
      have ⟨isRules, time, bound, tracks⟩ := ih orderly.before before
      rw [RecursiveEngine.rulesOf_append] at rules' installable
      rw [rules] at tracks
      cases op with
      | processRulePkt rule =>
          cases now
          have published : publicationsOf (ops ++ [.processRulePkt rule]) = publicationsOf ops := by
            rw [publicationsOf_append]
            exact List.append_nil _
          refine ⟨?_, time, published ▸ bound, ?_⟩
          · rw [run_concat_detection, RecursiveEngine.rulesOf_append, ← isRules]
            exact List.map_append
          · rw [run_concat_detection, rules', RecursiveEngine.contents_processRulePkt]
            exact tracks.install installable
      | processPubPkt pkt =>
          rw [RecursiveEngine.step_processPubPkt] at now
          cases now
          have same : rulesOf ops ++ rulesOf [.processPubPkt pkt] = rulesOf ops := List.append_nil _
          rw [same] at rules'
          have published : publicationsOf (ops ++ [.processPubPkt pkt]) =
              publicationsOf ops ++ [pkt] := publicationsOf_append _ _
          have times := orderly.times
          have names := orderly.names
          rw [published] at times names
          have le : time ≤ pkt.timeStamp := bound _ fun earlier mem =>
            (List.pairwise_append.mp times).2.2 earlier mem pkt List.mem_cons_self
          have flag : mid.feedsBack = (Detection.run order ops).feedsBack := by
            funext count
            rw [Bool.eq_iff_iff, RecursiveEngine.feedsBack_run before, Detection.feedsBack_iff,
              isRules]
          obtain ⟨isRules', tracks'⟩ := @Tracks.publish alloc numProc mid place order _ _ _ pkt
            fresh pos
            orderly.before.installable rules isRules flag tracks le
            (names pkt (List.mem_append_right _ List.mem_cons_self))
          refine ⟨?_, pkt.timeStamp, fun later all => all pkt ?_, ?_⟩
          · rw [run_concat_detection, RecursiveEngine.rulesOf_append, same]
            exact isRules'
          · rw [published]
            exact List.mem_append_right _ List.mem_cons_self
          · rw [run_concat_detection, rules']
            exact tracks'

end Runs

/-- The composite events that a run of the engine hands out are those of `Detection`. -/
theorem delivered_eq_detection (alloc : Nat → Nat) (fresh : Function.Injective alloc)
    (numProc : Nat)
    (pos : 0 < numProc) (place : Placement) (order : SetOrder) (ops : List Operation)
    (orderly : Orderly ops) :
    ∃ e, RecursiveEngine.run alloc place order (.finalize numProc) ops = some e ∧
      e.contents.delivered = (Detection.run order ops).delivered := by
  obtain ⟨e, reached⟩ := Option.ne_none_iff_exists'.mp
    (@RecursiveEngine.run_ne_none alloc place order (.finalize numProc) ops)
  obtain ⟨now, -, tracks⟩ := (tracked_run fresh pos orderly reached).tracks
  exact ⟨e, reached, tracks.delivered⟩

/-! A fire, an alarm raised by it, and a suspicion from two events of one area. -/

theorem RulePkt.Sound.unconstrained {rule : RulePkt} (built : rule.Built)
    (reads : rule.ReadsAssigned) (lookBack : rule.LooksBackLocally)
    (betweenStates : ∀ par ∈ rule.parameters, par.type = .state)
    (exchanged : Equations.Equivalent rule.checkedSystem rule.statedSystem)
    (none : ∀ e ∈ rule.elements, e.constraints = [])
    (template : ∃ t, rule.ceTemplate = some t ∧
      (t.attributes.map Prod.fst ++ t.staticAttributes.map Attribute.name).Nodup) : rule.Sound where
  built := built
  reads := reads
  lookBack := lookBack
  betweenStates := betweenStates
  exchanged := exchanged
  intOrBool := fun e mem => by
    rw [none e mem]
    exact List.forall_mem_nil _
  unrepeated := fun e mem => by
    rw [none e mem]
    exact .nil
  template := template

/-- A rule of predicates and simple parameters alone. -/
theorem RulePkt.Sound.plain {rule : RulePkt} (built : rule.Built) (refersBack : rule.RefersBack)
    (complex : rule.complexParameters = []) (negations : rule.negations = [])
    (aggregates : rule.aggregates = []) (betweenStates : ∀ par ∈ rule.parameters, par.type = .state)
    (exchanged : Equations.Equivalent rule.checkedSystem rule.statedSystem)
    (none : ∀ p ∈ rule.predicates, p.constraints = [])
    (template : ∃ t, rule.ceTemplate = some t ∧
      (t.attributes.map Prod.fst ++ t.staticAttributes.map Attribute.name).Nodup) : rule.Sound := by
  refine .unconstrained built ⟨refersBack, ?_, ?_⟩ ⟨refersBack, ?_, ?_⟩ betweenStates exchanged ?_
    template
  · rw [complex]
    exact List.forall_mem_nil _
  · rw [complex]
    exact List.forall_mem_nil _
  · rw [negations]
    exact List.forall_mem_nil _
  · rw [aggregates]
    exact List.forall_mem_nil _
  · intro e mem
    rw [RulePkt.elements, negations, aggregates] at mem
    simp only [List.zipIdx_nil, List.map_nil, List.append_nil, List.mem_map] at mem
    obtain ⟨⟨p, i⟩, listed, rfl⟩ := mem
    exact none p (List.fst_mem_of_mem_zipIdx listed)

theorem fireRule_sound : RulePkt.fireRule.Sound := by
  refine .unconstrained RulePkt.fireRule_built fireRule_readsAssigned fireRule_looksBackLocally
    (List.forall_mem_nil _) ⟨List.forall_mem_nil _, List.forall_mem_nil _⟩ ?_
    ⟨_, rfl, List.nodup_nil⟩
  intro e mem
  simp only [RulePkt.elements, RulePkt.fireRule, List.zipIdx_cons, List.zipIdx_nil, List.map_cons,
    List.map_nil, List.cons_append, List.nil_append, List.mem_cons, List.not_mem_nil,
    or_false] at mem
  rcases mem with rfl | rfl | rfl <;> rfl

theorem singleRule_sound (ruleId : Nat) (input output : Int) :
    (singleRule ruleId input output).Sound := by
  refine .plain ?_ ?_ rfl rfl rfl (List.forall_mem_nil _)
    ⟨List.forall_mem_nil _, List.forall_mem_nil _⟩ (List.forall_mem_singleton.mpr rfl)
    ⟨_, rfl, List.nodup_nil⟩
  · exact .call (.setCompositeEventTemplate ⟨output, [], []⟩)
      (.call (.addRootPredicate input []) (.new false ruleId) rfl) rfl
  · intro i p lookup pos
    have lt := (List.getElem?_eq_some_iff.mp lookup).1
    simp only [singleRule, List.length_cons, List.length_nil] at lt
    omega

/-- Smoke and a temperature before it that have one area, the area being reported. -/
def areaRule : RulePkt :=
  { ruleId := 2, negations := [], aggregates := [], consuming := [], complexParameters := []
    predicates := [
      { eventType := 1, constraints := [], refersTo := -1, win := 0, kind := .eachWithin },
      { eventType := 2, constraints := [], refersTo := 0, win := 300, kind := .eachWithin }]
    parameters := [
      { evIndex1 := 1, name1 := ['a'], evIndex2 := 0, name2 := ['a'], type := .state }]
    ceTemplate := some ⟨6, [(['a'], .leaf (.rulePkt 1 .state (some ['a'])) .int)], []⟩ }

theorem areaRule_sound : areaRule.Sound := by
  refine .plain ?_ ?_ rfl rfl rfl (List.forall_mem_singleton.mpr rfl) ?_ ?_
    ⟨_, rfl, List.nodup_singleton _⟩
  · exact .call
      (.setCompositeEventTemplate ⟨6, [(['a'], .leaf (.rulePkt 1 .state (some ['a'])) .int)], []⟩)
      (.call (.addParameterBetweenStates 0 ['a'] 1 ['a'])
        (.call (.addPredicate 2 [] 0 300 .eachWithin)
          (.call (.addRootPredicate 1 []) (.new false 2) rfl) rfl) rfl) rfl
  · intro i p lookup pos
    have lt := (List.getElem?_eq_some_iff.mp lookup).1
    obtain rfl : i = 1 := by
      simp only [areaRule, List.length_cons, List.length_nil] at lt
      omega
    cases lookup
    decide
  · -- one name on both sides: the equation read from the other end
    exact ⟨List.forall_mem_singleton.mpr (.single (.inr List.mem_cons_self)),
      List.forall_mem_singleton.mpr (.single (.inr List.mem_cons_self))⟩
  · decide

def fireThenAlarm : List Operation :=
  [.processRulePkt .fireRule, .processRulePkt (singleRule 1 4 5), .processRulePkt areaRule,
    .processPubPkt (.new 2 [⟨['a'], .int 8⟩] 50), .processPubPkt (reading 1 2 60).pkt,
    .processPubPkt (reading 2 1 100).pkt]

theorem fireThenAlarm_delivered :
    ((RecursiveEngine.run id .above .asGenerated (.finalize 2) fireThenAlarm).map
        fun e => e.contents.delivered.map PubPkt.eventType) = some [4, 6, 5] ∧
      ∃ e, RecursiveEngine.run id .above .asGenerated (.finalize 2) fireThenAlarm = some e ∧
        e.contents.delivered = (Detection.run .asGenerated fireThenAlarm).delivered := by
  have orderly : Orderly fireThenAlarm := by
    have names : ∀ pkt ∈ publicationsOf fireThenAlarm,
        (pkt.attributes.map Attribute.name).Nodup := by
      decide
    refine ⟨⟨rfl, ?_⟩, by decide, names⟩
    intro rule mem
    rcases List.mem_cons.mp mem with rfl | mem
    · exact fireRule_sound
    rcases List.mem_cons.mp mem with rfl | mem
    · exact singleRule_sound 1 4 5
    · rw [List.mem_singleton.mp mem]
      exact areaRule_sound
  exact ⟨by decide +kernel, delivered_eq_detection id Function.injective_id 2 (by decide) .above
    .asGenerated fireThenAlarm orderly⟩

end TRex
