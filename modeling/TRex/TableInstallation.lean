import TRex.IndexInvariant

/-!
# What the table holds after installation

The calls of `installRulePkt` allocate one predicate for each element of the rules (`entries`) and
install its constraints one after the other (`installations`). Each typed index of each event type
then is what `installConstraint` builds from the calls that reached it (`callsTo`), and the elements
without constraints are in `NoConstraintIndex` (`installed_spec`). Last, a message reports exactly
the predicates without constraints of its type and those hit as often as they have constraints
(`mem_matching_processMessage`).
-/

namespace TRex

/-- The index that a sequence of `installConstraint` calls builds: for each call the address a new
table constraint would get, the constraint and the predicate. -/
def ConstraintIndex.installAll {V : Type} (kind : IndexKind V)
    (calls : List (Nat × Constraint × TablePred)) : ConstraintIndex V :=
  calls.foldl (fun idx call => idx.installConstraint kind call.1 call.2.1 call.2.2) .empty

theorem ConstraintIndex.installAll_concat {V : Type} (kind : IndexKind V)
    (calls : List (Nat × Constraint × TablePred)) (call : Nat × Constraint × TablePred) :
    installAll kind (calls ++ [call]) =
      (installAll kind calls).installConstraint kind call.1 call.2.1 call.2.2 := by
  unfold installAll
  rw [List.foldl_concat]

/-- A table constraint is connected to predicates it was installed for only. -/
theorem ConstraintIndex.mem_connectedPredicates {V : Type} {kind : IndexKind V}
    {calls : List (Nat × Constraint × TablePred)} {e : Nat × TableConstraint V}
    (used : e ∈ (installAll kind calls).usedConstraints) {tp : TablePred}
    (connected : tp ∈ e.2.connectedPredicates) : ∃ call ∈ calls, call.2.2 = tp := by
  induction calls using List.reverseRecOn generalizing e with
  | nil => cases used
  | append_singleton calls call ih =>
      rw [installAll_concat] at used
      have of_connect : ∀ (idx : ConstraintIndex V) addr,
          e ∈ (idx.connect addr call.2.2).usedConstraints →
          call.2.2 = tp ∨ ∃ old ∈ idx.usedConstraints, tp ∈ old.2.connectedPredicates := by
        intro idx addr mem
        obtain ⟨old, inOld, rfl⟩ := List.mem_map.mp mem
        simp only at connected
        split at connected
        · rcases List.mem_insert_iff.mp connected with same | before
          · exact .inl same.symm
          · exact .inr ⟨old, inOld, before⟩
        · exact .inr ⟨old, inOld, connected⟩
      have older : ∀ old ∈ (installAll kind calls).usedConstraints,
          tp ∈ old.2.connectedPredicates → ∃ call' ∈ calls ++ [call], call'.2.2 = tp := by
        intro old inOld isIn
        obtain ⟨call', mem, same⟩ := ih inOld isIn
        exact ⟨call', List.mem_append_left _ mem, same⟩
      have last : call.2.2 = tp → ∃ call' ∈ calls ++ [call], call'.2.2 = tp :=
        fun same => ⟨call, List.mem_append_right _ (List.mem_singleton.mpr rfl), same⟩
      unfold installConstraint at used
      split at used
      · rcases of_connect _ _ used with same | ⟨old, inOld, isIn⟩
        · exact last same
        · exact older old inOld isIn
      · rcases of_connect _ _ used with same | ⟨old, inOld, isIn⟩
        · exact last same
        · rcases OrdMap.mem_of_mem_insert inOld with rfl | before
          · cases isIn
          · exact older old before isIn

/-- A hit is on a predicate that some call installed. -/
theorem ConstraintIndex.mem_hitsOf {V : Type} {kind : IndexKind V}
    {calls : List (Nat × Constraint × TablePred)} {a : Attribute} {tp : TablePred}
    (hit : tp ∈ (installAll kind calls).hitsOf kind a) : ∃ call ∈ calls, call.2.2 = tp := by
  unfold hitsOf at hit
  split at hit
  · obtain ⟨addr, -, isIn⟩ := List.mem_flatMap.mp hit
    unfold predicatesAt at isIn
    cases found : OrdMap.find? addrLt addr (installAll kind calls).usedConstraints with
    | none =>
        rw [found] at isIn
        cases isIn
    | some itc =>
        rw [found] at isIn
        obtain ⟨e, first, rfl⟩ := Option.map_eq_some_iff.mp found
        exact mem_connectedPredicates (List.mem_of_find?_eq_some first) isIn
  · cases hit

namespace IndexingTable

open ConstraintIndex (installAll installAll_concat)

/-! ## The calls -/

/-- The elements of the rules in the order of installation, each with the id of its rule. -/
def allElements (rules : List RulePkt) : List (Nat × Element) :=
  rules.flatMap fun r => r.elements.map fun e => (r.ruleId, e)

/-- The predicates allocated for a sequence of elements. -/
def entriesOf (elements : List (Nat × Element)) : List (TablePred × Element) :=
  elements.zipIdx.map fun x => (tablePred x.2 x.1.1 x.1.2, x.1.2)

/-- The predicates allocated for the rules, with the elements they stand for. -/
def entries (rules : List RulePkt) : List (TablePred × Element) := entriesOf (allElements rules)

/-- The calls of `installConstraint`: event type, constraint and predicate. -/
def installations (es : List (TablePred × Element)) : List (Int × Constraint × TablePred) :=
  es.flatMap fun x => x.2.constraints.map fun c => (x.2.eventType, c, x.1)

/-- The calls that reach the index for one type of values and one type of events. The table
constraint of the `k`-th call of all is the `k`-th allocated. -/
def callsTo (alloc : Nat → Nat) (type : ValType) (eventType : Int)
    (log : List (Int × Constraint × TablePred)) : List (Nat × Constraint × TablePred) :=
  log.zipIdx.filterMap fun x =>
    if x.1.1 = eventType ∧ x.1.2.1.type = type then some (alloc x.2, x.1.2) else none

theorem mem_entries {rules : List RulePkt} {tp : TablePred} {e : Element}
    (mem : (tp, e) ∈ entries rules) :
    (∃ r ∈ rules, r.ruleId = tp.ruleId ∧ e ∈ r.elements) ∧
      tp = tablePred tp.addr tp.ruleId e := by
  obtain ⟨⟨⟨ruleId, e'⟩, k⟩, listed, same⟩ := List.mem_map.mp mem
  cases same
  obtain ⟨r, inRules, inElements⟩ := List.mem_flatMap.mp (List.fst_mem_of_mem_zipIdx listed)
  obtain ⟨e', isElement, same⟩ := List.mem_map.mp inElements
  cases same
  exact ⟨⟨r, inRules, rfl, isElement⟩, rfl⟩

theorem exists_mem_entries {rules : List RulePkt} {r : RulePkt} {e : Element}
    (inRules : r ∈ rules) (isElement : e ∈ r.elements) :
    ∃ k, (tablePred k r.ruleId e, e) ∈ entries rules := by
  have listed : (r.ruleId, e) ∈ allElements rules :=
    List.mem_flatMap.mpr ⟨r, inRules, List.mem_map_of_mem isElement⟩
  obtain ⟨k, at_k⟩ := List.mem_iff_getElem?.mp listed
  have pair : ((r.ruleId, e), k) ∈ (allElements rules).zipIdx :=
    List.mem_zipIdx_iff_getElem?.mpr at_k
  exact ⟨k, List.mem_map.mpr ⟨_, pair, rfl⟩⟩

/-- A predicate stands for one element. -/
theorem eq_of_mem_entries {rules : List RulePkt} {tp : TablePred} {e e' : Element}
    (mem : (tp, e) ∈ entries rules) (mem' : (tp, e') ∈ entries rules) : e = e' := by
  obtain ⟨⟨x, k⟩, listed, same⟩ := List.mem_map.mp mem
  obtain ⟨⟨x', k'⟩, listed', same'⟩ := List.mem_map.mp mem'
  cases same
  have sameAddr : k' = k := congrArg (fun y => y.1.addr) same'
  rw [List.mem_zipIdx_iff_getElem?] at listed listed'
  rw [sameAddr] at listed'
  have sameElement : x' = x := Option.some.inj (listed'.symm.trans listed)
  rw [sameElement] at same'
  exact (congrArg Prod.snd same')

theorem entriesOf_concat (elements : List (Nat × Element)) (x : Nat × Element) :
    entriesOf (elements ++ [x]) =
      entriesOf elements ++ [(tablePred elements.length x.1 x.2, x.2)] := by
  simp [entriesOf, List.zipIdx_append]

theorem callsTo_concat (alloc : Nat → Nat) (type : ValType) (eventType : Int)
    (log : List (Int × Constraint × TablePred)) (call : Int × Constraint × TablePred) :
    callsTo alloc type eventType (log ++ [call]) = callsTo alloc type eventType log ++
      if call.1 = eventType ∧ call.2.1.type = type then [(alloc log.length, call.2)] else [] := by
  unfold callsTo
  rw [List.zipIdx_append, List.filterMap_append]
  congr 1
  split <;> simp [*]

theorem mem_callsTo {alloc : Nat → Nat} {type : ValType} {eventType : Int}
    {log : List (Int × Constraint × TablePred)} {call : Nat × Constraint × TablePred}
    (mem : call ∈ callsTo alloc type eventType log) :
    (eventType, call.2) ∈ log ∧ call.2.1.type = type := by
  obtain ⟨⟨⟨ty, c⟩, k⟩, listed, passes⟩ := List.mem_filterMap.mp mem
  obtain ⟨⟨sameEvent, sameType⟩, same⟩ := Option.ite_none_right_eq_some.mp passes
  cases same
  have inLog := List.fst_mem_of_mem_zipIdx listed
  simp only at sameEvent
  rw [sameEvent] at inLog
  exact ⟨inLog, sameType⟩

theorem exists_mem_callsTo (alloc : Nat → Nat) {eventType : Int}
    {log : List (Int × Constraint × TablePred)} {c : Constraint} {tp : TablePred}
    (mem : (eventType, c, tp) ∈ log) :
    ∃ addr, (addr, c, tp) ∈ callsTo alloc c.type eventType log := by
  obtain ⟨k, at_k⟩ := List.mem_iff_getElem?.mp mem
  have listed : ((eventType, c, tp), k) ∈ log.zipIdx := List.mem_zipIdx_iff_getElem?.mpr at_k
  refine ⟨alloc k, List.mem_filterMap.mpr ⟨_, listed, ?_⟩⟩
  rw [if_pos ⟨rfl, rfl⟩]

/-- Different calls have different addresses. -/
theorem nodup_callsTo {alloc : Nat → Nat} (distinct : Function.Injective alloc) (type : ValType)
    (eventType : Int) (log : List (Int × Constraint × TablePred)) :
    ((callsTo alloc type eventType log).map Prod.fst).Nodup := by
  have addresses : ((callsTo alloc type eventType log).map Prod.fst).Sublist
      ((log.zipIdx.map Prod.snd).map alloc) := by
    unfold callsTo
    induction log.zipIdx with
    | nil => exact List.Sublist.slnil
    | cons x rest ih =>
        rw [List.filterMap_cons, List.map_cons, List.map_cons]
        by_cases passes : x.1.1 = eventType ∧ x.1.2.1.type = type
        · rw [if_pos passes, List.map_cons]
          exact ih.cons_cons _
        · rw [if_neg passes]
          exact ih.cons _
  refine List.Nodup.sublist addresses ((List.nodup_map_iff distinct).mpr ?_)
  rw [List.zipIdx_map_snd]
  exact List.nodup_range'

theorem mem_installations {es : List (TablePred × Element)} {eventType : Int} {c : Constraint}
    {tp : TablePred} : (eventType, c, tp) ∈ installations es ↔
      ∃ e, (tp, e) ∈ es ∧ e.eventType = eventType ∧ c ∈ e.constraints := by
  simp only [installations, List.mem_flatMap, List.mem_map, Prod.mk.injEq, Prod.exists]
  constructor
  · rintro ⟨tp', e, mem, c', isIn, sameEvent, rfl, rfl⟩
    exact ⟨e, mem, sameEvent, isIn⟩
  · rintro ⟨e, mem, sameEvent, isIn⟩
    exact ⟨tp, e, mem, c, isIn, sameEvent, rfl, rfl⟩

/-! ## The table -/

/-- Each typed index is built by the calls that reach it. -/
structure Indexes (alloc : Nat → Nat) (t : IndexingTable)
    (log : List (Int × Constraint × TablePred)) : Prop where
  used : t.usedConstraints = log.length
  int : ∀ ty, t.intIndex ty = installAll IntConstraintIndex.kind (callsTo alloc .int ty log)
  float : ∀ ty, t.floatIndex ty = installAll FloatConstraintIndex.kind (callsTo alloc .float ty log)
  bool : ∀ ty, t.boolIndex ty = installAll BoolConstraintIndex.kind (callsTo alloc .bool ty log)
  string : ∀ ty,
    t.stringIndex ty = installAll StringConstraintIndex.kind (callsTo alloc .string ty log)

/-- A call that reaches the index of its event type, and one that goes to another type of values. -/
theorem installAll_callsTo {V : Type} {kind : IndexKind V} {alloc : Nat → Nat} {type : ValType}
    {log : List (Int × Constraint × TablePred)} {indexes : Int → ConstraintIndex V}
    (built : ∀ ty, indexes ty = installAll kind (callsTo alloc type ty log)) (eventType : Int)
    (c : Constraint) (tp : TablePred) :
    (c.type = type → ∀ ty, Function.update indexes eventType
      ((indexes eventType).installConstraint kind (alloc log.length) c tp) ty =
        installAll kind (callsTo alloc type ty (log ++ [(eventType, c, tp)]))) ∧
    (c.type ≠ type → ∀ ty,
      indexes ty = installAll kind (callsTo alloc type ty (log ++ [(eventType, c, tp)]))) := by
  refine ⟨fun same ty => ?_, fun other ty => ?_⟩
  · rw [callsTo_concat]
    rcases eq_or_ne eventType ty with rfl | ne
    · rw [if_pos ⟨rfl, same⟩, installAll_concat, Function.update_self, built]
    · rw [if_neg fun both => ne both.1, List.append_nil, Function.update_of_ne ne.symm, built]
  · rw [callsTo_concat, if_neg fun both => other both.2, List.append_nil, built]

theorem Indexes.installConstraint {alloc : Nat → Nat} {t : IndexingTable}
    {log : List (Int × Constraint × TablePred)} (indexes : Indexes alloc t log) (eventType : Int)
    (tp : TablePred) (c : Constraint) :
    Indexes alloc (t.installConstraint alloc eventType tp c) (log ++ [(eventType, c, tp)]) := by
  obtain ⟨used, int, float, bool, string⟩ := indexes
  have int' := installAll_callsTo int eventType c tp
  have float' := installAll_callsTo float eventType c tp
  have bool' := installAll_callsTo bool eventType c tp
  have string' := installAll_callsTo string eventType c tp
  have length : (log ++ [(eventType, c, tp)]).length = log.length + 1 := by simp
  unfold IndexingTable.installConstraint
  rw [used]
  cases type : c.type <;> rw [type] at int' float' bool' string'
  case int =>
    exact ⟨length.symm, int'.1 rfl, float'.2 (by simp), bool'.2 (by simp), string'.2 (by simp)⟩
  case float =>
    exact ⟨length.symm, int'.2 (by simp), float'.1 rfl, bool'.2 (by simp), string'.2 (by simp)⟩
  case bool =>
    exact ⟨length.symm, int'.2 (by simp), float'.2 (by simp), bool'.1 rfl, string'.2 (by simp)⟩
  case string =>
    exact ⟨length.symm, int'.2 (by simp), float'.2 (by simp), bool'.2 (by simp), string'.1 rfl⟩

/-- The table after the predicates `es` were installed. -/
structure Installed (alloc : Nat → Nat) (t : IndexingTable) (es : List (TablePred × Element)) :
    Prop where
  preds : t.usedPreds = es.length
  unconstrained : ∀ ty tp, tp ∈ t.noIndex ty ↔
    ∃ e, (tp, e) ∈ es ∧ e.eventType = ty ∧ e.constraints = []
  indexes : Indexes alloc t (installations es)

/-- The loop over the constraints of an element leaves the rest of the table alone. -/
theorem foldl_installConstraint {alloc : Nat → Nat} {t : IndexingTable}
    {log : List (Int × Constraint × TablePred)} (indexes : Indexes alloc t log) (eventType : Int)
    (tp : TablePred) (cs : List Constraint) :
    let t' := cs.foldl (installConstraint alloc eventType tp) t
    Indexes alloc t' (log ++ cs.map fun c => (eventType, c, tp)) ∧
      t'.noIndex = t.noIndex ∧ t'.usedPreds = t.usedPreds := by
  induction cs generalizing t log with
  | nil => exact ⟨by simpa using indexes, rfl, rfl⟩
  | cons c rest ih =>
      have kept : (installConstraint alloc eventType tp t c).noIndex = t.noIndex ∧
          (installConstraint alloc eventType tp t c).usedPreds = t.usedPreds := by
        unfold installConstraint
        cases c.type <;> exact ⟨rfl, rfl⟩
      obtain ⟨indexes', noIndex, usedPreds⟩ := ih (indexes.installConstraint eventType tp c)
      rw [List.append_assoc] at indexes'
      exact ⟨indexes', noIndex.trans kept.1, usedPreds.trans kept.2⟩

theorem Installed.installElement {alloc : Nat → Nat} {t : IndexingTable}
    {es : List (TablePred × Element)} (installed : Installed alloc t es) (ruleId : Nat)
    (e : Element) :
    Installed alloc (installElement alloc ruleId t e)
      (es ++ [(tablePred es.length ruleId e, e)]) := by
  obtain ⟨preds, unconstrained, indexes⟩ := installed
  unfold IndexingTable.installElement installTablePredicate
  rw [preds]
  have log : installations (es ++ [(tablePred es.length ruleId e, e)]) = installations es ++
      e.constraints.map fun c => (e.eventType, c, tablePred es.length ruleId e) := by
    simp [installations]
  generalize tablePred es.length ruleId e = tp at log ⊢
  have members : ∀ ty tp', (∃ e', (tp', e') ∈ es ++ [(tp, e)] ∧ e'.eventType = ty ∧
      e'.constraints = []) ↔ tp' ∈ t.noIndex ty ∨
        (tp' = tp ∧ e.eventType = ty ∧ e.constraints = []) := by
    intro ty tp'
    simp only [List.mem_append, List.mem_singleton, Prod.mk.injEq, or_and_right, exists_or,
      unconstrained]
    refine or_congr_right ⟨?_, fun ⟨same, rest⟩ => ⟨e, ⟨same, rfl⟩, rest⟩⟩
    rintro ⟨e', ⟨same, rfl⟩, rest⟩
    exact ⟨same, rest⟩
  by_cases none : e.constraints = []
  · -- the element goes to `NoConstraintIndex`
    simp only [none, List.length_nil, if_true, List.foldl_nil]
    rw [none, List.map_nil, List.append_nil] at log
    refine ⟨by simp [installNoConstraint], ?_, log ▸ ?_⟩
    · intro ty tp'
      rw [members]
      unfold installNoConstraint
      rcases eq_or_ne e.eventType ty with rfl | ne
      · simp only [Function.update_self, List.mem_insert_iff, none, and_true]
        exact or_comm
      · simp only [Function.update_of_ne ne.symm, ne, false_and, and_false, or_false]
    · exact ⟨indexes.used, indexes.int, indexes.float, indexes.bool, indexes.string⟩
  · simp only [List.length_eq_zero_iff, none, if_false]
    have indexes' : Indexes alloc { t with usedPreds := es.length + 1 } (installations es) :=
      ⟨indexes.used, indexes.int, indexes.float, indexes.bool, indexes.string⟩
    obtain ⟨built, noIndex, usedPreds⟩ :=
      foldl_installConstraint indexes' e.eventType tp e.constraints
    refine ⟨by rw [usedPreds]; simp, ?_, log ▸ built⟩
    intro ty tp'
    rw [members, noIndex]
    simp [none]

theorem installed_spec (alloc : Nat → Nat) (rules : List RulePkt) :
    Installed alloc (installed alloc rules) (entries rules) := by
  have flat : installed alloc rules =
      (allElements rules).foldl (fun t x => installElement alloc x.1 t x.2) empty := by
    unfold installed allElements
    rw [List.foldl_flatMap]
    congr 1
    funext t r
    rw [List.foldl_map]
    rfl
  rw [flat]
  unfold entries
  induction allElements rules using List.reverseRecOn with
  | nil =>
      refine ⟨rfl, by simp [entriesOf, empty], ?_⟩
      exact ⟨rfl, fun _ => rfl, fun _ => rfl, fun _ => rfl, fun _ => rfl⟩
  | append_singleton elements x ih =>
      rw [List.foldl_concat, entriesOf_concat]
      have length : (entriesOf elements).length = elements.length := by simp [entriesOf]
      have next := ih.installElement x.1 x.2
      rwa [length] at next

/-! ## Messages -/

/-- The predicates counted for a message, in order. -/
def hits (t : IndexingTable) (pkt : PubPkt) : List TablePred :=
  pkt.attributes.flatMap ((t.intIndex pkt.eventType).hitsOf IntConstraintIndex.kind) ++
  pkt.attributes.flatMap ((t.floatIndex pkt.eventType).hitsOf FloatConstraintIndex.kind) ++
  pkt.attributes.flatMap ((t.boolIndex pkt.eventType).hitsOf BoolConstraintIndex.kind) ++
  pkt.attributes.flatMap ((t.stringIndex pkt.eventType).hitsOf StringConstraintIndex.kind)

theorem mem_addToMatchingHandler (type : StateType) (ruleId i : Nat) (tp : TablePred)
    (mh : MatchingHandler) : i ∈ (mh.addToMatchingHandler tp).matching type ruleId ↔
      i ∈ mh.matching type ruleId ∨
        (tp.stateType = type ∧ tp.ruleId = ruleId ∧ tp.stateId = i) := by
  have inSet : ∀ sets : Nat → List Nat,
      i ∈ Function.update sets tp.ruleId (OrdSet.insert tp.stateId (sets tp.ruleId)) ruleId ↔
        i ∈ sets ruleId ∨ (tp.ruleId = ruleId ∧ tp.stateId = i) := by
    intro sets
    rcases eq_or_ne tp.ruleId ruleId with rfl | ne
    · rw [Function.update_self, OrdSet.mem_insert, or_comm, eq_comm]
      simp
    · rw [Function.update_of_ne ne.symm]
      simp [ne]
  unfold MatchingHandler.addToMatchingHandler
  cases tp.stateType <;> cases type <;> simp [MatchingHandler.matching, inSet]

theorem mem_foldl_addToMatchingHandler (type : StateType) (ruleId i : Nat) (tps : List TablePred)
    (mh : MatchingHandler) :
    i ∈ (tps.foldl (fun mh tp => mh.addToMatchingHandler tp) mh).matching type ruleId ↔
      i ∈ mh.matching type ruleId ∨
        ∃ tp ∈ tps, tp.stateType = type ∧ tp.ruleId = ruleId ∧ tp.stateId = i := by
  induction tps generalizing mh with
  | nil => simp
  | cons tp rest ih =>
      rw [List.foldl_cons, ih, mem_addToMatchingHandler, or_assoc]
      simp only [List.mem_cons, exists_eq_or_imp]

/-- A message reports the predicates of its type without constraints and those that are hit as often
as they have constraints. -/
theorem mem_matching_processMessage (t : IndexingTable) (pkt : PubPkt) (type : StateType)
    (ruleId i : Nat) : i ∈ (t.processMessage pkt .empty).matching type ruleId ↔
      ∃ tp : TablePred, (tp.stateType = type ∧ tp.ruleId = ruleId ∧ tp.stateId = i) ∧
        (tp ∈ t.noIndex pkt.eventType ∨
          (0 < tp.constraintsNum ∧ tp.constraintsNum ≤ (t.hits pkt).count tp)) := by
  have folded : t.processMessage pkt .empty = ((t.hits pkt).foldl countPredicate
      (fun _ => 0, (t.noIndex pkt.eventType).foldl (fun mh tp => mh.addToMatchingHandler tp)
        .empty)).2 := by
    unfold processMessage hits
    simp only [ConstraintIndex.processMessage_eq, List.foldl_append]
  have reported := @Tally.reported_foldl_hit _ _ _ TablePred.constraintsNum
    MatchingHandler.addToMatchingHandler (fun mh => i ∈ mh.matching type ruleId)
    (fun tp => tp.stateType = type ∧ tp.ruleId = ruleId ∧ tp.stateId = i)
    (mem_addToMatchingHandler type ruleId i)
  rw [folded, countPredicate, reported, mem_foldl_addToMatchingHandler]
  have nothing : i ∉ MatchingHandler.empty.matching type ruleId := by
    cases type <;> exact List.not_mem_nil
  simp only [nothing, false_or, Nat.zero_add, and_or_left, exists_or]
  refine or_congr_left ⟨?_, ?_⟩
  · rintro ⟨tp, mem, named⟩
    exact ⟨tp, named, mem⟩
  · rintro ⟨tp, named, mem⟩
    exact ⟨tp, mem, named⟩

/-- A hit predicate was allocated for an element of the message's type. -/
theorem mem_hits {alloc : Nat → Nat} {t : IndexingTable} {es : List (TablePred × Element)}
    (installed : Installed alloc t es) {pkt : PubPkt} {tp : TablePred} (hit : tp ∈ t.hits pkt) :
    ∃ e, (tp, e) ∈ es ∧ e.eventType = pkt.eventType := by
  have fromIndex : ∀ {V : Type} {kind : IndexKind V} {type : ValType},
      tp ∈ pkt.attributes.flatMap ((installAll kind
        (callsTo alloc type pkt.eventType (installations es))).hitsOf kind) →
      ∃ e, (tp, e) ∈ es ∧ e.eventType = pkt.eventType := by
    intro V kind type isIn
    obtain ⟨a, -, isIn⟩ := List.mem_flatMap.mp isIn
    obtain ⟨call, mem, rfl⟩ := ConstraintIndex.mem_hitsOf isIn
    obtain ⟨e, inEntries, sameEvent, -⟩ := mem_installations.mp (mem_callsTo mem).1
    exact ⟨e, inEntries, sameEvent⟩
  obtain ⟨-, int, float, bool, string⟩ := installed.indexes
  unfold hits at hit
  rw [int, float, bool, string] at hit
  simp only [List.mem_append] at hit
  rcases hit with ((isIn | isIn) | isIn) | isIn <;> exact fromIndex isIn

/-- The elements reported are those of the message's type whose predicate is hit as often as the
element has constraints. -/
theorem mem_matching_installed (alloc : Nat → Nat) (rules : List RulePkt) (pkt : PubPkt)
    (type : StateType) (ruleId i : Nat) :
    i ∈ ((installed alloc rules).processMessage pkt .empty).matching type ruleId ↔
      ∃ tp e, (tp, e) ∈ entries rules ∧
        (tp.ruleId = ruleId ∧ e.stateType = type ∧ e.stateId = i) ∧
        e.eventType = pkt.eventType ∧
        e.constraints.length ≤ ((installed alloc rules).hits pkt).count tp := by
  have spec := installed_spec alloc rules
  rw [mem_matching_processMessage]
  constructor
  · rintro ⟨tp, ⟨sameType, sameRule, sameId⟩, reported⟩
    have entry : ∃ e, (tp, e) ∈ entries rules ∧ e.eventType = pkt.eventType ∧
        e.constraints.length ≤ ((installed alloc rules).hits pkt).count tp := by
      rcases reported with unconstrained | ⟨pos, enough⟩
      · obtain ⟨e, mem, sameEvent, none⟩ := (spec.unconstrained _ _).mp unconstrained
        exact ⟨e, mem, sameEvent, by simp [none]⟩
      · obtain ⟨e, mem, sameEvent⟩ :=
          mem_hits spec (List.count_pos_iff.mp (Nat.lt_of_lt_of_le pos enough))
        have num : tp.constraintsNum = e.constraints.length :=
          congrArg TablePred.constraintsNum (mem_entries mem).2
        exact ⟨e, mem, sameEvent, num ▸ enough⟩
    obtain ⟨e, mem, sameEvent, enough⟩ := entry
    have isPred := (mem_entries mem).2
    have type' : tp.stateType = e.stateType := congrArg TablePred.stateType isPred
    have id' : tp.stateId = e.stateId := congrArg TablePred.stateId isPred
    exact ⟨tp, e, mem, ⟨sameRule, type' ▸ sameType, id' ▸ sameId⟩, sameEvent, enough⟩
  · rintro ⟨tp, e, mem, ⟨sameRule, sameType, sameId⟩, sameEvent, enough⟩
    have isPred := (mem_entries mem).2
    have num : tp.constraintsNum = e.constraints.length := congrArg TablePred.constraintsNum isPred
    have type' : tp.stateType = e.stateType := congrArg TablePred.stateType isPred
    have id' : tp.stateId = e.stateId := congrArg TablePred.stateId isPred
    refine ⟨tp, ⟨type'.trans sameType, sameRule, id'.trans sameId⟩, ?_⟩
    by_cases none : e.constraints = []
    · exact .inl ((spec.unconstrained _ _).mpr ⟨e, mem, sameEvent, none⟩)
    · exact .inr ⟨num ▸ List.length_pos_iff.mpr none, num ▸ enough⟩

end IndexingTable

end TRex
