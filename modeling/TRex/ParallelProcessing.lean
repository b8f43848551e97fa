import TRex.IndexExactness
import TRex.Lib.Interleave
import TRex.TRexEngine

/-!
# Parallel processing of a packet

The rule loop of `processor` in `Engine/TRexEngine`: for each rule id of its range, a worker makes
the calls that the matching handler asks for, negations first, then aggregates, then states, with
the computation last. The rules are the components of an `Interleave.System`, the calls its actions,
the generated packets its results. Ranges are disjoint and cover the ids of the rules, so every
order of the workers' calls has the effect of one pass over the rules (`parallel_eq_sequential`).

A generated packet is a new object, so the set of pointers that a worker collects is a list of
packets whose order does not matter.
-/

namespace TRex

namespace TRexEngine

/-! ## The rule loop -/

/-- The calls for one rule id; state 0, if matched, is processed last. -/
def ruleCalls (mh : MatchingHandler) (pkt : PubPktPtr) (i : Nat) : List Call :=
  (mh.matchingNegations i).map (.addToNegationStack pkt) ++
  (mh.matchingAggregates i).map (.addToAggregateStack pkt) ++
  ((mh.matchingStates i).filter fun index => decide (index ≠ 0)).map (.addToStack pkt) ++
  if 0 ∈ mh.matchingStates i then [.startComputation pkt] else []

/-- The calls for a sequence of rule ids, each with the id. -/
def callsOf (mh : MatchingHandler) (pkt : PubPktPtr) (ids : List Nat) : List (Nat × Call) :=
  ids.flatMap fun i => (ruleCalls mh pkt i).map fun call => (i, call)

/-- What worker `w` does after its wake-up. -/
def workerCalls (engine : TRexEngine) (mh : MatchingHandler) (pkt : PubPktPtr) (w : Nat) :
    List (Nat × Call) :=
  if w < engine.numProc then
    callsOf mh pkt (List.range' (engine.lowerBound w) (engine.upperBound w - engine.lowerBound w))
  else []

/-- `stacksRule->find(i)`. -/
def ruleOf (engine : TRexEngine) (i : Nat) : Option StacksRule :=
  OrdMap.find? idLt i engine.stacksRules

/-- A call on a rule's stacks, with the packets it generates. -/
def system (engine : TRexEngine) : Interleave.System Nat Stacks (Nat × Call) PubPkt where
  comp := Prod.fst
  act x st :=
    match engine.ruleOf x.1 with
    | none => (st, [])
    | some r =>
      match x.2 with
      | .startComputation p =>
        let computation := r.startComputation st p
        (computation.after, computation.results)
      | call => (r.step st call, [])

/-- The engine after a sequence of `processRulePkt` calls. -/
def installAll (alloc : Nat → Nat) (numProc : Nat) (rules : List RulePkt) : TRexEngine :=
  rules.foldl (processRulePkt alloc) (finalize numProc)

/-! ## The engine with its rules -/

theorem installAll_concat (alloc : Nat → Nat) (numProc : Nat) (rules : List RulePkt)
    (pkt : RulePkt) : installAll alloc numProc (rules ++ [pkt]) =
      (installAll alloc numProc rules).processRulePkt alloc pkt := by
  unfold installAll
  rw [List.foldl_concat]

theorem holds_installAll (alloc : Nat → Nat) (numProc : Nat) {rules : List RulePkt}
    (ids : (rules.map RulePkt.ruleId).Nodup) :
    (installAll alloc numProc rules).Holds numProc (rules.map RulePkt.ruleId) := by
  induction rules using List.reverseRecOn with
  | nil => exact holds_finalize numProc
  | append_singleton rules pkt ih =>
      rw [List.map_append, List.nodup_append] at ids
      obtain ⟨before, -, apart⟩ := ids
      have new : pkt.ruleId ∉ rules.map RulePkt.ruleId :=
        fun mem => apart _ mem _ (List.mem_singleton.mpr rfl) rfl
      rw [installAll_concat, List.map_append]
      exact (ih before).processRulePkt new alloc

theorem indexingTable_installAll (alloc : Nat → Nat) (numProc : Nat) (rules : List RulePkt) :
    (installAll alloc numProc rules).indexingTable = IndexingTable.installed alloc rules := by
  induction rules using List.reverseRecOn with
  | nil => rfl
  | append_singleton rules pkt ih =>
      unfold IndexingTable.installed
      rw [installAll_concat, List.foldl_concat]
      show ((installAll alloc numProc rules).indexingTable.installRulePkt alloc pkt) = _
      rw [ih]
      rfl

/-! ## Calls -/

/-- A handler that has nothing for a rule asks for no calls. -/
theorem ruleCalls_eq_nil {mh : MatchingHandler} {i : Nat}
    (nothing : ∀ type, mh.matching type i = []) (pkt : PubPktPtr) : ruleCalls mh pkt i = [] := by
  have states : mh.matchingStates i = [] := nothing .state
  have negations : mh.matchingNegations i = [] := nothing .neg
  have aggregates : mh.matchingAggregates i = [] := nothing .agg
  simp [ruleCalls, states, negations, aggregates]

theorem fst_of_mem_callsOf {mh : MatchingHandler} {pkt : PubPktPtr} {ids : List Nat}
    {x : Nat × Call} (mem : x ∈ callsOf mh pkt ids) :
    x.1 ∈ ids ∧ x.2 ∈ ruleCalls mh pkt x.1 := by
  obtain ⟨i, isId, isCall⟩ := List.mem_flatMap.mp mem
  obtain ⟨call, isCall', rfl⟩ := List.mem_map.mp isCall
  exact ⟨isId, isCall'⟩

/-- The calls for one rule within the calls for a sequence of rules. -/
theorem at_callsOf (engine : TRexEngine) (mh : MatchingHandler) (pkt : PubPktPtr) {ids : List Nat}
    (nodup : ids.Nodup) (i : Nat) : Interleave.at_ engine.system i (callsOf mh pkt ids) =
      if i ∈ ids then (ruleCalls mh pkt i).map fun call => (i, call) else [] := by
  unfold Interleave.at_ callsOf system
  simp only
  induction ids with
  | nil => rfl
  | cons j rest ih =>
      obtain ⟨notIn, nodup'⟩ := List.nodup_cons.mp nodup
      rw [List.flatMap_cons, List.filter_append, ih nodup']
      rcases eq_or_ne j i with rfl | ne
      · rw [if_neg notIn, if_pos List.mem_cons_self, List.append_nil, List.filter_eq_self]
        intro x mem
        obtain ⟨call, -, rfl⟩ := List.mem_map.mp mem
        simp
      · have others : ((ruleCalls mh pkt j).map fun call => (j, call)).filter
            (fun a => decide (a.1 = i)) = [] := by
          rw [List.filter_eq_nil_iff]
          intro x mem
          obtain ⟨call, -, rfl⟩ := List.mem_map.mp mem
          simpa using ne
        rw [others, List.nil_append]
        simp [ne.symm]

/-- A worker makes calls for ids of its range only. -/
theorem inRange_of_mem_workerCalls {engine : TRexEngine} {mh : MatchingHandler} {pkt : PubPktPtr}
    {w : Nat} {x : Nat × Call} (mem : x ∈ engine.workerCalls mh pkt w) : engine.InRange w x.1 := by
  unfold workerCalls at mem
  split at mem
  case isTrue lt =>
    have range := List.mem_range'_1.mp (fst_of_mem_callsOf mem).1
    exact ⟨lt, range.1, by omega⟩
  case isFalse => cases mem

theorem ruleCalls_of_mem_workerCalls {engine : TRexEngine} {mh : MatchingHandler}
    {pkt : PubPktPtr} {w : Nat} {x : Nat × Call} (mem : x ∈ engine.workerCalls mh pkt w) :
    x.2 ∈ ruleCalls mh pkt x.1 := by
  unfold workerCalls at mem
  split at mem
  · exact (fst_of_mem_callsOf mem).2
  · cases mem

theorem at_workerCalls {engine : TRexEngine} (mh : MatchingHandler) (pkt : PubPktPtr) {w i : Nat}
    (inRange : engine.InRange w i) :
    Interleave.at_ engine.system i (engine.workerCalls mh pkt w) =
      (ruleCalls mh pkt i).map fun call => (i, call) := by
  obtain ⟨lt, above, below⟩ := inRange
  unfold workerCalls
  rw [if_pos lt, at_callsOf engine mh pkt List.nodup_range', if_pos]
  exact List.mem_range'_1.mpr ⟨above, by omega⟩

end TRexEngine

open TRexEngine (installAll callsOf)

section Rules

variable {alloc : Nat → Nat} {numProc : Nat} {rules : List RulePkt}

theorem TRexEngine.Holds.served_of_lt {t : TRexEngine} {ids : List Nat}
    (holds : t.Holds numProc ids)
    (pos : 0 < numProc) {i : Nat} (lt : i < ids.length) : t.Served i := by
  rw [holds.served_iff_lt]
  unfold TRexEngine.capacity
  have := Nat.lt_mul_div_succ ids.length pos
  omega

theorem TRexEngine.Holds.ruleOf_isSome {t : TRexEngine} {ids : List Nat}
    (holds : t.Holds numProc ids)
    {i : Nat} (isInstalled : i ∈ ids) : (t.ruleOf i).isSome = true := by
  have isKey : i ∈ t.stacksRules.map Prod.fst := holds.ids_perm.mem_iff.mpr isInstalled
  obtain ⟨⟨i', r⟩, isRule, sameId⟩ := List.mem_map.mp isKey
  have found : t.ruleOf i' = some r :=
    (OrdMap.find?_eq_some TRexEngine.idLt_iff holds.sorted).mpr isRule
  rw [← sameId, found]
  rfl

/-- A message causes no calls on rules that are not installed. -/
theorem ruleCalls_of_not_installed {pkt : PubPktPtr} {i : Nat}
    (notInstalled : i ∉ rules.map RulePkt.ruleId) :
    TRexEngine.ruleCalls ((installAll alloc numProc rules).indexingTable.processMessage pkt.pkt
      .empty) pkt i = [] := by
  refine TRexEngine.ruleCalls_eq_nil (fun type => ?_) pkt
  by_contra nonempty
  obtain ⟨index, mem⟩ := List.exists_mem_of_ne_nil _ nonempty
  rw [TRexEngine.indexingTable_installAll alloc numProc] at mem
  obtain ⟨r, inRules, rfl, -⟩ := IndexingTable.exists_of_mem_matching mem
  exact notInstalled (List.mem_map_of_mem inRules)

/-- However the calls of the workers are interleaved, each rule is processed by one worker, every
rule found, and the stacks and the generated packets are those of one pass over the rules. -/
theorem parallel_eq_sequential (alloc : Nat → Nat) {numProc : Nat} (pos : 0 < numProc)
    {rules : List RulePkt} (ids : (rules.map RulePkt.ruleId).Perm (List.range rules.length))
    (pkt : PubPktPtr) :
    let engine := installAll alloc numProc rules
    let mh := engine.indexingTable.processMessage pkt.pkt .empty
    (∀ i < rules.length, engine.Served i) ∧
    (∀ w, ∀ x ∈ engine.workerCalls mh pkt w, (engine.ruleOf x.1).isSome = true) ∧
    ∀ (s : Nat → Stacks) (l : List (Nat × Nat × Call)),
      Interleave.Schedule (engine.workerCalls mh pkt) l →
      let parallel := Interleave.exec engine.system (s, fun _ => []) l
      let sequential := Interleave.run engine.system s (callsOf mh pkt (List.range rules.length))
      parallel.1 = sequential.1 ∧
        ((List.range numProc).flatMap parallel.2).Perm sequential.2 := by
  intro engine mh
  have holds : engine.Holds numProc (rules.map RulePkt.ruleId) :=
    TRexEngine.holds_installAll alloc numProc (ids.nodup_iff.mpr List.nodup_range)
  have served : ∀ i < rules.length, engine.Served i :=
    fun i lt => holds.served_of_lt pos (by rwa [List.length_map])
  have isId : ∀ {i : Nat}, i ∈ rules.map RulePkt.ruleId ↔ i < rules.length :=
    ids.mem_iff.trans List.mem_range
  have called : ∀ w, ∀ x ∈ engine.workerCalls mh pkt w, x.1 ∈ rules.map RulePkt.ruleId := by
    intro w x mem
    by_contra notInstalled
    have isCall := TRexEngine.ruleCalls_of_mem_workerCalls mem
    rw [ruleCalls_of_not_installed notInstalled] at isCall
    cases isCall
  refine ⟨served, fun w x mem => holds.ruleOf_isSome (called w x mem), fun s l sched => ?_⟩
  -- the worker that an id belongs to owns the rule
  have owned : ∀ w, ∀ x ∈ engine.workerCalls mh pkt w,
      TRexEngine.owner (rules.map RulePkt.ruleId).length numProc (engine.system.comp x) = w :=
    fun w x mem => holds.owner_eq (TRexEngine.inRange_of_mem_workerCalls mem)
  refine sched.exec_eq_run owned (fun i => ?_) List.nodup_range (fun w notIn => ?_) s
  · rw [TRexEngine.at_callsOf engine mh pkt List.nodup_range]
    by_cases lt : i < rules.length
    · obtain ⟨w, inRange, -⟩ := served i lt
      rw [if_pos (List.mem_range.mpr lt), holds.owner_eq inRange,
        TRexEngine.at_workerCalls mh pkt inRange]
    · rw [if_neg (fun mem => lt (List.mem_range.mp mem))]
      symm
      unfold Interleave.at_
      rw [List.filter_eq_nil_iff]
      intro x mem here
      have sameId : x.1 = i := of_decide_eq_true here
      exact lt (isId.mp (sameId ▸ called _ x mem))
  · have numProc_eq : engine.numProc = numProc := holds.numProc_eq
    unfold TRexEngine.workerCalls
    rw [numProc_eq, if_neg fun lt => notIn (List.mem_range.mpr lt)]

end Rules

/-! Three rules and two workers; the second worker, with the last rule, goes first. -/

def threeRules : List RulePkt := [oneEventRule 0 [], oneEventRule 1 [], oneEventRule 2 []]

def hotPtr : PubPktPtr := ⟨0, hotPkt⟩

def secondFirst : List (Nat × Nat × Call) :=
  [(1, 2, .startComputation hotPtr), (0, 0, .startComputation hotPtr),
   (0, 1, .startComputation hotPtr)]

theorem threeRules_schedule :
    let engine := installAll id 2 threeRules
    let mh := engine.indexingTable.processMessage hotPkt .empty
    Interleave.Schedule (engine.workerCalls mh hotPtr) secondFirst := by
  intro engine mh
  have first : engine.workerCalls mh hotPtr 0 =
      [(0, .startComputation hotPtr), (1, .startComputation hotPtr)] := by decide +kernel
  have second : engine.workerCalls mh hotPtr 1 = [(2, .startComputation hotPtr)] := by
    decide +kernel
  have none : ∀ w, engine.workerCalls mh hotPtr (w + 2) = [] := by
    intro w
    have numProc : engine.numProc = 2 := rfl
    unfold TRexEngine.workerCalls
    rw [numProc, if_neg (by omega)]
  generalize engine.workerCalls mh hotPtr = progs at first second none
  apply Interleave.Schedule.step second
  have first' : Function.update progs 1 [] 0 =
      [(0, .startComputation hotPtr), (1, .startComputation hotPtr)] := by
    rw [Function.update_of_ne (by decide), first]
  apply Interleave.Schedule.step first'
  apply Interleave.Schedule.step (Function.update_self _ _ _)
  apply Interleave.Schedule.done
  intro w
  match w with
  | 0 => exact Function.update_self _ _ _
  | 1 => simp [Function.update]
  | w + 2 => simp [Function.update, none]

theorem threeRules_parallel_eq_sequential :
    let engine := installAll id 2 threeRules
    let mh := engine.indexingTable.processMessage hotPkt .empty
    let parallel := Interleave.exec engine.system (fun _ => .initial, fun _ => []) secondFirst
    let sequential := Interleave.run engine.system (fun _ => .initial)
      (callsOf mh hotPtr (List.range 3))
    parallel.1 = sequential.1 ∧ ((List.range 2).flatMap parallel.2).Perm sequential.2 := by
  have ids : (threeRules.map RulePkt.ruleId).Perm (List.range threeRules.length) :=
    List.Perm.refl _
  exact (parallel_eq_sequential id (by decide) ids hotPtr).2.2 _ _ threeRules_schedule

end TRex
