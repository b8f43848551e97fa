import TRex.Lib.Feedback
import TRex.ParallelProcessing

/-!
# Composite events as input

`TRexEngine::processPubPkt` hands the packets that the rules generate to the listeners and processes
a copy of each of them in turn, if the output of some rule is an input of another one
(`recursionNeeded`) and fewer than `MAX_RECURSION_DEPTH` packets have been processed this way. The
counter is a member of the engine, reset by a call from outside and advanced by every call from
within.

Two things the source leaves to the memory management are parameters here: the address that a packet
gets (`Placement`) and the order in which a set of new packets is iterated (`SetOrder`). Recursion
is cut by a fuel that bounds the nesting; `processPubPkt_eq_walk` shows that more of it than
`MAX_RECURSION_DEPTH` is enough, and that the calls are a walk in the sense of `Feedback`. -/

namespace TRex

open Feedback

/-! ## Memory -/

/-- A new packet is placed where none of the packets on the stacks is. -/
structure Placement where
  pick : List Nat → Nat
  fresh : ∀ used, pick used ∉ used

/-- The order in which a `std::set` of new packets is iterated, which depends on their addresses.
Sets are told apart by the number of packets handed out before. -/
structure SetOrder where
  arrange : Nat → List PubPkt → List PubPkt
  perm : ∀ k pkts, (arrange k pkts).Perm pkts

/-- The first address above those in use. -/
def Placement.above : Placement where
  pick used := used.foldr max 0 + 1
  fresh used mem := by
    have le : ∀ l : List Nat, ∀ a ∈ l, a ≤ l.foldr max 0 := by
      intro l a mem
      induction l with
      | nil => cases mem
      | cons b rest ih =>
          rw [List.foldr_cons]
          rcases List.mem_cons.mp mem with rfl | later
          · exact Nat.le_max_left _ _
          · exact Nat.le_trans (ih later) (Nat.le_max_right _ _)
    have := le used _ mem
    omega

def SetOrder.asGenerated : SetOrder := ⟨fun _ pkts => pkts, fun _ pkts => List.Perm.refl pkts⟩

def SetOrder.reversed : SetOrder :=
  ⟨fun _ pkts => pkts.reverse, fun _ pkts => List.reverse_perm pkts⟩

namespace StacksRule

/-- The packets on the stacks of a rule, once for each slot. -/
def held (r : StacksRule) (st : Stacks) : List PubPktPtr :=
  ((List.range r.stacksNum).flatMap fun i => (st.states i).received) ++
  ((List.range r.negations.length).flatMap fun i => (st.negs i).received) ++
  (List.range r.aggregates.length).flatMap fun i => (st.aggs i).received

end StacksRule

/-! ## The engine -/

/-- What the processing of a packet changes: the stacks of the rules, and the packets handed to the
listeners so far. -/
structure Contents where
  «stacks» : Nat → Stacks
  delivered : List PubPkt

def Contents.initial : Contents := ⟨fun _ => .initial, []⟩

namespace TRexEngine

variable (place : Placement) (order : SetOrder)

def held (engine : TRexEngine) (st : Nat → Stacks) : List PubPktPtr :=
  engine.stacksRules.flatMap fun (id, r) => r.held (st id)

/-- The calls of all workers for a packet. -/
def allCalls (engine : TRexEngine) (mh : MatchingHandler) (pkt : PubPktPtr) : List (Nat × Call) :=
  (List.range engine.numProc).flatMap (engine.workerCalls mh pkt)

/-- `processPubPkt` from the look-up in the index to the call of the listeners: the contents and the
set of generated packets. -/
def evaluate (engine : TRexEngine) (c : Contents) (pkt : PubPkt) : Contents × List PubPkt :=
  let ptr : PubPktPtr := ⟨place.pick ((engine.held c.stacks).map PubPktPtr.addr), pkt⟩
  let mh := engine.indexingTable.processMessage pkt .empty
  let (st, generated) := Interleave.run engine.system c.stacks (engine.allCalls mh ptr)
  let result := order.arrange c.delivered.length generated
  (⟨st, c.delivered ++ result⟩, result)

/-- The reaction to a generated packet, of which a copy is processed. -/
def feedback (engine : TRexEngine) : System Contents PubPkt where
  react c pkt := engine.evaluate place order c pkt.copy

end TRexEngine

/-- Every order of the workers' calls leaves the stacks that `evaluate` leaves and generates the
packets of its result. -/
theorem TRexEngine.Holds.exec_evaluate {engine : TRexEngine} {numProc : Nat} {ids : List Nat}
    (holds : engine.Holds numProc ids) (place : Placement) (order : SetOrder) (c : Contents)
    (pkt : PubPkt) {l : List (Nat × Nat × Call)} (sched : Interleave.Schedule
      (engine.workerCalls (engine.indexingTable.processMessage pkt .empty)
        ⟨place.pick ((engine.held c.stacks).map PubPktPtr.addr), pkt⟩) l) :
    (Interleave.exec engine.system (c.stacks, fun _ => []) l).1 =
        (engine.evaluate place order c pkt).1.stacks ∧
      ((List.range engine.numProc).flatMap
        (Interleave.exec engine.system (c.stacks, fun _ => []) l).2).Perm
          (engine.evaluate place order c pkt).2 := by
  have owned : ∀ (mh : MatchingHandler) (ptr : PubPktPtr) (w : Nat),
      ∀ x ∈ engine.workerCalls mh ptr w,
        TRexEngine.owner ids.length numProc (engine.system.comp x) = w :=
    fun mh ptr w x mem => holds.owner_eq (TRexEngine.inRange_of_mem_workerCalls mem)
  have covers : ∀ (mh : MatchingHandler) (ptr : PubPktPtr) (w : Nat),
      w ∉ List.range engine.numProc → engine.workerCalls mh ptr w = [] := by
    intro mh ptr w notIn
    unfold TRexEngine.workerCalls
    rw [if_neg fun lt => notIn (List.mem_range.mpr lt)]
  have nodup := @List.nodup_range engine.numProc
  obtain ⟨same, perm⟩ := sched.exec_eq_run (owned _ _)
    (Interleave.at_flatMap (owned _ _) nodup (covers _ _)) nodup (covers _ _) c.stacks
  exact ⟨same, perm.trans (order.perm _ _).symm⟩

def maxRecursionDepth : Nat := 10

/-- The engine with the members that recursion needs. `decisions` is not a member: it records what
the loop over the results did since the last call from outside. -/
structure RecursiveEngine extends TRexEngine where
  inputEvents : List Int
  outputEvents : List Int
  recursionNeeded : Bool
  recursionDepth : Nat
  contents : Contents
  decisions : List (Decision PubPkt)

namespace RecursiveEngine

def finalize (numProc : Nat) : RecursiveEngine :=
  { TRexEngine.finalize numProc with
    inputEvents := [], outputEvents := [], recursionNeeded := false, recursionDepth := 0
    contents := .initial, decisions := [] }

/-- Only the types of the predicates are entered as input. A rule without a template, whose null
pointer the source follows, counts as one of type 0. -/
def setRecursionNeeded (e : RecursiveEngine) (pkt : RulePkt) : RecursiveEngine :=
  if e.recursionNeeded then e
  else
    let inputEvents := (pkt.predicates.map Predicate.eventType).foldl
      (fun s type => OrdSet.insert type s) e.inputEvents
    let outputEvents :=
      OrdSet.insert ((pkt.ceTemplate.map CompositeEventTemplate.eventType).getD 0) e.outputEvents
    { e with
      inputEvents, outputEvents
      recursionNeeded := inputEvents.any fun type => outputEvents.contains type }

def processRulePkt (alloc : Nat → Nat) (e : RecursiveEngine) (pkt : RulePkt) : RecursiveEngine :=
  let e := e.setRecursionNeeded pkt
  { e with toTRexEngine := e.toTRexEngine.processRulePkt alloc pkt }

theorem toTRexEngine_processRulePkt {alloc : Nat → Nat} (e : RecursiveEngine) (pkt : RulePkt) :
    (e.processRulePkt alloc pkt).toTRexEngine = e.toTRexEngine.processRulePkt alloc pkt := by
  unfold processRulePkt setRecursionNeeded
  split <;> rfl

theorem contents_processRulePkt {alloc : Nat → Nat} (e : RecursiveEngine) (pkt : RulePkt) :
    (e.processRulePkt alloc pkt).contents = e.contents := by
  unfold processRulePkt setRecursionNeeded
  split <;> rfl

def record (e : RecursiveEngine) (decision : Decision PubPkt) : RecursiveEngine :=
  { e with decisions := e.decisions ++ [decision] }

section ProcessPubPkt

variable (place : Placement) (order : SetOrder)

/-- The condition under which a generated packet is processed. -/
def feedsBack (e : RecursiveEngine) (recursionDepth : Nat) : Bool :=
  e.recursionNeeded && decide (recursionDepth < maxRecursionDepth)

/-- `depth` is the number of calls around this one; it is not known to the source. -/
def processPubPkt : (fuel depth : Nat) → RecursiveEngine → PubPkt → (recursion : Bool) →
    Option RecursiveEngine
  | 0, _, _, _, _ => none
  | fuel + 1, depth, e, pkt, recursion =>
    let e := if recursion then { e with recursionDepth := e.recursionDepth + 1 }
      else { e with recursionDepth := 0, decisions := [] }
    let (contents, result) := e.toTRexEngine.evaluate place order e.contents pkt
    result.foldlM (fun e pkt =>
      if e.feedsBack e.recursionDepth then
        processPubPkt fuel (depth + 1) (e.record ⟨depth + 1, pkt, true⟩) pkt.copy true
      else some (e.record ⟨depth + 1, pkt, false⟩)) { e with contents }

end ProcessPubPkt

/-! ## Runs -/

inductive Operation
  | processRulePkt (pkt : RulePkt)
  | processPubPkt (pkt : PubPkt)

def Operation.rule? : Operation → Option RulePkt
  | .processRulePkt pkt => some pkt
  | .processPubPkt _ => none

/-- The rules installed by a sequence of operations. -/
def rulesOf (ops : List Operation) : List RulePkt := ops.filterMap Operation.rule?

variable (alloc : Nat → Nat) (place : Placement) (order : SetOrder)

def step (e : RecursiveEngine) : Operation → Option RecursiveEngine
  | .processRulePkt pkt => some (e.processRulePkt alloc pkt)
  | .processPubPkt pkt => e.processPubPkt place order (maxRecursionDepth + 1) 0 pkt false

def run (e : RecursiveEngine) (ops : List Operation) : Option RecursiveEngine :=
  ops.foldlM (step alloc place order) e

theorem rulesOf_append (ops more : List Operation) :
    rulesOf (ops ++ more) = rulesOf ops ++ rulesOf more := List.filterMap_append

/-- The last operation of a run. -/
theorem run_concat {e e' : RecursiveEngine} {ops : List Operation} {op : Operation}
    (ran : run alloc place order e (ops ++ [op]) = some e') :
    ∃ mid, run alloc place order e ops = some mid ∧ mid.step alloc place order op = some e' := by
  unfold run at ran ⊢
  rw [List.foldlM_append] at ran
  obtain ⟨mid, before, last⟩ := Option.bind_eq_some_iff.mp ran
  exact ⟨mid, before, by simpa using last⟩

variable {alloc place order} in
theorem run_snoc {e mid e' : RecursiveEngine} {ops : List Operation} {op : Operation}
    (before : run alloc place order e ops = some mid)
    (now : mid.step alloc place order op = some e') :
    run alloc place order e (ops ++ [op]) = some e' := by
  unfold run at before ⊢
  rw [List.foldlM_append, before]
  simpa using now

/-! ## The calls as a walk -/

section Walk

variable {place order}

def toWalk (e : RecursiveEngine) : Walk Contents PubPkt :=
  ⟨e.contents, e.recursionDepth, e.decisions⟩

def withWalk (e : RecursiveEngine) (w : Walk Contents PubPkt) : RecursiveEngine :=
  { e with contents := w.state, recursionDepth := w.count, decisions := w.trace }

/-- The loop over the results with enough fuel. The induction is on the fuel and, for each amount,
on the results still to be visited. -/
theorem loop_eq_walk {fuel limit depth : Nat} {e : RecursiveEngine} (result : List PubPkt)
    (fueled : maxRecursionDepth ≤ e.recursionDepth + fuel)
    (deep : maxRecursionDepth ≤ e.recursionDepth + limit) :
    result.foldlM (fun e pkt =>
      if e.feedsBack e.recursionDepth then
        processPubPkt place order fuel (depth + 1) (e.record ⟨depth + 1, pkt, true⟩) pkt.copy true
      else some (e.record ⟨depth + 1, pkt, false⟩)) e =
    some (e.withWalk (walk (e.feedback place order) e.feedsBack limit (depth + 1) e.toWalk
      result)) := by
  induction fuel generalizing limit depth e result with
  | zero =>
      induction result generalizing e with
      | nil => simp [withWalk, toWalk]
      | cons pkt rest ih =>
          have refused : e.feedsBack e.recursionDepth = false := by
            unfold feedsBack
            rw [decide_eq_false (by omega), Bool.and_false]
          rw [List.foldlM_cons, refused, walk_cons_of_refused (.inr refused)]
          exact ih (e := e.record ⟨depth + 1, pkt, false⟩) fueled deep
  | succ fuel nested =>
      induction result generalizing e with
      | nil => simp [withWalk, toWalk]
      | cons pkt rest ih =>
          cases admitted : e.feedsBack e.recursionDepth with
          | false =>
              rw [List.foldlM_cons, admitted, walk_cons_of_refused (.inr admitted)]
              exact ih (e := e.record ⟨depth + 1, pkt, false⟩) fueled deep
          | true =>
              have less : e.recursionDepth < maxRecursionDepth := by
                simp only [feedsBack, Bool.and_eq_true, decide_eq_true_eq] at admitted
                exact admitted.2
              obtain ⟨limit, rfl⟩ : ∃ l, limit = l + 1 := ⟨limit - 1, by omega⟩
              -- the engine when the nested call enters its own loop
              let inner : RecursiveEngine :=
                { e with
                  recursionDepth := e.recursionDepth + 1
                  contents := ((e.feedback place order).react e.contents pkt).1
                  decisions := e.decisions ++ [⟨depth + 1, pkt, true⟩] }
              have call : processPubPkt place order (fuel + 1) (depth + 1)
                  (e.record ⟨depth + 1, pkt, true⟩) pkt.copy true =
                some (e.withWalk (walk (e.feedback place order) e.feedsBack limit (depth + 2)
                  (e.toWalk.feed (e.feedback place order) (depth + 1) pkt)
                  ((e.feedback place order).react e.contents pkt).2)) :=
                nested (e := inner) _ (by show _ ≤ e.recursionDepth + 1 + fuel; omega)
                  (by show _ ≤ e.recursionDepth + 1 + limit; omega)
              have grown : e.recursionDepth ≤ (walk (e.feedback place order) e.feedsBack limit
                  (depth + 2) (e.toWalk.feed (e.feedback place order) (depth + 1) pkt)
                  ((e.feedback place order).react e.contents pkt).2).count :=
                Nat.le_trans (Nat.le_succ _)
                  (le_count (w := e.toWalk.feed (e.feedback place order) (depth + 1) pkt) _)
              rw [List.foldlM_cons, admitted, if_pos rfl, call, walk_cons_of_admitted admitted]
              exact ih (e := e.withWalk _) (by show _ ≤ Walk.count _ + _; omega)
                (by show _ ≤ Walk.count _ + _; omega)

/-- The walk that a call from outside makes. -/
def walkOf (place : Placement) (order : SetOrder) (e : RecursiveEngine) (pkt : PubPkt) :
    Walk Contents PubPkt :=
  let (contents, result) := e.evaluate place order e.contents pkt
  walk (e.feedback place order) e.feedsBack maxRecursionDepth 1 ⟨contents, 0, []⟩ result

theorem processPubPkt_eq_walk {fuel : Nat} (enough : maxRecursionDepth < fuel)
    (e : RecursiveEngine) (pkt : PubPkt) :
    processPubPkt place order fuel 0 e pkt false =
      some (e.withWalk (walkOf place order e pkt)) := by
  obtain ⟨fuel, rfl⟩ : ∃ n, fuel = n + 1 := ⟨fuel - 1, by omega⟩
  exact loop_eq_walk
    (e := { e with
      recursionDepth := 0
      contents := (e.evaluate place order e.contents pkt).1
      decisions := [] })
    _ (by show _ ≤ 0 + fuel; omega) (by show _ ≤ 0 + maxRecursionDepth; omega)

end Walk

end RecursiveEngine

/-- A call from outside returns, whatever the rules and the order of the results, and the calls it
makes from within are at most `MAX_RECURSION_DEPTH` altogether. -/
theorem processPubPkt_returns (place : Placement) (order : SetOrder) (e : RecursiveEngine)
    (pkt : PubPkt) :
    ∃ e', (∀ fuel, maxRecursionDepth < fuel →
        e.processPubPkt place order fuel 0 pkt false = some e') ∧
      (fedEvents e'.decisions).length ≤ maxRecursionDepth := by
  refine ⟨_, fun fuel enough => e.processPubPkt_eq_walk enough pkt, ?_⟩
  have limited : ∀ c, e.feedsBack c = true → c < maxRecursionDepth := by
    intro c admitted
    simp only [RecursiveEngine.feedsBack, Bool.and_eq_true, decide_eq_true_eq] at admitted
    exact admitted.2
  have counted : (fedEvents (RecursiveEngine.walkOf place order e pkt).trace).length =
      (RecursiveEngine.walkOf place order e pkt).count := length_fedEvents rfl _
  exact counted.trans_le (count_le limited (Nat.zero_le _) _)

end TRex
