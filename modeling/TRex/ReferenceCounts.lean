import TRex.StacksAccesses

/-!
# Reference counts

The life of packets in an engine with one caller (`MP_MODE` is `MP_LOCK`). A packet is created with
one reference, which belongs to the call of `processPubPkt` that it is given to, or to the call that
collects it as a result; each slot of a stack has a reference of its own. Workers make the accesses
of their calls one by one, in any interleaving, since the counter of a packet has its own mutex. A
decrement to zero and the deletion that follows are one step, and so are the change of a slot and
the change of the counter next to it.

A run is a sequence of steps in which fewer than 65535 slots ever hold the same packet. In every
state of a run no access has met a packet that does not exist, and every counter is the number of
slots that hold the packet plus one if a call owns it, if the rules read only slots of partial
results that have been assigned (`referenceCount_exact`). The others are not initialised, and may
hold the address of a packet deleted before.

Listeners read the results and keep no reference to them, as the server's do.
-/

namespace TRex

open RefCount

/-! ## The calls that a packet causes -/

/-- The stacks of each kind. -/
def StacksRule.columnsNum (r : StacksRule) : StateType → Nat
  | .state => r.stacksNum
  | .neg => r.negations.length
  | .agg => r.aggregates.length

section Calls

open TRexEngine (installAll)

variable {alloc : Nat → Nat} {numProc : Nat} {rules : List RulePkt}

/-- The detection sequences are those of the rules installed. -/
theorem exists_of_mem_stacksRules {id : Nat} {r : StacksRule}
    (mem : (id, r) ∈ (installAll alloc numProc rules).stacksRules) :
    ∃ pkt ∈ rules, pkt.ruleId = id ∧ StacksRule.new pkt = r := by
  induction rules using List.reverseRecOn with
  | nil => cases mem
  | append_singleton rules pkt ih =>
      rw [TRexEngine.installAll_concat] at mem
      rcases OrdMap.mem_of_mem_insert mem with new | old
      · cases new
        exact ⟨pkt, List.mem_append_right _ (List.mem_singleton.mpr rfl), rfl, rfl⟩
      · obtain ⟨pkt', inRules, same⟩ := ih old
        exact ⟨pkt', List.mem_append_left _ inRules, same⟩

/-- What the index reports for a rule is an element of its detection sequence. -/
theorem lt_of_mem_matching (ids : (rules.map RulePkt.ruleId).Nodup) {pkt : PubPkt} {id : Nat}
    {r : StacksRule} (found : (installAll alloc numProc rules).ruleOf id = some r)
    {type : StateType} {i : Nat}
    (reported : i ∈ ((installAll alloc numProc rules).indexingTable.processMessage pkt
      .empty).matching type id) :
    i < r.columnsNum type := by
  have sorted := (TRexEngine.holds_installAll alloc numProc ids).sorted
  obtain ⟨rule, inRules, ruleId, rfl⟩ :=
    exists_of_mem_stacksRules ((OrdMap.find?_eq_some TRexEngine.idLt_iff sorted).mp found)
  rw [TRexEngine.indexingTable_installAll alloc numProc] at reported
  obtain ⟨rule', inRules', ruleId', e, isElement, ofType, rfl⟩ :=
    IndexingTable.exists_of_mem_matching reported
  obtain rfl : rule = rule' :=
    List.inj_on_of_nodup_map ids inRules inRules' (ruleId.trans ruleId'.symm)
  have listed := IndexingTable.elementAt_of_mem isElement
  rw [ofType] at listed
  cases type with
  | state =>
      obtain ⟨x, at_, -⟩ := Option.map_eq_some_iff.mp listed
      simpa [StacksRule.columnsNum] using (List.getElem?_eq_some_iff.mp at_).1
  | neg =>
      obtain ⟨x, at_, -⟩ := Option.map_eq_some_iff.mp listed
      exact (List.getElem?_eq_some_iff.mp at_).1
  | agg =>
      obtain ⟨x, at_, -⟩ := Option.map_eq_some_iff.mp listed
      exact (List.getElem?_eq_some_iff.mp at_).1

/-- Each call of a worker is for the packet and for a rule in its range, which makes such calls. -/
theorem made_of_mem_workerCalls (ids : (rules.map RulePkt.ruleId).Nodup) {ptr : PubPktPtr}
    {w : Nat} {x : Nat × Call}
    (mem : x ∈ (installAll alloc numProc rules).workerCalls
      ((installAll alloc numProc rules).indexingTable.processMessage ptr.pkt .empty) ptr w) :
    x.2.pkt = ptr ∧ (installAll alloc numProc rules).InRange w x.1 ∧
      ∃ r, (installAll alloc numProc rules).ruleOf x.1 = some r ∧ r.Made x.2 := by
  have isCall := TRexEngine.ruleCalls_of_mem_workerCalls mem
  have isInstalled : x.1 ∈ rules.map RulePkt.ruleId := by
    by_contra notInstalled
    rw [ruleCalls_of_not_installed notInstalled] at isCall
    cases isCall
  obtain ⟨r, found⟩ := Option.isSome_iff_exists.mp
    ((TRexEngine.holds_installAll alloc numProc ids).ruleOf_isSome isInstalled)
  have bound := fun type i => @lt_of_mem_matching alloc numProc rules ids ptr.pkt x.1 r found type i
  have made : x.2.pkt = ptr ∧ r.Made x.2 := by
    unfold TRexEngine.ruleCalls at isCall
    rcases List.mem_append.mp isCall with isAdd | isStart
    · rcases List.mem_append.mp isAdd with isNegOrAgg | isState
      · rcases List.mem_append.mp isNegOrAgg with isNeg | isAgg
        · obtain ⟨i, reported, call⟩ := List.mem_map.mp isNeg
          rw [← call]
          exact ⟨rfl, bound .neg i reported⟩
        · obtain ⟨i, reported, call⟩ := List.mem_map.mp isAgg
          rw [← call]
          exact ⟨rfl, bound .agg i reported⟩
      · obtain ⟨i, reported, call⟩ := List.mem_map.mp isState
        obtain ⟨listed, pos⟩ := List.mem_filter.mp reported
        rw [← call]
        exact ⟨rfl, Nat.pos_of_ne_zero (of_decide_eq_true pos), bound .state i listed⟩
    · split at isStart
      case isTrue reported =>
        rw [List.mem_singleton.mp isStart]
        exact ⟨rfl, bound .state 0 reported⟩
      case isFalse => cases isStart
  exact ⟨made.1, TRexEngine.inRange_of_mem_workerCalls mem, r, found, made.2⟩

end Calls

namespace Counting

/-! ## States -/

/-- The values of `referenceCount`, a `uint16_t`. -/
def countValues : Nat := 2 ^ 16

/-- A call on the stacks of a rule that a worker is inside of. -/
structure Running where
  rule : Nat
  todo : List (Access Nat)
  /-- Addresses of the packets generated so far. -/
  placed : List Nat
  /-- What the call leaves behind and adds to the result. -/
  after : Stacks
  generated : List PubPktPtr

structure Worker where
  calls : List (Nat × Call)
  current : Option Running
  result : List PubPktPtr

def Worker.idle : Worker := ⟨[], none, []⟩

/-- Packets that belong to the call a worker works for. -/
def Worker.owned (worker : Worker) : List Nat :=
  addrs worker.result ++ (worker.current.map Running.placed).getD []

/-- A call of `processPubPkt`: waiting for the workers, or in the loop over the results. `fed` tells
that the recursive call for the first pending result has been made. -/
inductive Activation
  | working (pkt : PubPktPtr)
  | delivering (pending : List PubPktPtr) (fed : Bool)

def Activation.owned : Activation → List Nat
  | .working pkt => [pkt.addr]
  | .delivering pending _ => addrs pending

structure Machine where
  engine : RecursiveEngine
  /-- The rules have not been destroyed. -/
  alive : Bool
  /-- The packets in the slots of each rule. -/
  slots : Nat → List Nat
  /-- The counters; `none` after an access to a packet that does not exist. -/
  memory : Option (Heap Nat)
  /-- The calls, the innermost first. -/
  activations : List Activation
  workers : Nat → Worker

namespace Machine

def initial (numProc : Nat) : Machine :=
  { engine := .finalize numProc, alive := true, slots := fun _ => []
    memory := some fun _ => none, activations := [], workers := fun _ => .idle }

variable (s : Machine)

/-- All slots of all rules. -/
def slotList : List Nat := (s.engine.stacksRules.map Prod.fst).flatMap s.slots

/-- The packets that calls own. -/
def owned : List Nat :=
  s.activations.flatMap Activation.owned ++
    (List.range s.engine.numProc).flatMap fun w => (s.workers w).owned

/-- The references to a packet. -/
def references (a : Nat) : Nat := s.slotList.count a + if a ∈ s.owned then 1 else 0

def FewSlots : Prop := ∀ a, s.slotList.count a < 65535

/-- Memory is allocated where no packet is. -/
def Fresh (a : Nat) : Prop := ∀ h, s.memory = some h → h a = none

def perform (accesses : List (Access Nat)) : Option (Heap Nat) :=
  s.memory.bind fun h => exec countValues h accesses

/-! ## Steps -/

/-- `processPubPkt` up to the signals to the workers. The packet is made right before, from what
`source` reads. -/
def enter (ptr : PubPktPtr) (source : List (Access Nat)) : Machine :=
  let mh := s.engine.indexingTable.processMessage ptr.pkt .empty
  { s with
    memory := s.perform (source ++ [.new ptr.addr, .read ptr.addr])
    activations := .working ptr :: s.activations
    workers := fun w => ⟨s.engine.workerCalls mh ptr w, none, []⟩ }

def setWorker (w : Nat) (worker : Worker) : Machine :=
  { s with workers := Function.update s.workers w worker }

def withDepth (recursionDepth : Nat) : Machine :=
  { s with engine := { s.engine with recursionDepth } }

/-- The stacks of one rule are changed. -/
def setStacks (id : Nat) (st : Stacks) : Machine :=
  { s with engine := { s.engine with
      contents := { s.engine.contents with
        «stacks» := Function.update s.engine.contents.stacks id st } } }

end Machine

section Steps

variable (alloc : Nat → Nat) (Admitted : RulePkt → Prop)

/-- Only rules that are admitted are installed. -/
inductive Step : Machine → Machine → Prop
  | processRulePkt {s : Machine} {pkt : RulePkt} (admitted : Admitted pkt)
      (alive : s.alive = true) (outside : s.activations = [])
      (newId : pkt.ruleId ∉ s.engine.stacksRules.map Prod.fst) :
      Step s { s with engine := s.engine.processRulePkt alloc pkt }
  | processPubPkt {s : Machine} {ptr : PubPktPtr} (alive : s.alive = true)
      (outside : s.activations = []) (fresh : s.Fresh ptr.addr) :
      Step s ((s.withDepth 0).enter ptr [])
  /-- A worker begins its next call. What stands in slots that have not been assigned is left
  open. -/
  | call {s : Machine} {w : Nat} {x : Nat × Call} {rest : List (Nat × Call)}
      {result : List PubPktPtr} {r : StacksRule} {wild : Reading → Nat} {addresses : List Nat}
      (worker : s.workers w = ⟨x :: rest, none, result⟩) (found : s.engine.ruleOf x.1 = some r)
      (one_each : addresses.length =
        (s.engine.system.act x (s.engine.contents.stacks x.1)).2.length) :
      Step s (s.setWorker w
        { calls := rest
          current := some
            { rule := x.1
              todo := r.accesses (s.engine.contents.stacks x.1) wild addresses x.2
              placed := []
              after := (s.engine.system.act x (s.engine.contents.stacks x.1)).1
              generated := List.zipWith PubPktPtr.mk addresses
                (s.engine.system.act x (s.engine.contents.stacks x.1)).2 }
          result })
  /-- The rule of the next call does not exist. -/
  | missing {s : Machine} {w : Nat} {x : Nat × Call} {rest : List (Nat × Call)}
      {result : List PubPktPtr} (worker : s.workers w = ⟨x :: rest, none, result⟩)
      (notFound : s.engine.ruleOf x.1 = none) : Step s { s with memory := none }
  | access {s : Machine} {w : Nat} {calls : List (Nat × Call)} {running : Running}
      {result : List PubPktPtr} {access : Access Nat} {rest : List (Access Nat)}
      (worker : s.workers w = ⟨calls, some running, result⟩)
      (next : running.todo = access :: rest) (fresh : ∀ a, access = .new a → s.Fresh a) :
      Step s { s.setWorker w
          ⟨calls, some { running with
            todo := rest, placed := running.placed ++ access.created }, result⟩ with
        memory := s.perform [access]
        slots := Function.update s.slots running.rule (access.after (s.slots running.rule)) }
  | endCall {s : Machine} {w : Nat} {calls : List (Nat × Call)} {running : Running}
      {result : List PubPktPtr} (worker : s.workers w = ⟨calls, some running, result⟩)
      (done : running.todo = []) :
      Step s ((s.setStacks running.rule running.after).setWorker w
        ⟨calls, none, result ++ running.generated⟩)
  /-- The results are collected, in the order of a set of pointers, and the packet is released. -/
  | collect {s : Machine} {ptr : PubPktPtr} {below : List Activation} {results : List PubPktPtr}
      (top : s.activations = .working ptr :: below)
      (done : ∀ w, (s.workers w).calls = [] ∧ (s.workers w).current = none)
      (all : results.Perm
        ((List.range s.engine.numProc).flatMap fun w => (s.workers w).result)) :
      Step s { s with
        memory := s.perform (.dec ptr.addr :: (addrs results).map .read)
        activations := .delivering results false :: below
        workers := fun _ => .idle }
  | feed {s : Machine} {p : PubPktPtr} {a : Nat} {rest : List PubPktPtr} {below : List Activation}
      (top : s.activations = .delivering (p :: rest) false :: below)
      (needed : s.engine.feedsBack s.engine.recursionDepth = true) (fresh : s.Fresh a) :
      Step s (({ s with activations := .delivering (p :: rest) true :: below }.withDepth
        (s.engine.recursionDepth + 1)).enter ⟨a, p.pkt.copy⟩ [.read p.addr])
  | release {s : Machine} {p : PubPktPtr} {rest : List PubPktPtr} {fed : Bool}
      {below : List Activation} (top : s.activations = .delivering (p :: rest) fed :: below)
      (fedBack : fed = true ∨ s.engine.feedsBack s.engine.recursionDepth = false) :
      Step s { s with
        memory := s.perform [.dec p.addr]
        activations := .delivering rest false :: below }
  | return_ {s : Machine} {fed : Bool} {below : List Activation}
      (top : s.activations = .delivering [] fed :: below) :
      Step s { s with activations := below }
  /-- The destructors of all rules. -/
  | destroy {s : Machine} (alive : s.alive = true) (outside : s.activations = []) :
      Step s { s with
        engine := { s.engine with stacksRules := [] }
        alive := false
        slots := fun _ => []
        memory := s.perform
          ((addrs (s.engine.toTRexEngine.held s.engine.contents.stacks)).map .dec) }

/-- The states of all runs in which the slots that hold one packet are few. -/
inductive Reachable (numProc : Nat) : Machine → Prop
  | initial : Reachable numProc (.initial numProc)
  | step {s s' : Machine} (before : Reachable numProc s) (step : Step alloc Admitted s s')
      (few : s'.FewSlots) : Reachable numProc s'

end Steps

end Counting

end TRex
