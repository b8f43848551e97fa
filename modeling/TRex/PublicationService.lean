import TRex.Lib.Raising
import TRex.RecursiveProcessing
import TRex.SubscriptionEquality

/-!
# Serving a publication

What `RequestHandler` does with a publication: the subscription table lets every connection match it
against its subscriptions, then the engine processes it and lets every connection match the
composite events that it generates. `matches` throws at an operator that has no meaning for the type
of the constraint, and nobody catches that: the connections after it, the engine and the composite
events after it are left out. -/

namespace TRex

open Raising

/-! ## Connections -/

/-- What has been written to the connections: the number of each with the packet. -/
abbrev Written := List (Nat × PubPkt)

namespace RequestHandler

/-- The loop over the subscriptions. Each that matches writes the packet again. -/
def processPubPkt (id : Nat) (handler : RequestHandler) (written : Written) (pkt : PubPkt) :
    Except String Written :=
  handler.subscriptions.foldlM (fun written sub => do
    if ← sub.matchesPub pkt then return written ++ [(id, pkt)] else return written) written

/-- `ResultListenerImpl::handleResult`. -/
def handleResult (id : Nat) (handler : RequestHandler) (written : Written)
    (genPkts : List PubPkt) : Except String Written :=
  genPkts.foldlM (handler.processPubPkt id) written

end RequestHandler

/-- The engine and the connections that have subscribed, in the orders in which the subscription
table and the engine iterate their sets of listeners. -/
structure Server where
  engine : RecursiveEngine
  listeners : List (Nat × RequestHandler)
  resultListeners : List (Nat × RequestHandler)
  same : resultListeners.Perm listeners

namespace Server

variable (server : Server)

/-- `SubscriptionTable::processPublication`. -/
def processPublication (written : Written) (pkt : PubPkt) : Except String Written :=
  server.listeners.foldlM (fun written l => l.2.processPubPkt l.1 written pkt) written

/-- The loop over the listeners of the engine. -/
def notify (written : Written) (result : List PubPkt) : Except String Written :=
  server.resultListeners.foldlM (fun written l => l.2.handleResult l.1 written result) written

variable (place : Placement) (order : SetOrder)

/-- `TRexEngine::processPubPkt` with its listeners. The outer `none` is an exhausted fuel. -/
def processPubPkt : (fuel depth : Nat) → RecursiveEngine × Written → PubPkt → (recursion : Bool) →
    ExceptT String Option (RecursiveEngine × Written)
  | 0, _, _, _, _ => ExceptT.mk none
  | fuel + 1, depth, (e, written), pkt, recursion => do
    let e := if recursion then { e with recursionDepth := e.recursionDepth + 1 }
      else { e with recursionDepth := 0, decisions := [] }
    let (contents, result) := e.toTRexEngine.evaluate place order e.contents pkt
    let written ← ExceptT.mk (some (server.notify written result))
    result.foldlM (fun (e, written) pkt =>
      if e.feedsBack e.recursionDepth then
        processPubPkt fuel (depth + 1) (e.record ⟨depth + 1, pkt, true⟩, written) pkt.copy true
      else return (e.record ⟨depth + 1, pkt, false⟩, written)) ({ e with contents }, written)

/-- The visitor on a `PubPkt`: first the publication itself, then what the engine makes of it. -/
def publish (pkt : PubPkt) : ExceptT String Option (RecursiveEngine × Written) := do
  let written ← ExceptT.mk (some (server.processPublication [] pkt))
  server.processPubPkt place order (maxRecursionDepth + 1) 0 (server.engine, written) pkt false

end Server

/-! ## Exceptions of one test -/

/-- The operator has no meaning for the type. -/
def Constraint.IsUndefined (c : Constraint) : Prop :=
  match c.type with
  | .int | .float => c.op = .in_
  | .bool => c.op ≠ .eq ∧ c.op ≠ .ne
  | .string => False

/-- The packet has an attribute that the constraint can be tested on. -/
def PubPkt.Offers (pub : PubPkt) (c : Constraint) : Prop :=
  ∃ i type a, pub.getAttributeIndexAndType c.name = some (i, type) ∧ pub.attributes[i]? = some a ∧
    c.name = a.name ∧ c.type = a.type

/-- An undefined test is reached: the packet satisfies the constraints before it. -/
def SubPkt.Trips (sub : SubPkt) (pub : PubPkt) : Prop :=
  (pub.eventType : Int) = sub.eventType ∧ ∃ before c after, sub.constraints = before ++ c :: after ∧
    (∀ b ∈ before, pub.test b = .ok true) ∧ c.IsUndefined ∧ pub.Offers c

theorem not_error_ok {α : Type} (x : α) : ¬ ∃ e : String, Except.ok x = Except.error e := by
  simp

theorem matchesNumber_error_iff {V : Type} (lt le eq : V → V → Bool) (type : String) (op : Op)
    (x y : V) : (∃ e, op.matchesNumber lt le eq type x y = .error e) ↔ op = .in_ := by
  cases op <;> simp [Op.matchesNumber]

theorem matchesBool_error_iff (op : Op) (x y : Bool) :
    (∃ e, op.matchesBool x y = .error e) ↔ op ≠ .eq ∧ op ≠ .ne := by
  cases op <;> simp [Op.matchesBool]

theorem matchesAttribute_error_iff (c : Constraint) (a : Attribute) :
    (∃ e, c.matchesAttribute a = .error e) ↔ (c.name = a.name ∧ c.type = a.type) ∧
      c.IsUndefined := by
  rw [Constraint.matchesAttribute]
  split
  case isTrue other => exact iff_of_false (not_error_ok _) fun both => other both.1.1
  case isFalse name =>
    split
    case isTrue other => exact iff_of_false (not_error_ok _) fun both => other both.1.2
    case isFalse type =>
      rw [and_iff_right ⟨not_not.mp name, not_not.mp type⟩, Constraint.IsUndefined]
      cases c.type with
      | int => exact matchesNumber_error_iff ..
      | float => exact matchesNumber_error_iff ..
      | bool => exact matchesBool_error_iff ..
      | string => exact iff_of_false (not_error_ok _) id

theorem test_error_iff (pub : PubPkt) (c : Constraint) :
    (∃ e, pub.test c = .error e) ↔ c.IsUndefined ∧ pub.Offers c := by
  rw [PubPkt.test, PubPkt.Offers]
  cases pub.getAttributeIndexAndType c.name with
  | none =>
      refine iff_of_false (not_error_ok _) ?_
      rintro ⟨-, _, _, _, found, -⟩
      cases found
  | some found =>
      obtain ⟨i, type⟩ := found
      simp only [Option.some.injEq, Prod.mk.injEq]
      cases there : pub.attributes[i]? with
      | none =>
          refine iff_of_false (not_error_ok _) ?_
          rintro ⟨-, _, _, a, ⟨rfl, rfl⟩, found, -⟩
          rw [there] at found
          cases found
      | some a =>
          simp only [matchesAttribute_error_iff]
          rw [and_comm]
          refine and_congr_right fun _ => ⟨fun fits => ⟨i, type, a, ⟨rfl, rfl⟩, there, fits⟩, ?_⟩
          rintro ⟨_, _, b, ⟨rfl, rfl⟩, found, fits⟩
          rw [there, Option.some.injEq] at found
          rwa [found]

/-- The loop raises if it gets to an undefined test. -/
theorem matchesAll_error_iff (pub : PubPkt) (constraints : List Constraint) :
    (∃ e, pub.matchesAll constraints = .error e) ↔
      ∃ before c after, constraints = before ++ c :: after ∧
        (∀ b ∈ before, pub.test b = .ok true) ∧ ∃ e, pub.test c = .error e := by
  induction constraints with
  | nil => exact iff_of_false (not_error_ok _) not_exists_stop_nil
  | cons c rest ih =>
      rw [exists_stop_cons_iff, ← ih, matchesAll_cons]
      cases tested : pub.test c with
      | error e => exact iff_of_true ⟨e, rfl⟩ (.inl ⟨e, rfl⟩)
      | ok passed =>
          rw [or_iff_right (not_error_ok passed)]
          cases passed with
          | false => exact iff_of_false (not_error_ok _) fun both =>
              Bool.false_ne_true (Except.ok.inj both.1)
          | true => exact (and_iff_right rfl).symm

theorem matchesPub_error_iff (sub : SubPkt) (pub : PubPkt) :
    (∃ e, sub.matchesPub pub = .error e) ↔ sub.Trips pub := by
  rw [SubPkt.matchesPub, SubPkt.Trips]
  split
  case isTrue differ => exact iff_of_false (not_error_ok _) fun both => differ both.1
  case isFalse same =>
    rw [and_iff_right (not_not.mp same), matchesAll_error_iff]
    simp only [test_error_iff]

/-! ## Exceptions of the loops -/

namespace Server

/-- Some connection holds a subscription that raises on the packet. -/
def Trips (server : Server) (pkt : PubPkt) : Prop :=
  ∃ l ∈ server.listeners, ∃ sub ∈ l.2.subscriptions, sub.Trips pkt

/-- The packet is written to the connections that hold a subscription accepting it. -/
def due (server : Server) (pkt : PubPkt) : Set (Nat × PubPkt) :=
  {x | ∃ l ∈ server.listeners, ∃ sub ∈ l.2.subscriptions, sub.Accepts pkt ∧ x = (l.1, pkt)}

end Server

theorem serves_connection (id : Nat) (handler : RequestHandler) (pkt : PubPkt) :
    Serves (∃ sub ∈ handler.subscriptions, sub.Trips pkt)
      {x | ∃ sub ∈ handler.subscriptions, x ∈ {x | sub.Accepts pkt ∧ x = (id, pkt)}}
      (fun written => handler.processPubPkt id written pkt) := by
  refine Serves.foldlM fun sub _ => ?_
  constructor
  · intro trips written
    obtain ⟨e, raised⟩ := (matchesPub_error_iff sub pkt).mpr trips
    exact ⟨e, by rw [raised]; rfl⟩
  · intro calm written
    cases result : sub.matchesPub pkt with
    | error e => exact absurd ((matchesPub_error_iff sub pkt).mp ⟨e, result⟩) calm
    | ok accepts =>
        cases accepts with
        | true =>
            have accepts : sub.Accepts pkt := result
            refine ⟨written ++ [(id, pkt)], rfl, fun x => ?_⟩
            rw [List.mem_append, List.mem_singleton, Set.mem_ofPred_eq, and_iff_right accepts]
        | false =>
            have rejects : ¬ sub.Accepts pkt := fun accepts => nomatch accepts.symm.trans result
            refine ⟨written, rfl, fun x => ?_⟩
            rw [Set.mem_ofPred_eq, or_iff_left fun both => rejects both.1]

namespace Server

variable (server : Server)

theorem serves_processPublication (pkt : PubPkt) :
    Serves (server.Trips pkt) (server.due pkt)
      (fun written => server.processPublication written pkt) :=
  Serves.foldlM fun l _ => serves_connection l.1 l.2 pkt

/-- The listeners of the engine are those of the table, whatever their order. -/
theorem serves_notify (result : List PubPkt) :
    Serves (∃ pkt ∈ result, server.Trips pkt) {x | ∃ pkt ∈ result, x ∈ server.due pkt}
      (fun written => server.notify written result) := by
  have loops := Serves.foldlM fun l (_ : l ∈ server.resultListeners) =>
    Serves.foldlM fun pkt (_ : pkt ∈ result) => serves_connection l.1 l.2 pkt
  refine loops.congr ?_ ?_
  · simp only [server.same.mem_iff, Trips]
    constructor
    · rintro ⟨l, isListener, pkt, isResult, trips⟩
      exact ⟨pkt, isResult, l, isListener, trips⟩
    · rintro ⟨pkt, isResult, l, isListener, trips⟩
      exact ⟨l, isListener, pkt, isResult, trips⟩
  · ext x
    simp only [server.same.mem_iff, due, Set.mem_ofPred_eq]
    constructor
    · rintro ⟨l, isListener, pkt, isResult, dues⟩
      exact ⟨pkt, isResult, l, isListener, dues⟩
    · rintro ⟨pkt, isResult, l, isListener, dues⟩
      exact ⟨l, isListener, pkt, isResult, dues⟩

/-! ## The engine with its listeners -/

/-- The call takes the engine from `e` to `e'`, unless a packet that this adds to the delivered ones
raises an exception. -/
def Notifies (e e' : RecursiveEngine)
    (call : Written → ExceptT String Option (RecursiveEngine × Written)) : Prop :=
  ∃ new f, e'.contents.delivered = e.contents.delivered ++ new ∧
    Serves (∃ pkt ∈ new, server.Trips pkt) {x | ∃ pkt ∈ new, x ∈ server.due pkt} f ∧
    ∀ written, call written = ExceptT.mk (some ((f written).map fun written => (e', written)))

variable {server}

theorem Notifies.refl {e e' : RecursiveEngine}
    (same : e'.contents.delivered = e.contents.delivered) :
    server.Notifies e e' fun written => pure (e', written) := by
  refine ⟨[], fun written => .ok written, same.trans (List.append_nil _).symm, ?_, fun _ => rfl⟩
  refine Serves.pure.congr ?_ ?_
  · simp
  · simp

theorem Notifies.bind {e e' e'' : RecursiveEngine}
    {call : Written → ExceptT String Option (RecursiveEngine × Written)}
    {next : RecursiveEngine × Written → ExceptT String Option (RecursiveEngine × Written)}
    (first : server.Notifies e e' call) (second : server.Notifies e' e'' fun w => next (e', w)) :
    server.Notifies e e'' fun written => call written >>= next := by
  obtain ⟨new, f, added, serves, calls⟩ := first
  obtain ⟨new', f', added', serves', calls'⟩ := second
  refine ⟨new ++ new', fun written => f written >>= f', ?_, (serves.bind serves').congr ?_ ?_, ?_⟩
  · rw [added', added, List.append_assoc]
  · simp only [List.mem_append, or_and_right, exists_or]
  · ext x
    simp only [Set.mem_union, Set.mem_ofPred_eq, List.mem_append, or_and_right, exists_or]
  · intro written
    show call written >>= next =
      ExceptT.mk (some ((f written >>= f').map fun written => (e'', written)))
    rw [calls]
    cases f written with
    | error e => rfl
    | ok written' => exact calls' written'

/-- The notification of the listeners between an evaluation and what follows it. -/
theorem Notifies.notify {e e' e'' : RecursiveEngine} {result : List PubPkt}
    {later : Written → ExceptT String Option (RecursiveEngine × Written)}
    (added : e'.contents.delivered = e.contents.delivered ++ result)
    (following : server.Notifies e' e'' later) : server.Notifies e e'' fun written =>
      ExceptT.mk (some (server.notify written result)) >>= later := by
  have here : server.Notifies e e' fun written =>
      ExceptT.mk (some ((server.notify written result).map fun written => (e', written))) :=
    ⟨result, fun written => server.notify written result, added, server.serves_notify result,
      fun _ => rfl⟩
  have whole := @Notifies.bind server e e' e'' _ (fun s => later s.2) here following
  have same : ∀ written, ExceptT.mk (some (server.notify written result)) >>= later =
      ExceptT.mk (some ((server.notify written result).map fun written => (e', written))) >>=
        fun s => later s.2 := by
    intro written
    cases server.notify written result <;> rfl
  rwa [← funext same] at whole

variable {place : Placement} {order : SetOrder}

/-- The loop over the results, where the nested calls are as they should be. -/
theorem Notifies.loop {fuel depth : Nat}
    (nested : ∀ e e' pkt, RecursiveEngine.processPubPkt place order fuel (depth + 1) e pkt true =
      some e' → server.Notifies e e' fun written =>
        server.processPubPkt place order fuel (depth + 1) (e, written) pkt true)
    {result : List PubPkt} {e e' : RecursiveEngine}
    (ran : result.foldlM (fun e pkt =>
      if e.feedsBack e.recursionDepth then
        RecursiveEngine.processPubPkt place order fuel (depth + 1)
          (e.record ⟨depth + 1, pkt, true⟩) pkt.copy true
      else some (e.record ⟨depth + 1, pkt, false⟩)) e = some e') :
    server.Notifies e e' fun written => result.foldlM (fun (e, written) pkt =>
      if e.feedsBack e.recursionDepth then
        server.processPubPkt place order fuel (depth + 1)
          (e.record ⟨depth + 1, pkt, true⟩, written) pkt.copy true
      else pure (e.record ⟨depth + 1, pkt, false⟩, written)) (e, written) := by
  induction result generalizing e with
  | nil =>
      cases ran
      exact Notifies.refl rfl
  | cons pkt rest ih =>
      rw [List.foldlM_cons] at ran
      obtain ⟨mid, turn, later⟩ := Option.bind_eq_some_iff.mp ran
      simp only [List.foldlM_cons]
      refine Notifies.bind ?_ (ih later)
      cases admitted : e.feedsBack e.recursionDepth with
      | true =>
          rw [admitted, if_pos rfl] at turn
          exact nested _ _ _ turn
      | false =>
          rw [admitted] at turn
          cases turn
          exact Notifies.refl rfl

/-- The engine as a call finds it, and with the contents that the evaluation leaves. -/
def entered (e : RecursiveEngine) (recursion : Bool) : RecursiveEngine :=
  if recursion then { e with recursionDepth := e.recursionDepth + 1 }
  else { e with recursionDepth := 0, decisions := [] }

def evaluated (place : Placement) (order : SetOrder) (e : RecursiveEngine) (pkt : PubPkt) :
    RecursiveEngine :=
  { e with contents := (e.evaluate place order e.contents pkt).1 }

theorem notifies_processPubPkt {fuel depth : Nat} {e e' : RecursiveEngine} {pkt : PubPkt}
    {recursion : Bool}
    (ran : RecursiveEngine.processPubPkt place order fuel depth e pkt recursion = some e') :
    server.Notifies e e' fun written =>
      server.processPubPkt place order fuel depth (e, written) pkt recursion := by
  induction fuel generalizing depth e e' pkt recursion with
  | zero => cases ran
  | succ fuel ih =>
      let start := evaluated place order (entered e recursion) pkt
      let result :=
        ((entered e recursion).evaluate place order (entered e recursion).contents pkt).2
      have added : start.contents.delivered = e.contents.delivered ++ result := by
        cases recursion <;> rfl
      have loop : server.Notifies start e' fun written => result.foldlM (fun (e, written) pkt =>
          if e.feedsBack e.recursionDepth then
            server.processPubPkt place order fuel (depth + 1)
              (e.record ⟨depth + 1, pkt, true⟩, written) pkt.copy true
          else pure (e.record ⟨depth + 1, pkt, false⟩, written)) (start, written) :=
        Notifies.loop (fun e e' pkt ran => ih ran) ran
      exact Notifies.notify added loop

/-! ## A publication -/

variable (server) (place) (order)

/-- The composite events that the engine generates from a publication. -/
def generated (pkt : PubPkt) : List PubPkt :=
  (RecursiveEngine.walkOf place order server.engine pkt).state.delivered.drop
    server.engine.contents.delivered.length

/-- No exception is raised: the engine has processed the packet, and to every connection have been
written the publication and the composite events that one of its subscriptions accepts. -/
def FullyProcessed (pkt : PubPkt) : Prop :=
  ∃ e written, server.publish place order pkt = ExceptT.mk (some (.ok (e, written))) ∧
    server.engine.processPubPkt place order (maxRecursionDepth + 1) 0 pkt false = some e ∧
    ∀ p ∈ pkt :: server.generated place order pkt, ∀ x ∈ server.due p, x ∈ written

/-- A publication as one step that raises or writes. -/
theorem publish_serves (pkt : PubPkt) :
    ∃ e f, server.engine.processPubPkt place order (maxRecursionDepth + 1) 0 pkt false = some e ∧
      Serves (∃ p ∈ pkt :: server.generated place order pkt, server.Trips p)
        {x | ∃ p ∈ pkt :: server.generated place order pkt, x ∈ server.due p} f ∧
      server.publish place order pkt =
        ExceptT.mk (some ((f []).map fun written => (e, written))) := by
  have ran := @RecursiveEngine.processPubPkt_eq_walk place order _
    (Nat.lt_succ_self maxRecursionDepth) server.engine pkt
  have listened : server.Notifies server.engine _ fun written =>
      server.processPubPkt place order (maxRecursionDepth + 1) 0
        (server.engine, written) pkt false :=
    notifies_processPubPkt ran
  obtain ⟨new, f, delivered, serves, calls⟩ := listened
  have isNew : server.generated place order pkt = new := by
    rw [generated]
    exact (congrArg (List.drop _) delivered).trans List.drop_left
  refine ⟨_, fun written => server.processPublication written pkt >>= f, ran, ?_, ?_⟩
  · refine ((server.serves_processPublication pkt).bind serves).congr ?_ ?_
    · simp only [isNew, List.mem_cons, exists_eq_or_imp]
    · ext x
      simp only [isNew, Set.mem_union, Set.mem_ofPred_eq, List.mem_cons, exists_eq_or_imp]
  · show server.publish place order pkt = ExceptT.mk (some
      ((server.processPublication [] pkt >>= f).map fun written => (_, written)))
    rw [publish]
    cases server.processPublication [] pkt with
    | error e => rfl
    | ok written => exact calls written

/-- A publication is fully processed exactly if no subscription has an undefined test that it or one
of its composite events reaches. -/
theorem fullyProcessed_iff (pkt : PubPkt) : server.FullyProcessed place order pkt ↔
    ∀ p ∈ pkt :: server.generated place order pkt, ¬ server.Trips p := by
  obtain ⟨e, f, ran, serves, published⟩ := server.publish_serves place order pkt
  constructor
  · rintro ⟨e', written, ok, -, -⟩ p mem trips
    obtain ⟨text, raised⟩ := serves.fails ⟨p, mem, trips⟩ []
    rw [published, raised] at ok
    cases ok
  · intro calm
    obtain ⟨written, wrote, members⟩ := serves.logs
      (fun trips => calm _ trips.choose_spec.1 trips.choose_spec.2) []
    refine ⟨e, written, ?_, ran, fun p mem x due => (members x).mpr (.inr ⟨p, mem, due⟩)⟩
    rw [published, wrote]
    rfl

end Server

/-! ## One connection for two -/

/-- An `IN` on numbers, decoded as it was sent. -/
def oneOf : SubPkt := ⟨1, [⟨['a'], .in_, .int, 5, 0, false, []⟩]⟩

/-- The second connection waits for what the first one makes impossible. -/
def twoConnections : Server where
  engine := RecursiveEngine.finalize 1
  listeners := [(0, ⟨[oneOf], true⟩), (1, ⟨[⟨1, []⟩], true⟩)]
  resultListeners := [(0, ⟨[oneOf], true⟩), (1, ⟨[⟨1, []⟩], true⟩)]
  same := List.Perm.refl _

theorem twoConnections_not_fullyProcessed :
    ¬ twoConnections.FullyProcessed .above .asGenerated (PubPkt.new 1 [⟨['a'], .int 5⟩] 0) := by
  rintro ⟨e, written, ok, -, -⟩
  cases ok

end TRex
