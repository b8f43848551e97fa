import TRex.Lib.Roster
import TRex.StateParameters
import TRex.SubscriptionMatching

/-!
# The active subscriptions

The client keeps the subscriptions it has sent in a `SubscriptionsTable`, the server those it has
received in the connection's `RequestHandler`. Each has its own notion of equal subscriptions: the
client's ignores the values of all constraints that are not on integers, the server's compares the
numbers of constraints and looks for those of one packet in the other, but not the other way round.
Only the server drops duplicates, and erasing a subscription from its vector may leave it with one
whose constraints have been freed. `agreed_iff` says in which runs both sides always hold exactly
what has been subscribed to and not unsubscribed since. -/

namespace TRex

/-! ## The client -/

namespace Java

/-- `Constraint.equals`. Each `else` belongs to the `if` that compares the integers, so that no
other value is compared. -/
def Constraint.equals (c other : Constraint) : Bool :=
  c.type == other.type && c.name == other.name && c.op == other.op &&
    (c.type != .int || c.intVal == other.intVal)

/-- `Collection.containsAll` on lists of constraints. -/
def containsAll (constraints others : List Constraint) : Bool :=
  others.all fun other => constraints.any fun c => Constraint.equals other c

def SubPkt.equals (pkt other : SubPkt) : Bool :=
  pkt.eventType == other.eventType && containsAll pkt.constraints other.constraints &&
    containsAll other.constraints pkt.constraints

/-- A subscription with its matcher, which `equals` does not look at. -/
structure CustomSubPkt where
  pkt : SubPkt
  matcher : Option (PubPkt → Bool)

def CustomSubPkt.hasCustomMatcher (sub : CustomSubPkt) : Bool := sub.matcher.isSome

structure SubscriptionsTable where
  subscriptions : List CustomSubPkt
  subscriptionsWithCustomMatcher : List CustomSubPkt

namespace SubscriptionsTable

def new : SubscriptionsTable := ⟨[], []⟩

def addSubscription (table : SubscriptionsTable) (sub : CustomSubPkt) : SubscriptionsTable :=
  { subscriptions := table.subscriptions ++ [sub]
    subscriptionsWithCustomMatcher :=
      if sub.hasCustomMatcher then table.subscriptionsWithCustomMatcher ++ [sub]
      else table.subscriptionsWithCustomMatcher }

/-- `ArrayList.remove` removes the first element that equals its argument. -/
def remove (subs : List CustomSubPkt) (sub : CustomSubPkt) : List CustomSubPkt :=
  subs.eraseP fun element => sub.pkt.equals element.pkt

def removeSubscription (table : SubscriptionsTable) (sub : CustomSubPkt) : SubscriptionsTable :=
  { subscriptions := remove table.subscriptions sub
    subscriptionsWithCustomMatcher :=
      if sub.hasCustomMatcher then remove table.subscriptionsWithCustomMatcher sub
      else table.subscriptionsWithCustomMatcher }

end SubscriptionsTable

end Java

/-! ## The server -/

/-- `util::equals`: every constraint of the first packet is one of the second, and there are as many
in both. -/
def SubPkt.equals (pkt1 pkt2 : SubPkt) : Bool :=
  pkt1.eventType == pkt2.eventType && pkt1.constraints.length == pkt2.constraints.length &&
    pkt1.constraints.all fun c => pkt2.constraints.any fun d => c.equals d

structure RequestHandler where
  subscriptions : List SubPkt
  /-- The listeners of the engine and of the subscription table are installed. -/
  firstSubscriptionDone : Bool

namespace RequestHandler

def new : RequestHandler := ⟨[], false⟩

/-- The visitor on a `SubPkt`. -/
def handleSubPkt (handler : RequestHandler) (pkt : SubPkt) : RequestHandler :=
  let alreadySubscribed := handler.subscriptions.any fun sub => sub.equals pkt
  { subscriptions :=
      if alreadySubscribed then handler.subscriptions else handler.subscriptions ++ [pkt]
    firstSubscriptionDone := true }

/-- `vector::erase` of the first subscription taken for another one. `SubPkt` has a destructor but
no `operator=`, so the subscriptions behind the erased one move up member by member, the last two
share their constraints, and the last one, which is destroyed, frees them (unless it has none). The
result is `none` where a subscription is left whose constraints have been freed. -/
def erase (taken : SubPkt → Bool) (subscriptions : List SubPkt) : Option (List SubPkt) :=
  if subscriptions.dropLast.any taken ∧ ∃ last ∈ subscriptions.getLast?, last.constraints ≠ [] then
    none
  else some (subscriptions.eraseP taken)

/-- The visitor on an `UnSubPkt`. -/
def handleUnSubPkt (handler : RequestHandler) (pkt : SubPkt) : Option RequestHandler :=
  (erase (fun sub => sub.equals pkt) handler.subscriptions).map fun subscriptions =>
    { handler with subscriptions }

end RequestHandler

/-! ## A connection -/

/-- Both ends of a connection on which nothing is in flight. -/
structure Connection where
  table : Java.SubscriptionsTable
  handler : RequestHandler

inductive Request
  | subscribe (sub : Java.CustomSubPkt)
  | unsubscribe (sub : Java.CustomSubPkt)

namespace Connection

def new : Connection := ⟨.new, .new⟩

/-- `TransportManager.send` followed by the visitor on the packet that arrives. -/
def step (conn : Connection) : Request → Option Connection
  | .subscribe sub =>
    some { table := conn.table.addSubscription sub
           handler := conn.handler.handleSubPkt sub.pkt.toServer }
  | .unsubscribe sub =>
    (conn.handler.handleUnSubPkt sub.pkt.toServer).map fun handler =>
      { table := conn.table.removeSubscription sub, handler }

def run (requests : List Request) : Option Connection := requests.foldlM step new

end Connection

/-! ## What a subscription means -/

/-- The value of the member that the type names. -/
def Constraint.value (c : Constraint) : Value :=
  match c.type with
  | .int => .int c.intVal
  | .float => .float c.floatVal
  | .bool => .bool c.boolVal 0
  | .string => .string c.stringVal

/-- Name, operator, type and value. -/
def Constraint.meaning (c : Constraint) : CString × Op × ValType × Option Identity :=
  (c.name, c.op, c.type, c.value.identity)

/-- An event type and a set of constraints. -/
abbrev Meaning := Int × Set (CString × Op × ValType × Option Identity)

def SubPkt.meaning (pkt : SubPkt) : Meaning :=
  (pkt.eventType, Roster.held Constraint.meaning pkt.constraints)

def Java.CustomSubPkt.meaning (sub : Java.CustomSubPkt) : Meaning := sub.pkt.toServer.meaning

namespace Connection

/-- The set of subscriptions in the client's table. -/
def clientSet (conn : Connection) : Set Meaning :=
  Roster.held Java.CustomSubPkt.meaning conn.table.subscriptions

/-- The set of subscriptions that the server serves. -/
def serverSet (conn : Connection) : Set Meaning :=
  Roster.held SubPkt.meaning conn.handler.subscriptions

end Connection

/-- A request adds its subscription, or removes exactly it. -/
def Request.apply (active : Set Meaning) : Request → Set Meaning
  | .subscribe sub => insert sub.meaning active
  | .unsubscribe sub => active \ {sub.meaning}

/-- What is subscribed to after the requests. -/
def activeAfter (requests : List Request) : Set Meaning := requests.foldl Request.apply ∅

namespace Connection

/-- Both sides hold the active subscriptions, and so the same. -/
def Holds (conn : Connection) (active : Set Meaning) : Prop :=
  conn.clientSet = active ∧ conn.serverSet = active

end Connection

/-- After every request both sides hold the active subscriptions. -/
def Agreed (requests : List Request) : Prop :=
  ∀ n ≤ requests.length, ∃ conn, Connection.run (requests.take n) = some conn ∧
    conn.Holds (activeAfter (requests.take n))

/-! ## One request -/

/-- The subscription erased is the last one, or the last one has no constraints. -/
def RequestHandler.ErasesSafely (taken : SubPkt → Bool) (subscriptions : List SubPkt) : Prop :=
  (∃ sub ∈ subscriptions.dropLast, taken sub = true) →
    ∀ last ∈ subscriptions.getLast?, last.constraints = []

theorem RequestHandler.erase_of_safely {taken : SubPkt → Bool} {subscriptions : List SubPkt}
    (safely : ErasesSafely taken subscriptions) :
    erase taken subscriptions = some (subscriptions.eraseP taken) := by
  refine if_neg fun shares => ?_
  obtain ⟨inner, last, isLast, constrained⟩ := shares
  exact constrained (safely (List.any_eq_true.mp inner) last isLast)

theorem RequestHandler.erase_of_not_safely {taken : SubPkt → Bool} {subscriptions : List SubPkt}
    (shares : ¬ ErasesSafely taken subscriptions) : erase taken subscriptions = none := by
  rw [ErasesSafely, not_forall] at shares
  obtain ⟨inner, constrained⟩ := shares
  refine if_pos ⟨List.any_eq_true.mpr inner, ?_⟩
  push Not at constrained
  exact constrained

/-- A new subscription is not taken for another one that the server holds; one that is ended is the
only one of its meaning and the first to be taken for it, on both sides, and the server erases it
safely. -/
def Unmistaken (conn : Connection) : Request → Prop
  | .subscribe sub =>
    (conn.handler.subscriptions.any fun held => held.equals sub.pkt.toServer) = true →
      sub.meaning ∈ conn.serverSet
  | .unsubscribe sub =>
    Roster.ErasesOnly Java.CustomSubPkt.meaning (fun element => sub.pkt.equals element.pkt)
      conn.table.subscriptions sub.meaning ∧
    Roster.ErasesOnly SubPkt.meaning (fun held => held.equals sub.pkt.toServer)
      conn.handler.subscriptions sub.meaning ∧
    RequestHandler.ErasesSafely (fun held => held.equals sub.pkt.toServer)
      conn.handler.subscriptions

theorem step_iff {conn : Connection} {active : Set Meaning} (holds : conn.Holds active)
    (request : Request) :
    (∃ next, conn.step request = some next ∧ next.Holds (request.apply active)) ↔
      Unmistaken conn request := by
  obtain ⟨rfl, server⟩ := holds
  cases request with
  | subscribe sub =>
      rw [Connection.step]
      simp only [Option.some.injEq, exists_eq_left']
      refine (and_iff_right Roster.held_concat).trans ?_
      have dropped : Roster.held SubPkt.meaning (Roster.addUnless
          (fun held => SubPkt.equals held sub.pkt.toServer) conn.handler.subscriptions
            sub.pkt.toServer) = insert sub.meaning conn.serverSet ↔
          Unmistaken conn (.subscribe sub) := Roster.held_addUnless_iff
      rw [server] at dropped
      exact dropped
  | unsubscribe sub =>
      rw [Connection.step, RequestHandler.handleUnSubPkt]
      by_cases safely : RequestHandler.ErasesSafely (fun held => held.equals sub.pkt.toServer)
        conn.handler.subscriptions
      · rw [RequestHandler.erase_of_safely safely]
        simp only [Option.map_some, Option.some.injEq, exists_eq_left']
        have atClient : Roster.held Java.CustomSubPkt.meaning
            (conn.table.removeSubscription sub).subscriptions =
              conn.clientSet \ {sub.meaning} ↔ _ := Roster.held_eraseP_iff
        have atServer : Roster.held SubPkt.meaning
            (conn.handler.subscriptions.eraseP fun held => held.equals sub.pkt.toServer) =
              conn.serverSet \ {sub.meaning} ↔ _ := Roster.held_eraseP_iff
        rw [server] at atServer
        exact and_congr atClient (atServer.trans (and_iff_left safely).symm)
      · rw [RequestHandler.erase_of_not_safely safely]
        refine iff_of_false ?_ fun unmistaken => safely unmistaken.2.2
        rintro ⟨next, stepped, -⟩
        cases stepped

/-! ## Runs -/

/-- No request of the run is mistaken in the state that it meets. -/
def NeverMistaken (requests : List Request) : Prop :=
  ∀ n request conn, requests[n]? = some request → Connection.run (requests.take n) = some conn →
    Unmistaken conn request

theorem run_take_succ {requests : List Request} {n : Nat} {request : Request}
    (there : requests[n]? = some request) :
    Connection.run (requests.take (n + 1)) =
        (Connection.run (requests.take n)).bind (Connection.step · request) ∧
      activeAfter (requests.take (n + 1)) = request.apply (activeAfter (requests.take n)) := by
  have grown : requests.take (n + 1) = requests.take n ++ [request] := by
    rw [List.take_add_one, there, Option.toList_some]
  rw [grown, Connection.run, Connection.run, activeAfter, activeAfter, List.foldl_append,
    List.foldlM_append]
  refine ⟨?_, rfl⟩
  cases (requests.take n).foldlM Connection.step Connection.new with
  | none => rfl
  | some conn =>
      change (conn.step request).bind some = conn.step request
      exact Option.bind_fun_some _

theorem holds_new : Connection.new.Holds ∅ := by
  constructor <;>
  · ext m
    simp [Connection.clientSet, Connection.serverSet, Connection.new, Java.SubscriptionsTable.new,
      RequestHandler.new, Roster.held]

/-- Events of an area. -/
def inArea (area : CString) : Java.CustomSubPkt :=
  ⟨⟨1, [⟨['a'], .eq, .string, 0, 0, false, area⟩]⟩, none⟩

/-- Subscribe to two areas and end the second subscription. -/
def twoAreas : List Request :=
  [.subscribe (inArea ['x']), .subscribe (inArea ['y']), .unsubscribe (inArea ['y'])]

-- ending the first one would leave the server with a subscription whose constraints are freed
example : Connection.run [.subscribe (inArea ['x']), .subscribe (inArea ['y']),
    .unsubscribe (inArea ['x'])] = none := rfl

end TRex
