import TRex.DerivationDepth
import TRex.PublicationService
import TRex.ServerPackets

/-!
# What each connection is sent

`SOEPServer` over its whole life: connections are accepted, subscribe and unsubscribe, send rules
and publications, and are closed and destroyed; the addresses of destroyed connections are used
again. The server has a pool of one thread, so that one handler runs after the other; those of
several threads would use the engine and the subscription table at the same time, which nothing
guards.

As long as no connection's subscription has an operator without a meaning, and none ends a
subscription in a way that frees the constraints of another one, no listener of a destroyed
connection is ever called, and what a connection is sent is determined by its own requests and by
the engine (`sent_eq_view`). -/

namespace TRex

open Raising

/-! ## What one publication writes -/

def Constraint.Defined (c : Constraint) : Prop := ¬ c.IsUndefined

/-- No test of the subscription raises an exception. -/
def SubPkt.Defined (sub : SubPkt) : Prop := ∀ c ∈ sub.constraints, c.Defined

theorem SubPkt.Defined.calm {sub : SubPkt} (defined : sub.Defined) (pkt : PubPkt) :
    ¬ sub.Trips pkt := by
  intro trips
  obtain ⟨-, before, c, after, split, -, undefined, -⟩ := trips
  have mem : c ∈ sub.constraints := by
    rw [split]
    exact List.mem_append_right _ List.mem_cons_self
  exact defined c mem undefined

def SubPkt.accepts (sub : SubPkt) (pkt : PubPkt) : Bool :=
  match sub.matchesPub pkt with
  | .ok accepted => accepted
  | .error _ => false

/-- The packet once for each subscription that accepts it. -/
def copiesFor (subscriptions : List SubPkt) (pkt : PubPkt) : List PubPkt :=
  (subscriptions.filter fun sub => sub.accepts pkt).map fun _ => pkt

/-- What is written to one connection. -/
def Written.to (written : Written) (address : Nat) : List PubPkt :=
  (written.filter fun w => w.1 == address).map Prod.snd

@[simp] theorem Written.to_append (written more : Written) (address : Nat) :
    Written.to (written ++ more) address = written.to address ++ more.to address := by
  simp [Written.to]

/-- Only the listeners of a connection write to it. -/
theorem Written.to_flatMap (ls : List (Nat × RequestHandler)) (f : RequestHandler → List PubPkt)
    (address : Nat) :
    Written.to (ls.flatMap fun l => (f l.2).map fun pkt => (l.1, pkt)) address =
      (ls.filter fun l => l.1 == address).flatMap fun l => f l.2 := by
  induction ls with
  | nil => rfl
  | cons l rest ih =>
      rw [List.flatMap_cons, Written.to_append, ih, List.filter_cons]
      cases here : l.1 == address with
      | true => simp [Written.to, List.filter_map, Function.comp_def, here]
      | false => simp [Written.to, List.filter_map, Function.comp_def, here]

namespace RequestHandler

/-- No subscription of the connection raises an exception. -/
def Calm (handler : RequestHandler) : Prop := ∀ sub ∈ handler.subscriptions, sub.Defined

variable {handler : RequestHandler} (calm : handler.Calm) (id : Nat) (written : Written)

include calm

theorem processPubPkt_ok (pkt : PubPkt) : handler.processPubPkt id written pkt =
    .ok (written ++ (copiesFor handler.subscriptions pkt).map fun p => (id, p)) := by
  have turn : ∀ sub ∈ handler.subscriptions, ∀ log : Written, (do
      if ← sub.matchesPub pkt then return log ++ [(id, pkt)] else return log) =
        (.ok (log ++ if sub.accepts pkt then [(id, pkt)] else []) : Except String Written) := by
    intro sub mem log
    cases result : sub.matchesPub pkt with
    | error e =>
        exact absurd ((matchesPub_error_iff sub pkt).mp ⟨e, result⟩) ((calm sub mem).calm pkt)
    | ok accepted =>
        rw [SubPkt.accepts, result]
        cases accepted with
        | true => rfl
        | false => exact congrArg Except.ok (List.append_nil log).symm
  have copies : (handler.subscriptions.flatMap fun sub =>
      if sub.accepts pkt then [(id, pkt)] else []) =
        (copiesFor handler.subscriptions pkt).map fun p => (id, p) := by
    unfold copiesFor
    induction handler.subscriptions with
    | nil => rfl
    | cons sub rest ih =>
        rw [List.flatMap_cons, ih, List.filter_cons]
        cases sub.accepts pkt <;> rfl
  exact (foldlM_ok turn written).trans (by rw [copies])

theorem handleResult_ok (result : List PubPkt) : handler.handleResult id written result =
    .ok (written ++ (result.flatMap (copiesFor handler.subscriptions)).map fun p => (id, p)) := by
  rw [List.map_flatMap]
  exact foldlM_ok (fun pkt _ log => processPubPkt_ok calm id log pkt) written

end RequestHandler

namespace Server

/-- No subscription of a listener raises an exception, and no connection has two listeners. -/
structure Calm (server : Server) : Prop where
  handlers : ∀ l ∈ server.listeners, l.2.Calm
  nodup : (server.listeners.map Prod.fst).Nodup

/-- The subscriptions of the connection at an address. -/
def subscriptionsAt (server : Server) (address : Nat) : List SubPkt :=
  (server.listeners.filter fun l => l.1 == address).flatMap fun l => l.2.subscriptions

variable {server : Server} (calm : server.Calm) (written : Written)

theorem filter_eq_of_nodup {ls : List (Nat × RequestHandler)} (nodup : (ls.map Prod.fst).Nodup)
    (address : Nat) : (ls.filter fun l => l.1 == address) = [] ∨
      ∃ handler, (ls.filter fun l => l.1 == address) = [(address, handler)] := by
  induction ls with
  | nil => exact .inl rfl
  | cons l rest ih =>
      rw [List.map_cons, List.nodup_cons] at nodup
      by_cases here : l.1 = address
      · refine .inr ⟨l.2, ?_⟩
        have others : (rest.filter fun l => l.1 == address) = [] := by
          refine List.filter_eq_nil_iff.mpr fun l' mem same => nodup.1 ?_
          rw [here, ← beq_iff_eq.mp same]
          exact List.mem_map_of_mem mem
        rw [List.filter_cons_of_pos (by simpa using here), others, ← here]
      · rw [List.filter_cons_of_neg (by simpa using here)]
        exact ih nodup.2

/-- What listeners write of some packets, one by one or together, in any order of the listeners. -/
theorem to_writes (nodup : (server.listeners.map Prod.fst).Nodup)
    {ls : List (Nat × RequestHandler)} (perm : ls.Perm server.listeners) (result : List PubPkt)
    (address : Nat) :
    Written.to (ls.flatMap fun l => (result.flatMap (copiesFor l.2.subscriptions)).map
        fun pkt => (l.1, pkt)) address =
      result.flatMap (copiesFor (server.subscriptionsAt address)) := by
  rw [Written.to_flatMap ls fun h => result.flatMap (copiesFor h.subscriptions), subscriptionsAt]
  have same := perm.filter fun l => l.1 == address
  rcases filter_eq_of_nodup nodup address with none | ⟨handler, one⟩
  · rw [none] at same ⊢
    rw [same.eq_nil]
    simp [copiesFor]
  · rw [one] at same ⊢
    rw [same.eq_singleton]
    simp

include calm

theorem Calm.processPublication_ok (pkt : PubPkt) : ∃ ws : Written,
    (∀ written, server.processPublication written pkt = .ok (written ++ ws)) ∧
      ∀ address, ws.to address = copiesFor (server.subscriptionsAt address) pkt := by
  refine ⟨_, foldlM_ok fun l mem log =>
    RequestHandler.processPubPkt_ok (calm.handlers l mem) l.1 log pkt, fun address => ?_⟩
  have writes := to_writes calm.nodup (List.Perm.refl _) [pkt] address
  simpa using writes

theorem Calm.notify_ok (result : List PubPkt) : ∃ ws : Written,
    (∀ written, server.notify written result = .ok (written ++ ws)) ∧
      ∀ address, ws.to address = result.flatMap (copiesFor (server.subscriptionsAt address)) :=
  ⟨_, foldlM_ok fun l mem log => RequestHandler.handleResult_ok
    (calm.handlers l (server.same.mem_iff.mp mem)) l.1 log result,
    to_writes calm.nodup server.same result⟩

/-! ## The engine with its listeners -/

omit calm

/-- The call takes the engine from `e` to `e'` and writes every composite event that this delivers
to the connections that wait for it. -/
def Answers (server : Server) (e e' : RecursiveEngine)
    (call : Written → ExceptT String Option (RecursiveEngine × Written)) : Prop :=
  ∃ (new : List PubPkt) (ws : Written), e'.contents.delivered = e.contents.delivered ++ new ∧
    (∀ address, ws.to address = new.flatMap (copiesFor (server.subscriptionsAt address))) ∧
    ∀ written, call written = ExceptT.mk (some (.ok (e', written ++ ws)))

theorem Answers.refl {e e' : RecursiveEngine}
    (same : e'.contents.delivered = e.contents.delivered) :
    server.Answers e e' fun written => pure (e', written) := by
  refine ⟨[], [], same.trans (List.append_nil _).symm, fun address => rfl, fun written => ?_⟩
  rw [List.append_nil]
  rfl

theorem Answers.bind {e e' e'' : RecursiveEngine}
    {call : Written → ExceptT String Option (RecursiveEngine × Written)}
    {next : RecursiveEngine × Written → ExceptT String Option (RecursiveEngine × Written)}
    (first : server.Answers e e' call) (second : server.Answers e' e'' fun w => next (e', w)) :
    server.Answers e e'' fun written => call written >>= next := by
  obtain ⟨new, ws, added, writes, calls⟩ := first
  obtain ⟨new', ws', added', writes', calls'⟩ := second
  refine ⟨new ++ new', ws ++ ws', ?_, fun address => ?_, fun written => ?_⟩
  · rw [added', added, List.append_assoc]
  · rw [Written.to_append, writes, writes', List.flatMap_append]
  · show call written >>= next = _
    rw [calls, ← List.append_assoc]
    exact calls' (written ++ ws)

/-- The notification of the listeners between an evaluation and what follows it. -/
theorem Answers.notify (calm : server.Calm) {e e' e'' : RecursiveEngine} {result : List PubPkt}
    {later : Written → ExceptT String Option (RecursiveEngine × Written)}
    (added : e'.contents.delivered = e.contents.delivered ++ result)
    (following : server.Answers e' e'' later) : server.Answers e e'' fun written =>
      ExceptT.mk (some (server.notify written result)) >>= later := by
  obtain ⟨ws, notified, writes⟩ := calm.notify_ok result
  have here : server.Answers e e' fun written =>
      ExceptT.mk (some (.ok (e', written ++ ws))) := ⟨result, ws, added, writes, fun _ => rfl⟩
  have whole := @Answers.bind server e e' e'' _ (fun s => later s.2) here following
  have same : ∀ written, ExceptT.mk (some (server.notify written result)) >>= later =
      ExceptT.mk (some (.ok (e', written ++ ws))) >>= fun s => later s.2 := by
    intro written
    rw [notified]
    rfl
  rwa [← funext same] at whole

variable {place : Placement} {order : SetOrder}

/-- The loop over the results, where the nested calls are as they should be. -/
theorem Answers.loop {fuel depth : Nat}
    (nested : ∀ e e' pkt, RecursiveEngine.processPubPkt place order fuel (depth + 1) e pkt true =
      some e' → server.Answers e e' fun written =>
        server.processPubPkt place order fuel (depth + 1) (e, written) pkt true)
    {result : List PubPkt} {e e' : RecursiveEngine}
    (ran : result.foldlM (fun e pkt =>
      if e.feedsBack e.recursionDepth then
        RecursiveEngine.processPubPkt place order fuel (depth + 1)
          (e.record ⟨depth + 1, pkt, true⟩) pkt.copy true
      else some (e.record ⟨depth + 1, pkt, false⟩)) e = some e') :
    server.Answers e e' fun written => result.foldlM (fun (e, written) pkt =>
      if e.feedsBack e.recursionDepth then
        server.processPubPkt place order fuel (depth + 1)
          (e.record ⟨depth + 1, pkt, true⟩, written) pkt.copy true
      else pure (e.record ⟨depth + 1, pkt, false⟩, written)) (e, written) := by
  induction result generalizing e with
  | nil =>
      cases ran
      exact Answers.refl rfl
  | cons pkt rest ih =>
      rw [List.foldlM_cons] at ran
      obtain ⟨mid, turn, later⟩ := Option.bind_eq_some_iff.mp ran
      simp only [List.foldlM_cons]
      refine Answers.bind ?_ (ih later)
      cases admitted : e.feedsBack e.recursionDepth with
      | true =>
          rw [admitted, if_pos rfl] at turn
          exact nested _ _ _ turn
      | false =>
          rw [admitted] at turn
          cases turn
          exact Answers.refl rfl

theorem answers_processPubPkt (calm : server.Calm) {fuel depth : Nat} {e e' : RecursiveEngine}
    {pkt : PubPkt} {recursion : Bool}
    (ran : RecursiveEngine.processPubPkt place order fuel depth e pkt recursion = some e') :
    server.Answers e e' fun written =>
      server.processPubPkt place order fuel depth (e, written) pkt recursion := by
  induction fuel generalizing depth e e' pkt recursion with
  | zero => cases ran
  | succ fuel ih =>
      let start := evaluated place order (entered e recursion) pkt
      let result :=
        ((entered e recursion).evaluate place order (entered e recursion).contents pkt).2
      have added : start.contents.delivered = e.contents.delivered ++ result := by
        cases recursion <;> rfl
      have loop : server.Answers start e' fun written => result.foldlM (fun (e, written) pkt =>
          if e.feedsBack e.recursionDepth then
            server.processPubPkt place order fuel (depth + 1)
              (e.record ⟨depth + 1, pkt, true⟩, written) pkt.copy true
          else pure (e.record ⟨depth + 1, pkt, false⟩, written)) (start, written) :=
        Answers.loop (fun e e' pkt ran => ih ran) ran
      exact Answers.notify calm added loop

/-- Every connection is sent the publication and the composite events it leads to, in the order of
their generation, each once for every subscription accepting it. -/
theorem Calm.publish_ok (calm : server.Calm) (place : Placement) (order : SetOrder) (pkt : PubPkt) :
    ∃ ws : Written,
      server.publish place order pkt = ExceptT.mk (some (.ok
        (server.engine.withWalk (RecursiveEngine.walkOf place order server.engine pkt), ws))) ∧
      ∀ address, ws.to address = (pkt :: server.generated place order pkt).flatMap
        (copiesFor (server.subscriptionsAt address)) := by
  have ran := @RecursiveEngine.processPubPkt_eq_walk place order _
    (Nat.lt_succ_self maxRecursionDepth) server.engine pkt
  obtain ⟨new, ws', delivered, writes', calls⟩ := answers_processPubPkt calm ran
  obtain ⟨ws, processed, writes⟩ := calm.processPublication_ok pkt
  have isNew : server.generated place order pkt = new := by
    rw [generated]
    exact (congrArg (List.drop _) delivered).trans List.drop_left
  refine ⟨ws ++ ws', ?_, fun address => ?_⟩
  · rw [publish, processed, List.nil_append]
    exact calls ws
  · rw [Written.to_append, writes, writes', isNew, List.flatMap_cons]

end Server

/-! ## The life of the server -/

/-- What happens to the server: a connection is accepted, sends a packet, loses its socket, and is
destroyed when nothing refers to it any more. A connection is known by the address of its object. -/
inductive Arrival
  | accept (address : Nat)
  | receive (address : Nat) (pkt : Pkt)
  | closeSocket (address : Nat)
  | destroy (address : Nat)

/-- The engine's set of listeners has the result listener of each connection in the set of the
subscription table; as members of the connections both are ordered by their addresses. -/
structure SOEPServer where
  engine : RecursiveEngine
  handlers : Nat → Option RequestHandler
  isOpen : Nat → Bool
  listeners : List Nat
  resultListeners : List Nat
  same : resultListeners = listeners
  /-- What the open sockets were given to send. -/
  sent : Written

namespace SOEPServer

def initial (numProc : Nat) : SOEPServer :=
  { engine := .finalize numProc, handlers := fun _ => none, isOpen := fun _ => false
    listeners := [], resultListeners := [], same := rfl, sent := [] }

variable (server : SOEPServer)

/-- The connections behind the listeners; none if one of them has been destroyed. -/
def serving : Option Server :=
  (server.listeners.mapM fun address => (server.handlers address).map fun h => (address, h)).map
    fun ls => ⟨server.engine, ls, ls, List.Perm.refl ls⟩

/-- The visitor on a `SubPkt`; the first subscription of a connection installs its listeners. -/
def subscribe (address : Nat) (handler : RequestHandler) (pkt : SubPkt) : SOEPServer :=
  let handlers := Function.update server.handlers address (some (handler.handleSubPkt pkt))
  if handler.firstSubscriptionDone then { server with handlers }
  else
    { server with
      handlers
      listeners := OrdSet.insert address server.listeners
      resultListeners := OrdSet.insert address server.resultListeners
      same := congrArg (OrdSet.insert address) server.same }

/-- `~RequestHandler`. -/
def destroy (address : Nat) : SOEPServer :=
  let handlers := Function.update server.handlers address none
  let isOpen := Function.update server.isOpen address false
  if (server.handlers address).any RequestHandler.firstSubscriptionDone then
    { server with
      handlers, isOpen
      listeners := server.listeners.erase address
      resultListeners := server.resultListeners.erase address
      same := congrArg (fun l => l.erase address) server.same }
  else { server with handlers, isOpen }

variable (alloc : Nat → Nat) (place : Placement) (order : SetOrder)

/-- The handler of one arrival, from its beginning to its end. The outer `none` stands for the use
of a destroyed connection, or of constraints that have been freed. -/
def step (server : SOEPServer) : Arrival → ExceptT String Option SOEPServer
  | .accept address => pure { server with
      handlers := Function.update server.handlers address (some .new)
      isOpen := Function.update server.isOpen address true }
  | .receive address pkt =>
    match server.handlers address with
    | none => ExceptT.mk none
    | some handler =>
      match pkt with
      | .rule pkt => pure { server with engine := server.engine.processRulePkt alloc pkt }
      | .pub pkt => do
        let serving ← ExceptT.mk (server.serving.map .ok)
        let (engine, written) ← serving.publish place order pkt
        return { server with
          engine, sent := server.sent ++ written.filter fun w => server.isOpen w.1 }
      | .sub pkt => pure (server.subscribe address handler pkt)
      | .unsub subPkt => do
        let handler ← ExceptT.mk ((handler.handleUnSubPkt subPkt).map .ok)
        return { server with handlers := Function.update server.handlers address (some handler) }
      | .ping => pure server
  | .closeSocket address => pure { server with
      isOpen := Function.update server.isOpen address false }
  | .destroy address => pure (server.destroy address)

def run (numProc : Nat) (arrivals : List Arrival) : ExceptT String Option SOEPServer :=
  arrivals.foldlM (step alloc place order) (initial numProc)

end SOEPServer

/-- Only connections that exist send packets, lose their sockets and are destroyed; a new one gets
an address where there is none. -/
def Possible : (live : List Nat) → List Arrival → Prop
  | _, [] => True
  | live, .accept address :: rest => address ∉ live ∧ Possible (address :: live) rest
  | live, .receive address _ :: rest => address ∈ live ∧ Possible live rest
  | live, .closeSocket address :: rest => address ∈ live ∧ Possible live rest
  | live, .destroy address :: rest =>
    address ∈ live ∧ Possible (live.filter fun other => other ≠ address) rest

/-! ## What one connection sees of it -/

/-- The connection at an address as its own requests make it, and what it is sent. -/
structure View where
  engine : RecursiveEngine
  subscriptions : List SubPkt
  isOpen : Bool
  sent : List PubPkt

namespace View

def initial (numProc : Nat) : View := ⟨.finalize numProc, [], false, []⟩

variable (alloc : Nat → Nat) (place : Placement) (order : SetOrder)

/-- A publication and what it leads to, as far as the subscriptions accept it. -/
def publish (view : View) (pkt : PubPkt) : View :=
  let walk := RecursiveEngine.walkOf place order view.engine pkt
  let generated := walk.state.delivered.drop view.engine.contents.delivered.length
  { view with
    engine := view.engine.withWalk walk
    sent := view.sent ++
      if view.isOpen then (pkt :: generated).flatMap (copiesFor view.subscriptions) else [] }

def subscribe (view : View) (pkt : SubPkt) : View :=
  { view with
    subscriptions :=
      if view.subscriptions.any fun sub => sub.equals pkt then view.subscriptions
      else view.subscriptions ++ [pkt] }

def unsubscribe (view : View) (pkt : SubPkt) : View :=
  { view with subscriptions := view.subscriptions.eraseP fun sub => sub.equals pkt }

def step (view : View) : Arrival → View
  | .accept _ => { view with subscriptions := [], isOpen := true }
  | .receive _ (.rule pkt) => { view with engine := view.engine.processRulePkt alloc pkt }
  | .receive _ (.pub pkt) => view.publish place order pkt
  | .receive _ (.sub pkt) => view.subscribe pkt
  | .receive _ (.unsub subPkt) => view.unsubscribe subPkt
  | .receive _ .ping => view
  | .closeSocket _ => { view with isOpen := false }
  | .destroy _ => { view with subscriptions := [], isOpen := false }

def run (numProc : Nat) (arrivals : List Arrival) : View :=
  arrivals.foldl (step alloc place order) (initial numProc)

/-- The connection ends its last subscription, or one before it while the last one has no
constraints. -/
def ErasesSafely (view : View) : Arrival → Prop
  | .receive _ (.unsub subPkt) =>
    RequestHandler.ErasesSafely (fun sub => sub.equals subPkt) view.subscriptions
  | _ => True

/-- The connection does so whenever it ends a subscription. -/
def AlwaysErasesSafely : View → List Arrival → Prop
  | _, [] => True
  | view, arrival :: rest =>
    view.ErasesSafely arrival ∧ AlwaysErasesSafely (view.step alloc place order arrival) rest

end View

/-- Rules and publications concern every connection, all else only the connection itself. -/
def Arrival.concerns (address : Nat) : Arrival → Bool
  | .receive _ (.rule _) => true
  | .receive _ (.pub _) => true
  | .accept other => other == address
  | .receive other _ => other == address
  | .closeSocket other => other == address
  | .destroy other => other == address

/-! ## The server keeps its listeners in order -/

/-- The subscriptions of the connection at an address, if there is one. -/
def SOEPServer.subscriptionsAt (server : SOEPServer) (address : Nat) : List SubPkt :=
  ((server.handlers address).map RequestHandler.subscriptions).getD []

/-- The listeners are those of the connections that have subscribed, and all of them exist. -/
structure SOEPServer.Sound (server : SOEPServer) (live : List Nat) : Prop where
  live : ∀ a, a ∈ live ↔ ∃ h, server.handlers a = some h
  registered : ∀ a, a ∈ server.listeners ↔
    ∃ h, server.handlers a = some h ∧ h.firstSubscriptionDone = true
  unsubscribed : ∀ a h, server.handlers a = some h → h.firstSubscriptionDone = false →
    h.subscriptions = []
  ordered : server.listeners.Pairwise (· < ·)
  calm : ∀ a h, server.handlers a = some h → h.Calm

structure Sees (server : SOEPServer) (address : Nat) (view : View) : Prop where
  engine : view.engine = server.engine
  subscriptions : view.subscriptions = server.subscriptionsAt address
  isOpen : view.isOpen = server.isOpen address
  sent : view.sent = server.sent.to address

namespace SOEPServer

variable {server : SOEPServer} {live : List Nat}

theorem Sound.initial (numProc : Nat) : (initial numProc).Sound [] where
  live _ := iff_of_false List.not_mem_nil fun some => nomatch some.choose_spec
  registered _ := iff_of_false List.not_mem_nil fun some => nomatch some.choose_spec.1
  unsubscribed _ _ found := nomatch found
  ordered := .nil
  calm _ _ found := nomatch found

theorem mapM_attached {handlers : Nat → Option RequestHandler} {l : List Nat}
    (all : ∀ a ∈ l, ∃ h, handlers a = some h) :
    (l.mapM fun a => (handlers a).map fun h => (a, h)) =
      some (l.map fun a => (a, (handlers a).getD .new)) := by
  induction l with
  | nil => rfl
  | cons a rest ih =>
      obtain ⟨⟨h, found⟩, there⟩ := List.forall_mem_cons.mp all
      rw [List.mapM_cons, ih there, found]
      simp [found]

theorem Sound.serving (sound : server.Sound live) : ∃ serving, server.serving = some serving ∧
    serving.engine = server.engine ∧ serving.Calm ∧
    ∀ address, serving.subscriptionsAt address = server.subscriptionsAt address := by
  let ls := server.listeners.map fun a => (a, (server.handlers a).getD .new)
  have attached : (server.listeners.mapM fun address =>
      (server.handlers address).map fun h => (address, h)) = some ls :=
    mapM_attached fun a mem => ((sound.registered a).mp mem).imp fun h both => both.1
  have nodup : (ls.map Prod.fst).Nodup := by
    have firsts : ls.map Prod.fst = server.listeners := by simp [ls, Function.comp_def]
    rw [firsts]
    exact sound.ordered.imp fun lt => Nat.ne_of_lt lt
  have entry : ∀ l ∈ ls, server.handlers l.1 = some l.2 := by
    intro l mem
    obtain ⟨a, isListener, rfl⟩ := List.mem_map.mp mem
    obtain ⟨h, found, -⟩ := (sound.registered a).mp isListener
    rw [found]
    rfl
  refine ⟨⟨server.engine, ls, ls, List.Perm.refl ls⟩, ?_, rfl, ?_, fun address => ?_⟩
  · rw [SOEPServer.serving, attached]
    rfl
  · exact ⟨fun l mem => sound.calm l.1 l.2 (entry l mem), nodup⟩
  · unfold Server.subscriptionsAt SOEPServer.subscriptionsAt
    rcases Server.filter_eq_of_nodup nodup address with none | ⟨handler, one⟩
    · have absent : address ∉ server.listeners := by
        intro mem
        have isEntry : (address, (server.handlers address).getD .new) ∈ ls :=
          List.mem_map_of_mem mem
        exact absurd (beq_self_eq_true address) (List.filter_eq_nil_iff.mp none _ isEntry)
      rw [none]
      cases found : server.handlers address with
      | none => rfl
      | some h =>
          have undone : h.firstSubscriptionDone = false := by
            by_contra done
            exact absent ((sound.registered address).mpr ⟨h, found, by simpa using done⟩)
          exact (sound.unsubscribed address h found undone).symm
    · have isEntry : (address, handler) ∈ ls :=
        List.mem_of_mem_filter (one ▸ List.mem_singleton_self _)
      rw [one, entry _ isEntry]
      simp

/-- A change at one connection only. -/
theorem Sound.update (sound : server.Sound live) {server' : SOEPServer} {live' : List Nat} {a : Nat}
    {handler : Option RequestHandler}
    (handlers : server'.handlers = Function.update server.handlers a handler)
    (here : a ∈ server'.listeners ↔ ∃ h, handler = some h ∧ h.firstSubscriptionDone = true)
    (others : ∀ b, b ≠ a → (b ∈ server'.listeners ↔ b ∈ server.listeners))
    (liveHere : a ∈ live' ↔ ∃ h, handler = some h)
    (liveOthers : ∀ b, b ≠ a → (b ∈ live' ↔ b ∈ live))
    (ordered : server'.listeners.Pairwise (· < ·))
    (fresh : ∀ h, handler = some h → (h.firstSubscriptionDone = false → h.subscriptions = []) ∧
      h.Calm) : server'.Sound live' := by
  refine ⟨fun b => ?_, fun b => ?_, fun b h => ?_, ordered, fun b h => ?_⟩
  all_goals
    rw [handlers]
    by_cases same : b = a
  · subst same
    rwa [Function.update_self]
  · rw [Function.update_of_ne same, liveOthers b same]
    exact sound.live b
  · subst same
    rwa [Function.update_self]
  · rw [Function.update_of_ne same, others b same]
    exact sound.registered b
  · subst same
    rw [Function.update_self]
    exact fun found => (fresh h found).1
  · rw [Function.update_of_ne same]
    exact sound.unsubscribed b h
  · subst same
    rw [Function.update_self]
    exact fun found => (fresh h found).2
  · rw [Function.update_of_ne same]
    exact sound.calm b h

theorem subscriptionsAt_update {server' : SOEPServer} {a : Nat} {handler : Option RequestHandler}
    (handlers : server'.handlers = Function.update server.handlers a handler) :
    server'.subscriptionsAt =
      Function.update server.subscriptionsAt a
        ((handler.map RequestHandler.subscriptions).getD []) := by
  funext b
  unfold subscriptionsAt
  rw [handlers]
  by_cases same : b = a
  · subst same
    rw [Function.update_self, Function.update_self]
  · rw [Function.update_of_ne same, Function.update_of_ne same]

/-- The connection at an address sees the change, the others do not. -/
theorem sees_update {server' : SOEPServer} {a : Nat} {handler : Option RequestHandler}
    {isOpen : Bool}
    {f : View → View} (handlers : server'.handlers = Function.update server.handlers a handler)
    (opens : server'.isOpen = Function.update server.isOpen a isOpen)
    (engine : server'.engine = server.engine) (sent : server'.sent = server.sent)
    (own : ∀ view, Sees server a view → (f view).engine = view.engine ∧
      (f view).subscriptions = (handler.map RequestHandler.subscriptions).getD [] ∧
      (f view).isOpen = isOpen ∧ (f view).sent = view.sent) (address : Nat) (view : View)
    (sees : Sees server address view) :
    Sees server' address (if a == address then f view else view) := by
  have subscriptions := subscriptionsAt_update handlers
  by_cases same : a = address
  · subst same
    obtain ⟨ownEngine, ownSubscriptions, ownOpen, ownSent⟩ := own view sees
    rw [beq_self_eq_true, if_pos rfl]
    refine ⟨?_, ?_, ?_, ?_⟩
    · rw [ownEngine, engine, sees.engine]
    · rw [ownSubscriptions, subscriptions, Function.update_self]
    · rw [ownOpen, opens, Function.update_self]
    · rw [ownSent, sent, sees.sent]
  · rw [if_neg (by simpa using same)]
    refine ⟨?_, ?_, ?_, ?_⟩
    · rw [engine, sees.engine]
    · rw [subscriptions, Function.update_of_ne (Ne.symm same), sees.subscriptions]
    · rw [opens, Function.update_of_ne (Ne.symm same), sees.isOpen]
    · rw [sent, sees.sent]

/-! ## Every arrival -/

variable {alloc : Nat → Nat} {place : Placement} {order : SetOrder}

/-- The step succeeds, leaves the listeners in order, and every connection sees what concerns it. -/
def Succeeds (alloc : Nat → Nat) (place : Placement) (order : SetOrder) (server : SOEPServer)
    (arrival : Arrival) (live' : List Nat) : Prop :=
  ∃ server', server.step alloc place order arrival = pure server' ∧ server'.Sound live' ∧
    ∀ address view, Sees server address view → Sees server' address
      (if arrival.concerns address then view.step alloc place order arrival else view)

theorem Sound.absent (sound : server.Sound live) {a : Nat} (free : a ∉ live) :
    a ∉ server.listeners := fun mem =>
  free ((sound.live a).mpr (((sound.registered a).mp mem).imp fun _ both => both.1))

theorem Sound.accept (sound : server.Sound live) {a : Nat} (free : a ∉ live) :
    server.Succeeds alloc place order (.accept a) (a :: live) := by
  refine ⟨_, rfl, sound.update rfl ?_ ?_ ?_ ?_ sound.ordered ?_, sees_update rfl rfl rfl rfl ?_⟩
  · refine iff_of_false (sound.absent free) fun registered => ?_
    obtain ⟨h, new, done⟩ := registered
    cases new
    cases done
  · exact fun b _ => Iff.rfl
  · exact iff_of_true List.mem_cons_self ⟨_, rfl⟩
  · exact fun b ne => List.mem_cons.trans (or_iff_right ne)
  · intro h new
    cases new
    exact ⟨fun _ => rfl, fun sub mem => nomatch mem⟩
  · exact fun view sees => ⟨rfl, rfl, rfl, rfl⟩

theorem Sound.closeSocket (sound : server.Sound live) (a : Nat) :
    server.Succeeds alloc place order (.closeSocket a) live := by
  have kept : server.handlers = Function.update server.handlers a (server.handlers a) :=
    (Function.update_eq_self a server.handlers).symm
  refine ⟨_, rfl, ⟨sound.live, sound.registered, sound.unsubscribed, sound.ordered, sound.calm⟩,
    sees_update kept rfl rfl rfl ?_⟩
  exact fun view sees => ⟨rfl, sees.subscriptions, rfl, rfl⟩

theorem Sound.destroy (sound : server.Sound live) (a : Nat) :
    server.Succeeds alloc place order (.destroy a) (live.filter fun other => other ≠ a) := by
  refine ⟨_, rfl, ?_, ?_⟩
  · have liveHere : a ∈ live.filter (fun other => other ≠ a) ↔
        ∃ h, (none : Option RequestHandler) = some h := by simp
    have liveOthers : ∀ b, b ≠ a → (b ∈ live.filter (fun other => other ≠ a) ↔ b ∈ live) :=
      fun b ne => by simp [ne]
    unfold SOEPServer.destroy
    split
    case isTrue done =>
      have nodup : server.listeners.Nodup := sound.ordered.imp fun lt => Nat.ne_of_lt lt
      refine sound.update rfl ?_ (fun b ne => ?_) liveHere liveOthers
        (sound.ordered.sublist List.erase_sublist) fun h found => nomatch found
      · exact iff_of_false nodup.not_mem_erase fun some => nomatch some.choose_spec.1
      · exact List.mem_erase_of_ne ne
    case isFalse undone =>
      refine sound.update rfl (iff_of_false (fun mem => undone ?_) fun some => ?_)
        (fun _ _ => Iff.rfl) liveHere liveOthers sound.ordered fun h found => nomatch found
      · obtain ⟨h, found, done⟩ := (sound.registered a).mp mem
        rw [found]
        exact done
      · exact nomatch some.choose_spec.1
  · unfold SOEPServer.destroy
    split <;> exact sees_update rfl rfl rfl rfl fun view sees => ⟨rfl, rfl, rfl, rfl⟩

theorem Sound.subscribe (sound : server.Sound live) {a : Nat} {handler : RequestHandler}
    (found : server.handlers a = some handler) {sub : SubPkt} (defined : sub.Defined) :
    server.Succeeds alloc place order (.receive a (.sub sub)) live := by
  have calm : (handler.handleSubPkt sub).Calm := by
    intro other mem
    simp only [RequestHandler.handleSubPkt] at mem
    split at mem
    · exact sound.calm a handler found other mem
    · rcases List.mem_append.mp mem with old | new
      · exact sound.calm a handler found other old
      · rw [List.mem_singleton.mp new]
        exact defined
  have fresh : ∀ h, some (handler.handleSubPkt sub) = some h →
      (h.firstSubscriptionDone = false → h.subscriptions = []) ∧ h.Calm := by
    intro h same
    cases same
    exact ⟨fun undone => Bool.noConfusion undone, calm⟩
  have isLive : a ∈ live := (sound.live a).mpr ⟨handler, found⟩
  have registered : ∃ h, some (handler.handleSubPkt sub) = some h ∧
      h.firstSubscriptionDone = true := ⟨_, rfl, rfl⟩
  refine ⟨server.subscribe a handler sub, ?_, ?_, ?_⟩
  · simp only [step, found]
  · unfold SOEPServer.subscribe
    split
    case isTrue done =>
      have listed : a ∈ server.listeners := (sound.registered a).mpr ⟨handler, found, done⟩
      exact sound.update rfl (iff_of_true listed registered) (fun _ _ => Iff.rfl)
        (iff_of_true isLive ⟨_, rfl⟩) (fun _ _ => Iff.rfl) sound.ordered fresh
    case isFalse undone =>
      refine sound.update rfl (iff_of_true ?_ registered) (fun b ne => ?_)
        (iff_of_true isLive ⟨_, rfl⟩) (fun _ _ => Iff.rfl)
        (OrdSet.pairwise_insert sound.ordered) fresh
      · exact OrdSet.mem_insert.mpr (.inl rfl)
      · exact OrdSet.mem_insert.trans (or_iff_right ne)
  · have own : ∀ view, Sees server a view → (view.subscribe sub).engine = view.engine ∧
        (view.subscribe sub).subscriptions =
          ((some (handler.handleSubPkt sub)).map RequestHandler.subscriptions).getD [] ∧
        (view.subscribe sub).isOpen = server.isOpen a ∧ (view.subscribe sub).sent = view.sent := by
      intro view sees
      refine ⟨rfl, ?_, sees.isOpen, rfl⟩
      have held : view.subscriptions = handler.subscriptions := by
        rw [sees.subscriptions, subscriptionsAt, found]
        rfl
      simp only [View.subscribe, held]
      rfl
    have opens : server.isOpen = Function.update server.isOpen a (server.isOpen a) :=
      (Function.update_eq_self a server.isOpen).symm
    unfold SOEPServer.subscribe
    split
    · exact sees_update rfl opens rfl rfl own
    · exact sees_update rfl opens rfl rfl own

theorem Sound.unsubscribe (sound : server.Sound live) {a : Nat} {handler : RequestHandler}
    (found : server.handlers a = some handler) {sub : SubPkt}
    (safely : RequestHandler.ErasesSafely (fun held => held.equals sub) handler.subscriptions) :
    server.Succeeds alloc place order (.receive a (.unsub sub)) live := by
  have isLive : a ∈ live := (sound.live a).mpr ⟨handler, found⟩
  let rest : RequestHandler :=
    { handler with subscriptions := handler.subscriptions.eraseP fun held => held.equals sub }
  refine ⟨{ server with handlers := Function.update server.handlers a (some rest) }, ?_, ?_, ?_⟩
  · simp only [step, found, RequestHandler.handleUnSubPkt, RequestHandler.erase_of_safely safely]
    rfl
  · refine sound.update rfl ?_ (fun _ _ => Iff.rfl) (iff_of_true isLive ⟨_, rfl⟩)
      (fun _ _ => Iff.rfl) sound.ordered ?_
    · rw [sound.registered a, found]
      constructor
      · intro registered
        obtain ⟨h, same, done⟩ := registered
        cases same
        exact ⟨_, rfl, done⟩
      · intro registered
        obtain ⟨h, same, done⟩ := registered
        cases same
        exact ⟨_, rfl, done⟩
    · intro h same
      cases same
      refine ⟨fun undone => ?_, fun other mem => ?_⟩
      · simp [rest, sound.unsubscribed a handler found undone]
      · exact sound.calm a handler found other (List.mem_of_mem_eraseP mem)
  · refine sees_update rfl (Function.update_eq_self a server.isOpen).symm rfl rfl fun view sees =>
      ?_
    refine ⟨rfl, ?_, sees.isOpen, rfl⟩
    have held : view.subscriptions = handler.subscriptions := by
      rw [sees.subscriptions, subscriptionsAt, found]
      rfl
    simp only [View.step, View.unsubscribe, held]
    rfl

theorem Sound.install (sound : server.Sound live) {a : Nat} {handler : RequestHandler}
    (found : server.handlers a = some handler) (rule : RulePkt) :
    server.Succeeds alloc place order (.receive a (.rule rule)) live := by
  refine ⟨{ server with engine := server.engine.processRulePkt alloc rule }, ?_,
    ⟨sound.live, sound.registered, sound.unsubscribed, sound.ordered, sound.calm⟩, ?_⟩
  · simp only [step, found]
  · intro address view sees
    refine ⟨?_, sees.subscriptions, sees.isOpen, sees.sent⟩
    exact congrArg (RecursiveEngine.processRulePkt alloc · rule) sees.engine

theorem to_filter (written : Written) (isOpen : Nat → Bool) (address : Nat) :
    Written.to (written.filter fun w => isOpen w.1) address =
      if isOpen address then written.to address else [] := by
  unfold Written.to
  rw [List.filter_filter]
  cases opened : isOpen address with
  | true =>
      rw [if_pos rfl]
      refine congrArg _ (List.filter_congr fun w _ => ?_)
      cases here : w.1 == address with
      | true => rw [beq_iff_eq.mp here, opened]; rfl
      | false => rfl
  | false =>
      rw [if_neg Bool.false_ne_true]
      have none : (written.filter fun w => w.1 == address && isOpen w.1) = [] := by
        refine List.filter_eq_nil_iff.mpr fun w _ both => ?_
        obtain ⟨here, isOpen⟩ := Bool.and_eq_true_iff.mp both
        rw [beq_iff_eq.mp here, opened] at isOpen
        cases isOpen
      rw [none]
      rfl

theorem Sound.publish (sound : server.Sound live) {a : Nat} {handler : RequestHandler}
    (found : server.handlers a = some handler) (pkt : PubPkt) :
    server.Succeeds alloc place order (.receive a (.pub pkt)) live := by
  obtain ⟨serving, attached, engine, calm, subscriptions⟩ := sound.serving
  obtain ⟨ws, published, writes⟩ := calm.publish_ok place order pkt
  refine ⟨{ server with
    engine := server.engine.withWalk (RecursiveEngine.walkOf place order server.engine pkt)
    sent := server.sent ++ ws.filter fun w => server.isOpen w.1 }, ?_,
    ⟨sound.live, sound.registered, sound.unsubscribed, sound.ordered, sound.calm⟩, ?_⟩
  · simp only [step, found, attached]
    show (serving.publish place order pkt >>= _) = _
    rw [published, engine]
    rfl
  · intro address view sees
    refine ⟨?_, sees.subscriptions, sees.isOpen, ?_⟩
    · show view.engine.withWalk (RecursiveEngine.walkOf place order view.engine pkt) = _
      rw [sees.engine]
    · show view.sent ++ _ = Written.to (_ ++ _) address
      rw [Written.to_append, to_filter, writes, Server.generated, engine, subscriptions, sees.sent,
        sees.engine, sees.isOpen, sees.subscriptions]

end SOEPServer

open SOEPServer (Succeeds)

section Runs

variable {alloc : Nat → Nat} {place : Placement} {order : SetOrder}

/-- A connection sees one thing only. -/
theorem Sees.unique {server : SOEPServer} {address : Nat} {view view' : View}
    (sees : Sees server address view) (sees' : Sees server address view') : view = view' := by
  cases view
  cases view'
  obtain ⟨rfl, rfl, rfl, rfl⟩ := sees
  obtain ⟨rfl, rfl, rfl, rfl⟩ := sees'
  rfl

/-- All arrivals that are possible succeed one after the other. -/
theorem exists_run {server : SOEPServer} {live : List Nat} (sound : server.Sound live)
    {arrivals : List Arrival} (possible : Possible live arrivals)
    (defined : ∀ a sub, .receive a (.sub sub) ∈ arrivals → sub.Defined)
    (safely : ∀ address view, Sees server address view →
      View.AlwaysErasesSafely alloc place order view
        (arrivals.filter fun x => x.concerns address)) :
    ∃ server', arrivals.foldlM (SOEPServer.step alloc place order) server = pure server' ∧
      (∃ live', server'.Sound live') ∧ ∀ address view, Sees server address view →
        Sees server' address ((arrivals.filter fun x => x.concerns address).foldl
          (View.step alloc place order) view) := by
  induction arrivals generalizing server live with
  | nil => exact ⟨server, rfl, ⟨live, sound⟩, fun address view sees => sees⟩
  | cons arrival rest ih =>
      have first : ∃ live', server.Succeeds alloc place order arrival live' ∧
          Possible live' rest := by
        cases arrival with
        | accept a => exact ⟨_, sound.accept possible.1, possible.2⟩
        | closeSocket a => exact ⟨_, sound.closeSocket a, possible.2⟩
        | destroy a => exact ⟨_, sound.destroy a, possible.2⟩
        | receive a pkt =>
            obtain ⟨handler, found⟩ := (sound.live a).mp possible.1
            refine ⟨live, ?_, possible.2⟩
            cases pkt with
            | rule pkt => exact sound.install found pkt
            | pub pkt => exact sound.publish found pkt
            | sub pkt => exact sound.subscribe found (defined a pkt List.mem_cons_self)
            | unsub pkt =>
                have view : Sees server a ⟨server.engine, server.subscriptionsAt a, server.isOpen a,
                  server.sent.to a⟩ := ⟨rfl, rfl, rfl, rfl⟩
                have own := safely a _ view
                have concerned : Arrival.concerns a (.receive a (.unsub pkt)) = true :=
                  beq_self_eq_true a
                rw [List.filter_cons_of_pos concerned] at own
                have first : RequestHandler.ErasesSafely _ (server.subscriptionsAt a) := own.1
                rw [SOEPServer.subscriptionsAt, found] at first
                exact sound.unsubscribe found first
            | ping =>
                refine ⟨server, by simp only [SOEPServer.step, found], sound, ?_⟩
                intro address view sees
                cases Arrival.concerns address (.receive a .ping) <;> exact sees
      obtain ⟨live', ⟨mid, now, sound', seen⟩, possible'⟩ := first
      have safely' : ∀ address view, Sees mid address view →
          View.AlwaysErasesSafely alloc place order view
            (rest.filter fun x => x.concerns address) := by
        intro address view sees
        have before : Sees server address ⟨server.engine, server.subscriptionsAt address,
          server.isOpen address, server.sent.to address⟩ := ⟨rfl, rfl, rfl, rfl⟩
        have own := safely address _ before
        have after := seen address _ before
        rw [List.filter_cons] at own
        cases concerned : arrival.concerns address with
        | true =>
            rw [concerned, if_pos rfl] at own after
            exact (sees.unique after) ▸ own.2
        | false =>
            rw [concerned, if_neg Bool.false_ne_true] at own after
            exact (sees.unique after) ▸ own
      obtain ⟨server', later, sound'', seen'⟩ := ih sound' possible'
        (fun a sub mem => defined a sub (List.mem_cons_of_mem _ mem)) safely'
      refine ⟨server', ?_, sound'', fun address view sees => ?_⟩
      · rw [List.foldlM_cons, now]
        exact later
      · have after := seen' address _ (seen address view sees)
        rw [List.filter_cons]
        cases concerned : arrival.concerns address with
        | true => rwa [concerned, if_pos rfl] at after
        | false => rwa [concerned, if_neg Bool.false_ne_true] at after

end Runs

/-- No listener of a destroyed connection is left or was ever called, and what a connection was sent
depends on its own requests, on the rules and on the publications only. -/
theorem sent_eq_view (alloc : Nat → Nat) (place : Placement) (order : SetOrder) (numProc : Nat)
    (arrivals : List Arrival) (possible : Possible [] arrivals)
    (defined : ∀ a sub, .receive a (.sub sub) ∈ arrivals → sub.Defined)
    (safely : ∀ a, View.AlwaysErasesSafely alloc place order (.initial numProc)
      (arrivals.filter fun x => x.concerns a)) :
    ∃ server, SOEPServer.run alloc place order numProc arrivals = pure server ∧
      (∀ a ∈ server.listeners, ∃ h, server.handlers a = some h) ∧
      ∀ address, server.sent.to address = (View.run alloc place order numProc
        (arrivals.filter fun x => x.concerns address)).sent := by
  obtain ⟨server, ran, ⟨live, sound⟩, seen⟩ :=
    @exists_run alloc place order _ [] (.initial numProc) arrivals possible defined
      fun a view sees => by
        have same : view = .initial numProc := sees.unique ⟨rfl, rfl, rfl, rfl⟩
        exact same ▸ safely a
  refine ⟨server, ran, fun a mem => ?_, fun address => ?_⟩
  · exact ((sound.registered a).mp mem).imp fun h both => both.1
  · exact (seen address (.initial numProc) ⟨rfl, rfl, rfl, rfl⟩).sent.symm

/-! A subscriber ends its second subscription and is destroyed, and another connection gets its
address. -/

def sameAddress : List Arrival :=
  [.accept 7, .receive 7 (.sub ⟨2, []⟩), .receive 7 (.sub ⟨3, []⟩), .receive 7 (.unsub ⟨3, []⟩),
    .accept 8, .receive 8 (.rule (singleRule 0 1 2)), .receive 8 (.pub (PubPkt.new 1 [] 50)),
    .destroy 7, .accept 7, .receive 8 (.pub (PubPkt.new 1 [] 60))]

theorem View.alwaysErasesSafely_of_none {alloc : Nat → Nat} {place : Placement} {order : SetOrder}
    {view : View} {arrivals : List Arrival}
    (none : ∀ a sub, .receive a (.unsub sub) ∉ arrivals) :
    View.AlwaysErasesSafely alloc place order view arrivals := by
  induction arrivals generalizing view with
  | nil => trivial
  | cons arrival rest ih =>
      refine ⟨?_, ih fun a sub mem => none a sub (List.mem_cons_of_mem _ mem)⟩
      cases arrival with
      | receive a pkt =>
          cases pkt with
          | unsub sub => exact absurd List.mem_cons_self (none a sub)
          | rule pkt => trivial
          | pub pkt => trivial
          | sub pkt => trivial
          | ping => trivial
      | accept a => trivial
      | closeSocket a => trivial
      | destroy a => trivial

theorem sameAddress_safely (a : Nat) :
    View.AlwaysErasesSafely id .above .asGenerated (.initial 1)
      (sameAddress.filter fun x => x.concerns a) := by
  by_cases here : a = 7
  · subst here
    have last : RequestHandler.ErasesSafely (fun held => SubPkt.equals held ⟨3, []⟩)
        [⟨2, []⟩, ⟨3, []⟩] := by
      intro _ last isLast
      cases isLast
      rfl
    exact ⟨trivial, trivial, trivial, last, trivial, trivial, trivial, trivial, trivial, trivial⟩
  · refine View.alwaysErasesSafely_of_none fun b sub mem => ?_
    obtain ⟨there, concerned⟩ := List.mem_filter.mp mem
    have isSeven : b = 7 := by
      simp only [sameAddress, List.mem_cons, Arrival.receive.injEq, Pkt.unsub.injEq, reduceCtorEq,
        and_false, false_or, or_false, List.not_mem_nil] at there
      exact there.1
    exact here ((beq_iff_eq.mp concerned).symm.trans isSeven)

theorem sameAddress_sent :
    (View.run id .above .asGenerated 1 (sameAddress.filter fun x => x.concerns 7)).sent =
        [PubPkt.new 2 [] 50] ∧
      ∃ server, SOEPServer.run id .above .asGenerated 1 sameAddress = pure server ∧
        (∀ a ∈ server.listeners, ∃ h, server.handlers a = some h) ∧
        ∀ address, server.sent.to address = (View.run id .above .asGenerated 1
          (sameAddress.filter fun x => x.concerns address)).sent := by
  have possible : Possible [] sameAddress := by
    simp [Possible, sameAddress]
  have defined : ∀ a sub, Arrival.receive a (.sub sub) ∈ sameAddress → sub.Defined := by
    intro a sub mem
    simp only [sameAddress, List.mem_cons, Arrival.receive.injEq, Pkt.sub.injEq, reduceCtorEq,
      and_false, false_or, or_false, List.not_mem_nil] at mem
    rcases mem with ⟨-, rfl⟩ | ⟨-, rfl⟩
    · exact fun c isConstraint => nomatch isConstraint
    · exact fun c isConstraint => nomatch isConstraint
  exact ⟨by decide +kernel,
    sent_eq_view id .above .asGenerated 1 sameAddress possible defined sameAddress_safely⟩

end TRex
