import Mathlib.Data.List.AList
import TRex.JsClient

/-!
# The HTTP proxy

`trex-proxy.js` keeps a connection to the server for each of its HTTP clients, the events that have
arrived on it until the client polls them, and the time at which the client was heard of last. The
tables are arrays that are used as dictionaries, so that they also answer to the names that every
array inherits. Callbacks run one after the other. What is thrown in the handler of a request is an
error 500 of that request; what is thrown in a callback of a socket or of the timer ends the
process, here `crashed`.

Each chunk of data is one event, that of its first packet, or `undefined` where that is no
publication; what follows in the chunk is lost. A chunk that does not hold all that is read of its
first packet makes `parseEvtPkt` throw (`Unreadable`). `chunks` and `handed` list what arrived on a
socket and what was answered from it, `named` the ids that requests were about; the program keeps
none of them. What `trex.js` makes of the body of a request is `encode`, with `none` where it
throws. -/

namespace TRex.HttpProxy

open Wire (Bytes)

abbrev Id := CString

inductive Method
  | subscribe | unsubscribe | publish
  deriving DecidableEq

/-- The lease in seconds, the functions that every array inherits, with the number of their
parameters, and the encoding of bodies. -/
structure Env (Body : Type) where
  leaseTime : Nat
  inherited : Id → Option Nat
  encode : Method → Body → Option Bytes

/-- One socket to the server; that of the default connection belongs to no client. -/
structure Sock where
  owner : Option Id
  /-- `close` was called, which ends the writing. -/
  ended : Bool
  /-- `'end'` or `'close'` was emitted. -/
  finished : Bool
  written : List Bytes
  chunks : List Bytes
  handed : List (Option Js.Evt)

def Sock.new (owner : Option Id) : Sock := ⟨owner, false, false, [], [], []⟩

structure Proxy where
  now : Nat
  connections : AList fun _ : Id => Nat
  connectionsTS : AList fun _ : Id => Nat
  events : AList fun _ : Id => List (Option Js.Evt)
  defaultConnection : Option Nat
  socks : List Sock
  crashed : Bool
  named : List (Id × Nat)

def start (now : Nat) : Proxy := ⟨now, ∅, ∅, ∅, none, [], false, []⟩

inductive Response
  | json (ok : Bool)
  | id (connID : Option Id)
  | event (evt : Option Js.Evt)
  | noContent
  | notFound
  | error

/-- What `getConnection` returns for an id: a connection, something every array has under that name,
with its length, or `undefined`. -/
inductive Found
  | connection (k : Nat)
  | inherited (length : Nat)
  | undefined

namespace Proxy

variable {Body : Type} (env : Env Body) (p : Proxy)

def onSock (k : Nat) (f : Sock → Sock) : Proxy := { p with socks := p.socks.modify k f }

/-- `write`; after `end` it is an error, which is only logged. -/
def write (k : Nat) (bytes : Bytes) : Proxy :=
  p.onSock k fun s =>
    if s.ended || s.finished then s else { s with written := s.written ++ [bytes] }

/-! ## Requests -/

/-- `getConnection` for an id. A time is no length of an array, and its prototype is no time. -/
def getConnection (connID : Id) : Option (Found × Proxy) :=
  let p := { p with named := (connID, p.now) :: p.named }
  let touched := { p with connectionsTS := p.connectionsTS.insert connID p.now }
  match p.connections.lookup connID with
  | some k => some (.connection k, touched)
  | none =>
    if connID = "length".toList then none
    else if connID = "__proto__".toList then some (.inherited 0, p)
    else match env.inherited connID with
      | some length => some (.inherited length, touched)
      | none => some (.undefined, p)

/-- `getConnection` for a new client; an address that is not valid is refused at once. -/
def connect (connID : Id) (valid : Bool) : Response × Proxy :=
  if valid then
    (.id (some connID),
      { p with
        connections := p.connections.insert connID p.socks.length
        connectionsTS := p.connectionsTS.insert connID p.now
        events := p.events.insert connID []
        socks := p.socks ++ [.new (some connID)] })
  else (.id none, p)

/-- The routes that send something on a client's connection. -/
def send (method : Method) (connID : Id) (body : Body) : Response × Proxy :=
  match p.getConnection env connID with
  | none => (.error, { p with named := (connID, p.now) :: p.named })
  | some (.undefined, p) => (.notFound, p)
  | some (.inherited _, p) => (.error, p)
  | some (.connection k, p) =>
    match env.encode method body with
    | none => (.error, p)
    | some bytes => (.json true, p.write k bytes)

/-- `GET /events/:connID`. -/
def poll (connID : Id) : Response × Proxy :=
  match p.getConnection env connID with
  | none => (.error, { p with named := (connID, p.now) :: p.named })
  | some (.undefined, p) => (.notFound, p)
  | some (.inherited length, p) => (if length = 0 then .noContent else .error, p)
  | some (.connection k, p) =>
    match p.events.lookup connID with
    | none => (.notFound, p)
    | some [] => (.noContent, p)
    | some (evt :: later) =>
      (.event evt,
        { p with events := p.events.insert connID later }.onSock k fun s =>
          { s with handed := s.handed ++ [evt] })

def getDefaultConnection (valid : Bool) : Option Nat × Proxy :=
  match p.defaultConnection with
  | some k => (some k, p)
  | none =>
    if valid then
      (some p.socks.length,
        { p with
          defaultConnection := some p.socks.length
          socks := p.socks ++ [.new none] })
    else (none, p)

/-- `POST /events`. -/
def publishAnonymously (body : Body) (valid : Bool) : Response × Proxy :=
  match p.getDefaultConnection valid with
  | (none, p) => (.notFound, p)
  | (some k, p) =>
    match env.encode .publish body with
    | none => (.error, p)
    | some bytes => (.json true, p.write k bytes)

/-! ## Callbacks -/

def crash : Proxy := { p with crashed := true }

/-- A chunk of data on a socket. -/
def data (k : Nat) (chunk : Bytes) : Proxy :=
  match p.socks[k]?, Js.parseEvtPkt chunk with
  | some s, some evt =>
    let p := p.onSock k fun s => { s with chunks := s.chunks ++ [chunk] }
    match s.owner with
    | none => p
    | some connID =>
      match p.events.lookup connID with
      | none => p.crash
      | some queue =>
        { p with
          events := p.events.insert connID (queue ++ [evt])
          connectionsTS := p.connectionsTS.insert connID p.now }
  | _, _ => p.crash

/-- `'end'` and `'close'`. -/
def finish (k : Nat) : Proxy :=
  let p := p.onSock k fun s => { s with finished := true }
  match p.socks[k]? with
  | none => p
  | some s =>
    match s.owner with
    | none => { p with defaultConnection := none }
    | some connID =>
      { p with
        connectionsTS := p.connectionsTS.erase connID
        connections := p.connections.erase connID
        events := p.events.erase connID }

/-- `'error'`. -/
def fail (k : Nat) : Proxy :=
  match p.socks[k]? with
  | some ⟨none, _, _, _, _, _⟩ => { p with defaultConnection := none }
  | _ => p

/-- The loop of `cleanUp`. -/
def cleanUpOver : List (Sigma fun _ : Id => Nat) → Proxy → Proxy
  | [], p => p
  | ⟨connID, time⟩ :: rest, p =>
    if p.now - time > env.leaseTime * 1000 then
      match p.connections.lookup connID with
      | some k => cleanUpOver rest (p.onSock k fun s => { s with ended := true })
      | none => p.crash
    else cleanUpOver rest p

def cleanUp : Proxy := cleanUpOver env p.connectionsTS.entries p

end Proxy

/-! ## Runs -/

inductive Input (Body : Type)
  | connect (connID : Id) (valid : Bool)
  | send (method : Method) (connID : Id) (body : Body)
  | poll (connID : Id)
  | publishAnonymously (body : Body) (valid : Bool)
  | data (k : Nat) (chunk : Bytes)
  | finish (k : Nat)
  | fail (k : Nat)
  | cleanUp
  | tick (elapsed : Nat)

section Steps

variable {Body : Type} (env : Env Body)

def Proxy.step (p : Proxy) : Input Body → Proxy
  | .connect connID valid => (p.connect connID valid).2
  | .send method connID body => (p.send env method connID body).2
  | .poll connID => (p.poll env connID).2
  | .publishAnonymously body valid => (p.publishAnonymously env body valid).2
  | .data k chunk => p.data k chunk
  | .finish k => p.finish k
  | .fail k => p.fail k
  | .cleanUp => p.cleanUp env
  | .tick elapsed => { p with now := p.now + elapsed }

/-- A name that arrays answer to. -/
def Env.reserved (connID : Id) : Prop :=
  connID = "length".toList ∨ connID = "__proto__".toList ∨ (env.inherited connID).isSome

/-- What can happen: `generateUUID` gives a new id, and a socket is silent after its end. After
`'end'` there is still `'close'`. -/
def Allowed (p : Proxy) : Input Body → Prop
  | .connect connID _ => ¬ env.reserved connID ∧ ∀ s ∈ p.socks, s.owner ≠ some connID
  | .data k _ => ∃ s, p.socks[k]? = some s ∧ s.finished = false
  | .finish k | .fail k => ∃ s, p.socks[k]? = some s
  | _ => True

/-- A run, the last input first. -/
inductive Run : List (Input Body) → Proxy → Prop
  | start {now : Nat} : Run [] (start now)
  | step {inputs : List (Input Body)} {p : Proxy} {i : Input Body} (run : Run inputs p)
      (running : p.crashed = false) (allowed : Allowed env p i) : Run (i :: inputs) (p.step env i)

end Steps

/-! ## What holds in a run -/

section Invariant

variable {Body : Type} (env : Env Body)

/-- The functions that arrays inherit and that a time can be stored under. -/
def Env.shadowed (connID : Id) : Prop :=
  connID ≠ "length".toList ∧ connID ≠ "__proto__".toList ∧ (env.inherited connID).isSome

/-- What the tables depend on. -/
structure View where
  owner : Option Id
  finished : Bool
  chunks : List Bytes
  handed : List (Option Js.Evt)

def Sock.view (s : Sock) : View := ⟨s.owner, s.finished, s.chunks, s.handed⟩

@[ext]
structure Tables where
  view : Nat → Option View
  connections : Id → Option Nat
  connectionsTS : Id → Option Nat
  events : Id → Option (List (Option Js.Evt))
  defaultConnection : Option Nat
  named : Id → Option Nat

def Proxy.tables (p : Proxy) : Tables where
  view k := (p.socks[k]?).map Sock.view
  connections := p.connections.lookup
  connectionsTS := p.connectionsTS.lookup
  events := p.events.lookup
  defaultConnection := p.defaultConnection
  named connID := p.named.lookup connID

/-- A client's connection is open, and what has arrived on it was answered or is queued. -/
structure Open (connID : Id) (found : Option View) (queued : Option (List (Option Js.Evt)))
    (v : View) (queue : List (Option Js.Evt)) : Prop where
  view : found = some v
  owner : v.owner = some connID
  finished : v.finished = false
  events : queued = some queue
  arrived : Js.emit v.chunks = some (v.handed ++ queue)

structure Inv (t : Tables) : Prop where
  open_ : ∀ {connID k}, t.connections connID = some k →
    ∃ v queue, Open connID (t.view k) (t.events connID) v queue
  listed : ∀ {k v connID}, t.view k = some v → v.owner = some connID → v.finished = false →
    t.connections connID = some k
  owners : ∀ {k k' v v' connID}, t.view k = some v → t.view k' = some v' →
    v.owner = some connID → v'.owner = some connID → k = k'
  reserved : ∀ {k v connID}, t.view k = some v → v.owner = some connID → ¬ env.reserved connID
  events : ∀ {connID}, (t.events connID).isSome → (t.connections connID).isSome
  times : ∀ {connID}, ¬ env.reserved connID →
    ((t.connectionsTS connID).isSome ↔ (t.connections connID).isSome)
  names : ∀ {connID}, env.shadowed connID → t.connectionsTS connID = t.named connID
  others : ∀ {connID}, env.reserved connID → ¬ env.shadowed connID → t.connectionsTS connID = none
  answered : ∀ {k v}, t.view k = some v → ∃ later, Js.emit v.chunks = some (v.handed ++ later)
  default_ : ∀ {k}, t.defaultConnection = some k →
    ∃ v, t.view k = some v ∧ v.owner = none ∧ v.finished = false

end Invariant

section Steps

variable {Body : Type} {env : Env Body} {p : Proxy} {t : Tables}

theorem inv_start (now : Nat) : Inv env (start now).tables where
  open_ found := by cases found
  listed found := by cases found
  owners found := by cases found
  reserved found := by cases found
  events found := by cases found
  times _ := iff_of_false Bool.false_ne_true Bool.false_ne_true
  names _ := rfl
  others _ _ := rfl
  answered found := by cases found
  default_ found := by cases found

/-! ### Changes of the tables -/

/-- A request that names an id. -/
def Tables.name (t : Tables) (connID : Id) (now : Nat) : Tables :=
  { t with named := Function.update t.named connID (some now) }

def Tables.touch (t : Tables) (connID : Id) (now : Nat) : Tables :=
  { t with connectionsTS := Function.update t.connectionsTS connID (some now) }

def Tables.setView (t : Tables) (k : Nat) (v : View) : Tables :=
  { t with view := Function.update t.view k (some v) }

/-- A new client with its socket. -/
def Tables.register (t : Tables) (connID : Id) (k : Nat) : Tables :=
  { t.setView k ⟨some connID, false, [], []⟩ with
    connections := Function.update t.connections connID (some k)
    events := Function.update t.events connID (some []) }

def Tables.remove (t : Tables) (connID : Id) : Tables :=
  { t with
    connections := Function.update t.connections connID none
    connectionsTS := Function.update t.connectionsTS connID none
    events := Function.update t.events connID none }

theorem Env.shadowed.reserved {connID : Id} (shadowed : env.shadowed connID) :
    env.reserved connID := .inr (.inr shadowed.2.2)

theorem ne_of_reserved {connID other : Id} (plain : ¬ env.reserved connID)
    (reserved : env.reserved other) : other ≠ connID := fun same => plain (same ▸ reserved)

theorem Inv.reserved_of_connections (inv : Inv env t) {connID : Id} {k : Nat}
    (found : t.connections connID = some k) : ¬ env.reserved connID := by
  obtain ⟨v, queue, isOpen⟩ := inv.open_ found
  exact inv.reserved isOpen.view isOpen.owner

theorem Inv.name (inv : Inv env t) {connID : Id} {now : Nat} (plain : ¬ env.shadowed connID) :
    Inv env (t.name connID now) where
  open_ := inv.open_
  listed := inv.listed
  owners := inv.owners
  reserved := inv.reserved
  events := inv.events
  times := inv.times
  names := fun {other} shadowed => by
    have ne : other ≠ connID := fun same => plain (same ▸ shadowed)
    exact (inv.names shadowed).trans (Function.update_of_ne ne _ _).symm
  others := inv.others
  answered := inv.answered
  default_ := inv.default_

/-- A name that arrays answer to gets a time, which is that of the last request for it. -/
theorem Inv.shadow (inv : Inv env t) {connID : Id} {now : Nat} (shadowed : env.shadowed connID) :
    Inv env ((t.name connID now).touch connID now) where
  open_ := inv.open_
  listed := inv.listed
  owners := inv.owners
  reserved := inv.reserved
  events := inv.events
  times := fun {other} plain => by
    have ne : connID ≠ other := ne_of_reserved plain shadowed.reserved
    simp only [Tables.touch, Function.update_of_ne ne.symm]
    exact inv.times plain
  names := fun {other} shadowed' => by
    by_cases same : other = connID
    · subst same
      simp [Tables.touch, Tables.name]
    · simp only [Tables.touch, Tables.name, Function.update_of_ne same]
      exact inv.names shadowed'
  others := fun {other} reserved plain => by
    have ne : other ≠ connID := fun same => plain (same ▸ shadowed)
    exact (Function.update_of_ne ne _ _).trans (inv.others reserved plain)
  answered := inv.answered
  default_ := inv.default_

/-- A client is heard of. -/
theorem Inv.touch (inv : Inv env t) {connID : Id} {k now : Nat}
    (listed : t.connections connID = some k) : Inv env (t.touch connID now) where
  open_ := inv.open_
  listed := inv.listed
  owners := inv.owners
  reserved := inv.reserved
  events := inv.events
  times := fun {other} plain => by
    by_cases same : other = connID
    · subst same
      exact iff_of_true (by simp [Tables.touch]) (Option.isSome_iff_exists.mpr ⟨k, listed⟩)
    · simp only [Tables.touch, Function.update_of_ne same]
      exact inv.times plain
  names := fun {other} shadowed => by
    have ne := ne_of_reserved (inv.reserved_of_connections listed) shadowed.reserved
    exact (Function.update_of_ne ne _ _).trans (inv.names shadowed)
  others := fun {other} reserved plain => by
    have ne := ne_of_reserved (inv.reserved_of_connections listed) reserved
    exact (Function.update_of_ne ne _ _).trans (inv.others reserved plain)
  answered := inv.answered
  default_ := inv.default_

theorem view_cases {k j : Nat} {v w : View}
    (found : Function.update t.view k (some v) j = some w) :
    j = k ∧ w = v ∨ j ≠ k ∧ t.view j = some w := by
  by_cases same : j = k
  · subst same
    rw [Function.update_self] at found
    exact .inl ⟨rfl, (Option.some.inj found).symm⟩
  · rw [Function.update_of_ne same] at found
    exact .inr ⟨same, found⟩

theorem ne_of_new {k j : Nat} {v : View} (new : t.view k = none) (found : t.view j = some v) :
    j ≠ k := by
  intro same
  rw [← same, found] at new
  cases new

theorem ne_of_owner {k j : Nat} {v w : View} (view : t.view k = some v) (found : t.view j = some w)
    (differs : w.owner ≠ v.owner) : j ≠ k := by
  intro same
  rw [same, view] at found
  exact differs (congrArg View.owner (Option.some.inj found).symm)

theorem Inv.register (inv : Inv env t) {connID : Id} {k now : Nat}
    (plain : ¬ env.reserved connID)
    (unowned : ∀ k v, t.view k = some v → v.owner ≠ some connID) (new : t.view k = none) :
    Inv env ((t.register connID k).touch connID now) where
  open_ := fun {other j} found => by
    by_cases same : other = connID
    · subst same
      obtain rfl : k = j := by simpa [Tables.register, Tables.touch] using found
      refine ⟨⟨some other, false, [], []⟩, [], ?_, rfl, rfl, ?_, rfl⟩ <;>
        simp [Tables.register, Tables.touch, Tables.setView]
    · simp only [Tables.register, Tables.touch, Function.update_of_ne same] at found
      obtain ⟨v, queue, h⟩ := inv.open_ found
      have ne := ne_of_new new h.view
      refine ⟨v, queue, ?_, h.owner, h.finished, ?_, h.arrived⟩
      · exact (Function.update_of_ne ne _ _).trans h.view
      · exact (Function.update_of_ne same _ _).trans h.events
  listed := fun {j v other} found owner isOpen => by
    rcases view_cases found with ⟨rfl, rfl⟩ | ⟨-, found⟩
    · obtain rfl : connID = other := Option.some.inj owner
      exact Function.update_self ..
    · have ne : other ≠ connID := fun is => unowned j v found (is ▸ owner)
      exact (Function.update_of_ne ne _ _).trans (inv.listed found owner isOpen)
  owners := fun {j j' v v' other} found found' owner owner' => by
    rcases view_cases found with ⟨is, rfl⟩ | ⟨-, old⟩ <;>
      rcases view_cases found' with ⟨is', rfl⟩ | ⟨-, old'⟩
    · exact is.trans is'.symm
    · exact absurd (owner'.trans owner.symm) (unowned j' v' old')
    · exact absurd (owner.trans owner'.symm) (unowned j v old)
    · exact inv.owners old old' owner owner'
  reserved := fun {j v other} found owner => by
    rcases view_cases found with ⟨rfl, rfl⟩ | ⟨-, found⟩
    · obtain rfl : connID = other := Option.some.inj owner
      exact plain
    · exact inv.reserved found owner
  events := fun {other} queued => by
    by_cases same : other = connID
    · subst same
      simp [Tables.register, Tables.touch]
    · simp only [Tables.register, Tables.touch, Function.update_of_ne same] at queued ⊢
      exact inv.events queued
  times := fun {other} unreserved => by
    by_cases same : other = connID
    · subst same
      simp [Tables.register, Tables.touch]
    · simp only [Tables.register, Tables.touch, Tables.setView, Function.update_of_ne same]
      exact inv.times unreserved
  names := fun {other} shadowed => by
    have ne := ne_of_reserved plain shadowed.reserved
    exact (Function.update_of_ne ne _ _).trans (inv.names shadowed)
  others := fun {other} reserved unshadowed => by
    have ne := ne_of_reserved plain reserved
    exact (Function.update_of_ne ne _ _).trans (inv.others reserved unshadowed)
  answered := fun {j v} found => by
    rcases view_cases found with ⟨rfl, rfl⟩ | ⟨-, found⟩
    · exact ⟨[], rfl⟩
    · exact inv.answered found
  default_ := fun {j} is => by
    obtain ⟨v, found, owner, finished⟩ := inv.default_ is
    exact ⟨v, (Function.update_of_ne (ne_of_new new found) _ _).trans found, owner, finished⟩

/-- An open socket changes, and with it the queue of its client. -/
theorem Inv.setView (inv : Inv env t) {k : Nat} {v : View} (v' : View)
    {events' : Id → Option (List (Option Js.Evt))} (later : List (Option Js.Evt))
    (view : t.view k = some v) (isOpen : v.finished = false) (owner : v'.owner = v.owner)
    (finished : v'.finished = v.finished) (arrived : Js.emit v'.chunks = some (v'.handed ++ later))
    (own : ∀ connID, v.owner = some connID → events' connID = some later)
    (others : ∀ connID, v.owner ≠ some connID → events' connID = t.events connID) :
    Inv env { t.setView k v' with events := events' } := by
  have back : ∀ {j u}, (t.setView k v').view j = some u →
      ∃ u', t.view j = some u' ∧ u'.owner = u.owner ∧ u'.finished = u.finished := by
    intro j u found
    rcases view_cases found with ⟨rfl, rfl⟩ | ⟨-, old⟩
    · exact ⟨v, view, owner.symm, finished.symm⟩
    · exact ⟨u, old, rfl, rfl⟩
  have forth : ∀ {j u}, t.view j = some u → j = k ∧ u = v ∨
      j ≠ k ∧ (t.setView k v').view j = some u := by
    intro j u found
    by_cases same : j = k
    · rw [same, view] at found
      exact .inl ⟨same, (Option.some.inj found).symm⟩
    · exact .inr ⟨same, (Function.update_of_ne same _ _).trans found⟩
  refine
    { open_ := fun {connID j} found => ?_
      listed := fun found owner finished => ?_
      owners := fun found found' owner owner' => ?_
      reserved := fun found owner => ?_
      events := fun {connID} queued => ?_
      times := inv.times
      names := inv.names
      others := inv.others
      answered := fun found => ?_
      default_ := fun {j} is => ?_ }
  · obtain ⟨u, queue, h⟩ := inv.open_ found
    rcases forth h.view with ⟨rfl, rfl⟩ | ⟨ne, found'⟩
    · exact ⟨v', later, Function.update_self .., owner.trans h.owner, finished.trans h.finished,
        own connID h.owner, arrived⟩
    · refine ⟨u, queue, found', h.owner, h.finished, ?_, h.arrived⟩
      refine (others connID fun same => ne ?_).trans h.events
      exact inv.owners h.view view h.owner same
  · obtain ⟨u, old, owner', finished'⟩ := back found
    exact inv.listed old (owner'.trans owner) (finished'.trans finished)
  · obtain ⟨u, old, is, -⟩ := back found
    obtain ⟨u', old', is', -⟩ := back found'
    exact inv.owners old old' (is.trans owner) (is'.trans owner')
  · obtain ⟨u, old, is, -⟩ := back found
    exact inv.reserved old (is.trans owner)
  · by_cases same : v.owner = some connID
    · exact Option.isSome_iff_exists.mpr ⟨k, inv.listed view same isOpen⟩
    · exact inv.events (others connID same ▸ queued)
  · rcases view_cases found with ⟨rfl, rfl⟩ | ⟨-, old⟩
    · exact ⟨later, arrived⟩
    · exact inv.answered old
  · obtain ⟨u, found, noOwner, finished'⟩ := inv.default_ is
    rcases forth found with ⟨rfl, rfl⟩ | ⟨-, found'⟩
    · exact ⟨v', Function.update_self .., owner.trans noOwner, finished.trans finished'⟩
    · exact ⟨u, found', noOwner, finished'⟩

theorem Inv.finishDefault (inv : Inv env t) {k : Nat} {v : View} (view : t.view k = some v)
    (noOwner : v.owner = none) :
    Inv env { t.setView k { v with finished := true } with defaultConnection := none } := by
  have back : ∀ {j u}, (t.setView k { v with finished := true }).view j = some u →
      j = k ∧ u = { v with finished := true } ∨ j ≠ k ∧ t.view j = some u := view_cases
  have unowned : ∀ {u : View} {connID}, u = { v with finished := true } →
      u.owner ≠ some connID := by
    intro u connID is owner
    subst is
    cases noOwner.symm.trans owner
  refine
    { open_ := fun found => ?_
      listed := fun found owner isOpen => ?_
      owners := fun found found' owner owner' => ?_
      reserved := fun found owner => ?_
      events := inv.events
      times := inv.times
      names := inv.names
      others := inv.others
      answered := fun found => ?_
      default_ := fun is => by cases is }
  · obtain ⟨u, queue, h⟩ := inv.open_ found
    have ne := ne_of_owner view h.view (by simp [h.owner, noOwner])
    exact ⟨u, queue, (Function.update_of_ne ne _ _).trans h.view, h.owner, h.finished, h.events,
      h.arrived⟩
  · rcases back found with ⟨-, rfl⟩ | ⟨-, old⟩
    · cases isOpen
    · exact inv.listed old owner isOpen
  · rcases back found with ⟨-, is⟩ | ⟨-, old⟩
    · exact absurd owner (unowned is)
    · rcases back found' with ⟨-, is⟩ | ⟨-, old'⟩
      · exact absurd owner' (unowned is)
      · exact inv.owners old old' owner owner'
  · rcases back found with ⟨-, is⟩ | ⟨-, old⟩
    · exact absurd owner (unowned is)
    · exact inv.reserved old owner
  · rcases back found with ⟨-, rfl⟩ | ⟨-, old⟩
    · obtain ⟨later, arrived⟩ := inv.answered view
      exact ⟨later, arrived⟩
    · exact inv.answered old

/-- A client's socket is over, and the client is forgotten. -/
theorem Inv.finish (inv : Inv env t) {k : Nat} {v : View} {connID : Id} (view : t.view k = some v)
    (owner : v.owner = some connID) :
    Inv env ((t.setView k { v with finished := true }).remove connID) := by
  have unreserved := inv.reserved view owner
  have back : ∀ {j u}, (t.setView k { v with finished := true }).view j = some u →
      j = k ∧ u = { v with finished := true } ∨ j ≠ k ∧ t.view j = some u := view_cases
  have owned : ∀ {j u other}, (t.setView k { v with finished := true }).view j = some u →
      u.owner = some other → ∃ u', t.view j = some u' ∧ u'.owner = some other := by
    intro j u other found owner
    rcases back found with ⟨rfl, rfl⟩ | ⟨-, old⟩
    · exact ⟨v, view, owner⟩
    · exact ⟨u, old, owner⟩
  refine
    { open_ := fun {other j} found => ?_
      listed := fun {j u other} found owner' isOpen => ?_
      owners := fun found found' owner owner' => ?_
      reserved := fun found owner => ?_
      events := fun {other} queued => ?_
      times := fun {other} plain => ?_
      names := fun {other} shadowed => ?_
      others := fun {other} reserved unshadowed => ?_
      answered := fun found => ?_
      default_ := fun {j} is => ?_ }
  · by_cases same : other = connID
    · subst same
      simp [Tables.remove] at found
    · simp only [Tables.remove, Function.update_of_ne same] at found
      obtain ⟨u, queue, h⟩ := inv.open_ found
      have ne := ne_of_owner view h.view (by simpa [h.owner, owner] using same)
      exact ⟨u, queue, (Function.update_of_ne ne _ _).trans h.view, h.owner, h.finished,
        (Function.update_of_ne same _ _).trans h.events, h.arrived⟩
  · rcases back found with ⟨-, rfl⟩ | ⟨ne, old⟩
    · cases isOpen
    · have other' : other ≠ connID := fun is => ne (inv.owners old view owner' (is ▸ owner))
      exact (Function.update_of_ne other' _ _).trans (inv.listed old owner' isOpen)
  · obtain ⟨u, old, is⟩ := owned found owner
    obtain ⟨u', old', is'⟩ := owned found' owner'
    exact inv.owners old old' is is'
  · obtain ⟨u, old, is⟩ := owned found owner
    exact inv.reserved old is
  · by_cases same : other = connID
    · subst same
      simp [Tables.remove] at queued
    · simp only [Tables.remove, Function.update_of_ne same] at queued ⊢
      exact inv.events queued
  · by_cases same : other = connID
    · subst same
      simp [Tables.remove]
    · simp only [Tables.remove, Tables.setView, Function.update_of_ne same]
      exact inv.times plain
  · have ne := ne_of_reserved unreserved shadowed.reserved
    exact (Function.update_of_ne ne _ _).trans (inv.names shadowed)
  · have ne := ne_of_reserved unreserved reserved
    exact (Function.update_of_ne ne _ _).trans (inv.others reserved unshadowed)
  · rcases back found with ⟨-, rfl⟩ | ⟨-, old⟩
    · obtain ⟨later, arrived⟩ := inv.answered view
      exact ⟨later, arrived⟩
    · exact inv.answered old
  · obtain ⟨u, found, noOwner, finished⟩ := inv.default_ is
    have ne := ne_of_owner view found (by simp [noOwner, owner])
    exact ⟨u, (Function.update_of_ne ne _ _).trans found, noOwner, finished⟩

/-! ### The steps of the proxy -/

theorem view_of_sock {k : Nat} {s : Sock} (found : p.socks[k]? = some s) :
    p.tables.view k = some s.view := by
  simp only [Proxy.tables, found]
  rfl

theorem view_onSock {f : Sock → Sock} {g : View → View} (k : Nat)
    (lifts : ∀ s, (f s).view = g s.view) (j : Nat) :
    (p.onSock k f).tables.view j =
      if k = j then (p.tables.view j).map g else p.tables.view j := by
  simp only [Proxy.tables, Proxy.onSock, List.getElem?_modify]
  cases p.socks[j]? with
  | none => simp
  | some s => by_cases same : k = j <;> simp [same, lifts]

/-- A change that the tables do not depend on. -/
theorem tables_onSock {f : Sock → Sock} (k : Nat) (same : ∀ s, (f s).view = s.view) :
    (p.onSock k f).tables = p.tables := by
  have views : (p.onSock k f).tables.view = p.tables.view := by
    funext j
    rw [view_onSock (g := id) k same, Option.map_id, id, ite_self]
  exact Tables.ext views rfl rfl rfl rfl rfl

theorem tables_setView {f : Sock → Sock} {g : View → View} {k : Nat} {v : View}
    (view : p.tables.view k = some v) (lifts : ∀ s, (f s).view = g s.view) :
    (p.onSock k f).tables = p.tables.setView k (g v) := by
  have views : (p.onSock k f).tables.view = Function.update p.tables.view k (some (g v)) := by
    funext j
    rw [view_onSock k lifts, Function.update_apply]
    by_cases same : k = j
    · rw [if_pos same, if_pos same.symm, ← same, view]
      rfl
    · rw [if_neg same, if_neg (Ne.symm same)]
  exact Tables.ext views rfl rfl rfl rfl rfl

theorem tables_write (k : Nat) (bytes : Bytes) : (p.write k bytes).tables = p.tables := by
  refine tables_onSock k fun s => ?_
  split <;> rfl

theorem lookup_insert_eq {α : Type} (l : AList fun _ : Id => α) (connID : Id) (a : α) :
    (l.insert connID a).lookup = Function.update l.lookup connID (some a) := by
  funext other
  by_cases same : other = connID
  · subst same
    rw [AList.lookup_insert, Function.update_self]
  · rw [AList.lookup_insert_ne same, Function.update_of_ne same]

theorem lookup_erase_eq {α : Type} (l : AList fun _ : Id => α) (connID : Id) :
    (l.erase connID).lookup = Function.update l.lookup connID none := by
  funext other
  by_cases same : other = connID
  · subst same
    rw [AList.lookup_erase, Function.update_self]
  · rw [AList.lookup_erase_ne same, Function.update_of_ne same]

theorem tables_named (connID : Id) :
    ({ p with named := (connID, p.now) :: p.named } : Proxy).tables =
      p.tables.name connID p.now := by
  have named : (fun other => ((connID, p.now) :: p.named).lookup other) =
      Function.update (fun other => p.named.lookup other) connID (some p.now) := by
    funext other
    rw [List.lookup_cons, Function.update_apply]
    by_cases same : other = connID
    · rw [if_pos same, beq_iff_eq.mpr same]
    · rw [if_neg same, beq_eq_false_iff_ne.mpr same]
  exact Tables.ext rfl rfl rfl rfl rfl named

theorem tables_touched (connID : Id) (now : Nat) :
    ({ p with connectionsTS := p.connectionsTS.insert connID now } : Proxy).tables =
      p.tables.touch connID now := by
  exact Tables.ext rfl rfl (lookup_insert_eq ..) rfl rfl rfl

/-- What a request that names an id does first. -/
structure Named (p p' : Proxy) : Prop where
  connections : p'.tables.connections = p.tables.connections
  events : p'.tables.events = p.tables.events
  view : p'.tables.view = p.tables.view
  crashed : p'.crashed = p.crashed

theorem getConnection_cases (inv : Inv env p.tables) (connID : Id) :
    match p.getConnection env connID with
    | none => Inv env ({ p with named := (connID, p.now) :: p.named } : Proxy).tables
    | some (found, p') => Inv env p'.tables ∧ Named p p' ∧
        ∀ k, found = .connection k → p.tables.connections connID = some k := by
  have named := tables_named (p := p) connID
  have touched : ({ p with
      named := (connID, p.now) :: p.named
      connectionsTS := p.connectionsTS.insert connID p.now } : Proxy).tables =
      (p.tables.name connID p.now).touch connID p.now := by
    rw [← named]
    exact tables_touched (p := { p with named := (connID, p.now) :: p.named }) connID p.now
  unfold Proxy.getConnection
  dsimp only
  cases found : p.connections.lookup connID with
  | some k =>
    refine ⟨?_, ⟨rfl, rfl, rfl, rfl⟩, fun k' is => ?_⟩
    · rw [touched]
      have unshadowed : ¬ env.shadowed connID := fun shadowed =>
        inv.reserved_of_connections found shadowed.reserved
      exact (inv.name unshadowed).touch found
    · cases is
      exact found
  | none =>
    by_cases isLength : connID = "length".toList
    · simp only [if_pos isLength]
      rw [named]
      exact inv.name fun shadowed => shadowed.1 isLength
    simp only [if_neg isLength]
    by_cases isProto : connID = "__proto__".toList
    · simp only [if_pos isProto]
      refine ⟨?_, ⟨rfl, rfl, rfl, rfl⟩, fun k is => by cases is⟩
      rw [named]
      exact inv.name fun shadowed => shadowed.2.1 isProto
    simp only [if_neg isProto]
    cases inherited : env.inherited connID with
    | some length =>
      refine ⟨?_, ⟨rfl, rfl, rfl, rfl⟩, fun k is => by cases is⟩
      rw [touched]
      exact inv.shadow ⟨isLength, isProto, by rw [inherited]; rfl⟩
    | none =>
      refine ⟨?_, ⟨rfl, rfl, rfl, rfl⟩, fun k is => by cases is⟩
      rw [named]
      refine inv.name fun shadowed => ?_
      have isSome := shadowed.2.2
      rw [inherited] at isSome
      cases isSome

theorem tables_queued (connID : Id) (queue : List (Option Js.Evt)) :
    ({ p with events := p.events.insert connID queue } : Proxy).tables =
      { p.tables with events := Function.update p.tables.events connID (some queue) } := by
  exact Tables.ext rfl rfl rfl (lookup_insert_eq ..) rfl rfl

theorem send_inv (inv : Inv env p.tables) (method : Method) (connID : Id) (body : Body) :
    Inv env (p.send env method connID body).2.tables ∧
      (p.send env method connID body).2.crashed = p.crashed := by
  have cases_ := getConnection_cases inv connID
  unfold Proxy.send
  split
  case h_1 is =>
    rw [is] at cases_
    exact ⟨cases_, rfl⟩
  case h_2 p' is =>
    rw [is] at cases_
    exact ⟨cases_.1, cases_.2.1.crashed⟩
  case h_3 p' is =>
    rw [is] at cases_
    exact ⟨cases_.1, cases_.2.1.crashed⟩
  case h_4 k p' is =>
    rw [is] at cases_
    obtain ⟨inv', named, -⟩ := cases_
    cases env.encode method body with
    | none => exact ⟨inv', named.crashed⟩
    | some bytes => exact ⟨(tables_write k bytes).symm ▸ inv', named.crashed⟩

theorem poll_inv (inv : Inv env p.tables) (connID : Id) :
    Inv env (p.poll env connID).2.tables ∧ (p.poll env connID).2.crashed = p.crashed := by
  have cases_ := getConnection_cases inv connID
  unfold Proxy.poll
  split
  case h_1 is =>
    rw [is] at cases_
    exact ⟨cases_, rfl⟩
  case h_2 p' is =>
    rw [is] at cases_
    exact ⟨cases_.1, cases_.2.1.crashed⟩
  case h_3 p' is =>
    rw [is] at cases_
    exact ⟨cases_.1, cases_.2.1.crashed⟩
  case h_4 k p' is =>
    rw [is] at cases_
    obtain ⟨inv', named, listed⟩ := cases_
    split
    case h_1 => exact ⟨inv', named.crashed⟩
    case h_2 => exact ⟨inv', named.crashed⟩
    case h_3 evt later queued =>
      refine ⟨?_, named.crashed⟩
      have isListed : p'.tables.connections connID = some k :=
        named.connections ▸ listed k rfl
      obtain ⟨v, queue, isOpen⟩ := inv'.open_ isListed
      obtain rfl : evt :: later = queue := Option.some.inj (queued.symm.trans isOpen.events)
      have queues := tables_queued (p := p') connID later
      have view : ({ p' with events := p'.events.insert connID later } : Proxy).tables.view k =
          some v := by
        rw [queues]
        exact isOpen.view
      rw [tables_setView (g := fun v => { v with handed := v.handed ++ [evt] }) view fun _ => rfl,
        queues]
      refine inv'.setView { v with handed := v.handed ++ [evt] } later
        isOpen.view isOpen.finished rfl rfl ?_ (fun other owner => ?_) fun other owner => ?_
      · rw [List.append_assoc]
        exact isOpen.arrived
      · obtain rfl : connID = other := Option.some.inj (isOpen.owner.symm.trans owner)
        exact Function.update_self ..
      · refine Function.update_of_ne (fun is => owner ?_) _ _
        rw [is]
        exact isOpen.owner

theorem tables_add (s : Sock) :
    ({ p with socks := p.socks ++ [s] } : Proxy).tables =
        p.tables.setView p.socks.length s.view ∧ p.tables.view p.socks.length = none := by
  have views : ({ p with socks := p.socks ++ [s] } : Proxy).tables.view =
      Function.update p.tables.view p.socks.length (some s.view) := by
    funext j
    simp only [Proxy.tables, Function.update_apply, List.getElem?_append]
    rcases Nat.lt_trichotomy j p.socks.length with less | same | greater
    · rw [if_pos less, if_neg (Nat.ne_of_lt less)]
    · subst same
      simp
    · rw [if_neg (Nat.lt_asymm greater), if_neg (Nat.ne_of_gt greater),
        List.getElem?_eq_none (Nat.le_of_lt greater), List.getElem?_eq_none (by simp; omega)]
  refine ⟨Tables.ext views rfl rfl rfl rfl rfl, ?_⟩
  simp [Proxy.tables]

theorem connect_inv (inv : Inv env p.tables) {connID : Id} (valid : Bool)
    (plain : ¬ env.reserved connID) (fresh : ∀ s ∈ p.socks, s.owner ≠ some connID) :
    Inv env (p.connect connID valid).2.tables := by
  cases valid with
  | false => exact inv
  | true =>
    obtain ⟨added, new⟩ := tables_add (p := p) (.new (some connID))
    have registered : (p.connect connID true).2.tables =
        (p.tables.register connID p.socks.length).touch connID p.now := by
      have views := congrArg Tables.view added
      exact Tables.ext views (lookup_insert_eq ..) (lookup_insert_eq ..) (lookup_insert_eq ..) rfl
        rfl
    rw [registered]
    refine inv.register plain (fun k v view owner => ?_) new
    obtain ⟨s, found, rfl⟩ := Option.map_eq_some_iff.mp view
    exact fresh s (List.mem_of_getElem? found) owner

theorem Inv.addDefault (inv : Inv env t) {k : Nat} (new : t.view k = none) :
    Inv env { t.setView k ⟨none, false, [], []⟩ with defaultConnection := some k } := by
  have forth : ∀ {j v}, t.view j = some v →
      (t.setView k ⟨none, false, [], []⟩).view j = some v := by
    intro j v found
    exact (Function.update_of_ne (ne_of_new new found) _ _).trans found
  have owned : ∀ {j v connID}, (t.setView k ⟨none, false, [], []⟩).view j = some v →
      v.owner = some connID → t.view j = some v := by
    intro j v connID found owner
    rcases view_cases found with ⟨-, rfl⟩ | ⟨-, old⟩
    · cases owner
    · exact old
  exact
    { open_ := fun found => by
        obtain ⟨v, queue, h⟩ := inv.open_ found
        exact ⟨v, queue, forth h.view, h.owner, h.finished, h.events, h.arrived⟩
      listed := fun found owner => inv.listed (owned found owner) owner
      owners := fun found found' owner owner' =>
        inv.owners (owned found owner) (owned found' owner') owner owner'
      reserved := fun found owner => inv.reserved (owned found owner) owner
      events := inv.events
      times := inv.times
      names := inv.names
      others := inv.others
      answered := fun found => by
        rcases view_cases found with ⟨-, rfl⟩ | ⟨-, old⟩
        · exact ⟨[], rfl⟩
        · exact inv.answered old
      default_ := fun is => by
        obtain rfl := Option.some.inj is
        exact ⟨⟨none, false, [], []⟩, Function.update_self .., rfl, rfl⟩ }

theorem getDefaultConnection_inv (inv : Inv env p.tables) (valid : Bool) :
    Inv env (p.getDefaultConnection valid).2.tables ∧
      (p.getDefaultConnection valid).2.crashed = p.crashed := by
  unfold Proxy.getDefaultConnection
  split
  case h_1 => exact ⟨inv, rfl⟩
  case h_2 none' =>
    cases valid with
    | false => exact ⟨inv, rfl⟩
    | true =>
      obtain ⟨added, new⟩ := tables_add (p := p) (.new none)
      refine ⟨?_, rfl⟩
      have same : ({ p with
          defaultConnection := some p.socks.length, socks := p.socks ++ [.new none] } :
          Proxy).tables =
          { p.tables.setView p.socks.length ⟨none, false, [], []⟩ with
            defaultConnection := some p.socks.length } := by
        have views := congrArg Tables.view added
        exact Tables.ext views rfl rfl rfl rfl rfl
      exact same ▸ inv.addDefault new

theorem publishAnonymously_inv (inv : Inv env p.tables) (body : Body) (valid : Bool) :
    Inv env (p.publishAnonymously env body valid).2.tables ∧
      (p.publishAnonymously env body valid).2.crashed = p.crashed := by
  have kept := getDefaultConnection_inv inv valid
  unfold Proxy.publishAnonymously
  split
  case h_1 p' is =>
    rw [is] at kept
    exact kept
  case h_2 k p' is =>
    rw [is] at kept
    cases env.encode .publish body with
    | none => exact kept
    | some bytes => exact ⟨(tables_write k bytes).symm ▸ kept.1, kept.2⟩

theorem emit_concat {chunks : List Bytes} {chunk : Bytes} {evts : List (Option Js.Evt)}
    {evt : Option Js.Evt} (before : Js.emit chunks = some evts)
    (parsed : Js.parseEvtPkt chunk = some evt) :
    Js.emit (chunks ++ [chunk]) = some (evts ++ [evt]) := by
  induction chunks generalizing evts with
  | nil =>
    cases before
    simp [Js.emit, parsed]
  | cons c rest ih =>
    simp only [Js.emit, Option.bind_eq_bind, Option.pure_def, Option.bind_eq_some_iff,
      Option.some.injEq] at before
    obtain ⟨first, isFirst, later, isLater, rfl⟩ := before
    simp [Js.emit, isFirst, ih isLater]

theorem data_inv (inv : Inv env p.tables) {k : Nat} {s : Sock} (found : p.socks[k]? = some s)
    (isOpen : s.finished = false) (chunk : Bytes) :
    Inv env (p.data k chunk).tables ∧ (p.crashed = false →
      ((p.data k chunk).crashed = true ↔ Js.parseEvtPkt chunk = none)) := by
  have view := view_of_sock found
  unfold Proxy.data
  rw [found]
  cases parsed : Js.parseEvtPkt chunk with
  | none => exact ⟨inv, fun _ => iff_of_true rfl rfl⟩
  | some evt =>
    dsimp only
    have chunks := tables_setView (p := p) (f := fun s => { s with chunks := s.chunks ++ [chunk] })
      (g := fun v => { v with chunks := v.chunks ++ [chunk] }) view fun _ => rfl
    obtain ⟨before, answered⟩ := inv.answered view
    cases owner : s.owner with
    | none =>
      refine ⟨?_, fun running => by simp [Proxy.onSock, running]⟩
      have noOwner : s.view.owner = none := owner
      rw [chunks]
      refine inv.setView _ (before ++ [evt]) view isOpen rfl rfl ?_ ?_ fun _ _ => rfl
      · rw [← List.append_assoc]
        exact emit_concat answered parsed
      · intro connID owner
        cases noOwner.symm.trans owner
    | some connID =>
      have isListed := inv.listed view owner isOpen
      obtain ⟨v, queue, h⟩ := inv.open_ isListed
      obtain rfl : s.view = v := Option.some.inj (view.symm.trans h.view)
      have queued : p.events.lookup connID = some queue := h.events
      simp only [Proxy.onSock, queued]
      refine ⟨?_, fun running => by simp [running]⟩
      have changed : ∀ q : Proxy, ({ q with
          events := q.events.insert connID (queue ++ [evt])
          connectionsTS := q.connectionsTS.insert connID q.now } : Proxy).tables =
          Tables.touch { q.tables with
            events := Function.update q.tables.events connID (some (queue ++ [evt])) }
            connID q.now := fun q =>
        Tables.ext rfl rfl (lookup_insert_eq ..) (lookup_insert_eq ..) rfl rfl
      refine (changed (p.onSock k _)).symm ▸ Inv.touch ?_ isListed
      rw [chunks]
      refine inv.setView _ (queue ++ [evt]) view isOpen rfl rfl ?_ (fun other owner' => ?_)
        fun other owner' => ?_
      · rw [← List.append_assoc]
        exact emit_concat h.arrived parsed
      · obtain rfl : connID = other := Option.some.inj (h.owner.symm.trans owner')
        exact Function.update_self ..
      · refine Function.update_of_ne (fun is => owner' ?_) _ _
        rw [is]
        exact h.owner

theorem finish_inv (inv : Inv env p.tables) {k : Nat} {s : Sock} (found : p.socks[k]? = some s) :
    Inv env (p.finish k).tables ∧ (p.finish k).crashed = p.crashed := by
  have view := view_of_sock found
  have finished := tables_setView (p := p) (f := fun s => { s with finished := true })
    (g := fun v => { v with finished := true }) view fun _ => rfl
  have found' : (p.onSock k fun s => { s with finished := true }).socks[k]? =
      some { s with finished := true } := by
    simp [Proxy.onSock, found]
  unfold Proxy.finish
  simp only [found']
  cases owner : s.owner with
  | none =>
    refine ⟨?_, rfl⟩
    have changed : ({ p.onSock k fun s => { s with finished := true } with
        defaultConnection := none } : Proxy).tables =
        { (p.onSock k fun s => { s with finished := true }).tables with
          defaultConnection := none } := rfl
    rw [changed, finished]
    exact inv.finishDefault view owner
  | some connID =>
    refine ⟨?_, rfl⟩
    have changed : ∀ q : Proxy, ({ q with
        connectionsTS := q.connectionsTS.erase connID
        connections := q.connections.erase connID
        events := q.events.erase connID } : Proxy).tables = q.tables.remove connID := fun q =>
      Tables.ext rfl (lookup_erase_eq ..) (lookup_erase_eq ..) (lookup_erase_eq ..) rfl rfl
    rw [changed, finished]
    exact inv.finish view owner

theorem fail_inv (inv : Inv env p.tables) (k : Nat) : Inv env (p.fail k).tables := by
  unfold Proxy.fail
  split
  case h_1 => exact { inv with default_ := fun is => nomatch is }
  case h_2 => exact inv

variable (env) in
/-- The loop of `cleanUp` ends sockets, unless it meets a name without a connection. -/
theorem cleanUpOver_eq (entries : List (Sigma fun _ : Id => Nat)) (p : Proxy) :
    (Proxy.cleanUpOver env entries p).tables = p.tables ∧
      ((Proxy.cleanUpOver env entries p).crashed = true ↔ p.crashed = true ∨
        ∃ e ∈ entries, env.leaseTime * 1000 < p.now - e.2 ∧ p.connections.lookup e.1 = none) := by
  induction entries generalizing p with
  | nil => simp [Proxy.cleanUpOver]
  | cons e rest ih =>
    obtain ⟨connID, time⟩ := e
    rw [Proxy.cleanUpOver]
    simp only [List.mem_cons, exists_eq_or_imp]
    split
    case isTrue expired =>
      cases listed : p.connections.lookup connID with
      | none => exact ⟨rfl, iff_of_true rfl (.inr (.inl ⟨expired, rfl⟩))⟩
      | some k =>
        obtain ⟨tables, crashes⟩ := ih (p.onSock k fun s => { s with ended := true })
        refine ⟨tables.trans (tables_onSock k fun _ => rfl), crashes.trans ?_⟩
        simp [Proxy.onSock]
    case isFalse live =>
      obtain ⟨tables, crashes⟩ := ih p
      refine ⟨tables, crashes.trans ?_⟩
      have never : ¬ env.leaseTime * 1000 < p.now - time := live
      simp only [never, false_and, false_or]

theorem cleanUp_inv (inv : Inv env p.tables) :
    Inv env (p.cleanUp env).tables ∧ (p.crashed = false → ((p.cleanUp env).crashed = true ↔
      ∃ connID time, env.shadowed connID ∧ p.named.lookup connID = some time ∧
        env.leaseTime * 1000 < p.now - time)) := by
  obtain ⟨tables, crashes⟩ := cleanUpOver_eq env p.connectionsTS.entries p
  refine ⟨tables.symm ▸ inv, fun running => ?_⟩
  unfold Proxy.cleanUp
  rw [crashes, running]
  simp only [Bool.false_eq_true, false_or]
  constructor
  · intro found
    obtain ⟨⟨connID, time⟩, mem, expired, unlisted⟩ := found
    have stored : p.tables.connectionsTS connID = some time := AList.mem_lookup_iff.mpr mem
    have unlisted : p.tables.connections connID = none := unlisted
    have reserved : env.reserved connID := by
      by_contra plain
      have listed := (inv.times plain).mp (by rw [stored]; rfl)
      rw [unlisted] at listed
      cases listed
    have shadowed : env.shadowed connID := by
      by_contra plain
      rw [inv.others reserved plain] at stored
      cases stored
    exact ⟨connID, time, shadowed, (inv.names shadowed).symm.trans stored, expired⟩
  · intro found
    obtain ⟨connID, time, shadowed, named, expired⟩ := found
    have stored : p.tables.connectionsTS connID = some time := (inv.names shadowed).trans named
    refine ⟨⟨connID, time⟩, AList.mem_lookup_iff.mp stored, expired, ?_⟩
    have unlisted : ∀ k, p.tables.connections connID ≠ some k := fun k found =>
      inv.reserved_of_connections found shadowed.reserved
    exact Option.eq_none_iff_forall_ne_some.mpr unlisted

/-! ### All runs -/

/-- The chunk is empty, or it begins as a publication and ends before a number, a length or a type
that is read of it. -/
def Unreadable (chunk : Bytes) : Prop :=
  chunk = [] ∨ ∃ rest, chunk = 0 :: rest ∧ Js.decodeEvt chunk 1 = none

theorem parseEvtPkt_eq_none_iff (chunk : Bytes) :
    Js.parseEvtPkt chunk = none ↔ Unreadable chunk := by
  cases chunk with
  | nil => exact iff_of_true rfl (.inl rfl)
  | cons first rest =>
    have zero : Int.bmod (Wire.ofBigEndian [first]) 256 = 0 ↔ first = 0 := by
      have small := first.toNat_lt
      have value : Wire.ofBigEndian [first] = first.toNat := by simp [Wire.ofBigEndian]
      rw [value, ← UInt8.toNat_inj, UInt8.toNat_zero, Int.bmod_def]
      split <;> omega
    have read : Js.readInt8 (first :: rest) 0 =
        some (Int.bmod (Wire.ofBigEndian [first]) 256) := by
      simp [Js.readInt8, Cursor.read]
    rw [Js.parseEvtPkt, read]
    by_cases publication : first = 0
    · subst publication
      cases decoded : Js.decodeEvt (0 :: rest) 1 <;> simp [Unreadable, zero.mpr rfl, decoded]
    · simp [Unreadable, publication, zero.not.mpr publication]

variable (env) in
/-- When a step ends the process. -/
def Fatal (p : Proxy) (i : Input Body) : Prop :=
  (∃ k chunk, i = .data k chunk ∧ Unreadable chunk) ∨
    i = .cleanUp ∧ ∃ connID time, env.shadowed connID ∧ p.named.lookup connID = some time ∧
      env.leaseTime * 1000 < p.now - time

theorem step_inv (inv : Inv env p.tables) (running : p.crashed = false) {i : Input Body}
    (allowed : Allowed env p i) :
    Inv env (p.step env i).tables ∧ ((p.step env i).crashed = true ↔ Fatal env p i) := by
  have survives : ∀ {p' : Proxy}, p'.crashed = p.crashed →
      (∀ k chunk, i ≠ .data k chunk) → i ≠ .cleanUp →
        (p'.crashed = true ↔ Fatal env p i) := by
    intro p' same noData noCleanUp
    refine iff_of_false (by simp [same, running]) fun fatal => ?_
    rcases fatal with ⟨k, chunk, is, -⟩ | ⟨is, -⟩
    · exact noData k chunk is
    · exact noCleanUp is
  cases i with
  | connect connID valid =>
    refine ⟨connect_inv inv valid allowed.1 allowed.2, survives ?_ (by simp) (by simp)⟩
    cases valid <;> rfl
  | send method connID body =>
    obtain ⟨inv', same⟩ := send_inv inv method connID body
    exact ⟨inv', survives same (by simp) (by simp)⟩
  | poll connID =>
    obtain ⟨inv', same⟩ := poll_inv inv connID
    exact ⟨inv', survives same (by simp) (by simp)⟩
  | publishAnonymously body valid =>
    obtain ⟨inv', same⟩ := publishAnonymously_inv inv body valid
    exact ⟨inv', survives same (by simp) (by simp)⟩
  | data k chunk =>
    obtain ⟨s, found, isOpen⟩ := allowed
    obtain ⟨inv', crashes⟩ := data_inv inv found isOpen chunk
    refine ⟨inv', (crashes running).trans ?_⟩
    simp [Fatal, parseEvtPkt_eq_none_iff]
  | finish k =>
    obtain ⟨s, found⟩ := allowed
    obtain ⟨inv', same⟩ := finish_inv inv found
    exact ⟨inv', survives same (by simp) (by simp)⟩
  | fail k =>
    refine ⟨fail_inv inv k, survives ?_ (by simp) (by simp)⟩
    unfold Proxy.step Proxy.fail
    dsimp only
    split <;> rfl
  | cleanUp =>
    obtain ⟨inv', crashes⟩ := cleanUp_inv inv
    refine ⟨inv', (crashes running).trans ?_⟩
    simp [Fatal]
  | tick elapsed => exact ⟨inv, survives rfl (by simp) (by simp)⟩

theorem Run.inv {inputs : List (Input Body)} (run : Run env inputs p) : Inv env p.tables := by
  induction run with
  | start => exact inv_start _
  | step _ running allowed ih => exact (step_inv ih running allowed).1

/-- Whatever order requests and callbacks come in: what has arrived for a client was answered to its
polls, in order, or is queued as long as its connection is open; and the process is ended only by
data that is `Unreadable`, or by `cleanUp` once nothing was asked about a name that arrays answer to
for a whole lease after it was. -/
theorem proxy_run {inputs : List (Input Body)} (run : Run env inputs p) :
    (∀ connID k, p.connections.lookup connID = some k → ∃ s queue,
        p.socks[k]? = some s ∧ s.owner = some connID ∧ s.finished = false ∧
        p.events.lookup connID = some queue ∧ Js.emit s.chunks = some (s.handed ++ queue)) ∧
      (∀ s ∈ p.socks, ∃ later, Js.emit s.chunks = some (s.handed ++ later)) ∧
      (∀ i, p.crashed = false → Allowed env p i →
        ((p.step env i).crashed = true ↔ Fatal env p i)) := by
  have inv := run.inv
  refine ⟨fun connID k listed => ?_, fun s mem => ?_, fun i running allowed =>
    (step_inv inv running allowed).2⟩
  · obtain ⟨v, queue, h⟩ := inv.open_ listed
    obtain ⟨s, found, rfl⟩ := Option.map_eq_some_iff.mp h.view
    exact ⟨s, queue, found, h.owner, h.finished, h.events, h.arrived⟩
  · obtain ⟨k, found⟩ := List.mem_iff_getElem?.mp mem
    exact inv.answered (view_of_sock found)

end Steps

/-! ### A request for `map` -/

def subscriptions : Env Js.Sub where
  leaseTime := 600
  inherited connID := if connID = "map".toList then some 1 else none
  encode
    | .subscribe, sub => Js.getSubPkt sub
    | .unsubscribe, sub => Js.getUnsubPkt sub
    | .publish, _ => none

/-- A client has got a ping from the server when somebody polls for `map`, ten minutes ago. -/
def mapNamed : List (Input Js.Sub) :=
  [.tick 600001, .poll "map".toList, .data 0 [101, 0, 0, 0, 0], .connect "a".toList true]

def afterMap : Proxy :=
  mapNamed.foldr (fun i p => p.step subscriptions i) (start 0)

theorem afterMap_run : Run subscriptions mapNamed afterMap := by
  have plain : ¬ subscriptions.reserved "a".toList := by
    unfold Env.reserved
    decide
  have connected : Run subscriptions [.connect "a".toList true]
      ((start 0).step subscriptions (.connect "a".toList true)) :=
    .step .start rfl ⟨plain, by simp [start]⟩
  have pinged : Run subscriptions [.data 0 [101, 0, 0, 0, 0], .connect "a".toList true]
      (((start 0).step subscriptions (.connect "a".toList true)).step subscriptions
        (.data 0 [101, 0, 0, 0, 0])) :=
    .step connected rfl ⟨.new (some "a".toList), rfl, rfl⟩
  exact .step (.step pinged rfl trivial) rfl trivial

theorem afterMap_crashes : (afterMap.step subscriptions .cleanUp).crashed = true := by
  refine ((proxy_run afterMap_run).2.2 .cleanUp rfl trivial).mpr (.inr ⟨rfl, "map".toList, 0, ?_⟩)
  refine ⟨?_, rfl, by decide⟩
  unfold Env.shadowed
  decide

end TRex.HttpProxy
