import Mathlib.Logic.Function.Basic
import TRex.Lib.Watchdog

/-!
# The timers of a connection

`Connection`: with `usePing` one timer closes the socket when nothing was received for
`PING_TIMEOUT`, and the other one sends a ping when nothing was written for `PING_DELAY`; without it
the timers are never started, and only an error of the socket ends the connection. Handlers of
operations that have completed run in any order, those of the timers also beside those of the
socket, which the strand puts in a row. A handler takes no time: the clock stands still while one is
ready. An expired wait completes no later than the clock reaches its deadline.

`heard` and `wrote` list when something was received and when a write had completed or a ping was
begun, `gaveUp` says that `closeSocket` was called; the program keeps none of them.
-/

namespace TRex.Heartbeat

/-! ## States -/

inductive Timer
  | receive | send
  deriving DecidableEq

/-- `PING_TIMEOUT` and `PING_DELAY`. -/
def period : Timer → Nat
  | .receive => 125000
  | .send => 30000

/-- Completion handlers. Those of the socket get an error or none; those of the timers are told
whether their wait was cancelled (`operation_aborted`). -/
inductive Handler
  | read (error : Bool)
  | write (error : Bool)
  | ping (timer : Timer) (aborted : Bool)
  deriving DecidableEq

structure Connection where
  usePing : Bool
  now : Nat
  isOpen : Bool
  stopTimers : Bool
  /-- `async_read_some` has not completed. -/
  reading : Bool
  /-- The calls of `async_write` that have not completed. -/
  writing : Nat
  /-- The deadline of a wait that has not completed. -/
  waits : Timer → Option Nat
  /-- The handlers that are to run. -/
  ready : Handler → Nat
  gaveUp : Bool
  heard : List Nat
  wrote : List Nat

namespace Connection

variable (c : Connection)

def complete (h : Handler) (n : Nat) : Connection :=
  { c with ready := Function.update c.ready h (c.ready h + n) }

/-- Takes a handler that is ready. -/
def take (h : Handler) : Connection :=
  { c with ready := Function.update c.ready h (c.ready h - 1) }

/-! ## Operations -/

/-- `cancel` of a timer: a wait completes with `operation_aborted`. -/
def cancel (timer : Timer) : Connection :=
  { c with
    waits := Function.update c.waits timer none
    ready := Function.update c.ready (.ping timer true)
      (c.ready (.ping timer true) + (c.waits timer).isSome.toNat) }

/-- `startPingReceive` and `startPingSend`. Setting the time of expiry cancels a wait. -/
def startPing (timer : Timer) : Connection :=
  let c := c.cancel timer
  { c with waits := Function.update c.waits timer (some (c.now + period timer)) }

def asyncWrite : Connection := if c.isOpen then { c with writing := c.writing + 1 } else c

def asyncReadSome : Connection := if c.isOpen then { c with reading := true } else c

/-- What `close` does to the operations of the socket: their handlers get an error. -/
def abort : Connection :=
  { c with
    isOpen := false
    reading := false
    writing := 0
    ready := fun h => c.ready h + match h with
      | .read true => if c.reading then 1 else 0
      | .write true => c.writing
      | _ => 0 }

/-- `closeSocket`. Where `shutdown` throws, `close` is not called. -/
def closeSocket (throws : Bool) : Connection :=
  let c := { c with gaveUp := true }
  if c.isOpen && !throws then c.abort else c

/-! ## Handlers -/

/-- What the handlers of the socket do on an error. -/
def fail (throws : Bool) : Connection :=
  let c := { c.closeSocket throws with stopTimers := true }
  if c.usePing then (c.cancel .receive).cancel .send else c

/-- `handleRead`; the request itself is left out. -/
def handleRead (error throws : Bool) : Connection :=
  if !error then (if c.usePing then c.cancel .receive else c).asyncReadSome else c.fail throws

def handleWrite (error throws : Bool) : Connection :=
  if !error then if c.usePing then c.cancel .send else c
  else c.fail throws

def handlePingReceive (aborted throws : Bool) : Connection :=
  if aborted then if c.usePing then c.startPing .receive else c
  else if c.stopTimers then c
  else c.closeSocket throws

def handlePingSend (aborted : Bool) : Connection :=
  if aborted then if c.usePing then c.startPing .send else c
  else if c.stopTimers then c
  else if c.usePing then ({ c with wrote := c.now :: c.wrote }.asyncWrite).startPing .send
  else c

def handle (throws : Bool) : Handler → Connection
  | .read error => c.handleRead error throws
  | .write error => c.handleWrite error throws
  | .ping .receive aborted => c.handlePingReceive aborted throws
  | .ping .send aborted => c.handlePingSend aborted

end Connection

/-- `start` on a new connection. -/
def start (usePing : Bool) (now : Nat) : Connection where
  usePing := usePing
  now := now
  isOpen := true
  stopTimers := false
  reading := true
  writing := 0
  waits timer := if usePing then some (now + period timer) else none
  ready _ := 0
  gaveUp := false
  heard := [now]
  wrote := [now]

/-! ## Steps -/

/-- What happens without the clock. -/
inductive Step : Connection → Connection → Prop
  | receive {c : Connection} (reading : c.reading = true) :
      Step c ({ c with reading := false, heard := c.now :: c.heard }.complete (.read false) 1)
  | failToReceive {c : Connection} (reading : c.reading = true) :
      Step c ({ c with reading := false }.complete (.read true) 1)
  | written {c : Connection} (writing : 0 < c.writing) :
      Step c ({ c with writing := c.writing - 1, wrote := c.now :: c.wrote }.complete
        (.write false) 1)
  | failToWrite {c : Connection} (writing : 0 < c.writing) :
      Step c ({ c with writing := c.writing - 1 }.complete (.write true) 1)
  /-- A packet for the client. -/
  | write {c : Connection} (isOpen : c.isOpen = true) : Step c c.asyncWrite
  | expire {c : Connection} {timer : Timer} {deadline : Nat}
      (waits : c.waits timer = some deadline) (due : deadline ≤ c.now) :
      Step c ({ c with waits := Function.update c.waits timer none }.complete
        (.ping timer false) 1)
  | run {c : Connection} {h : Handler} (throws : Bool) (ready : 0 < c.ready h) :
      Step c ((c.take h).handle throws h)

/-- The clock goes on when no handler is ready and no wait has to complete. -/
inductive Tick : Connection → Connection → Prop
  | tick {c : Connection} (idle : ∀ h, c.ready h = 0)
      (early : ∀ timer deadline, c.waits timer = some deadline → c.now < deadline) :
      Tick c { c with now := c.now + 1 }

inductive Reachable : Connection → Prop
  | start {usePing : Bool} {now : Nat} : Reachable (start usePing now)
  | step {c c' : Connection} (reachable : Reachable c) (step : Step c c') : Reachable c'
  | tick {c c' : Connection} (reachable : Reachable c) (tick : Tick c c') : Reachable c'

/-! ## What a handler can do -/

/-- The timers are not used. -/
def Unused (c : Connection) : Prop :=
  ∀ timer, c.waits timer = none ∧ ∀ aborted, c.ready (.ping timer aborted) = 0

theorem Unused.cancel {c : Connection} (unused : Unused c) (timer : Timer) :
    c.cancel timer = c := by
  have waits : Function.update c.waits timer none = c.waits :=
    Function.update_eq_self_iff.mpr (unused timer).1.symm
  have ready : Function.update c.ready (.ping timer true)
      (c.ready (.ping timer true) + (c.waits timer).isSome.toNat) = c.ready := by
    simp [(unused timer).1]
  rw [Connection.cancel, waits, ready]

/-- What the handlers of the socket do on an error, said of both kinds of connections. -/
def Connection.giveUp (c : Connection) (throws : Bool) : Connection :=
  ({ c.closeSocket throws with stopTimers := true }.cancel .receive).cancel .send

/-- What a handler can do: where no timer is used, cancelling one does nothing. -/
inductive Handled (c : Connection) : Handler → Connection → Prop
  | failed {h : Handler} (throws : Bool) (error : h = .read true ∨ h = .write true) :
      Handled c h (c.giveUp throws)
  | heard : Handled c (.read false) (c.cancel .receive).asyncReadSome
  | written : Handled c (.write false) (c.cancel .send)
  | cancelled {timer : Timer} : Handled c (.ping timer true) (c.startPing timer)
  | stopped {timer : Timer} (stop : c.stopTimers = true) : Handled c (.ping timer false) c
  | silent (throws : Bool) (running : c.stopTimers = false) :
      Handled c (.ping .receive false) (c.closeSocket throws)
  | quiet (running : c.stopTimers = false) :
      Handled c (.ping .send false)
        (({ c with wrote := c.now :: c.wrote }.asyncWrite).startPing .send)

@[simp] theorem waits_closeSocket {c : Connection} (throws : Bool) :
    (c.closeSocket throws).waits = c.waits := by
  unfold Connection.closeSocket
  dsimp only
  split <;> rfl

@[simp] theorem usePing_closeSocket {c : Connection} (throws : Bool) :
    (c.closeSocket throws).usePing = c.usePing := by
  unfold Connection.closeSocket
  dsimp only
  split <;> rfl

theorem Unused.closeSocket {c : Connection} (unused : Unused c) (throws : Bool) :
    Unused (c.closeSocket throws) := by
  intro timer
  refine ⟨by rw [waits_closeSocket, (unused timer).1], fun aborted => ?_⟩
  unfold Connection.closeSocket
  dsimp only
  split
  · simp [Connection.abort, (unused timer).2 aborted]
  · exact (unused timer).2 aborted

theorem fail_eq_giveUp {c : Connection} (unused : c.usePing = false → Unused c) (throws : Bool) :
    c.fail throws = c.giveUp throws := by
  unfold Connection.fail Connection.giveUp
  cases usePing : c.usePing with
  | true => simp [usePing]
  | false =>
    have idle : Unused { c.closeSocket throws with stopTimers := true } :=
      (unused usePing).closeSocket throws
    rw [idle.cancel, idle.cancel]
    simp [usePing]

/-- Handlers of timers run only where timers are used. -/
theorem handled (c : Connection) (throws : Bool) (h : Handler)
    (unused : c.usePing = false → Unused c) (used : ∀ timer aborted, h = .ping timer aborted →
      c.usePing = true) : Handled c h (c.handle throws h) := by
  have cancel : ∀ timer, (if c.usePing then c.cancel timer else c) = c.cancel timer := by
    intro timer
    cases usePing : c.usePing with
    | true => rfl
    | false => exact ((unused usePing).cancel timer).symm
  cases h with
  | read error =>
    cases error with
    | false =>
      have reads : c.handle throws (.read false) = (c.cancel .receive).asyncReadSome :=
        congrArg Connection.asyncReadSome (cancel .receive)
      rw [reads]
      exact .heard
    | true =>
      have fails : c.handle throws (.read true) = c.giveUp throws := fail_eq_giveUp unused throws
      rw [fails]
      exact .failed throws (.inl rfl)
  | write error =>
    cases error with
    | false =>
      have writes : c.handle throws (.write false) = c.cancel .send := cancel .send
      rw [writes]
      exact .written
    | true =>
      have fails : c.handle throws (.write true) = c.giveUp throws := fail_eq_giveUp unused throws
      rw [fails]
      exact .failed throws (.inr rfl)
  | ping timer aborted =>
    have usePing := used timer aborted rfl
    cases aborted with
    | true =>
      have starts : c.handle throws (.ping timer true) = c.startPing timer := by
        cases timer <;>
          simp [Connection.handle, Connection.handlePingReceive, Connection.handlePingSend, usePing]
      rw [starts]
      exact .cancelled
    | false =>
      cases stop : c.stopTimers with
      | true =>
        have unchanged : c.handle throws (.ping timer false) = c := by
          cases timer <;>
            simp [Connection.handle, Connection.handlePingReceive, Connection.handlePingSend, stop]
        rw [unchanged]
        exact .stopped stop
      | false =>
        cases timer with
        | receive =>
          have closes : c.handle throws (.ping .receive false) = c.closeSocket throws := by
            simp [Connection.handle, Connection.handlePingReceive, stop]
          rw [closes]
          exact .silent throws stop
        | send =>
          have pings : c.handle throws (.ping .send false) =
              (({ c with wrote := c.now :: c.wrote }.asyncWrite).startPing .send) := by
            simp [Connection.handle, Connection.handlePingSend, stop, usePing]
          rw [pings]
          exact .quiet stop

/-- What the handler that a step runs can do. -/
theorem handled_take {c : Connection} (unused : c.usePing = false → Unused c) {h : Handler}
    (throws : Bool) (ready : 0 < c.ready h) :
    Handled (c.take h) h ((c.take h).handle throws h) := by
  refine handled (c.take h) throws h (fun off timer => ?_) fun timer aborted isPing => ?_
  · obtain ⟨waits, none'⟩ := unused off timer
    refine ⟨waits, fun aborted => ?_⟩
    by_cases same : Handler.ping timer aborted = h
    · rw [← same, none' aborted] at ready
      cases ready
    · simp only [Connection.take, Function.update_of_ne same]
      exact none' aborted
  · cases usePing : c.usePing with
    | true => exact usePing
    | false =>
      rw [isPing, (unused usePing timer).2 aborted] at ready
      cases ready

/-! ## One timer -/

/-- What the timers look like to the handlers of the connection. -/
def view (c : Connection) : Timer → Watchdog.State
  | .receive => ⟨c.now, c.waits .receive, c.ready (.read false), c.ready (.ping .receive true),
      c.ready (.ping .receive false), c.heard⟩
  | .send => ⟨c.now, c.waits .send, c.ready (.write false), c.ready (.ping .send true),
      c.ready (.ping .send false), c.wrote⟩

variable {c c' : Connection}

theorem view_cancel (timer : Timer) : view (c.cancel timer) timer = (view c timer).cancel := by
  cases timer <;> simp [view, Connection.cancel, Watchdog.State.cancel]

theorem view_cancel_of_ne {timer other : Timer} (ne : other ≠ timer) :
    view (c.cancel timer) other = view c other := by
  cases timer <;> cases other <;> simp_all [view, Connection.cancel]

theorem view_startPing (timer : Timer) :
    view (c.startPing timer) timer = (view c timer).restart (period timer) := by
  cases timer <;> simp [view, Connection.startPing, Connection.cancel, Watchdog.State.restart,
    Watchdog.State.cancel]

theorem view_startPing_of_ne {timer other : Timer} (ne : other ≠ timer) :
    view (c.startPing timer) other = view c other := by
  cases timer <;> cases other <;> simp_all [view, Connection.startPing, Connection.cancel]

@[simp] theorem view_asyncWrite (timer : Timer) : view c.asyncWrite timer = view c timer := by
  unfold Connection.asyncWrite
  split <;> cases timer <;> rfl

@[simp] theorem view_asyncReadSome (timer : Timer) :
    view c.asyncReadSome timer = view c timer := by
  unfold Connection.asyncReadSome
  split <;> cases timer <;> rfl

@[simp] theorem gaveUp_closeSocket (throws : Bool) : (c.closeSocket throws).gaveUp = true := by
  unfold Connection.closeSocket
  dsimp only
  split <;> rfl

@[simp] theorem gaveUp_giveUp (throws : Bool) : (c.giveUp throws).gaveUp = true :=
  gaveUp_closeSocket throws

@[simp] theorem now_closeSocket (throws : Bool) : (c.closeSocket throws).now = c.now := by
  unfold Connection.closeSocket
  dsimp only
  split <;> rfl

/-- A handler takes no time. -/
theorem Step.now_eq (unused : c.usePing = false → Unused c) (step : Step c c') :
    c'.now = c.now := by
  have asyncWrite : ∀ c : Connection, c.asyncWrite.now = c.now := by
    intro c
    unfold Connection.asyncWrite
    split <;> rfl
  cases step with
  | receive | failToReceive | written | failToWrite | expire => rfl
  | write => exact asyncWrite c
  | @run h throws ready =>
    have effect := handled_take unused throws ready
    generalize isBefore : c.take h = before at effect ⊢
    generalize before.handle throws h = after at effect ⊢
    subst isBefore
    cases effect with
    | failed throws => exact now_closeSocket throws
    | silent throws => exact now_closeSocket throws
    | heard =>
      unfold Connection.asyncReadSome
      split <;> rfl
    | quiet => exact asyncWrite _
    | written | cancelled | stopped => rfl

/-- As long as the connection is not given up, a step is one of each timer or leaves it alone. -/
theorem Step.view_step (unused : c.usePing = false → Unused c) (step : Step c c')
    (stop : c.stopTimers = true → c.gaveUp = true)
    (alive : c'.gaveUp = false) (timer : Timer) :
    view c' timer = view c timer ∨ Watchdog.Step (period timer) (view c timer) (view c' timer) := by
  cases step with
  | receive reading =>
    cases timer with
    | receive => exact .inr .sign
    | send => exact .inl rfl
  | failToReceive reading => cases timer <;> exact .inl rfl
  | written writing =>
    cases timer with
    | receive => exact .inl rfl
    | send => exact .inr .sign
  | failToWrite writing => cases timer <;> exact .inl rfl
  | write isOpen => exact .inl (view_asyncWrite timer)
  | @expire which deadline waits due =>
    by_cases same : timer = which
    · subst same
      have expires : Watchdog.Step (period timer) (view c timer) _ :=
        @Watchdog.Step.expire _ _ deadline (by cases timer <;> exact waits)
          (by cases timer <;> exact due)
      cases timer <;> exact .inr expires
    · cases timer <;> cases which <;> first | exact absurd rfl same | exact .inl rfl
  | @run h throws ready =>
    have effect := handled_take unused throws ready
    revert alive
    generalize isBefore : c.take h = before at effect ⊢
    generalize before.handle throws h = after at effect ⊢
    intro alive
    cases effect with
    | failed => exact absurd alive (by simp)
    | silent => exact absurd alive (by simp)
    | stopped stopped =>
      subst isBefore
      exact absurd ((stop stopped).symm.trans alive) (by simp)
    | heard =>
      subst isBefore
      rw [view_asyncReadSome]
      cases timer with
      | receive =>
        rw [view_cancel]
        exact .inr (.handleSign ready)
      | send => exact .inl (view_cancel_of_ne (by simp))
    | written =>
      subst isBefore
      cases timer with
      | receive => exact .inl (view_cancel_of_ne (by simp))
      | send =>
        rw [view_cancel]
        exact .inr (.handleSign ready)
    | @cancelled which =>
      subst isBefore
      by_cases same : timer = which
      · subst same
        rw [view_startPing]
        cases timer <;> exact .inr (.handleCancelled ready)
      · refine .inl ((view_startPing_of_ne same).trans ?_)
        cases timer <;> cases which <;> first | exact absurd rfl same | rfl
    | quiet =>
      subst isBefore
      cases timer with
      | receive =>
        refine .inl ?_
        rw [view_startPing_of_ne (by simp), view_asyncWrite]
        rfl
      | send =>
        rw [view_startPing, view_asyncWrite]
        exact .inr (.handleExpired ready)

theorem Tick.view_step (tick : Tick c c') (timer : Timer) :
    Watchdog.Step (period timer) (view c timer) (view c' timer) := by
  cases tick with
  | tick idle early =>
    have ticks : Watchdog.Step (period timer) (view c timer)
        { view c timer with now := c.now + 1 } := by
      cases timer <;> exact .tick ⟨idle _, idle _, idle _⟩ (early _)
    cases timer <;> exact ticks

/-! ## The connection -/

/-- The reads that have not come to their end. -/
def reads (c : Connection) : Nat :=
  c.reading.toNat + c.ready (.read false) + c.ready (.read true)

@[simp] theorem decided_asyncWrite : c.asyncWrite.gaveUp = c.gaveUp ∧
    c.asyncWrite.stopTimers = c.stopTimers ∧ c.asyncWrite.isOpen = c.isOpen := by
  unfold Connection.asyncWrite
  split <;> exact ⟨rfl, rfl, rfl⟩

/-- A step gives the connection up or leaves what decides about that alone. -/
theorem Step.gaveUp_or (unused : c.usePing = false → Unused c) (step : Step c c') :
    c'.gaveUp = true ∧ ((0 < c.ready (.read true) ∨ 0 < c.ready (.write true)) ∨
        0 < c.ready (.ping .receive false)) ∨
      c'.gaveUp = c.gaveUp ∧ c'.stopTimers = c.stopTimers ∧ c'.isOpen = c.isOpen := by
  cases step with
  | receive | failToReceive | written | failToWrite | expire => exact .inr ⟨rfl, rfl, rfl⟩
  | write => exact .inr decided_asyncWrite
  | @run h throws ready =>
    have effect := handled_take unused throws ready
    generalize isBefore : c.take h = before at effect ⊢
    generalize before.handle throws h = after at effect ⊢
    cases effect with
    | failed _ error =>
      refine .inl ⟨gaveUp_giveUp _, .inl ?_⟩
      rcases error with rfl | rfl
      · exact .inl ready
      · exact .inr ready
    | silent => exact .inl ⟨gaveUp_closeSocket _, .inr ready⟩
    | heard =>
      subst isBefore
      refine .inr ?_
      unfold Connection.asyncReadSome
      split <;> exact ⟨rfl, rfl, rfl⟩
    | quiet =>
      subst isBefore
      exact .inr decided_asyncWrite
    | written | cancelled | stopped =>
      subst isBefore
      exact .inr ⟨rfl, rfl, rfl⟩

/-- Reads follow one another. -/
theorem Step.reads_eq_one (unused : c.usePing = false → Unused c) (step : Step c c')
    (isOpen : c.isOpen = true) (one : reads c = 1)
    (alive : c'.gaveUp = false) : reads c' = 1 := by
  have timers : ∀ (c : Connection) timer, reads (c.startPing timer) = reads c := by
    intro c timer
    simp [reads, Connection.startPing, Connection.cancel]
  cases step with
  | receive reading | failToReceive reading =>
    simp only [reads, reading, Bool.toNat_true] at one
    simp [reads, Connection.complete]
    omega
  | written | failToWrite | expire =>
    simpa [reads, Connection.complete] using one
  | write =>
    unfold Connection.asyncWrite
    split <;> exact one
  | @run h throws ready =>
    have effect := handled_take unused throws ready
    revert alive
    generalize isBefore : c.take h = before at effect ⊢
    generalize before.handle throws h = after at effect ⊢
    intro alive
    cases effect with
    | failed => exact absurd alive (by simp)
    | silent => exact absurd alive (by simp)
    | heard =>
      subst isBefore
      simp only [reads] at one
      simp [reads, Connection.take, Connection.cancel, Connection.asyncReadSome, isOpen]
      omega
    | written =>
      subst isBefore
      simpa [reads, Connection.take, Connection.cancel] using one
    | cancelled =>
      subst isBefore
      rw [timers]
      simpa [reads, Connection.take] using one
    | stopped =>
      subst isBefore
      simpa [reads, Connection.take] using one
    | quiet =>
      subst isBefore
      rw [timers]
      simpa [reads, Connection.take, Connection.asyncWrite, isOpen] using one

/-- What no step changes. -/
theorem Step.usePing_eq (unused : c.usePing = false → Unused c) (step : Step c c') :
    c'.usePing = c.usePing := by
  have asyncWrite : ∀ c : Connection, c.asyncWrite.usePing = c.usePing := by
    intro c
    unfold Connection.asyncWrite
    split <;> rfl
  cases step with
  | receive | failToReceive | written | failToWrite | expire => rfl
  | write => exact asyncWrite c
  | @run h throws ready =>
    have effect := handled_take unused throws ready
    generalize isBefore : c.take h = before at effect ⊢
    generalize before.handle throws h = after at effect ⊢
    subst isBefore
    cases effect with
    | failed throws => exact usePing_closeSocket throws
    | silent throws => exact usePing_closeSocket throws
    | heard =>
      unfold Connection.asyncReadSome
      split <;> rfl
    | quiet => exact asyncWrite _
    | written | cancelled | stopped => rfl

/-- No step starts a timer that is not used. -/
theorem Step.unused (unused : Unused c) (step : Step c c') : Unused c' := by
  cases step with
  | receive | failToReceive | written | failToWrite =>
    refine fun timer => ⟨(unused timer).1, fun aborted => ?_⟩
    simpa [Connection.complete] using (unused timer).2 aborted
  | write =>
    unfold Connection.asyncWrite
    split <;> exact unused
  | @expire timer deadline waits =>
    rw [(unused timer).1] at waits
    cases waits
  | @run h throws ready =>
    have notPing : ∀ timer aborted, h ≠ .ping timer aborted := by
      rintro timer aborted rfl
      rw [(unused timer).2 aborted] at ready
      cases ready
    have taken : Unused (c.take h) := by
      refine fun timer => ⟨(unused timer).1, fun aborted => ?_⟩
      simp only [Connection.take, Function.update_of_ne (notPing timer aborted).symm]
      exact (unused timer).2 aborted
    have effect := handled_take (fun _ => unused) throws ready
    generalize c.take h = before at taken effect ⊢
    generalize before.handle throws h = after at effect ⊢
    cases effect with
    | failed throws =>
      have closed : Unused { before.closeSocket throws with stopTimers := true } :=
        taken.closeSocket throws
      rw [Connection.giveUp, closed.cancel, closed.cancel]
      exact closed
    | heard =>
      rw [taken.cancel]
      unfold Connection.asyncReadSome
      split <;> exact taken
    | written =>
      rw [taken.cancel]
      exact taken
    | cancelled | stopped | silent | quiet => exact absurd rfl (notPing _ _)

theorem Reachable.unused (reachable : Reachable c) (off : c.usePing = false) : Unused c := by
  induction reachable with
  | start =>
    cases off
    exact fun timer => ⟨rfl, fun _ => rfl⟩
  | @step c c' _ step ih =>
    cases usePing : c.usePing with
    | true =>
      have same := step.usePing_eq fun isOff => absurd (usePing.symm.trans isOff) (by simp)
      rw [off, usePing] at same
      cases same
    | false => exact step.unused (ih usePing)
  | tick _ tick ih =>
    cases tick
    exact ih off

/-- What holds until the connection is given up. -/
structure Supervised (c : Connection) : Prop where
  isOpen : c.isOpen = true
  reads : reads c = 1
  timers : c.usePing = true → ∀ timer, Watchdog.Inv (period timer) (view c timer)

theorem supervised_start (usePing : Bool) (now : Nat) : Supervised (start usePing now) := by
  refine ⟨rfl, rfl, fun isOn timer => ?_⟩
  cases isOn
  cases timer <;> exact Watchdog.inv_start _ now

theorem Supervised.step (before : Supervised c) (unused : c.usePing = false → Unused c)
    (stop : c.stopTimers = true → c.gaveUp = true) (step : Step c c') (alive : c'.gaveUp = false) :
    Supervised c' := by
  have calm := (step.gaveUp_or unused).resolve_left fun gaveUp => by
    rw [alive] at gaveUp
    cases gaveUp.1
  refine ⟨calm.2.2.trans before.isOpen, step.reads_eq_one unused before.isOpen before.reads alive,
    fun isOn timer => ?_⟩
  have inv := before.timers ((step.usePing_eq unused).symm.trans isOn) timer
  rcases step.view_step unused stop alive timer with same | moved
  · rw [same]
    exact inv
  · exact inv.step moved

theorem Supervised.tick (before : Supervised c) (tick : Tick c c') : Supervised c' := by
  have same : c'.usePing = c.usePing ∧ c'.isOpen = c.isOpen ∧
      Heartbeat.reads c' = Heartbeat.reads c := by
    cases tick
    exact ⟨rfl, rfl, rfl⟩
  refine ⟨same.2.1.trans before.isOpen, same.2.2.trans before.reads, fun isOn timer => ?_⟩
  exact (before.timers (same.1.symm.trans isOn) timer).step (tick.view_step timer)

theorem Reachable.inv (reachable : Reachable c) :
    (c.stopTimers = true → c.gaveUp = true) ∧ (c.gaveUp = false → Supervised c) := by
  induction reachable with
  | start => exact ⟨fun stopped => stopped, fun _ => supervised_start _ _⟩
  | @step c c' reachable step ih =>
    have unused := reachable.unused
    rcases step.gaveUp_or unused with ⟨gaveUp, -⟩ | ⟨gaveUp, stopTimers, -⟩
    · exact ⟨fun _ => gaveUp, fun alive => absurd (gaveUp.symm.trans alive) (by simp)⟩
    · refine ⟨fun stopped => ?_, fun alive => ?_⟩
      · rw [gaveUp]
        exact ih.1 (stopTimers ▸ stopped)
      · exact (ih.2 (gaveUp.symm.trans alive)).step unused ih.1 step alive
  | tick _ tick ih =>
    cases tick with
    | tick idle early =>
      exact ⟨ih.1, fun alive => (ih.2 alive).tick (.tick idle early)⟩

/-! ## What the timers are for -/

/-- The operations of a timer that have not come to their end. -/
def outstanding (c : Connection) (timer : Timer) : Nat :=
  (c.waits timer).isSome.toNat + c.ready (.ping timer true) + c.ready (.ping timer false)

/-- What a connection promises that was not given up. -/
structure KeptAlive (c : Connection) : Prop where
  isOpen : c.isOpen = true
  /-- One read is under way, and one wait of each timer where timers are used. -/
  reads : reads c = 1
  timers : ∀ timer, outstanding c timer = c.usePing.toNat
  /-- The client was heard in the last `PING_TIMEOUT`. -/
  heard : c.usePing = true → ∃ a ∈ c.heard, c.now ≤ a + period .receive
  /-- A write has completed or a ping was begun in the last `PING_DELAY`. -/
  wrote : c.usePing = true → ∃ a ∈ c.wrote, c.now ≤ a + period .send

theorem outstanding_eq (timer : Timer) : outstanding c timer = (view c timer).outstanding := by
  cases timer <;> rfl

theorem Unused.outstanding (unused : Unused c) (timer : Timer) :
    Heartbeat.outstanding c timer = 0 := by
  obtain ⟨waits, ready⟩ := unused timer
  rw [Heartbeat.outstanding, waits, ready, ready]
  rfl

theorem Supervised.keptAlive (supervised : Supervised c) (unused : c.usePing = false → Unused c) :
    KeptAlive c where
  isOpen := supervised.isOpen
  reads := supervised.reads
  timers timer := by
    cases usePing : c.usePing with
    | true => exact (outstanding_eq timer).trans (supervised.timers usePing timer).outstanding
    | false => exact (unused usePing).outstanding timer
  heard isOn := (supervised.timers isOn .receive).heard
  wrote isOn := (supervised.timers isOn .send).heard

/-- The connection is given up because of an error of the socket, or, where timers are used, because
nothing was received for a whole `PING_TIMEOUT`, apart from what arrives at the very end. -/
theorem gaveUp_cause (supervised : Supervised c) (unused : c.usePing = false → Unused c)
    (step : Step c c') (gaveUp : c'.gaveUp = true) (still : c.gaveUp = false) :
    (0 < c.ready (.read true) ∨ 0 < c.ready (.write true)) ∨
      c.usePing = true ∧ ∀ a ∈ c.heard, a + period .receive ≤ c.now ∨ a = c.now := by
  rcases step.gaveUp_or unused with ⟨-, cause⟩ | ⟨same, -⟩
  · refine cause.imp_right fun expired => ?_
    cases usePing : c.usePing with
    | true => exact ⟨rfl, ((supervised.timers usePing .receive).expired expired).2⟩
    | false =>
      rw [(unused usePing .receive).2 false] at expired
      cases expired
  · rw [same, still] at gaveUp
    cases gaveUp

/-- However the handlers and the clock take their turns, a connection is kept alive until there is
an error or, where timers are used, the client has been silent for the whole time. -/
theorem supervised_run (reachable : Reachable c) (alive : c.gaveUp = false) :
    KeptAlive c ∧ ∀ c', Step c c' → c'.gaveUp = true →
      (0 < c.ready (.read true) ∨ 0 < c.ready (.write true)) ∨
        c.usePing = true ∧ ∀ a ∈ c.heard, a + period .receive ≤ c.now ∨ a = c.now := by
  have supervised := reachable.inv.2 alive
  exact ⟨supervised.keptAlive reachable.unused,
    fun c' step gaveUp => gaveUp_cause supervised reachable.unused step gaveUp alive⟩

/-- A packet was received one millisecond after the start, and its handler has made the timer start
once more. -/
theorem exists_restarted : ∃ c, Reachable c ∧ c.usePing = true ∧ c.gaveUp = false ∧
    c.now = 8 ∧ c.heard = [8, 7] ∧ c.waits .receive = some 125008 := by
  have started : Reachable (start true 7) := .start
  have ticked := started.tick (.tick (fun _ => rfl) fun timer deadline waits => by
    cases timer <;> cases waits <;> decide)
  have received := ticked.step (.receive rfl)
  have handled := received.step (@Step.run _ (.read false) false Nat.zero_lt_one)
  have restarted := handled.step (@Step.run _ (.ping .receive true) false Nat.zero_lt_one)
  exact ⟨_, restarted, rfl, rfl, rfl, rfl, rfl⟩

theorem restarted_keptAlive : ∃ c, c.heard = [8, 7] ∧ c.waits .receive = some 125008 ∧
    KeptAlive c ∧ ∀ c', Step c c' → c'.gaveUp = true →
      (0 < c.ready (.read true) ∨ 0 < c.ready (.write true)) ∨
        c.usePing = true ∧ ∀ a ∈ c.heard, a + period .receive ≤ c.now ∨ a = c.now := by
  obtain ⟨c, reachable, -, alive, -, heard, waits⟩ := exists_restarted
  exact ⟨c, heard, waits, supervised_run reachable alive⟩

end TRex.Heartbeat
