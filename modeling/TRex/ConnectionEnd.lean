import TRex.Heartbeat

/-!
# The end of a connection

The handlers of a connection keep it in memory: it is deleted, with its listeners, when none is
outstanding. On an error of the socket the timers are cancelled, and their handlers start them once
more; that ends when they expire and find `stopTimers` set. Where the socket was closed because the
client was silent, it is the read, now failed, that sets it. If a packet has arrived in the same
instant there is no such read: its handler runs on the closed socket, no read follows, nothing sets
`stopTimers`, and the connection goes on sending pings that `asyncWrite` drops (`closed_run`).
-/

namespace TRex.Heartbeat

variable {c c' c₀ : Connection}

/-! ## Waits -/

@[simp] theorem outstanding_cancel (timer other : Timer) :
    outstanding (c.cancel timer) other = outstanding c other := by
  cases timer <;> cases other <;> simp [outstanding, Connection.cancel] <;> omega

theorem outstanding_startPing (timer other : Timer) :
    outstanding (c.startPing timer) other =
      outstanding c other + if other = timer then 1 else 0 := by
  have cancelled := outstanding_cancel (c := c) timer other
  simp only [outstanding, Connection.startPing] at cancelled ⊢
  cases timer <;> cases other <;> simp [Connection.cancel] at cancelled ⊢ <;> omega

@[simp] theorem outstanding_asyncWrite (timer : Timer) :
    outstanding c.asyncWrite timer = outstanding c timer := by
  unfold Connection.asyncWrite
  split <;> rfl

@[simp] theorem outstanding_asyncReadSome (timer : Timer) :
    outstanding c.asyncReadSome timer = outstanding c timer := by
  unfold Connection.asyncReadSome
  split <;> rfl

@[simp] theorem outstanding_closeSocket (throws : Bool) (timer : Timer) :
    outstanding (c.closeSocket throws) timer = outstanding c timer := by
  unfold Connection.closeSocket
  dsimp only
  split
  · simp [outstanding, Connection.abort]
  · rfl

@[simp] theorem outstanding_giveUp (throws : Bool) (timer : Timer) :
    outstanding (c.giveUp throws) timer = outstanding c timer := by
  unfold Connection.giveUp
  simp only [outstanding_cancel]
  exact outstanding_closeSocket throws timer

theorem waits_cancel {timer other : Timer} {deadline : Nat}
    (waits : (c.cancel timer).waits other = some deadline) : c.waits other = some deadline := by
  by_cases same : other = timer
  · subst same
    simp [Connection.cancel] at waits
  · simpa [Connection.cancel, Function.update_of_ne same] using waits

theorem waits_startPing {timer other : Timer} {deadline : Nat}
    (waits : (c.startPing timer).waits other = some deadline) :
    other = timer ∧ deadline = c.now + period timer ∨ c.waits other = some deadline := by
  by_cases same : other = timer
  · subst same
    refine .inl ⟨rfl, ?_⟩
    simp only [Connection.startPing, Function.update_self, Option.some.injEq] at waits
    exact waits.symm
  · simp only [Connection.startPing, Function.update_of_ne same] at waits
    exact .inr (waits_cancel waits)

@[simp] theorem stopTimers_closeSocket (throws : Bool) :
    (c.closeSocket throws).stopTimers = c.stopTimers := by
  unfold Connection.closeSocket
  dsimp only
  split <;> rfl

theorem waits_giveUp {throws : Bool} {timer : Timer} {deadline : Nat}
    (waits : (c.giveUp throws).waits timer = some deadline) : c.waits timer = some deadline := by
  have before := waits_cancel (waits_cancel waits)
  simpa using before

/-- The operations of the socket have come to their end. -/
def Quiet (c : Connection) : Prop := c.reading = false ∧ c.writing = 0

/-- What holds of a connection at any time. -/
structure Bounded (c : Connection) : Prop where
  unused : c.usePing = false → Unused c
  alone : ∀ timer, outstanding c timer ≤ 1
  sending : c.usePing = true → c.stopTimers = false → outstanding c .send = 1
  deadline : ∀ timer deadline, c.waits timer = some deadline →
    c.now ≤ deadline ∧ deadline ≤ c.now + period timer
  closed : c.isOpen = false → Quiet c

theorem bounded_start (usePing : Bool) (now : Nat) : Bounded (start usePing now) := by
  have unused : Reachable (start usePing now) := .start
  refine ⟨unused.unused, fun timer => ?_, fun isOn _ => ?_, fun timer deadline waits => ?_,
    fun closed => ?_⟩
  · cases usePing with
    | true => exact Nat.le_refl 1
    | false => exact Nat.zero_le 1
  · cases isOn
    rfl
  · cases usePing with
    | true =>
      cases waits
      exact ⟨Nat.le_add_right _ _, Nat.le_refl _⟩
    | false => cases waits
  · cases closed

theorem quiet_closeSocket {throws : Bool} (quiet : c.isOpen = false → Quiet c)
    (closed : (c.closeSocket throws).isOpen = false) : Quiet (c.closeSocket throws) := by
  unfold Connection.closeSocket at closed ⊢
  dsimp only at closed ⊢
  split
  · exact ⟨rfl, rfl⟩
  case isFalse stays =>
    rw [if_neg stays] at closed
    exact quiet closed

/-- What is left of the bounds when a handler has been taken from the ready ones. -/
structure BoundedBut (h : Handler) (c : Connection) : Prop where
  others : ∀ timer, outstanding c timer ≤ 1
  own : ∀ timer aborted, h = .ping timer aborted → outstanding c timer = 0
  sending : c.usePing = true → c.stopTimers = false → (∀ aborted, h ≠ .ping .send aborted) →
    outstanding c .send = 1
  deadline : ∀ timer deadline, c.waits timer = some deadline →
    c.now ≤ deadline ∧ deadline ≤ c.now + period timer
  closed : c.isOpen = false → Quiet c

namespace BoundedBut

theorem giveUp {h : Handler} (found : BoundedBut h c) (throws : Bool)
    (unused : (c.giveUp throws).usePing = false → Unused (c.giveUp throws)) :
    Bounded (c.giveUp throws) := by
  refine ⟨unused, fun timer => ?_, fun isOn running => ?_, fun timer d waits => ?_,
    fun isClosed => ?_⟩
  · rw [outstanding_giveUp]
    exact found.others timer
  · cases running
  · have same : (c.giveUp throws).now = c.now := now_closeSocket throws
    rw [same]
    exact found.deadline timer d (waits_giveUp waits)
  · exact quiet_closeSocket found.closed isClosed

theorem asyncReadSome (found : BoundedBut (.read false) c)
    (unused : (c.cancel .receive).asyncReadSome.usePing = false →
      Unused (c.cancel .receive).asyncReadSome)
    (usePing : (c.cancel .receive).asyncReadSome.usePing = c.usePing) :
    Bounded (c.cancel .receive).asyncReadSome := by
  have kept : (c.cancel .receive).asyncReadSome.stopTimers = c.stopTimers ∧
      (c.cancel .receive).asyncReadSome.now = c.now ∧
      (c.cancel .receive).asyncReadSome.waits = (c.cancel .receive).waits := by
    unfold Connection.asyncReadSome
    split <;> exact ⟨rfl, rfl, rfl⟩
  obtain ⟨stopTimers, now, waits'⟩ := kept
  refine ⟨unused, fun timer => ?_, fun isOn running => ?_, fun timer d waits => ?_,
    fun isClosed => ?_⟩
  · simpa using found.others timer
  · simpa using found.sending (usePing.symm.trans isOn) (stopTimers.symm.trans running) (by simp)
  · rw [now]
    rw [waits'] at waits
    exact found.deadline timer d (waits_cancel waits)
  · unfold Connection.asyncReadSome at isClosed ⊢
    split
    case isTrue isOpen =>
      rw [if_pos isOpen] at isClosed
      exact absurd (isOpen.symm.trans isClosed) (by simp)
    case isFalse isOpen =>
      rw [if_neg isOpen] at isClosed
      exact found.closed isClosed

theorem cancel (found : BoundedBut (.write false) c)
    (unused : (c.cancel .send).usePing = false → Unused (c.cancel .send))
    (usePing : (c.cancel .send).usePing = c.usePing) : Bounded (c.cancel .send) := by
  refine ⟨unused, fun timer => ?_, fun isOn running => ?_, fun timer d waits => ?_, found.closed⟩
  · simpa using found.others timer
  · simpa using found.sending (usePing.symm.trans isOn) running (by simp)
  · exact found.deadline timer d (waits_cancel waits)

theorem startPing {timer : Timer} (found : BoundedBut (.ping timer true) c)
    (unused : (c.startPing timer).usePing = false → Unused (c.startPing timer))
    (usePing : (c.startPing timer).usePing = c.usePing) : Bounded (c.startPing timer) := by
  refine ⟨unused, fun other => ?_, fun isOn running => ?_, fun other d waits => ?_, found.closed⟩
  · rw [outstanding_startPing]
    split
    case isTrue same =>
      rw [same]
      exact Nat.succ_le_succ (Nat.le_of_eq (found.own timer true rfl))
    case isFalse => exact found.others other
  · rw [outstanding_startPing]
    split
    case isTrue same => rw [same, found.own timer true rfl]
    case isFalse other =>
      exact found.sending (usePing.symm.trans isOn) running
        (by simpa using fun same => other same.symm)
  · rcases waits_startPing waits with ⟨rfl, rfl⟩ | before
    · exact ⟨Nat.le_add_right _ _, Nat.le_refl _⟩
    · exact found.deadline other d before

theorem closeSocket (found : BoundedBut (.ping .receive false) c) (throws : Bool)
    (unused : (c.closeSocket throws).usePing = false → Unused (c.closeSocket throws)) :
    Bounded (c.closeSocket throws) := by
  refine ⟨unused, fun timer => ?_, fun isOn running => ?_, fun timer d waits => ?_,
    fun isClosed => ?_⟩
  · rw [outstanding_closeSocket]
    exact found.others timer
  · rw [stopTimers_closeSocket] at running
    rw [usePing_closeSocket] at isOn
    rw [outstanding_closeSocket]
    exact found.sending isOn running (by simp)
  · rw [waits_closeSocket] at waits
    rw [now_closeSocket]
    exact found.deadline timer d waits
  · exact quiet_closeSocket found.closed isClosed

theorem sendPing (found : BoundedBut (.ping .send false) c) {after : Connection}
    (sent : after = ({ c with wrote := c.now :: c.wrote }.asyncWrite).startPing .send)
    (unused : after.usePing = false → Unused after) : Bounded after := by
  subst sent
  have kept : ∀ c : Connection, c.asyncWrite.now = c.now ∧ c.asyncWrite.waits = c.waits ∧
      c.asyncWrite.isOpen = c.isOpen := by
    intro c
    unfold Connection.asyncWrite
    split <;> exact ⟨rfl, rfl, rfl⟩
  obtain ⟨now, waits', isOpen⟩ := kept { c with wrote := c.now :: c.wrote }
  refine ⟨unused, fun timer => ?_, fun _ _ => ?_, fun timer d waits => ?_, fun isClosed => ?_⟩
  · rw [outstanding_startPing, outstanding_asyncWrite]
    split
    case isTrue same =>
      rw [same]
      exact Nat.le_of_eq (congrArg (· + 1) (found.own .send false rfl))
    case isFalse => exact found.others timer
  · rw [outstanding_startPing, outstanding_asyncWrite, if_pos rfl]
    exact congrArg (· + 1) (found.own .send false rfl)
  · rcases waits_startPing waits with ⟨rfl, rfl⟩ | before
    · exact ⟨Nat.le_add_right _ _, Nat.le_refl _⟩
    · rw [waits'] at before
      have bounds := found.deadline timer d before
      rwa [← now] at bounds
  · have stays : c.isOpen = false := isOpen.symm.trans isClosed
    have dropped : ({ c with wrote := c.now :: c.wrote } : Connection).asyncWrite =
        { c with wrote := c.now :: c.wrote } := if_neg (by simp [stays])
    rw [dropped]
    exact found.closed stays

end BoundedBut

theorem Handled.bounded {h : Handler} {after : Connection} (handled : Handled c h after)
    (unused : after.usePing = false → Unused after) (usePing : after.usePing = c.usePing)
    (found : BoundedBut h c) : Bounded after := by
  cases handled with
  | failed throws error => exact found.giveUp throws unused
  | heard => exact found.asyncReadSome unused usePing
  | written => exact found.cancel unused usePing
  | cancelled => exact found.startPing unused usePing
  | stopped stop =>
    exact ⟨unused, found.others, fun _ running => absurd (stop.symm.trans running) (by simp),
      found.deadline, found.closed⟩
  | silent throws running => exact found.closeSocket throws unused
  | quiet running => exact found.sendPing rfl unused

/-- What a handler finds that is taken from the ready ones. -/
theorem outstanding_run {h : Handler} (ready : 0 < c.ready h) (timer : Timer) :
    outstanding (c.take h) timer +
        (if ∃ aborted, h = .ping timer aborted then 1 else 0) = outstanding c timer := by
  cases h with
  | read error => simp [outstanding, Connection.take]
  | write error => simp [outstanding, Connection.take]
  | ping which aborted =>
    by_cases same : timer = which
    · subst same
      cases aborted <;> simp [outstanding, Connection.take] <;> omega
    · have other : ¬ which = timer := fun is => same is.symm
      simp [outstanding, Connection.take, other, same]

theorem Bounded.step (before : Bounded c) (step : Step c c') : Bounded c' := by
  have usePing := step.usePing_eq before.unused
  have unused : c'.usePing = false → Unused c' := fun off =>
    step.unused (before.unused (usePing.symm.trans off))
  cases step with
  | receive reading | failToReceive reading =>
    refine ⟨unused, fun timer => ?_, fun isOn running => ?_, before.deadline, fun closed => ?_⟩
    · simpa [outstanding, Connection.complete] using before.alone timer
    · simpa [outstanding, Connection.complete] using before.sending
        (usePing.symm.trans isOn) running
    · exact ⟨rfl, (before.closed closed).2⟩
  | written writing | failToWrite writing =>
    refine ⟨unused, fun timer => ?_, fun isOn running => ?_, before.deadline, fun closed => ?_⟩
    · simpa [outstanding, Connection.complete] using before.alone timer
    · simpa [outstanding, Connection.complete] using before.sending
        (usePing.symm.trans isOn) running
    · rw [(before.closed closed).2] at writing
      cases writing
  | write isOpen =>
    have writes : c.asyncWrite = { c with writing := c.writing + 1 } := if_pos isOpen
    rw [writes] at unused ⊢
    exact ⟨unused, before.alone, before.sending, before.deadline,
      fun closed => absurd (isOpen.symm.trans closed) (by simp)⟩
  | @expire which d waits due =>
    have moved : ∀ timer, outstanding
        ({ c with waits := Function.update c.waits which none }.complete (.ping which false) 1)
        timer = outstanding c timer := by
      intro timer
      by_cases same : timer = which
      · subst same
        simp [outstanding, Connection.complete, waits]
        omega
      · simp [outstanding, Connection.complete, same]
    refine ⟨unused, fun timer => ?_, fun isOn running => ?_, fun timer d waits => ?_, before.closed⟩
    · rw [moved]
      exact before.alone timer
    · rw [moved]
      exact before.sending (usePing.symm.trans isOn) running
    · by_cases same : timer = which
      · subst same
        simp [Connection.complete] at waits
      · simp only [Connection.complete, Function.update_of_ne same] at waits
        exact before.deadline timer d waits
  | @run h throws ready =>
    have found := outstanding_run ready
    refine (handled_take before.unused throws ready).bounded unused usePing
      ⟨fun timer => ?_, fun timer aborted same => ?_, fun isOn running other => ?_,
        before.deadline, before.closed⟩
    · have le := before.alone timer
      have split := found timer
      omega
    · have le := before.alone timer
      have split := found timer
      rw [if_pos ⟨aborted, same⟩] at split
      omega
    · have split := found .send
      rw [if_neg fun is => other is.choose is.choose_spec] at split
      exact split.trans (before.sending isOn running)

theorem Bounded.tick (before : Bounded c) (tick : Tick c c') : Bounded c' := by
  cases tick with
  | tick idle early =>
    refine ⟨before.unused, before.alone, before.sending,
      fun timer d waits => ⟨early timer d waits, ?_⟩, before.closed⟩
    have le := (before.deadline timer d waits).2
    show d ≤ c.now + 1 + period timer
    omega

theorem Reachable.bounded (reachable : Reachable c) : Bounded c := by
  induction reachable with
  | start => exact bounded_start _ _
  | step _ step ih => exact ih.step step
  | tick _ tick ih => exact ih.tick tick

/-- Without timers the socket is closed by a handler that has noticed an error. -/
theorem Step.noticed (unused : Unused c) (before : c.isOpen = false → c.stopTimers = true)
    (step : Step c c') (closed : c'.isOpen = false) : c'.stopTimers = true := by
  cases step with
  | receive | failToReceive | written | failToWrite | expire => exact before closed
  | write =>
    obtain ⟨-, stopTimers, isOpen⟩ := decided_asyncWrite (c := c)
    exact stopTimers.trans (before (isOpen.symm.trans closed))
  | @run h throws ready =>
    have notPing : ∀ timer aborted, h ≠ .ping timer aborted := by
      rintro timer aborted rfl
      rw [(unused timer).2 aborted] at ready
      cases ready
    have effect := handled_take (fun _ => unused) throws ready
    generalize (c.take h).handle throws h = after at effect closed ⊢
    cases effect with
    | failed => rfl
    | heard =>
      unfold Connection.asyncReadSome at closed ⊢
      split
      case isTrue isOpen =>
        rw [if_pos isOpen] at closed
        exact absurd (isOpen.symm.trans closed) (by simp)
      case isFalse isOpen =>
        rw [if_neg isOpen] at closed
        exact before closed
    | written => exact before closed
    | cancelled | stopped | silent | quiet => exact absurd rfl (notPing _ _)

theorem Reachable.noticed (reachable : Reachable c) (off : c.usePing = false)
    (closed : c.isOpen = false) : c.stopTimers = true := by
  induction reachable with
  | start => cases closed
  | @step c c' reachable step ih =>
    have isOff := (step.usePing_eq reachable.unused).symm.trans off
    exact step.noticed (reachable.unused isOff) (ih isOff) closed
  | tick _ tick ih =>
    cases tick
    exact ih off closed

/-! ## After the socket was closed -/

/-- No handler is outstanding any more. -/
structure Ended (c : Connection) : Prop where
  reading : c.reading = false
  writing : c.writing = 0
  waits : ∀ timer, c.waits timer = none
  ready : ∀ h, c.ready h = 0

/-- A connection at a later time, after a number of steps. -/
inductive Later (c₀ : Connection) : Nat → Connection → Prop
  | refl : Later c₀ 0 c₀
  | step {n : Nat} {c c' : Connection} (later : Later c₀ n c) (step : Step c c') :
      Later c₀ (n + 1) c'
  | tick {n : Nat} {c c' : Connection} (later : Later c₀ n c) (tick : Tick c c') : Later c₀ n c'

def timerWork (c : Connection) (timer : Timer) : Nat :=
  2 * (c.waits timer).isSome.toNat + 3 * c.ready (.ping timer true) + c.ready (.ping timer false)

/-- A bound for the steps that are left. -/
def work (c : Connection) : Nat :=
  4 * (c.ready (.read false) + c.ready (.read true) + c.ready (.write false) +
    c.ready (.write true)) + timerWork c .receive + timerWork c .send

def due (now : Nat) : Option Nat → Nat
  | some deadline => if deadline ≤ now then 1 else 0
  | none => 0

/-- Until the timers are stopped a ping can be begun once more. -/
def spare (c : Connection) : Nat :=
  if c.stopTimers then 0 else 2 * (c.ready (.ping .send false) + due c.now (c.waits .send))

/-- An error has been noticed or will be. -/
def Doomed (c : Connection) : Prop :=
  c.stopTimers = true ∨ 0 < c.ready (.read true) ∨ 0 < c.ready (.write true)

theorem work_cancel (timer : Timer) : work (c.cancel timer) ≤ work c + 1 := by
  have isSome := Bool.toNat_le (c.waits timer).isSome
  cases timer with
  | receive =>
    simp [work, timerWork, Connection.cancel]
    omega
  | send =>
    simp [work, timerWork, Connection.cancel]
    omega

/-- Starting a wait where there is none. -/
theorem work_startPing {timer : Timer} (alone : outstanding c timer = 0) :
    work (c.startPing timer) = work c + 2 := by
  simp only [outstanding] at alone
  cases timer with
  | receive =>
    simp [work, timerWork, Connection.startPing, Connection.cancel]
    omega
  | send =>
    simp [work, timerWork, Connection.startPing, Connection.cancel]
    omega

/-- What the handler at hand counts for. -/
def weight : Handler → Nat
  | .read _ | .write _ => 4
  | .ping _ true => 3
  | .ping _ false => 1

theorem work_take {h : Handler} (ready : 0 < c.ready h) : work (c.take h) + weight h = work c := by
  cases h with
  | read error | write error =>
    cases error <;> simp [work, timerWork, weight, Connection.take] <;> omega
  | ping timer aborted =>
    cases timer <;> cases aborted <;> simp [work, timerWork, weight, Connection.take] <;> omega

/-! ### One step -/

/-- What can happen when the socket is closed. -/
inductive ClosedStep (c : Connection) : Connection → Prop
  | expire {timer : Timer} {deadline : Nat} (waits : c.waits timer = some deadline)
      (due : deadline ≤ c.now) :
      ClosedStep c ({ c with waits := Function.update c.waits timer none }.complete
        (.ping timer false) 1)
  | failed {h : Handler} (ready : 0 < c.ready h) (error : h = .read true ∨ h = .write true) :
      ClosedStep c
        (({ c.take h with gaveUp := true, stopTimers := true }.cancel .receive).cancel .send)
  | signed {h : Handler} {timer : Timer} (ready : 0 < c.ready h)
      (sign : h = .read false ∨ h = .write false) : ClosedStep c ((c.take h).cancel timer)
  | cancelled {timer : Timer} (ready : 0 < c.ready (.ping timer true)) :
      ClosedStep c ((c.take (.ping timer true)).startPing timer)
  | stopped {timer : Timer} (ready : 0 < c.ready (.ping timer false)) (stop : c.stopTimers = true) :
      ClosedStep c (c.take (.ping timer false))
  | silent (ready : 0 < c.ready (.ping .receive false)) (running : c.stopTimers = false) :
      ClosedStep c { c.take (.ping .receive false) with gaveUp := true }
  | quiet (ready : 0 < c.ready (.ping .send false)) (running : c.stopTimers = false) :
      ClosedStep c
        ({ c.take (.ping .send false) with wrote := c.now :: c.wrote }.startPing .send)

theorem asyncWrite_closed (closed : c.isOpen = false) : c.asyncWrite = c :=
  if_neg (by simp [closed])

theorem asyncReadSome_closed (closed : c.isOpen = false) : c.asyncReadSome = c :=
  if_neg (by simp [closed])

theorem closeSocket_closed (closed : c.isOpen = false) (throws : Bool) :
    c.closeSocket throws = { c with gaveUp := true } := by
  simp [Connection.closeSocket, closed]

theorem Step.closed (step : Step c c') (bounded : Bounded c) (closed : c.isOpen = false) :
    ClosedStep c c' := by
  obtain ⟨noRead, noWrite⟩ := bounded.closed closed
  cases step with
  | receive reading | failToReceive reading => exact absurd (reading.symm.trans noRead) (by simp)
  | written writing | failToWrite writing =>
    rw [noWrite] at writing
    cases writing
  | write isOpen => exact absurd (isOpen.symm.trans closed) (by simp)
  | expire waits due => exact .expire waits due
  | @run h throws ready =>
    have taken : (c.take h).isOpen = false := closed
    have handled := handled_take bounded.unused throws ready
    generalize (c.take h).handle throws h = after at handled ⊢
    cases handled with
    | failed throws error =>
      unfold Connection.giveUp
      rw [closeSocket_closed taken]
      exact .failed ready error
    | heard =>
      rw [asyncReadSome_closed (by exact taken)]
      exact .signed ready (.inl rfl)
    | written => exact .signed ready (.inr rfl)
    | cancelled => exact .cancelled ready
    | stopped stop => exact .stopped ready stop
    | silent throws running =>
      rw [closeSocket_closed taken]
      exact .silent ready running
    | quiet running =>
      rw [asyncWrite_closed (by exact taken)]
      exact .quiet ready running

/-- A step neither opens the socket nor moves the clock. An error that is noticed was there
before. -/
theorem ClosedStep.kept (step : ClosedStep c c') : c'.isOpen = c.isOpen ∧ c'.now = c.now ∧
    (Doomed c ∧ c'.stopTimers = true ∨ c'.stopTimers = c.stopTimers ∧
      c'.ready (.read true) = c.ready (.read true) ∧
      c'.ready (.write true) = c.ready (.write true)) := by
  cases step with
  | failed ready error =>
    refine ⟨rfl, rfl, .inl ⟨.inr ?_, rfl⟩⟩
    rcases error with rfl | rfl
    · exact .inl ready
    · exact .inr ready
  | @signed h timer ready sign =>
    refine ⟨rfl, rfl, .inr ⟨rfl, ?_⟩⟩
    rcases sign with rfl | rfl <;> simp [Connection.take, Connection.cancel]
  | expire | cancelled | stopped | silent | quiet =>
    exact ⟨rfl, rfl, .inr ⟨rfl, by
      simp [Connection.take, Connection.startPing, Connection.cancel, Connection.complete]⟩⟩

theorem ClosedStep.doomed_iff (step : ClosedStep c c') : Doomed c' ↔ Doomed c := by
  rcases step.kept.2.2 with ⟨doomed, stop⟩ | ⟨stop, read, write⟩
  · exact ⟨fun _ => doomed, fun _ => .inl stop⟩
  · simp only [Doomed, stop, read, write]

/-- A wait that was just started is not due. -/
theorem spare_startPing {timer : Timer} (alone : outstanding c timer = 0) :
    spare (c.startPing timer) ≤ spare c := by
  unfold spare
  cases timer with
  | receive => simp [Connection.startPing, Connection.cancel]
  | send =>
    have later : due c.now (some (c.now + period .send)) = 0 :=
      if_neg (Nat.not_le.mpr (Nat.lt_add_of_pos_right (Nat.zero_lt_succ _)))
    simp only [Connection.startPing, Connection.cancel, Function.update_self, later]
    split
    · exact Nat.le_refl _
    · exact Nat.mul_le_mul_left 2 (Nat.le_add_right _ _)

theorem spare_cancel (timer : Timer) : spare (c.cancel timer) ≤ spare c := by
  unfold spare
  cases timer with
  | receive => simp [Connection.cancel]
  | send =>
    simp only [Connection.cancel, Function.update_self, due]
    split
    · exact Nat.le_refl _
    · exact Nat.mul_le_mul_left 2 (Nat.le_add_right _ _)

theorem Bounded.take (bounded : Bounded c) {timer : Timer} {aborted : Bool}
    (ready : 0 < c.ready (.ping timer aborted)) :
    outstanding (c.take (.ping timer aborted)) timer = 0 := by
  have before := outstanding_run ready timer
  have le := bounded.alone timer
  rw [if_pos ⟨aborted, rfl⟩] at before
  omega

/-- What is left to do gets less with each step. -/
theorem ClosedStep.work_lt (step : ClosedStep c c') (bounded : Bounded c) :
    work c' + spare c' < work c + spare c := by
  cases step with
  | @expire timer d waits isDue =>
    cases timer with
    | receive =>
      simp [work, timerWork, spare, Connection.complete, waits]
      omega
    | send =>
      simp [work, timerWork, spare, due, Connection.complete, waits, isDue]
      omega
  | @failed h ready error =>
    have taken := work_take ready
    have four : weight h = 4 := by rcases error with rfl | rfl <;> rfl
    have receive := work_cancel (c := { c.take h with gaveUp := true, stopTimers := true }) .receive
    have send := work_cancel
      (c := { c.take h with gaveUp := true, stopTimers := true }.cancel .receive) .send
    have none' : spare
      (({ c.take h with gaveUp := true, stopTimers := true }.cancel .receive).cancel .send) = 0 :=
      rfl
    have same : work { c.take h with gaveUp := true, stopTimers := true } = work (c.take h) := rfl
    omega
  | @signed h timer ready sign =>
    have taken := work_take ready
    have cancelled := work_cancel (c := c.take h) timer
    have saved := spare_cancel (c := c.take h) timer
    have same : weight h = 4 ∧ spare (c.take h) = spare c := by
      rcases sign with rfl | rfl <;> exact ⟨rfl, by simp [spare, Connection.take]⟩
    omega
  | @cancelled timer ready =>
    have alone := bounded.take ready
    have taken := work_take ready
    have started := work_startPing alone
    have saved := spare_startPing alone
    have same : spare (c.take (.ping timer true)) = spare c := by simp [spare, Connection.take]
    simp only [weight] at taken
    omega
  | @stopped timer ready stop =>
    have taken := work_take ready
    have none' : spare (c.take (.ping timer false)) = 0 := by simp [spare, Connection.take, stop]
    simp only [weight] at taken
    omega
  | silent ready running =>
    have taken := work_take ready
    have same : work { c.take (.ping .receive false) with gaveUp := true } =
      work (c.take (.ping .receive false)) := rfl
    have saved : spare { c.take (.ping .receive false) with gaveUp := true } = spare c := by
      simp [spare, Connection.take]
    simp only [weight] at taken
    omega
  | quiet ready running =>
    have alone := bounded.take ready
    have taken := work_take ready
    have started := work_startPing
      (c := { c.take (.ping .send false) with wrote := c.now :: c.wrote }) alone
    have saved := spare_startPing
      (c := { c.take (.ping .send false) with wrote := c.now :: c.wrote }) alone
    have same : work { c.take (.ping .send false) with wrote := c.now :: c.wrote } =
      work (c.take (.ping .send false)) := rfl
    have less : spare { c.take (.ping .send false) with wrote := c.now :: c.wrote } + 2 ≤
        spare c := by
      simp [spare, Connection.take, running]
      omega
    simp only [weight] at taken
    omega

/-! ### A whole run -/

/-- A connection that comes to its end since `c₀`. -/
structure Ending (c₀ c : Connection) : Prop where
  isOpen : c.isOpen = false
  doomed : Doomed c
  rest : c.now = c₀.now ∨
    c.stopTimers = true ∧ ∀ h, (∀ timer, h ≠ .ping timer false) → c.ready h = 0
  waits : ∀ timer deadline, c.waits timer = some deadline → deadline ≤ c₀.now + period timer
  expired : ∀ timer, 0 < c.ready (.ping timer false) → c.now ≤ c₀.now + period timer

theorem Ending.refl (bounded : Bounded c₀) (closed : c₀.isOpen = false) (doomed : Doomed c₀) :
    Ending c₀ c₀ where
  isOpen := closed
  doomed := doomed
  rest := .inl rfl
  waits timer deadline waits := (bounded.deadline timer deadline waits).2
  expired _ _ := Nat.le_add_right _ _

theorem Ending.step (before : Ending c₀ c) (bounded : Bounded c) (after : Bounded c')
    (step : ClosedStep c c') : Ending c₀ c' := by
  have doomed := step.doomed_iff.mpr before.doomed
  obtain ⟨isOpen, now, -⟩ := step.kept
  have isOpen := isOpen.trans before.isOpen
  rcases before.rest with here | ⟨stop, rest⟩
  · have here := now.trans here
    refine ⟨isOpen, doomed, .inl here, fun timer deadline waits => ?_, fun timer _ => ?_⟩
    · exact here ▸ (after.deadline timer deadline waits).2
    · exact here ▸ Nat.le_add_right _ _
  -- The timers have been stopped: a wait expires or its handler ends.
  · have none' : ∀ {h : Handler}, 0 < c.ready h → ∃ timer, h = .ping timer false := by
      intro h ready
      by_contra other
      exact absurd (rest h fun timer is => other ⟨timer, is⟩) (Nat.ne_of_gt ready)
    cases step with
    | @expire which d waits due =>
      refine ⟨isOpen, doomed, .inr ⟨stop, fun h other => ?_⟩, fun timer deadline waits' => ?_,
        fun timer expired => ?_⟩
      · simp only [Connection.complete, Function.update_of_ne (other which)]
        exact rest h other
      · by_cases same : timer = which
        · subst same
          simp [Connection.complete] at waits'
        · simp only [Connection.complete, Function.update_of_ne same] at waits'
          exact before.waits timer deadline waits'
      · by_cases same : timer = which
        · subst same
          exact Nat.le_trans (bounded.deadline timer d waits).1 (before.waits timer d waits)
        · simp [Connection.complete, same] at expired
          exact before.expired timer expired
    | @stopped which ready =>
      refine ⟨isOpen, doomed, .inr ⟨stop, fun h other => ?_⟩, before.waits, fun timer expired => ?_⟩
      · simp only [Connection.take, Function.update_of_ne (other which)]
        exact rest h other
      · by_cases same : timer = which
        · subst same
          exact before.expired timer ready
        · simp [Connection.take, same] at expired
          exact before.expired timer expired
    | failed ready error =>
      obtain ⟨timer, is⟩ := none' ready
      rcases error with rfl | rfl <;> cases is
    | signed ready sign =>
      obtain ⟨timer, is⟩ := none' ready
      rcases sign with rfl | rfl <;> cases is
    | cancelled ready =>
      obtain ⟨timer, is⟩ := none' ready
      cases is
    | silent _ running | quiet _ running => exact absurd (stop.symm.trans running) (by simp)

theorem Ending.tick (before : Ending c₀ c) (tick : Tick c c') : Ending c₀ c' := by
  cases tick with
  | tick idle early =>
    have stop : c.stopTimers = true := by
      rcases before.doomed with stop | read | write
      · exact stop
      · exact absurd (idle _) (Nat.ne_of_gt read)
      · exact absurd (idle _) (Nat.ne_of_gt write)
    refine ⟨before.isOpen, .inl stop, .inr ⟨stop, fun h _ => idle h⟩, before.waits,
      fun timer expired => ?_⟩
    exact absurd (idle _) (Nat.ne_of_gt expired)

/-- When the periods are over no handler is left. -/
theorem Ending.ended (ending : Ending c₀ c) (bounded : Bounded c)
    (late : c₀.now + period .receive < c.now) : Ended c := by
  have le : ∀ timer, period timer ≤ period .receive := by
    intro timer
    cases timer <;> decide
  obtain ⟨reading, writing⟩ := bounded.closed ending.isOpen
  refine ⟨reading, writing, fun timer => ?_, fun h => ?_⟩
  · cases waits : c.waits timer with
    | none => rfl
    | some deadline =>
      have early := ending.waits timer deadline waits
      have due := (bounded.deadline timer deadline waits).1
      have short := le timer
      omega
  · rcases ending.rest with here | ⟨-, rest⟩
    · omega
    · by_cases expired : ∃ timer, h = .ping timer false
      · obtain ⟨timer, rfl⟩ := expired
        by_contra some'
        have early := ending.expired timer (Nat.pos_of_ne_zero some')
        have short := le timer
        omega
      · exact rest h fun timer is => expired ⟨timer, is⟩

theorem Later.bounded {n : Nat} (later : Later c₀ n c) (bounded : Bounded c₀) : Bounded c := by
  induction later with
  | refl => exact bounded
  | step _ step ih => exact ih.step step
  | tick _ tick ih => exact ih.tick tick

theorem Later.usePing_eq {n : Nat} (later : Later c₀ n c) (bounded : Bounded c₀) :
    c.usePing = c₀.usePing := by
  induction later with
  | refl => rfl
  | step later step ih => exact (step.usePing_eq (later.bounded bounded).unused).trans ih
  | tick _ tick ih =>
    cases tick
    exact ih

theorem Later.ending {n : Nat} (later : Later c₀ n c) (bounded : Bounded c₀)
    (closed : c₀.isOpen = false) (doomed : Doomed c₀) :
    Ending c₀ c ∧ n + work c + spare c ≤ work c₀ + spare c₀ := by
  induction later with
  | refl => exact ⟨.refl bounded closed doomed, Nat.le_of_eq (by omega)⟩
  | step later step ih =>
    have before := later.bounded bounded
    have closedStep := step.closed before ih.1.isOpen
    have less := closedStep.work_lt before
    exact ⟨ih.1.step before (before.step step) closedStep, by omega⟩
  | @tick n c _ later tick ih =>
    refine ⟨ih.1.tick tick, Nat.le_trans (Nat.le_of_eq ?_) ih.2⟩
    cases tick with
    | tick idle early =>
      have stop : c.stopTimers = true := by
        simpa [Doomed, idle] using ih.1.doomed
      simp [work, timerWork, spare, stop]

theorem spare_le (bounded : Bounded c) : spare c ≤ 2 := by
  have alone := bounded.alone .send
  unfold spare
  split
  · exact Nat.zero_le 2
  · simp only [outstanding] at alone
    cases waits : c.waits .send with
    | none =>
      simp [due]
      omega
    | some deadline =>
      simp [waits] at alone
      simp only [due]
      split <;> omega

/-- Nothing tells the timers that the socket was closed. -/
theorem Later.unnoticed {n : Nat} (later : Later c₀ n c) (bounded : Bounded c₀)
    (closed : c₀.isOpen = false) (unnoticed : ¬ Doomed c₀) : c.isOpen = false ∧ ¬ Doomed c := by
  induction later with
  | refl => exact ⟨closed, unnoticed⟩
  | step later step ih =>
    have closedStep := step.closed (later.bounded bounded) ih.1
    exact ⟨closedStep.kept.1.trans ih.1, fun doomed => ih.2 (closedStep.doomed_iff.mp doomed)⟩
  | tick _ tick ih =>
    cases tick
    exact ih

/-- After its socket was closed a connection has come to its end within the longer period, in
boundedly many steps, if an error was noticed or will be; without timers that is always so.
Otherwise the timer of the pings goes on for ever. -/
theorem closed_run (reachable : Reachable c₀) (closed : c₀.isOpen = false) :
    (Doomed c₀ → ∀ n c, Later c₀ n c →
      n ≤ work c₀ + 2 ∧ (c₀.now + period .receive < c.now → Ended c)) ∧
    (c₀.usePing = false → Doomed c₀) ∧
    (¬ Doomed c₀ → ∀ n c, Later c₀ n c → outstanding c .send = 1) := by
  have bounded := reachable.bounded
  have noticed : c₀.usePing = false → Doomed c₀ := fun off => .inl (reachable.noticed off closed)
  refine ⟨fun doomed n c later => ?_, noticed, fun unnoticed n c later => ?_⟩
  · obtain ⟨ending, steps⟩ := later.ending bounded closed doomed
    have spare := spare_le bounded
    exact ⟨by omega, ending.ended (later.bounded bounded)⟩
  · have still := (later.unnoticed bounded closed unnoticed).2
    have isOn : c.usePing = true := by
      cases usePing : c.usePing with
      | true => rfl
      | false =>
        exact absurd (noticed ((later.usePing_eq bounded).symm.trans usePing)) unnoticed
    refine (later.bounded bounded).sending isOn ?_
    cases running : c.stopTimers with
    | true => exact absurd (.inl running) still
    | false => rfl

/-! ### A packet in the instant of the timeout -/

/-- A connection that hears nothing and whose pings are written at once. -/
def silent (now deadline : Nat) (wrote : List Nat) : Connection :=
  { start true 0 with
    now := now
    waits := fun | .receive => some 125000 | .send => some deadline
    wrote := wrote }

variable {now deadline : Nat} {wrote : List Nat}

theorem silent_wait (reachable : Reachable (silent now deadline wrote)) (d : Nat)
    (early : now + d ≤ 125000) (notYet : now + d ≤ deadline) :
    Reachable (silent (now + d) deadline wrote) := by
  induction d with
  | zero => exact reachable
  | succ d ih =>
    refine .tick (ih (by omega) (by omega)) (.tick (fun _ => rfl) fun timer d' waits => ?_)
    cases timer with
    | receive =>
      cases waits
      exact early
    | send =>
      cases waits
      exact notYet

theorem silent_ping (reachable : Reachable (silent now (now + 30000) wrote))
    (early : now + 30000 ≤ 125000) :
    Reachable (silent (now + 30000) (now + 30000 + 30000)
      ((now + 30000) :: (now + 30000) :: wrote)) := by
  have due := silent_wait reachable 30000 early (Nat.le_refl _)
  have expired := due.step (@Step.expire _ .send (now + 30000) rfl (Nat.le_refl _))
  have pinged := expired.step (@Step.run _ (.ping .send false) false Nat.zero_lt_one)
  have written := pinged.step (.written Nat.zero_lt_one)
  have handled := written.step (@Step.run _ (.write false) false Nat.zero_lt_one)
  have started := handled.step (@Step.run _ (.ping .send true) false Nat.zero_lt_one)
  refine Eq.mp (congrArg Reachable ?_) started
  simp [Connection.take, Connection.handle, Connection.handlePingSend, Connection.handleWrite,
    Connection.startPing, Connection.cancel, Connection.complete, Connection.asyncWrite, silent,
    start]
  funext timer
  cases timer <;> rfl

/-- After four pings a packet arrives at 125000, and the socket is closed before it is handled. -/
def late : Connection :=
  { silent 125000 150000 [120000, 120000, 90000, 90000, 60000, 60000, 30000, 30000, 0] with
    isOpen := false
    reading := false
    waits := fun | .receive => none | .send => some 150000
    ready := fun h => if h = .read false then 1 else 0
    gaveUp := true
    heard := [125000, 0] }

theorem late_reachable : Reachable late := by
  have started : Reachable (silent 0 30000 [0]) := by
    refine Eq.mp (congrArg Reachable ?_) (@Reachable.start true 0)
    simp [silent, start]
    funext timer
    cases timer <;> rfl
  have first := silent_ping started (by omega)
  have second := silent_ping first (by omega)
  have third := silent_ping second (by omega)
  have fourth := silent_ping third (by omega)
  have due := silent_wait fourth 5000 (by omega) (by omega)
  have received := due.step (.receive rfl)
  have expired := received.step (@Step.expire _ .receive 125000 rfl (Nat.le_refl _))
  have closed := expired.step (@Step.run _ (.ping .receive false) false Nat.zero_lt_one)
  refine Eq.mp (congrArg Reachable ?_) closed
  simp [Connection.take, Connection.handle, Connection.handlePingReceive, Connection.closeSocket,
    Connection.abort,
    Connection.complete, silent, start, late]
  constructor
  · funext timer
    cases timer <;> rfl
  · funext h
    cases h with
    | read error | write error => cases error <;> simp
    | ping timer aborted => cases timer <;> cases aborted <;> simp

/-- A connection whose client has gone. -/
def gone : Connection :=
  { start true 0 with
    isOpen := false
    stopTimers := true
    reading := false
    waits := fun _ => none
    ready := fun h => match h with | .ping _ true => 1 | _ => 0
    gaveUp := true }

theorem gone_reachable : Reachable gone := by
  have failed := (@Reachable.start true 0).step (.failToReceive rfl)
  have closed := failed.step (@Step.run _ (.read true) false Nat.zero_lt_one)
  refine Eq.mp (congrArg Reachable ?_) closed
  simp [Connection.take, Connection.handle, Connection.handleRead, Connection.fail,
    Connection.closeSocket,
    Connection.abort, Connection.cancel, Connection.complete, start, gone]
  constructor
  · funext timer
    cases timer <;> rfl
  · funext h
    cases h with
    | read error | write error => cases error <;> simp
    | ping timer aborted => cases timer <;> cases aborted <;> simp

theorem gone_late_run :
    (∀ n c, Later gone n c → n ≤ work gone + 2 ∧ (0 + period .receive < c.now → Ended c)) ∧
      ∀ n c, Later late n c → outstanding c .send = 1 :=
  ⟨(closed_run gone_reachable rfl).1 (.inl rfl),
    (closed_run late_reachable rfl).2.2 (by simp [Doomed, late, silent, start])⟩

end TRex.Heartbeat
