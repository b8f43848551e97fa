import Mathlib.Data.List.Chain
import TRex.Heartbeat

/-!
# A client that only pings

`PingSender` sends a ping when `PING_TIMEOUT` has passed since the last one, and a server whose
connections use pings gives one up when nothing arrives for `PING_TIMEOUT`; both are 125 seconds. So
a ping arrives in time only if it takes no longer, from the time it is due to its arrival, than the
one before.

The clocks of both sides go alike. The network delivers whole pings, in order; one read may take
several of them. `sleep` lasts at least as long as asked. `late` records that the thread had a turn,
without having slept before, half of `PING_TIMEOUT` after the last ping or later.
-/

namespace TRex.IdleClient

open Heartbeat (Connection Timer period)

/-! ## The thread -/

/-- Where the thread is in `run`. -/
inductive At
  | notStarted
  | turn (slept : Bool)
  | clockRead (slept : Bool) (currentTime : Nat)
  | decided (needsToSend : Bool) (timeToSleep : Int)
  | sent (timeToSleep : Int)
  | sleeping (wakeUp : Nat)
  | ended

structure PingSender where
  lastSendTime : Nat
  stop : Bool
  pc : At
  late : Bool

def pingTimeout : Nat := 125000

/-- `continue` or `sleep` at the end of a turn. -/
def At.next (now : Nat) (timeToSleep : Int) : At :=
  if timeToSleep ≤ 0 then .turn false else .sleeping (now + timeToSleep.toNat)

/-- The steps of the thread and the calls of others; the flag says whether `send` is called. -/
inductive PingSender.Step (now : Nat) : PingSender → Bool → PingSender → Prop
  | start {s : PingSender} (pc : s.pc = .notStarted) :
      Step now s false { s with pc := .turn false }
  | readClock {s : PingSender} {slept : Bool} (pc : s.pc = .turn slept) :
      Step now s false
        { s with
          pc := .clockRead slept now
          late := s.late || (!slept && decide (s.lastSendTime + pingTimeout / 2 ≤ now)) }
  | stopped {s : PingSender} {slept : Bool} {currentTime : Nat}
      (pc : s.pc = .clockRead slept currentTime) (stop : s.stop = true) :
      Step now s false { s with pc := .ended }
  | decide {s : PingSender} {slept : Bool} {currentTime : Nat}
      (pc : s.pc = .clockRead slept currentTime) (stop : s.stop = false) :
      Step now s false
        { s with
          pc := .decided
            (!decide ((currentTime : Int) - s.lastSendTime < (pingTimeout / 2 : Nat)))
            ((s.lastSendTime : Int) + pingTimeout - currentTime) }
  | send {s : PingSender} {timeToSleep : Int} (pc : s.pc = .decided true timeToSleep) :
      Step now s true { s with pc := .sent timeToSleep }
  | updateLastSendTime {s : PingSender} {timeToSleep : Int} (pc : s.pc = .sent timeToSleep) :
      Step now s false { s with lastSendTime := now, pc := .next now timeToSleep }
  | skip {s : PingSender} {timeToSleep : Int} (pc : s.pc = .decided false timeToSleep) :
      Step now s false { s with pc := .next now timeToSleep }
  | wake {s : PingSender} {wakeUp : Nat} (pc : s.pc = .sleeping wakeUp) (due : wakeUp ≤ now) :
      Step now s false { s with pc := .turn true }
  | setStop {s : PingSender} : Step now s false { s with stop := true }

/-! ## Both sides -/

structure Ping where
  sent : Nat
  arrived : Nat

def Ping.delay (q : Ping) : Nat := q.arrived - q.sent

/-- The pings that one read takes. -/
def arrivals (now : Nat) (taken : List Nat) : List Ping := taken.map (⟨·, now⟩)

@[simp] theorem map_sent_arrivals (now : Nat) (taken : List Nat) :
    (arrivals now taken).map Ping.sent = taken := by
  rw [arrivals, List.map_map]
  exact List.map_id taken

/-- The server's side: when it accepted, the connection, and the pings it got, the last one
first. -/
structure Server where
  accepted : Nat
  connection : Connection
  received : List Ping

/-- The pings under way are those written, the last one first. -/
structure System where
  now : Nat
  constructed : Nat
  sender : PingSender
  connected : Bool
  inFlight : List Nat
  server : Option Server

/-- `new TransportManager(true)`. -/
def construct (now : Nat) : System where
  now := now
  constructed := now
  sender := ⟨now, false, .notStarted, false⟩
  connected := false
  inFlight := []
  server := none

inductive Step : System → System → Prop
  | connect {s : System} : Step s { s with connected := true }
  | thread {s : System} {sender : PingSender} (step : s.sender.Step s.now false sender) :
      Step s { s with sender }
  /-- Without a stream, or where writing fails, nothing is sent. -/
  | ping {s : System} {sender : PingSender} (written : Bool)
      (step : s.sender.Step s.now true sender) :
      Step s { s with
        sender
        inFlight := if s.connected && written then s.now :: s.inFlight else s.inFlight }
  | accept {s : System} (connected : s.connected = true) (none' : s.server = none) :
      Step s { s with server := some ⟨s.now, Heartbeat.start true s.now, []⟩ }
  /-- What the connection does without anything to read. -/
  | serve {s : System} {v : Server} {c : Connection} (server : s.server = some v)
      (step : Heartbeat.Step v.connection c) (unheard : c.heard = v.connection.heard) :
      Step s { s with server := some { v with connection := c } }
  | arrive {s : System} {v : Server} {c : Connection} {rest taken : List Nat}
      (server : s.server = some v) (step : Heartbeat.Step v.connection c)
      (heard : c.heard = v.connection.now :: v.connection.heard)
      (inFlight : s.inFlight = rest ++ taken) (some' : taken ≠ []) :
      Step s { s with
        inFlight := rest
        server := some { v with
          connection := c, received := arrivals s.now taken ++ v.received } }
  | tickAlone {s : System} (none' : s.server = none) : Step s { s with now := s.now + 1 }
  | tick {s : System} {v : Server} {c : Connection} (server : s.server = some v)
      (tick : Heartbeat.Tick v.connection c) :
      Step s { s with now := s.now + 1, server := some { v with connection := c } }

inductive Reachable : System → Prop
  | construct {now : Nat} : Reachable (construct now)
  | step {s s' : System} (reachable : Reachable s) (step : Step s s') : Reachable s'

/-! ## When the thread sends -/

/-- What the place in `run` says about the time of the last ping, if no turn was late. -/
def At.Timely (now lastSendTime : Nat) : At → Prop
  | .turn slept => slept = true → lastSendTime + pingTimeout ≤ now
  | .clockRead slept currentTime => currentTime ≤ now ∧
      if slept then lastSendTime + pingTimeout ≤ currentTime
      else currentTime < lastSendTime + pingTimeout / 2
  | .decided true timeToSleep => lastSendTime + pingTimeout ≤ now ∧ timeToSleep ≤ 0
  | .decided false timeToSleep => (lastSendTime + pingTimeout : Int) ≤ now + timeToSleep ∧
      0 < timeToSleep
  | .sent timeToSleep => timeToSleep ≤ 0
  | .sleeping wakeUp => lastSendTime + pingTimeout ≤ wakeUp
  | .notStarted | .ended => True

/-- The time up to which pings may have been sent. -/
def PingSender.horizon (now : Nat) (s : PingSender) : Nat :=
  match s.pc with
  | .sent _ => now
  | _ => s.lastSendTime

structure PingSender.Timely (now : Nat) (s : PingSender) : Prop where
  last_le : s.lastSendTime ≤ now
  pc : s.late = false → s.pc.Timely now s.lastSendTime

variable {now : Nat} {sender sender' : PingSender}

theorem PingSender.Timely.tick (timely : sender.Timely now) : sender.Timely (now + 1) := by
  refine ⟨Nat.le_succ_of_le timely.last_le, fun prompt => ?_⟩
  have pc := timely.pc prompt
  cases at_ : sender.pc with
  | notStarted | ended => trivial
  | turn slept =>
    rw [at_] at pc
    exact fun slept => Nat.le_succ_of_le (pc slept)
  | clockRead slept currentTime =>
    rw [at_] at pc
    exact ⟨Nat.le_succ_of_le pc.1, pc.2⟩
  | decided needsToSend timeToSleep =>
    rw [at_] at pc
    cases needsToSend with
    | true => exact ⟨Nat.le_succ_of_le pc.1, pc.2⟩
    | false =>
      refine ⟨?_, pc.2⟩
      have before := pc.1
      push_cast
      omega
  | sent timeToSleep =>
    rw [at_] at pc
    exact pc
  | sleeping wakeUp =>
    rw [at_] at pc
    exact pc

theorem PingSender.Timely.step {pings : Bool} (timely : sender.Timely now)
    (step : sender.Step now pings sender') : sender'.Timely now := by
  have last_le := timely.last_le
  have half : pingTimeout / 2 < pingTimeout := by decide
  cases step with
  | start pc => exact ⟨last_le, fun _ => fun slept => absurd slept Bool.false_ne_true⟩
  | @readClock slept pc =>
    refine ⟨last_le, fun prompt => ⟨Nat.le_refl _, ?_⟩⟩
    have both := Bool.or_eq_false_iff.mp prompt
    have before := timely.pc both.1
    rw [pc] at before
    cases slept with
    | true => exact before rfl
    | false =>
      have soon := both.2
      simp only [Bool.not_false, Bool.true_and, decide_eq_false_iff_not, Nat.not_le] at soon
      exact soon
  | stopped => exact ⟨last_le, fun _ => trivial⟩
  | @decide slept currentTime pc stop =>
    refine ⟨last_le, fun prompt => ?_⟩
    have before := timely.pc prompt
    rw [pc] at before
    obtain ⟨le, when_⟩ := before
    cases slept with
    | true =>
      have due : sender.lastSendTime + pingTimeout ≤ currentTime := when_
      have needs : (!Decidable.decide
          ((currentTime : Int) - sender.lastSendTime < (pingTimeout / 2 : Nat))) = true := by
        rw [Bool.not_eq_true', decide_eq_false_iff_not]
        omega
      simp only [needs]
      exact ⟨Nat.le_trans due le, by omega⟩
    | false =>
      have soon : currentTime < sender.lastSendTime + pingTimeout / 2 := when_
      have needs : (!Decidable.decide
          ((currentTime : Int) - sender.lastSendTime < (pingTimeout / 2 : Nat))) = false := by
        rw [Bool.not_eq_false', decide_eq_true_iff]
        omega
      simp only [needs]
      constructor <;> omega
  | @send timeToSleep pc =>
    refine ⟨last_le, fun prompt => ?_⟩
    have before := timely.pc prompt
    rw [pc] at before
    exact before.2
  | @updateLastSendTime timeToSleep pc =>
    refine ⟨Nat.le_refl _, fun prompt => ?_⟩
    have before := timely.pc prompt
    rw [pc] at before
    have turns : At.next now timeToSleep = .turn false := if_pos before
    simp only [turns]
    exact fun slept => absurd slept Bool.false_ne_true
  | @skip timeToSleep pc =>
    refine ⟨last_le, fun prompt => ?_⟩
    have before := timely.pc prompt
    rw [pc] at before
    obtain ⟨enough, pos⟩ := before
    have sleeps : At.next now timeToSleep = .sleeping (now + timeToSleep.toNat) :=
      if_neg (Int.not_le.mpr pos)
    simp only [sleeps]
    show sender.lastSendTime + pingTimeout ≤ now + timeToSleep.toNat
    omega
  | @wake wakeUp pc due =>
    refine ⟨last_le, fun prompt => fun _ => ?_⟩
    have before := timely.pc prompt
    rw [pc] at before
    exact Nat.le_trans before due
  | setStop => exact ⟨last_le, timely.pc⟩

/-- A turn that sends comes a whole `PING_TIMEOUT` after the last ping. -/
theorem PingSender.Timely.send (timely : sender.Timely now) (step : sender.Step now true sender')
    (prompt : sender'.late = false) :
    sender.horizon now + pingTimeout ≤ now ∧ sender'.horizon now = now := by
  cases step with
  | @send timeToSleep pc =>
    have before := timely.pc prompt
    rw [pc] at before
    refine ⟨?_, rfl⟩
    simp only [horizon, pc]
    exact before.1

theorem PingSender.horizon_eq (elsewhere : ∀ timeToSleep, sender.pc ≠ .sent timeToSleep) :
    sender.horizon now = sender.lastSendTime := by
  unfold horizon
  split
  case h_1 timeToSleep at_ => exact absurd at_ (elsewhere timeToSleep)
  case h_2 => rfl

theorem At.next_ne (timeToSleep t : Int) : At.next now timeToSleep ≠ .sent t := by
  unfold At.next
  split <;> exact At.noConfusion

theorem PingSender.horizon_le (last_le : sender.lastSendTime ≤ now) {pings : Bool}
    (step : sender.Step now pings sender') : sender.horizon now ≤ sender'.horizon now := by
  cases step with
  | start pc | readClock pc | stopped pc | decide pc | wake pc =>
    rw [horizon_eq fun t is => by rw [pc] at is; cases is]
    exact Nat.le_refl _
  | @skip timeToSleep pc =>
    have before : ∀ t, sender.pc ≠ .sent t := fun t is => by rw [pc] at is; cases is
    have after : ∀ t, ({ sender with pc := At.next now timeToSleep } : PingSender).pc ≠ .sent t :=
      At.next_ne timeToSleep
    rw [horizon_eq before]
    exact Nat.le_of_eq (horizon_eq after).symm
  | send pc =>
    rw [horizon_eq fun t is => by rw [pc] at is; cases is]
    exact last_le
  | @updateLastSendTime timeToSleep pc =>
    have after : ∀ t, ({ sender with lastSendTime := now, pc := At.next now timeToSleep } :
        PingSender).pc ≠ .sent t := At.next_ne timeToSleep
    rw [horizon_eq after]
    simp only [horizon, pc]
    exact Nat.le_refl _
  | setStop => exact Nat.le_refl _

theorem PingSender.horizon_mono {later : Nat} (le : now ≤ later) :
    sender.horizon now ≤ sender.horizon later := by
  unfold horizon
  split
  case h_1 => exact le
  case h_2 => exact Nat.le_refl _

theorem PingSender.horizon_le_now (last_le : sender.lastSendTime ≤ now) :
    sender.horizon now ≤ now := by
  unfold horizon
  split
  case h_1 => exact Nat.le_refl _
  case h_2 => exact last_le

theorem PingSender.late_mono {pings : Bool} (step : sender.Step now pings sender')
    (prompt : sender'.late = false) : sender.late = false := by
  cases step with
  | readClock => exact (Bool.or_eq_false_iff.mp prompt).1
  | start | stopped | decide | send | updateLastSendTime | skip | wake | setStop => exact prompt

/-! ## Which pings arrive in time -/

namespace System

variable (s : System)

/-- What the server takes for signs of life, the last one first; its accepting stands for a ping
sent when the client was constructed. -/
def signs : List Ping :=
  match s.server with
  | none => []
  | some v => v.received ++ [⟨s.constructed, v.accepted⟩]

/-- The times at which all pings were sent, the last one first. -/
def pings : List Nat :=
  s.inFlight ++ match s.server with
    | none => [s.constructed]
    | some v => v.received.map Ping.sent ++ [s.constructed]

end System

/-- Sent at least `PING_TIMEOUT` later than the one before, and received at most as much later. -/
structure InTime (later earlier : Ping) : Prop where
  sent : earlier.sent + pingTimeout ≤ later.sent
  arrived : later.arrived ≤ earlier.arrived + pingTimeout
  order : later.sent ≤ later.arrived

/-- The server has not given up. -/
def System.Served (s : System) (v : Server) : Prop :=
  s.server = some v ∧ v.connection.gaveUp = false

structure Inv (s : System) : Prop where
  timely : s.sender.Timely s.now
  clock : ∀ v, s.server = some v → v.connection.now = s.now ∧ Heartbeat.Reachable v.connection
  usePing : ∀ v, s.server = some v → v.connection.usePing = true
  spaced : s.sender.late = false →
    s.pings.Pairwise (fun later earlier => earlier + pingTimeout ≤ later) ∧
      ∀ p ∈ s.pings, p ≤ s.sender.horizon s.now
  heard : ∀ v, s.Served v →
    ∃ q ∈ s.signs.head?, q.arrived ≤ s.now ∧ ∀ a ∈ v.connection.heard, a ≤ q.arrived
  inTime : s.sender.late = false → ∀ v, s.Served v → s.signs.IsChain InTime

variable {s s' : System}

/-- As long as the server has not given up, the last sign of life is no older than
`PING_TIMEOUT`. -/
theorem Inv.recent {v : Server} (inv : Inv s) (served : s.Served v) :
    ∃ q ∈ s.signs.head?, s.now ≤ q.arrived + pingTimeout := by
  obtain ⟨clock, reachable⟩ := inv.clock v served.1
  obtain ⟨a, mem, le⟩ := ((reachable.inv.2 served.2).keptAlive reachable.unused).heard
    (inv.usePing v served.1)
  obtain ⟨q, first, -, latest⟩ := inv.heard v served
  refine ⟨q, first, ?_⟩
  rw [clock] at le
  exact Nat.le_trans le (Nat.add_le_add_right (latest a mem) pingTimeout)

theorem alive_before {c c' : Connection} (reachable : Heartbeat.Reachable c)
    (step : Heartbeat.Step c c') (alive : c'.gaveUp = false) : c.gaveUp = false := by
  rcases step.gaveUp_or reachable.unused with ⟨gaveUp, -⟩ | ⟨same, -⟩
  · rw [alive] at gaveUp
    cases gaveUp
  · exact same.symm.trans alive

/-! ### One step -/

theorem Inv.thread (inv : Inv s) {sender : PingSender} (step : s.sender.Step s.now false sender) :
    Inv { s with sender } := by
  have keeps := PingSender.late_mono step
  refine ⟨inv.timely.step step, inv.clock, inv.usePing, fun prompt => ?_, inv.heard,
    fun prompt => inv.inTime (keeps prompt)⟩
  obtain ⟨spaced, bounded⟩ := inv.spaced (keeps prompt)
  exact ⟨spaced, fun p mem =>
    Nat.le_trans (bounded p mem) (PingSender.horizon_le inv.timely.last_le step)⟩

/-- A ping is sent a whole `PING_TIMEOUT` after those before, whether it is written or not. -/
theorem Inv.ping (inv : Inv s) {sender : PingSender} (written : Bool)
    (step : s.sender.Step s.now true sender) :
    Inv { s with
      sender
      inFlight := if s.connected && written then s.now :: s.inFlight else s.inFlight } := by
  have keeps := PingSender.late_mono step
  refine ⟨inv.timely.step step, inv.clock, inv.usePing, fun prompt => ?_, inv.heard,
    fun prompt => inv.inTime (keeps prompt)⟩
  obtain ⟨spaced, bounded⟩ := inv.spaced (keeps prompt)
  obtain ⟨due, here⟩ := inv.timely.send step prompt
  simp only [here]
  have earlier : ∀ p ∈ s.pings, p + pingTimeout ≤ s.now := fun p mem =>
    Nat.le_trans (Nat.add_le_add_right (bounded p mem) _) due
  cases reaches : s.connected && written with
  | true =>
    refine ⟨List.pairwise_cons.mpr ⟨earlier, spaced⟩, fun p mem => ?_⟩
    rcases List.mem_cons.mp mem with rfl | old
    · exact Nat.le_refl _
    · exact Nat.le_trans (Nat.le_add_right _ _) (earlier p old)
  | false => exact ⟨spaced, fun p mem => Nat.le_trans (Nat.le_add_right _ _) (earlier p mem)⟩

theorem Inv.accept (inv : Inv s) (none' : s.server = none) :
    Inv { s with server := some ⟨s.now, Heartbeat.start true s.now, []⟩ } := by
  refine ⟨inv.timely, fun v is => ?_, fun v is => ?_, fun prompt => ?_, fun v served => ?_,
    fun _ v served => ?_⟩
  · cases is
    exact ⟨rfl, .start⟩
  · cases is
    rfl
  · have spaced := inv.spaced prompt
    simp only [System.pings, none'] at spaced
    exact spaced
  · cases served.1
    exact ⟨_, rfl, Nat.le_refl _, fun a mem => Nat.le_of_eq (List.mem_singleton.mp mem)⟩
  · exact List.isChain_singleton _

section Serving

variable {v : Server} {c : Connection}

/-- What a step of the connection leaves true of the server. -/
theorem Inv.serving (inv : Inv s) (server : s.server = some v)
    (step : Heartbeat.Step v.connection c) :
    c.now = s.now ∧ Heartbeat.Reachable c ∧ c.usePing = true ∧ (c.gaveUp = false → s.Served v) := by
  obtain ⟨clock, reachable⟩ := inv.clock v server
  refine ⟨(step.now_eq reachable.unused).trans clock, reachable.step step,
    (step.usePing_eq reachable.unused).trans (inv.usePing v server), fun alive => ?_⟩
  exact ⟨server, alive_before reachable step alive⟩

theorem Inv.serve (inv : Inv s) (server : s.server = some v) (step : Heartbeat.Step v.connection c)
    (unheard : c.heard = v.connection.heard) :
    Inv { s with server := some { v with connection := c } } := by
  obtain ⟨clock, reachable, usePing, served⟩ := inv.serving server step
  have signs : ({ s with server := some { v with connection := c } } : System).signs =
      s.signs := by
    simp only [System.signs, server]
  refine ⟨inv.timely, fun v' is => ?_, fun v' is => ?_, fun prompt => ?_, fun v' serves => ?_,
    fun prompt v' serves => ?_⟩
  · cases is
    exact ⟨clock, reachable⟩
  · cases is
    exact usePing
  · have spaced := inv.spaced prompt
    simp only [System.pings, server] at spaced
    exact spaced
  · cases serves.1
    rw [signs, unheard]
    exact inv.heard v (served serves.2)
  · cases serves.1
    rw [signs]
    exact inv.inTime prompt v (served serves.2)

/-- The first of the pings that one read takes comes no later than the timer allows, and the others
with it. -/
theorem Inv.chain_arrive (inv : Inv s) (served : s.Served v) (prompt : s.sender.late = false)
    {rest taken : List Nat} (inFlight : s.inFlight = rest ++ taken) :
    (arrivals s.now taken ++ s.signs).IsChain InTime := by
  have pings : s.pings = rest ++ (taken ++ s.signs.map Ping.sent) := by
    simp [System.pings, System.signs, served.1, inFlight]
  obtain ⟨q, first, recent⟩ := inv.recent served
  obtain ⟨spaced, bounded⟩ := inv.spaced prompt
  rw [pings] at spaced bounded
  obtain ⟨among, -, beyond⟩ := List.pairwise_append.mp (List.pairwise_append.mp spaced).2.1
  have past : ∀ p ∈ taken, p ≤ s.now := fun p mem =>
    Nat.le_trans (bounded p (by simp [mem])) (PingSender.horizon_le_now inv.timely.last_le)
  refine List.isChain_append.mpr ⟨?_, inv.inTime prompt v served, fun q' mem q'' last => ?_⟩
  · refine List.Pairwise.isChain (List.pairwise_map.mpr ?_)
    exact List.Pairwise.imp_of_mem
      (fun mem _ apart => ⟨apart, Nat.le_add_right _ _, past _ mem⟩) among
  · obtain ⟨p, mem', rfl⟩ := List.mem_map.mp (List.mem_of_getLast? mem)
    obtain rfl : q = q'' := Option.some.inj (first.symm.trans last)
    have isSign : q.sent ∈ s.signs.map Ping.sent :=
      List.mem_map_of_mem (List.mem_of_head? first)
    exact ⟨beyond p mem' q.sent isSign, recent, past p mem'⟩

theorem Inv.arrive (inv : Inv s) (server : s.server = some v) (step : Heartbeat.Step v.connection c)
    (heard : c.heard = v.connection.now :: v.connection.heard) {rest taken : List Nat}
    (inFlight : s.inFlight = rest ++ taken) (some' : taken ≠ []) :
    Inv { s with
      inFlight := rest
      server := some { v with
        connection := c, received := arrivals s.now taken ++ v.received } } := by
  obtain ⟨clock, reachable, usePing, served⟩ := inv.serving server step
  have signs : ({ s with
      inFlight := rest
      server := some { v with
        connection := c, received := arrivals s.now taken ++ v.received } } : System).signs =
      arrivals s.now taken ++ s.signs := by
    simp only [System.signs, server, List.append_assoc]
  refine ⟨inv.timely, fun v' is => ?_, fun v' is => ?_, fun prompt => ?_, fun v' serves => ?_,
    fun prompt v' serves => ?_⟩
  · cases is
    exact ⟨clock, reachable⟩
  · cases is
    exact usePing
  · have spaced := inv.spaced prompt
    have same : s.pings = rest ++ ((arrivals s.now taken ++ v.received).map Ping.sent ++
        [s.constructed]) := by
      simp [System.pings, server, inFlight]
    rw [same] at spaced
    exact spaced
  · obtain ⟨p, older, rfl⟩ := List.exists_cons_of_ne_nil some'
    cases serves.1
    refine ⟨⟨p, s.now⟩, by rw [signs]; rfl, Nat.le_refl _, fun a mem => ?_⟩
    obtain ⟨q, -, le, latest⟩ := inv.heard v (served serves.2)
    rw [heard, (inv.clock v server).1] at mem
    rcases List.mem_cons.mp mem with rfl | old
    · exact Nat.le_refl _
    · exact Nat.le_trans (latest a old) le
  · cases serves.1
    rw [signs]
    exact inv.chain_arrive (served serves.2) prompt inFlight

theorem Inv.tick (inv : Inv s) (server : s.server = some v) (tick : Heartbeat.Tick v.connection c) :
    Inv { s with now := s.now + 1, server := some { v with connection := c } } := by
  obtain ⟨clock, reachable⟩ := inv.clock v server
  have signs : ({ s with
      now := s.now + 1, server := some { v with connection := c } } : System).signs =
      s.signs := by
    simp only [System.signs, server]
  have ticks : c.now = v.connection.now + 1 ∧ c.heard = v.connection.heard ∧
      c.gaveUp = v.connection.gaveUp ∧ c.usePing = v.connection.usePing := by
    cases tick
    exact ⟨rfl, rfl, rfl, rfl⟩
  refine ⟨inv.timely.tick, fun v' is => ?_, fun v' is => ?_, fun prompt => ?_,
    fun v' served => ?_, fun prompt v' served => ?_⟩
  · cases is
    exact ⟨ticks.1.trans (congrArg (· + 1) clock), reachable.tick tick⟩
  · cases is
    exact ticks.2.2.2.trans (inv.usePing v server)
  · obtain ⟨spaced, bounded⟩ := inv.spaced prompt
    have same : ({ s with
        now := s.now + 1, server := some { v with connection := c } } : System).pings =
        s.pings := by
      simp only [System.pings, server]
    rw [same]
    exact ⟨spaced, fun p mem =>
      Nat.le_trans (bounded p mem) (PingSender.horizon_mono (Nat.le_succ _))⟩
  · cases served.1
    obtain ⟨q, first, le, latest⟩ := inv.heard v ⟨server, ticks.2.2.1.symm.trans served.2⟩
    exact ⟨q, signs ▸ first, Nat.le_succ_of_le le, fun a mem => latest a (ticks.2.1 ▸ mem)⟩
  · cases served.1
    rw [signs]
    exact inv.inTime prompt v ⟨server, ticks.2.2.1.symm.trans served.2⟩

end Serving

theorem Inv.tickAlone (inv : Inv s) (none' : s.server = none) :
    Inv { s with now := s.now + 1 } := by
  have absent : ∀ v, s.server ≠ some v := fun v is => by
    rw [none'] at is
    cases is
  refine ⟨inv.timely.tick, fun v is => absurd is (absent v), fun v is => absurd is (absent v),
    fun prompt => ?_, fun v served => absurd served.1 (absent v),
    fun _ v served => absurd served.1 (absent v)⟩
  obtain ⟨spaced, bounded⟩ := inv.spaced prompt
  exact ⟨spaced, fun p mem =>
    Nat.le_trans (bounded p mem) (PingSender.horizon_mono (Nat.le_succ _))⟩

theorem Inv.step (inv : Inv s) (step : Step s s') : Inv s' := by
  cases step with
  | connect =>
    exact ⟨inv.timely, inv.clock, inv.usePing, inv.spaced, inv.heard, inv.inTime⟩
  | thread step => exact inv.thread step
  | ping written step => exact inv.ping written step
  | accept connected none' => exact inv.accept none'
  | serve server step unheard => exact inv.serve server step unheard
  | arrive server step heard inFlight some' => exact inv.arrive server step heard inFlight some'
  | tickAlone none' => exact inv.tickAlone none'
  | tick server tick => exact inv.tick server tick

theorem Reachable.inv (reachable : Reachable s) : Inv s := by
  induction reachable with
  | @construct now =>
    refine ⟨⟨Nat.le_refl _, fun _ => trivial⟩, fun v is => ?_, fun v is => ?_, fun _ => ?_,
      fun v served => ?_, fun _ v served => ?_⟩
    · cases is
    · cases is
    · refine ⟨List.pairwise_singleton _ _, fun p mem => ?_⟩
      exact Nat.le_of_eq (List.mem_singleton.mp mem)
    · cases served.1
    · cases served.1
  | step _ step ih => exact ih.step step

/-! ### Until the server gives up -/

/-- A ping takes no longer than the one before. -/
theorem InTime.delay_le {later earlier : Ping} (inTime : InTime later earlier) :
    later.delay ≤ earlier.delay := by
  have sent := inTime.sent
  have arrived := inTime.arrived
  simp only [Ping.delay]
  omega

theorem exists_head (received : List Ping) (base : Ping) :
    ∃ q, (received ++ [base]).head? = some q := by
  cases received <;> exact ⟨_, rfl⟩

/-- How late the last of several pings is if each one takes its turn some time after it is due. -/
theorem InTime.drift {overhead : Nat} {received : List Ping} {base : Ping}
    (chain : (received ++ [base]).IsChain InTime)
    (slow : (received ++ [base]).IsChain fun later earlier =>
      earlier.sent + pingTimeout + overhead ≤ later.sent) :
    ∀ q ∈ (received ++ [base]).head?,
      base.sent + received.length * (pingTimeout + overhead) ≤ q.sent ∧
        q.arrived ≤ base.arrived + received.length * pingTimeout := by
  induction received with
  | nil =>
    intro q first
    obtain rfl : base = q := Option.some.inj first
    simp
  | cons later received ih =>
    intro q first
    obtain rfl : later = q := Option.some.inj first
    obtain ⟨next, chain⟩ := List.isChain_cons.mp chain
    obtain ⟨nextSlow, slow⟩ := List.isChain_cons.mp slow
    obtain ⟨earlier, first⟩ := exists_head received base
    obtain ⟨sent, arrived⟩ := ih chain slow earlier first
    have apart := nextSlow earlier first
    have soon := (next earlier first).arrived
    rw [List.length_cons, Nat.succ_mul, Nat.succ_mul]
    constructor <;> omega

/-- Until the server gives up on a client that only pings, pings are sent at least `PING_TIMEOUT`
apart and arrive at most as much apart: none takes longer than the one before, the first one no
longer than the client took to be accepted. If each one is sent some time after it is due, that is
used up after so many pings. -/
theorem idle_pings (reachable : Reachable s) {v : Server} (served : s.Served v)
    (prompt : s.sender.late = false) :
    (∃ q ∈ s.signs.head?, s.now ≤ q.arrived + pingTimeout) ∧
      (s.signs.map Ping.delay).Pairwise (· ≤ ·) ∧
      ∀ overhead, (s.signs.IsChain fun later earlier =>
          earlier.sent + pingTimeout + overhead ≤ later.sent) →
        v.received.length * overhead ≤ v.accepted - s.constructed := by
  have inv := reachable.inv
  have chain := inv.inTime prompt v served
  have signs : s.signs = v.received ++ [⟨s.constructed, v.accepted⟩] := by
    simp only [System.signs, served.1]
  refine ⟨inv.recent served, ?_, fun overhead slow => ?_⟩
  · refine List.IsChain.pairwise ((List.isChain_map _).mpr ?_)
    exact chain.imp fun _ _ inTime => inTime.delay_le
  · rw [signs] at chain slow
    cases received : v.received with
    | nil => simp
    | cons q older =>
      rw [received] at chain slow
      obtain ⟨sent, arrived⟩ := InTime.drift chain slow q rfl
      have order : q.sent ≤ q.arrived := by
        obtain ⟨earlier, first⟩ := exists_head older ⟨s.constructed, v.accepted⟩
        exact ((List.isChain_cons.mp chain).1 earlier first).order
      rw [Nat.mul_add] at sent
      simp only at sent arrived
      omega

/-- While nobody has accepted the client, the clock alone goes on. -/
theorem Reachable.wait (reachable : Reachable s) (none' : s.server = none) (d : Nat) :
    Reachable { s with now := s.now + d } := by
  induction d with
  | zero => exact reachable
  | succ d ih => exact ih.step (.tickAlone none')

/-- A client that is accepted when its first ping is due; the ping takes one millisecond. -/
theorem exists_firstPing : ∃ s v, Reachable s ∧ s.Served v ∧ s.sender.late = false ∧
    s.constructed = 0 ∧ v.accepted = 125000 ∧ v.received = [⟨125000, 125001⟩] := by
  have asleep := (@Reachable.construct 0)
    |>.step (.thread (.start rfl)) |>.step (.thread (.readClock rfl))
    |>.step (.thread (.decide rfl rfl)) |>.step (.thread (.skip rfl)) |>.step .connect
  have accepted := (asleep.wait rfl 125000).step (.accept rfl rfl)
  have sent := accepted
    |>.step (.thread (.wake rfl (by decide))) |>.step (.thread (.readClock rfl))
    |>.step (.thread (.decide rfl rfl)) |>.step (.ping true (.send rfl))
    |>.step (.thread (.updateLastSendTime rfl))
  have ticked := sent.step (.tick rfl (.tick (fun _ => rfl) fun timer deadline waits => by
    cases timer <;> cases waits <;> decide))
  have received := ticked.step (.arrive rfl (.receive rfl) rfl (List.nil_append _).symm (by simp))
  exact ⟨_, _, received, ⟨rfl, rfl⟩, rfl, rfl, rfl, rfl⟩

theorem firstPing_idle : ∃ (s : System) (v : Server), s.Served v ∧ v.received = [⟨125000, 125001⟩] ∧
    (∃ q ∈ s.signs.head?, s.now ≤ q.arrived + pingTimeout) ∧
      (s.signs.map Ping.delay).Pairwise (· ≤ ·) ∧
      ∀ overhead, (s.signs.IsChain fun later earlier =>
          earlier.sent + pingTimeout + overhead ≤ later.sent) →
        v.received.length * overhead ≤ v.accepted - s.constructed := by
  obtain ⟨s, v, reachable, served, prompt, -, -, received⟩ := exists_firstPing
  exact ⟨s, v, served, received, idle_pings reachable served prompt⟩

end TRex.IdleClient
