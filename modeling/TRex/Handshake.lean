import Mathlib.Algebra.BigOperators.Group.Finset.Basic
import Mathlib.Algebra.Order.BigOperators.Group.Finset
import Mathlib.Algebra.Order.Group.Nat
import Mathlib.Logic.Function.Basic
import Mathlib.Tactic.Common

/-!
# The handshake of caller and workers

`TRexEngine::processPubPkt` and `processor` as a step relation: one calling thread, `numProc`
workers, a mutex and a condition variable for each worker (`processMutex`, `processCond`) and one
pair for the results. A program counter stands between two operations that other threads can
observe. Waiting releases the mutex, a signal wakes the waiting thread if there is one and is lost
otherwise, and there are no spurious wake-ups. Packets are numbered by the calls that publish them.
-/

namespace TRex

namespace Handshake

/-! ## States -/

/-- A worker: in `pthread_cond_wait`; signalled; back with the mutex; before it reads `s->mh`; in
the rule loop, with the handler it read and the next rule; before each of the operations at the end
of the loop; before it waits again. -/
inductive WorkerPc
  | waiting
  | woken
  | holding
  | loading
  | running (mh rule : Nat)
  | relocking
  | lockingResult
  | decrementing
  | storing (value : Int)
  | testing
  | signalling
  | unlockingResult
  | entering
  deriving DecidableEq

/-- The caller: outside; installing information for worker `i`; waiting for the results; resetting
the counter; collecting from worker `i`; deleting the handler. -/
inductive CallerPc
  | idle
  | locking (i : Nat)
  | writingMh (i : Nat)
  | writingPkt (i : Nat)
  | signalling (i : Nat)
  | unlocking (i : Nat)
  | lockingResult
  | testing
  | waiting
  | woken
  | unlockingResult
  | resetting
  | collecting (i : Nat)
  | deleting
  deriving DecidableEq

/-- Who holds the mutex of a worker: the caller or the worker itself. -/
inductive Owner
  | caller
  | worker
  deriving DecidableEq

/-- Who holds the mutex of the results. -/
inductive Party
  | caller
  | worker (i : Nat)
  deriving DecidableEq

/-- One turn of the rule loop: the rule, the handler and the packet it was done with. -/
structure Turn where
  rule : Nat
  mh : Nat
  pkt : Nat
  deriving DecidableEq

/-- `shared[i]` and the thread that uses it. Handlers and packets are given by packet numbers, and a
generated packet by the one it was generated from. -/
structure Shared where
  pc : WorkerPc
  lowerBound : Nat
  upperBound : Nat
  processMutex : Option Owner
  mh : Nat
  pkt : Nat
  result : List Nat
  /-- The turns of the rule loop so far. -/
  processed : List Turn

structure State where
  caller : CallerPc
  shared : Nat → Shared
  resultMutex : Option Party
  stillProcessing : Int
  /-- Packets published so far. -/
  packet : Nat
  /-- The handler that exists. -/
  handler : Option Nat

/-- The state that `finalize` leaves, with `size` rules for each worker, when all workers wait. -/
def initial (numProc size : Nat) : State :=
  { caller := .idle
    shared := fun i =>
      { pc := .waiting, lowerBound := size * i, upperBound := size * (i + 1), processMutex := none
        mh := 0, pkt := 0, result := [], processed := [] }
    resultMutex := none, stillProcessing := numProc, packet := 0, handler := none }

/-! ## Steps -/

/-- `shared[i]` is replaced. -/
def State.set (s : State) (i : Nat) (sh : Shared) : State :=
  { s with shared := Function.update s.shared i sh }

section Steps

variable (numProc : Nat)

/-- The head of the loop that installs information in shared memory. -/
def nextLock (i : Nat) : CallerPc := if i < numProc then .locking i else .lockingResult

/-- The head of the loop that collects results. -/
def nextCollect (i : Nat) : CallerPc := if i < numProc then .collecting i else .deleting

/-- `pthread_cond_signal(shared[i].processCond)`. -/
def WorkerPc.signal (pc : WorkerPc) : WorkerPc := if pc = .waiting then .woken else pc

/-- `pthread_cond_signal(s->resultCond)`. -/
def CallerPc.signal (pc : CallerPc) : CallerPc := if pc = .waiting then .woken else pc

inductive CallerStep : State → State → Prop
  | publish {s : State} (pc : s.caller = .idle) :
      CallerStep s { s with
        caller := nextLock numProc 0, packet := s.packet + 1, handler := some (s.packet + 1) }
  | lockProcess {s : State} {i : Nat} (pc : s.caller = .locking i)
      (free : (s.shared i).processMutex = none) :
      CallerStep s
        { s.set i { s.shared i with processMutex := some .caller } with caller := .writingMh i }
  | writeMh {s : State} {i : Nat} (pc : s.caller = .writingMh i) :
      CallerStep s { s.set i { s.shared i with mh := s.packet } with caller := .writingPkt i }
  | writePkt {s : State} {i : Nat} (pc : s.caller = .writingPkt i) :
      CallerStep s { s.set i { s.shared i with pkt := s.packet } with caller := .signalling i }
  | signalProcess {s : State} {i : Nat} (pc : s.caller = .signalling i) :
      CallerStep s
        { s.set i { s.shared i with pc := (s.shared i).pc.signal } with caller := .unlocking i }
  | unlockProcess {s : State} {i : Nat} (pc : s.caller = .unlocking i) :
      CallerStep s
        { s.set i { s.shared i with processMutex := none } with
          caller := nextLock numProc (i + 1) }
  | lockResult {s : State} (pc : s.caller = .lockingResult) (free : s.resultMutex = none) :
      CallerStep s { s with caller := .testing, resultMutex := some .caller }
  | testZero {s : State} (pc : s.caller = .testing) (zero : s.stillProcessing = 0) :
      CallerStep s { s with caller := .unlockingResult }
  | testWait {s : State} (pc : s.caller = .testing) (nonzero : s.stillProcessing ≠ 0) :
      CallerStep s { s with caller := .waiting, resultMutex := none }
  | wake {s : State} (pc : s.caller = .woken) (free : s.resultMutex = none) :
      CallerStep s { s with caller := .unlockingResult, resultMutex := some .caller }
  | unlockResult {s : State} (pc : s.caller = .unlockingResult) :
      CallerStep s { s with caller := .resetting, resultMutex := none }
  | reset {s : State} (pc : s.caller = .resetting) :
      CallerStep s { s with caller := nextCollect numProc 0, stillProcessing := numProc }
  | collect {s : State} {i : Nat} (pc : s.caller = .collecting i) :
      CallerStep s
        { s.set i { s.shared i with result := [] } with caller := nextCollect numProc (i + 1) }
  | delete {s : State} (pc : s.caller = .deleting) :
      CallerStep s { s with caller := .idle, handler := none }

/-- The steps of a worker that concern its own `shared[i]` only. A turn of the rule loop generates
any number of packets. -/
inductive OwnStep : Shared → Shared → Prop
  | wake {sh : Shared} (pc : sh.pc = .woken) (free : sh.processMutex = none) :
      OwnStep sh { sh with pc := .holding, processMutex := some .worker }
  | unlockProcess {sh : Shared} (pc : sh.pc = .holding) :
      OwnStep sh { sh with pc := .loading, processMutex := none }
  | load {sh : Shared} (pc : sh.pc = .loading) :
      OwnStep sh { sh with pc := .running sh.mh sh.lowerBound }
  | turn {sh : Shared} {mh rule : Nat} (generated : Nat) (pc : sh.pc = .running mh rule)
      (more : rule < sh.upperBound) :
      OwnStep sh
        { sh with
          pc := .running mh (rule + 1)
          result := sh.result ++ List.replicate generated sh.pkt
          processed := sh.processed ++ [⟨rule, mh, sh.pkt⟩] }
  | finish {sh : Shared} {mh rule : Nat} (pc : sh.pc = .running mh rule)
      (last : ¬ rule < sh.upperBound) :
      OwnStep sh { sh with pc := .relocking }
  | lockProcess {sh : Shared} (pc : sh.pc = .relocking) (free : sh.processMutex = none) :
      OwnStep sh { sh with pc := .lockingResult, processMutex := some .worker }
  | wait {sh : Shared} (pc : sh.pc = .entering) :
      OwnStep sh { sh with pc := .waiting, processMutex := none }

/-- The steps of worker `i`. -/
inductive WorkerStep (i : Nat) : State → State → Prop
  | own {s : State} {sh : Shared} (step : OwnStep (s.shared i) sh) :
      WorkerStep i s (s.set i sh)
  | lockResult {s : State} (pc : (s.shared i).pc = .lockingResult) (free : s.resultMutex = none) :
      WorkerStep i s
        { s.set i { s.shared i with pc := .decrementing } with resultMutex := some (.worker i) }
  | decrement {s : State} (pc : (s.shared i).pc = .decrementing) :
      WorkerStep i s (s.set i { s.shared i with pc := .storing (s.stillProcessing - 1) })
  | store {s : State} {value : Int} (pc : (s.shared i).pc = .storing value) :
      WorkerStep i s
        { s.set i { s.shared i with pc := .testing } with stillProcessing := value }
  | testZero {s : State} (pc : (s.shared i).pc = .testing) (zero : s.stillProcessing = 0) :
      WorkerStep i s (s.set i { s.shared i with pc := .signalling })
  | testNonzero {s : State} (pc : (s.shared i).pc = .testing) (nonzero : s.stillProcessing ≠ 0) :
      WorkerStep i s (s.set i { s.shared i with pc := .unlockingResult })
  | signal {s : State} (pc : (s.shared i).pc = .signalling) :
      WorkerStep i s
        { s.set i { s.shared i with pc := .unlockingResult } with caller := s.caller.signal }
  | unlockResult {s : State} (pc : (s.shared i).pc = .unlockingResult) :
      WorkerStep i s { s.set i { s.shared i with pc := .entering } with resultMutex := none }

inductive Step : State → State → Prop
  | caller {s s' : State} (step : CallerStep numProc s s') : Step s s'
  | worker {s s' : State} {i : Nat} (lt : i < numProc) (step : WorkerStep i s s') : Step s s'

/-- The states of all runs. -/
inductive Reachable (size : Nat) : State → Prop
  | initial : Reachable size (initial numProc size)
  | step {s s' : State} (before : Reachable size s) (step : Step numProc s s') : Reachable size s'

end Steps

/-! ## Where the parties are -/

namespace WorkerPc

/-- Between its wake-up and its decrement of `stillProcessing`. -/
def active : WorkerPc → Bool
  | .woken | .holding | .loading | .running _ _ => true
  | .relocking | .lockingResult | .decrementing | .storing _ => true
  | .testing | .signalling | .unlockingResult | .entering | .waiting => false

/-- Waiting or about to wait. -/
def quiet : WorkerPc → Bool
  | .waiting | .entering => true
  | _ => false

def holdsProcess : WorkerPc → Bool
  | .holding | .lockingResult | .decrementing | .storing _ | .testing => true
  | .signalling | .unlockingResult | .entering => true
  | _ => false

def holdsResult : WorkerPc → Bool
  | .decrementing | .storing _ | .testing | .signalling | .unlockingResult => true
  | _ => false

/-- About to signal the caller, if the counter is 0. -/
def signals : WorkerPc → Bool
  | .testing | .signalling => true
  | _ => false

/-- What the worker has read from the counter is still right. -/
def Agrees (stillProcessing : Int) : WorkerPc → Prop
  | .storing value => value = stillProcessing - 1
  | .signalling => stillProcessing = 0
  | _ => True

/-- Signalled, with rules left to do. -/
def unfinished : WorkerPc → Bool
  | .woken | .holding | .loading | .running _ _ => true
  | _ => false

theorem quiet_of_not_active {pc : WorkerPc} (inactive : pc.active = false)
    (free : pc.holdsResult = false) : pc.quiet = true := by
  cases pc <;> simp_all [active, holdsResult, quiet]

theorem not_active_of_quiet {pc : WorkerPc} (isQuiet : pc.quiet = true) : pc.active = false := by
  cases pc <;> first | rfl | cases isQuiet

theorem finished_of_quiet {pc : WorkerPc} (isQuiet : pc.quiet = true) :
    pc.unfinished = false := by
  cases pc <;> first | rfl | cases isQuiet

theorem not_holdsResult_of_quiet {pc : WorkerPc} (isQuiet : pc.quiet = true) :
    pc.holdsResult = false := by
  cases pc <;> first | rfl | cases isQuiet

theorem agrees_of_not_holdsResult {pc : WorkerPc} (free : pc.holdsResult = false)
    (stillProcessing : Int) : pc.Agrees stillProcessing := by
  cases pc <;> trivial

theorem not_signals_of_not_holdsResult {pc : WorkerPc} (free : pc.holdsResult = false) :
    pc.signals = false := by
  cases pc <;> first | rfl | cases free

theorem eq_waiting {pc : WorkerPc} (isQuiet : pc.quiet = true) (free : pc.holdsProcess = false) :
    pc = .waiting := by
  cases pc <;> simp_all [holdsProcess, quiet]

end WorkerPc

/-- What the caller has done for one worker: nothing yet; it holds the mutex, with nothing, the
handler or both written; it has signalled, still with the mutex or not; the wait is over, with the
result set as it was or cleared. -/
inductive View
  | unsent | locked | mhWritten | written | sentLocked | sent | settled | cleared
  deriving DecidableEq

namespace View

def holds : View → Bool
  | .locked | .mhWritten | .written | .sentLocked => true
  | _ => false

/-- The worker is out of the critical part. -/
def calm : View → Bool
  | .sentLocked | .sent => false
  | _ => true

/-- The worker was signalled for the current packet. -/
def current : View → Bool
  | .sentLocked | .sent | .settled | .cleared => true
  | _ => false

def mhOk : View → Bool
  | .unsent | .locked => false
  | _ => true

def pktOk : View → Bool
  | .unsent | .locked | .mhWritten => false
  | _ => true

end View

namespace CallerPc

/-- What the caller has done for worker `i`. -/
def view (i : Nat) : CallerPc → View
  | .locking j => if i < j then .sent else .unsent
  | .writingMh j => if i < j then .sent else if i = j then .locked else .unsent
  | .writingPkt j => if i < j then .sent else if i = j then .mhWritten else .unsent
  | .signalling j => if i < j then .sent else if i = j then .written else .unsent
  | .unlocking j => if i < j then .sent else if i = j then .sentLocked else .unsent
  | .lockingResult | .testing | .waiting | .woken => .sent
  | .unlockingResult | .resetting => .settled
  | .collecting j => if i < j then .cleared else .settled
  | .deleting | .idle => .cleared

/-- The worker that the caller is dealing with. -/
def index? : CallerPc → Option Nat
  | .locking i | .writingMh i | .writingPkt i | .signalling i | .unlocking i => some i
  | .collecting i => some i
  | _ => none

def holdsResult : CallerPc → Bool
  | .testing | .unlockingResult => true
  | _ => false

/-- The counter is reset for the next packet. -/
def isReset : CallerPc → Bool
  | .collecting _ | .deleting | .idle => true
  | _ => false

theorem view_nextLock {numProc i : Nat} (lt : i < numProc) (j : Nat) :
    (nextLock numProc j).view i = if i < j then .sent else .unsent := by
  unfold nextLock
  split
  · rfl
  · rw [if_pos (by omega)]
    rfl

theorem view_nextCollect {numProc i : Nat} (lt : i < numProc) (j : Nat) :
    (nextCollect numProc j).view i = if i < j then .cleared else .settled := by
  unfold nextCollect
  split
  · rfl
  · rw [if_pos (by omega)]
    rfl

end CallerPc

/-! ## The turns of a worker -/

/-- `count` turns for one packet. -/
def turns (lower count packet : Nat) : List Turn :=
  (List.range' lower count).map fun rule => ⟨rule, packet, packet⟩

/-- All turns for the packets up to `packet`, each rule of the worker once for each packet. -/
def rounds (lower upper packet : Nat) : List Turn :=
  (List.range packet).flatMap fun k => turns lower (upper - lower) (k + 1)

theorem turns_succ {lower rule : Nat} (le : lower ≤ rule) (packet : Nat) :
    turns lower (rule + 1 - lower) packet =
      turns lower (rule - lower) packet ++ [⟨rule, packet, packet⟩] := by
  have succ : rule + 1 - lower = rule - lower + 1 := by omega
  have last : lower + (rule - lower) = rule := by omega
  rw [succ, turns, List.range'_1_concat, List.map_append, last]
  rfl

theorem rounds_succ (lower upper packet : Nat) :
    rounds lower upper (packet + 1) =
      rounds lower upper packet ++ turns lower (upper - lower) (packet + 1) := by
  simp [rounds, List.range_succ]

/-- The turns for the current packet, while the loop runs. -/
def WorkerPc.started (lower packet : Nat) : WorkerPc → List Turn
  | .running _ rule => turns lower (rule - lower) packet
  | _ => []

theorem WorkerPc.started_of_finished {pc : WorkerPc} (finished : pc.unfinished = false)
    (lower packet : Nat) : pc.started lower packet = [] := by
  cases pc <;> first | rfl | cases finished

/-! ## The invariant -/

/-- What holds of a worker, by what the caller has done for it. -/
structure WorkerOk (view : View) (packet : Nat) (sh : Shared) : Prop where
  worker : sh.processMutex = some .worker ↔ sh.pc.holdsProcess = true
  caller : sh.processMutex = some .caller ↔ view.holds = true
  calm : view.calm = true → sh.pc.quiet = true
  mh : view.mhOk = true → sh.mh = packet
  pkt : view.pktOk = true → sh.pkt = packet
  running : ∀ mh rule, sh.pc = .running mh rule →
    mh = packet ∧ sh.lowerBound ≤ rule ∧ rule - sh.lowerBound ≤ sh.upperBound - sh.lowerBound
  processed : sh.processed = rounds sh.lowerBound sh.upperBound
      (if view.current = true ∧ sh.pc.unfinished = false then packet else packet - 1) ++
    sh.pc.started sh.lowerBound packet
  results : ∀ x ∈ sh.result, x = packet
  cleared : view = .cleared → sh.result = []

/-- Worker `i` was signalled for the current packet and has decremented the counter. -/
def done (s : State) (i : Nat) : Bool := (s.caller.view i).current && !(s.shared i).pc.active

/-- The workers that still have to decrement the counter. -/
def pending (numProc : Nat) (s : State) : Finset Nat :=
  (Finset.range numProc).filter fun i => done s i = false

structure Inv (numProc : Nat) (s : State) : Prop where
  workers : ∀ i < numProc, WorkerOk (s.caller.view i) s.packet (s.shared i)
  index : ∀ i, s.caller.index? = some i → i < numProc
  result : ∀ i < numProc, s.resultMutex = some (.worker i) ↔ (s.shared i).pc.holdsResult = true
  resultOwner : ∀ i, s.resultMutex = some (.worker i) → i < numProc
  resultCaller : s.resultMutex = some .caller ↔ s.caller.holdsResult = true
  counter : s.caller.isReset = false → s.stillProcessing = (pending numProc s).card
  counterReset : s.caller.isReset = true → s.stillProcessing = numProc
  zero : s.caller = .woken ∨ s.caller = .unlockingResult ∨ s.caller = .resetting →
    s.stillProcessing = 0
  signalled : s.caller = .waiting → s.stillProcessing = 0 →
    ∃ i < numProc, (s.shared i).pc.signals = true
  woken : s.caller = .woken → ∀ i < numProc, (s.shared i).pc.signals = false
  agrees : ∀ i < numProc, (s.shared i).pc.Agrees s.stillProcessing
  handler : s.caller ≠ .idle → s.handler = some s.packet ∧ 0 < s.packet

theorem inv_initial (numProc size : Nat) : Inv numProc (initial numProc size) where
  workers i lt := by
    constructor <;>
      simp [initial, CallerPc.view, WorkerPc.holdsProcess, View.holds, WorkerPc.quiet, rounds,
        WorkerPc.started]
  index := by simp [initial, CallerPc.index?]
  result := by simp [initial, WorkerPc.holdsResult]
  resultOwner := by simp [initial]
  resultCaller := by simp [initial, CallerPc.holdsResult]
  counter := by simp [initial, CallerPc.isReset]
  counterReset := by simp [initial]
  zero := by simp [initial]
  signalled := by simp [initial]
  woken := by simp [initial]
  agrees := by simp [initial, WorkerPc.Agrees]
  handler := by simp [initial]

/-! ## One worker -/

namespace WorkerOk

variable {view : View} {packet : Nat} {sh : Shared}

/-- A worker that is not quiet was signalled and the wait for it is not over. -/
theorem not_calm (ok : WorkerOk view packet sh) (busy : sh.pc.quiet = false) :
    view.calm = false := by
  by_contra isCalm
  rw [ok.calm (by simpa using isCalm)] at busy
  cases busy

theorem current_of_not_calm (notCalm : view.calm = false) : view.current = true := by
  cases view <;> simp_all [View.calm, View.current]

theorem mhOk_of_not_calm (notCalm : view.calm = false) : view.mhOk = true ∧ view.pktOk = true := by
  cases view <;> simp_all [View.calm, View.mhOk, View.pktOk]

theorem publish (ok : WorkerOk .cleared packet sh) : WorkerOk .unsent (packet + 1) sh where
  worker := ok.worker
  caller := ok.caller
  calm _ := ok.calm rfl
  mh := by simp [View.mhOk]
  pkt := by simp [View.pktOk]
  running mh rule isRunning := by
    have isQuiet := ok.calm rfl
    rw [isRunning] at isQuiet
    cases isQuiet
  processed := by
    have finished := WorkerPc.finished_of_quiet (ok.calm rfl)
    rw [ok.processed, if_pos ⟨rfl, finished⟩, WorkerPc.started_of_finished finished,
      WorkerPc.started_of_finished finished]
    rfl
  results := by simp [ok.cleared rfl]
  cleared := by simp

theorem lock (ok : WorkerOk .unsent packet sh) (free : sh.processMutex = none) :
    WorkerOk .locked packet { sh with processMutex := some .caller } where
  worker := by
    have notHeld := ok.worker
    rw [free] at notHeld
    simpa using notHeld
  caller := by simp [View.holds]
  calm _ := ok.calm rfl
  mh := by simp [View.mhOk]
  pkt := by simp [View.pktOk]
  running := ok.running
  processed := ok.processed
  results := ok.results
  cleared := by simp

theorem writeMh (ok : WorkerOk .locked packet sh) :
    WorkerOk .mhWritten packet { sh with mh := packet } where
  worker := ok.worker
  caller := ok.caller
  calm _ := ok.calm rfl
  mh _ := rfl
  pkt := by simp [View.pktOk]
  running := ok.running
  processed := ok.processed
  results := ok.results
  cleared := by simp

theorem writePkt (ok : WorkerOk .mhWritten packet sh) :
    WorkerOk .written packet { sh with pkt := packet } where
  worker := ok.worker
  caller := ok.caller
  calm _ := ok.calm rfl
  mh _ := ok.mh rfl
  pkt _ := rfl
  running := ok.running
  processed := ok.processed
  results := ok.results
  cleared := by simp

/-- The caller signals a worker that waits. -/
theorem waiting (ok : WorkerOk .written packet sh) : sh.pc = .waiting := by
  refine WorkerPc.eq_waiting (ok.calm rfl) ?_
  by_contra holds
  have byWorker := ok.worker.mpr (by simpa using holds)
  have byCaller := ok.caller.mpr rfl
  rw [byWorker] at byCaller
  cases byCaller

theorem signal (ok : WorkerOk .written packet sh) :
    WorkerOk .sentLocked packet { sh with pc := sh.pc.signal } := by
  have woken : sh.pc.signal = .woken := by rw [ok.waiting]; rfl
  rw [woken]
  exact
    { worker := by
        have byCaller := ok.caller.mpr rfl
        simp [byCaller, WorkerPc.holdsProcess]
      caller := ok.caller
      calm := by simp [View.calm]
      mh := fun _ => ok.mh rfl
      pkt := fun _ => ok.pkt rfl
      running := by simp
      processed := by
        have before := ok.processed
        rw [ok.waiting] at before
        exact before
      results := ok.results
      cleared := by simp }

theorem unlock (ok : WorkerOk .sentLocked packet sh) :
    WorkerOk .sent packet { sh with processMutex := none } where
  worker := by
    have byCaller := ok.caller.mpr rfl
    have notHeld := ok.worker
    rw [byCaller] at notHeld
    simpa using notHeld
  caller := by simp [View.holds]
  calm := by simp [View.calm]
  mh _ := ok.mh rfl
  pkt _ := ok.pkt rfl
  running := ok.running
  processed := ok.processed
  results := ok.results
  cleared := by simp

theorem settle (ok : WorkerOk .sent packet sh) (isQuiet : sh.pc.quiet = true) :
    WorkerOk .settled packet sh where
  worker := ok.worker
  caller := ok.caller
  calm _ := isQuiet
  mh _ := ok.mh rfl
  pkt _ := ok.pkt rfl
  running := ok.running
  processed := ok.processed
  results := ok.results
  cleared := by simp

theorem collect (ok : WorkerOk .settled packet sh) :
    WorkerOk .cleared packet { sh with result := [] } where
  worker := ok.worker
  caller := ok.caller
  calm _ := ok.calm rfl
  mh _ := ok.mh rfl
  pkt _ := ok.pkt rfl
  running := ok.running
  processed := ok.processed
  results := by simp
  cleared _ := rfl

/-- The worker goes on without a turn, and takes or gives back its mutex or does not. -/
theorem move (ok : WorkerOk view packet sh) {mutex : Option Owner} {pc : WorkerPc}
    (worker : mutex = some .worker ↔ pc.holdsProcess = true)
    (caller : mutex = some .caller ↔ sh.processMutex = some .caller)
    (unfinished : pc.unfinished = sh.pc.unfinished)
    (started : pc.started sh.lowerBound packet = sh.pc.started sh.lowerBound packet)
    (running : ∀ mh rule, pc = .running mh rule → mh = packet ∧ sh.lowerBound ≤ rule ∧
      rule - sh.lowerBound ≤ sh.upperBound - sh.lowerBound)
    (calm : view.calm = true → pc.quiet = true) :
    WorkerOk view packet { sh with pc := pc, processMutex := mutex } where
  worker := worker
  caller := caller.trans ok.caller
  calm := calm
  mh := ok.mh
  pkt := ok.pkt
  running := running
  processed := by
    simp only [unfinished, started]
    exact ok.processed
  results := ok.results
  cleared := ok.cleared

/-- The worker goes on outside the rule loop, with the same mutex. -/
theorem setPc (ok : WorkerOk view packet sh) {pc : WorkerPc}
    (holds : pc.holdsProcess = sh.pc.holdsProcess) (before : sh.pc.unfinished = false)
    (after : pc.unfinished = false) (calm : view.calm = true → pc.quiet = true) :
    WorkerOk view packet { sh with pc := pc } := by
  refine ok.move (by rw [holds]; exact ok.worker) Iff.rfl (after.trans before.symm) ?_ ?_ calm
  · rw [WorkerPc.started_of_finished after, WorkerPc.started_of_finished before]
  · intro mh rule isRunning
    rw [isRunning] at after
    cases after

theorem own (ok : WorkerOk view packet sh) (pos : view.calm = false → 0 < packet) {sh' : Shared}
    (step : OwnStep sh sh') : WorkerOk view packet sh' := by
  cases step with
  | wake pc free =>
      have notCalm := ok.not_calm (by rw [pc]; rfl)
      exact ok.move (by simp [WorkerPc.holdsProcess]) (by simp [free]) (by rw [pc]; rfl)
        (by rw [pc]; rfl) (by simp) (by simp [notCalm])
  | unlockProcess pc =>
      have notCalm := ok.not_calm (by rw [pc]; rfl)
      have held : sh.processMutex = some .worker := ok.worker.mpr (by rw [pc]; rfl)
      exact ok.move (by simp [WorkerPc.holdsProcess]) (by simp [held]) (by rw [pc]; rfl)
        (by rw [pc]; rfl) (by simp) (by simp [notCalm])
  | load pc =>
      have notCalm := ok.not_calm (by rw [pc]; rfl)
      have mh := ok.mh (mhOk_of_not_calm notCalm).1
      have notHeld := ok.worker
      rw [pc] at notHeld
      refine ok.move notHeld Iff.rfl (by rw [pc]; rfl) ?_ ?_ (by simp [notCalm])
      · rw [pc]
        simp [WorkerPc.started, turns]
      · intro mh' rule same
        cases same
        exact ⟨mh, Nat.le_refl _, by simp⟩
  | @turn mh rule generated pc more =>
      have notCalm := ok.not_calm (by rw [pc]; rfl)
      have pkt := ok.pkt (mhOk_of_not_calm notCalm).2
      obtain ⟨isPacket, lower, -⟩ := ok.running mh rule pc
      refine ⟨?_, ok.caller, by simp [notCalm], ok.mh, ok.pkt, ?_, ?_, fun x mem => ?_,
        fun isCleared => ?_⟩
      · have notHeld := ok.worker
        rw [pc] at notHeld
        exact notHeld
      · intro mh' rule' same
        cases same
        simp only
        exact ⟨isPacket, by omega, by omega⟩
      · -- both the handler and the packet of the turn are the current ones
        have before := ok.processed
        rw [pc, if_neg (by simp [WorkerPc.unfinished]), WorkerPc.started] at before
        rw [if_neg (by simp [WorkerPc.unfinished])]
        simp only [before, isPacket, pkt, WorkerPc.started, turns_succ lower, List.append_assoc]
      · rcases List.mem_append.mp mem with old | new
        · exact ok.results x old
        · rw [List.eq_of_mem_replicate new]
          exact pkt
      · rw [isCleared] at notCalm
        cases notCalm
  | @finish mh rule pc last =>
      have notCalm := ok.not_calm (by rw [pc]; rfl)
      obtain ⟨-, lower, upper⟩ := ok.running mh rule pc
      refine ⟨?_, ok.caller, by simp [notCalm], ok.mh, ok.pkt, by simp, ?_, ok.results, ok.cleared⟩
      · have notHeld := ok.worker
        rw [pc] at notHeld
        exact notHeld
      · -- the last turn completes the round of the current packet
        have before := ok.processed
        have all : rule - sh.lowerBound = sh.upperBound - sh.lowerBound := by omega
        have next : packet = packet - 1 + 1 := by have := pos notCalm; omega
        rw [pc, if_neg (by simp [WorkerPc.unfinished]), WorkerPc.started, all] at before
        rw [if_pos ⟨current_of_not_calm notCalm, rfl⟩]
        simp only [before, WorkerPc.started, List.append_nil]
        rw [next, rounds_succ, Nat.add_sub_cancel]
  | lockProcess pc free =>
      have notCalm := ok.not_calm (by rw [pc]; rfl)
      exact ok.move (by simp [WorkerPc.holdsProcess]) (by simp [free]) (by rw [pc]; rfl)
        (by rw [pc]; rfl) (by simp) (by simp [notCalm])
  | wait pc =>
      have held : sh.processMutex = some .worker := ok.worker.mpr (by rw [pc]; rfl)
      exact ok.move (by simp [WorkerPc.holdsProcess]) (by simp [held]) (by rw [pc]; rfl)
        (by rw [pc]; rfl) (by simp) (by simp [WorkerPc.quiet])

end WorkerOk

/-- The steps of a worker on its own do not touch the counter or the mutex of the results. -/
theorem OwnStep.apart {sh sh' : Shared} (step : OwnStep sh sh') :
    sh'.pc.active = sh.pc.active ∧ sh'.pc.holdsResult = false ∧ sh.pc.holdsResult = false := by
  cases step with
  | wake pc free => simp [pc, WorkerPc.active, WorkerPc.holdsResult]
  | unlockProcess pc => simp [pc, WorkerPc.active, WorkerPc.holdsResult]
  | load pc => simp [pc, WorkerPc.active, WorkerPc.holdsResult]
  | turn generated pc more => simp [pc, WorkerPc.active, WorkerPc.holdsResult]
  | finish pc last => simp [pc, WorkerPc.active, WorkerPc.holdsResult]
  | lockProcess pc free => simp [pc, WorkerPc.active, WorkerPc.holdsResult]
  | wait pc => simp [pc, WorkerPc.active, WorkerPc.holdsResult]

/-! ## Steps of the caller -/

section CallerSteps

variable {numProc : Nat} {s : State}

theorem pending_congr {s' : State} (same : ∀ j < numProc, done s' j = done s j) :
    pending numProc s' = pending numProc s := by
  refine Finset.filter_congr fun j mem => ?_
  rw [same j (Finset.mem_range.mp mem)]

/-- A point of one of the two loops of the caller, or the one right after it. -/
structure CallerPc.InLoop (numProc : Nat) (isReset : Bool) (c : CallerPc) : Prop where
  index : ∀ j, c.index? = some j → j < numProc
  holdsResult : c.holdsResult = false
  isReset : c.isReset = isReset
  plain : c ≠ .waiting ∧ c ≠ .woken ∧ c ≠ .unlockingResult ∧ c ≠ .resetting

theorem nextLock_inLoop (numProc i : Nat) : (nextLock numProc i).InLoop numProc false := by
  unfold nextLock
  split
  · next lt => exact ⟨by simpa [CallerPc.index?] using lt, rfl, rfl, by simp⟩
  · exact ⟨by simp [CallerPc.index?], rfl, rfl, by simp⟩

theorem nextCollect_inLoop (numProc i : Nat) : (nextCollect numProc i).InLoop numProc true := by
  unfold nextCollect
  split
  · next lt => exact ⟨by simpa [CallerPc.index?] using lt, rfl, rfl, by simp⟩
  · exact ⟨by simp [CallerPc.index?], rfl, rfl, by simp⟩

/-- The caller moves from one operation to the next within a loop, dealing with worker `i`. -/
theorem Inv.advance (inv : Inv numProc s) {i : Nat} {c : CallerPc} {sh : Shared} (lt : i < numProc)
    (views : ∀ j < numProc, j ≠ i → c.view j = s.caller.view j)
    (ok : WorkerOk (c.view i) s.packet sh)
    (sameDone : ((c.view i).current && !sh.pc.active) = done s i)
    (samePc : sh.pc = (s.shared i).pc ∨ sh.pc.holdsResult = false ∧
      (s.shared i).pc.holdsResult = false)
    (before : s.caller.holdsResult = false) (after : c.InLoop numProc s.caller.isReset)
    (busy : s.caller ≠ .idle) : Inv numProc { s.set i sh with caller := c } := by
  have here : (Function.update s.shared i sh) i = sh := Function.update_self _ _ _
  have there : ∀ j, j ≠ i → (Function.update s.shared i sh) j = s.shared j :=
    fun j ne => Function.update_of_ne ne _ _
  have samePending : pending numProc { s.set i sh with caller := c } = pending numProc s := by
    refine pending_congr fun j lt' => ?_
    simp only [done, State.set]
    rcases eq_or_ne j i with rfl | ne
    · rw [here]
      exact sameDone
    · rw [there j ne, views j lt' ne]
  refine ⟨fun j lt' => ?_, after.index, fun j lt' => ?_, inv.resultOwner, ?_, ?_, ?_, ?_, ?_, ?_,
    fun j lt' => ?_, ?_⟩
  · simp only [State.set]
    rcases eq_or_ne j i with rfl | ne
    · rw [here]
      exact ok
    · rw [there j ne, views j lt' ne]
      exact inv.workers j lt'
  · simp only [State.set]
    rcases eq_or_ne j i with rfl | ne
    · rw [here]
      rcases samePc with same | ⟨now, before⟩
      · rw [same]
        exact inv.result j lt'
      · rw [now, ← before]
        exact inv.result j lt'
    · rw [there j ne]
      exact inv.result j lt'
  · have notHeld := inv.resultCaller
    rw [before] at notHeld
    simp only [after.holdsResult]
    exact notHeld
  · intro notReset
    rw [samePending]
    exact inv.counter (after.isReset ▸ notReset)
  · intro nowReset
    exact inv.counterReset (after.isReset ▸ nowReset)
  · simp [after.plain]
  · simp [after.plain]
  · simp [after.plain]
  · simp only [State.set]
    rcases eq_or_ne j i with rfl | ne
    · rw [here]
      rcases samePc with same | ⟨now, -⟩
      · rw [same]
        exact inv.agrees j lt'
      · exact WorkerPc.agrees_of_not_holdsResult now _
    · rw [there j ne]
      exact inv.agrees j lt'
  · exact fun _ => inv.handler busy

theorem Inv.publish (inv : Inv numProc s) (pc : s.caller = .idle) :
    Inv numProc { s with
      caller := nextLock numProc 0, packet := s.packet + 1, handler := some (s.packet + 1) } := by
  have unsent : ∀ j < numProc, (nextLock numProc 0).view j = .unsent := by
    intro j lt
    rw [CallerPc.view_nextLock lt, if_neg (Nat.not_lt_zero j)]
  have notHeld : ¬ s.resultMutex = some .caller := by
    rw [inv.resultCaller, pc]
    simp [CallerPc.holdsResult]
  have loop := nextLock_inLoop numProc 0
  refine ⟨fun j lt => ?_, loop.index, inv.result, inv.resultOwner, ?_, ?_, ?_, ?_, ?_, ?_,
    inv.agrees, ?_⟩
  · have ok := inv.workers j lt
    rw [pc] at ok
    simp only [unsent j lt]
    exact ok.publish
  · simp [notHeld, loop.holdsResult]
  · -- nobody is done with the new packet
    intro _
    have all : pending numProc { s with
        caller := nextLock numProc 0, packet := s.packet + 1, handler := some (s.packet + 1) } =
        Finset.range numProc := by
      refine Finset.filter_true_of_mem fun j mem => ?_
      simp only [done, unsent j (Finset.mem_range.mp mem)]
      rfl
    rw [all, Finset.card_range]
    exact inv.counterReset (by rw [pc]; rfl)
  · simp [loop.isReset]
  · simp [loop.plain]
  · simp [loop.plain]
  · simp [loop.plain]
  · exact fun _ => ⟨rfl, Nat.succ_pos _⟩

/-- The caller goes on without a change to what it has done for the workers. -/
theorem Inv.proceed (inv : Inv numProc s) {c : CallerPc} {mutex : Option Party}
    (views : ∀ j < numProc, c.view j = s.caller.view j) (noIndex : c.index? = none)
    (workers : ∀ j, mutex = some (.worker j) ↔ s.resultMutex = some (.worker j))
    (holdsResult : mutex = some .caller ↔ c.holdsResult = true)
    (isReset : c.isReset = s.caller.isReset)
    (notWoken : c ≠ .woken)
    (zero : c = .unlockingResult ∨ c = .resetting → s.stillProcessing = 0)
    (signalled : c = .waiting → s.stillProcessing ≠ 0) (busy : s.caller ≠ .idle) :
    Inv numProc { s with caller := c, resultMutex := mutex } := by
  have samePending : pending numProc { s with caller := c, resultMutex := mutex } =
      pending numProc s := by
    refine pending_congr fun j lt => ?_
    simp only [done, views j lt]
  refine ⟨fun j lt => ?_, ?_, fun j lt => ?_, fun j owns => ?_, holdsResult, ?_, ?_, ?_, ?_, ?_,
    inv.agrees, ?_⟩
  · simp only [views j lt]
    exact inv.workers j lt
  · simp [noIndex]
  · exact (workers j).trans (inv.result j lt)
  · exact inv.resultOwner j ((workers j).mp owns)
  · intro notReset
    rw [samePending]
    exact inv.counter (isReset ▸ notReset)
  · intro nowReset
    exact inv.counterReset (isReset ▸ nowReset)
  · exact fun past => zero (past.resolve_left notWoken)
  · intro waits isZero
    exact absurd isZero (signalled waits)
  · exact fun same => absurd same notWoken
  · exact fun _ => inv.handler busy

/-- When the counter is 0 and no worker has the result mutex, all workers wait or are about to. -/
theorem Inv.quiet_of_zero (inv : Inv numProc s) (sent : ∀ j, s.caller.view j = .sent)
    (notReset : s.caller.isReset = false) (zero : s.stillProcessing = 0)
    (free : ∀ j, s.resultMutex ≠ some (.worker j)) :
    ∀ j < numProc, (s.shared j).pc.quiet = true := by
  intro j lt
  have none : (pending numProc s).card = 0 := by
    have counter := inv.counter notReset
    omega
  have isDone : done s j = true := by
    by_contra notDone
    have mem : j ∈ pending numProc s :=
      Finset.mem_filter.mpr ⟨Finset.mem_range.mpr lt, by simpa using notDone⟩
    rw [Finset.card_eq_zero.mp none] at mem
    cases mem
  have inactive : (s.shared j).pc.active = false := by
    simpa [done, sent j, View.current] using isDone
  have noResult : (s.shared j).pc.holdsResult = false := by
    by_contra holds
    exact free j ((inv.result j lt).mpr (by simpa using holds))
  exact WorkerPc.quiet_of_not_active inactive noResult

/-- The wait is over. -/
theorem Inv.settle (inv : Inv numProc s) (sent : ∀ j, s.caller.view j = .sent)
    (notReset : s.caller.isReset = false) (zero : s.stillProcessing = 0)
    (free : ∀ j, s.resultMutex ≠ some (.worker j)) (busy : s.caller ≠ .idle) :
    Inv numProc { s with caller := .unlockingResult, resultMutex := some .caller } := by
  have quiet := inv.quiet_of_zero sent notReset zero free
  have samePending : pending numProc
      { s with caller := .unlockingResult, resultMutex := some .caller } = pending numProc s := by
    refine pending_congr fun j lt => ?_
    simp only [done, sent j]
    rfl
  refine ⟨fun j lt => ?_, by simp [CallerPc.index?], fun j lt => ?_, by simp, by
    simp [CallerPc.holdsResult], ?_, by simp [CallerPc.isReset], fun _ => zero, by simp, by simp,
    inv.agrees, ?_⟩
  · have ok := inv.workers j lt
    rw [sent j] at ok
    exact ok.settle (quiet j lt)
  · have noResult := inv.result j lt
    rw [iff_false_intro (free j)] at noResult
    simpa using noResult
  · intro _
    rw [samePending]
    exact inv.counter notReset
  · exact fun _ => inv.handler busy

/-- Resetting the counter: no worker is in the way. -/
theorem Inv.reset (inv : Inv numProc s) (pc : s.caller = .resetting) :
    Inv numProc { s with caller := nextCollect numProc 0, stillProcessing := numProc } := by
  have views : ∀ j < numProc, (nextCollect numProc 0).view j = s.caller.view j := by
    intro j lt
    rw [CallerPc.view_nextCollect lt, if_neg (Nat.not_lt_zero j), pc]
    rfl
  have notHeld : ¬ s.resultMutex = some .caller := by
    rw [inv.resultCaller, pc]
    simp [CallerPc.holdsResult]
  have loop := nextCollect_inLoop numProc 0
  refine ⟨fun j lt => ?_, loop.index, inv.result, inv.resultOwner, ?_, ?_, fun _ => rfl, ?_, ?_, ?_,
    fun j lt => ?_, ?_⟩
  · simp only [views j lt]
    exact inv.workers j lt
  · simp [notHeld, loop.holdsResult]
  · simp [loop.isReset]
  · simp [loop.plain]
  · simp [loop.plain]
  · simp [loop.plain]
  · -- no worker is between its reads and writes of the counter
    have isQuiet := (inv.workers j lt).calm (by rw [pc]; rfl)
    exact WorkerPc.agrees_of_not_holdsResult (WorkerPc.not_holdsResult_of_quiet isQuiet) _
  · exact fun _ => inv.handler (by rw [pc]; simp)

theorem Inv.delete (inv : Inv numProc s) (pc : s.caller = .deleting) :
    Inv numProc { s with caller := .idle, handler := none } := by
  have notHeld : ¬ s.resultMutex = some .caller := by
    rw [inv.resultCaller, pc]
    simp [CallerPc.holdsResult]
  refine ⟨fun j lt => ?_, by simp [CallerPc.index?], inv.result, inv.resultOwner, ?_,
    by simp [CallerPc.isReset], fun _ => ?_, by simp, by simp, by simp, inv.agrees, by simp⟩
  · have ok := inv.workers j lt
    rw [pc] at ok
    exact ok
  · simp [notHeld, CallerPc.holdsResult]
  · exact inv.counterReset (by rw [pc]; rfl)

/-- A point of the sending loop where the caller deals with worker `i`, as the worker sees it. -/
structure CallerPc.Sending (i : Nat) (view : View) (c : CallerPc) : Prop where
  here : c.view i = view
  others : ∀ j, j ≠ i → c.view j = if j < i then .sent else .unsent
  index : c.index? = some i
  holdsResult : c.holdsResult = false
  isReset : c.isReset = false
  plain : c ≠ .waiting ∧ c ≠ .woken ∧ c ≠ .unlockingResult ∧ c ≠ .resetting
  busy : c ≠ .idle

theorem CallerPc.sending_locking (i : Nat) : (CallerPc.locking i).Sending i .unsent :=
  ⟨by simp [view], fun j _ => rfl, rfl, rfl, rfl, by simp, by simp⟩

theorem CallerPc.sending_writingMh (i : Nat) : (CallerPc.writingMh i).Sending i .locked :=
  ⟨by simp [view], fun j ne => by simp [view, ne], rfl, rfl, rfl, by simp, by simp⟩

theorem CallerPc.sending_writingPkt (i : Nat) : (CallerPc.writingPkt i).Sending i .mhWritten :=
  ⟨by simp [view], fun j ne => by simp [view, ne], rfl, rfl, rfl, by simp, by simp⟩

theorem CallerPc.sending_signalling (i : Nat) : (CallerPc.signalling i).Sending i .written :=
  ⟨by simp [view], fun j ne => by simp [view, ne], rfl, rfl, rfl, by simp, by simp⟩

theorem CallerPc.sending_unlocking (i : Nat) : (CallerPc.unlocking i).Sending i .sentLocked :=
  ⟨by simp [view], fun j ne => by simp [view, ne], rfl, rfl, rfl, by simp, by simp⟩

/-- One operation of the sending loop, after which the caller still deals with worker `i`. -/
theorem Inv.send (inv : Inv numProc s) {i : Nat} {c : CallerPc} {sh : Shared} {old new : View}
    (before : s.caller.Sending i old) (after : c.Sending i new)
    (ok : WorkerOk old s.packet (s.shared i) → WorkerOk new s.packet sh)
    (sameDone : WorkerOk old s.packet (s.shared i) →
      (new.current && !sh.pc.active) = (old.current && !(s.shared i).pc.active))
    (samePc : WorkerOk old s.packet (s.shared i) → sh.pc = (s.shared i).pc ∨
      sh.pc.holdsResult = false ∧ (s.shared i).pc.holdsResult = false) :
    Inv numProc { s.set i sh with caller := c } := by
  have lt := inv.index i before.index
  have was := inv.workers i lt
  rw [before.here] at was
  refine inv.advance lt (fun j _ ne => ?_) (after.here ▸ ok was) ?_ (samePc was) before.holdsResult
    ⟨fun j at_ => ?_, after.holdsResult, ?_, after.plain⟩ before.busy
  · rw [after.others j ne, before.others j ne]
  · rw [done, after.here, before.here]
    exact sameDone was
  · rw [after.index] at at_
    cases at_
    exact lt
  · rw [after.isReset, before.isReset]

theorem Inv.callerStep (inv : Inv numProc s) {s' : State} (step : CallerStep numProc s s') :
    Inv numProc s' := by
  cases step with
  | publish pc => exact inv.publish pc
  | @lockProcess i pc free =>
      exact inv.send (pc ▸ CallerPc.sending_locking i) (CallerPc.sending_writingMh i)
        (fun ok => ok.lock free) (fun _ => rfl) (fun _ => .inl rfl)
  | @writeMh i pc =>
      exact inv.send (pc ▸ CallerPc.sending_writingMh i) (CallerPc.sending_writingPkt i)
        WorkerOk.writeMh (fun _ => rfl) (fun _ => .inl rfl)
  | @writePkt i pc =>
      exact inv.send (pc ▸ CallerPc.sending_writingPkt i) (CallerPc.sending_signalling i)
        WorkerOk.writePkt (fun _ => rfl) (fun _ => .inl rfl)
  | @signalProcess i pc =>
      have woken : ∀ ok : WorkerOk .written s.packet (s.shared i),
          (s.shared i).pc.signal = .woken := fun ok => by rw [ok.waiting]; rfl
      refine inv.send (pc ▸ CallerPc.sending_signalling i) (CallerPc.sending_unlocking i)
        WorkerOk.signal (fun ok => ?_) (fun ok => .inr ?_)
      · simp [woken ok, View.current, WorkerPc.active]
      · rw [woken ok, ok.waiting]
        exact ⟨rfl, rfl⟩
  | @unlockProcess i pc =>
      have lt := inv.index i (by rw [pc]; rfl)
      have ok := inv.workers i lt
      have sentLocked : s.caller.view i = .sentLocked := by simp [pc, CallerPc.view]
      rw [sentLocked] at ok
      have here : (nextLock numProc (i + 1)).view i = .sent := by
        rw [CallerPc.view_nextLock lt, if_pos (Nat.lt_succ_self i)]
      refine inv.advance lt ?_ ?_ ?_ (.inl rfl) (by rw [pc]; rfl) ?_ (by simp [pc])
      · intro j lt' ne
        rw [CallerPc.view_nextLock lt', pc]
        simp only [CallerPc.view, if_neg ne]
        split <;> split <;> first | rfl | omega
      · rw [here]
        exact ok.unlock
      · simp [done, sentLocked, here, View.current]
      · rw [pc]
        exact nextLock_inLoop numProc (i + 1)
  | lockResult pc free =>
      refine inv.proceed ?_ rfl ?_ ?_ ?_ ?_ ?_ ?_ ?_ <;>
        simp [pc, free, CallerPc.view, CallerPc.holdsResult, CallerPc.isReset]
  | testZero pc zero =>
      have held : s.resultMutex = some .caller := inv.resultCaller.mpr (by rw [pc]; rfl)
      have settled := inv.settle (fun j => by rw [pc]; rfl) (by rw [pc]; rfl) zero
        (fun j => by simp [held]) (by simp [pc])
      rwa [← held] at settled
  | testWait pc nonzero =>
      have held : s.resultMutex = some .caller := inv.resultCaller.mpr (by rw [pc]; rfl)
      refine inv.proceed ?_ rfl ?_ ?_ ?_ ?_ ?_ ?_ ?_ <;>
        simp [pc, held, nonzero, CallerPc.view, CallerPc.holdsResult, CallerPc.isReset]
  | wake pc free =>
      exact inv.settle (fun j => by rw [pc]; rfl) (by rw [pc]; rfl) (inv.zero (.inl pc))
        (fun j => by simp [free]) (by simp [pc])
  | unlockResult pc =>
      have held : s.resultMutex = some .caller := inv.resultCaller.mpr (by rw [pc]; rfl)
      have zero := inv.zero (.inr (.inl pc))
      refine inv.proceed ?_ rfl ?_ ?_ ?_ ?_ ?_ ?_ ?_ <;>
        simp [pc, held, zero, CallerPc.view, CallerPc.holdsResult, CallerPc.isReset]
  | reset pc => exact inv.reset pc
  | @collect i pc =>
      have lt := inv.index i (by rw [pc]; rfl)
      have ok := inv.workers i lt
      have settled : s.caller.view i = .settled := by simp [pc, CallerPc.view]
      rw [settled] at ok
      have here : (nextCollect numProc (i + 1)).view i = .cleared := by
        rw [CallerPc.view_nextCollect lt, if_pos (Nat.lt_succ_self i)]
      refine inv.advance lt ?_ ?_ ?_ (.inl rfl) (by rw [pc]; rfl) ?_ (by simp [pc])
      · intro j lt' ne
        rw [CallerPc.view_nextCollect lt', pc]
        simp only [CallerPc.view]
        split <;> split <;> first | rfl | omega
      · rw [here]
        exact ok.collect
      · simp [done, settled, here, View.current]
      · rw [pc]
        exact nextCollect_inLoop numProc (i + 1)
  | delete pc => exact inv.delete pc

end CallerSteps

end Handshake

end TRex
