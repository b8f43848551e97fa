import TRex.HandshakeSafety

/-!
# The end of the workers

`~TRexEngine`: for one worker after the other it sets the `finish` flag, wakes the worker up, joins
its thread and destroys its mutex. The thread that publishes calls it, so the caller is idle by
then; the workers may still be on their way back to their wait. No wake-up is lost, nothing is
destroyed that a worker still uses, and the destructor always comes to its end (`shutdown_safe`).

As in `Reachable`, the runs start when every worker waits for the first time, and waits end by a
signal only. A worker that has yet to lock its mutex for the first time would miss the destructor's
signal and wait for ever, since it looks at the flag only after a wait, and the join would not
return. -/

namespace TRex

namespace Handshake

/-! ## States -/

/-- The destructor: before each operation for worker `i`; before it deletes what the workers share;
at its end. -/
inductive DestroyerPc
  | setting (i : Nat)
  | locking (i : Nat)
  | signalling (i : Nat)
  | unlocking (i : Nat)
  | joining (i : Nat)
  | destroying (i : Nat)
  | deletingShared
  | done
  deriving DecidableEq

structure Ending where
  state : State
  finish : Nat → Bool
  /-- The thread has ended. -/
  exited : Nat → Bool
  /-- The mutex and the condition variable of the worker are destroyed. -/
  destroyed : Nat → Bool
  pc : DestroyerPc

section Steps

variable (numProc : Nat)

def nextDestroyed (i : Nat) : DestroyerPc := if i < numProc then .setting i else .deletingShared

def Ending.start (s : State) : Ending :=
  { state := s, finish := fun _ => false, exited := fun _ => false, destroyed := fun _ => false
    pc := nextDestroyed numProc 0 }

inductive DestroyerStep : Ending → Ending → Prop
  | setFinish {e : Ending} {i : Nat} (pc : e.pc = .setting i) :
      DestroyerStep e { e with finish := Function.update e.finish i true, pc := .locking i }
  | lockProcess {e : Ending} {i : Nat} (pc : e.pc = .locking i)
      (free : (e.state.shared i).processMutex = none) :
      DestroyerStep e { e with
        state := e.state.set i { e.state.shared i with processMutex := some .caller }
        pc := .signalling i }
  | signalProcess {e : Ending} {i : Nat} (pc : e.pc = .signalling i) :
      DestroyerStep e { e with
        state := e.state.set i { e.state.shared i with pc := (e.state.shared i).pc.signal }
        pc := .unlocking i }
  | unlockProcess {e : Ending} {i : Nat} (pc : e.pc = .unlocking i) :
      DestroyerStep e { e with
        state := e.state.set i { e.state.shared i with processMutex := none }, pc := .joining i }
  | join {e : Ending} {i : Nat} (pc : e.pc = .joining i) (exited : e.exited i = true) :
      DestroyerStep e { e with pc := .destroying i }
  | destroy {e : Ending} {i : Nat} (pc : e.pc = .destroying i) :
      DestroyerStep e { e with
        destroyed := Function.update e.destroyed i true, pc := nextDestroyed numProc (i + 1) }
  | deleteShared {e : Ending} (pc : e.pc = .deletingShared) : DestroyerStep e { e with pc := .done }

/-- A worker looks at the flag when it is back with its mutex; else it goes on as it did. -/
inductive EndingStep : Ending → Ending → Prop
  | destroyer {e e' : Ending} (step : DestroyerStep numProc e e') : EndingStep e e'
  | worker {e : Ending} {s : State} {i : Nat} (lt : i < numProc) (alive : e.exited i = false)
      (goesOn : (e.state.shared i).pc = .holding → e.finish i = false)
      (step : WorkerStep i e.state s) : EndingStep e { e with state := s }
  | exit {e : Ending} {i : Nat} (lt : i < numProc) (alive : e.exited i = false)
      (pc : (e.state.shared i).pc = .holding) (finish : e.finish i = true) :
      EndingStep e { e with
        state := e.state.set i { e.state.shared i with processMutex := none }
        exited := Function.update e.exited i true }

/-- The states of all runs of the destructor, after any run of publications by workers that have all
waited at least once. -/
inductive EndingReachable (size : Nat) : Ending → Prop
  | start {s : State} (before : Reachable numProc size s) (idle : s.caller = .idle) :
      EndingReachable size (Ending.start numProc s)
  | step {e e' : Ending} (before : EndingReachable size e) (step : EndingStep numProc e e') :
      EndingReachable size e'

end Steps

/-! ## The invariant -/

/-- Outside the work on a packet. -/
def WorkerPc.atRest : WorkerPc → Bool
  | .waiting | .entering | .woken | .holding => true
  | _ => false

theorem WorkerPc.atRest_of_quiet {pc : WorkerPc} (quiet : pc.quiet = true) : pc.atRest = true := by
  cases pc <;> first | rfl | cases quiet

/-- What the destructor has done about one worker. -/
inductive Phase
  | untouched | told | locked | signalled | leaving | joined | destroyed
  deriving DecidableEq

namespace Phase

def holds : Phase → Bool
  | .locked | .signalled => true
  | _ => false

/-- Where a worker may be that is still alive. -/
def Allows : Phase → WorkerPc → Prop
  | .untouched, pc | .told, pc => pc.quiet = true
  | .locked, pc => pc = .waiting
  | .signalled, pc => pc = .woken
  | .leaving, pc => pc = .woken ∨ pc = .holding
  | .joined, _ | .destroyed, _ => False

end Phase

namespace DestroyerPc

def phase (i : Nat) : DestroyerPc → Phase
  | .setting j => if i < j then .destroyed else .untouched
  | .locking j => if i < j then .destroyed else if i = j then .told else .untouched
  | .signalling j => if i < j then .destroyed else if i = j then .locked else .untouched
  | .unlocking j => if i < j then .destroyed else if i = j then .signalled else .untouched
  | .joining j => if i < j then .destroyed else if i = j then .leaving else .untouched
  | .destroying j => if i < j then .destroyed else if i = j then .joined else .untouched
  | .deletingShared | .done => .destroyed

def index? : DestroyerPc → Option Nat
  | .setting i | .locking i | .signalling i | .unlocking i | .joining i | .destroying i => some i
  | .deletingShared | .done => none

theorem phase_next {numProc i : Nat} (lt : i < numProc) (j : Nat) :
    (nextDestroyed numProc j).phase i = if i < j then .destroyed else .untouched := by
  unfold nextDestroyed
  split
  · rfl
  · rw [if_pos (by omega)]
    rfl

end DestroyerPc

/-- What holds of a worker, by what the destructor has done about it. -/
structure Leaves (phase : Phase) (sh : Shared) (finish exited destroyed : Bool) : Prop where
  told : finish = true ↔ phase ≠ .untouched
  gone : phase = .joined ∨ phase = .destroyed → exited = true
  alive : exited = false → phase.Allows sh.pc
  early : exited = true → phase = .leaving ∨ phase = .joined ∨ phase = .destroyed
  caller : sh.processMutex = some .caller ↔ phase.holds = true
  worker : sh.processMutex = some .worker ↔ exited = false ∧ sh.pc.holdsProcess = true
  freed : destroyed = true ↔ phase = .destroyed

structure EndingInv (numProc size : Nat) (e : Ending) : Prop where
  workers : ∀ i < numProc, Leaves (e.pc.phase i) (e.state.shared i) (e.finish i) (e.exited i)
    (e.destroyed i)
  index : ∀ i, e.pc.index? = some i → i < numProc
  resultMutex : e.state.resultMutex = none
  complete : ∀ i < numProc, (e.state.shared i).processed =
    rounds (size * i) (size * (i + 1)) e.state.packet

variable {numProc size : Nat} {e e' : Ending}

/-- When the destructor starts, every worker waits or is about to. -/
theorem EndingInv.start {s : State} (reachable : Reachable numProc size s)
    (idle : s.caller = .idle) :
    EndingInv numProc size (Ending.start numProc s) := by
  have inv := reachable.inv
  have past : s.caller.past = true := by rw [idle]; rfl
  refine ⟨fun i lt => ?_, fun i isIndex => ?_, ?_, (reachable.safe).complete past⟩
  · have quiet := inv.quiet_of_past past lt
    have ok := inv.workers i lt
    have view : s.caller.view i = .cleared := by rw [idle]; rfl
    have phase : (Ending.start numProc s).pc.phase i = .untouched := by
      rw [Ending.start, DestroyerPc.phase_next lt, if_neg (Nat.not_lt_zero i)]
    rw [phase]
    refine ⟨by simp [Ending.start], by simp, fun _ => quiet, by simp [Ending.start], ?_, ?_, ?_⟩
    · rw [show (Ending.start numProc s).state = s from rfl, ok.caller, view]
      simp [View.holds, Phase.holds]
    · rw [show (Ending.start numProc s).state = s from rfl, ok.worker]
      simp [Ending.start]
    · simp [Ending.start]
  · unfold Ending.start nextDestroyed at isIndex
    split at isIndex
    · cases isIndex
      assumption
    · cases isIndex
  · cases held : s.resultMutex with
    | none => exact held
    | some party =>
        cases party with
        | caller =>
            have holds := inv.resultCaller.mp held
            rw [idle] at holds
            cases holds
        | worker i =>
            have lt := inv.resultOwner i held
            have holds := (inv.result i lt).mp held
            rw [WorkerPc.not_holdsResult_of_quiet (inv.quiet_of_past past lt)] at holds
            cases holds

/-! ## One worker -/

namespace Leaves

variable {phase : Phase} {sh : Shared} {finish exited destroyed : Bool}

theorem isAlive (ok : Leaves phase sh finish exited destroyed) (notLeaving : phase ≠ .leaving)
    (notJoined : phase ≠ .joined) (notDestroyed : phase ≠ .destroyed) : exited = false := by
  by_contra gone
  rcases ok.early (by simpa using gone) with is | is | is
  · exact notLeaving is
  · exact notJoined is
  · exact notDestroyed is

theorem tell (ok : Leaves .untouched sh finish exited destroyed) :
    Leaves .told sh true exited destroyed where
  told := by simp
  gone := by simp
  alive := ok.alive
  early gone := by simpa using ok.early gone
  caller := ok.caller
  worker := ok.worker
  freed := by simpa using ok.freed

/-- The worker waits when the destructor has its mutex. -/
theorem lock (ok : Leaves .told sh finish exited destroyed) (free : sh.processMutex = none) :
    Leaves .locked { sh with processMutex := some .caller } finish exited destroyed := by
  have alive := ok.isAlive (by simp) (by simp) (by simp)
  have notHolds : sh.pc.holdsProcess = false := by
    by_contra holds
    have owned := ok.worker.mpr ⟨alive, by simpa using holds⟩
    rw [free] at owned
    cases owned
  have waits : sh.pc = .waiting := WorkerPc.eq_waiting (ok.alive alive) notHolds
  refine ⟨by simpa using ok.told, by simp, fun _ => waits, fun gone => ?_, ?_, ?_, ?_⟩
  · rw [alive] at gone
    cases gone
  · simp [Phase.holds]
  · simp [waits, WorkerPc.holdsProcess]
  · simpa using ok.freed

theorem signal (ok : Leaves .locked sh finish exited destroyed) :
    Leaves .signalled { sh with pc := sh.pc.signal } finish exited destroyed := by
  have alive := ok.isAlive (by simp) (by simp) (by simp)
  have waits : sh.pc = .waiting := ok.alive alive
  have owned := ok.caller.mpr rfl
  refine ⟨by simpa using ok.told, by simp, fun _ => ?_, fun gone => ?_, ?_, ?_, ?_⟩
  · simp [Phase.Allows, waits, WorkerPc.signal]
  · rw [alive] at gone
    cases gone
  · exact iff_of_true owned rfl
  · simp [owned, waits, WorkerPc.signal, WorkerPc.holdsProcess]
  · simpa using ok.freed

theorem unlock (ok : Leaves .signalled sh finish exited destroyed) :
    Leaves .leaving { sh with processMutex := none } finish exited destroyed := by
  have alive := ok.isAlive (by simp) (by simp) (by simp)
  have isWoken : sh.pc = .woken := ok.alive alive
  refine ⟨by simpa using ok.told, by simp, fun _ => .inl isWoken, fun _ => .inl rfl, ?_, ?_, ?_⟩
  · simp [Phase.holds]
  · simp [isWoken, WorkerPc.holdsProcess]
  · simpa using ok.freed

theorem join (ok : Leaves .leaving sh finish true destroyed) :
    Leaves .joined sh finish true destroyed where
  told := by simpa using ok.told
  gone _ := rfl
  alive := by simp
  early _ := .inr (.inl rfl)
  caller := ok.caller
  worker := ok.worker
  freed := by simpa using ok.freed

theorem destroy (ok : Leaves .joined sh finish exited destroyed) :
    Leaves .destroyed sh finish exited true where
  told := by simpa using ok.told
  gone _ := ok.gone (.inl rfl)
  alive notGone := by simp [ok.gone (.inl rfl)] at notGone
  early _ := .inr (.inr rfl)
  caller := ok.caller
  worker := ok.worker
  freed := by simp

/-- Where a worker is that is still alive, and what the destructor has done about it. -/
theorem pc_cases (ok : Leaves phase sh finish exited destroyed) (alive : exited = false) :
    (sh.pc.quiet = true ∧ phase ≠ .leaving) ∨ (sh.pc = .woken ∧ phase.holds = true) ∨
      ((sh.pc = .woken ∨ sh.pc = .holding) ∧ phase = .leaving) := by
  have allowed := ok.alive alive
  cases phase with
  | untouched => exact .inl ⟨allowed, by simp⟩
  | told => exact .inl ⟨allowed, by simp⟩
  | locked =>
      have waits : sh.pc = .waiting := allowed
      exact .inl ⟨by rw [waits]; rfl, by simp⟩
  | signalled => exact .inr (.inl ⟨allowed, rfl⟩)
  | leaving => exact .inr (.inr ⟨allowed, rfl⟩)
  | joined => cases allowed
  | destroyed => cases allowed

theorem atRest (ok : Leaves phase sh finish exited destroyed) (alive : exited = false) :
    sh.pc.atRest = true := by
  rcases ok.pc_cases alive with ⟨quiet, -⟩ | ⟨woken, -⟩ | ⟨woken | holding, -⟩
  · exact WorkerPc.atRest_of_quiet quiet
  · rw [woken]
    rfl
  · rw [woken]
    rfl
  · rw [holding]
    rfl

/-- A worker that was about to wait does so. -/
theorem wait (ok : Leaves phase sh finish exited destroyed) (alive : exited = false)
    (pc : sh.pc = .entering) :
    Leaves phase { sh with pc := .waiting, processMutex := none } finish exited destroyed := by
  have owned := ok.worker.mpr ⟨alive, by rw [pc]; rfl⟩
  have notHolds : phase.holds = false := by
    by_contra holds
    rw [ok.caller.mpr (by simpa using holds)] at owned
    cases owned
  have allowed := ok.alive alive
  refine ⟨ok.told, ok.gone, fun _ => ?_, ok.early, by simp [notHolds], ?_, ok.freed⟩
  · rw [pc] at allowed
    cases phase with
    | untouched => rfl
    | told => rfl
    | locked => cases notHolds
    | signalled => cases notHolds
    | leaving => rcases allowed with woken | holding <;> contradiction
    | joined => cases allowed
    | destroyed => cases allowed
  · simp [WorkerPc.holdsProcess]

/-- A worker that has seen the flag ends. -/
theorem exit (ok : Leaves phase sh finish exited destroyed) (alive : exited = false)
    (holding : sh.pc = .holding) :
    Leaves phase { sh with processMutex := none } finish true destroyed := by
  have isLeaving : phase = .leaving := by
    rcases ok.pc_cases alive with ⟨quiet, -⟩ | ⟨woken, -⟩ | ⟨-, isLeaving⟩
    · rw [holding] at quiet
      cases quiet
    · rw [holding] at woken
      cases woken
    · exact isLeaving
  subst isLeaving
  exact ⟨ok.told, by simp, by simp, fun _ => .inl rfl, by simp [Phase.holds], by simp, ok.freed⟩

/-- A worker that goes on waits, or wakes up and takes its mutex back. -/
theorem own (ok : Leaves phase sh finish exited destroyed) (alive : exited = false)
    (goesOn : sh.pc = .holding → finish = false) {sh' : Shared} (step : OwnStep sh sh') :
    Leaves phase sh' finish exited destroyed ∧ sh'.processed = sh.processed := by
  have cases := ok.pc_cases alive
  have atRest := ok.atRest alive
  cases step with
  | wake pc free =>
      refine ⟨?_, rfl⟩
      rcases cases with ⟨quiet, -⟩ | ⟨-, holds⟩ | ⟨-, isLeaving⟩
      · rw [pc] at quiet
        cases quiet
      · rw [ok.caller.mpr holds] at free
        cases free
      · subst isLeaving
        refine ⟨ok.told, by simp, fun _ => .inr rfl, ok.early, by simp [Phase.holds], ?_, ok.freed⟩
        exact iff_of_true rfl ⟨alive, rfl⟩
  | unlockProcess pc =>
      rcases cases with ⟨quiet, -⟩ | ⟨woken, -⟩ | ⟨-, isLeaving⟩
      · rw [pc] at quiet
        cases quiet
      · rw [pc] at woken
        cases woken
      · -- the flag was set before the worker was woken up
        have told := ok.told.mpr (by simp [isLeaving])
        rw [goesOn pc] at told
        cases told
  | wait pc => exact ⟨ok.wait alive pc, rfl⟩
  | load pc | turn _ pc _ | finish pc _ | lockProcess pc _ =>
      rw [pc] at atRest
      cases atRest

end Leaves

/-! ## The steps -/

/-- The operations for one worker leave the phases of the others as they are. -/
def DestroyerPc.About (i : Nat) (pc : DestroyerPc) : Prop :=
  pc.index? = some i ∧ ∀ j, j ≠ i → pc.phase j = if j < i then .destroyed else .untouched

theorem DestroyerPc.about (i : Nat) : (DestroyerPc.setting i).About i ∧
    (DestroyerPc.locking i).About i ∧ (DestroyerPc.signalling i).About i ∧
    (DestroyerPc.unlocking i).About i ∧ (DestroyerPc.joining i).About i ∧
    (DestroyerPc.destroying i).About i := by
  refine ⟨⟨rfl, fun j ne => ?_⟩, ⟨rfl, fun j ne => ?_⟩, ⟨rfl, fun j ne => ?_⟩,
    ⟨rfl, fun j ne => ?_⟩, ⟨rfl, fun j ne => ?_⟩, ⟨rfl, fun j ne => ?_⟩⟩ <;>
    simp [DestroyerPc.phase, ne]

/-- The destructor goes on to its next operation for the same worker. -/
theorem EndingInv.operate (inv : EndingInv numProc size e) {i : Nat} (about : e.pc.About i)
    (about' : e'.pc.About i) (frame : ∀ j, j ≠ i → e'.state.shared j = e.state.shared j ∧
      e'.finish j = e.finish j) (exited : e'.exited = e.exited)
    (destroyed : e'.destroyed = e.destroyed)
    (here : Leaves (e.pc.phase i) (e.state.shared i) (e.finish i) (e.exited i) (e.destroyed i) →
      Leaves (e'.pc.phase i) (e'.state.shared i) (e'.finish i) (e.exited i) (e.destroyed i))
    (resultMutex : e'.state.resultMutex = e.state.resultMutex)
    (packet : e'.state.packet = e.state.packet)
    (processed : (e'.state.shared i).processed = (e.state.shared i).processed) :
    EndingInv numProc size e' := by
  have lt := inv.index i about.1
  refine ⟨fun j ltj => ?_, fun j isIndex => ?_, resultMutex.trans inv.resultMutex, fun j ltj => ?_⟩
  · rw [exited, destroyed]
    by_cases same : j = i
    · rw [same]
      exact here (inv.workers i lt)
    · rw [(frame j same).1, (frame j same).2, about'.2 j same, ← about.2 j same]
      exact inv.workers j ltj
  · rw [about'.1] at isIndex
    cases isIndex
    exact lt
  · rw [packet, ← inv.complete j ltj]
    by_cases same : j = i
    · rw [same, processed]
    · rw [(frame j same).1]

theorem EndingInv.destroyer (inv : EndingInv numProc size e) (step : DestroyerStep numProc e e') :
    EndingInv numProc size e' := by
  cases step with
  | @setFinish i pc =>
      obtain ⟨setting, locking, -⟩ := DestroyerPc.about i
      refine inv.operate (pc ▸ setting) locking (fun j ne => ⟨rfl, Function.update_of_ne ne ..⟩) rfl
        rfl (fun ok => ?_) rfl rfl rfl
      rw [pc] at ok
      simp only [DestroyerPc.phase, Nat.lt_irrefl, if_false, if_true, Function.update_self] at ok ⊢
      exact ok.tell
  | @lockProcess i pc free =>
      obtain ⟨-, locking, signalling, -⟩ := DestroyerPc.about i
      refine inv.operate (pc ▸ locking) signalling
        (fun j ne => ⟨set_shared_of_ne ne .., rfl⟩) rfl rfl
        (fun ok => ?_) rfl rfl (by rw [set_shared_self])
      rw [pc] at ok
      simp only [DestroyerPc.phase, Nat.lt_irrefl, if_false, if_true, set_shared_self] at ok ⊢
      exact ok.lock free
  | @signalProcess i pc =>
      obtain ⟨-, -, signalling, unlocking, -⟩ := DestroyerPc.about i
      refine inv.operate (pc ▸ signalling) unlocking (fun j ne => ⟨set_shared_of_ne ne .., rfl⟩) rfl
        rfl (fun ok => ?_) rfl rfl (by rw [set_shared_self])
      rw [pc] at ok
      simp only [DestroyerPc.phase, Nat.lt_irrefl, if_false, if_true, set_shared_self] at ok ⊢
      exact ok.signal
  | @unlockProcess i pc =>
      obtain ⟨-, -, -, unlocking, joining, -⟩ := DestroyerPc.about i
      refine inv.operate (pc ▸ unlocking) joining
        (fun j ne => ⟨set_shared_of_ne ne .., rfl⟩) rfl rfl
        (fun ok => ?_) rfl rfl (by rw [set_shared_self])
      rw [pc] at ok
      simp only [DestroyerPc.phase, Nat.lt_irrefl, if_false, if_true, set_shared_self] at ok ⊢
      exact ok.unlock
  | @join i pc exited =>
      obtain ⟨-, -, -, -, joining, destroying⟩ := DestroyerPc.about i
      refine inv.operate (pc ▸ joining) destroying (fun j ne => ⟨rfl, rfl⟩) rfl rfl
        (fun ok => ?_) rfl
        rfl rfl
      rw [pc] at ok
      simp only [DestroyerPc.phase, Nat.lt_irrefl, if_false, if_true, exited] at ok ⊢
      exact ok.join
  | @destroy i pc =>
      have lt := inv.index i (by rw [pc]; rfl)
      refine ⟨fun j ltj => ?_, fun j isIndex => ?_, inv.resultMutex, inv.complete⟩
      · have ok := inv.workers j ltj
        rw [pc] at ok
        dsimp only
        rw [DestroyerPc.phase_next ltj]
        by_cases same : j = i
        · subst same
          rw [if_pos (Nat.lt_succ_self j), Function.update_self]
          simp only [DestroyerPc.phase, Nat.lt_irrefl, if_false, if_true] at ok
          exact ok.destroy
        · have phase : (DestroyerPc.destroying i).phase j =
              if j < i + 1 then .destroyed else .untouched := by
            rw [(DestroyerPc.about i).2.2.2.2.2.2 j same]
            exact if_congr (by omega) rfl rfl
          rw [Function.update_of_ne same, ← phase]
          exact ok
      · unfold nextDestroyed at isIndex
        split at isIndex
        · cases isIndex
          assumption
        · cases isIndex
  | deleteShared pc =>
      refine ⟨fun j ltj => ?_, fun j isIndex => (nomatch isIndex), inv.resultMutex, inv.complete⟩
      have ok := inv.workers j ltj
      rw [pc] at ok
      exact ok

theorem EndingInv.step (inv : EndingInv numProc size e) (step : EndingStep numProc e e') :
    EndingInv numProc size e' := by
  cases step with
  | destroyer step => exact inv.destroyer step
  | @worker s i lt alive goesOn step =>
      have ok := inv.workers i lt
      have atRest := ok.atRest alive
      cases step with
      | own step =>
          obtain ⟨ok', processed⟩ := ok.own alive goesOn step
          refine ⟨fun j ltj => ?_, inv.index, inv.resultMutex, fun j ltj => ?_⟩
          · by_cases same : j = i
            · subst same
              show Leaves _ ((e.state.set j _).shared j) _ _ _
              rw [set_shared_self]
              exact ok'
            · show Leaves _ ((e.state.set i _).shared j) _ _ _
              rw [set_shared_of_ne same]
              exact inv.workers j ltj
          · show ((e.state.set i _).shared j).processed = _
            by_cases same : j = i
            · subst same
              rw [set_shared_self, processed]
              exact inv.complete j ltj
            · rw [set_shared_of_ne same]
              exact inv.complete j ltj
      | lockResult pc _ | decrement pc | store pc | testZero pc _ | testNonzero pc _ | signal pc
      | unlockResult pc =>
          rw [pc] at atRest
          cases atRest
  | @exit i lt alive holding finish =>
      have ok := (inv.workers i lt).exit alive holding
      refine ⟨fun j ltj => ?_, inv.index, inv.resultMutex, fun j ltj => ?_⟩
      · dsimp only
        by_cases same : j = i
        · subst same
          rw [set_shared_self, Function.update_self]
          exact ok
        · rw [set_shared_of_ne same, Function.update_of_ne same]
          exact inv.workers j ltj
      · by_cases same : j = i
        · subst same
          rw [set_shared_self]
          exact inv.complete j ltj
        · rw [set_shared_of_ne same]
          exact inv.complete j ltj

theorem EndingReachable.inv (reachable : EndingReachable numProc size e) :
    EndingInv numProc size e := by
  induction reachable with
  | start before idle => exact .start before idle
  | step _ step inv => exact inv.step step

/-! ## Progress -/

theorem EndingStep.ofOwn {i : Nat} (lt : i < numProc) (alive : e.exited i = false)
    (notHolding : (e.state.shared i).pc ≠ .holding) {sh : Shared}
    (step : OwnStep (e.state.shared i) sh) :
    ∃ e', EndingStep numProc e e' :=
  ⟨_, .worker lt alive (fun holding => absurd holding notHolding) (.own step)⟩

theorem EndingInv.progress (inv : EndingInv numProc size e) (notDone : e.pc ≠ .done) :
    ∃ e', EndingStep numProc e e' := by
  cases pc : e.pc with
  | setting i => exact ⟨_, .destroyer (.setFinish pc)⟩
  | locking i =>
      have lt := inv.index i (by rw [pc]; rfl)
      have ok := inv.workers i lt
      simp only [pc, DestroyerPc.phase, Nat.lt_irrefl, if_false, if_true] at ok
      cases owner : (e.state.shared i).processMutex with
      | none => exact ⟨_, .destroyer (.lockProcess pc owner)⟩
      | some party =>
          cases party with
          | caller => exact nomatch ok.caller.mp owner
          | worker =>
              -- the worker is about to wait
              obtain ⟨alive, holds⟩ := ok.worker.mp owner
              have quiet : (e.state.shared i).pc.quiet = true := ok.alive alive
              cases isEntering : (e.state.shared i).pc with
              | entering =>
                  exact EndingStep.ofOwn lt alive (by simp [isEntering]) (.wait isEntering)
              | waiting =>
                  rw [isEntering] at holds
                  cases holds
              | _ =>
                  rw [isEntering] at quiet
                  cases quiet
  | signalling i => exact ⟨_, .destroyer (.signalProcess pc)⟩
  | unlocking i => exact ⟨_, .destroyer (.unlockProcess pc)⟩
  | joining i =>
      have lt := inv.index i (by rw [pc]; rfl)
      have ok := inv.workers i lt
      simp only [pc, DestroyerPc.phase, Nat.lt_irrefl, if_false, if_true] at ok
      cases exited : e.exited i with
      | true => exact ⟨_, .destroyer (.join pc exited)⟩
      | false =>
          have told := ok.told.mpr (by simp)
          rcases ok.alive exited with woken | holding
          · have free : (e.state.shared i).processMutex = none := by
              cases owner : (e.state.shared i).processMutex with
              | none => rfl
              | some party =>
                  cases party with
                  | caller => exact nomatch ok.caller.mp owner
                  | worker =>
                      have holds := (ok.worker.mp owner).2
                      rw [woken] at holds
                      cases holds
            exact EndingStep.ofOwn lt exited (by simp [woken]) (.wake woken free)
          · exact ⟨_, .exit lt exited holding told⟩
  | destroying i => exact ⟨_, .destroyer (.destroy pc)⟩
  | deletingShared => exact ⟨_, .destroyer (.deleteShared pc)⟩
  | done => exact absurd pc notDone

/-! ## Termination -/

def destroyerRank (numProc : Nat) : DestroyerPc → Nat
  | .done => 0
  | .deletingShared => 1
  | .destroying i => 6 * (numProc - i) + 2
  | .joining i => 6 * (numProc - i) + 3
  | .unlocking i => 6 * (numProc - i) + 4
  | .signalling i => 6 * (numProc - i) + 5
  | .locking i => 6 * (numProc - i) + 6
  | .setting i => 6 * (numProc - i) + 7

/-- The workers whose threads have not ended. -/
def Ending.alive (numProc : Nat) (e : Ending) : Finset Nat :=
  (Finset.range numProc).filter fun i => e.exited i = false

def endingRank (numProc : Nat) (e : Ending) : Nat × Nat × Nat × Nat :=
  (destroyerRank numProc e.pc, (e.alive numProc).card, rank numProc e.state)

theorem DestroyerStep.rank_lt (step : DestroyerStep numProc e e') :
    destroyerRank numProc e'.pc < destroyerRank numProc e.pc := by
  cases step with
  | destroy pc =>
      rw [pc]
      unfold nextDestroyed
      split
      · simp only [destroyerRank]
        omega
      · simp [destroyerRank]
  | setFinish pc | lockProcess pc _ | signalProcess pc | unlockProcess pc | join pc _
  | deleteShared pc => simp [pc, destroyerRank]

theorem EndingStep.rank_lt (step : EndingStep numProc e e') :
    Prod.Lex (· < ·) (Prod.Lex (· < ·) (Prod.Lex (· < ·) (· < ·))) (endingRank numProc e')
      (endingRank numProc e) := by
  cases step with
  | destroyer step => exact .left _ _ step.rank_lt
  | worker lt alive goesOn step => exact .right _ (.right _ (step.rank_lt lt))
  | @exit i lt alive pc finish =>
      refine .right _ (.left _ _ (Finset.card_lt_card ?_))
      refine Finset.ssubset_iff_subset_ne.mpr ⟨fun j mem => ?_, fun same => ?_⟩
      · obtain ⟨ltj, notExited⟩ := Finset.mem_filter.mp mem
        refine Finset.mem_filter.mpr ⟨ltj, ?_⟩
        dsimp only at notExited
        by_cases isThis : j = i
        · rw [isThis]
          exact alive
        · rwa [Function.update_of_ne isThis] at notExited
      · have member : i ∈ e.alive numProc := Finset.mem_filter.mpr ⟨Finset.mem_range.mpr lt, alive⟩
        rw [← same] at member
        have notExited := (Finset.mem_filter.mp member).2
        dsimp only at notExited
        rw [Function.update_self] at notExited
        cases notExited

theorem endingStep_wellFounded (numProc : Nat) :
    WellFounded fun after before => EndingStep numProc before after :=
  Subrelation.wf EndingStep.rank_lt (InvImage.wf (endingRank numProc)
    (WellFounded.prod_lex Nat.lt_wfRel.wf (WellFounded.prod_lex Nat.lt_wfRel.wf
      (WellFounded.prod_lex Nat.lt_wfRel.wf Nat.lt_wfRel.wf))))

/-! ## The guarantees -/

structure EndingSafe (numProc size : Nat) (e : Ending) : Prop where
  /-- The destructor signals a worker that waits. -/
  signalProcess : ∀ i, e.pc = .signalling i → (e.state.shared i).pc = .waiting
  /-- A mutex is destroyed when its worker has ended and nobody holds it. -/
  destroyed : ∀ i < numProc, e.destroyed i = true →
    e.exited i = true ∧ (e.state.shared i).processMutex = none
  /-- What the workers share is deleted when all of them have ended. -/
  last : e.pc = .deletingShared ∨ e.pc = .done →
    e.state.resultMutex = none ∧ ∀ i < numProc, e.exited i = true
  /-- All packets were processed by every worker, and nothing is processed any more. -/
  complete : ∀ i < numProc, (e.state.shared i).processed =
    rounds (size * i) (size * (i + 1)) e.state.packet
  progress : e.pc ≠ .done → ∃ e', EndingStep numProc e e'

/-- However destructor and workers take their steps, the shutdown is safe and comes to its end. -/
theorem shutdown_safe (reachable : EndingReachable numProc size e) :
    EndingSafe numProc size e ∧ WellFounded fun after before =>
      EndingStep numProc before after := by
  have inv := reachable.inv
  refine ⟨⟨fun i pc => ?_, fun i lt destroyed => ?_, fun ended => ⟨inv.resultMutex, fun i lt => ?_⟩,
    inv.complete, inv.progress⟩, endingStep_wellFounded numProc⟩
  · have ok := inv.workers i (inv.index i (by rw [pc]; rfl))
    simp only [pc, DestroyerPc.phase, Nat.lt_irrefl, if_false, if_true] at ok
    exact ok.alive (ok.isAlive (by simp) (by simp) (by simp))
  · have ok := inv.workers i lt
    have phase := ok.freed.mp destroyed
    have exited := ok.gone (.inr phase)
    refine ⟨exited, ?_⟩
    cases owner : (e.state.shared i).processMutex with
    | none => rfl
    | some party =>
        cases party with
        | caller =>
            have holds := ok.caller.mp owner
            rw [phase] at holds
            cases holds
        | worker =>
            have alive := (ok.worker.mp owner).1
            rw [exited] at alive
            cases alive
  · have ok := inv.workers i lt
    refine ok.gone (.inr ?_)
    rcases ended with pc | pc <;> rw [pc] <;> rfl

/-- One worker with one rule: the call for the first packet is over before the worker waits
again. -/
theorem exists_returning : ∃ s, Reachable 1 1 s ∧ s.caller = .idle ∧ s.packet = 1 ∧
    (s.shared 0).pc = .entering ∧ (s.shared 0).processed = [⟨0, 1, 1⟩] := by
  have woken := (@Reachable.initial 1 1)
    |>.step (.caller (.publish rfl))
    |>.step (.caller (.lockProcess (i := 0) rfl rfl)) |>.step (.caller (.writeMh rfl))
    |>.step (.caller (.writePkt rfl)) |>.step (.caller (.signalProcess rfl))
    |>.step (.caller (.unlockProcess rfl))
  have processed := woken
    |>.step (.worker (i := 0) (by decide) (.own (.wake rfl rfl)))
    |>.step (.worker (i := 0) (by decide) (.own (.unlockProcess rfl)))
    |>.step (.worker (i := 0) (by decide) (.own (.load rfl)))
    |>.step (.worker (i := 0) (by decide) (.own (.turn 1 rfl (by decide))))
    |>.step (.worker (i := 0) (by decide) (.own (.finish rfl (by decide))))
  have counted := processed
    |>.step (.worker (i := 0) (by decide) (.own (.lockProcess rfl rfl)))
    |>.step (.worker (i := 0) (by decide) (.lockResult rfl rfl))
    |>.step (.worker (i := 0) (by decide) (.decrement rfl))
    |>.step (.worker (i := 0) (by decide) (.store rfl))
    |>.step (.worker (i := 0) (by decide) (.testZero rfl rfl))
    |>.step (.worker (i := 0) (by decide) (.signal rfl))
    |>.step (.worker (i := 0) (by decide) (.unlockResult rfl))
  have collected := counted
    |>.step (.caller (.lockResult rfl rfl)) |>.step (.caller (.testZero rfl rfl))
    |>.step (.caller (.unlockResult rfl)) |>.step (.caller (.reset rfl))
    |>.step (.caller (.collect (i := 0) rfl)) |>.step (.caller (.delete rfl))
  exact ⟨_, collected, rfl, rfl, rfl, rfl⟩

/-- The destructor has set the flag of the worker that has yet to wait again. -/
theorem returning_shutdown_safe : ∃ e, e.pc = .locking 0 ∧ e.finish 0 = true ∧
    (e.state.shared 0).pc = .entering ∧ EndingSafe 1 1 e ∧
      WellFounded fun after before => EndingStep 1 before after := by
  obtain ⟨s, reachable, idle, -, entering, -⟩ := exists_returning
  have started : EndingReachable 1 1 (Ending.start 1 s) := .start reachable idle
  exact ⟨_, rfl, rfl, entering, shutdown_safe (.step started (.destroyer (.setFinish rfl)))⟩

end Handshake

end TRex
