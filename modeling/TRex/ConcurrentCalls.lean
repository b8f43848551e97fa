import TRex.HandshakeSafety

/-!
# Two callers

The server handles connections on several threads, so two of them may be inside `processPubPkt` at
the same time. The slots `mh` and `pkt` of a worker, its result set and the counter
`stillProcessing` belong to the engine and not to the call, and nothing keeps the calls apart.

The state is that of `Handshake` with two callers; each step is a step of one of them, or of a
worker, on its view of the state (`State.of`). `concurrent_calls_apart` says that nothing is lost or
mixed as long as no call starts while the other caller is inside one: then every run is a run of the
handshake with one caller.
-/

namespace TRex

namespace Concurrent

open Handshake

/-! ## States and steps -/

/-- A calling thread, with its packet, its handler and its local `result`. -/
structure Caller where
  pc : CallerPc
  packet : Nat
  handler : Option Nat
  result : List Nat

/-- As in `Handshake`, an event is given by the number of the packet it was generated from. -/
structure State where
  callers : Bool → Caller
  shared : Nat → Shared
  resultMutex : Option Party
  stillProcessing : Int
  /-- Packets published so far, by both callers. -/
  published : Nat
  /-- All events generated so far. -/
  generated : List Nat
  /-- The finished calls: packet and events handed to the listeners. -/
  handedOut : List (Nat × List Nat)

def initial (numProc size : Nat) : State :=
  { callers := fun _ => ⟨.idle, 0, none, []⟩
    shared := (Handshake.initial numProc size).shared
    resultMutex := none, stillProcessing := numProc, published := 0, generated := []
    handedOut := [] }

/-- The state as one caller sees it. -/
def State.of (s : State) (c : Bool) : Handshake.State :=
  { caller := (s.callers c).pc, shared := s.shared, resultMutex := s.resultMutex
    stillProcessing := s.stillProcessing, packet := (s.callers c).packet
    handler := (s.callers c).handler }

/-- What one caller sees is changed, and its local result. -/
def State.put (s : State) (c : Bool) (t : Handshake.State) (result : List Nat) : State :=
  { s with
    callers := Function.update s.callers c ⟨t.caller, t.packet, t.handler, result⟩
    shared := t.shared, resultMutex := t.resultMutex, stillProcessing := t.stillProcessing }

/-- Who makes a step. -/
inductive Label
  | publish (c : Bool)
  | caller (c : Bool)
  | worker (i : Nat)

section Steps

variable (numProc : Nat)

/-- The local result after a step: in the collecting loop the events of one worker are added. -/
def State.taken (s : State) (c : Bool) : List Nat :=
  match (s.callers c).pc with
  | .collecting i => (s.callers c).result ++ (s.shared i).result
  | _ => (s.callers c).result

/-- The finished calls after a step: the listeners get the results once the handler is deleted. -/
def State.finished (s : State) (c : Bool) : List (Nat × List Nat) :=
  match (s.callers c).pc with
  | .deleting => s.handedOut ++ [((s.callers c).packet, (s.callers c).result)]
  | _ => s.handedOut

/-- A worker that signals wakes one of the callers that wait, if there is one. -/
inductive Step : State → Label → State → Prop
  | publish {s : State} {c : Bool} (pc : (s.callers c).pc = .idle) :
      Step s (.publish c) { s with
        callers := Function.update s.callers c
          ⟨nextLock numProc 0, s.published + 1, some (s.published + 1), []⟩
        published := s.published + 1 }
  | caller {s : State} {c : Bool} {t : Handshake.State} (busy : (s.callers c).pc ≠ .idle)
      (step : CallerStep numProc (s.of c) t) :
      Step s (.caller c) { s.put c t (s.taken c) with handedOut := s.finished c }
  | worker {s : State} {i : Nat} {c : Bool} {t : Handshake.State} (lt : i < numProc)
      (wakes : (s.callers c).pc = .waiting ∨ ∀ c', (s.callers c').pc ≠ .waiting)
      (step : WorkerStep i (s.of c) t) :
      Step s (.worker i) { s.put c t (s.callers c).result with
        generated := s.generated ++ (t.shared i).result.drop (s.shared i).result.length }

/-- The states of all runs whose steps are allowed. -/
inductive Reachable (size : Nat) (allowed : State → Label → Prop) : State → Prop
  | initial : Reachable size allowed (initial numProc size)
  | step {s s' : State} {label : Label} (before : Reachable size allowed s)
      (isAllowed : allowed s label) (step : Step numProc s label s') : Reachable size allowed s'

end Steps

/-- No call starts while the other caller is inside one. -/
def Apart (s : State) (label : Label) : Prop :=
  ∀ c, label = .publish c → (s.callers (!c)).pc = .idle

theorem apart_publish {s : State} {c : Bool} (idle : (s.callers (!c)).pc = .idle) :
    Apart s (.publish c) := by
  intro c' same
  cases same
  exact idle

theorem apart_caller (s : State) (c : Bool) : Apart s (.caller c) := fun _ other => nomatch other

theorem apart_worker (s : State) (i : Nat) : Apart s (.worker i) := fun _ other => nomatch other

/-- Nothing is lost and nothing is mixed. -/
structure Correct (numProc size : Nat) (s : State) : Prop where
  /-- For a call that is finished, every worker has done each of its rules once, with the handler
  and the packet of the call. -/
  once : ∀ call ∈ s.handedOut, ∀ i < numProc, ∀ rule, size * i ≤ rule → rule < size * (i + 1) →
    (s.shared i).processed.count ⟨rule, call.1, call.1⟩ = 1
  /-- No turn is done twice. -/
  nodup : ∀ i < numProc, (s.shared i).processed.Nodup
  /-- No turn is done with the handler of one packet and another packet. -/
  unmixed : ∀ i < numProc, ∀ turn ∈ (s.shared i).processed, turn.mh = turn.pkt
  /-- A call hands out all events generated from its packet, and no others. -/
  own : ∀ call ∈ s.handedOut, call.2 = List.replicate (s.generated.count call.1) call.1

/-! ## What a step leaves alone -/

section Frame

variable {numProc i : Nat} {s t : Handshake.State}

/-- Inside a call the caller keeps its packet, and clears the result sets that it collects. -/
theorem CallerStep.frame (step : CallerStep numProc s t) (busy : s.caller ≠ .idle) :
    t.packet = s.packet ∧ ∀ j, (t.shared j).result =
      if s.caller = .collecting j then [] else (s.shared j).result := by
  have kept : ∀ (i : Nat) (sh : Shared), sh.result = (s.shared i).result →
      ∀ j, ((s.set i sh).shared j).result = (s.shared j).result := by
    intro i sh same j
    rcases eq_or_ne j i with rfl | ne
    · rw [set_shared_self, same]
    · rw [set_shared_of_ne ne]
  cases step with
  | publish pc => exact absurd pc busy
  | @collect i pc =>
      refine ⟨rfl, fun j => ?_⟩
      rcases eq_or_ne j i with rfl | ne
      · rw [pc, if_pos rfl]
        exact congrArg Shared.result (set_shared_self s j _)
      · rw [pc, if_neg (by simp [ne.symm])]
        exact congrArg Shared.result (set_shared_of_ne ne s _)
  | lockProcess pc | writeMh pc | writePkt pc | signalProcess pc | unlockProcess pc =>
      refine ⟨rfl, fun j => ?_⟩
      rw [pc, if_neg (by simp)]
      refine kept _ _ ?_ j
      rfl
  | lockResult pc | testZero pc | testWait pc | wake pc | unlockResult pc | reset pc | delete pc =>
      exact ⟨rfl, fun j => by simp [pc]⟩

/-- A worker adds events to its own result set, all from the packet in its slot and only in the rule
loop. It signals the caller at most. -/
structure WorkerFrame (i : Nat) (s t : Handshake.State) (new : List Nat) : Prop where
  packet : t.packet = s.packet
  handler : t.handler = s.handler
  caller : t.caller = s.caller ∨ t.caller = s.caller.signal
  added : (t.shared i).result = (s.shared i).result ++ new
  fromPacket : ∀ x ∈ new, x = (s.shared i).pkt ∧ ∃ mh rule, (s.shared i).pc = .running mh rule
  others : ∀ j, j ≠ i → (t.shared j).result = (s.shared j).result

theorem WorkerStep.frame (step : WorkerStep i s t) : ∃ new, WorkerFrame i s t new := by
  have quiet : ∀ {t : Handshake.State} {sh : Shared}, t.shared = (s.set i sh).shared →
      t.packet = s.packet → t.handler = s.handler →
      t.caller = s.caller ∨ t.caller = s.caller.signal → sh.result = (s.shared i).result →
      WorkerFrame i s t [] := by
    intro t sh shared packet handler caller result
    refine ⟨packet, handler, caller, ?_, by simp, fun j ne => ?_⟩
    · rw [shared, set_shared_self, result, List.append_nil]
    · rw [shared, set_shared_of_ne ne]
  cases step with
  | own ownStep =>
      cases ownStep with
      | @turn mh rule generated pc more =>
          refine ⟨List.replicate generated (s.shared i).pkt, rfl, rfl, .inl rfl, ?_, ?_, ?_⟩
          · rw [set_shared_self]
          · exact fun x mem => ⟨List.eq_of_mem_replicate mem, mh, rule, pc⟩
          · intro j ne
            rw [set_shared_of_ne ne]
      | wake | unlockProcess | load | finish | lockProcess | wait =>
          exact ⟨[], quiet rfl rfl rfl (.inl rfl) rfl⟩
  | lockResult | decrement | store | testZero | testNonzero | unlockResult =>
      exact ⟨[], quiet rfl rfl rfl (.inl rfl) rfl⟩
  | signal => exact ⟨[], quiet rfl rfl rfl (.inr rfl) rfl⟩

/-- A worker does the same whatever caller looks on, unless it wakes one. -/
theorem WorkerStep.transfer (step : WorkerStep i s t) {u : Handshake.State}
    (shared : u.shared = s.shared) (mutex : u.resultMutex = s.resultMutex)
    (counter : u.stillProcessing = s.stillProcessing) (awake : u.caller ≠ .waiting) :
    WorkerStep i u { u with
      shared := t.shared, resultMutex := t.resultMutex, stillProcessing := t.stillProcessing } := by
  obtain ⟨caller, sh, m, n, packet, handler⟩ := u
  subst shared mutex counter
  cases step with
  | own ownStep => exact .own ownStep
  | lockResult pc free => exact .lockResult pc free
  | decrement pc => exact .decrement pc
  | store pc => exact .store pc
  | testZero pc zero => exact .testZero pc zero
  | testNonzero pc nonzero => exact .testNonzero pc nonzero
  | signal pc =>
      have asleep : caller.signal = caller := if_neg awake
      have signalled := @WorkerStep.signal i
        ⟨caller, s.shared, s.resultMutex, s.stillProcessing, packet, handler⟩ pc
      rw [asleep] at signalled
      exact signalled
  | unlockResult pc => exact .unlockResult pc

end Frame

/-! ## Calls that are kept apart -/

section Apart

variable {numProc size : Nat} {c : Bool} {s s' : State}

/-- The events and where they are, while caller `c` is the only one inside a call. -/
structure Ledger (numProc : Nat) (c : Bool) (s : State) : Prop where
  generated : ∀ x ∈ s.generated, x ≤ s.published
  result : ∀ x ∈ (s.callers c).result, x = s.published
  /-- Every event of the current packet is in a result set or has been collected. -/
  balance : (s.callers c).pc ≠ .idle →
    (s.callers c).result.length + ∑ i ∈ Finset.range numProc, (s.shared i).result.length =
      s.generated.count s.published
  handedOut : ∀ call ∈ s.handedOut, (0 < call.1 ∧ call.1 ≤ s.published) ∧
    ((s.callers c).pc ≠ .idle → call.1 < s.published) ∧
    call.2 = List.replicate (s.generated.count call.1) call.1

/-- The view of caller `c`, the last to publish a packet, is a state of the handshake with one
caller. -/
structure Single (numProc size : Nat) (c : Bool) (s : State) : Prop where
  other : (s.callers (!c)).pc = .idle
  packet : (s.callers c).packet = s.published
  view : Handshake.Reachable numProc size (s.of c)
  ledger : Ledger numProc c s

theorem single_initial (numProc size : Nat) : Single numProc size true (initial numProc size) := by
  refine ⟨rfl, rfl, .initial, ?_, ?_, ?_, ?_⟩
  · exact fun x mem => nomatch mem
  · exact fun x mem => nomatch mem
  · exact fun busy => absurd rfl busy
  · exact fun call mem => nomatch mem

/-- Between two calls the result sets are empty. -/
theorem Single.result_eq_nil (single : Single numProc size c s) (idle : (s.callers c).pc = .idle)
    {i : Nat} (lt : i < numProc) : (s.shared i).result = [] := by
  refine (single.view.inv.workers i lt).cleared ?_
  show (s.callers c).pc.view i = .cleared
  rw [idle]
  rfl

/-- A new call: nothing was generated from the new packet so far. -/
theorem Single.publish (single : Single numProc size c s) {c' : Bool}
    (pc : (s.callers c').pc = .idle) (apart : (s.callers (!c')).pc = .idle) :
    Single numProc size c' { s with
      callers := Function.update s.callers c'
        ⟨nextLock numProc 0, s.published + 1, some (s.published + 1), []⟩
      published := s.published + 1 } := by
  have idle : (s.callers c).pc = .idle := by
    rcases Bool.eq_or_eq_not c c' with rfl | rfl
    · exact pc
    · exact apart
  have unknown : s.generated.count (s.published + 1) = 0 := by
    refine List.count_eq_zero.mpr fun mem => ?_
    have := single.ledger.generated _ mem
    omega
  refine ⟨by simpa using apart, by simp, ?_, ?_, ?_, ?_, ?_⟩
  · have published : CallerStep numProc (s.of c) _ := .publish idle
    have next := Handshake.Reachable.step single.view (.caller published)
    simp only [State.of, Function.update_self]
    rw [State.of, single.packet] at next
    exact next
  · intro x mem
    exact Nat.le_succ_of_le (single.ledger.generated x mem)
  · simp
  · intro _
    have empty : ∑ i ∈ Finset.range numProc, (s.shared i).result.length = 0 := by
      refine Finset.sum_eq_zero fun i mem => ?_
      rw [single.result_eq_nil idle (Finset.mem_range.mp mem)]
      rfl
    simp [empty, unknown]
  · intro call mem
    obtain ⟨⟨pos, le⟩, -, own⟩ := single.ledger.handedOut call mem
    exact ⟨⟨pos, Nat.le_succ_of_le le⟩, fun _ => Nat.lt_succ_of_le le, own⟩

theorem CallerStep.idle_of_deleting {s t : Handshake.State} (step : CallerStep numProc s t)
    (pc : s.caller = .deleting) : t.caller = .idle := by
  cases step with
  | delete => rfl
  | publish pc' | lockProcess pc' | writeMh pc' | writePkt pc' | signalProcess pc'
  | unlockProcess pc' | lockResult pc' | testZero pc' | testWait pc' | wake pc' | unlockResult pc'
  | reset pc' | collect pc' =>
      rw [pc] at pc'
      cases pc'

/-- The events of a call when it is about to end. -/
theorem Single.result_of_deleting (single : Single numProc size c s)
    (pc : (s.callers c).pc = .deleting) :
    (s.callers c).result = List.replicate (s.generated.count s.published) s.published := by
  have empty : ∑ i ∈ Finset.range numProc, (s.shared i).result.length = 0 := by
    refine Finset.sum_eq_zero fun i mem => ?_
    have cleared := (single.view.inv.workers i (Finset.mem_range.mp mem)).cleared (by
      show (s.callers c).pc.view i = .cleared
      rw [pc]
      rfl)
    show (s.shared i).result.length = 0
    rw [show (s.shared i).result = [] from cleared]
    rfl
  have balance := single.ledger.balance (by simp [pc])
  rw [empty, Nat.add_zero] at balance
  exact List.eq_replicate_iff.mpr ⟨balance, single.ledger.result⟩

/-- A step of the caller inside its call. -/
theorem Single.caller (single : Single numProc size c s) {t : Handshake.State}
    (busy : (s.callers c).pc ≠ .idle) (step : CallerStep numProc (s.of c) t) :
    Single numProc size c { s.put c t (s.taken c) with handedOut := s.finished c } := by
  have samePacket := (CallerStep.frame step busy).1
  have results : ∀ j, (t.shared j).result =
      if (s.callers c).pc = .collecting j then [] else (s.shared j).result :=
    (CallerStep.frame step busy).2
  have packet : t.packet = s.published := samePacket.trans single.packet
  have view : (s.put c t (s.taken c)).of c = t := by
    simp [State.of, State.put]
  have fromPacket : ∀ i, (s.callers c).pc = .collecting i → i < numProc ∧
      ∀ x ∈ (s.shared i).result, x = s.published := by
    intro i pc
    have lt := single.view.inv.index i (by show (s.callers c).pc.index? = _; rw [pc]; rfl)
    refine ⟨lt, fun x mem => ?_⟩
    exact ((single.view.inv.workers i lt).results x mem).trans single.packet
  refine ⟨?_, ?_, ?_, single.ledger.generated, ?_, ?_, ?_⟩
  · simpa [State.put] using single.other
  · simpa [State.put] using packet
  · show Handshake.Reachable numProc size ((s.put c t (s.taken c)).of c)
    rw [view]
    exact .step single.view (.caller step)
  · intro x mem
    simp only [State.put, Function.update_self, State.taken] at mem
    split at mem
    case h_1 i pc =>
      rcases List.mem_append.mp mem with old | new
      · exact single.ledger.result x old
      · exact (fromPacket i pc).2 x new
    case h_2 => exact single.ledger.result x mem
  · intro _
    simp only [State.put, Function.update_self]
    rw [← single.ledger.balance busy]
    unfold State.taken
    split
    case h_1 i pc =>
      -- the events of worker `i` move from its result set to the caller
      have mem : i ∈ Finset.range numProc := Finset.mem_range.mpr (fromPacket i pc).1
      have here : (t.shared i).result = [] := by
        rw [results, if_pos pc]
      have others : ∑ j ∈ (Finset.range numProc).erase i, (t.shared j).result.length =
          ∑ j ∈ (Finset.range numProc).erase i, (s.shared j).result.length := by
        refine Finset.sum_congr rfl fun j inErase => ?_
        rw [results, pc, if_neg (by simp [(Finset.ne_of_mem_erase inErase).symm])]
      rw [← Finset.add_sum_erase _ _ mem, ← Finset.add_sum_erase (a := i) _ _ mem, others, here,
        List.length_append]
      simp only [List.length_nil]
      omega
    case h_2 other =>
      refine congrArg _ (Finset.sum_congr rfl fun j _ => ?_)
      rw [results, if_neg fun pc => other j pc]
  · intro call mem
    simp only [State.put, Function.update_self, State.finished] at mem ⊢
    split at mem
    case h_1 pc =>
      have idle := CallerStep.idle_of_deleting step pc
      rcases List.mem_append.mp mem with old | new
      · obtain ⟨le, less, own⟩ := single.ledger.handedOut call old
        exact ⟨le, fun _ => less busy, own⟩
      · obtain rfl := List.mem_singleton.mp new
        have pos : 0 < (s.callers c).packet := (single.view.inv.handler busy).2
        simp only [single.packet] at pos ⊢
        exact ⟨⟨pos, Nat.le_refl _⟩, fun still => absurd idle still, single.result_of_deleting pc⟩
    case h_2 =>
      obtain ⟨le, less, own⟩ := single.ledger.handedOut call mem
      exact ⟨le, fun _ => less busy, own⟩

/-- The view of the caller inside a call when a worker makes a step that wakes some caller or
none. -/
theorem Single.worker_view (single : Single numProc size c s) {c' : Bool} {i : Nat}
    {t : Handshake.State}
    (wakes : (s.callers c').pc = .waiting ∨ ∀ c', (s.callers c').pc ≠ .waiting)
    (step : WorkerStep i (s.of c') t) :
    WorkerStep i (s.of c) ((s.put c' t (s.callers c').result).of c) ∧
      ((s.put c' t (s.callers c').result).callers (!c)).pc = .idle ∧
      ((s.put c' t (s.callers c').result).callers c).result = (s.callers c).result := by
  rcases Bool.eq_or_eq_not c' c with rfl | rfl
  · have view : (s.put c' t (s.callers c').result).of c' = t := by
      simp [State.of, State.put]
    rw [view]
    exact ⟨step, by simpa [State.put] using single.other, by simp [State.put]⟩
  · have awake : (s.of c).caller ≠ .waiting := by
      rcases wakes with waits | none
      · rw [single.other] at waits
        cases waits
      · exact none c
    obtain ⟨new, frame⟩ := WorkerStep.frame step
    have idle : t.caller = .idle := by
      have before : (s.of (!c)).caller = .idle := single.other
      rcases frame.caller with same | signalled
      · rw [same, before]
      · rw [signalled, before]
        rfl
    refine ⟨?_, by simpa [State.put] using idle, by simp [State.put]⟩
    have moved := WorkerStep.transfer step (u := s.of c) rfl rfl rfl awake
    simpa [State.of, State.put] using moved

/-- A step of a worker, whichever caller it wakes. -/
theorem Single.worker (single : Single numProc size c s) {c' : Bool} {i : Nat}
    {t : Handshake.State} (lt : i < numProc)
    (wakes : (s.callers c').pc = .waiting ∨ ∀ c', (s.callers c').pc ≠ .waiting)
    (step : WorkerStep i (s.of c') t) :
    Single numProc size c { s.put c' t (s.callers c').result with
      generated := s.generated ++ (t.shared i).result.drop (s.shared i).result.length } := by
  obtain ⟨seen, other, kept⟩ := single.worker_view wakes step
  obtain ⟨new, frame⟩ := WorkerStep.frame seen
  have added : (t.shared i).result = (s.shared i).result ++ new := frame.added
  have others : ∀ j, j ≠ i → (t.shared j).result = (s.shared j).result := frame.others
  have grown : s.generated ++ (t.shared i).result.drop (s.shared i).result.length =
      s.generated ++ new := by
    rw [added, List.drop_left]
  have current : ∀ x ∈ new, x = s.published ∧ (s.callers c).pc ≠ .idle := by
    intro x mem
    obtain ⟨isPkt, mh, rule, running⟩ := frame.fromPacket x mem
    have ok := single.view.inv.workers i lt
    have notCalm := ok.not_calm (by rw [running]; rfl)
    have pkt := ok.pkt (WorkerOk.mhOk_of_not_calm notCalm).2
    exact ⟨(isPkt.trans pkt).trans single.packet, CallerPc.not_idle notCalm⟩
  have busy : ((s.put c' t (s.callers c').result).callers c).pc ≠ .idle →
      (s.callers c).pc ≠ .idle := by
    intro now before
    have idle : (s.of c).caller = .idle := before
    rcases frame.caller with same | signalled
    · exact now (same.trans idle)
    · rw [idle] at signalled
      exact now signalled
  have packet : ((s.put c' t (s.callers c').result).callers c).packet = s.published :=
    frame.packet.trans single.packet
  rw [grown]
  refine ⟨other, packet, .step single.view (.worker lt seen), ?_, ?_, ?_, ?_⟩
  · intro x mem
    rcases List.mem_append.mp mem with old | isNew
    · exact single.ledger.generated x old
    · exact Nat.le_of_eq (current x isNew).1
  · intro x mem
    exact single.ledger.result x (kept ▸ mem)
  · intro now
    have balance := single.ledger.balance (busy now)
    have all : new.count s.published = new.length :=
      List.count_eq_length.mpr fun x mem => (current x mem).1.symm
    have mem : i ∈ Finset.range numProc := Finset.mem_range.mpr lt
    have rest : ∑ j ∈ (Finset.range numProc).erase i, (t.shared j).result.length =
        ∑ j ∈ (Finset.range numProc).erase i, (s.shared j).result.length :=
      Finset.sum_congr rfl fun j inErase => by rw [others j (Finset.ne_of_mem_erase inErase)]
    show ((s.put c' t (s.callers c').result).callers c).result.length +
      ∑ j ∈ Finset.range numProc, (t.shared j).result.length =
        (s.generated ++ new).count s.published
    rw [← Finset.add_sum_erase _ _ mem] at balance
    rw [kept, List.count_append, all, ← Finset.add_sum_erase _ _ mem, rest, added,
      List.length_append, ← balance]
    omega
  · intro call mem
    obtain ⟨le, less, own⟩ := single.ledger.handedOut call mem
    have notNew : new.count call.1 = 0 := by
      refine List.count_eq_zero.mpr fun isNew => ?_
      obtain ⟨same, inside⟩ := current _ isNew
      have := less inside
      omega
    refine ⟨le, fun now => less (busy now), ?_⟩
    show call.2 = List.replicate ((s.generated ++ new).count call.1) call.1
    rw [List.count_append, notNew, Nat.add_zero]
    exact own

/-- Every state of a run without overlapping calls is a state of the handshake with one caller. -/
theorem Reachable.single (reachable : Reachable numProc size Apart s) :
    ∃ c, Single numProc size c s := by
  induction reachable with
  | initial => exact ⟨true, single_initial numProc size⟩
  | step _ isAllowed step ih =>
      obtain ⟨c, single⟩ := ih
      cases step with
      | @publish c' pc => exact ⟨c', single.publish pc (isAllowed c' rfl)⟩
      | @caller c' t busy callerStep =>
          rcases Bool.eq_or_eq_not c' c with rfl | rfl
          · exact ⟨c', single.caller busy callerStep⟩
          · exact absurd single.other busy
      | @worker i c' t lt wakes workerStep => exact ⟨c, single.worker lt wakes workerStep⟩

theorem Single.correct (single : Single numProc size c s) : Correct numProc size s := by
  have safe := single.view.safe
  have packet : (s.of c).packet = s.published := single.packet
  refine ⟨?_, safe.once, ?_, fun call mem => (single.ledger.handedOut call mem).2.2⟩
  · intro call mem i lt rule above below
    obtain ⟨⟨pos, le⟩, less, -⟩ := single.ledger.handedOut call mem
    have inRounds : ∀ {last}, call.1 ≤ last →
        (⟨rule, call.1, call.1⟩ : Turn) ∈ rounds (size * i) (size * (i + 1)) last := by
      intro last le
      refine List.mem_flatMap.mpr ⟨call.1 - 1, List.mem_range.mpr (by omega), ?_⟩
      have whole : call.1 - 1 + 1 = call.1 := by omega
      rw [whole]
      have within : rule < size * i + (size * (i + 1) - size * i) := by omega
      exact mem_turns.mpr ⟨above, within, rfl, rfl⟩
    refine List.count_eq_one_of_mem (safe.once i lt) ?_
    by_cases idle : (s.callers c).pc = .idle
    · have past : (s.of c).caller.past = true := by
        rw [show (s.of c).caller = .idle from idle]
        rfl
      have complete := safe.complete past i lt
      rw [packet] at complete
      show _ ∈ ((s.of c).shared i).processed
      rw [complete]
      exact inRounds le
    · have earlier := safe.earlier i lt
      rw [packet] at earlier
      have := less idle
      exact earlier.subset (inRounds (by omega))
  · intro i lt turn mem
    obtain ⟨k, -, isTurn⟩ := List.mem_flatMap.mp ((safe.within i lt).subset mem)
    obtain ⟨-, -, mh, pkt⟩ := mem_turns.mp isTurn
    exact mh.trans pkt.symm

/-! Calls come to their ends. -/

/-- A step inside the calls that have started. -/
def Inside (numProc : Nat) (s s' : State) : Prop :=
  ∃ label, (∀ c, label ≠ .publish c) ∧ Step numProc s label s'

theorem Single.inside (single : Single numProc size c s) (inside : Inside numProc s s') :
    Single numProc size c s' ∧ Within numProc (s.of c) (s'.of c) := by
  obtain ⟨label, notPublish, step⟩ := inside
  cases step with
  | @publish c' pc => exact absurd rfl (notPublish c')
  | @caller c' t busy callerStep =>
      rcases Bool.eq_or_eq_not c' c with rfl | rfl
      · have after := single.caller busy callerStep
        refine ⟨after, ?_, after.packet.trans single.packet.symm⟩
        have view : (s.put c' t (s.taken c')).of c' = t := by
          simp [State.of, State.put]
        show Handshake.Step numProc (s.of c') ((s.put c' t (s.taken c')).of c')
        rw [view]
        exact .caller callerStep
      · exact absurd single.other busy
  | @worker i c' t lt wakes workerStep =>
      have after := single.worker lt wakes workerStep
      exact ⟨after, .worker lt (single.worker_view wakes workerStep).1,
        after.packet.trans single.packet.symm⟩

/-- No run goes on for ever inside the calls that have started. -/
theorem Single.acc (single : Single numProc size c s) :
    Acc (fun after before => Inside numProc before after) s := by
  have wf := within_wellFounded numProc
  generalize view : s.of c = t
  induction t using wf.induction generalizing s with
  | _ t ih =>
      refine .intro _ fun s' inside => ?_
      obtain ⟨single', within⟩ := single.inside inside
      exact ih (s'.of c) (view ▸ within) single' rfl

/-- As long as a caller is inside a call, some thread can go on. -/
theorem Single.progress (single : Single numProc size c s) {c' : Bool}
    (busy : (s.callers c').pc ≠ .idle) : ∃ s', Inside numProc s s' := by
  obtain rfl : c' = c := by
    rcases Bool.eq_or_eq_not c' c with rfl | rfl
    · rfl
    · exact absurd single.other busy
  obtain ⟨t, step, samePacket⟩ := single.view.safe.progress fun resting => busy resting.1
  cases step with
  | caller callerStep => exact ⟨_, .caller c', by simp, .caller busy callerStep⟩
  | @worker i lt workerStep =>
      have wakes : (s.callers c').pc = .waiting ∨ ∀ c, (s.callers c).pc ≠ .waiting := by
        by_cases waits : (s.callers c').pc = .waiting
        · exact .inl waits
        · refine .inr fun c => ?_
          rcases Bool.eq_or_eq_not c c' with rfl | rfl
          · exact waits
          · rw [single.other]
            simp
      exact ⟨_, .worker i, by simp, .worker lt wakes workerStep⟩

end Apart

/-- If no call starts while the other caller is inside one, nothing is lost or mixed, in any state
of any run, and the calls that have started come to their ends. -/
theorem concurrent_calls_apart {numProc size : Nat} {s : State}
    (reachable : Reachable numProc size Apart s) :
    Correct numProc size s ∧
      (∀ c, (s.callers c).pc ≠ .idle → ∃ s', Inside numProc s s') ∧
      Acc (fun after before => Inside numProc before after) s := by
  obtain ⟨c, single⟩ := reachable.single
  exact ⟨single.correct, fun c' busy => single.progress busy, single.acc⟩

/-- The second caller writes to the slots of a worker that was signalled and has not yet woken up:
the first call gets the event of the second one's packet, and its own packet is never processed. -/
theorem overlapping_calls_mixed :
    ∃ s, Reachable 1 1 (fun _ _ => True) s ∧ ¬ Correct 1 1 s := by
  have r0 : Reachable 1 1 (fun _ _ => True) (initial 1 1) := .initial
  have r1 := r0.step trivial (.publish (c := true) rfl)
  have r2 := r1.step trivial (.caller (c := true) (by decide) (.lockProcess rfl rfl))
  have r3 := r2.step trivial (.caller (c := true) (by decide) (.writeMh rfl))
  have r4 := r3.step trivial (.caller (c := true) (by decide) (.writePkt rfl))
  have r5 := r4.step trivial (.caller (c := true) (by decide) (.signalProcess rfl))
  have r6 := r5.step trivial (.caller (c := true) (by decide) (.unlockProcess rfl))
  have r7 := r6.step trivial (.publish (c := false) rfl)
  have r8 := r7.step trivial (.caller (c := false) (by decide) (.lockProcess rfl rfl))
  have r9 := r8.step trivial (.caller (c := false) (by decide) (.writeMh rfl))
  have r10 := r9.step trivial (.caller (c := false) (by decide) (.writePkt rfl))
  have r11 := r10.step trivial (.caller (c := false) (by decide) (.signalProcess rfl))
  have r12 := r11.step trivial (.caller (c := false) (by decide) (.unlockProcess rfl))
  have r13 := r12.step trivial
    (.worker (i := 0) (c := true) (by decide) (.inr (by decide)) (.own (.wake rfl rfl)))
  have r14 := r13.step trivial
    (.worker (i := 0) (c := true) (by decide) (.inr (by decide)) (.own (.unlockProcess rfl)))
  have r15 := r14.step trivial
    (.worker (i := 0) (c := true) (by decide) (.inr (by decide)) (.own (.load rfl)))
  have r16 := r15.step trivial
    (.worker (i := 0) (c := true) (by decide) (.inr (by decide)) (.own (.turn 1 rfl (by decide))))
  have r17 := r16.step trivial
    (.worker (i := 0) (c := true) (by decide) (.inr (by decide)) (.own (.finish rfl (by decide))))
  have r18 := r17.step trivial
    (.worker (i := 0) (c := true) (by decide) (.inr (by decide)) (.own (.lockProcess rfl rfl)))
  have r19 := r18.step trivial
    (.worker (i := 0) (c := true) (by decide) (.inr (by decide)) (.lockResult rfl rfl))
  have r20 := r19.step trivial
    (.worker (i := 0) (c := true) (by decide) (.inr (by decide)) (.decrement rfl))
  have r21 := r20.step trivial
    (.worker (i := 0) (c := true) (by decide) (.inr (by decide)) (.store rfl))
  have r22 := r21.step trivial
    (.worker (i := 0) (c := true) (by decide) (.inr (by decide)) (.testZero rfl rfl))
  have r23 := r22.step trivial
    (.worker (i := 0) (c := true) (by decide) (.inr (by decide)) (.signal rfl))
  have r24 := r23.step trivial
    (.worker (i := 0) (c := true) (by decide) (.inr (by decide)) (.unlockResult rfl))
  have r25 := r24.step trivial (.caller (c := true) (by decide) (.lockResult rfl rfl))
  have r26 := r25.step trivial (.caller (c := true) (by decide) (.testZero rfl rfl))
  have r27 := r26.step trivial (.caller (c := true) (by decide) (.unlockResult rfl))
  have r28 := r27.step trivial (.caller (c := true) (by decide) (.reset rfl))
  have r29 := r28.step trivial (.caller (c := true) (by decide) (.collect rfl))
  have r30 := r29.step trivial (.caller (c := true) (by decide) (.delete rfl))
  refine ⟨_, r30, fun correct => ?_⟩
  have own := correct.own (1, [2]) List.mem_cons_self
  cases own

/-- One call after the other. -/
theorem successive_calls_correct :
    ∃ s, Reachable 1 1 Apart s ∧ s.handedOut = [(1, [1])] ∧ (s.callers false).packet = 2 ∧
      Correct 1 1 s := by
  have r0 : Reachable 1 1 Apart (initial 1 1) := .initial
  have r1 := r0.step (apart_publish rfl) (.publish (c := true) rfl)
  have r2 := r1.step (apart_caller _ _) (.caller (c := true) (by decide) (.lockProcess rfl rfl))
  have r3 := r2.step (apart_caller _ _) (.caller (c := true) (by decide) (.writeMh rfl))
  have r4 := r3.step (apart_caller _ _) (.caller (c := true) (by decide) (.writePkt rfl))
  have r5 := r4.step (apart_caller _ _) (.caller (c := true) (by decide) (.signalProcess rfl))
  have r6 := r5.step (apart_caller _ _) (.caller (c := true) (by decide) (.unlockProcess rfl))
  have r7 := r6.step (apart_worker _ _)
    (.worker (i := 0) (c := true) (by decide) (.inr (by decide)) (.own (.wake rfl rfl)))
  have r8 := r7.step (apart_worker _ _)
    (.worker (i := 0) (c := true) (by decide) (.inr (by decide)) (.own (.unlockProcess rfl)))
  have r9 := r8.step (apart_worker _ _)
    (.worker (i := 0) (c := true) (by decide) (.inr (by decide)) (.own (.load rfl)))
  have r10 := r9.step (apart_worker _ _)
    (.worker (i := 0) (c := true) (by decide) (.inr (by decide)) (.own (.turn 1 rfl (by decide))))
  have r11 := r10.step (apart_worker _ _)
    (.worker (i := 0) (c := true) (by decide) (.inr (by decide)) (.own (.finish rfl (by decide))))
  have r12 := r11.step (apart_worker _ _)
    (.worker (i := 0) (c := true) (by decide) (.inr (by decide)) (.own (.lockProcess rfl rfl)))
  have r13 := r12.step (apart_worker _ _)
    (.worker (i := 0) (c := true) (by decide) (.inr (by decide)) (.lockResult rfl rfl))
  have r14 := r13.step (apart_worker _ _)
    (.worker (i := 0) (c := true) (by decide) (.inr (by decide)) (.decrement rfl))
  have r15 := r14.step (apart_worker _ _)
    (.worker (i := 0) (c := true) (by decide) (.inr (by decide)) (.store rfl))
  have r16 := r15.step (apart_worker _ _)
    (.worker (i := 0) (c := true) (by decide) (.inr (by decide)) (.testZero rfl rfl))
  have r17 := r16.step (apart_worker _ _)
    (.worker (i := 0) (c := true) (by decide) (.inr (by decide)) (.signal rfl))
  have r18 := r17.step (apart_worker _ _)
    (.worker (i := 0) (c := true) (by decide) (.inr (by decide)) (.unlockResult rfl))
  have r19 := r18.step (apart_caller _ _) (.caller (c := true) (by decide) (.lockResult rfl rfl))
  have r20 := r19.step (apart_caller _ _) (.caller (c := true) (by decide) (.testZero rfl rfl))
  have r21 := r20.step (apart_caller _ _) (.caller (c := true) (by decide) (.unlockResult rfl))
  have r22 := r21.step (apart_caller _ _) (.caller (c := true) (by decide) (.reset rfl))
  have r23 := r22.step (apart_caller _ _) (.caller (c := true) (by decide) (.collect rfl))
  have r24 := r23.step (apart_caller _ _) (.caller (c := true) (by decide) (.delete rfl))
  have r25 := r24.step (apart_publish rfl) (.publish (c := false) rfl)
  exact ⟨_, r25, rfl, rfl, (concurrent_calls_apart r25).1⟩

end Concurrent

end TRex
