import TRex.Handshake

/-!
# What the handshake guarantees

The steps of the workers keep the invariant, so all runs do. From it: each worker does the turns of
each packet once and with the handler and packet of that call, the caller resets, collects and
deletes with no worker in the critical part, and each signal finds the one it is meant for. A call
also comes to its end: some thread can always go on, and no run goes on for ever within one call.
-/

namespace TRex

namespace Handshake

section WorkerSteps

variable {numProc : Nat} {s : State} {i : Nat}

/-! ## Steps of a worker -/

theorem CallerPc.calm_of_isReset {c : CallerPc} (isReset : c.isReset = true) (i : Nat) :
    (c.view i).calm = true := by
  cases c with
  | collecting j =>
      simp only [CallerPc.view]
      split <;> rfl
  | deleting => rfl
  | idle => rfl
  | _ => cases isReset

theorem CallerPc.not_idle {c : CallerPc} (notCalm : (c.view i).calm = false) : c ≠ .idle := by
  intro idle
  rw [idle] at notCalm
  cases notCalm

theorem set_shared_self (s : State) (i : Nat) (sh : Shared) : (s.set i sh).shared i = sh :=
  Function.update_self _ _ _

theorem set_shared_of_ne {j : Nat} (ne : j ≠ i) (s : State) (sh : Shared) :
    (s.set i sh).shared j = s.shared j :=
  Function.update_of_ne ne _ _

/-- A worker goes on, with or without the mutex of the results, and neither stores nor signals. -/
theorem Inv.move (inv : Inv numProc s) {sh : Shared} {mutex : Option Party}
    (ok : WorkerOk (s.caller.view i) s.packet sh)
    (sameActive : sh.pc.active = (s.shared i).pc.active)
    (mine : mutex = some (.worker i) ↔ sh.pc.holdsResult = true)
    (mutexOwner : mutex = some (.worker i) → i < numProc)
    (others : ∀ party, party ≠ .worker i → (mutex = some party ↔ s.resultMutex = some party))
    (willSignal : (s.shared i).pc.signals = true → s.stillProcessing = 0 → sh.pc.signals = true)
    (wouldSignal : sh.pc.signals = true → (s.shared i).pc.signals = true)
    (agrees : sh.pc.Agrees s.stillProcessing) :
    Inv numProc { s.set i sh with resultMutex := mutex } := by
  have here := set_shared_self s i sh
  have there : ∀ j, j ≠ i → (s.set i sh).shared j = s.shared j :=
    fun j ne => set_shared_of_ne ne s sh
  have samePending : pending numProc { s.set i sh with resultMutex := mutex } =
      pending numProc s := by
    refine pending_congr fun j _ => ?_
    simp only [done]
    rcases eq_or_ne j i with rfl | ne
    · rw [here, sameActive]
      rfl
    · rw [there j ne]
      rfl
  refine ⟨fun j lt => ?_, inv.index, fun j lt => ?_, fun j owns => ?_, ?_, fun notReset => ?_,
    inv.counterReset, inv.zero, fun waits zero => ?_, fun isWoken j lt => ?_, fun j lt => ?_,
    inv.handler⟩
  · simp only
    rcases eq_or_ne j i with rfl | ne
    · rw [here]
      exact ok
    · rw [there j ne]
      exact inv.workers j lt
  · simp only
    rcases eq_or_ne j i with rfl | ne
    · rw [here]
      exact mine
    · rw [there j ne, others (.worker j) (by simpa using ne)]
      exact inv.result j lt
  · rcases eq_or_ne j i with rfl | ne
    · exact mutexOwner owns
    · exact inv.resultOwner j ((others (.worker j) (by simpa using ne)).mp owns)
  · exact (others .caller (by simp)).trans inv.resultCaller
  · rw [samePending]
    exact inv.counter notReset
  · obtain ⟨j, lt, signals⟩ := inv.signalled waits zero
    refine ⟨j, lt, ?_⟩
    simp only
    rcases eq_or_ne j i with rfl | ne
    · rw [here]
      exact willSignal signals zero
    · rw [there j ne]
      exact signals
  · simp only
    rcases eq_or_ne j i with rfl | ne
    · rw [here]
      have before := inv.woken isWoken j lt
      cases signals : sh.pc.signals with
      | false => rfl
      | true =>
          rw [wouldSignal signals] at before
          cases before
    · rw [there j ne]
      exact inv.woken isWoken j lt
  · simp only
    rcases eq_or_ne j i with rfl | ne
    · rw [here]
      exact agrees
    · rw [there j ne]
      exact inv.agrees j lt

theorem mem_pending {j : Nat} : j ∈ pending numProc s ↔ j < numProc ∧ done s j = false := by
  rw [pending, Finset.mem_filter, Finset.mem_range]

/-- A worker that has yet to count keeps the counter above 0. -/
theorem Inv.counter_pos (inv : Inv numProc s) (lt : i < numProc)
    (active : (s.shared i).pc.active = true) (notReset : s.caller.isReset = false) :
    i ∈ pending numProc s ∧ s.stillProcessing ≠ 0 := by
  have mem : i ∈ pending numProc s := mem_pending.mpr ⟨lt, by simp [done, active]⟩
  have pos : 0 < (pending numProc s).card := Finset.card_pos.mpr ⟨i, mem⟩
  have counter := inv.counter notReset
  exact ⟨mem, by omega⟩

/-- With the mutex of the results, no other worker has read the counter or is about to signal. -/
theorem Inv.alone (inv : Inv numProc s) (held : s.resultMutex = some (.worker i)) {j : Nat}
    (lt : j < numProc) (ne : j ≠ i) : (s.shared j).pc.holdsResult = false := by
  by_contra holds
  have owns := (inv.result j lt).mpr (by simpa using holds)
  rw [held] at owns
  cases owns
  exact ne rfl

/-- The worker writes back the counter. -/
theorem Inv.store (inv : Inv numProc s) (lt : i < numProc) {value : Int}
    (pc : (s.shared i).pc = .storing value) :
    Inv numProc { s.set i { s.shared i with pc := .testing } with stillProcessing := value } := by
  have here := set_shared_self s i { s.shared i with pc := .testing }
  have there : ∀ j, j ≠ i → (s.set i { s.shared i with pc := .testing }).shared j = s.shared j :=
    fun j ne => set_shared_of_ne ne s _
  have ok := inv.workers i lt
  have notCalm := ok.not_calm (by rw [pc]; rfl)
  have held : s.resultMutex = some (.worker i) := (inv.result i lt).mpr (by rw [pc]; rfl)
  have isValue : value = s.stillProcessing - 1 := by
    have agrees := inv.agrees i lt
    rw [pc] at agrees
    exact agrees
  have notReset : s.caller.isReset = false := by
    by_contra isReset
    rw [CallerPc.calm_of_isReset (by simpa using isReset)] at notCalm
    cases notCalm
  obtain ⟨mem, nonzero⟩ := inv.counter_pos lt (by rw [pc]; rfl) notReset
  -- the worker is the only one that leaves the set
  have erased : pending numProc { s.set i { s.shared i with pc := .testing } with
      stillProcessing := value } = (pending numProc s).erase i := by
    ext j
    rw [Finset.mem_erase, mem_pending, mem_pending]
    simp only [done]
    rcases eq_or_ne j i with rfl | ne
    · rw [here]
      have current : ((s.set j { s.shared j with pc := .testing }).caller.view j).current = true :=
        WorkerOk.current_of_not_calm notCalm
      simp [current, WorkerPc.active]
    · rw [there j ne]
      simp [State.set, ne]
  refine ⟨fun j lt' => ?_, inv.index, fun j lt' => ?_, inv.resultOwner, inv.resultCaller,
    fun _ => ?_, fun isReset => ?_, fun past => ?_, fun _ _ => ⟨i, lt, ?_⟩, fun isWoken => ?_,
    fun j lt' => ?_, inv.handler⟩
  · simp only
    rcases eq_or_ne j i with rfl | ne
    · rw [here]
      exact ok.setPc (by rw [pc]; rfl) (by rw [pc]; rfl) rfl (by simp [notCalm])
    · rw [there j ne]
      exact inv.workers j lt'
  · simp only
    rcases eq_or_ne j i with rfl | ne
    · rw [here]
      have holds := inv.result j lt'
      rw [pc] at holds
      exact holds
    · rw [there j ne]
      exact inv.result j lt'
  · have counter := inv.counter notReset
    have card := Finset.card_erase_add_one mem
    rw [erased]
    simp only [isValue]
    omega
  · have isReset' : s.caller.isReset = true := isReset
    rw [notReset] at isReset'
    cases isReset'
  · exact absurd (inv.zero past) nonzero
  · simp only [here]
    rfl
  · exact absurd (inv.zero (.inl isWoken)) nonzero
  · simp only
    rcases eq_or_ne j i with rfl | ne
    · rw [here]
      trivial
    · rw [there j ne]
      exact WorkerPc.agrees_of_not_holdsResult (inv.alone held lt' ne) _

theorem CallerPc.signal_cases (c : CallerPc) :
    (c.signal = .woken ∧ c = .waiting) ∨ (c.signal = c ∧ c ≠ .waiting) := by
  unfold CallerPc.signal
  split
  · next waits => exact .inl ⟨rfl, waits⟩
  · next elsewhere => exact .inr ⟨rfl, elsewhere⟩

theorem CallerPc.view_signal (c : CallerPc) (j : Nat) : c.signal.view j = c.view j := by
  rcases c.signal_cases with ⟨isWoken, waits⟩ | ⟨same, -⟩
  · rw [isWoken, waits]
    rfl
  · rw [same]

/-- The worker has found the counter at 0 and signals, with the mutex of the results. -/
theorem Inv.signal (inv : Inv numProc s) (lt : i < numProc) (pc : (s.shared i).pc = .signalling) :
    Inv numProc { s.set i { s.shared i with pc := .unlockingResult } with
      caller := s.caller.signal } := by
  have here := set_shared_self s i { s.shared i with pc := .unlockingResult }
  have there : ∀ j, j ≠ i →
      (s.set i { s.shared i with pc := .unlockingResult }).shared j = s.shared j :=
    fun j ne => set_shared_of_ne ne s _
  have ok := inv.workers i lt
  have notCalm := ok.not_calm (by rw [pc]; rfl)
  have held : s.resultMutex = some (.worker i) := (inv.result i lt).mpr (by rw [pc]; rfl)
  have zero : s.stillProcessing = 0 := by
    have agrees := inv.agrees i lt
    rw [pc] at agrees
    exact agrees
  have samePending : pending numProc { s.set i { s.shared i with pc := .unlockingResult } with
      caller := s.caller.signal } = pending numProc s := by
    refine pending_congr fun j _ => ?_
    simp only [done, CallerPc.view_signal]
    rcases eq_or_ne j i with rfl | ne
    · rw [here, pc]
      rfl
    · rw [there j ne]
  have workers : ∀ j < numProc, WorkerOk (s.caller.signal.view j) s.packet
      ((s.set i { s.shared i with pc := .unlockingResult }).shared j) := by
    intro j lt'
    rw [CallerPc.view_signal]
    rcases eq_or_ne j i with rfl | ne
    · rw [here]
      exact ok.setPc (by rw [pc]; rfl) (by rw [pc]; rfl) rfl (by simp [notCalm])
    · rw [there j ne]
      exact inv.workers j lt'
  have result : ∀ j < numProc, s.resultMutex = some (.worker j) ↔
      ((s.set i { s.shared i with pc := .unlockingResult }).shared j).pc.holdsResult = true := by
    intro j lt'
    rcases eq_or_ne j i with rfl | ne
    · rw [here, held]
      simp [WorkerPc.holdsResult]
    · rw [there j ne]
      exact inv.result j lt'
  have after : ∀ j < numProc,
      ((s.set i { s.shared i with pc := .unlockingResult }).shared j).pc.signals = false ∧
        ((s.set i { s.shared i with pc := .unlockingResult }).shared j).pc.Agrees
          s.stillProcessing := by
    intro j lt'
    rcases eq_or_ne j i with rfl | ne
    · rw [here]
      exact ⟨rfl, trivial⟩
    · rw [there j ne]
      have free := inv.alone held lt' ne
      exact ⟨WorkerPc.not_signals_of_not_holdsResult free, inv.agrees j lt'⟩
  rcases s.caller.signal_cases with ⟨isWoken, waits⟩ | ⟨same, elsewhere⟩
  · -- the caller waits, and the signal wakes it
    refine ⟨workers, ?_, result, inv.resultOwner, ?_, fun _ => ?_, ?_, fun _ => zero, ?_,
      fun _ j lt' => (after j lt').1, fun j lt' => (after j lt').2,
      fun _ => inv.handler (by simp [waits])⟩
    · simp [isWoken, CallerPc.index?]
    · have notHeld := inv.resultCaller
      rw [waits] at notHeld
      simpa [isWoken, State.set, CallerPc.holdsResult] using notHeld
    · rw [samePending]
      exact inv.counter (by rw [waits]; rfl)
    · simp [isWoken, CallerPc.isReset]
    · simp [isWoken]
  · -- the caller has yet to look at the counter
    refine ⟨workers, ?_, result, inv.resultOwner, ?_, ?_, ?_, ?_, ?_,
      fun _ j lt' => (after j lt').1, fun j lt' => (after j lt').2, ?_⟩
    · simpa only [same, State.set] using inv.index
    · simpa only [same, State.set] using inv.resultCaller
    · rw [samePending]
      simpa only [same, State.set] using inv.counter
    · simpa only [same, State.set] using inv.counterReset
    · simpa only [same, State.set] using inv.zero
    · simp only [same]
      exact fun waits => absurd waits elsewhere
    · simpa only [same, State.set] using inv.handler

theorem Inv.workerStep (inv : Inv numProc s) (lt : i < numProc) {s' : State}
    (step : WorkerStep i s s') : Inv numProc s' := by
  have ok := inv.workers i lt
  cases step with
  | @own sh ownStep =>
      obtain ⟨sameActive, after, before⟩ := ownStep.apart
      have pos : (s.caller.view i).calm = false → 0 < s.packet :=
        fun notCalm => (inv.handler (CallerPc.not_idle notCalm)).2
      refine inv.move (ok.own pos ownStep) sameActive ?_ (fun _ => lt) (fun _ _ => Iff.rfl) ?_ ?_
        (WorkerPc.agrees_of_not_holdsResult after _)
      · rw [after, ← before]
        exact inv.result i lt
      · simp [WorkerPc.not_signals_of_not_holdsResult before]
      · simp [WorkerPc.not_signals_of_not_holdsResult after]
  | lockResult pc free =>
      have notCalm := ok.not_calm (by rw [pc]; rfl)
      refine inv.move (ok.setPc (by rw [pc]; rfl) (by rw [pc]; rfl) rfl (by simp [notCalm]))
        (by rw [pc]; rfl) ?_ (fun _ => lt) (fun party ne => ?_) ?_ ?_ trivial
      · simp [WorkerPc.holdsResult]
      · rw [free]
        simpa using fun same => ne same.symm
      · simp [pc, WorkerPc.signals]
      · simp [WorkerPc.signals]
  | decrement pc =>
      have notCalm := ok.not_calm (by rw [pc]; rfl)
      have holds := inv.result i lt
      rw [pc] at holds
      refine inv.move (ok.setPc (by rw [pc]; rfl) (by rw [pc]; rfl) rfl (by simp [notCalm]))
        (by rw [pc]; rfl) holds (fun _ => lt) (fun _ _ => Iff.rfl) ?_ ?_ rfl
      · simp [pc, WorkerPc.signals]
      · simp [WorkerPc.signals]
  | store pc => exact inv.store lt pc
  | testZero pc zero =>
      have notCalm := ok.not_calm (by rw [pc]; rfl)
      have holds := inv.result i lt
      rw [pc] at holds
      refine inv.move (ok.setPc (by rw [pc]; rfl) (by rw [pc]; rfl) rfl (by simp [notCalm]))
        (by rw [pc]; rfl) holds (fun _ => lt) (fun _ _ => Iff.rfl) (fun _ _ => rfl) ?_ zero
      simp [pc, WorkerPc.signals]
  | testNonzero pc nonzero =>
      have notCalm := ok.not_calm (by rw [pc]; rfl)
      have holds := inv.result i lt
      rw [pc] at holds
      refine inv.move (ok.setPc (by rw [pc]; rfl) (by rw [pc]; rfl) rfl (by simp [notCalm]))
        (by rw [pc]; rfl) holds (fun _ => lt) (fun _ _ => Iff.rfl) ?_ ?_ trivial
      · exact fun _ zero => absurd zero nonzero
      · simp [WorkerPc.signals]
  | signal pc => exact inv.signal lt pc
  | unlockResult pc =>
      have held : s.resultMutex = some (.worker i) := (inv.result i lt).mpr (by rw [pc]; rfl)
      refine inv.move (ok.setPc (by rw [pc]; rfl) (by rw [pc]; rfl) rfl (by simp [WorkerPc.quiet]))
        (by rw [pc]; rfl) ?_ (by simp) (fun party ne => ?_) ?_ ?_ trivial
      · simp [WorkerPc.holdsResult]
      · rw [held]
        simpa using fun same => ne same.symm
      · simp [pc, WorkerPc.signals]
      · simp [WorkerPc.signals]

end WorkerSteps

/-! ## Runs -/

section Runs

variable {numProc size : Nat} {s s' : State}

theorem Inv.step (inv : Inv numProc s) (step : Step numProc s s') : Inv numProc s' := by
  cases step with
  | caller step => exact inv.callerStep step
  | worker lt step => exact inv.workerStep lt step

theorem Reachable.inv (reachable : Reachable numProc size s) : Inv numProc s := by
  induction reachable with
  | initial => exact inv_initial numProc size
  | step _ step before => exact before.step step

/-- The bounds of a worker never change. -/
theorem Step.bounds (step : Step numProc s s') (j : Nat) :
    (s'.shared j).lowerBound = (s.shared j).lowerBound ∧
      (s'.shared j).upperBound = (s.shared j).upperBound := by
  have set : ∀ (i : Nat) (sh : Shared), sh.lowerBound = (s.shared i).lowerBound →
      sh.upperBound = (s.shared i).upperBound →
      ((s.set i sh).shared j).lowerBound = (s.shared j).lowerBound ∧
        ((s.set i sh).shared j).upperBound = (s.shared j).upperBound := by
    intro i sh lower upper
    rcases eq_or_ne j i with rfl | ne
    · rw [set_shared_self]
      exact ⟨lower, upper⟩
    · rw [set_shared_of_ne ne]
      exact ⟨rfl, rfl⟩
  cases step with
  | caller step => cases step <;> first | exact ⟨rfl, rfl⟩ | exact set _ _ rfl rfl
  | worker lt step =>
      cases step with
      | own ownStep => cases ownStep <;> exact set _ _ rfl rfl
      | lockResult pc free => exact set _ _ rfl rfl
      | decrement pc => exact set _ _ rfl rfl
      | store pc => exact set _ _ rfl rfl
      | testZero pc zero => exact set _ _ rfl rfl
      | testNonzero pc nonzero => exact set _ _ rfl rfl
      | signal pc => exact set _ _ rfl rfl
      | unlockResult pc => exact set _ _ rfl rfl

theorem Reachable.bounds (reachable : Reachable numProc size s) (i : Nat) :
    (s.shared i).lowerBound = size * i ∧ (s.shared i).upperBound = size * (i + 1) := by
  induction reachable with
  | initial => exact ⟨rfl, rfl⟩
  | step _ step before =>
      obtain ⟨lower, upper⟩ := step.bounds i
      rw [lower, upper]
      exact before

end Runs

/-! ## Every packet once -/

section Turns

theorem rounds_prefix (lower upper packet : Nat) :
    rounds lower upper (packet - 1) <+: rounds lower upper packet := by
  cases packet with
  | zero => exact List.prefix_refl _
  | succ k =>
      rw [Nat.add_sub_cancel, rounds_succ]
      exact List.prefix_append _ _

theorem turns_prefix {lower count count' : Nat} (le : count ≤ count') (packet : Nat) :
    turns lower count packet <+: turns lower count' packet := by
  obtain ⟨more, rfl⟩ := Nat.exists_eq_add_of_le le
  refine ⟨turns (lower + count) more packet, ?_⟩
  rw [turns, turns, turns, ← List.map_append, ← List.range'_append_1]

theorem mem_turns {lower count packet : Nat} {turn : Turn} :
    turn ∈ turns lower count packet ↔
      lower ≤ turn.rule ∧ turn.rule < lower + count ∧ turn.mh = packet ∧ turn.pkt = packet := by
  simp only [turns, List.mem_map, List.mem_range'_1]
  constructor
  · rintro ⟨rule, bounds, rfl⟩
    exact ⟨bounds.1, bounds.2, rfl, rfl⟩
  · intro isTurn
    obtain ⟨lower, upper, mh, pkt⟩ := isTurn
    exact ⟨turn.rule, ⟨lower, upper⟩, by rw [← mh]; cases turn; simp_all⟩

/-- No turn occurs twice. -/
theorem rounds_nodup (lower upper packet : Nat) : (rounds lower upper packet).Nodup := by
  rw [rounds, List.nodup_flatMap]
  constructor
  · intro k _
    refine List.Nodup.map ?_ List.nodup_range'
    intro rule rule' same
    cases same
    rfl
  · refine List.nodup_range.imp ?_
    intro k k' ne turn left right
    have sameMh := (mem_turns.mp left).2.2.1.symm.trans (mem_turns.mp right).2.2.1
    exact ne (Nat.succ.inj sameMh)

variable {view : View} {packet : Nat} {sh : Shared}

theorem WorkerOk.earlier (ok : WorkerOk view packet sh) :
    rounds sh.lowerBound sh.upperBound (packet - 1) <+: sh.processed := by
  rw [ok.processed]
  refine List.IsPrefix.trans ?_ (List.prefix_append _ _)
  split
  · exact rounds_prefix _ _ _
  · exact List.prefix_refl _

theorem WorkerOk.within (ok : WorkerOk view packet sh) (pos : view.calm = false → 0 < packet) :
    sh.processed <+: rounds sh.lowerBound sh.upperBound packet := by
  rw [ok.processed]
  by_cases finished : sh.pc.unfinished = false
  · rw [WorkerPc.started_of_finished finished, List.append_nil]
    split
    · exact List.prefix_refl _
    · exact rounds_prefix _ _ _
  · rw [if_neg fun both => finished both.2]
    cases pc : sh.pc with
    | running mh rule =>
        -- the turns of the current packet so far are the first of its round
        obtain ⟨-, lower, upper⟩ := ok.running mh rule pc
        have notCalm := ok.not_calm (by rw [pc]; rfl)
        have next : packet = packet - 1 + 1 := by have := pos notCalm; omega
        have round := rounds_succ sh.lowerBound sh.upperBound (packet - 1)
        rw [← next] at round
        rw [round, List.prefix_append_right_inj]
        exact turns_prefix upper packet
    | woken | holding | loading =>
        simp only [WorkerPc.started, List.append_nil]
        exact rounds_prefix _ _ _
    | _ => simp [pc, WorkerPc.unfinished] at finished

end Turns

/-! ## Some thread can go on -/

section Progress

variable {numProc : Nat} {s : State} {i : Nat}

/-- A step that does not publish a packet. -/
def Within (numProc : Nat) (s s' : State) : Prop := Step numProc s s' ∧ s'.packet = s.packet

/-- All parties are where they are between two calls. -/
def Resting (numProc : Nat) (s : State) : Prop :=
  s.caller = .idle ∧ ∀ i < numProc, (s.shared i).pc = .waiting

theorem Within.ofCaller {s' : State} (step : CallerStep numProc s s')
    (same : s'.packet = s.packet) : ∃ s', Within numProc s s' :=
  ⟨s', .caller step, same⟩

theorem Within.ofWorker {s' : State} (lt : i < numProc) (step : WorkerStep i s s')
    (same : s'.packet = s.packet) : ∃ s', Within numProc s s' :=
  ⟨s', .worker lt step, same⟩

/-- A caller that holds the mutex of a worker can go on. -/
theorem Inv.progress_of_held (inv : Inv numProc s) (lt : i < numProc)
    (held : (s.shared i).processMutex = some .caller) : ∃ s', Within numProc s s' := by
  have holds := (inv.workers i lt).caller.mp held
  cases pc : s.caller with
  | writingMh j => exact Within.ofCaller (.writeMh pc) rfl
  | writingPkt j => exact Within.ofCaller (.writePkt pc) rfl
  | signalling j => exact Within.ofCaller (.signalProcess pc) rfl
  | unlocking j => exact Within.ofCaller (.unlockProcess pc) rfl
  | locking j | collecting j =>
      rw [pc, CallerPc.view] at holds
      split at holds <;> cases holds
  | _ =>
      rw [pc] at holds
      cases holds

/-- A worker that wants its mutex gets it, or the caller has it and can go on. -/
theorem Inv.progress_of_acquire (inv : Inv numProc s) (lt : i < numProc)
    (notHeld : (s.shared i).pc.holdsProcess = false) {sh : Shared}
    (acquire : (s.shared i).processMutex = none → OwnStep (s.shared i) sh) :
    ∃ s', Within numProc s s' := by
  cases owner : (s.shared i).processMutex with
  | none => exact Within.ofWorker lt (.own (acquire owner)) rfl
  | some party =>
      cases party with
      | caller => exact inv.progress_of_held lt owner
      | worker =>
          have holds := (inv.workers i lt).worker.mp owner
          rw [notHeld] at holds
          cases holds

theorem Inv.progress_of_result (inv : Inv numProc s) {party : Party}
    (held : s.resultMutex = some party) : ∃ s', Within numProc s s' := by
  cases party with
  | caller =>
      have holds := inv.resultCaller.mp held
      cases pc : s.caller with
      | testing =>
          by_cases zero : s.stillProcessing = 0
          · exact Within.ofCaller (.testZero pc zero) rfl
          · exact Within.ofCaller (.testWait pc zero) rfl
      | unlockingResult => exact Within.ofCaller (.unlockResult pc) rfl
      | _ =>
          rw [pc] at holds
          cases holds
  | worker j =>
      have lt := inv.resultOwner j held
      have holds := (inv.result j lt).mp held
      cases pc : (s.shared j).pc with
      | decrementing => exact Within.ofWorker lt (.decrement pc) rfl
      | storing value => exact Within.ofWorker lt (.store pc) rfl
      | testing =>
          by_cases zero : s.stillProcessing = 0
          · exact Within.ofWorker lt (.testZero pc zero) rfl
          · exact Within.ofWorker lt (.testNonzero pc zero) rfl
      | signalling => exact Within.ofWorker lt (.signal pc) rfl
      | unlockingResult => exact Within.ofWorker lt (.unlockResult pc) rfl
      | _ =>
          rw [pc] at holds
          cases holds

/-- A worker that does not wait can go on, or waits for the caller to give back its mutex. -/
theorem Inv.progress_of_worker (inv : Inv numProc s) (lt : i < numProc)
    (free : s.resultMutex = none) (busy : (s.shared i).pc ≠ .waiting) :
    ∃ s', Within numProc s s' := by
  have noResult : (s.shared i).pc.holdsResult = false := by
    have holds := inv.result i lt
    rw [free] at holds
    simpa using holds
  cases pc : (s.shared i).pc with
  | waiting => exact absurd pc busy
  | woken => exact inv.progress_of_acquire lt (by rw [pc]; rfl) (.wake pc)
  | holding => exact Within.ofWorker lt (.own (.unlockProcess pc)) rfl
  | loading => exact Within.ofWorker lt (.own (.load pc)) rfl
  | running mh rule =>
      by_cases more : rule < (s.shared i).upperBound
      · exact Within.ofWorker lt (.own (.turn 0 pc more)) rfl
      · exact Within.ofWorker lt (.own (.finish pc more)) rfl
  | relocking => exact inv.progress_of_acquire lt (by rw [pc]; rfl) (.lockProcess pc)
  | lockingResult => exact Within.ofWorker lt (.lockResult pc free) rfl
  | entering => exact Within.ofWorker lt (.own (.wait pc)) rfl
  | decrementing | storing value | testing | signalling | unlockingResult =>
      rw [pc] at noResult
      cases noResult

/-- When all workers wait, the caller does not. -/
theorem Inv.progress_of_caller (inv : Inv numProc s) (free : s.resultMutex = none)
    (waiting : ∀ i < numProc, (s.shared i).pc = .waiting) (busy : s.caller ≠ .idle) :
    ∃ s', Within numProc s s' := by
  cases pc : s.caller with
  | idle => exact absurd pc busy
  | locking i =>
      have lt := inv.index i (by rw [pc]; rfl)
      cases owner : (s.shared i).processMutex with
      | none => exact Within.ofCaller (.lockProcess pc owner) rfl
      | some party =>
          cases party with
          | caller => exact inv.progress_of_held lt owner
          | worker =>
              have holds := (inv.workers i lt).worker.mp owner
              rw [waiting i lt] at holds
              cases holds
  | writingMh i => exact Within.ofCaller (.writeMh pc) rfl
  | writingPkt i => exact Within.ofCaller (.writePkt pc) rfl
  | signalling i => exact Within.ofCaller (.signalProcess pc) rfl
  | unlocking i => exact Within.ofCaller (.unlockProcess pc) rfl
  | lockingResult => exact Within.ofCaller (.lockResult pc free) rfl
  | testing | unlockingResult =>
      have held := inv.resultCaller.mpr (by rw [pc]; rfl)
      rw [free] at held
      cases held
  | waiting =>
      -- all workers have counted, so the last of them is still to signal
      have none : pending numProc s = ∅ := by
        refine Finset.eq_empty_of_forall_notMem fun j mem => ?_
        obtain ⟨lt, notDone⟩ := mem_pending.mp mem
        simp [done, pc, waiting j lt, CallerPc.view, View.current, WorkerPc.active] at notDone
      have counter := inv.counter (by rw [pc]; rfl)
      rw [none] at counter
      obtain ⟨j, lt, signals⟩ := inv.signalled pc (by simpa using counter)
      rw [waiting j lt] at signals
      cases signals
  | woken => exact Within.ofCaller (.wake pc free) rfl
  | resetting => exact Within.ofCaller (.reset pc) rfl
  | collecting i => exact Within.ofCaller (.collect pc) rfl
  | deleting => exact Within.ofCaller (.delete pc) rfl

theorem Inv.progress (inv : Inv numProc s) (busy : ¬ Resting numProc s) :
    ∃ s', Within numProc s s' := by
  cases owner : s.resultMutex with
  | some party => exact inv.progress_of_result owner
  | none =>
      by_cases waiting : ∀ i < numProc, (s.shared i).pc = .waiting
      · exact inv.progress_of_caller owner waiting fun idle => busy ⟨idle, waiting⟩
      · obtain ⟨i, lt, notWaiting⟩ : ∃ i < numProc, (s.shared i).pc ≠ .waiting := by
          simpa using waiting
        exact inv.progress_of_worker lt owner notWaiting

end Progress

/-! ## No call goes on for ever -/

section Termination

variable {numProc : Nat} {s s' : State} {i : Nat}

/-- The steps the caller has left in its call, at most. -/
def callerRank (numProc : Nat) : CallerPc → Nat
  | .idle => 0
  | .deleting => 1
  | .collecting i => numProc - i + 2
  | .resetting => numProc + 3
  | .unlockingResult => numProc + 4
  | .woken => numProc + 5
  | .waiting => numProc + 6
  | .testing => numProc + 7
  | .lockingResult => numProc + 8
  | .unlocking i => numProc + 9 + 5 * (numProc - i)
  | .signalling i => numProc + 10 + 5 * (numProc - i)
  | .writingPkt i => numProc + 11 + 5 * (numProc - i)
  | .writingMh i => numProc + 12 + 5 * (numProc - i)
  | .locking i => numProc + 13 + 5 * (numProc - i)

/-- The steps a worker has left before it waits again. -/
def workerRank (sh : Shared) : Nat :=
  match sh.pc with
  | .waiting => 0
  | .entering => 1
  | .unlockingResult => 2
  | .signalling => 3
  | .testing => 4
  | .storing _ => 5
  | .decrementing => 6
  | .lockingResult => 7
  | .relocking => 8
  | .running _ rule => 9 + (sh.upperBound - rule)
  | .loading => 10 + (sh.upperBound - sh.lowerBound)
  | .holding => 11 + (sh.upperBound - sh.lowerBound)
  | .woken => 12 + (sh.upperBound - sh.lowerBound)

/-- The caller first: its steps may give a worker new steps to do. -/
def rank (numProc : Nat) (s : State) : Nat × Nat :=
  (callerRank numProc s.caller, ∑ i ∈ Finset.range numProc, workerRank (s.shared i))

theorem CallerStep.rank_lt (step : CallerStep numProc s s') (same : s'.packet = s.packet) :
    callerRank numProc s'.caller < callerRank numProc s.caller := by
  cases step with
  | publish pc => simp at same
  | unlockProcess pc =>
      simp only [pc, nextLock]
      split <;> simp only [callerRank] <;> omega
  | reset pc =>
      simp only [pc, nextCollect]
      split <;> simp only [callerRank] <;> omega
  | collect pc =>
      simp only [pc, nextCollect]
      split <;> simp only [callerRank] <;> omega
  | lockProcess pc | writeMh pc | writePkt pc | signalProcess pc | lockResult pc | testZero pc
  | testWait pc | wake pc | unlockResult pc | delete pc =>
      simp only [pc, callerRank]
      omega

theorem OwnStep.rank_lt {sh sh' : Shared} (step : OwnStep sh sh') :
    workerRank sh' < workerRank sh := by
  cases step with
  | turn generated pc more =>
      simp only [workerRank, pc]
      omega
  | wake pc | unlockProcess pc | load pc | finish pc | lockProcess pc | wait pc =>
      simp only [workerRank, pc]
      omega

theorem sum_workerRank_lt (lt : i < numProc) {sh : Shared}
    (less : workerRank sh < workerRank (s.shared i)) :
    ∑ j ∈ Finset.range numProc, workerRank ((s.set i sh).shared j) <
      ∑ j ∈ Finset.range numProc, workerRank (s.shared j) := by
  refine Finset.sum_lt_sum (fun j _ => ?_) ⟨i, Finset.mem_range.mpr lt, ?_⟩
  · rcases eq_or_ne j i with rfl | ne
    · rw [set_shared_self]
      exact less.le
    · rw [set_shared_of_ne ne]
  · rw [set_shared_self]
    exact less

theorem WorkerStep.rank_lt (lt : i < numProc) (step : WorkerStep i s s') :
    Prod.Lex (· < ·) (· < ·) (rank numProc s') (rank numProc s) := by
  cases step with
  | own ownStep => exact .right _ (sum_workerRank_lt lt ownStep.rank_lt)
  | lockResult pc free => exact .right _ (sum_workerRank_lt lt (by simp [workerRank, pc]))
  | decrement pc => exact .right _ (sum_workerRank_lt lt (by simp [workerRank, pc]))
  | store pc => exact .right _ (sum_workerRank_lt lt (by simp [workerRank, pc]))
  | testZero pc zero => exact .right _ (sum_workerRank_lt lt (by simp [workerRank, pc]))
  | testNonzero pc nonzero => exact .right _ (sum_workerRank_lt lt (by simp [workerRank, pc]))
  | unlockResult pc => exact .right _ (sum_workerRank_lt lt (by simp [workerRank, pc]))
  | signal pc =>
      have less :
          workerRank { s.shared i with pc := .unlockingResult } < workerRank (s.shared i) := by
        simp [workerRank, pc]
      rcases s.caller.signal_cases with ⟨isWoken, waits⟩ | ⟨same, -⟩
      · refine .left _ _ ?_
        simp only [isWoken]
        rw [waits]
        simp [callerRank]
      · simp only [rank, same]
        exact .right _ (sum_workerRank_lt lt less)

theorem Within.rank_lt (within : Within numProc s s') :
    Prod.Lex (· < ·) (· < ·) (rank numProc s') (rank numProc s) := by
  obtain ⟨step, same⟩ := within
  cases step with
  | caller step => exact .left _ _ (step.rank_lt same)
  | worker lt step => exact step.rank_lt lt

theorem within_wellFounded (numProc : Nat) : WellFounded fun s' s => Within numProc s s' :=
  Subrelation.wf Within.rank_lt
    (InvImage.wf (rank numProc) (WellFounded.prod_lex Nat.lt_wfRel.wf Nat.lt_wfRel.wf))

end Termination

/-! ## The guarantees -/

/-- The wait for the results is over. -/
def CallerPc.past : CallerPc → Bool
  | .unlockingResult | .resetting | .collecting _ | .deleting | .idle => true
  | _ => false

/-- The caller has yet to take the mutex of the results. -/
def CallerPc.beforeTest : CallerPc → Bool
  | .locking _ | .writingMh _ | .writingPkt _ | .signalling _ | .unlocking _ => true
  | .lockingResult => true
  | _ => false

structure Safe (numProc size : Nat) (s : State) : Prop where
  /-- The turns of earlier packets are all done. -/
  earlier : ∀ i < numProc,
    rounds (size * i) (size * (i + 1)) (s.packet - 1) <+: (s.shared i).processed
  /-- No turn is done out of its place. -/
  within : ∀ i < numProc,
    (s.shared i).processed <+: rounds (size * i) (size * (i + 1)) s.packet
  /-- No turn is done twice. -/
  once : ∀ i < numProc, (s.shared i).processed.Nodup
  /-- When the wait is over, the turns of the current packet are all done as well. -/
  complete : s.caller.past = true → ∀ i < numProc,
    (s.shared i).processed = rounds (size * i) (size * (i + 1)) s.packet
  /-- A worker in its rule loop uses the current handler, which exists, and the current packet. -/
  current : ∀ i < numProc, ∀ mh rule, (s.shared i).pc = .running mh rule →
    mh = s.packet ∧ (s.shared i).pkt = s.packet ∧ s.handler = some s.packet
  /-- The counter is reset, the results are read and cleared and the handler is deleted with no
  worker between its wake-up and its decrement. -/
  apart : s.caller = .resetting ∨ (∃ i, s.caller = .collecting i) ∨ s.caller = .deleting →
    ∀ i < numProc, (s.shared i).pc.active = false
  /-- The caller signals a worker that waits. -/
  signalProcess : ∀ i, s.caller = .signalling i → (s.shared i).pc = .waiting
  /-- The last worker signals a caller that waits, or one that has yet to look at the counter. -/
  signalResult : ∀ i < numProc, (s.shared i).pc = .signalling →
    s.caller = .waiting ∨ s.caller.beforeTest = true
  /-- A caller that waits is still to be signalled. -/
  awaited : s.caller = .waiting → ∃ i < numProc, (s.shared i).pc.active = true ∨
    ((s.shared i).pc.signals = true ∧ s.stillProcessing = 0)
  progress : ¬ Resting numProc s → ∃ s', Within numProc s s'

section Guarantees

variable {numProc size : Nat} {s : State}

theorem CallerPc.calm_of_past {c : CallerPc} (past : c.past = true) (i : Nat) :
    (c.view i).calm = true ∧ (c.view i).current = true := by
  cases c with
  | collecting j =>
      simp only [CallerPc.view]
      split <;> exact ⟨rfl, rfl⟩
  | unlockingResult | resetting | deleting | idle => exact ⟨rfl, rfl⟩
  | _ => cases past

theorem Inv.quiet_of_past (inv : Inv numProc s) (past : s.caller.past = true) {i : Nat}
    (lt : i < numProc) : (s.shared i).pc.quiet = true :=
  (inv.workers i lt).calm (CallerPc.calm_of_past past i).1

theorem Inv.complete (inv : Inv numProc s) (past : s.caller.past = true) {i : Nat}
    (lt : i < numProc) : (s.shared i).processed =
      rounds (s.shared i).lowerBound (s.shared i).upperBound s.packet := by
  have finished := WorkerPc.finished_of_quiet (inv.quiet_of_past past lt)
  rw [(inv.workers i lt).processed, WorkerPc.started_of_finished finished,
    if_pos ⟨(CallerPc.calm_of_past past i).2, finished⟩, List.append_nil]

theorem Inv.signalResult (inv : Inv numProc s) {i : Nat} (lt : i < numProc)
    (signalling : (s.shared i).pc = .signalling) :
    s.caller = .waiting ∨ s.caller.beforeTest = true := by
  have notQuiet : (s.shared i).pc.quiet = false := by rw [signalling]; rfl
  have notPast : s.caller.past = false := by
    by_contra past
    rw [inv.quiet_of_past (by simpa using past) lt] at notQuiet
    cases notQuiet
  cases pc : s.caller with
  | waiting => exact .inl rfl
  | woken =>
      have notSignals := inv.woken pc i lt
      rw [signalling] at notSignals
      cases notSignals
  | testing =>
      have held := (inv.result i lt).mpr (by rw [signalling]; rfl)
      rw [inv.resultCaller.mpr (by rw [pc]; rfl)] at held
      cases held
  | unlockingResult | resetting | collecting j | deleting | idle =>
      rw [pc] at notPast
      cases notPast
  | _ => exact .inr rfl

theorem Inv.awaited (inv : Inv numProc s) (waits : s.caller = .waiting) :
    ∃ i < numProc, (s.shared i).pc.active = true ∨
      ((s.shared i).pc.signals = true ∧ s.stillProcessing = 0) := by
  by_cases zero : s.stillProcessing = 0
  · obtain ⟨i, lt, signals⟩ := inv.signalled waits zero
    exact ⟨i, lt, .inr ⟨signals, zero⟩⟩
  · -- somebody has yet to count
    have counter := inv.counter (by rw [waits]; rfl)
    have nonempty : (pending numProc s).card ≠ 0 := by omega
    obtain ⟨i, mem⟩ := Finset.card_ne_zero.mp nonempty
    obtain ⟨lt, notDone⟩ := mem_pending.mp mem
    refine ⟨i, lt, .inl ?_⟩
    simpa [done, waits, CallerPc.view, View.current] using notDone

theorem Reachable.safe (reachable : Reachable numProc size s) : Safe numProc size s := by
  have inv := reachable.inv
  have within : ∀ i < numProc,
      (s.shared i).processed <+: rounds (size * i) (size * (i + 1)) s.packet := by
    intro i lt
    obtain ⟨lower, upper⟩ := reachable.bounds i
    have all := (inv.workers i lt).within
      fun notCalm => (inv.handler (CallerPc.not_idle notCalm)).2
    rwa [lower, upper] at all
  refine ⟨fun i lt => ?_, within, fun i lt => ?_, fun past i lt => ?_, fun i lt mh rule pc => ?_,
    fun stage i lt => ?_, fun i pc => ?_, fun i lt signalling => inv.signalResult lt signalling,
    inv.awaited, inv.progress⟩
  · obtain ⟨lower, upper⟩ := reachable.bounds i
    have earlier := (inv.workers i lt).earlier
    rwa [lower, upper] at earlier
  · exact (rounds_nodup _ _ _).sublist (within i lt).sublist
  · obtain ⟨lower, upper⟩ := reachable.bounds i
    rw [inv.complete past lt, lower, upper]
  · have ok := inv.workers i lt
    have notCalm := ok.not_calm (by rw [pc]; rfl)
    exact ⟨(ok.running mh rule pc).1, ok.pkt (WorkerOk.mhOk_of_not_calm notCalm).2,
      (inv.handler (CallerPc.not_idle notCalm)).1⟩
  · have past : s.caller.past = true := by
      rcases stage with pc | ⟨j, pc⟩ | pc <;> rw [pc] <;> rfl
    exact WorkerPc.not_active_of_quiet (inv.quiet_of_past past lt)
  · have ok := inv.workers i (inv.index i (by rw [pc]; rfl))
    have written : s.caller.view i = .written := by simp [pc, CallerPc.view]
    rw [written] at ok
    exact ok.waiting

/-- The handshake is safe in every state of every run, and no run goes on for ever within one call.
-/
theorem handshake_safe (reachable : Reachable numProc size s) :
    Safe numProc size s ∧ WellFounded fun after before => Within numProc before after :=
  ⟨reachable.safe, within_wellFounded numProc⟩

/-- Two workers with three rules each: the first one is in its rule loop when the caller has yet to
wake up the second one. -/
theorem exists_running : ∃ s, Reachable 2 3 s ∧ s.caller = .locking 1 ∧
    (s.shared 0).pc = .running 1 1 ∧ (s.shared 0).processed = [⟨0, 1, 1⟩] := by
  have published := (@Reachable.initial 2 3).step (.caller (.publish rfl))
  have woken := published
    |>.step (.caller (.lockProcess (i := 0) rfl rfl)) |>.step (.caller (.writeMh rfl))
    |>.step (.caller (.writePkt rfl)) |>.step (.caller (.signalProcess rfl))
    |>.step (.caller (.unlockProcess rfl))
  have running := woken
    |>.step (.worker (i := 0) (by decide) (.own (.wake rfl rfl)))
    |>.step (.worker (i := 0) (by decide) (.own (.unlockProcess rfl)))
    |>.step (.worker (i := 0) (by decide) (.own (.load rfl)))
    |>.step (.worker (i := 0) (by decide) (.own (.turn 1 rfl (by decide))))
  exact ⟨_, running, rfl, rfl, rfl⟩

theorem running_handshake_safe : ∃ s, s.caller = .locking 1 ∧ (s.shared 0).pc = .running 1 1 ∧
    (s.shared 0).processed = [⟨0, 1, 1⟩] ∧ Safe 2 3 s ∧
      WellFounded fun after before => Within 2 before after := by
  obtain ⟨s, reachable, caller, pc, processed⟩ := exists_running
  exact ⟨s, caller, pc, processed, handshake_safe reachable⟩

end Guarantees

end Handshake

end TRex
