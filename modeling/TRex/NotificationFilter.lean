import TRex.ActiveSubscriptions

/-!
# Notifications of the client

`SubscriptionsTable.match` decides whether a publication that the server has sent is handed to the
listeners. It asks the subscriptions with a custom matcher only, and gives up at the first of them
that was meant and rejects. Whether the constraints of a subscription are satisfied, `satisfied`, is
left open here, and the answer of `SubPkt.match` is the one that its comment promises. -/

namespace TRex.Java

section Filter

variable (satisfied : SubPkt → PubPkt → Bool)

/-- The promised answer of `SubPkt.match`: 0 if the publication is not for the subscription, else
whether the matcher accepts it. -/
def CustomSubPkt.answer (sub : CustomSubPkt) (pkt : PubPkt) : Int :=
  if satisfied sub.pkt pkt then
    match sub.matcher with
    | none => 1
    | some matcher => if matcher pkt then 1 else -1
  else 0

/-- `SubscriptionsTable.match`. -/
def SubscriptionsTable.«match» (table : SubscriptionsTable) (pkt : PubPkt) : Bool :=
  if table.subscriptionsWithCustomMatcher.length = 0 then true
  else !(table.subscriptionsWithCustomMatcher.any fun sub => sub.answer satisfied pkt == -1)

/-! ## What is asked for -/

/-- The publication satisfies the constraints, and a matcher, if there is one, accepts it. -/
def CustomSubPkt.Wants (sub : CustomSubPkt) (pkt : PubPkt) : Prop :=
  satisfied sub.pkt pkt = true ∧ ∀ matcher ∈ sub.matcher, matcher pkt = true

/-- The publication satisfies the constraints, and the matcher rejects it. -/
def CustomSubPkt.Rejects (sub : CustomSubPkt) (pkt : PubPkt) : Prop :=
  satisfied sub.pkt pkt = true ∧ ∃ matcher ∈ sub.matcher, matcher pkt = false

namespace SubscriptionsTable

variable (table : SubscriptionsTable) (pkt : PubPkt)

/-- The client notifies exactly of the publications that some subscription wants. -/
def NotifiesExactly : Prop :=
  (∃ sub ∈ table.subscriptions, satisfied sub.pkt pkt = true) →
    (table.match satisfied pkt = true ↔ ∃ sub ∈ table.subscriptions, sub.Wants satisfied pkt)

/-- No subscription wants what one with a matcher rejects; and what all that it is for reject, one
of the second list rejects. -/
structure Unanimous : Prop where
  accepted : ∀ sub ∈ table.subscriptions, sub.Wants satisfied pkt →
    ∀ other ∈ table.subscriptionsWithCustomMatcher, ¬ other.Rejects satisfied pkt
  rejected : (∃ sub ∈ table.subscriptions, sub.Rejects satisfied pkt) →
    (∀ sub ∈ table.subscriptions, ¬ sub.Wants satisfied pkt) →
      ∃ other ∈ table.subscriptionsWithCustomMatcher, other.Rejects satisfied pkt

end SubscriptionsTable

variable {satisfied}

theorem CustomSubPkt.answer_eq_iff (sub : CustomSubPkt) (pkt : PubPkt) :
    sub.answer satisfied pkt = -1 ↔ sub.Rejects satisfied pkt := by
  rw [CustomSubPkt.answer, CustomSubPkt.Rejects]
  split
  case isFalse other => exact iff_of_false (by decide) fun both => other both.1
  case isTrue met =>
    rw [and_iff_right met]
    cases sub.matcher with
    | none => simp
    | some matcher => cases accepts : matcher pkt <;> simp [accepts]

/-- A subscription that a publication is for wants it or rejects it. -/
theorem CustomSubPkt.wants_or_rejects {sub : CustomSubPkt} {pkt : PubPkt}
    (met : satisfied sub.pkt pkt = true) :
    sub.Wants satisfied pkt ∨ sub.Rejects satisfied pkt := by
  cases isMatcher : sub.matcher with
  | none => exact .inl ⟨met, by simp [isMatcher]⟩
  | some matcher =>
      cases accepts : matcher pkt with
      | true => exact .inl ⟨met, by simp [isMatcher, accepts]⟩
      | false => exact .inr ⟨met, matcher, isMatcher, accepts⟩

namespace SubscriptionsTable

variable {table : SubscriptionsTable} {pkt : PubPkt}

theorem match_iff : table.match satisfied pkt = true ↔
    ∀ other ∈ table.subscriptionsWithCustomMatcher, ¬ other.Rejects satisfied pkt := by
  rw [SubscriptionsTable.match]
  split
  case isTrue empty =>
    rw [List.length_eq_zero_iff.mp empty]
    exact iff_of_true rfl (List.forall_mem_nil _)
  case isFalse some =>
    simp only [Bool.not_eq_true', List.any_eq_false, beq_iff_eq, CustomSubPkt.answer_eq_iff]

/-- The client notifies exactly of what is wanted just where the subscriptions that the publication
is for are unanimous. -/
theorem notifiesExactly_iff (table : SubscriptionsTable) (pkt : PubPkt) :
    table.NotifiesExactly satisfied pkt ↔ table.Unanimous satisfied pkt := by
  rw [NotifiesExactly, match_iff]
  constructor
  · intro exact
    constructor
    · intro sub mem wants
      exact (exact ⟨sub, mem, wants.1⟩).mpr ⟨sub, mem, wants⟩
    · rintro ⟨sub, mem, rejects⟩ none
      by_contra accepted
      have calm : ∀ other ∈ table.subscriptionsWithCustomMatcher, ¬ other.Rejects satisfied pkt :=
        fun other mem rejects => accepted ⟨other, mem, rejects⟩
      obtain ⟨sub', mem', wants⟩ := (exact ⟨sub, mem, rejects.1⟩).mp calm
      exact none sub' mem' wants
  · rintro unanimous ⟨sub, mem, met⟩
    constructor
    · intro calm
      by_contra none
      have unwanted : ∀ sub ∈ table.subscriptions, ¬ sub.Wants satisfied pkt :=
        fun sub mem wants => none ⟨sub, mem, wants⟩
      have rejects := (CustomSubPkt.wants_or_rejects met).resolve_left (unwanted sub mem)
      obtain ⟨other, mem', rejects'⟩ := unanimous.rejected ⟨sub, mem, rejects⟩ unwanted
      exact calm other mem' rejects'
    · rintro ⟨sub', mem', wants⟩
      exact unanimous.accepted sub' mem' wants

/-! ## Tables that are kept in step -/

/-- The second list holds the subscriptions that have a matcher. -/
def InStep (table : SubscriptionsTable) : Prop :=
  table.subscriptionsWithCustomMatcher =
    table.subscriptions.filter CustomSubPkt.hasCustomMatcher

theorem inStep_new : InStep SubscriptionsTable.new := rfl

theorem InStep.addSubscription (inStep : table.InStep) (sub : CustomSubPkt) :
    (table.addSubscription sub).InStep := by
  rw [InStep, SubscriptionsTable.addSubscription, List.filter_append, ← inStep]
  cases matcher : sub.hasCustomMatcher <;> simp [matcher]

/-- Removing keeps the lists in step if the first subscription that is taken for the one to be
removed has a matcher as this one has. -/
theorem InStep.removeSubscription (inStep : table.InStep) {sub : CustomSubPkt}
    (alike : ∀ first ∈ table.subscriptions.find? fun element => sub.pkt.equals element.pkt,
      first.hasCustomMatcher = sub.hasCustomMatcher) :
    (table.removeSubscription sub).InStep := by
  rw [InStep] at inStep ⊢
  rw [SubscriptionsTable.removeSubscription]
  simp only [inStep, remove]
  have erase : ∀ subs : List CustomSubPkt,
      (∀ first ∈ subs.find? fun element => sub.pkt.equals element.pkt,
        first.hasCustomMatcher = sub.hasCustomMatcher) →
      (if sub.hasCustomMatcher = true then
        (subs.filter CustomSubPkt.hasCustomMatcher).eraseP fun element =>
          sub.pkt.equals element.pkt
      else subs.filter CustomSubPkt.hasCustomMatcher) =
        (subs.eraseP fun element => sub.pkt.equals element.pkt).filter
          CustomSubPkt.hasCustomMatcher := by
    intro subs
    induction subs with
    | nil => simp
    | cons first rest ih =>
        intro alike
        cases taken : sub.pkt.equals first.pkt with
        | true =>
            have same := alike first (by simp [taken])
            cases matcher : sub.hasCustomMatcher <;> simp [same, matcher, taken]
        | false =>
            have later := ih fun other found => alike other (by simpa [taken] using found)
            cases matcher : first.hasCustomMatcher <;>
              cases wanted : sub.hasCustomMatcher <;>
                simp [matcher, wanted, taken] at later ⊢ <;> exact later
  exact erase table.subscriptions alike

/-- With both lists in step the client is wrong just about publications that one subscription wants
and another one rejects. -/
theorem InStep.unanimous_iff (inStep : table.InStep) : table.Unanimous satisfied pkt ↔
    ¬ ((∃ sub ∈ table.subscriptions, sub.Wants satisfied pkt) ∧
      ∃ sub ∈ table.subscriptions, sub.Rejects satisfied pkt) := by
  have rejecting : ∀ sub : CustomSubPkt, sub.Rejects satisfied pkt →
      (sub ∈ table.subscriptionsWithCustomMatcher ↔ sub ∈ table.subscriptions) := by
    rintro sub ⟨-, matcher, isMatcher, -⟩
    rw [inStep, List.mem_filter, CustomSubPkt.hasCustomMatcher, isMatcher]
    exact and_iff_left rfl
  constructor
  · rintro unanimous ⟨⟨sub, mem, wants⟩, other, mem', rejects⟩
    exact unanimous.accepted sub mem wants other ((rejecting other rejects).mpr mem') rejects
  · intro apart
    constructor
    · intro sub mem wants other mem' rejects
      exact apart ⟨⟨sub, mem, wants⟩, other, (rejecting other rejects).mp mem', rejects⟩
    · rintro ⟨sub, mem, rejects⟩ -
      exact ⟨sub, (rejecting sub rejects).mpr mem, rejects⟩

end SubscriptionsTable

/-! ## Runs of a connection -/

/-- An unsubscription has a matcher exactly if the subscription has one that the client takes for
it. -/
def RemovesAlike (conn : Connection) : Request → Prop
  | .subscribe _ => True
  | .unsubscribe sub =>
    ∀ first ∈ conn.table.subscriptions.find? fun element => sub.pkt.equals element.pkt,
      first.hasCustomMatcher = sub.hasCustomMatcher

theorem step_inStep {conn next : Connection} (inStep : conn.table.InStep) {request : Request}
    (alike : RemovesAlike conn request) (stepped : conn.step request = some next) :
    next.table.InStep := by
  cases request with
  | subscribe sub =>
      cases stepped
      exact inStep.addSubscription sub
  | unsubscribe sub =>
      obtain ⟨handler, -, rfl⟩ := Option.map_eq_some_iff.mp stepped
      exact inStep.removeSubscription alike

theorem run_inStep {requests : List Request}
    (alike : ∀ n request conn, requests[n]? = some request →
      Connection.run (requests.take n) = some conn → RemovesAlike conn request)
    {n : Nat} (le : n ≤ requests.length) {conn : Connection}
    (ran : Connection.run (requests.take n) = some conn) : conn.table.InStep := by
  induction n generalizing conn with
  | zero =>
      cases ran
      exact SubscriptionsTable.inStep_new
  | succ n ih =>
      have there : requests[n]? = some requests[n] := List.getElem?_eq_getElem le
      rw [(run_take_succ there).1] at ran
      obtain ⟨before, ran', stepped⟩ := Option.bind_eq_some_iff.mp ran
      exact step_inStep (ih (Nat.le_of_lt le) ran') (alike n _ before there ran') stepped

/-- In such a run the client is wrong just about publications that one subscription wants and
another one rejects. -/
theorem run_unanimous_iff {requests : List Request}
    (alike : ∀ n request conn, requests[n]? = some request →
      Connection.run (requests.take n) = some conn → RemovesAlike conn request)
    {n : Nat} (le : n ≤ requests.length) {conn : Connection}
    (ran : Connection.run (requests.take n) = some conn) (pkt : PubPkt) :
    conn.table.Unanimous satisfied pkt ↔
      ¬ ((∃ sub ∈ conn.table.subscriptions, sub.Wants satisfied pkt) ∧
        ∃ sub ∈ conn.table.subscriptions, sub.Rejects satisfied pkt) :=
  (run_inStep alike le ran).unanimous_iff

/-! ## A matcher for two -/

/-- All events of the type, and those that a matcher rejects in any case. -/
def plainAndRejecting : SubscriptionsTable :=
  (SubscriptionsTable.new.addSubscription ⟨⟨1, []⟩, none⟩).addSubscription
    ⟨⟨1, []⟩, some fun _ => false⟩

theorem plainAndRejecting_not_notifiesExactly :
    ¬ plainAndRejecting.NotifiesExactly (fun sub pkt => sub.eventType == pkt.eventType)
      ⟨1, 0, []⟩ := by
  intro exact
  have met := exact ⟨⟨⟨1, []⟩, none⟩, List.mem_cons_self, rfl⟩
  have matched := met.mpr ⟨⟨⟨1, []⟩, none⟩, List.mem_cons_self, rfl, nofun⟩
  cases matched

end Filter

end TRex.Java
