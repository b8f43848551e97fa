import Mathlib.Data.List.Permutation
import Mathlib.Tactic.Common

/-!
# Feeding events back

A component reacts to an event with new events, which may be fed back to it, depth first. `walk`
goes through a list of events: those that are fed back cause further events, which are gone through
before the next one of the list. Events deeper than a limit are not fed back, and `admits` decides
on the others by the number of events fed back before.

* `walk_induct` is the invariant rule, and `count_le` what a budget guarantees.
* `Mirrored.walk` carries a relation between two components from one reaction to a whole walk.
* `budget_iff` compares a budget with a limit on the depth alone: it refuses no useful event just if
  the walk that knows only the limit feeds back no useful event after the budget is spent.
* `Commutes.walk_same` says when the order of the events caused by one event does not matter.
-/

namespace Feedback

variable {σ α : Type}

structure System (σ α : Type) where
  react : σ → α → σ × List α

/-- What was decided on an event, and how deep in the chain of causes it is. -/
structure Decision (α : Type) where
  depth : Nat
  event : α
  fed : Bool
  deriving DecidableEq

/-- The component's state, the number of events fed back, and the decisions so far. -/
structure Walk (σ α : Type) where
  state : σ
  count : Nat
  trace : List (Decision α)

def Walk.skip (depth : Nat) (w : Walk σ α) (x : α) : Walk σ α :=
  { w with trace := w.trace ++ [⟨depth, x, false⟩] }

section Walk

variable (sys : System σ α)

def Walk.feed (depth : Nat) (w : Walk σ α) (x : α) : Walk σ α :=
  { state := (sys.react w.state x).1
    count := w.count + 1
    trace := w.trace ++ [⟨depth, x, true⟩] }

/-- Goes through the events that one event has caused; `limit` more levels may be fed back. -/
def walk (admits : Nat → Bool) : (limit depth : Nat) → Walk σ α → List α → Walk σ α
  | 0, depth, w, events => events.foldl (Walk.skip depth) w
  | limit + 1, depth, w, events => events.foldl (fun w x =>
      if admits w.count then
        walk admits limit (depth + 1) (w.feed sys depth x) (sys.react w.state x).2
      else w.skip depth x) w

end Walk

variable {sys : System σ α} {admits : Nat → Bool} {limit depth : Nat} {w : Walk σ α}

@[simp] theorem walk_nil : walk sys admits limit depth w [] = w := by
  cases limit <;> rfl

theorem walk_cons_of_refused {x : α} {events : List α}
    (refused : limit = 0 ∨ admits w.count = false) :
    walk sys admits limit depth w (x :: events) =
      walk sys admits limit depth (w.skip depth x) events := by
  cases limit with
  | zero => rfl
  | succ limit =>
      rcases refused with zero | refused
      · cases zero
      · simp [walk, refused]

theorem walk_cons_of_admitted {x : α} {events : List α} (admitted : admits w.count = true) :
    walk sys admits (limit + 1) depth w (x :: events) =
      walk sys admits (limit + 1) depth
        (walk sys admits limit (depth + 1) (w.feed sys depth x) (sys.react w.state x).2)
          events := by
  simp [walk, admitted]

theorem walk_append (events more : List α) :
    walk sys admits limit depth w (events ++ more) =
      walk sys admits limit depth (walk sys admits limit depth w events) more := by
  cases limit <;> simp [walk, List.foldl_append]

/-! ## Invariants -/

/-- A property of walks that both decisions keep is kept by a whole walk. Its induction goes over
the levels and, within a level, over the events. -/
theorem walk_induct {p : Walk σ α → Prop} (skip : ∀ depth w x, p w → p (w.skip depth x))
    (feed : ∀ depth w x, admits w.count = true → p w → p (w.feed sys depth x)) (start : p w)
    (events : List α) : p (walk sys admits limit depth w events) := by
  induction limit generalizing depth w events with
  | zero =>
      induction events generalizing w with
      | nil => exact start
      | cons x rest ih =>
          rw [walk_cons_of_refused (.inl rfl)]
          exact ih (skip depth w x start)
  | succ limit levels =>
      induction events generalizing w with
      | nil => rwa [walk_nil]
      | cons x rest ih =>
          cases admitted : admits w.count with
          | true =>
              rw [walk_cons_of_admitted admitted]
              exact ih (levels (feed depth w x admitted start) _)
          | false =>
              rw [walk_cons_of_refused (.inr admitted)]
              exact ih (skip depth w x start)

/-- The events fed back, in order. -/
def fedEvents (trace : List (Decision α)) : List α :=
  (trace.filter Decision.fed).map Decision.event

theorem fedEvents_append (trace more : List (Decision α)) :
    fedEvents (trace ++ more) = fedEvents trace ++ fedEvents more := by
  simp [fedEvents]

@[simp] theorem fedEvents_skip (x : α) :
    fedEvents (w.skip depth x).trace = fedEvents w.trace := by
  simp [Walk.skip, fedEvents]

@[simp] theorem fedEvents_feed (x : α) :
    fedEvents (w.feed sys depth x).trace = fedEvents w.trace ++ [x] := by
  simp [Walk.feed, fedEvents]

/-- The counter counts the events fed back. -/
theorem length_fedEvents (start : (fedEvents w.trace).length = w.count) (events : List α) :
    (fedEvents (walk sys admits limit depth w events).trace).length =
      (walk sys admits limit depth w events).count := by
  refine @walk_induct _ _ sys admits limit depth w (fun w => (fedEvents w.trace).length = w.count)
    ?_ ?_ start events
  · intro depth w x counted
    rw [fedEvents_skip, counted]
    rfl
  · intro depth w x _ counted
    rw [fedEvents_feed, List.length_append, counted]
    rfl

theorem count_le {budget : Nat} (limited : ∀ c, admits c = true → c < budget)
    (start : w.count ≤ budget) (events : List α) :
    (walk sys admits limit depth w events).count ≤ budget := by
  refine @walk_induct _ _ sys admits limit depth w (fun w => w.count ≤ budget) ?_ ?_ start events
  · exact fun _ _ _ within => within
  · exact fun _ w _ admitted _ => limited w.count admitted

theorem le_count (events : List α) : w.count ≤ (walk sys admits limit depth w events).count := by
  refine @walk_induct _ _ sys admits limit depth w (fun w' => w.count ≤ w'.count) ?_ ?_
    (Nat.le_refl _) events
  · exact fun _ _ _ above => above
  · exact fun _ _ _ _ above => Nat.le_trans above (Nat.le_succ _)

/-- Decisions are only added. -/
theorem trace_walk (events : List α) :
    ∃ more, (walk sys admits limit depth w events).trace = w.trace ++ more := by
  refine @walk_induct _ _ sys admits limit depth w (fun w' => ∃ more, w'.trace = w.trace ++ more)
    ?_ ?_ ⟨[], (List.append_nil _).symm⟩ events
  · rintro depth w' x ⟨more, extended⟩
    exact ⟨more ++ [⟨depth, x, false⟩], by rw [Walk.skip, extended, List.append_assoc]⟩
  · rintro depth w' x - ⟨more, extended⟩
    exact ⟨more ++ [⟨depth, x, true⟩], by rw [Walk.feed, extended, List.append_assoc]⟩

/-- Events that the component does not react to may be fed back or not. -/
theorem state_walk_inert {events : List α} (inert : ∀ x ∈ events, ∀ s, sys.react s x = (s, [])) :
    (walk sys admits limit depth w events).state = w.state := by
  induction events generalizing w with
  | nil => rw [walk_nil]
  | cons x rest ih =>
      obtain ⟨here, there⟩ := List.forall_mem_cons.mp inert
      by_cases refused : limit = 0 ∨ admits w.count = false
      · rw [walk_cons_of_refused refused]
        exact ih there
      · obtain ⟨pos, admitted⟩ := not_or.mp refused
        obtain ⟨limit, rfl⟩ := Nat.exists_eq_succ_of_ne_zero pos
        rw [walk_cons_of_admitted (by simpa using admitted), here, walk_nil, ih there,
          Walk.feed, here]

/-! ## A budget and a limit on the depth -/

section Budget

variable (useful : α → Prop)

/-- Every useful event within the limit was fed back. -/
def Kept (deepest : Nat) (trace : List (Decision α)) : Prop :=
  ∀ decision ∈ trace, decision.depth ≤ deepest → useful decision.event → decision.fed = true

/-- No useful event was fed back after the first `budget` ones. -/
def UselessAfter (budget : Nat) (trace : List (Decision α)) : Prop :=
  ∀ x ∈ (fedEvents trace).drop budget, ¬ useful x

variable {useful} {deepest budget : Nat}

theorem kept_skip {x : α} : Kept useful deepest (w.skip depth x).trace ↔
    Kept useful deepest w.trace ∧ (depth ≤ deepest → ¬ useful x) := by
  simp [Kept, Walk.skip, or_imp, forall_and]

theorem kept_feed {x : α} :
    Kept useful deepest (w.feed sys depth x).trace ↔ Kept useful deepest w.trace := by
  simp [Kept, Walk.feed, or_imp, forall_and]

theorem uselessAfter_feed {x : α} (spent : budget ≤ (fedEvents w.trace).length) :
    UselessAfter useful budget (w.feed sys depth x).trace ↔
      UselessAfter useful budget w.trace ∧ ¬ useful x := by
  unfold UselessAfter
  rw [fedEvents_feed, List.drop_append_of_le_length spent]
  simp [or_imp, forall_and]

/-- The walk `w` with the budget beside the walk `v` that knows only the limit. They are the same
until the budget is spent; from then on one refuses everything and the other goes on. -/
inductive Beside (useful : α → Prop) (deepest budget : Nat) : Walk σ α → Walk σ α → Prop
  | together {w : Walk σ α} (within : w.count ≤ budget)
      (counted : (fedEvents w.trace).length = w.count) (kept : Kept useful deepest w.trace) :
      Beside useful deepest budget w w
  | spent {w v : Walk σ α} (full : w.count = budget) (fed : budget ≤ (fedEvents v.trace).length)
      (same : Kept useful deepest w.trace ↔ UselessAfter useful budget v.trace) :
      Beside useful deepest budget w v

/-- Until the budget is spent nothing is refused and nothing is late. -/
theorem Beside.kept_iff {v : Walk σ α} (beside : Beside useful deepest budget w v) :
    Kept useful deepest w.trace ↔ UselessAfter useful budget v.trace := by
  cases beside with
  | together within counted kept =>
      refine ⟨fun _ => ?_, fun _ => kept⟩
      unfold UselessAfter
      rw [List.drop_of_length_le (counted ▸ within)]
      exact fun x mem => nomatch mem
  | spent full fed same => exact same

theorem Beside.le_fed {v : Walk σ α} (beside : Beside useful deepest budget w v)
    (full : w.count = budget) : budget ≤ (fedEvents v.trace).length := by
  cases beside with
  | together within counted kept => exact Nat.le_of_eq (counted.trans full).symm
  | spent _ fed same => exact fed

/-- One event after the budget is spent: refused here, fed back there with all it causes. -/
theorem Beside.refuse {v : Walk σ α} {x : α} (beside : Beside useful deepest budget w v)
    (full : w.count = budget) (shallow : depth ≤ deepest)
    (inert : ∀ s, ¬ useful x → (sys.react s x).2 = []) :
    Beside useful deepest budget (w.skip depth x)
      (walk sys (fun _ => true) limit (depth + 1) (v.feed sys depth x)
        (sys.react v.state x).2) := by
  have fed := beside.le_fed full
  by_cases isUseful : useful x
  · -- the event is lost on one side and comes late on the other
    obtain ⟨more, extended⟩ := @trace_walk _ _ sys (fun _ => true) limit (depth + 1)
      (v.feed sys depth x) (sys.react v.state x).2
    have order : fedEvents (walk sys (fun _ => true) limit (depth + 1) (v.feed sys depth x)
        (sys.react v.state x).2).trace = fedEvents v.trace ++ x :: fedEvents more := by
      rw [extended, fedEvents_append, fedEvents_feed, List.append_assoc]
      rfl
    refine .spent full ?_ ⟨fun kept => ?_, fun late => ?_⟩
    · rw [order, List.length_append]
      exact Nat.le_trans fed (Nat.le_add_right _ _)
    · exact absurd isUseful ((kept_skip.mp kept).2 shallow)
    · refine absurd isUseful (late x ?_)
      rw [order, List.drop_append_of_le_length fed]
      exact List.mem_append_right _ List.mem_cons_self
  · rw [inert v.state isUseful, walk_nil]
    refine .spent full ?_ ?_
    · rw [fedEvents_feed, List.length_append]
      exact Nat.le_trans fed (Nat.le_add_right _ _)
    · rw [kept_skip, uselessAfter_feed fed, beside.kept_iff]
      simp [isUseful]

theorem Beside.walk {v : Walk σ α} (events : List α) (levels : depth + limit = deepest + 1)
    (below : ∀ c, admits c = true ↔ c < budget)
    (inert : ∀ s x, ¬ useful x → (sys.react s x).2 = [])
    (beside : Beside useful deepest budget w v) :
    Beside useful deepest budget (walk sys admits limit depth w events)
      (walk sys (fun _ => true) limit depth v events) := by
  induction limit generalizing depth w v events with
  | zero =>
      induction events generalizing w v with
      | nil => exact beside
      | cons x rest ih =>
          rw [walk_cons_of_refused (.inl rfl), walk_cons_of_refused (.inl rfl)]
          apply ih
          have deep : ¬ depth ≤ deepest := by omega
          cases beside with
          | together within counted kept =>
              refine .together within ?_ (kept_skip.mpr ⟨kept, fun shallow => absurd shallow deep⟩)
              rw [fedEvents_skip]
              exact counted
          | spent full fed same =>
              refine .spent full ?_ ?_
              · rwa [fedEvents_skip]
              · rw [kept_skip, same, UselessAfter, UselessAfter, fedEvents_skip]
                simp [deep]
  | succ limit nested =>
      induction events generalizing w v with
      | nil => simpa using beside
      | cons x rest ih =>
          rw [@walk_cons_of_admitted _ _ sys (fun _ => true) limit depth v x rest rfl]
          by_cases full : w.count = budget
          · have refused : admits w.count = false := by
              rw [Bool.eq_false_iff, ne_eq, below]
              omega
            rw [walk_cons_of_refused (.inr refused)]
            exact ih (beside.refuse full (by omega) fun s => inert s x)
          · cases beside with
            | spent full' => exact absurd full' full
            | together within counted kept =>
                have admitted : admits w.count = true := (below _).mpr (by omega)
                rw [walk_cons_of_admitted admitted]
                apply ih
                refine nested _ (by omega) (.together ?_ ?_ (kept_feed.mpr kept))
                · exact (below _).mp admitted
                · rw [fedEvents_feed, List.length_append, counted]
                  rfl

/-- A budget refuses no useful event within the limit just if the walk that knows only the limit
feeds back no useful event after as many events as the budget allows. -/
theorem budget_iff (s : σ) (events : List α) (below : ∀ c, admits c = true ↔ c < budget)
    (inert : ∀ s x, ¬ useful x → (sys.react s x).2 = []) :
    Kept useful deepest (walk sys admits deepest 1 ⟨s, 0, []⟩ events).trace ↔
      UselessAfter useful budget
        (walk sys (fun _ => true) deepest 1 ⟨s, 0, []⟩ events).trace := by
  have start : Beside useful deepest budget (⟨s, 0, []⟩ : Walk σ α) ⟨s, 0, []⟩ :=
    .together (Nat.zero_le _) rfl fun _ mem => nomatch mem
  exact (start.walk events (Nat.add_comm 1 deepest) below inert).kept_iff

end Budget

/-! ## Two components side by side -/

section Mirrored

variable {τ : Type} {R : σ → τ → Prop} {sys' : System τ α}

/-- In related states the two components react to an allowed event with the same events, all of them
allowed. -/
def Mirrors (allowed : α → Prop) (R : σ → τ → Prop) (sys : System σ α) (sys' : System τ α) : Prop :=
  ∀ s s' x, allowed x → R s s' → R (sys.react s x).1 (sys'.react s' x).1 ∧
    (sys.react s x).2 = (sys'.react s' x).2 ∧ ∀ y ∈ (sys.react s x).2, allowed y

/-- Two walks in related states that have taken the same decisions since `done` and `done'`. -/
structure Mirrored (R : σ → τ → Prop) (done done' : List (Decision α)) (w : Walk σ α)
    (v : Walk τ α) : Prop where
  state : R w.state v.state
  count : w.count = v.count
  trace : ∃ more, w.trace = done ++ more ∧ v.trace = done' ++ more

variable {allowed : α → Prop} {done done' : List (Decision α)} {v : Walk τ α}

theorem Mirrored.start (state : R w.state v.state) (count : w.count = v.count) :
    Mirrored R w.trace v.trace w v :=
  ⟨state, count, [], (List.append_nil _).symm, (List.append_nil _).symm⟩

theorem Mirrored.decided (mirrored : Mirrored R done done' w v) {w' : Walk σ α} {v' : Walk τ α}
    {decision : Decision α} (state : R w'.state v'.state) (count : w'.count = v'.count)
    (added : w'.trace = w.trace ++ [decision]) (added' : v'.trace = v.trace ++ [decision]) :
    Mirrored R done done' w' v' := by
  obtain ⟨more, extended, extended'⟩ := mirrored.trace
  refine ⟨state, count, more ++ [decision], ?_, ?_⟩
  · rw [added, extended, List.append_assoc]
  · rw [added', extended', List.append_assoc]

theorem Mirrored.skip (mirrored : Mirrored R done done' w v) (x : α) :
    Mirrored R done done' (w.skip depth x) (v.skip depth x) :=
  mirrored.decided mirrored.state mirrored.count rfl rfl

theorem Mirrored.feed (mirrors : Mirrors allowed R sys sys')
    (mirrored : Mirrored R done done' w v) {x : α} (here : allowed x) :
    Mirrored R done done' (w.feed sys depth x) (v.feed sys' depth x) :=
  mirrored.decided (mirrors _ _ x here mirrored.state).1 (congrArg (· + 1) mirrored.count) rfl rfl

/-- The same events from related states are gone through alike, by all levels. -/
theorem Mirrored.walk (mirrors : Mirrors allowed R sys sys')
    (mirrored : Mirrored R done done' w v) {events : List α} (all : ∀ x ∈ events, allowed x) :
    Mirrored R done done' (walk sys admits limit depth w events)
      (walk sys' admits limit depth v events) := by
  induction limit generalizing depth w v events with
  | zero =>
      induction events generalizing w v with
      | nil => exact mirrored
      | cons x rest ih =>
          rw [walk_cons_of_refused (.inl rfl), walk_cons_of_refused (.inl rfl)]
          exact ih (mirrored.skip x) fun y mem => all y (List.mem_cons_of_mem x mem)
  | succ limit nested =>
      induction events generalizing w v with
      | nil => simpa using mirrored
      | cons x rest ih =>
          obtain ⟨here, there⟩ := List.forall_mem_cons.mp all
          cases admitted : admits w.count with
          | false =>
              have refused : admits v.count = false := mirrored.count ▸ admitted
              rw [walk_cons_of_refused (.inr admitted), walk_cons_of_refused (.inr refused)]
              exact ih (mirrored.skip x) there
          | true =>
              obtain ⟨-, same, caused⟩ := mirrors _ _ x here mirrored.state
              rw [walk_cons_of_admitted admitted, walk_cons_of_admitted (mirrored.count ▸ admitted),
                ← same]
              exact ih (nested (mirrored.feed mirrors here) caused) there

theorem Mirrors.walk (mirrors : Mirrors allowed R sys sys') (state : R w.state v.state)
    (count : w.count = v.count) {events : List α} (all : ∀ x ∈ events, allowed x) :
    Mirrored R w.trace v.trace (Feedback.walk sys admits limit depth w events)
      (Feedback.walk sys' admits limit depth v events) :=
  (Mirrored.start state count).walk mirrors all

/-- An invariant that allowed events keep, where they cause allowed events only. -/
theorem walk_keeps {p : σ → Prop} (keeps : ∀ s x, allowed x → p s →
      p (sys.react s x).1 ∧ ∀ y ∈ (sys.react s x).2, allowed y) (start : p w.state)
    {events : List α} (all : ∀ x ∈ events, allowed x) :
    p (walk sys admits limit depth w events).state := by
  have alike : Mirrors allowed (fun s s' => s = s' ∧ p s) sys sys := by
    intro s s' x here ⟨same, kept⟩
    subst same
    obtain ⟨after, caused⟩ := keeps s x here kept
    exact ⟨⟨rfl, after⟩, rfl, caused⟩
  have mirrored : Mirrored (fun s s' => s = s' ∧ p s) w.trace w.trace
      (walk sys admits limit depth w events) (walk sys admits limit depth w events) :=
    alike.walk ⟨rfl, start⟩ rfl all
  exact mirrored.state.2

end Mirrored

/-! ## The order of the events -/

section Order

/-- Two walks in related states that have fed back equally many events. -/
structure Same (R : σ → σ → Prop) (w v : Walk σ α) : Prop where
  state : R w.state v.state
  count : w.count = v.count

/-- An invariant of the component, whatever events it reacts to. -/
def Keeps (p : σ → Prop) (sys : System σ α) : Prop :=
  ∀ s x, p s → p (sys.react s x).1

/-- States related to one that has the invariant react like it. -/
def Respects (p : σ → Prop) (R : σ → σ → Prop) (sys : System σ α) : Prop :=
  ∀ s s' x, p s → R s s' → R (sys.react s x).1 (sys.react s' x).1 ∧
    (sys.react s x).2 = (sys.react s' x).2

/-- In related states, the first of which has the invariant, the two systems react alike, up to the
order of the events caused. -/
def Rearranges (p : σ → Prop) (R : σ → σ → Prop) (sys sys' : System σ α) : Prop :=
  ∀ s s' x, p s → R s s' → R (sys.react s x).1 (sys'.react s' x).1 ∧
    (sys.react s x).2.Perm (sys'.react s' x).2

/-- Wherever two events caused by the same event come one after the other, whatever comes before
them, they have the same effect in either order, each with all it causes; and the same holds for the
events that these cause. -/
def Commutes (R : σ → σ → Prop) (sys : System σ α) (admits : Nat → Bool) :
    (limit depth : Nat) → Walk σ α → List α → Prop
  | 0, _, _, _ => True
  | limit + 1, depth, w, events =>
    (∀ before x y after, (before ++ x :: y :: after).Perm events →
      Same R
        (walk sys admits (limit + 1) depth (walk sys admits (limit + 1) depth w before) [x, y])
        (walk sys admits (limit + 1) depth (walk sys admits (limit + 1) depth w before) [y, x])) ∧
    ∀ before x after, (before ++ x :: after).Perm events →
      admits (walk sys admits (limit + 1) depth w before).count = true →
      Commutes R sys admits limit (depth + 1)
        ((walk sys admits (limit + 1) depth w before).feed sys depth x)
        (sys.react (walk sys admits (limit + 1) depth w before).state x).2

variable {p : σ → Prop} {R : σ → σ → Prop} {v : Walk σ α}

theorem Keeps.walk (keeps : Keeps p sys) (start : p w.state) (events : List α) :
    p (walk sys admits limit depth w events).state := by
  have steps : ∀ s x, True → p s → p (sys.react s x).1 ∧ ∀ y ∈ (sys.react s x).2, True :=
    fun s x _ kept => ⟨keeps s x kept, fun _ _ => trivial⟩
  exact @walk_keeps _ _ sys admits limit depth w (fun _ => True) p steps start events
    fun _ _ => trivial

theorem Same.skip (same : Same R w v) (x : α) : Same R (w.skip depth x) (v.skip depth x) :=
  ⟨same.state, same.count⟩

/-- The same events from related states. -/
theorem Same.walk (keeps : Keeps p sys) (respects : Respects p R sys) (start : p w.state)
    (same : Same R w v) (events : List α) :
    Same R (walk sys admits limit depth w events) (walk sys admits limit depth v events) := by
  have mirrors : Mirrors (fun _ => True) (fun s s' => p s ∧ R s s') sys sys := by
    intro s s' x _ ⟨kept, related⟩
    obtain ⟨after, events⟩ := respects s s' x kept related
    exact ⟨⟨keeps s x kept, after⟩, events, fun _ _ => trivial⟩
  have mirrored : Mirrored (fun s s' => p s ∧ R s s') w.trace v.trace
      (Feedback.walk sys admits limit depth w events)
      (Feedback.walk sys admits limit depth v events) :=
    mirrors.walk ⟨start, same.state⟩ same.count fun _ _ => trivial
  exact ⟨mirrored.state.2, mirrored.count⟩

/-- What commuting says of two neighbours, also where nothing is fed back any more. -/
theorem Commutes.pair (equiv : Equivalence R) {events before after : List α} {x y : α}
    (commutes : Commutes R sys admits limit depth w events)
    (occur : (before ++ x :: y :: after).Perm events) :
    Same R (walk sys admits limit depth (walk sys admits limit depth w before) [x, y])
      (walk sys admits limit depth (walk sys admits limit depth w before) [y, x]) := by
  cases limit with
  | zero => exact ⟨equiv.refl _, rfl⟩
  | succ limit => exact commutes.1 before x y after occur

/-- The events of one level in another order. -/
theorem Commutes.walk_perm (equiv : Equivalence R) (keeps : Keeps p sys)
    (respects : Respects p R sys) (start : p w.state) {events before l l' : List α}
    (commutes : Commutes R sys admits limit depth w events) (perm : l.Perm l')
    (occur : (before ++ l).Perm events) :
    Same R (walk sys admits limit depth (walk sys admits limit depth w before) l)
      (walk sys admits limit depth (walk sys admits limit depth w before) l') := by
  induction perm generalizing before with
  | nil => exact ⟨equiv.refl _, rfl⟩
  | cons x _ ih =>
      have step : ∀ l, walk sys admits limit depth (walk sys admits limit depth w before) (x :: l) =
          walk sys admits limit depth (walk sys admits limit depth w (before ++ [x])) l := by
        intro l
        rw [← walk_append, ← walk_append, List.append_assoc, List.singleton_append]
      rw [step, step]
      apply ih
      rwa [List.append_assoc, List.singleton_append]
  | swap x y l =>
      have front : ∀ (v : Walk σ α) (x y : α), walk sys admits limit depth v (x :: y :: l) =
          walk sys admits limit depth (walk sys admits limit depth v [x, y]) l := by
        intro v x y
        rw [← walk_append]
        rfl
      rw [front, front]
      exact (commutes.pair equiv occur).walk keeps respects
        (keeps.walk (keeps.walk start before) [y, x]) l
  | trans first _ ih ih' =>
      have left := ih occur
      have right := ih' (((first.symm.append_left before)).trans occur)
      exact ⟨equiv.trans left.state right.state, left.count.trans right.count⟩

/-- If the events caused by one event commute, walks through the same events in different orders,
here and at every level below, end in related states. -/
theorem Commutes.walk_same (equiv : Equivalence R) {sys' : System σ α} (keeps : Keeps p sys)
    (respects : Respects p R sys) (rearranges : Rearranges p R sys sys') {events events' : List α}
    (commutes : Commutes R sys admits limit depth w events) (perm : events.Perm events')
    (start : p w.state) (same : Same R w v) :
    Same R (walk sys admits limit depth w events) (walk sys' admits limit depth v events') := by
  induction limit generalizing depth w v events events' with
  | zero =>
      have unchanged : ∀ (sys : System σ α) (w : Walk σ α) (events : List α),
          (walk sys admits 0 depth w events).state = w.state ∧
            (walk sys admits 0 depth w events).count = w.count := by
        intro sys w events
        induction events generalizing w with
        | nil => exact ⟨rfl, rfl⟩
        | cons x rest ih => exact ih (w.skip depth x)
      obtain ⟨state, count⟩ := unchanged sys w events
      obtain ⟨state', count'⟩ := unchanged sys' v events'
      exact ⟨state ▸ state' ▸ same.state, count.trans (same.count.trans count'.symm)⟩
  | succ limit nested =>
      -- the levels below, event by event
      have below : ∀ (rest before : List α) (v : Walk σ α), (before ++ rest).Perm events →
          Same R (walk sys admits (limit + 1) depth w before) v →
          Same R (walk sys admits (limit + 1) depth w (before ++ rest))
            (walk sys' admits (limit + 1) depth v rest) := by
        intro rest
        induction rest with
        | nil =>
            intro before v _ same
            simpa using same
        | cons x rest ih =>
            intro before v occur same
            have here : before ++ x :: rest = (before ++ [x]) ++ rest := by simp
            cases admitted : admits (walk sys admits (limit + 1) depth w before).count with
            | false =>
                rw [walk_cons_of_refused (.inr (same.count ▸ admitted)), here]
                refine ih _ _ (here ▸ occur) ?_
                rw [walk_append, walk_cons_of_refused (.inr admitted), walk_nil]
                exact same.skip x
            | true =>
                have kept : p (walk sys admits (limit + 1) depth w before).state :=
                  keeps.walk start before
                obtain ⟨related, rearranged⟩ := rearranges _ _ x kept same.state
                rw [walk_cons_of_admitted (same.count ▸ admitted), here]
                refine ih _ _ (here ▸ occur) ?_
                rw [walk_append, walk_cons_of_admitted admitted, walk_nil]
                exact nested (commutes.2 before x rest occur admitted) rearranged
                  (keeps _ x kept) ⟨related, congrArg (· + 1) same.count⟩
      have first : Same R (walk sys admits (limit + 1) depth w []) v := by simpa using same
      have reordered := @Commutes.walk_perm _ _ sys admits (limit + 1) depth w p R equiv keeps
        respects start events [] events events' commutes perm (List.Perm.refl _)
      have levels := below events' [] v perm.symm first
      simp only [walk_nil, List.nil_append] at reordered levels
      exact ⟨equiv.trans reordered.state levels.state, reordered.count.trans levels.count⟩

/-! Two events that cause no further ones. -/

theorem commutes_nil (w : Walk σ α) : Commutes R sys admits limit depth w [] := by
  cases limit with
  | zero => trivial
  | succ limit =>
      refine ⟨?_, ?_⟩
      · intro before x y after occur
        simp at occur
      · intro before x after occur
        simp at occur

theorem commutes_pair (equiv : Equivalence R) {x y : α}
    (pair : Same R (walk sys admits (limit + 1) depth w [x, y])
      (walk sys admits (limit + 1) depth w [y, x]))
    (silent : ∀ before ∈ [[], [x], [y]], ∀ z ∈ [x, y],
      (sys.react (walk sys admits (limit + 1) depth w before).state z).2 = []) :
    Commutes R sys admits (limit + 1) depth w [x, y] := by
  refine ⟨?_, ?_⟩
  · intro before a b after occur
    have length := occur.length_eq
    simp only [List.length_append, List.length_cons, List.length_nil] at length
    obtain rfl : before = [] := List.length_eq_zero_iff.mp (by omega)
    obtain rfl : after = [] := List.length_eq_zero_iff.mp (by omega)
    rw [walk_nil]
    rcases List.perm_pair.mp occur with same | swapped
    · cases same
      exact pair
    · cases swapped
      exact ⟨equiv.symm pair.state, pair.count.symm⟩
  · intro before z after occur _
    have isEvent : z ∈ [x, y] := occur.subset (by simp)
    have isBefore : before ∈ [[], [x], [y]] := by
      rcases before with _ | ⟨b, _ | ⟨c, rest⟩⟩
      · simp
      · have mem : b ∈ [x, y] := occur.subset (by simp)
        simpa using mem
      · have length := occur.length_eq
        simp only [List.length_append, List.length_cons, List.length_nil] at length
        omega
    rw [silent before isBefore z isEvent]
    exact commutes_nil _

end Order

end Feedback
