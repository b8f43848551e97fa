import Mathlib.Data.List.Basic

/-!
# Watchdog timers

A timer waits until a deadline and is put back whenever a sign of life has been handled. Putting it
back takes two handlers: that of the sign cancels the wait, and that of the cancelled wait starts
the next one. A wait whose deadline is reached leaves a handler as well, which may be late for a
sign of the same instant. Handlers run in any order, but the clock stands still while one is ready.

`silent` and `heard`: the timer runs out after a whole period without a sign, and never later.
-/

namespace Watchdog

/-- `signalled`, `cancelled` and `expired` count the handlers that are ready, `signs` are the times
of the signs of life. -/
structure State where
  now : Nat
  wait : Option Nat
  signalled : Nat
  cancelled : Nat
  expired : Nat
  signs : List Nat

namespace State

variable (s : State)

/-- Cancelling a wait makes its handler ready. -/
def cancel : State :=
  { s with wait := none, cancelled := s.cancelled + s.wait.isSome.toNat }

def restart (period : Nat) : State := { s.cancel with wait := some (s.now + period) }

/-- The operations of the timer that have not come to their end. -/
def outstanding : Nat := s.wait.isSome.toNat + s.cancelled + s.expired

end State

def start (period now : Nat) : State := ⟨now, some (now + period), 0, 0, 0, [now]⟩

inductive Step (period : Nat) : State → State → Prop
  | sign {s : State} :
      Step period s { s with signalled := s.signalled + 1, signs := s.now :: s.signs }
  | handleSign {s : State} (signalled : 0 < s.signalled) :
      Step period s ({ s with signalled := s.signalled - 1 }).cancel
  | expire {s : State} {deadline : Nat} (wait : s.wait = some deadline) (due : deadline ≤ s.now) :
      Step period s { s with wait := none, expired := s.expired + 1 }
  | handleCancelled {s : State} (cancelled : 0 < s.cancelled) :
      Step period s ({ s with cancelled := s.cancelled - 1 }.restart period)
  /-- What is done about the silence is a sign of life itself. -/
  | handleExpired {s : State} (expired : 0 < s.expired) :
      Step period s
        ({ s with expired := s.expired - 1, signs := s.now :: s.signs }.restart period)
  | tick {s : State} (idle : s.signalled = 0 ∧ s.cancelled = 0 ∧ s.expired = 0)
      (early : ∀ deadline, s.wait = some deadline → s.now < deadline) :
      Step period s { s with now := s.now + 1 }

structure Inv (period : Nat) (s : State) : Prop where
  outstanding : s.outstanding = 1
  past : ∀ a ∈ s.signs, a ≤ s.now
  signalled : 0 < s.signalled → s.now ∈ s.signs
  cancelled : 0 < s.cancelled → s.now ∈ s.signs
  wait : ∀ deadline, s.wait = some deadline → s.now ≤ deadline ∧
    (∃ a ∈ s.signs, deadline = a + period) ∧
    ∀ a ∈ s.signs, a + period ≤ deadline ∨ a = s.now ∧ 0 < s.signalled
  expired : 0 < s.expired → (∃ a ∈ s.signs, s.now = a + period) ∧
    ∀ a ∈ s.signs, a + period ≤ s.now ∨ a = s.now

variable {period : Nat} {s s' : State}

theorem inv_start (period now : Nat) : Inv period (start period now) := by
  refine ⟨rfl, fun a mem => Nat.le_of_eq (List.mem_singleton.mp mem), ?_, ?_, ?_, ?_⟩
  · exact fun signalled => absurd signalled (Nat.lt_irrefl 0)
  · exact fun cancelled => absurd cancelled (Nat.lt_irrefl 0)
  · intro deadline wait
    cases wait
    refine ⟨Nat.le_add_right now period, ⟨now, List.mem_singleton_self now, rfl⟩, fun a mem => ?_⟩
    rw [List.mem_singleton.mp mem]
    exact .inl (Nat.le_refl _)
  · exact fun expired => absurd expired (Nat.lt_irrefl 0)

theorem outstanding_cancel : s.cancel.outstanding = s.outstanding := by
  simp only [State.outstanding, State.cancel, Option.isSome_none, Bool.toNat_false]
  omega

/-- A wait started at a sign of life. -/
theorem inv_restart (alone : s.outstanding = 0) (past : ∀ a ∈ s.signs, a ≤ s.now)
    (signalled : 0 < s.signalled → s.now ∈ s.signs) (sign : s.now ∈ s.signs) :
    Inv period (s.restart period) := by
  have none' : s.wait.isSome = false := by
    cases wait : s.wait with
    | none => rfl
    | some deadline => simp [State.outstanding, wait] at alone
  have counts : s.cancelled = 0 ∧ s.expired = 0 := by
    simpa [State.outstanding, none'] using alone
  refine ⟨?_, past, signalled, ?_, ?_, ?_⟩
  · simp [State.outstanding, State.restart, State.cancel, none', counts]
  · intro cancelled
    simp [State.restart, State.cancel, none', counts] at cancelled
  · intro deadline wait
    cases wait
    refine ⟨Nat.le_add_right s.now period, ⟨s.now, sign, rfl⟩, fun a mem => .inl ?_⟩
    exact Nat.add_le_add_right (past a mem) period
  · intro expired
    exact absurd expired (by simp [State.restart, State.cancel, counts])

theorem Inv.step (inv : Inv period s) (step : Step period s s') : Inv period s' := by
  have one := inv.outstanding
  cases step with
  | sign =>
    have added : ∀ a, a ∈ s.now :: s.signs → a ∈ s.signs ∨ a = s.now := fun a mem =>
      (List.mem_cons.mp mem).symm
    refine ⟨inv.outstanding, fun a mem => ?_, fun _ => List.mem_cons_self,
      fun _ => List.mem_cons_self, fun deadline wait => ?_, fun expired => ?_⟩
    · rcases added a mem with old | rfl
      · exact inv.past a old
      · exact Nat.le_refl _
    · obtain ⟨le, ⟨a, mem, is⟩, all⟩ := inv.wait deadline wait
      refine ⟨le, ⟨a, List.mem_cons_of_mem _ mem, is⟩, fun a mem => ?_⟩
      rcases added a mem with old | rfl
      · exact (all a old).imp_right fun both => ⟨both.1, Nat.succ_pos _⟩
      · exact .inr ⟨rfl, Nat.succ_pos _⟩
    · obtain ⟨⟨a, mem, is⟩, all⟩ := inv.expired expired
      refine ⟨⟨a, List.mem_cons_of_mem _ mem, is⟩, fun a mem => ?_⟩
      rcases added a mem with old | rfl
      · exact all a old
      · exact .inr rfl
  | handleSign signalled =>
    have now := inv.signalled signalled
    refine ⟨?_, inv.past, fun _ => now, fun _ => now, fun deadline wait => ?_, inv.expired⟩
    · rw [outstanding_cancel]
      exact one
    · cases wait
  | expire wait due =>
    obtain ⟨le, ⟨a, mem, is⟩, all⟩ := inv.wait _ wait
    have here := Nat.le_antisymm le due
    refine ⟨?_, inv.past, inv.signalled, inv.cancelled, fun deadline wait => ?_, fun _ => ?_⟩
    · simp only [State.outstanding, wait] at one ⊢
      simp at one ⊢
      omega
    · cases wait
    · refine ⟨⟨a, mem, by rw [here, is]⟩, fun a mem => ?_⟩
      rcases all a mem with le | now
      · exact .inl (by rw [here]; exact le)
      · exact .inr now.1
  | handleCancelled cancelled =>
    refine inv_restart ?_ inv.past inv.signalled (inv.cancelled cancelled)
    simp only [State.outstanding] at one ⊢
    omega
  | handleExpired expired =>
    refine inv_restart ?_ (fun a mem => ?_) (fun _ => List.mem_cons_self) List.mem_cons_self
    · simp only [State.outstanding] at one ⊢
      omega
    · rcases List.mem_cons.mp mem with rfl | old
      · exact Nat.le_refl _
      · exact inv.past a old
  | tick idle early =>
    obtain ⟨noSign, noCancelled, noExpired⟩ := idle
    refine ⟨one, fun a mem => Nat.le_succ_of_le (inv.past a mem), fun signalled => ?_,
      fun cancelled => ?_, fun deadline wait => ?_, fun expired => ?_⟩
    · exact absurd signalled (by simp [noSign])
    · exact absurd cancelled (by simp [noCancelled])
    · obtain ⟨-, some', all⟩ := inv.wait deadline wait
      refine ⟨early deadline wait, some', fun a mem => .inl ?_⟩
      rcases all a mem with le | late
      · exact le
      · exact absurd late.2 (by simp [noSign])
    · exact absurd expired (by simp [noExpired])

/-- There was a sign of life in the last period. -/
theorem Inv.heard (inv : Inv period s) : ∃ a ∈ s.signs, s.now ≤ a + period := by
  have one := inv.outstanding
  cases wait : s.wait with
  | some deadline =>
    obtain ⟨le, ⟨a, mem, is⟩, -⟩ := inv.wait deadline wait
    exact ⟨a, mem, is ▸ le⟩
  | none =>
    simp [State.outstanding, wait] at one
    rcases Nat.eq_zero_or_pos s.cancelled with zero | cancelled
    · obtain ⟨⟨a, mem, is⟩, -⟩ := inv.expired (by omega)
      exact ⟨a, mem, Nat.le_of_eq is⟩
    · exact ⟨s.now, inv.cancelled cancelled, Nat.le_add_right _ _⟩

end Watchdog
