import Mathlib.Computability.Language
import Mathlib.Order.CompletePartialOrder
import TRex.Lib.Wire

/-!
# Decoders and the grammars they follow

A decoder of `Wire` only fails; a watched decoder says why it stops. Some reasons are reports: the
decoder has noticed that something is wrong and says so. `Follows d good bad` states in terms of
byte strings what such a decoder does: it returns on the inputs that start with a word of `good` and
leaves what follows, it reports on those that start with a word of `bad`, and on all others it stops
for a reason that is no report. Grammars are put together like the decoders, with `Follows.bind` for
sequences and `Follows.times` for counted repetitions.
-/

namespace Wire

variable {α β ε : Type}

/-- A decoder with a reason for each failure. -/
abbrev Watched (ε α : Type) := StateT Bytes (Except ε) α

/-! ## Primitives -/

namespace Watched

def take (past : ε) (n : Nat) : Watched ε Bytes := fun input =>
  if n ≤ input.length then .ok (input.take n, input.drop n) else .error past

def stop (e : ε) : Watched ε α := fun _ => .error e

/-- Goes on only if the condition holds. -/
def ensure (e : ε) (p : Prop) [Decidable p] : Watched ε Unit := if p then pure () else stop e

def times (d : Watched ε α) : Nat → Watched ε (List α)
  | 0 => pure []
  | n + 1 => do
    let v ← d
    let vs ← times d n
    return v :: vs

/-- A decoder that fails for one reason only. -/
def ofDecoder (past : ε) (d : Decoder α) : Watched ε α := fun input =>
  match d input with
  | none => .error past
  | some x => .ok x

/-- The decoder that only fails. -/
def erase (d : Watched ε α) : Decoder α := fun input => (d input).toOption

/-! ## Erasure -/

@[simp] theorem erase_pure (v : α) : erase (pure v : Watched ε α) = pure v := rfl

@[simp] theorem erase_bind (d : Watched ε α) (f : α → Watched ε β) :
    erase (d >>= f) = erase d >>= fun v => erase (f v) := by
  funext input
  have run : (d >>= f) input = (d input).bind fun y => f y.1 y.2 := rfl
  have runErased : (erase d >>= fun v => erase (f v)) input =
      (d input).toOption.bind fun y => (f y.1 y.2).toOption := rfl
  rw [erase, run, runErased]
  cases d input <;> rfl

@[simp] theorem erase_take (past : ε) (n : Nat) : erase (take past n) = Wire.take n := by
  funext input
  unfold erase take Wire.take
  split <;> rfl

@[simp] theorem erase_stop (e : ε) : erase (stop e : Watched ε α) = fail := rfl

@[simp] theorem erase_ofDecoder (past : ε) (d : Decoder α) : erase (ofDecoder past d) = d := by
  funext input
  unfold erase ofDecoder
  cases d input <;> rfl

@[simp] theorem erase_ensure (e : ε) (p : Prop) [Decidable p] :
    erase (ensure e p) = require p := by
  unfold ensure require
  split <;> rfl

theorem erase_times {d : Watched ε α} {d' : Decoder α} (erased : erase d = d') (n : Nat) :
    erase (times d n) = Wire.times d' n := by
  induction n with
  | zero => rfl
  | succ n ih => simp only [times, Wire.times, erase_bind, erase_pure, erased, ih]

theorem bind_eq_ok {d : Watched ε α} {f : α → Watched ε β} {input : Bytes} {x : β × Bytes} :
    (d >>= f) input = .ok x ↔ ∃ v mid, d input = .ok (v, mid) ∧ f v mid = .ok x := by
  have run : (d >>= f) input = (d input).bind fun y => f y.1 y.2 := rfl
  rw [run]
  cases read : d input with
  | error e => simp [Except.bind]
  | ok y =>
      obtain ⟨v, mid⟩ := y
      simp [Except.bind]

theorem bind_eq_error {d : Watched ε α} {f : α → Watched ε β} {input : Bytes} {e : ε} :
    (d >>= f) input = .error e ↔
      d input = .error e ∨ ∃ v mid, d input = .ok (v, mid) ∧ f v mid = .error e := by
  have run : (d >>= f) input = (d input).bind fun y => f y.1 y.2 := rfl
  rw [run]
  cases read : d input with
  | error e => simp [Except.bind]
  | ok y =>
      obtain ⟨v, mid⟩ := y
      simp [Except.bind]

end Watched

/-! ## Grammars -/

/-- A word of the first language followed by a word of a language that depends on it. -/
def andThen (first : Language UInt8) (next : Bytes → Language UInt8) : Language UInt8 :=
  {w | ∃ u ∈ first, ∃ v ∈ next u, u ++ v = w}

/-- The words of a language that meet a condition. -/
def restrict (language : Language UInt8) (q : Bytes → Prop) : Language UInt8 :=
  {w | w ∈ language ∧ q w}

/-- The words of a fixed length. -/
def bytes (n : Nat) : Language UInt8 := {w | w.length = n}

/-- Fewer than `n` whole elements and then a word of `bad`. -/
def interrupted (n : Nat) (good bad : Language UInt8) : Language UInt8 :=
  {w | ∃ k < n, w ∈ good ^ k * bad}

/-- The inputs that start with a word of the language. -/
def Starts (language : Language UInt8) (input : Bytes) : Prop := ∃ w ∈ language, w <+: input

/-- The decoder turns exactly these bytes into the value, whatever follows. -/
def Spells (d : Watched ε α) (w : Bytes) (v : α) : Prop := ∀ rest, d (w ++ rest) = .ok (v, rest)

/-- Among the words of `good`, those of `part` spell the values with a property. -/
structure Marks (d : Watched ε α) (good part : Language UInt8) (p : α → Prop) : Prop where
  le : part ≤ good
  iff : ∀ {w v}, w ∈ good → Spells d w v → (p v ↔ w ∈ part)

/-- The decoder takes `n` bytes, whatever they are. -/
structure Fixed (n : Nat) (d : Decoder α) : Prop where
  short : ∀ {input : Bytes}, input.length < n → d input = none
  whole : ∀ {w : Bytes}, w.length = n → ∃ v, Reads d w v

/-- The decoder returns on the words of `good` and reports on the words of `bad`. -/
structure Follows (Reported : ε → Prop) (d : Watched ε α) (good bad : Language UInt8) : Prop where
  read : ∀ {input v rest}, d input = .ok (v, rest) → ∃ w ∈ good, w ++ rest = input
  complete : ∀ w ∈ good, ∃ v, Spells d w v
  report : ∀ {input e}, d input = .error e → Reported e → Starts bad input
  reported : ∀ w ∈ bad, ∀ rest, ∃ e, Reported e ∧ d (w ++ rest) = .error e

theorem Spells.unique {d : Watched ε α} {w rest : Bytes} {v v' : α} (spells : Spells d w v)
    (read : d (w ++ rest) = .ok (v', rest)) : v' = v := by
  rw [spells rest] at read
  exact (congrArg Prod.fst (Except.ok.inj read)).symm

theorem spells_ofDecoder {past : ε} {d : Decoder α} {w : Bytes} {v : α} (reads : Reads d w v) :
    Spells (Watched.ofDecoder past d) w v := by
  intro rest
  rw [Watched.ofDecoder, reads rest]

namespace Fixed

variable {n : Nat} {d : Decoder α}

theorem byte : Fixed 1 byte := by
  constructor
  · intro input short
    rw [List.length_eq_zero_iff.mp (Nat.lt_one_iff.mp short)]
    rfl
  · intro w length
    obtain ⟨b, single⟩ := List.length_eq_one_iff.mp length
    rw [single]
    exact ⟨b, Reads.byte b⟩

theorem word (n : Nat) : Fixed n (word n) := by
  constructor
  · intro input short
    apply bind_eq_none
    exact if_neg (Nat.not_le_of_lt short)
  · intro w length
    refine ⟨ofBigEndian w, ?_⟩
    rw [← length]
    exact (Reads.take w).map ofBigEndian

theorem map (fixed : Fixed n d) (f : α → β) : Fixed n (do return f (← d)) := by
  constructor
  · intro input short
    exact bind_eq_none (fixed.short short)
  · intro w length
    obtain ⟨v, reads⟩ := fixed.whole length
    exact ⟨f v, reads.map f⟩

end Fixed

/-- A condition on the word that was read. -/
theorem andThen_if (good : Language UInt8) (q : Bytes → Prop) [DecidablePred q] :
    andThen good (fun w => if q w then 1 else 0) = restrict good q := by
  ext w
  constructor
  · intro mem
    obtain ⟨u, isGood, v, last, rfl⟩ := mem
    by_cases holds : q u
    · have done : v ∈ (1 : Language UInt8) := by simpa only [if_pos holds] using last
      rw [(Language.mem_one v).mp done, List.append_nil]
      exact ⟨isGood, holds⟩
    · have never : v ∈ (0 : Language UInt8) := by simpa only [if_neg holds] using last
      exact absurd never (Language.notMem_zero v)
  · intro mem
    refine ⟨w, mem.1, [], ?_, List.append_nil w⟩
    have done : [] ∈ (1 : Language UInt8) := Language.nil_mem_one
    simpa only [if_pos mem.2] using done

/-- A word that decides whether another one may follow. -/
theorem andThen_ite {good part : Language UInt8} (le : part ≤ good) (next : Language UInt8)
    [DecidablePred (· ∈ part)] :
    andThen good (fun w => if w ∈ part then next else 0) = part * next := by
  ext w
  constructor
  · intro mem
    obtain ⟨u, -, v, follows, rfl⟩ := mem
    by_cases isPart : u ∈ part
    · have follows : v ∈ next := by simpa only [if_pos isPart] using follows
      exact Language.append_mem_mul isPart follows
    · have never : v ∈ (0 : Language UInt8) := by simpa only [if_neg isPart] using follows
      exact absurd never (Language.notMem_zero v)
  · intro mem
    obtain ⟨u, isPart, v, follows, rfl⟩ := Language.mem_mul.mp mem
    refine ⟨u, le isPart, v, ?_, rfl⟩
    simpa only [if_pos isPart] using follows

theorem interrupted_zero (good bad : Language UInt8) : interrupted 0 good bad = 0 := by
  ext w
  refine ⟨fun mem => ?_, fun mem => absurd mem (Language.notMem_zero w)⟩
  rcases mem with ⟨k, few, -⟩
  exact absurd few (Nat.not_lt_zero k)

/-- The first element is interrupted, or a later one. -/
theorem interrupted_succ (n : Nat) (good bad : Language UInt8) :
    interrupted (n + 1) good bad = bad + good * interrupted n good bad := by
  ext w
  constructor
  · intro mem
    obtain ⟨k, few, mem⟩ := mem
    cases k with
    | zero =>
        rw [pow_zero, one_mul] at mem
        exact .inl mem
    | succ k =>
        rw [pow_succ', mul_assoc] at mem
        obtain ⟨u, first, v, later, rfl⟩ := mem
        exact .inr ⟨u, first, v, ⟨k, Nat.lt_of_succ_lt_succ few, later⟩, rfl⟩
  · intro mem
    rcases mem with first | ⟨u, first, v, later, rfl⟩
    · refine ⟨0, Nat.succ_pos n, ?_⟩
      rw [pow_zero, one_mul]
      exact first
    · obtain ⟨k, few, mem⟩ := later
      refine ⟨k + 1, Nat.succ_lt_succ few, ?_⟩
      rw [pow_succ', mul_assoc]
      exact Language.append_mem_mul first mem

namespace Follows

variable {Reported : ε → Prop} {d : Watched ε α} {good bad : Language UInt8}

/-- What was read had a spelling. -/
theorem spelled (follows : Follows Reported d good bad) {input rest : Bytes} {v : α}
    (read : d input = .ok (v, rest)) : ∃ w ∈ good, Spells d w v ∧ w ++ rest = input := by
  obtain ⟨w, mem, rfl⟩ := follows.read read
  obtain ⟨v', spells⟩ := follows.complete w mem
  rw [spells.unique read]
  exact ⟨w, mem, spells, rfl⟩

theorem returns_iff (follows : Follows Reported d good bad) (input : Bytes) :
    (∃ v rest, d input = .ok (v, rest)) ↔ Starts good input := by
  constructor
  · intro returned
    obtain ⟨v, rest, read⟩ := returned
    obtain ⟨w, mem, rfl⟩ := follows.read read
    exact ⟨w, mem, List.prefix_append w rest⟩
  · intro starts
    obtain ⟨w, mem, rest, rfl⟩ := starts
    obtain ⟨v, spells⟩ := follows.complete w mem
    exact ⟨v, rest, spells rest⟩

theorem reports_iff (follows : Follows Reported d good bad) (input : Bytes) :
    (∃ e, Reported e ∧ d input = .error e) ↔ Starts bad input := by
  constructor
  · intro stopped
    obtain ⟨e, isReport, read⟩ := stopped
    exact follows.report read isReport
  · intro starts
    obtain ⟨w, mem, rest, rfl⟩ := starts
    exact follows.reported w mem rest

theorem congr {good' bad' : Language UInt8} (follows : Follows Reported d good bad)
    (sameGood : good = good') (sameBad : bad = bad') : Follows Reported d good' bad' := by
  rw [← sameGood, ← sameBad]
  exact follows

theorem pure (v : α) : Follows Reported (pure v : Watched ε α) 1 0 := by
  refine ⟨?_, ?_, ?_, ?_⟩
  · intro input v' rest read
    cases read
    exact ⟨[], Language.nil_mem_one, rfl⟩
  · intro w mem
    obtain rfl := (Language.mem_one w).mp mem
    exact ⟨v, fun rest => rfl⟩
  · intro input e stopped
    cases stopped
  · intro w mem
    exact absurd mem (Language.notMem_zero w)

/-- Stopping without a report. -/
theorem stop {e : ε} (silent : ¬ Reported e) :
    Follows Reported (Watched.stop e : Watched ε α) 0 0 := by
  refine ⟨?_, ?_, ?_, ?_⟩
  · intro input v rest read
    cases read
  · intro w mem
    exact absurd mem (Language.notMem_zero w)
  · intro input e' stopped isReport
    cases stopped
    exact absurd isReport silent
  · intro w mem
    exact absurd mem (Language.notMem_zero w)

theorem stop_reported {e : ε} (isReport : Reported e) :
    Follows Reported (Watched.stop e : Watched ε α) 0 1 := by
  refine ⟨?_, ?_, ?_, ?_⟩
  · intro input v rest read
    cases read
  · intro w mem
    exact absurd mem (Language.notMem_zero w)
  · intro input e' stopped _
    exact ⟨[], Language.nil_mem_one, List.nil_prefix⟩
  · intro w mem rest
    exact ⟨e, isReport, rfl⟩

theorem take {past : ε} (silent : ¬ Reported past) (n : Nat) :
    Follows Reported (Watched.take past n) (bytes n) 0 := by
  refine ⟨?_, ?_, ?_, ?_⟩
  · intro input v rest read
    unfold Watched.take at read
    split at read
    case isTrue enough =>
      cases read
      refine ⟨input.take n, ?_, List.take_append_drop n input⟩
      exact List.length_take_of_le enough
    case isFalse => cases read
  · intro w mem
    refine ⟨w, fun rest => ?_⟩
    have length : w.length = n := mem
    unfold Watched.take
    rw [if_pos (by simp [length]), List.take_left' length, List.drop_left' length]
  · intro input e stopped isReport
    unfold Watched.take at stopped
    split at stopped
    case isTrue => cases stopped
    case isFalse =>
      cases stopped
      exact absurd isReport silent
  · intro w mem
    exact absurd mem (Language.notMem_zero w)

theorem ofDecoder {past : ε} (silent : ¬ Reported past) {n : Nat} {d : Decoder α}
    (fixed : Fixed n d) : Follows Reported (Watched.ofDecoder past d) (bytes n) 0 := by
  have whole_of : ∀ input : Bytes, n ≤ input.length →
      ∃ v, Reads d (input.take n) v ∧ d input = some (v, input.drop n) := by
    intro input enough
    obtain ⟨v, reads⟩ := fixed.whole (List.length_take_of_le enough)
    have whole := reads (input.drop n)
    rw [List.take_append_drop] at whole
    exact ⟨v, reads, whole⟩
  refine ⟨?_, ?_, ?_, ?_⟩
  · intro input v rest read
    unfold Watched.ofDecoder at read
    rcases Nat.lt_or_ge input.length n with short | enough
    · rw [fixed.short short] at read
      cases read
    · obtain ⟨v', -, whole⟩ := whole_of input enough
      rw [whole] at read
      cases read
      exact ⟨input.take n, List.length_take_of_le enough, List.take_append_drop n input⟩
  · intro w mem
    obtain ⟨v, reads⟩ := fixed.whole mem
    exact ⟨v, spells_ofDecoder reads⟩
  · intro input e stopped isReport
    unfold Watched.ofDecoder at stopped
    split at stopped
    · cases stopped
      exact absurd isReport silent
    · cases stopped
  · intro w mem
    exact absurd mem (Language.notMem_zero w)

/-- A sequence: what follows may depend on the bytes that were read. -/
theorem bind {f : α → Watched ε β} {good' bad' : Bytes → Language UInt8}
    (first : Follows Reported d good bad)
    (next : ∀ w ∈ good, ∀ v, Spells d w v → Follows Reported (f v) (good' w) (bad' w)) :
    Follows Reported (d >>= f) (andThen good good') (bad + andThen good bad') := by
  refine ⟨?_, ?_, ?_, ?_⟩
  · intro input x rest read
    obtain ⟨v, mid, readFirst, readNext⟩ := Watched.bind_eq_ok.mp read
    obtain ⟨u, memFirst, spells, rfl⟩ := first.spelled readFirst
    obtain ⟨w, memNext, rfl⟩ := (next u memFirst v spells).read readNext
    exact ⟨u ++ w, ⟨u, memFirst, w, memNext, rfl⟩, List.append_assoc u w rest⟩
  · intro w mem
    obtain ⟨u, memFirst, w', memNext, rfl⟩ := mem
    obtain ⟨v, spells⟩ := first.complete u memFirst
    obtain ⟨x, spellsNext⟩ := (next u memFirst v spells).complete w' memNext
    refine ⟨x, fun rest => ?_⟩
    rw [List.append_assoc]
    exact Watched.bind_eq_ok.mpr ⟨v, w' ++ rest, spells _, spellsNext rest⟩
  · intro input e stopped isReport
    rcases Watched.bind_eq_error.mp stopped with inFirst | ⟨v, mid, readFirst, inNext⟩
    · obtain ⟨w, mem, isPrefix⟩ := first.report inFirst isReport
      exact ⟨w, .inl mem, isPrefix⟩
    · obtain ⟨u, memFirst, spells, rfl⟩ := first.spelled readFirst
      obtain ⟨w, memNext, isPrefix⟩ := (next u memFirst v spells).report inNext isReport
      exact ⟨u ++ w, .inr ⟨u, memFirst, w, memNext, rfl⟩,
        (List.prefix_append_right_inj u).mpr isPrefix⟩
  · intro w mem rest
    rcases mem with inFirst | ⟨u, memFirst, w', memNext, rfl⟩
    · obtain ⟨e, isReport, stopped⟩ := first.reported w inFirst rest
      exact ⟨e, isReport, Watched.bind_eq_error.mpr (.inl stopped)⟩
    · obtain ⟨v, spells⟩ := first.complete u memFirst
      obtain ⟨e, isReport, stopped⟩ := (next u memFirst v spells).reported w' memNext rest
      refine ⟨e, isReport, Watched.bind_eq_error.mpr (.inr ⟨v, w' ++ rest, ?_, stopped⟩)⟩
      rw [List.append_assoc]
      exact spells _

/-- A sequence of two parts that do not depend on each other. -/
theorem seq {f : α → Watched ε β} {good' bad' : Language UInt8}
    (first : Follows Reported d good bad) (next : ∀ v, Follows Reported (f v) good' bad') :
    Follows Reported (d >>= f) (good * good') (bad + good * bad') :=
  first.bind fun _ _ v _ => next v

/-- A value computed from what was read. -/
theorem map (follows : Follows Reported d good bad) (f : α → β) :
    Follows Reported (do return f (← d)) good bad := by
  have mapped := follows.seq fun v => show Follows Reported _ 1 0 from Follows.pure (f v)
  rw [mul_one, mul_zero, add_zero] at mapped
  exact mapped

/-- Going on only if a condition holds, without a report otherwise. -/
theorem ensure {e : ε} (silent : ¬ Reported e) {p : Prop} [Decidable p] {f : Unit → Watched ε β}
    (next : Follows Reported (f ()) good bad) :
    Follows Reported (Watched.ensure e p >>= f) (if p then good else 0) (if p then bad else 0) := by
  by_cases holds : p
  · rw [Watched.ensure, if_pos holds, if_pos holds, if_pos holds, pure_bind]
    exact next
  · rw [Watched.ensure, if_neg holds, if_neg holds, if_neg holds]
    exact Follows.stop silent

theorem ensure_reported {e : ε} (isReport : Reported e) {p : Prop} [Decidable p]
    {f : Unit → Watched ε β} (next : Follows Reported (f ()) good bad) :
    Follows Reported (Watched.ensure e p >>= f) (if p then good else 0) (if p then bad else 1) := by
  by_cases holds : p
  · rw [Watched.ensure, if_pos holds, if_pos holds, if_pos holds, pure_bind]
    exact next
  · rw [Watched.ensure, if_neg holds, if_neg holds, if_neg holds]
    exact Follows.stop_reported isReport

open Classical in
/-- A value that is looked at once it is read. -/
theorem guarded {e : ε} (silent : ¬ Reported e) {p : α → Prop} [DecidablePred p]
    {q : Bytes → Prop} (follows : Follows Reported d good bad)
    (agree : ∀ w ∈ good, ∀ v, Spells d w v → (p v ↔ q w)) :
    Follows Reported (do let v ← d; Watched.ensure e (p v); return v) (restrict good q) bad := by
  have next : ∀ w ∈ good, ∀ v, Spells d w v →
      Follows Reported (Watched.ensure e (p v) >>= fun _ => Pure.pure v)
        (if q w then 1 else 0) 0 := by
    intro w mem v spells
    have passed := Follows.ensure silent (p := p v)
      (f := fun _ => Pure.pure v) (Follows.pure v)
    refine passed.congr ?_ (ite_self 0)
    simp only [agree w mem v spells]
  refine (follows.bind next).congr (andThen_if good q) ?_
  exact (congrArg (bad + ·) (mul_zero good)).trans (add_zero bad)

open Classical in
theorem guarded_reported {e : ε} (isReport : Reported e) {p : α → Prop} [DecidablePred p]
    {q : Bytes → Prop} (follows : Follows Reported d good bad)
    (agree : ∀ w ∈ good, ∀ v, Spells d w v → (p v ↔ q w)) :
    Follows Reported (do let v ← d; Watched.ensure e (p v); return v) (restrict good q)
      (bad + restrict good fun w => ¬ q w) := by
  have next : ∀ w ∈ good, ∀ v, Spells d w v →
      Follows Reported (Watched.ensure e (p v) >>= fun _ => Pure.pure v) (if q w then 1 else 0)
        (if ¬ q w then 1 else 0) := by
    intro w mem v spells
    have passed := Follows.ensure_reported isReport (p := p v)
      (f := fun _ => Pure.pure v) (Follows.pure v)
    refine passed.congr ?_ ?_
    · simp only [agree w mem v spells]
    · simp only [agree w mem v spells, ite_not]
  exact (follows.bind next).congr (andThen_if good q)
    (congrArg (bad + ·) (andThen_if good fun w => ¬ q w))

theorem times (follows : Follows Reported d good bad) (n : Nat) :
    Follows Reported (Watched.times d n) (good ^ n) (interrupted n good bad) := by
  induction n with
  | zero =>
      have none : Follows Reported (Watched.times d 0) 1 0 := Follows.pure []
      exact none.congr (pow_zero good).symm (interrupted_zero good bad).symm
  | succ n ih =>
      have counted := follows.seq fun v => ih.map fun vs => v :: vs
      exact counted.congr (pow_succ' good n).symm (interrupted_succ n good bad).symm

/-- One decoder does not spell two words at the start of one input. -/
theorem same_word (follows : Follows Reported d good bad) {u u' v v' : Bytes} (mem : u ∈ good)
    (mem' : u' ∈ good) (same : u ++ v = u' ++ v') : u = u' := by
  obtain ⟨x, spells⟩ := follows.complete u mem
  obtain ⟨x', spells'⟩ := follows.complete u' mem'
  have read := spells' v'
  rw [← same, spells v] at read
  have rests : v = v' := (Prod.mk.inj (Except.ok.inj read)).2
  exact List.append_cancel_right (rests ▸ same)

end Follows

/-! ## Words whose values have a property -/

/-- What is left of a sequence once its first word is read. -/
theorem Spells.rest {d : Watched ε α} {f : α → Watched ε β} {u v : Bytes} {x : α} {y : β}
    (first : Spells d u x) (both : Spells (d >>= f) (u ++ v) y) : Spells (f x) v y := by
  intro rest
  obtain ⟨x', mid, read, readNext⟩ := Watched.bind_eq_ok.mp (both rest)
  rw [List.append_assoc, first (v ++ rest)] at read
  cases read
  exact readNext

namespace Marks

variable {Reported : ε → Prop} {d : Watched ε α} {good bad part part' : Language UInt8}
  {p p' : α → Prop}

/-- The properties need to agree on what is read. -/
theorem congr (marks : Marks d good part p) {good' part' : Language UInt8}
    (sameGood : good = good') (samePart : part = part')
    (same : ∀ v {input rest}, d input = .ok (v, rest) → (p v ↔ p' v)) :
    Marks d good' part' p' := by
  subst sameGood samePart
  exact ⟨marks.le, fun mem spells => (same _ (spells [])).symm.trans (marks.iff mem spells)⟩

theorem all (holds : ∀ {input v rest}, d input = .ok (v, rest) → p v) : Marks d good good p :=
  ⟨le_rfl, fun mem spells => iff_of_true (holds (spells [])) mem⟩

theorem none (fails : ∀ {input v rest}, d input = .ok (v, rest) → ¬ p v) : Marks d good 0 p :=
  ⟨fun w mem => absurd mem (Language.notMem_zero w), fun _ spells =>
    iff_of_false (fails (spells [])) (Language.notMem_zero _)⟩

theorem or (marks : Marks d good part p) (marks' : Marks d good part' p') :
    Marks d good (part + part') fun v => p v ∨ p' v :=
  ⟨sup_le marks.le marks'.le, fun mem spells =>
    or_congr (marks.iff mem spells) (marks'.iff mem spells)⟩

/-- A sequence in which the property is decided behind the first word. -/
theorem bind {f : α → Watched ε β} {good' part' : Bytes → Language UInt8} {q : β → Prop}
    (first : Follows Reported d good bad)
    (next : ∀ w ∈ good, ∀ v, Spells d w v → Marks (f v) (good' w) (part' w) q) :
    Marks (d >>= f) (andThen good good') (andThen good part') q := by
  constructor
  · intro w mem
    obtain ⟨u, isFirst, v, isNext, rfl⟩ := mem
    obtain ⟨x, spells⟩ := first.complete u isFirst
    exact ⟨u, isFirst, v, (next u isFirst x spells).le isNext, rfl⟩
  · intro w y mem spells
    obtain ⟨u, isFirst, v, isNext, rfl⟩ := mem
    obtain ⟨x, spellsFirst⟩ := first.complete u isFirst
    rw [(next u isFirst x spellsFirst).iff isNext (spellsFirst.rest spells)]
    constructor
    · exact fun isPart => ⟨u, isFirst, v, isPart, rfl⟩
    · intro isPart
      obtain ⟨u', isFirst', v', isPart', same⟩ := isPart
      obtain rfl := first.same_word isFirst' isFirst same
      rwa [List.append_cancel_left same] at isPart'

/-- A sequence in which the first value must have a property of its own. -/
theorem seq {f : α → Watched ε β} {good' part' : Language UInt8} {q : β → Prop}
    (first : Follows Reported d good bad) (marks : Marks d good part p)
    (next : ∀ v, p v → Marks (f v) good' part' q)
    (without : ∀ v, ¬ p v → Marks (f v) good' 0 q) :
    Marks (d >>= f) (good * good') (part * part') q := by
  classical
  have rest : ∀ w ∈ good, ∀ v, Spells d w v →
      Marks (f v) good' (if w ∈ part then part' else 0) q := by
    intro w mem v spells
    by_cases holds : p v
    · rw [if_pos ((marks.iff mem spells).mp holds)]
      exact next v holds
    · rw [if_neg (mt (marks.iff mem spells).mpr holds)]
      exact without v holds
  exact (Marks.bind first rest).congr rfl (andThen_ite marks.le part') fun _ _ _ _ => Iff.rfl

/-- A value computed from what was read. -/
theorem map {f : α → β} {q : β → Prop} (first : Follows Reported d good bad)
    (marks : Marks d good part fun v => q (f v)) :
    Marks (do return f (← d)) good part q := by
  refine ⟨marks.le, fun {w y} mem spells => ?_⟩
  obtain ⟨v, spellsFirst⟩ := first.complete w mem
  have value : Spells (do return f (← d)) w (f v) := fun rest =>
    Watched.bind_eq_ok.mpr ⟨v, rest, spellsFirst rest, rfl⟩
  rw [value.unique (spells [])]
  exact marks.iff mem spellsFirst

end Marks

/-- A sequence that does not return behind a value without the property. -/
theorem Follows.marked {Reported : ε → Prop} {d : Watched ε α} {f : α → Watched ε β}
    {good bad part good' bad' : Language UInt8} {p : α → Prop} (first : Follows Reported d good bad)
    (marks : Marks d good part p) (next : ∀ v, p v → Follows Reported (f v) good' bad')
    (without : ∀ v, ¬ p v → Follows Reported (f v) 0 bad') :
    Follows Reported (d >>= f) (part * good') (bad + good * bad') := by
  classical
  have rest : ∀ w ∈ good, ∀ v, Spells d w v →
      Follows Reported (f v) (if w ∈ part then good' else 0) bad' := by
    intro w mem v spells
    by_cases holds : p v
    · rw [if_pos ((marks.iff mem spells).mp holds)]
      exact next v holds
    · rw [if_neg (mt (marks.iff mem spells).mpr holds)]
      exact without v holds
  exact (first.bind rest).congr (andThen_ite marks.le good') rfl

end Wire
