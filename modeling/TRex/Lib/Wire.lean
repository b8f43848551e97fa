import Mathlib.Algebra.Order.Ring.Nat
import Mathlib.Tactic.Common
import Mathlib.Tactic.Ring

/-!
# Byte formats

A decoder reads a value off the front of the input and leaves the rest; it fails where the input
ends too early or the reader refuses what it finds. `Reads d bytes v` says that `d` turns exactly
the bytes given into `v`, whatever follows them. Formats are read piece by piece, so a round trip
is assembled from the rules below: one for each primitive, `Reads.bind` for sequences, `Reads.times`
for counted repetitions.
-/

namespace Wire

abbrev Bytes := List UInt8

abbrev Decoder (α : Type) := StateT Bytes Option α

variable {α β : Type}

/-! ## Primitives -/

def byte : Decoder UInt8 := fun input =>
  match input with
  | [] => none
  | b :: rest => some (b, rest)

/-- The next `n` bytes. -/
def take (n : Nat) : Decoder Bytes := fun input =>
  if n ≤ input.length then some (input.take n, input.drop n) else none

/-- A decoder that refuses every input. -/
def fail : Decoder α := fun _ => none

/-- Goes on only if the condition holds. -/
def require (p : Prop) [Decidable p] : Decoder Unit := if p then pure () else fail

/-- The `k` low bytes of a number, most significant byte first. -/
def bigEndian : Nat → Nat → Bytes
  | 0, _ => []
  | k + 1, n => bigEndian k (n / 256) ++ [UInt8.ofNat n]

def ofBigEndian (bytes : Bytes) : Nat := bytes.foldl (fun n b => 256 * n + b.toNat) 0

/-- An unsigned number of `k` bytes. -/
def word (k : Nat) : Decoder Nat := do return ofBigEndian (← take k)

/-- The same decoder `n` times. -/
def times (d : Decoder α) : Nat → Decoder (List α)
  | 0 => pure []
  | n + 1 => do
    let v ← d
    let vs ← times d n
    return v :: vs

@[simp] theorem length_bigEndian (k n : Nat) : (bigEndian k n).length = k := by
  induction k generalizing n with
  | zero => rfl
  | succ k ih => rw [bigEndian, List.length_append, ih, List.length_singleton]

theorem ofBigEndian_bigEndian (k n : Nat) : ofBigEndian (bigEndian k n) = n % 256 ^ k := by
  induction k generalizing n with
  | zero => simp [bigEndian, ofBigEndian, Nat.mod_one]
  | succ k ih =>
      have shifted : ofBigEndian (bigEndian k (n / 256) ++ [UInt8.ofNat n]) =
          256 * ofBigEndian (bigEndian k (n / 256)) + n % 256 := by
        rw [ofBigEndian, List.foldl_append]
        simp [ofBigEndian]
      rw [bigEndian, shifted, ih, pow_succ', Nat.mod_mul]
      omega

/-- Only the low bytes count. -/
theorem bigEndian_mod (k n : Nat) : bigEndian k (n % 256 ^ k) = bigEndian k n := by
  induction k generalizing n with
  | zero => rfl
  | succ k ih =>
      have high : n % 256 ^ (k + 1) / 256 = n / 256 % 256 ^ k := by
        rw [pow_succ', Nat.mod_mul_right_div_self]
      have low : UInt8.ofNat (n % 256 ^ (k + 1)) = UInt8.ofNat n := by
        apply UInt8.toNat_inj.mp
        rw [UInt8.toNat_ofNat', UInt8.toNat_ofNat', pow_succ', Nat.mod_mul_right_mod]
      rw [bigEndian, bigEndian, high, low, ih]

/-- High bytes and low bytes. -/
theorem bigEndian_add (j k n : Nat) :
    bigEndian (j + k) n = bigEndian j (n / 256 ^ k) ++ bigEndian k n := by
  induction k generalizing n with
  | zero => rw [pow_zero, Nat.div_one, bigEndian, List.append_nil, Nat.add_zero]
  | succ k ih =>
      rw [← Nat.add_assoc, bigEndian, ih, bigEndian, pow_succ', ← Nat.div_div_eq_div_mul,
        List.append_assoc]

/-- A zero in front pushes the last byte out. -/
theorem take_zero_bigEndian {k n : Nat} (small : n < 256 ^ k) :
    ((0 : UInt8) :: bigEndian k n).take k = bigEndian k (n / 256) := by
  have longer : ∀ {k n : Nat}, n < 256 ^ k → (0 : UInt8) :: bigEndian k n =
      bigEndian (k + 1) n := by
    intro k
    induction k with
    | zero =>
        intro n small
        rw [pow_zero, Nat.lt_one_iff] at small
        rw [small]
        rfl
    | succ k ih =>
        intro n small
        rw [bigEndian, ← List.cons_append, ih (by rw [pow_succ] at small; omega), bigEndian,
          bigEndian, bigEndian]
  rw [longer small, bigEndian, List.take_left' (length_bigEndian k _)]

/-- Zeros in front push as many bytes out. -/
theorem take_zeros_bigEndian {k n : Nat} (small : n < 256 ^ k) (m : Nat) :
    (List.replicate m (0 : UInt8) ++ bigEndian k n).take k = bigEndian k (n / 256 ^ m) := by
  induction m with
  | zero =>
      rw [pow_zero, Nat.div_one, List.replicate_zero, List.nil_append,
        List.take_of_length_le (length_bigEndian k n).le]
  | succ m ih =>
      have shorter : n / 256 ^ m < 256 ^ k := (Nat.div_le_self n _).trans_lt small
      rw [pow_succ, ← Nat.div_div_eq_div_mul, ← take_zero_bigEndian shorter, ← ih,
        List.replicate_succ, List.cons_append]
      cases k with
      | zero => rfl
      | succ k => rw [List.take_succ_cons, List.take_succ_cons, List.take_take,
        min_eq_left (by omega)]

/-- A sequence succeeds if both parts do. -/
theorem bind_eq_some {d : Decoder α} {f : α → Decoder β} {input : Bytes} {x : β × Bytes} :
    (d >>= f) input = some x ↔ ∃ v mid, d input = some (v, mid) ∧ f v mid = some x := by
  have run : (d >>= f) input = (d input).bind fun y => f y.1 y.2 := rfl
  rw [run, Option.bind_eq_some_iff]
  exact Prod.exists

theorem map_run (d : Decoder α) (f : α → β) (input : Bytes) :
    (do return f (← d)) input = (d input).map fun x => (f x.1, x.2) := by
  have run : (do return f (← d)) input = (d input).bind fun x => some (f x.1, x.2) := rfl
  rw [run, Option.map_eq_bind]
  rfl

theorem bind_mono {d : Decoder α} {f g : α → Decoder β}
    (le : ∀ v {input x}, f v input = some x → g v input = some x) {input : Bytes} {x : β × Bytes}
    (read : (d >>= f) input = some x) : (d >>= g) input = some x := by
  obtain ⟨v, mid, first, next⟩ := bind_eq_some.mp read
  exact bind_eq_some.mpr ⟨v, mid, first, le v next⟩

theorem require_bind_eq_some {p : Prop} [Decidable p] {f : Unit → Decoder β} {input : Bytes}
    {x : β × Bytes} : (require p >>= f) input = some x ↔ p ∧ f () input = some x := by
  by_cases holds : p
  · rw [show require p = (pure () : Decoder Unit) from if_pos holds, pure_bind]
    exact (and_iff_right holds).symm
  · rw [show require p = (fail : Decoder Unit) from if_neg holds]
    constructor
    · intro read
      cases read
    · intro both
      exact absurd both.1 holds

theorem take_eq_some {n : Nat} {input bytes rest : Bytes} :
    take n input = some (bytes, rest) ↔ bytes.length = n ∧ input = bytes ++ rest := by
  unfold take
  constructor
  · intro taken
    split at taken
    · next enough =>
        cases taken
        exact ⟨List.length_take_of_le enough, (List.take_append_drop n input).symm⟩
    · cases taken
  · rintro ⟨rfl, rfl⟩
    rw [if_pos (by simp), List.take_left, List.drop_left]

/-! ## Reading back -/

/-- The decoder reads exactly these bytes, as this value. -/
def Reads (d : Decoder α) (bytes : Bytes) (v : α) : Prop :=
  ∀ rest, d (bytes ++ rest) = some (v, rest)

namespace Reads

variable {d : Decoder α} {bytes : Bytes} {v : α}

theorem byte (b : UInt8) : Reads byte [b] b := fun _ => rfl

theorem take (bytes : Bytes) : Reads (take bytes.length) bytes bytes := by
  intro rest
  simp [Wire.take]

theorem pure (v : α) : Reads (pure v) [] v := fun _ => rfl

/-- Two readings one after the other. -/
theorem bind {f : α → Decoder β} {more : Bytes} {w : β} (first : Reads d bytes v)
    (second : Reads (f v) more w) : Reads (d >>= f) (bytes ++ more) w := by
  intro rest
  rw [List.append_assoc]
  exact bind_eq_some.mpr ⟨v, more ++ rest, first _, second rest⟩

/-- What the rest of a sequence does after a reading. -/
theorem run_bind (reads : Reads d bytes v) (f : α → Decoder β) (rest : Bytes) :
    (d >>= f) (bytes ++ rest) = f v rest := by
  have run : (d >>= f) (bytes ++ rest) = (d (bytes ++ rest)).bind fun y => f y.1 y.2 := rfl
  rw [run, reads, Option.bind_some]

/-- What comes after the last reading takes no input. -/
theorem last {f : α → Decoder β} {w : β} (read : Reads d bytes v) (rest : Reads (f v) [] w) :
    Reads (d >>= f) bytes w := by
  have both := read.bind rest
  rwa [List.append_nil] at both

/-- A value computed from what was read. -/
theorem map (read : Reads d bytes v) (f : α → β) : Reads (do return f (← d)) bytes (f v) :=
  read.last (Reads.pure (f v))

/-- A condition that holds costs no input. -/
theorem require {p : Prop} [Decidable p] (holds : p) {f : Unit → Decoder β} {w : β}
    (next : Reads (f ()) bytes w) : Reads (Wire.require p >>= f) bytes w := by
  have passes : Wire.require p = (Pure.pure () : Decoder Unit) := if_pos holds
  rw [passes, pure_bind]
  exact next

theorem word (k n : Nat) : Reads (word k) (bigEndian k n) (n % 256 ^ k) := by
  have read := (take (bigEndian k n)).map ofBigEndian
  rw [length_bigEndian, ofBigEndian_bigEndian] at read
  exact read

/-- A counted repetition reads the values of a list off the concatenation of their encodings. -/
theorem times {enc : β → Bytes} {val : β → α} {xs : List β}
    (each : ∀ x ∈ xs, Reads d (enc x) (val x)) :
    Reads (times d xs.length) (xs.flatMap enc) (xs.map val) := by
  induction xs with
  | nil => exact Reads.pure []
  | cons x rest ih =>
      have tail := ih fun y mem => each y (List.mem_cons_of_mem x mem)
      exact (each x List.mem_cons_self).bind
        (f := fun v => do return v :: (← Wire.times d rest.length))
        (tail.map fun vs => val x :: vs)

end Reads

/-! ## Refusals -/

/-- The decoder fails on these bytes, whatever follows them. -/
def Refuses (d : Decoder α) (bytes : Bytes) : Prop := ∀ rest, d (bytes ++ rest) = none

theorem bind_eq_none {d : Decoder α} {f : α → Decoder β} {input : Bytes} (failed : d input = none) :
    (d >>= f) input = none := by
  have run : (d >>= f) input = (d input).bind fun y => f y.1 y.2 := rfl
  rw [run, failed, Option.bind_none]

theorem Reads.not_refuses {d : Decoder α} {bytes : Bytes} {v : α} (reads : Reads d bytes v) :
    ¬ Refuses d bytes := by
  intro refuses
  have failed := refuses []
  rw [reads []] at failed
  cases failed

/-- What was read decides that the rest is refused. -/
theorem Reads.bind_refuses {d : Decoder α} {f : α → Decoder β} {bytes more : Bytes} {v : α}
    (first : Reads d bytes v) (second : Refuses (f v) more) :
    Refuses (d >>= f) (bytes ++ more) := by
  intro rest
  have run : (d >>= f) (bytes ++ more ++ rest) =
      (d (bytes ++ more ++ rest)).bind fun y => f y.1 y.2 := rfl
  rw [run, List.append_assoc, first, Option.bind_some, second]

theorem Reads.last_refuses {d : Decoder α} {f : α → Decoder β} {bytes : Bytes} {v : α}
    (read : Reads d bytes v) (rest : Refuses (f v) []) : Refuses (d >>= f) bytes := by
  have both := read.bind_refuses rest
  rwa [List.append_nil] at both

namespace Refuses

variable {d : Decoder α} {bytes : Bytes}

theorem bind (refuses : Refuses d bytes) (f : α → Decoder β) (more : Bytes) :
    Refuses (d >>= f) (bytes ++ more) := by
  intro rest
  rw [List.append_assoc]
  exact bind_eq_none (refuses _)

theorem last (refuses : Refuses d bytes) (f : α → Decoder β) : Refuses (d >>= f) bytes := by
  have both := refuses.bind f []
  rwa [List.append_nil] at both

theorem require {p : Prop} [Decidable p] (fails : ¬ p) (f : Unit → Decoder β) (bytes : Bytes) :
    Refuses (Wire.require p >>= f) bytes := by
  have refused : Wire.require p = (fail : Decoder Unit) := if_neg fails
  rw [refused]
  exact fun _ => rfl

/-- A repetition fails with the first element that is refused. -/
theorem times {enc : β → Bytes} {xs : List β}
    (each : ∀ x ∈ xs, (∃ v, Reads d (enc x) v) ∨ Refuses d (enc x))
    (some : ∃ x ∈ xs, Refuses d (enc x)) : Refuses (times d xs.length) (xs.flatMap enc) := by
  induction xs with
  | nil =>
      obtain ⟨x, mem, -⟩ := some
      cases mem
  | cons x rest ih =>
      rcases each x List.mem_cons_self with ⟨v, reads⟩ | refuses
      · refine reads.bind_refuses ?_
        have later : ∃ y ∈ rest, Refuses d (enc y) := by
          obtain ⟨y, mem, refuses⟩ := some
          rcases List.mem_cons.mp mem with rfl | mem
          · exact absurd refuses reads.not_refuses
          · exact ⟨y, mem, refuses⟩
        exact (ih (fun y mem => each y (List.mem_cons_of_mem x mem)) later).last _
      · exact refuses.bind _ _

end Refuses

/-! ## What comes behind -/

/-- The decoder has not looked at what it leaves: with more bytes behind the input they stay
behind. -/
def Local (d : Decoder α) : Prop :=
  ∀ input v rest, d input = some (v, rest) → ∀ more, d (input ++ more) = some (v, rest ++ more)

namespace Local

variable {d : Decoder α}

theorem byte : Local byte := by
  intro input b rest read more
  cases input with
  | nil => cases read
  | cons _ _ =>
      cases read
      rfl

theorem take (n : Nat) : Local (take n) := by
  intro input bytes rest taken more
  obtain ⟨length, rfl⟩ := take_eq_some.mp taken
  exact take_eq_some.mpr ⟨length, List.append_assoc _ _ _⟩

theorem pure (v : α) : Local (pure v) := by
  intro input v' rest read more
  cases read
  rfl

theorem bind {f : α → Decoder β} (first : Local d) (next : ∀ v, Local (f v)) :
    Local (d >>= f) := by
  intro input x rest read more
  obtain ⟨v, mid, readFirst, readNext⟩ := bind_eq_some.mp read
  exact bind_eq_some.mpr ⟨v, mid ++ more, first _ _ _ readFirst more, next v _ _ _ readNext more⟩

theorem map (isLocal : Local d) (f : α → β) : Local (do return f (← d)) :=
  isLocal.bind fun v => pure (f v)

theorem require {p : Prop} [Decidable p] {f : Unit → Decoder α} (next : Local (f ())) :
    Local (Wire.require p >>= f) := by
  intro input v rest read more
  obtain ⟨holds, readNext⟩ := require_bind_eq_some.mp read
  exact require_bind_eq_some.mpr ⟨holds, next _ _ _ readNext more⟩

theorem word (k : Nat) : Local (word k) := (take k).map ofBigEndian

theorem times (each : Local d) (n : Nat) : Local (times d n) := by
  induction n with
  | zero => exact pure []
  | succ n ih => exact each.bind fun v => ih.map fun vs => v :: vs

end Local

/-! ## What reading costs -/

/-- Once `spent` bytes are taken, the decoder takes the rest of the `size` of its value, or more. -/
def Costs (d : Decoder α) (spent : Nat) (size : α → Nat) : Prop :=
  ∀ input v rest, d input = some (v, rest) → size v + rest.length ≤ spent + input.length

namespace Costs

variable {d : Decoder α} {spent : Nat} {size : α → Nat}

theorem byte : Costs byte 0 fun _ => 1 := by
  intro input b rest read
  cases input with
  | nil => cases read
  | cons _ _ =>
      cases read
      show 1 + rest.length ≤ 0 + (rest.length + 1)
      omega

theorem take (n : Nat) : Costs (take n) 0 List.length := by
  intro input bytes rest read
  unfold Wire.take at read
  split at read
  · cases read
    rw [List.length_take, List.length_drop]
    omega
  · cases read

theorem pure {v : α} (paid : size v ≤ spent) : Costs (pure v) spent size := by
  intro input v' rest read
  cases read
  omega

theorem bind {first : β → Nat} {d : Decoder β} {f : β → Decoder α} (costs : Costs d 0 first)
    (next : ∀ v, Costs (f v) (spent + first v) size) : Costs (d >>= f) spent size := by
  intro input x rest read
  obtain ⟨v, mid, readFirst, readNext⟩ := bind_eq_some.mp read
  have paid := costs _ _ _ readFirst
  have total := next v _ _ _ readNext
  omega

theorem map {d : Decoder β} {f : β → α} (costs : Costs d spent fun v => size (f v)) :
    Costs (do return f (← d)) spent size := by
  intro input x rest read
  obtain ⟨v, mid, readFirst, last⟩ := bind_eq_some.mp read
  cases last
  exact costs _ _ _ readFirst

theorem fixed {d : Decoder β} {n : Nat} (costs : Costs d spent fun _ => n) (f : β → α) :
    Costs (do return f (← d)) spent fun _ => n := costs.map

theorem mono {size' : α → Nat} (costs : Costs d spent size) (less : ∀ v, size' v ≤ size v) :
    Costs d spent size' := by
  intro input v rest read
  have total := costs _ _ _ read
  have := less v
  omega

theorem after (costs : Costs d 0 size) (spent : Nat) : Costs d spent fun v => spent + size v := by
  intro input v rest read
  have total := costs _ _ _ read
  show spent + size v + rest.length ≤ spent + input.length
  omega

theorem fail : Costs fail spent size := by
  intro input v rest read
  cases read

theorem require {p : Prop} [Decidable p] {f : Unit → Decoder α}
    (next : p → Costs (f ()) spent size) : Costs (Wire.require p >>= f) spent size := by
  by_cases holds : p
  · rw [show Wire.require p = (Pure.pure () : Decoder Unit) from if_pos holds, pure_bind]
    exact next holds
  · rw [show Wire.require p = (Wire.fail : Decoder Unit) from if_neg holds]
    exact Costs.fail

theorem word (k : Nat) : Costs (word k) 0 fun _ => k := by
  intro input n rest read
  obtain ⟨bytes, mid, taken, last⟩ := bind_eq_some.mp read
  cases last
  unfold Wire.take at taken
  split at taken
  · cases taken
    show k + (input.drop k).length ≤ 0 + input.length
    rw [List.length_drop]
    omega
  · cases taken

theorem times (each : Costs d 0 size) (n : Nat) :
    Costs (times d n) 0 fun vs => (vs.map size).sum := by
  induction n with
  | zero => exact Costs.pure le_rfl
  | succ n ih =>
      refine each.bind fun v => ih.bind fun vs => Costs.pure ?_
      rw [List.map_cons, List.sum_cons]
      omega

end Costs

end Wire
