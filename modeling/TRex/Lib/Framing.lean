import Mathlib.Data.List.TakeDrop

/-!
# Packets out of a stream

A receiver gets a stream in chunks. It appends each chunk to a buffer and takes packets off its
front until what is left is not a whole packet. `Framed` is what it needs to know about the stream:
a packet is recognised as soon as its frame is complete, whatever follows, and not before. Then the
packets come out in order however the stream is cut (`run_framed`), and what stays in the buffer is
what the packets have not used.
-/

namespace Framing

variable {σ π ε : Type}

/-- What an attempt to take the packet with some number off the buffer gives. -/
abbrev Attempts (σ π ε : Type) := Nat → List σ → Except ε (Option (π × List σ))

section Receiver

variable (attempt : Attempts σ π ε)

/-- Packets as long as there are any: `n` is the number of the next one. -/
def drain : Nat → Nat → List σ → Except ε (List π × List σ)
  | 0, _, buffer => .ok ([], buffer)
  | fuel + 1, n, buffer =>
    match attempt n buffer with
    | .error e => .error e
    | .ok none => .ok ([], buffer)
    | .ok (some (pkt, rest)) =>
      match drain fuel (n + 1) rest with
      | .error e => .error e
      | .ok (pkts, left) => .ok (pkt :: pkts, left)

/-- One chunk: the packets, and what stays in the buffer. Every packet uses some of it, so that
there are not more packets than symbols. -/
def receive (n : Nat) (buffer chunk : List σ) : Except ε (List π × List σ) :=
  drain attempt ((buffer ++ chunk).length + 1) n (buffer ++ chunk)

/-- Chunk after chunk: for each of them the packets and the buffer. -/
def run : Nat → List σ → List (List σ) → Except ε (List (List π × List σ))
  | _, _, [] => .ok []
  | n, buffer, chunk :: chunks =>
    match receive attempt n buffer chunk with
    | .error e => .error e
    | .ok (pkts, left) =>
      match run (n + pkts.length) left chunks with
      | .error e => .error e
      | .ok calls => .ok ((pkts, left) :: calls)

/-! ## Frames -/

/-- The frame of a packet: it is taken off whole, and not before it is whole. -/
structure Frame (n : Nat) (frame : List σ) (pkt : π) : Prop where
  whole : ∀ rest, attempt n (frame ++ rest) = .ok (some (pkt, rest))
  part : ∀ begin missing, missing ≠ [] → begin ++ missing = frame → attempt n begin = .ok none

/-- Frames one after the other, and the packets in them. -/
inductive Framed : Nat → List (List σ) → List π → Prop
  | nil {n : Nat} (idle : attempt n [] = .ok none) : Framed n [] []
  | cons {n : Nat} {frame : List σ} {frames : List (List σ)} {pkt : π} {pkts : List π}
      (nonempty : frame ≠ []) (first : Frame attempt n frame pkt)
      (later : Framed (n + 1) frames pkts) : Framed n (frame :: frames) (pkt :: pkts)

end Receiver

/-- A buffer that does not hold the first of the frames. -/
def Below (buffer : List σ) (frames : List (List σ)) : Prop :=
  ∀ frame ∈ frames.head?, buffer.length < frame.length

/-- What has been received is the frames of the first packets, which are out, and the buffer. -/
def Delivered (frames : List (List σ)) (pkts : List π) (received : List σ) (out : List π)
    (buffer : List σ) : Prop :=
  ∃ m, out = pkts.take m ∧ (frames.take m).flatten ++ buffer = received ∧
    Below buffer (frames.drop m)

variable {attempt : Attempts σ π ε} {n : Nat} {frames : List (List σ)} {pkts : List π}

theorem Framed.drop (framed : Framed attempt n frames pkts) (m : Nat) (few : m ≤ frames.length) :
    Framed attempt (n + m) (frames.drop m) (pkts.drop m) := by
  induction m generalizing n frames pkts with
  | zero => exact framed
  | succ m ih =>
      cases framed with
      | nil => exact absurd few (Nat.not_succ_le_zero m)
      | cons _ _ later =>
          have next := ih later (Nat.le_of_succ_le_succ few)
          rw [Nat.add_assoc, Nat.add_comm 1 m] at next
          exact next

theorem Framed.length_eq (framed : Framed attempt n frames pkts) :
    pkts.length = frames.length := by
  induction framed with
  | nil => rfl
  | cons _ _ _ ih => rw [List.length_cons, List.length_cons, ih]

/-- Every frame has a symbol at least. -/
theorem Framed.eq_nil_of_below (framed : Framed attempt n frames pkts) {buffer : List σ}
    (all : buffer = frames.flatten) (below : Below buffer frames) : frames = [] := by
  cases framed with
  | nil => rfl
  | @cons _ frame frames _ _ _ _ _ =>
      have short := below frame rfl
      rw [all, List.flatten_cons, List.length_append] at short
      omega

/-- Draining the buffer: all the frames in it come out, and no packet before its frame is whole. -/
theorem drain_framed (framed : Framed attempt n frames pkts) {fuel : Nat} {buffer later : List σ}
    (enough : buffer.length < fuel) (stream : buffer ++ later = frames.flatten) :
    ∃ m ≤ frames.length, ∃ left, drain attempt fuel n buffer = .ok (pkts.take m, left) ∧
      (frames.take m).flatten ++ left = buffer ∧ Below left (frames.drop m) := by
  induction framed generalizing fuel buffer with
  | @nil n idle =>
      have empty : buffer = [] := (List.append_eq_nil_iff.mp stream).1
      refine ⟨0, Nat.zero_le _, [], ?_, empty.symm, fun frame mem => nomatch mem⟩
      rw [empty, List.length_nil] at enough
      obtain ⟨fuel, rfl⟩ := Nat.exists_eq_add_one.mpr enough
      rw [empty, drain, idle]
      rfl
  | @cons n frame frames pkt pkts nonempty first _ ih =>
      obtain ⟨fuel, rfl⟩ := Nat.exists_eq_add_one.mpr (Nat.zero_lt_of_lt enough)
      have front : buffer <+: frame ++ frames.flatten := ⟨later, stream⟩
      rcases Nat.lt_or_ge buffer.length frame.length with short | long
      · refine ⟨0, Nat.zero_le _, buffer, ?_, rfl, fun g mem => ?_⟩
        · obtain ⟨missing, whole⟩ :=
            List.prefix_of_prefix_length_le front (List.prefix_append _ _) (Nat.le_of_lt short)
          have isPart : missing ≠ [] := by
            rintro rfl
            rw [← whole, List.append_nil] at short
            exact absurd short (Nat.lt_irrefl _)
          rw [drain, first.part buffer missing isPart whole]
          rfl
        · cases mem
          exact short
      · obtain ⟨rest, rfl⟩ :=
          List.prefix_of_prefix_length_le (List.prefix_append _ _) front long
        have positive : 0 < frame.length := List.length_pos_iff.mpr nonempty
        rw [List.length_append] at enough
        rw [List.append_assoc, List.flatten_cons] at stream
        obtain ⟨m, few, left, drained, used, below⟩ :=
          ih (show rest.length < fuel by omega) (List.append_cancel_left stream)
        refine ⟨m + 1, Nat.succ_le_succ few, left, ?_, ?_, below⟩
        · rw [drain, first.whole rest]
          simp only [drained, List.take_succ_cons]
        · rw [List.take_succ_cons, List.flatten_cons, List.append_assoc, used]

/-- After each call the packets so far are those whose frames have been received, and the buffer is
the rest. -/
def Delivers (frames : List (List σ)) (pkts : List π) (buffer : List σ) (chunks : List (List σ))
    (calls : List (List π × List σ)) : Prop :=
  calls.length = chunks.length ∧ (calls.map Prod.fst).flatten = pkts ∧
    ∀ k call, calls[k]? = some call →
      Delivered frames pkts (buffer ++ (chunks.take (k + 1)).flatten)
        (((calls.take (k + 1)).map Prod.fst).flatten) call.2

/-- However the stream is cut, all the packets come out. -/
theorem run_framed (framed : Framed attempt n frames pkts) {buffer : List σ}
    {chunks : List (List σ)} (stream : buffer ++ chunks.flatten = frames.flatten)
    (below : Below buffer frames) :
    ∃ calls, run attempt n buffer chunks = .ok calls ∧
      Delivers frames pkts buffer chunks calls := by
  induction chunks generalizing n frames pkts buffer with
  | nil =>
      rw [List.flatten_nil, List.append_nil] at stream
      have empty := framed.eq_nil_of_below stream below
      subst empty
      cases framed
      exact ⟨[], rfl, rfl, rfl, fun k call mem => nomatch mem⟩
  | cons chunk chunks ih =>
      rw [List.flatten_cons, ← List.append_assoc] at stream
      obtain ⟨m, few, left, drained, used, below⟩ :=
        drain_framed framed (Nat.lt_succ_self _) stream
      have rest : left ++ chunks.flatten = (frames.drop m).flatten := by
        rw [← used, ← List.take_append_drop m frames, List.flatten_append, List.append_assoc,
          List.take_append_drop] at stream
        exact List.append_cancel_left stream
      have taken : (pkts.take m).length = m := by
        rw [List.length_take, framed.length_eq]
        omega
      obtain ⟨calls, ran, length, all, each⟩ := ih (framed.drop m few) rest below
      refine ⟨(pkts.take m, left) :: calls, ?_, ?_, ?_, ?_⟩
      · simp only [run, receive, drained, taken, ran]
      · rw [List.length_cons, List.length_cons, length]
      · rw [List.map_cons, List.flatten_cons, all, List.take_append_drop]
      · intro k call at_k
        cases k with
        | zero =>
            cases at_k
            refine ⟨m, ?_, ?_, below⟩
            · simp
            · simpa using used
        | succ k =>
            obtain ⟨m', out, received, below'⟩ := each k call at_k
            refine ⟨m + m', ?_, ?_, ?_⟩
            · rw [List.take_succ_cons, List.map_cons, List.flatten_cons, out, List.take_add]
            · rw [List.take_succ_cons, List.flatten_cons, ← List.append_assoc, ← used,
                List.append_assoc, ← received, List.take_add, List.flatten_append,
                List.append_assoc]
            · rw [← List.drop_drop]
              exact below'

end Framing
