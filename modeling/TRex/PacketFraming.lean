import TRex.Lib.Framing
import TRex.PacketFormat
import TRex.RuleCodec
import TRex.RuleMarshaller

/-!
# Packets on the connections of the server

`BufferedPacketUnmarshaller::unmarshal`, which the server calls with every chunk that it reads from
a connection. The decoder of a body gets a pointer into the buffer and not the body: it is the
format of the bodies that keeps it from reading the packets behind. `unmarshal_chunks` says that the
packets that come out do not depend on the chunks. -/

namespace TRex

open Wire

namespace BufferedPacketUnmarshaller

/-- What ends `unmarshalOne` without a result: its own exception, or a decoder that stops. -/
inductive Failure
  | logicError (what : String)
  | body (stop : Stop)

/-- A packet, and the buffer without the processed bytes; nothing as long as bytes are missing. -/
def unmarshalOne (around : Surroundings) (bytes : Bytes) : Except Failure (Option (Pkt × Bytes)) :=
  match acceptHeader bytes with
  | .error what => .error (.logicError what)
  | .ok none => .ok none
  | .ok (some (type, _, rest)) =>
    -- behind type and length the decoder has the whole buffer before it
    match watchBody around type (bytes.drop 5) with
    | .error stop => .error (.body stop)
    | .ok (pkt, _) => .ok (some (pkt, rest))

/-- `unmarshal` and `unmarshalAll`, for a connection on which `n` packets have been received. -/
def unmarshal (around : Nat → Surroundings) (n : Nat) (buffer chunk : Bytes) :
    Except Failure (List Pkt × Bytes) :=
  Framing.receive (fun n => unmarshalOne (around n)) n buffer chunk

/-- The calls for the chunks of a connection: packets and buffer after each of them. -/
def unmarshalChunks (around : Nat → Surroundings) (chunks : List Bytes) :
    Except Failure (List (List Pkt × Bytes)) :=
  Framing.run (fun n => unmarshalOne (around n)) 0 [] chunks

end BufferedPacketUnmarshaller

open BufferedPacketUnmarshaller

/-! ## Packets on the wire -/

/-- Type and body: a packet of the type, with bytes behind it if the length in the header says so,
and short enough for its length to be written. -/
structure WirePacket where
  type : PacketType
  body : Bytes
  short : body.length < 2 ^ 31
  wellFormed : Starts (Format.body type) body

def WirePacket.bytes (packet : WirePacket) : Bytes :=
  packet.type.toByte :: Marshaller.encodeInt packet.body.length ++ packet.body

/-- The packet that its own bytes are decoded to. -/
def WirePacket.Alone (packet : WirePacket) (around : Surroundings) (pkt : Pkt) : Prop :=
  unmarshalOne around packet.bytes = .ok (some (pkt, []))

/-! ## Headers -/

theorem decodePktType_toByte (type : PacketType) : decodePktType type.toByte = .ok type := by
  cases type <;> rfl

theorem decodePktLength_natCast {n : Nat} (small : n < 2 ^ 31) : decodePktLength n = n := by
  unfold decodePktLength
  omega

/-- The length is not known before it is there. -/
theorem decodeInt_short {input : Bytes} (short : input.length < 4) :
    Unmarshaller.decodeInt input = none := Format.fixed_int.short short

section Packet

variable (packet : WirePacket)

/-- A whole packet passes the checks, with its own body. -/
theorem acceptHeader_bytes (rest : Bytes) :
    acceptHeader (packet.bytes ++ rest) = .ok (some (packet.type, packet.body, rest)) := by
  have length := Unmarshaller.reads_count packet.short (packet.body ++ rest)
  rw [WirePacket.bytes, List.cons_append, List.cons_append, List.append_assoc, acceptHeader,
    decodePktType_toByte]
  simp only [length, decodePktLength_natCast packet.short]
  rw [if_neg (by simp), List.take_left, List.drop_left]

/-- As long as a byte is missing there is nothing to decode. -/
theorem acceptHeader_part {begin missing : Bytes} (isPart : missing ≠ [])
    (whole : begin ++ missing = packet.bytes) : acceptHeader begin = .ok none := by
  have positive : 0 < missing.length := List.length_pos_iff.mpr isPart
  cases begin with
  | nil => rfl
  | cons byte begin =>
      rw [WirePacket.bytes, List.cons_append, List.cons_append] at whole
      obtain ⟨rfl, behind⟩ := List.cons.inj whole
      rw [acceptHeader, decodePktType_toByte]
      rcases Nat.lt_or_ge begin.length 4 with short | long
      · simp only [decodeInt_short short]
      · -- the cut is inside the body
        have front : Marshaller.encodeInt packet.body.length <+: begin := by
          refine List.prefix_of_prefix_length_le (List.prefix_append _ packet.body)
            ⟨missing, behind⟩ ?_
          rw [Marshaller.length_encodeInt]
          exact long
        obtain ⟨received, rfl⟩ := front
        have length := Unmarshaller.reads_count packet.short received
        rw [List.append_assoc] at behind
        have body := congrArg List.length (List.append_cancel_left behind)
        rw [List.length_append] at body
        simp only [length, decodePktLength_natCast packet.short]
        rw [if_pos (by omega)]

/-- Behind the header the body follows. -/
theorem drop_bytes (rest : Bytes) : (packet.bytes ++ rest).drop 5 = packet.body ++ rest := by
  rw [WirePacket.bytes, List.cons_append, List.cons_append, List.append_assoc, List.drop_succ_cons,
    List.drop_left' (Marshaller.length_encodeInt _)]

/-- A packet is decoded in one way, whatever follows it. -/
theorem exists_frame (around : Surroundings) :
    ∃ pkt, ∀ rest, unmarshalOne around (packet.bytes ++ rest) = .ok (some (pkt, rest)) := by
  obtain ⟨written, mem, unused, body⟩ := packet.wellFormed
  obtain ⟨pkt, spells⟩ := (Format.body_follows around packet.type).complete written mem
  refine ⟨pkt, fun rest => ?_⟩
  have read := spells (unused ++ rest)
  rw [← List.append_assoc, body] at read
  simp only [unmarshalOne, acceptHeader_bytes, drop_bytes, read]

theorem unmarshalOne_part (around : Surroundings) {begin missing : Bytes} (isPart : missing ≠ [])
    (whole : begin ++ missing = packet.bytes) : unmarshalOne around begin = .ok none := by
  simp only [unmarshalOne, acceptHeader_part packet isPart whole]

end Packet

/-! ## The stream -/

/-- Packets one after the other are a framed stream. -/
theorem framed_packets (around : Nat → Surroundings) (n : Nat) (packets : List WirePacket) :
    ∃ pkts, Framing.Framed (fun n => unmarshalOne (around n)) n
      (packets.map WirePacket.bytes) pkts ∧
      ∀ i (packet : WirePacket), packets[i]? = some packet →
        ∃ pkt, pkts[i]? = some pkt ∧ packet.Alone (around (n + i)) pkt := by
  induction packets generalizing n with
  | nil => exact ⟨[], .nil rfl, fun i packet mem => nomatch mem⟩
  | cons first packets ih =>
      obtain ⟨pkts, framed, alone⟩ := ih (n + 1)
      obtain ⟨pkt, whole⟩ := exists_frame first (around n)
      refine ⟨pkt :: pkts, .cons ?_ ⟨whole, ?_⟩ framed, ?_⟩
      · exact List.cons_ne_nil _ _
      · intro begin missing isPart all
        exact unmarshalOne_part first (around n) isPart all
      · intro i packet at_i
        cases i with
        | zero =>
            cases at_i
            have own := whole []
            rw [List.append_nil] at own
            exact ⟨pkt, rfl, own⟩
        | succ i =>
            obtain ⟨later, at_later, isAlone⟩ := alone i packet at_i
            rw [Nat.add_assoc, Nat.add_comm 1 i] at isAlone
            exact ⟨later, at_later, isAlone⟩

/-- However the bytes of a sequence of packets are cut into chunks, the calls of `unmarshal` return
the packets that the bytes of each are decoded to, in order; and after each call the buffer holds
the bytes behind the packets returned so far, fewer than the next packet has. -/
theorem unmarshal_chunks (around : Nat → Surroundings) (packets : List WirePacket)
    (chunks : List Bytes) (cut : chunks.flatten = (packets.map WirePacket.bytes).flatten) :
    ∃ pkts calls, unmarshalChunks around chunks = .ok calls ∧
      pkts.length = packets.length ∧
      (∀ i (packet : WirePacket), packets[i]? = some packet →
        ∃ pkt, pkts[i]? = some pkt ∧ packet.Alone (around i) pkt) ∧
      Framing.Delivers (packets.map WirePacket.bytes) pkts [] chunks calls := by
  obtain ⟨pkts, framed, alone⟩ := framed_packets around 0 packets
  have below : Framing.Below [] (packets.map WirePacket.bytes) := by
    intro frame mem
    rw [List.head?_map] at mem
    obtain ⟨packet, -, rfl⟩ := Option.mem_map.mp mem
    exact Nat.succ_pos _
  rw [← List.nil_append chunks.flatten] at cut
  obtain ⟨calls, ran, delivers⟩ := Framing.run_framed framed cut below
  refine ⟨pkts, calls, ran, ?_, ?_, delivers⟩
  · rw [framed.length_eq, List.length_map]
  · intro i packet at_i
    have own := alone i packet at_i
    rw [Nat.zero_add] at own
    exact own

theorem ping_short : ([] : Bytes).length < 2 ^ 31 := by decide

theorem ping_starts : Starts (Format.body .pingPacket) [] :=
  ⟨[], Language.nil_mem_one, List.nil_prefix⟩

theorem plainSubscription_short : ([0, 0, 0, 1, 0, 0, 0, 0] : Bytes).length < 2 ^ 31 := by decide

theorem plainSubscription_starts : Starts (Format.body .subPacket) [0, 0, 0, 1, 0, 0, 0, 0] :=
  ⟨_, plainSubscription_mem, List.prefix_rfl⟩

/-- A ping and a subscription to events of type 1. -/
def pingThenSubscription : List WirePacket :=
  [⟨.pingPacket, [], ping_short, ping_starts⟩,
   ⟨.subPacket, [0, 0, 0, 1, 0, 0, 0, 0], plainSubscription_short, plainSubscription_starts⟩]

/-- Cut twice inside a header and once inside a body, with an empty chunk. -/
def pingThenSubscriptionChunks : List Bytes :=
  [[101, 0, 0], [], [0, 0, 2, 0, 0], [0, 8, 0, 0, 0, 1], [0, 0, 0, 0]]

theorem pingThenSubscription_delivered :
    ∃ pkts calls,
      unmarshalChunks (fun _ => bareSurroundings) pingThenSubscriptionChunks = .ok calls ∧
        pkts.length = 2 ∧ Framing.Delivers (pingThenSubscription.map WirePacket.bytes) pkts []
          pingThenSubscriptionChunks calls := by
  obtain ⟨pkts, calls, ran, length, -, delivers⟩ := unmarshal_chunks (fun _ => bareSurroundings)
    pingThenSubscription pingThenSubscriptionChunks (by rfl)
  exact ⟨pkts, calls, ran, length, delivers⟩

end TRex
