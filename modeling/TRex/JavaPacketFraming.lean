import TRex.JavaUnmarshaller
import TRex.Lib.Framing

/-!
# Packets on the connections of the client

`BufferedPacketUnmarshaller.unmarshal`. `Unmarshaller.unmarshal` moves the offset before it knows
whether the packet is complete, and it decodes a body in the buffer and not in an array of its own.
The first does no harm because a new offset is made for each call and nothing is taken off the
buffer for a packet that is not there; for the second it is needed that the decoders do not look
behind what they read. `unmarshal_calls` says that the packets do not depend on the chunks.
-/

namespace TRex.Java

open Wire

namespace BufferedPacketUnmarshaller

/-- `CollectionUtils.subset`, which throws an exception for a range that is not in the array. -/
def subset (array : Bytes) (start length : Int) : Option Bytes :=
  if 0 ≤ start ∧ 0 ≤ length ∧ start + length ≤ array.length then
    some ((array.drop start.toNat).take length.toNat)
  else none

/-- The loop, with `fuel` as a bound on its rounds. It does not end where a packet leaves the buffer
as it is. -/
def unmarshalAll : Nat → Bytes → List TRexPkt → Option (List TRexPkt × Bytes)
  | 0, _, _ => none
  | fuel + 1, buffer, pkts =>
    match Unmarshaller.unmarshal buffer 0 with
    | none => none
    | some (none, _) => some (pkts, buffer)
    | some (some pkt, offset) =>
      match subset buffer offset (buffer.length - offset) with
      | none => none
      | some buffer => unmarshalAll fuel buffer (pkts ++ [pkt])

/-- `unmarshal`: the packets, and the buffer afterwards. -/
def unmarshal (buffer pktBytes : Bytes) (start length : Int) : Option (List TRexPkt × Bytes) :=
  if start < 0 ∨ start + length > pktBytes.length then none
  else match subset pktBytes start length with
    | none => none
    | some chunk => unmarshalAll ((buffer ++ chunk).length + 1) (buffer ++ chunk) []

/-- The arguments of a call. -/
structure UnmarshalCall where
  pktBytes : Bytes
  start : Nat
  length : Nat
  inside : start + length ≤ pktBytes.length

def UnmarshalCall.chunk (call : UnmarshalCall) : Bytes :=
  (call.pktBytes.drop call.start).take call.length

/-- Call after call: for each of them the packets and the buffer. -/
def unmarshalCalls : Bytes → List UnmarshalCall → Option (List (List TRexPkt × Bytes))
  | _, [] => some []
  | buffer, call :: calls =>
    match unmarshal buffer call.pktBytes call.start call.length with
    | none => none
    | some (pkts, buffer) => (unmarshalCalls buffer calls).map fun results =>
        (pkts, buffer) :: results

end BufferedPacketUnmarshaller

open BufferedPacketUnmarshaller Java.Marshaller

/-! ## Decoders do not look ahead -/

namespace Unmarshaller

theorem local_int : Local decodeInt := (Local.word 4).map _

theorem local_long : Local decodeLong := (Local.word 8).map _

theorem local_string : Local decodeString :=
  local_int.bind fun length => Local.require ((Local.take length.toNat).map _)

theorem local_valType : Local decodeValType := Local.byte.map _

theorem local_constraintOp : Local decodeConstraintOp := Local.byte.map _

theorem local_value (type : ValType) : Local (decodeValue type) := by
  cases type with
  | int => exact local_int.map _
  | float => exact ((Local.word 4).map _).map _
  | bool => exact (Local.byte.map _).map _
  | string => exact local_string.map _

theorem local_attribute : Local decodeAttribute :=
  local_string.bind fun _ => local_valType.bind fun type => (local_value type).map _

theorem local_constraint : Local decodeConstraint := by
  apply local_string.bind
  intro name
  apply local_constraintOp.bind
  intro op
  apply local_valType.bind
  intro type
  cases type with
  | int => exact local_int.map _
  | float => exact ((Local.word 4).map _).map _
  | bool => exact (Local.byte.map _).map _
  | string => exact local_string.map _

theorem local_collection {α : Type} {decode : Decoder α} (each : Local decode) :
    Local (decodeCollection decode) :=
  local_int.bind fun length => each.times length.toNat

theorem local_subPkt : Local decodeSubPkt :=
  local_int.bind fun _ => (local_collection local_constraint).map _

/-- The packets without trees. -/
theorem local_body {type : PacketType} (noRule : type ≠ .rulePacket) : Local (decodeBody type) := by
  cases type with
  | pubPacket =>
      have pub : Local decodePubPkt :=
        local_int.bind fun _ => local_long.bind fun _ => (local_collection local_attribute).map _
      exact pub.map _
  | subPacket => exact local_subPkt.map _
  | rulePacket => exact absurd rfl noRule
  | unsubPacket => exact ((Local.take _).bind fun _ => local_subPkt).map _
  | pingPacket => exact Local.pure _

end Unmarshaller

/-! ## Packets on the wire -/

/-- A packet that is not a rule: a body that can be decoded and is short enough for its length to be
written. -/
structure WirePacket where
  type : PacketType
  noRule : type ≠ .rulePacket
  body : Bytes
  short : body.length < 2 ^ 31
  wellFormed : ∃ pkt rest, Unmarshaller.decodeBody type body = some (pkt, rest)

namespace WirePacket

def bytes (packet : WirePacket) : Bytes :=
  encodePacketType packet.type ++ (encodeInt packet.body.length ++ packet.body)

/-- The packet that its own bytes are decoded to, all of them. -/
def Alone (packet : WirePacket) (pkt : TRexPkt) : Prop :=
  Unmarshaller.unmarshal packet.bytes 0 = some (some pkt, (packet.bytes.length : Int))

variable (packet : WirePacket)

theorem length_bytes : packet.bytes.length = 5 + packet.body.length := by
  rw [bytes, List.length_append, List.length_append, length_encodeInt]
  show 1 + (4 + _) = _
  omega

/-- A packet is decoded in one way, whatever follows it. -/
theorem unmarshal_bytes : ∃ pkt, ∀ rest,
    Unmarshaller.unmarshal (packet.bytes ++ rest) 0 =
      some (some pkt, (packet.bytes.length : Int)) := by
  obtain ⟨pkt, left, decoded⟩ := packet.wellFormed
  refine ⟨pkt, fun rest => ?_⟩
  rw [length_bytes, bytes, List.append_assoc, List.append_assoc,
    Unmarshaller.unmarshal_packet _ packet.short,
    Unmarshaller.local_body packet.noRule _ _ _ decoded rest, Option.map_some, Nat.cast_add]
  rfl

/-- As long as a byte is missing there is no packet, whether the header is there or not. -/
theorem unmarshal_part {begin missing : Bytes} (isPart : missing ≠ [])
    (whole : begin ++ missing = packet.bytes) :
    ∃ offset, Unmarshaller.unmarshal begin 0 = some (none, offset) := by
  have positive : 0 < missing.length := List.length_pos_iff.mpr isPart
  cases begin with
  | nil => exact ⟨0, rfl⟩
  | cons typeByte input =>
      obtain ⟨isType, behind⟩ : typeByte = UInt8.ofNat packet.type.toValue.toNat ∧
          input ++ missing = encodeInt packet.body.length ++ packet.body := List.cons.inj whole
      have header := Unmarshaller.unmarshal_header packet.type input
      rw [isType]
      rcases Nat.lt_or_ge input.length 4 with short | long
      · -- the type, and not the whole length
        rw [if_pos short] at header
        exact ⟨1, header⟩
      · -- the cut is inside the body
        have front : encodeInt packet.body.length <+: input := by
          apply List.prefix_of_prefix_length_le (List.prefix_append _ packet.body)
            ⟨missing, behind⟩
          rw [length_encodeInt]
          exact long
        obtain ⟨received, rfl⟩ := front
        have body : (received ++ missing).length = packet.body.length := by
          apply congrArg List.length
          rw [List.append_assoc] at behind
          exact List.append_cancel_left behind
        rw [List.length_append] at body
        rw [if_neg (by omega), Unmarshaller.reads_count packet.short, Option.bind_some,
          List.length_append, length_encodeInt, if_pos (by push_cast; omega)] at header
        exact ⟨5, header⟩

end WirePacket

/-! ## The loop takes packets off the buffer -/

/-- One round of the loop, on a buffer that begins with what has not been decoded. A packet that
takes no bytes would be found again without end. -/
def attempt : Framing.Attempts UInt8 TRexPkt Unit := fun _ buffer =>
  match Unmarshaller.unmarshal buffer 0 with
  | none => .error ()
  | some (none, _) => .ok none
  | some (some pkt, offset) =>
    if 0 < offset ∧ offset ≤ buffer.length then .ok (some (pkt, buffer.drop offset.toNat))
    else .error ()

theorem subset_suffix {buffer : Bytes} {offset : Int}
    (inside : 0 < offset ∧ offset ≤ buffer.length) :
    subset buffer offset (buffer.length - offset) = some (buffer.drop offset.toNat) := by
  rw [subset, if_pos (by omega), List.take_of_length_le]
  rw [List.length_drop]
  omega

/-- Draining the buffer is what the loop does. -/
theorem unmarshalAll_of_drain {fuel n : Nat} {buffer left : Bytes} {out : List TRexPkt}
    (drained : Framing.drain attempt fuel n buffer = .ok (out, left))
    (enough : buffer.length < fuel) (pkts : List TRexPkt) :
    unmarshalAll fuel buffer pkts = some (pkts ++ out, left) := by
  induction fuel generalizing n buffer out pkts with
  | zero => exact absurd enough (Nat.not_lt_zero _)
  | succ fuel ih =>
      rw [Framing.drain] at drained
      rw [unmarshalAll]
      cases found : Unmarshaller.unmarshal buffer 0 with
      | none =>
          rw [attempt, found] at drained
          cases drained
      | some result =>
          rcases result with ⟨_ | pkt, offset⟩
          · simp only [attempt, found] at drained
            cases drained
            simp only [List.append_nil]
          · by_cases inside : 0 < offset ∧ offset ≤ buffer.length
            · simp only [attempt, found, if_pos inside] at drained
              simp only [subset_suffix inside]
              cases later : Framing.drain attempt fuel (n + 1) (buffer.drop offset.toNat) with
              | error e =>
                  rw [later] at drained
                  cases drained
              | ok result =>
                  rw [later] at drained
                  cases drained
                  rw [ih later (by rw [List.length_drop]; omega), List.append_assoc]
                  rfl
            · simp only [attempt, found, if_neg inside] at drained
              cases drained

/-- Calls with the chunks of a stream. -/
theorem unmarshalCalls_of_run {calls : List UnmarshalCall} {n : Nat} {buffer : Bytes}
    {results : List (List TRexPkt × Bytes)}
    (ran : Framing.run attempt n buffer (calls.map UnmarshalCall.chunk) = .ok results) :
    unmarshalCalls buffer calls = some results := by
  induction calls generalizing n buffer results with
  | nil =>
      cases ran
      rfl
  | cons call calls ih =>
      have chunk : subset call.pktBytes call.start call.length = some call.chunk := by
        have := call.inside
        rw [subset, if_pos (by omega), Int.toNat_natCast, Int.toNat_natCast]
        rfl
      have valid : ¬ ((call.start : Int) < 0 ∨
          (call.start : Int) + call.length > call.pktBytes.length) := by
        have := call.inside
        omega
      rw [List.map_cons, Framing.run, Framing.receive] at ran
      rw [unmarshalCalls, unmarshal, if_neg valid, chunk]
      cases drained : Framing.drain attempt ((buffer ++ call.chunk).length + 1) n
          (buffer ++ call.chunk) with
      | error e =>
          rw [drained] at ran
          cases ran
      | ok result =>
          rcases result with ⟨pkts, left⟩
          simp only [drained] at ran
          simp only [unmarshalAll_of_drain drained (Nat.lt_succ_self _), List.nil_append]
          cases later : Framing.run attempt (n + pkts.length) left
            (calls.map UnmarshalCall.chunk) with
          | error e =>
              rw [later] at ran
              cases ran
          | ok more =>
              rw [later] at ran
              cases ran
              rw [ih later, Option.map_some]

/-! ## The stream -/

/-- Packets one after the other are a framed stream. -/
theorem framed_packets (n : Nat) (packets : List WirePacket) :
    ∃ pkts, Framing.Framed attempt n (packets.map WirePacket.bytes) pkts ∧
      List.Forall₂ WirePacket.Alone packets pkts := by
  induction packets generalizing n with
  | nil => exact ⟨[], .nil rfl, .nil⟩
  | cons first packets ih =>
      obtain ⟨pkts, framed, alone⟩ := ih (n + 1)
      obtain ⟨pkt, whole⟩ := first.unmarshal_bytes
      have frame : Framing.Frame attempt n first.bytes pkt := by
        constructor
        · intro rest
          have positive := first.length_bytes
          rw [attempt, whole]
          simp only [List.length_append]
          rw [if_pos (by push_cast; omega), Int.toNat_natCast, List.drop_left]
        · intro begin missing isPart all
          obtain ⟨offset, waits⟩ := first.unmarshal_part isPart all
          rw [attempt, waits]
      have own := whole []
      rw [List.append_nil] at own
      exact ⟨pkt :: pkts, .cons (List.cons_ne_nil _ _) frame framed, .cons own alone⟩

/-- However the bytes of a sequence of packets are cut into chunks, the calls of `unmarshal` return
the packets that the bytes of each are decoded to, in order; and after each call the buffer holds
the bytes behind the packets returned so far, fewer than the next packet has. -/
theorem unmarshal_calls (packets : List WirePacket) (calls : List UnmarshalCall)
    (cut : (calls.map UnmarshalCall.chunk).flatten = (packets.map WirePacket.bytes).flatten) :
    ∃ pkts results, unmarshalCalls [] calls = some results ∧
      List.Forall₂ WirePacket.Alone packets pkts ∧
      Framing.Delivers (packets.map WirePacket.bytes) pkts [] (calls.map UnmarshalCall.chunk)
        results := by
  obtain ⟨pkts, framed, alone⟩ := framed_packets 0 packets
  have below : Framing.Below [] (packets.map WirePacket.bytes) := by
    intro frame mem
    rw [List.head?_map] at mem
    obtain ⟨packet, -, rfl⟩ := Option.mem_map.mp mem
    exact Nat.succ_pos _
  rw [← List.nil_append (calls.map UnmarshalCall.chunk).flatten] at cut
  obtain ⟨results, ran, delivers⟩ := Framing.run_framed framed cut below
  exact ⟨pkts, results, unmarshalCalls_of_run ran, alone, delivers⟩

/-- An event of type 1 without attributes. -/
def bareEvent : PubPkt := ⟨1, 5, []⟩

theorem bareEvent_sent : bareEvent.Sent :=
  ⟨by decide, by decide, Nat.two_pow_pos 31, fun a mem => (List.not_mem_nil mem).elim⟩

theorem decodeBody_bareEvent :
    Unmarshaller.decodeBody .pubPacket (encodePubBody bareEvent) = some (.pub bareEvent, []) := by
  have reads := ((Unmarshaller.reads_pubPkt bareEvent_sent).map TRexPkt.pub) []
  rw [List.append_nil] at reads
  exact reads

def pingThenEvent : List WirePacket :=
  [⟨.pingPacket, by decide, [], by decide, .ping, [], rfl⟩,
   ⟨.pubPacket, by decide, encodePubBody bareEvent, by decide, _, _, decodeBody_bareEvent⟩]

/-- The first call ends inside the length of the ping, the second behind the type of the event, the
third inside its body. -/
def pingThenEventCalls : List UnmarshalCall :=
  [⟨[101, 0, 0], 0, 3, by decide⟩, ⟨[7, 0, 0, 0, 7], 1, 3, by decide⟩,
   ⟨[0, 0, 0, 16, 0, 0, 0, 1, 0], 0, 9, by decide⟩,
   ⟨[0, 0, 0, 0, 0, 0, 5, 0, 0, 0, 0], 0, 11, by decide⟩]

theorem pingThenEvent_delivered :
    ∃ pkts results, unmarshalCalls [] pingThenEventCalls = some results ∧
      List.Forall₂ WirePacket.Alone pingThenEvent pkts ∧
      Framing.Delivers (pingThenEvent.map WirePacket.bytes) pkts []
        (pingThenEventCalls.map UnmarshalCall.chunk) results :=
  unmarshal_calls pingThenEvent pingThenEventCalls (by rfl)

end TRex.Java
