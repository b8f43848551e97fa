import TRex.WatchedUnmarshaller

/-!
# The packets of the server

`Packet/Pkt.hpp` and the decoders of `Packet/BufferedPacketUnmarshaller`: the packets that clients
and server exchange, the checks on their headers, and for each type the decoder of its body.
-/

namespace TRex

open Wire

/-- `concept::packet::PktType`. -/
inductive PacketType
  | rulePacket | pubPacket | subPacket | unsubPacket | pingPacket
  deriving DecidableEq

def PacketType.toByte : PacketType → UInt8
  | .rulePacket => 1
  | .pubPacket => 0
  | .subPacket => 2
  | .unsubPacket => 100
  | .pingPacket => 101

/-- `concept::packet::PktPtr`. -/
inductive Pkt
  | rule (pkt : RulePkt)
  | pub (pkt : PubPkt)
  | sub (pkt : SubPkt)
  | unsub (subPkt : SubPkt)
  | ping
  deriving DecidableEq

/-- What a decoder uses besides the bytes: the clock, the counter of the rules and what happens to
be in the members it leaves unset. -/
structure Surroundings where
  now : Nat
  lastId : Nat
  pad : Nat
  junk : Constraint

namespace BufferedPacketUnmarshaller

/-! ## Headers -/

/-- The error is the text of the exception. -/
def decodePktType (byte : UInt8) : Except String PacketType :=
  if byte = 1 then .ok .rulePacket
  else if byte = 0 then .ok .pubPacket
  else if byte = 2 then .ok .subPacket
  else if byte = 101 then .ok .pingPacket
  else if byte = 100 then .ok .unsubPacket
  else .error "Packet type not existent or not handled."

/-- The length as a `size_t`: a negative one is huge. -/
def decodePktLength (length : Int) : Nat := (length % 2 ^ 64).toNat

/-- The checks of `unmarshalOne`: nothing as long as type, length or body are not complete, else the
type, the body that the length declares, and what follows. -/
def acceptHeader (bytes : Bytes) : Except String (Option (PacketType × Bytes × Bytes)) :=
  match bytes with
  | [] => .ok none
  | byte :: afterType =>
    match decodePktType byte with
    | .error e => .error e
    | .ok type =>
      match Unmarshaller.decodeInt afterType with
      | none => .ok none
      | some (length, afterLength) =>
        let pktLength := decodePktLength length
        if afterLength.length < pktLength then .ok none
        else .ok (some (type, afterLength.take pktLength, afterLength.drop pktLength))

/-! ## Bodies -/

variable (around : Surroundings)

/-- The type and the length of the subscription inside are skipped. -/
def decodeUnSubPkt : Decoder SubPkt := do
  let _ ← take 5
  Unmarshaller.decodeSubPkt around.junk

/-- The decoder of the body of a packet. -/
def decodeBody : PacketType → Decoder Pkt
  | .pubPacket => do return .pub (← Unmarshaller.decodePubPkt around.now around.pad)
  | .rulePacket => do
    return .rule (← Unmarshaller.decodeRulePkt around.now around.pad around.lastId around.junk)
  | .subPacket => do return .sub (← Unmarshaller.decodeSubPkt around.junk)
  | .unsubPacket => do return .unsub (← decodeUnSubPkt around)
  | .pingPacket => return .ping

/-- The same decoder, watched. Where the body is too short to skip the inner header, the first field
behind it lies outside. -/
def watchBody : PacketType → Watched Stop Pkt
  | .pubPacket => do return .pub (← WatchedUnmarshaller.decodePubPkt around.now around.pad)
  | .rulePacket => do
    return .rule
      (← WatchedUnmarshaller.decodeRulePkt around.now around.pad around.lastId around.junk)
  | .subPacket => do return .sub (← WatchedUnmarshaller.decodeSubPkt around.junk)
  | .unsubPacket => do
    let _ ← Watched.take .past 5
    return .unsub (← WatchedUnmarshaller.decodeSubPkt around.junk)
  | .pingPacket => return .ping

/-- What the watched decoder returns is what the decoder returns. -/
theorem decodeBody_of_watchBody {type : PacketType} {input rest : Bytes} {pkt : Pkt}
    (read : watchBody around type input = .ok (pkt, rest)) :
    decodeBody around type input = some (pkt, rest) := by
  have erased : Watched.erase (watchBody around type) input = some (pkt, rest) := by
    rw [Watched.erase, read]
    rfl
  cases type with
  | rulePacket =>
      rw [watchBody, Watched.erase_bind] at erased
      obtain ⟨v, mid, first, done⟩ := bind_eq_some.mp erased
      exact bind_eq_some.mpr ⟨v, mid, WatchedUnmarshaller.decodeRulePkt_some first, done⟩
  | pubPacket =>
      simpa only [watchBody, decodeBody, Watched.erase_bind, Watched.erase_pure,
        WatchedUnmarshaller.erase_decodePubPkt] using erased
  | subPacket =>
      simpa only [watchBody, decodeBody, Watched.erase_bind, Watched.erase_pure,
        WatchedUnmarshaller.erase_decodeSubPkt] using erased
  | unsubPacket =>
      simpa only [watchBody, decodeBody, decodeUnSubPkt, Watched.erase_bind, Watched.erase_pure,
        Watched.erase_take, WatchedUnmarshaller.erase_decodeSubPkt, bind_assoc] using erased
  | pingPacket => exact erased

end BufferedPacketUnmarshaller

end TRex
