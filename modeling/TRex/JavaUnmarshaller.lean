import TRex.RuleCodec

/-!
# Packets of the Java client

The packets of `polimi.trex.packets` that have no part in rules, what `Marshaller` writes for them,
and `Unmarshaller`, which the client reads with. A decoder gets the array from an index on; it fails
where the source throws, that is behind the end of the array and for arrays of negative size. The
classes have further members, which their constructors set to fixed values: `Constraint` and
`Attribute` hold 0, `false` and the empty string for the types they do not have. -/

namespace TRex.Java

open Wire

/-! ## Packets -/

/-- A publication of the client. -/
structure PubPkt where
  eventType : Int
  timeStamp : Int
  attributes : List Attribute

/-- The matcher of a subscription is not sent. -/
structure SubPkt where
  eventType : Int
  constraints : List Constraint

/-- The packets that the client reads and writes. -/
inductive TRexPkt
  | pub (pkt : PubPkt)
  | rule (pkt : RulePkt)
  | sub (pkt : SubPkt)
  | unsub (subPkt : SubPkt)
  | ping

/-- The enumeration `PktType` of the client. -/
inductive PacketType
  | pubPacket | subPacket | rulePacket | unsubPacket | pingPacket
  deriving DecidableEq

namespace PacketType

/-- The tag of a packet. `UNSUB` and `PING` are the client's own. -/
def toValue : PacketType → Int
  | .pubPacket => 0
  | .subPacket => 2
  | .rulePacket => 1
  | .unsubPacket => 100
  | .pingPacket => 101

/-- The constants in the order in which they are declared. -/
def values : List PacketType := [.pubPacket, .subPacket, .rulePacket, .unsubPacket, .pingPacket]

/-- Throws an exception if no packet has the value. -/
def fromValue (value : Int) : Option PacketType :=
  values.find? fun packetType => packetType.toValue == value

end PacketType

namespace Marshaller

/-- One byte. -/
def encodePacketType (source : PacketType) : Bytes := [UInt8.ofNat source.toValue.toNat]

/-- The length that is sent in front of a publication. -/
def getNumBytesPub (pkt : PubPkt) : Nat :=
  4 + 8 + getNumBytesCollection getNumBytesAttribute pkt.attributes

/-- What follows the type and the length of a publication. -/
def encodePubBody (source : PubPkt) : Bytes :=
  encodeInt source.eventType ++ (encodeLong source.timeStamp ++
    encodeCollection encodeAttribute source.attributes)

/-- A whole publication: type, length and body. -/
def encodePub (source : PubPkt) : Bytes :=
  encodePktType .pubPkt ++ (encodeInt (getNumBytesPub source) ++ encodePubBody source)

/-- The length that is sent in front of a subscription. -/
def getNumBytesSub (pkt : SubPkt) : Nat :=
  4 + getNumBytesCollection getNumBytesConstraint pkt.constraints

/-- What follows the type and the length of a subscription. -/
def encodeSubBody (source : SubPkt) : Bytes :=
  encodeInt source.eventType ++ encodeCollection encodeConstraint source.constraints

/-- A whole subscription: type, length and body. -/
def encodeSub (source : SubPkt) : Bytes :=
  encodePktType .subPkt ++ (encodeInt (getNumBytesSub source) ++ encodeSubBody source)

/-- The body is the whole subscription packet. -/
def encodeUnSub (subPkt : SubPkt) : Bytes :=
  encodePacketType .unsubPacket ++
    (encodeInt (1 + 4 + getNumBytesSub subPkt : Nat) ++ encodeSub subPkt)

theorem length_encodePubBody (pkt : PubPkt) : (encodePubBody pkt).length = getNumBytesPub pkt := by
  simp only [encodePubBody, getNumBytesPub, List.length_append, length_encodeInt, length_encodeLong,
    length_encodeCollection length_encodeAttribute]
  omega

theorem length_encodeSubBody (pkt : SubPkt) : (encodeSubBody pkt).length = getNumBytesSub pkt := by
  simp only [encodeSubBody, getNumBytesSub, List.length_append, length_encodeInt,
    length_encodeCollection length_encodeConstraint]

end Marshaller

/-! ## Decoding -/

namespace Unmarshaller

/-- Everything but 1 is false. -/
def decodeBoolean : Decoder Bool := do return (← byte) == 1

/-- Four bytes put together as a signed number. -/
def decodeInt : Decoder Int := do return wrap32 (← word 4)

/-- The bits, through an `int`. -/
def decodeFloat : Decoder CFloat := do return UInt32.ofNat (← word 4)

/-- Eight bytes put together as a signed number. -/
def decodeLong : Decoder Int := do return Int.bmod (← word 8) (2 ^ 64)

/-- `(char)` of a `byte` extends its sign. -/
def decodeChar (b : UInt8) : Char :=
  Char.ofNat (if b.toNat < 128 then b.toNat else 0xff00 + b.toNat)

/-- The characters, of which none ends the string. No array has a negative length. -/
def decodeString : Decoder CString := do
  let length ← decodeInt
  require (0 ≤ length)
  return (← take length.toNat).map decodeChar

/-- Everything unknown is `ALL_WITHIN`. -/
def decodeCompKind : Decoder CompKind := do
  return match ← byte with
    | 0 => .eachWithin
    | 1 => .firstWithin
    | 2 => .lastWithin
    | _ => .allWithin

/-- Everything unknown is `IN`. -/
def decodeConstraintOp : Decoder Op := do
  return match ← byte with
    | 0 => .eq
    | 1 => .lt
    | 2 => .gt
    | 3 => .ne
    | 4 => .in_
    | 5 => .le
    | 6 => .ge
    | _ => .in_

/-- Everything unknown is `AGG`. -/
def decodeStateType : Decoder StateType := do
  return match ← byte with
    | 0 => .state
    | 1 => .neg
    | _ => .agg

/-- Everything unknown is `SUM`. -/
def decodeAggregateFun : Decoder AggregateFun := do
  return match ← byte with
    | 0 => .none
    | 1 => .avg
    | 2 => .count
    | 3 => .min
    | 4 => .max
    | _ => .sum

/-- Everything unknown is `OR`. -/
def decodeOp : Decoder OpTreeOperation := do
  return match ← byte with
    | 0 => .add
    | 1 => .sub
    | 2 => .mul
    | 3 => .div
    | 4 => .and
    | _ => .or

/-- Everything unknown is `STRING`. -/
def decodeValType : Decoder ValType := do
  return match ← byte with
    | 0 => .int
    | 1 => .float
    | 2 => .bool
    | _ => .string

/-- The constructor for the type sets the other members to their fixed values. -/
def decodeConstraint : Decoder Constraint := do
  let name ← decodeString
  let op ← decodeConstraintOp
  let type ← decodeValType
  let c : Constraint :=
    { name, op, type, intVal := 0, floatVal := 0, boolVal := false, stringVal := [] }
  match type with
  | .int => return { c with intVal := ← decodeInt }
  | .float => return { c with floatVal := ← decodeFloat }
  | .bool => return { c with boolVal := ← decodeBoolean }
  | .string => return { c with stringVal := ← decodeString }

/-- The value that follows a type. -/
def decodeValue : ValType → Decoder Value
  | .int => do return .int (← decodeInt)
  | .float => do return .float (← decodeFloat)
  | .bool => do return .bool (← decodeBoolean) 0
  | .string => do return .string (← decodeString)

/-- Name, type and value, of any length. -/
def decodeAttribute : Decoder Attribute := do
  let name ← decodeString
  let type ← decodeValType
  let value ← decodeValue type
  return ⟨name, value⟩

/-- A loop that adds elements to a list; a negative number of them is none. -/
def decodeCollection {α : Type} (decode : Decoder α) : Decoder (List α) := do
  let length ← decodeInt
  times decode length.toNat

/-- One state of a rule. -/
def decodeEventPredicate : Decoder EventPredicate := do
  let eventType ← decodeInt
  let constraints ← decodeCollection decodeConstraint
  let refersTo ← decodeInt
  let win ← decodeLong
  let kind ← decodeCompKind
  return { eventType, constraints, refersTo, win, kind }

/-- A reference to the rule. Neither its kind nor a static value is expected. -/
def decodeValueReference : Decoder OpValueReference := do
  let idx ← decodeInt
  let sType ← decodeStateType
  let name ← decodeString
  return .rulePkt idx sType name

/-- Every node takes two bytes at least, so the recursion is never deeper than the array is long. -/
def decodeOpTreeWithin : Nat → Decoder OpTree
  | 0 => fail
  | fuel + 1 => do
    let type ← byte
    let valType ← decodeValType
    match type with
    | 0 => return .leaf (← decodeValueReference) valType
    | _ =>
      let leftTree ← decodeOpTreeWithin fuel
      let rightTree ← decodeOpTreeWithin fuel
      let op ← decodeOp
      return .inner leftTree rightTree op valType

/-- The recursion of the source, whose depth the array bounds. -/
def decodeOpTree : Decoder OpTree := fun source => decodeOpTreeWithin source.length source

/-- The operator, what the parameter is about, its type and its two sides. -/
def decodeParameter : Decoder ComplexParameter := do
  let operation ← decodeConstraintOp
  let sType ← decodeStateType
  let type ← decodeValType
  let leftTree ← decodeOpTree
  let rightTree ← decodeOpTree
  return { operation, sType, type, leftTree, rightTree }

/-- The constructors for states and for a time leave the other lower bound at its default. -/
def decodeNegation : Decoder Negation := do
  let eventType ← decodeInt
  let constraints ← decodeCollection decodeConstraint
  let lowerId ← decodeInt
  let lowerTime ← decodeLong
  let upperId ← decodeInt
  if lowerId ≥ 0 then return { eventType, constraints, lowerId, lowerTime := 0, upperId }
  else return { eventType, constraints, lowerId := -1, lowerTime, upperId }

/-- The lower bounds as for a negation, followed by the function and the attribute. -/
def decodeAggregate : Decoder TAggregate := do
  let eventType ← decodeInt
  let constraints ← decodeCollection decodeConstraint
  let lowerId ← decodeInt
  let lowerTime ← decodeLong
  let upperId ← decodeInt
  let fun_ ← decodeAggregateFun
  let name ← decodeString
  if lowerId ≥ 0 then
    return { eventType, constraints, lowerId, lowerTime := 0, upperId, fun_, name }
  else return { eventType, constraints, lowerId := -1, lowerTime, upperId, fun_, name }

/-- A computed attribute: its name and its tree. -/
def decodeEventTemplateAttr : Decoder (CString × OpTree) := do
  let name ← decodeString
  let value ← decodeOpTree
  return (name, value)

/-- Nothing is read behind the attributes. -/
def decodeEventTemplate : Decoder EventTemplate := do
  let eventType ← decodeInt
  let attributes ← decodeCollection decodeEventTemplateAttr
  return { eventType, attributes, staticAttributes := [] }

/-- A `TreeMap` of what is read, a later value for a key in the place of an earlier one; its values
by increasing key. -/
def decodeMap {α : Type} (decode : Decoder α) : Decoder (List α) := do
  let length ← decodeInt
  let entries ← times (do
    let key ← decodeInt
    let value ← decode
    return (key, value)) length.toNat
  let map := entries.foldl (fun m e => OrdMap.put (fun a b => decide (a < b)) e.1 e.2 m) []
  return map.map Prod.snd

/-- `add` of a set: nothing is there twice. -/
def addConsuming (consuming : List Int) (consumingIndex : Int) : List Int :=
  if consumingIndex ∈ consuming then consuming else consuming ++ [consumingIndex]

/-- The protected `decodeRulePkt`. -/
def decodeNewRulePkt : Decoder RulePkt := do
  let predicates ← decodeMap decodeEventPredicate
  let parameters ← decodeMap decodeParameter
  let aggregates ← decodeMap decodeAggregate
  let negations ← decodeMap decodeNegation
  let eventTemplate ← decodeEventTemplate
  let consuming ← decodeCollection decodeInt
  return { predicates, parameters, negations, aggregates
           consuming := consuming.foldl addConsuming [], eventTemplate }

/-- The copy constructor of `RulePkt`: it takes the template over, and nothing else. -/
def copyRulePkt (trexRulePkt : RulePkt) : RulePkt :=
  { predicates := [], parameters := [], negations := [], aggregates := [], consuming := []
    eventTemplate := trexRulePkt.eventTemplate }

/-- The public `decodeRulePkt`, which returns a copy. -/
def decodeRulePkt : Decoder RulePkt := do return copyRulePkt (← decodeNewRulePkt)

/-- The copy that is returned has all the members. -/
def decodePubPkt : Decoder PubPkt := do
  let eventType ← decodeInt
  let timeStamp ← decodeLong
  let attributes ← decodeCollection decodeAttribute
  return { eventType, timeStamp, attributes }

/-- The type and the constraints, of which there may be none. -/
def decodeSubPkt : Decoder SubPkt := do
  let eventType ← decodeInt
  let constraints ← decodeCollection decodeConstraint
  return { eventType, constraints }

/-- The type and the length of the subscription are skipped. -/
def decodeUnSubPkt : Decoder SubPkt := do
  let _ ← take (1 + 4)
  decodeSubPkt

/-- The switch over the type of a packet; a ping has no body. -/
def decodeBody : PacketType → Decoder TRexPkt
  | .pubPacket => do return .pub (← decodePubPkt)
  | .rulePacket => do return .rule (← decodeRulePkt)
  | .subPacket => do return .sub (← decodeSubPkt)
  | .unsubPacket => do return .unsub (← decodeUnSubPkt)
  | .pingPacket => pure .ping

/-- A `byte` has a sign. -/
def decodePktType : Decoder (Option PacketType) := do
  return PacketType.fromValue (Int.bmod (← byte).toNat 256)

/-- An array from an index on; there is nothing before its first element. -/
def fromIndex (buffer : Bytes) (index : Int) : Option Bytes :=
  if 0 ≤ index then some (buffer.drop index.toNat) else none

/-- `unmarshal`: the packet, or `none` for `null`, and the offset, which has been advanced in both
cases. -/
def unmarshal (buffer : Bytes) (offset : Int) : Option (Option TRexPkt × Int) := do
  if buffer.length - offset < 1 then return (none, offset)
  let (type, _) ← decodePktType (← fromIndex buffer offset)
  let type ← type
  let offset := offset + 1
  if buffer.length - offset < 4 then return (none, offset)
  let (length, _) ← decodeInt (← fromIndex buffer offset)
  let offset := offset + 4
  if buffer.length - offset < length then return (none, offset)
  let (pkt, _) ← decodeBody type (← fromIndex buffer offset)
  return (some pkt, offset + length)

end Unmarshaller

/-! ## What is sent is read back -/

/-- Characters that a byte can carry and that have no sign to extend. -/
def IsAscii (s : CString) : Prop := ∀ c ∈ s, c.toNat < 128

/-- A string of a packet: ASCII, and not too long for its length to be written. -/
structure SentString (s : CString) : Prop where
  ascii : IsAscii s
  short : s.length < 2 ^ 31

/-- A value that fits the wire. -/
def SentValue : Value → Prop
  | .int v => IsInt v
  | .float _ => True
  | .bool _ _ => True
  | .string s => SentString s

/-- An attribute that fits the wire. -/
structure SentAttribute (a : Attribute) : Prop where
  name : SentString a.name
  value : SentValue a.value

/-- A publication that fits the wire. -/
structure PubPkt.Sent (pkt : PubPkt) : Prop where
  eventType : IsInt pkt.eventType
  timeStamp : IsLong pkt.timeStamp
  countable : FitsCounter pkt.attributes
  attributes : ∀ a ∈ pkt.attributes, SentAttribute a

namespace Unmarshaller

open Java.Marshaller

theorem reads_int {v : Int} (inRange : IsInt v) : Reads decodeInt (encodeInt v) v :=
  TRex.Unmarshaller.reads_int inRange

theorem reads_count {n : Nat} (small : n < 2 ^ 31) : Reads decodeInt (encodeInt n) n :=
  TRex.Unmarshaller.reads_count small

theorem reads_long {v : Int} (inRange : IsLong v) : Reads decodeLong (encodeLong v) v :=
  TRex.Unmarshaller.reads_javaLong inRange

theorem reads_float (bits : CFloat) : Reads decodeFloat (encodeFloat bits) bits :=
  TRex.Unmarshaller.reads_javaFloat bits

theorem reads_boolean (b : Bool) : Reads decodeBoolean (encodeBoolean b) b :=
  TRex.Unmarshaller.reads_bool b

theorem reads_valType (type : ValType) : Reads decodeValType (encodeValType type) type := by
  cases type <;> exact fun _ => rfl

theorem map_decodeChar {s : CString} (ascii : IsAscii s) :
    (s.map fun c => UInt8.ofNat c.toNat).map decodeChar = s := by
  rw [List.map_map]
  refine (List.map_congr_left fun c mem => ?_).trans (List.map_id s)
  have small := ascii c mem
  simp only [Function.comp_apply, decodeChar, UInt8.toNat_ofNat', id]
  rw [Nat.mod_eq_of_lt (by omega), if_pos small, Char.ofNat_toNat]

theorem reads_string {s : CString} (sent : SentString s) :
    Reads decodeString (encodeString s) s := by
  apply (reads_count sent.short).bind
  apply Reads.require (by omega)
  have read := (Reads.take (s.map fun c => UInt8.ofNat c.toNat)).map fun bytes =>
    bytes.map decodeChar
  rw [map_decodeChar sent.ascii, List.length_map] at read
  exact read

theorem reads_value {v : Value} (sent : SentValue v) :
    Reads (decodeValue v.type) (encodeValue v) (v.stored 0) := by
  cases v with
  | int v => exact (reads_int sent).map Value.int
  | float bits => exact (reads_float bits).map Value.float
  | bool b _ => exact (reads_boolean b).map fun b => Value.bool b 0
  | string s => exact (reads_string sent).map Value.string

theorem reads_attribute {a : Attribute} (sent : SentAttribute a) :
    Reads decodeAttribute (encodeAttribute a) (a.stored 0) := by
  apply (reads_string sent.name).bind
  apply (reads_valType a.type).bind
  exact (reads_value sent.value).map fun value => Attribute.mk a.name value

theorem reads_collection {α : Type} {encode : α → Bytes} {decode : Decoder α} {value : α → α}
    {source : List α} (countable : FitsCounter source)
    (each : ∀ x ∈ source, Reads decode (encode x) (value x)) :
    Reads (decodeCollection decode) (encodeCollection encode source) (source.map value) :=
  (reads_count countable).bind (Reads.times each)

theorem reads_pubPkt {pkt : PubPkt} (sent : pkt.Sent) :
    Reads decodePubPkt (encodePubBody pkt)
      { pkt with attributes := pkt.attributes.map (Attribute.stored 0) } := by
  apply (reads_int sent.eventType).bind
  apply (reads_long sent.timeStamp).bind
  have attributes := reads_collection sent.countable fun a mem =>
    reads_attribute (sent.attributes a mem)
  exact attributes.map fun attributes => PubPkt.mk pkt.eventType pkt.timeStamp attributes

/-! ## A packet in the array -/

theorem decodePktType_encode (type : PacketType) (input : Bytes) :
    decodePktType (encodePacketType type ++ input) = some (some type, input) := by
  have value : PacketType.fromValue (Int.bmod (UInt8.ofNat type.toValue.toNat).toNat 256) =
      some type := by
    cases type <;> decide
  rw [← value]
  rfl

/-- What `unmarshal` does behind the type. -/
theorem unmarshal_header (type : PacketType) (input : Bytes) :
    unmarshal (encodePacketType type ++ input) 0 =
      if input.length < 4 then some (none, 1)
      else (decodeInt input).bind fun x =>
        if (input.length : Int) - 4 < x.1 then some (none, 5)
        else (decodeBody type (input.drop 4)).map fun y => (some y.1, 5 + x.1) := by
  have size : ((encodePacketType type ++ input).length : Int) = input.length + 1 := by
    rw [List.length_append, Nat.cast_add, add_comm]
    rfl
  have atType : fromIndex (encodePacketType type ++ input) 0 =
      some (encodePacketType type ++ input) := rfl
  have atLength : fromIndex (encodePacketType type ++ input) 1 = some input := rfl
  have atBody : fromIndex (encodePacketType type ++ input) 5 = some (input.drop 4) := rfl
  unfold unmarshal
  rw [if_neg (by omega), atType]
  simp only [Option.bind_eq_bind, Option.bind_some, decodePktType_encode, zero_add, atLength, size]
  by_cases short : input.length < 4
  · rw [if_pos short, if_pos (by omega)]
    rfl
  · rw [if_neg short, if_neg (by omega)]
    congr 1
    funext x
    by_cases part : (input.length : Int) - 4 < x.1
    · rw [if_pos part, if_pos (by omega)]
      rfl
    · rw [if_neg part, if_neg (by omega), show (1 : Int) + 4 = 5 from rfl, atBody, Option.bind_some]
      exact Option.map_eq_bind.symm

/-- A packet that is there is read with the decoder of its type, which sees everything behind the
header; the offset moves by the length in the header. -/
theorem unmarshal_packet (type : PacketType) {body : Bytes} (short : body.length < 2 ^ 31)
    (rest : Bytes) :
    unmarshal (encodePacketType type ++ (encodeInt body.length ++ (body ++ rest))) 0 =
      (decodeBody type (body ++ rest)).map fun x => (some x.1, 5 + (body.length : Int)) := by
  have size : (encodeInt body.length ++ (body ++ rest)).length =
      4 + (body.length + rest.length) := by
    rw [List.length_append, List.length_append, length_encodeInt]
  rw [unmarshal_header, if_neg (by omega), reads_count short, Option.bind_some, size]
  rw [if_neg (by push_cast; omega), List.drop_left' (length_encodeInt _)]

end Unmarshaller

end TRex.Java
