import Mathlib.Algebra.GroupWithZero.Action.Defs
import Mathlib.Algebra.Order.BigOperators.Group.List
import Mathlib.Data.List.TakeWhile
import TRex.Lib.Wire
import TRex.Structures

/-!
# The wire format of publications

`Marshalling/Marshaller` and `Marshalling/Unmarshaller`, as far as publications need them. `encode`
writes the bytes that the source writes into its buffer, `getNumBytes` is the separate traversal
that the source sizes the buffer with, and the decoders fail where the source would read past the
input, write past one of its own buffers or stop at an assertion. `pubPkt_roundtrip` ties the three
together.

Members that a decoder leaves unset hold what was in memory before: `pad` stands for the three bytes
behind a Boolean.
-/

namespace TRex

open Wire

/-- `NAME_LEN`, the maximum length of an attribute's name; its array has room for one more. -/
def nameLen : Nat := 15

/-- `STRING_VAL_LEN`. -/
def stringValLen : Nat := 15

/-- A character array as a C string: what comes before the first NUL. -/
def CString.cut (s : CString) : CString := s.takeWhile (· != Char.ofNat 0)

/-- The kinds of packets that have a tag on the wire. -/
inductive PktType
  | pubPkt | rulePkt | subPkt | advPkt | joinPkt
  deriving DecidableEq

/-! ## Encoding -/

namespace Marshaller

/-- One byte, 1 for true. -/
def encodeBool (source : Bool) : Bytes := [if source then 1 else 0]

/-- Four bytes, the most significant one first. -/
def encodeInt (source : Int) : Bytes := bigEndian 4 (source % 2 ^ 32).toNat

/-- `encode(uint64_t)`. -/
def encodeTime (source : Nat) : Bytes := bigEndian 8 source

/-- The raw bits, as an `int` is written. -/
def encodeFloat (source : CFloat) : Bytes := bigEndian 4 source.toNat

/-- A C character is a byte. -/
def encodeChar (c : Char) : UInt8 := UInt8.ofNat c.toNat

/-- The length and the characters, without the NUL. -/
def encodeString (source : CString) : Bytes := encodeInt source.length ++ source.map encodeChar

/-- The tags that `decodePktType` reads. -/
def encodePktType : PktType → Bytes
  | .pubPkt => [0]
  | .rulePkt => [1]
  | .subPkt => [2]
  | .advPkt => [3]
  | .joinPkt => [4]

/-- The tags that `decodeValType` reads. -/
def encodeValType : ValType → Bytes
  | .int => [0]
  | .float => [1]
  | .bool => [2]
  | .string => [3]

/-- A value without its type, which `encodeAttribute` writes in front. -/
def encodeValue : Value → Bytes
  | .int v => encodeInt v
  | .float bits => encodeFloat bits
  | .bool b _ => encodeBool b
  | .string s => encodeString s

/-- Name, type and value. -/
def encodeAttribute (source : Attribute) : Bytes :=
  encodeString source.name ++ (encodeValType source.type ++ encodeValue source.value)

/-- The characters and the four bytes of their number. -/
def getNumBytesString (source : CString) : Nat := source.length + 4

/-- The bytes of `encodeValue`. -/
def getNumBytesValue : Value → Nat
  | .int _ => 4
  | .float _ => 4
  | .bool _ _ => 1
  | .string s => getNumBytesString s

/-- The bytes of `encodeAttribute`; the type takes one. -/
def getNumBytesAttribute (source : Attribute) : Nat :=
  getNumBytesString source.name + 1 + getNumBytesValue source.value

/-- `getNumBytes(PubPkt*)`: event type, time stamp, number of attributes and attributes. -/
def getNumBytes (pkt : PubPkt) : Nat :=
  pkt.attributes.foldl (fun size att => size + getNumBytesAttribute att) (4 + 8 + 4)

/-- What follows the packet's type and length. -/
def encodeBody (source : PubPkt) : Bytes :=
  encodeInt source.eventType ++ (encodeTime source.timeStamp ++
    (encodeInt source.attributes.length ++ source.attributes.flatMap encodeAttribute))

/-- A whole packet: type, length and body. -/
def encode (source : PubPkt) : Bytes :=
  encodePktType .pubPkt ++ (encodeInt (getNumBytes source) ++ encodeBody source)

/-- The body and the five bytes of type and length. -/
def getSize (pkt : PubPkt) : Nat := getNumBytes pkt + 5

end Marshaller

/-! ## Decoding -/

namespace Unmarshaller

/-- Everything but 1 is false. -/
def decodeBoolean : Decoder Bool := do return (← byte) == 1

/-- Four bytes put together as a signed number. -/
def decodeInt : Decoder Int := do return wrap32 (← word 4)

/-- The bits, whatever number they stand for. -/
def decodeFloat : Decoder CFloat := do return UInt32.ofNat (← word 4)

/-- Eight bytes put together as a signed number. -/
def decodeLong : Decoder Int := do return Int.bmod (← word 8) (2 ^ 64)

/-- Conversion of a `long` to the `uint64_t` of `TimeMs`. -/
def timeOfLong (v : Int) : Nat := (v % 2 ^ 64).toNat

/-- A byte as a character of a C string. -/
def decodeChar (b : UInt8) : Char := Char.ofNat b.toNat

/-- The bytes read, as a C string. No array has a negative length. -/
def decodeString : Decoder CString := do
  let length ← decodeInt
  require (0 ≤ length)
  return CString.cut ((← take length.toNat).map decodeChar)

/-- Everything unknown is `JOIN_PKT`. -/
def decodePktType : Decoder PktType := do
  return match ← byte with
    | 0 => .pubPkt
    | 1 => .rulePkt
    | 2 => .subPkt
    | 3 => .advPkt
    | _ => .joinPkt

/-- Everything unknown is `STRING`. -/
def decodeValType : Decoder ValType := do
  return match ← byte with
    | 0 => .int
    | 1 => .float
    | 2 => .bool
    | _ => .string

/-- The value of an attribute: a string must be shorter than its array allows. -/
def decodeValue (pad : Nat) : ValType → Decoder Value
  | .int => do return .int (← decodeInt)
  | .float => do return .float (← decodeFloat)
  | .bool => do return .bool (← decodeBoolean) pad
  | .string => do
    let stringVal ← decodeString
    require (stringVal.length < stringValLen)
    return .string stringVal

/-- Both lengths are asserted. -/
def decodeAttribute (pad : Nat) : Decoder Attribute := do
  let name ← decodeString
  require (name.length < nameLen)
  let type ← decodeValType
  let value ← decodeValue pad type
  return ⟨name, value⟩

/-- A timestamp of 0 is replaced by the time of the call, `now`. -/
def decodePubPkt (now pad : Nat) : Decoder PubPkt := do
  let eventType ← decodeInt
  let timeStamp ← decodeLong
  let numAttributes ← decodeInt
  require (0 ≤ numAttributes)
  let attributes ← times (decodeAttribute pad) numAttributes.toNat
  let pkt := PubPkt.new eventType attributes now
  if timeOfLong timeStamp > 0 then return pkt.setTime (timeOfLong timeStamp)
  else return pkt.setTime now

end Unmarshaller

/-! ## Packets that fit the format -/

/-- A NUL-free array of C characters, shorter than the bound. -/
structure CString.Fits (s : CString) (bound : Nat) : Prop where
  chars : ∀ c ∈ s, 0 < c.toNat ∧ c.toNat < 256
  short : s.length < bound

/-- The value of a C `int`. -/
def IsInt (v : Int) : Prop := -2 ^ 31 ≤ v ∧ v < 2 ^ 31

/-- A value that the format can carry: an `int` of 32 bits, a string shorter than the decoder
asserts. -/
def Value.Fits : Value → Prop
  | .int v => IsInt v
  | .float _ => True
  | .bool _ _ => True
  | .string s => CString.Fits s stringValLen

/-- An attribute that the decoder accepts and reads back. -/
structure Attribute.Fits (a : Attribute) : Prop where
  name : CString.Fits a.name nameLen
  value : a.value.Fits

/-- The members of a publication are in the ranges of their C types. -/
structure PubPkt.Fits (pkt : PubPkt) : Prop where
  type : pkt.eventType < 2 ^ 16
  time : pkt.timeStamp < 2 ^ 64
  few : pkt.attributes.length < 2 ^ 16
  attributes : ∀ a ∈ pkt.attributes, a.Fits

/-- The value as the decoder stores it. -/
def Value.stored (pad : Nat) : Value → Value
  | .bool b _ => .bool b pad
  | v => v

/-- The attribute as the decoder stores it. -/
def Attribute.stored (pad : Nat) (a : Attribute) : Attribute := ⟨a.name, a.value.stored pad⟩

/-! ## Primitives read back -/

namespace Unmarshaller

open Marshaller

theorem wrap32_emod {v : Int} (inRange : IsInt v) : wrap32 (v % 2 ^ 32) = v := by
  obtain ⟨lower, upper⟩ := inRange
  unfold wrap32
  rw [Int.bmod_def]
  split <;> omega

theorem reads_int {v : Int} (inRange : IsInt v) : Reads decodeInt (encodeInt v) v := by
  have read := (Reads.word 4 (v % 2 ^ 32).toNat).map fun n => wrap32 n
  have nonneg : 0 ≤ v % 2 ^ 32 := Int.emod_nonneg _ (by decide)
  have small : v % 2 ^ 32 < 2 ^ 32 := Int.emod_lt_of_pos _ (by decide)
  have same : (((v % 2 ^ 32).toNat % 256 ^ 4 : Nat) : Int) = v % 2 ^ 32 := by
    rw [Nat.mod_eq_of_lt (by omega)]
    omega
  rw [same, wrap32_emod inRange] at read
  exact read

/-- A number of objects is well below the limits of `int`. -/
theorem reads_count {n : Nat} (small : n < 2 ^ 31) : Reads decodeInt (encodeInt n) n := by
  apply reads_int
  constructor <;> omega

theorem reads_float (bits : CFloat) : Reads decodeFloat (encodeFloat bits) bits := by
  have read := (Reads.word 4 bits.toNat).map fun n => UInt32.ofNat n
  rw [Nat.mod_eq_of_lt (by simpa using bits.toNat_lt), UInt32.ofNat_toNat] at read
  exact read

theorem reads_bool (b : Bool) : Reads decodeBoolean (encodeBool b) b := by
  have read := (Reads.byte (if b then 1 else 0)).map fun b => b == 1
  cases b <;> exact read

theorem timeOfLong_bmod {n : Nat} (small : n < 2 ^ 64) : timeOfLong (Int.bmod n (2 ^ 64)) = n := by
  unfold timeOfLong
  rw [Int.bmod_def]
  split <;> omega

/-- The bytes of a time, read as a `long`, are converted back to the same time. -/
theorem reads_long {n : Nat} (small : n < 2 ^ 64) :
    Reads decodeLong (encodeTime n) (Int.bmod n (2 ^ 64)) := by
  have read := (Reads.word 8 n).map fun n => Int.bmod n (2 ^ 64)
  rw [Nat.mod_eq_of_lt (by simpa using small)] at read
  exact read

theorem reads_valType (type : ValType) : Reads decodeValType (encodeValType type) type := by
  cases type <;> exact fun _ => rfl

theorem decodeChar_encodeChar {c : Char} (small : c.toNat < 256) :
    decodeChar (encodeChar c) = c := by
  unfold decodeChar encodeChar
  rw [UInt8.toNat_ofNat', Nat.mod_eq_of_lt small, Char.ofNat_toNat]

theorem map_decodeChar {s : CString} (chars : ∀ c ∈ s, c.toNat < 256) :
    (s.map encodeChar).map decodeChar = s := by
  rw [List.map_map]
  exact (List.map_congr_left fun c mem => decodeChar_encodeChar (chars c mem)).trans (List.map_id s)

/-- A string is read up to its first NUL. -/
theorem reads_cut {s : CString} (chars : ∀ c ∈ s, c.toNat < 256) (short : s.length < 2 ^ 31) :
    Reads decodeString (encodeString s) s.cut := by
  refine (reads_count short).bind (Reads.require (by omega) ?_)
  have read := (Reads.take (s.map encodeChar)).map fun bytes => CString.cut (bytes.map decodeChar)
  rw [map_decodeChar chars, List.length_map] at read
  exact read

theorem cut_eq_self {s : CString} (chars : ∀ c ∈ s, 0 < c.toNat) : s.cut = s := by
  rw [CString.cut, List.takeWhile_eq_self_iff]
  intro c mem
  have pos := chars c mem
  simp only [bne_iff_ne, ne_eq]
  rintro rfl
  exact absurd pos (by decide)

theorem reads_string {s : CString} (chars : ∀ c ∈ s, 0 < c.toNat ∧ c.toNat < 256)
    (short : s.length < 2 ^ 31) : Reads decodeString (encodeString s) s := by
  have read := reads_cut (fun c mem => (chars c mem).2) short
  rwa [cut_eq_self fun c mem => (chars c mem).1] at read

theorem reads_value {v : Value} (fits : v.Fits) (pad : Nat) :
    Reads (decodeValue pad v.type) (encodeValue v) (v.stored pad) := by
  cases v with
  | int v => exact (reads_int fits).map Value.int
  | float bits => exact (reads_float bits).map Value.float
  | bool b _ => exact (reads_bool b).map fun b => Value.bool b pad
  | string s =>
      have short := fits.short
      refine (reads_string fits.chars ?_).last (Reads.require short (Reads.pure _))
      unfold stringValLen at short
      omega

theorem reads_attribute {a : Attribute} (fits : a.Fits) (pad : Nat) :
    Reads (decodeAttribute pad) (encodeAttribute a) (a.stored pad) := by
  have short := fits.name.short
  refine (reads_string fits.name.chars (by unfold nameLen at short; omega)).bind
    (Reads.require short ((reads_valType a.type).bind ?_))
  exact (reads_value fits.value pad).map fun value => Attribute.mk a.name value

/-- The body of a packet gives the packet back. -/
theorem reads_pubPkt {pkt : PubPkt} (fits : pkt.Fits) (timed : pkt.timeStamp ≠ 0) (now pad : Nat) :
    Reads (decodePubPkt now pad) (encodeBody pkt)
      ((PubPkt.new pkt.eventType (pkt.attributes.map (Attribute.stored pad)) now).setTime
        pkt.timeStamp) := by
  have type := fits.type
  have few := fits.few
  have time := timeOfLong_bmod fits.time
  refine (reads_count (by omega)).bind ((reads_long fits.time).bind
    ((reads_count (by omega)).bind (Reads.require (by omega) ?_)))
  refine (Reads.times fun a mem => reads_attribute (fits.attributes a mem) pad).last ?_
  simp only [time]
  rw [if_pos (by omega)]
  exact Reads.pure _

end Unmarshaller

/-! ## Sizes -/

namespace Marshaller

@[simp] theorem length_encodeInt (v : Int) : (encodeInt v).length = 4 := length_bigEndian 4 _

@[simp] theorem length_encodeTime (n : Nat) : (encodeTime n).length = 8 := length_bigEndian 8 _

@[simp] theorem length_encodeFloat (f : CFloat) : (encodeFloat f).length = 4 :=
  length_bigEndian 4 _

@[simp] theorem length_encodeString (s : CString) :
    (encodeString s).length = getNumBytesString s := by
  simp [encodeString, getNumBytesString, Nat.add_comm]

@[simp] theorem length_encodeValType (type : ValType) : (encodeValType type).length = 1 := by
  cases type <;> rfl

@[simp] theorem length_encodeValue (v : Value) : (encodeValue v).length = getNumBytesValue v := by
  cases v <;> simp [encodeValue, getNumBytesValue, encodeBool]

@[simp] theorem length_encodeAttribute (a : Attribute) :
    (encodeAttribute a).length = getNumBytesAttribute a := by
  simp [encodeAttribute, getNumBytesAttribute, Nat.add_assoc]

/-- The loop that adds up the sizes of the attributes. -/
theorem length_flatMap_encodeAttribute (attributes : List Attribute) (size : Nat) :
    size + (attributes.flatMap encodeAttribute).length =
      attributes.foldl (fun size att => size + getNumBytesAttribute att) size := by
  induction attributes generalizing size with
  | nil => rfl
  | cons a rest ih =>
      rw [List.flatMap_cons, List.length_append, List.foldl_cons, ← ih, length_encodeAttribute]
      omega

theorem length_encodeBody (pkt : PubPkt) : (encodeBody pkt).length = getNumBytes pkt := by
  rw [getNumBytes, ← length_flatMap_encodeAttribute]
  simp only [encodeBody, List.length_append, length_encodeInt, length_encodeTime]
  omega

theorem length_encode (pkt : PubPkt) : (encode pkt).length = getSize pkt := by
  simp only [encode, List.length_append, length_encodeInt, length_encodeBody, getSize,
    encodePktType, List.length_singleton]
  omega

/-- An attribute that fits takes at most 37 bytes. -/
theorem getNumBytesAttribute_le {a : Attribute} (fits : a.Fits) : getNumBytesAttribute a ≤ 37 := by
  have name := fits.name.short
  have value : getNumBytesValue a.value ≤ 18 := by
    have fits := fits.value
    cases v : a.value with
    | string s =>
        rw [v] at fits
        have short := fits.short
        simp only [getNumBytesValue, getNumBytesString, stringValLen] at short ⊢
        omega
    | _ => simp [getNumBytesValue]
  simp only [getNumBytesAttribute, getNumBytesString, nameLen] at name ⊢
  omega

/-- The length field does not overflow. -/
theorem getNumBytes_lt {pkt : PubPkt} (fits : pkt.Fits) : getNumBytes pkt < 2 ^ 31 := by
  have few := fits.few
  have bound : (pkt.attributes.flatMap encodeAttribute).length ≤ pkt.attributes.length * 37 := by
    have sum := List.sum_le_card_nsmul
      (pkt.attributes.map fun a => (encodeAttribute a).length) 37
    rw [List.length_map, smul_eq_mul] at sum
    rw [List.length_flatMap]
    apply sum
    intro n mem
    obtain ⟨a, inAttributes, rfl⟩ := List.mem_map.mp mem
    rw [length_encodeAttribute]
    exact getNumBytesAttribute_le (fits.attributes a inAttributes)
  rw [getNumBytes, ← length_flatMap_encodeAttribute]
  omega

end Marshaller

theorem PubPkt.new_eventType {type : Nat} (small : type < 2 ^ 16) (attributes : List Attribute)
    (now : Nat) : (PubPkt.new type attributes now).eventType = type := by
  simp only [PubPkt.new]
  omega

theorem PubPkt.new_attributes {attributes : List Attribute} (few : attributes.length < 2 ^ 16)
    (type : Int) (now : Nat) : (PubPkt.new type attributes now).attributes = attributes := by
  simp only [PubPkt.new]
  rw [Nat.mod_eq_of_lt few, List.take_length]

/-- A packet that fits the format is written as its type, the number of bytes of its body and a body
from which the decoder reads the packet's type, timestamp and attributes, leaving whatever follows;
`getSize` is the number of bytes written. -/
theorem pubPkt_roundtrip (pkt : PubPkt) (fits : pkt.Fits) (timed : pkt.timeStamp ≠ 0)
    (now pad : Nat) :
    ∃ body, Marshaller.encode pkt =
        Marshaller.encodePktType .pubPkt ++ (Marshaller.encodeInt body.length ++ body) ∧
      Reads Unmarshaller.decodeInt (Marshaller.encodeInt body.length) body.length ∧
      (∃ pkt', Reads (Unmarshaller.decodePubPkt now pad) body pkt' ∧
        pkt'.eventType = pkt.eventType ∧ pkt'.timeStamp = pkt.timeStamp ∧
        pkt'.attributes = pkt.attributes.map (Attribute.stored pad)) ∧
      Marshaller.getSize pkt = (Marshaller.encode pkt).length := by
  have length := Marshaller.length_encodeBody pkt
  refine ⟨Marshaller.encodeBody pkt, ?_, ?_, ?_, (Marshaller.length_encode pkt).symm⟩
  · rw [length]
    rfl
  · rw [length]
    exact Unmarshaller.reads_count (Marshaller.getNumBytes_lt fits)
  · refine ⟨_, Unmarshaller.reads_pubPkt fits timed now pad, ?_, rfl, ?_⟩
    · exact PubPkt.new_eventType fits.type (pkt.attributes.map (Attribute.stored pad)) now
    · have few : (pkt.attributes.map (Attribute.stored pad)).length < 2 ^ 16 := by
        rw [List.length_map]
        exact fits.few
      exact PubPkt.new_attributes few pkt.eventType now

/-- A smoke report with one attribute of each type. -/
def smokePkt : PubPkt :=
  PubPkt.new 65535 [⟨['a'], .int (-7)⟩, ⟨['t'], .float 0x42280000⟩, ⟨['h'], .bool true 3⟩,
    ⟨['n'], .string ['x', 'y']⟩] 1000

theorem CString.fits_of_all {bound : Nat} {s : CString}
    (chars : s.all (fun c => decide (0 < c.toNat ∧ c.toNat < 256)) = true)
    (short : s.length < bound) : CString.Fits s bound :=
  ⟨fun c mem => of_decide_eq_true (List.all_eq_true.mp chars c mem), short⟩

theorem smokePkt_fits : smokePkt.Fits := by
  refine ⟨by decide, by decide, by decide, ?_⟩
  intro a mem
  simp only [smokePkt, PubPkt.new, List.length_cons, List.length_nil, Nat.zero_add, Nat.reduceAdd,
    Nat.reducePow, Nat.reduceMod, List.take_succ_cons, List.take_nil, List.mem_cons,
    List.not_mem_nil, or_false] at mem
  rcases mem with rfl | rfl | rfl | rfl
  · exact ⟨CString.fits_of_all rfl (by decide), by decide, by decide⟩
  · exact ⟨CString.fits_of_all rfl (by decide), trivial⟩
  · exact ⟨CString.fits_of_all rfl (by decide), trivial⟩
  · exact ⟨CString.fits_of_all rfl (by decide), CString.fits_of_all rfl (by decide)⟩

theorem smokePkt_roundtrip :
    ∃ body, Marshaller.encode smokePkt =
        Marshaller.encodePktType .pubPkt ++ (Marshaller.encodeInt body.length ++ body) ∧
      (Unmarshaller.decodePubPkt 5 9 body).map (fun x => (x.1.eventType, x.1.timeStamp, x.2)) =
        some (65535, 1000, []) := by
  obtain ⟨body, written, -, ⟨pkt', read, type, time, -⟩, -⟩ :=
    pubPkt_roundtrip smokePkt smokePkt_fits (by decide) 5 9
  refine ⟨body, written, ?_⟩
  have whole := read []
  rw [List.append_nil] at whole
  rw [whole, Option.map_some, type, time]
  rfl

end TRex
