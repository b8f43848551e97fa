import Mathlib.Data.List.Find
import TRex.JavaUnmarshaller
import TRex.JsParsing

/-!
# Publications in three languages

The engine, the Java client and the JavaScript client each write and read publications. `Event` is
what an application means by one; each language has its own packet for it and finds the values of
the packet in its own way. `codecs_agree_iff` says for which events any of the nine pairs of a
writer and a reader keeps type, time and values: the engine counts attributes with 16 bits, and its
strings end at a NUL. -/

namespace TRex

open Wire Js

/-! ## Events -/

/-- A letter, `_` or `$`. -/
def isIdentifierStart (c : Char) : Bool := c.isAlpha || c == '_' || c == '$'

/-- An ASCII identifier. -/
def isIdentifier : CString → Bool
  | [] => false
  | c :: rest => isIdentifierStart c && rest.all fun c => isIdentifierStart c || c.isDigit

/-- Integers of 32 bits, Booleans and short ASCII strings. -/
def Carried : JsValue → Prop
  | .int v => IsInt v
  | .float _ => False
  | .bool _ => True
  | .string s => Java.IsAscii s ∧ s.length < stringValLen

structure CarriedAttribute (a : CString × JsValue) : Prop where
  identifier : isIdentifier a.1
  short : a.1.length < nameLen
  notProto : a.1 ≠ "__proto__".toList
  value : Carried a.2

/-- Type, time and attributes, the names of which are different. -/
structure Event where
  eventType : Nat
  inType : eventType < 2 ^ 16
  timeStamp : Nat
  timed : 0 < timeStamp
  inTime : timeStamp < 2 ^ 53
  attributes : List (CString × JsValue)
  /-- They are counted by an `int`. -/
  countable : attributes.length < 2 ^ 31
  names : (attributes.map Prod.fst).Nodup
  carried : ∀ a ∈ attributes, CarriedAttribute a

/-- The value of an attribute in the structures of the engine, which the model of the Java client
shares. -/
def ofJsValue : JsValue → Value
  | .int v => .int v
  | .float bits => .float bits
  | .bool b => .bool b 0
  | .string s => .string s

/-- A value with its type. -/
def Value.typed : Value → JsValue
  | .int v => .int v
  | .float bits => .float bits
  | .bool b _ => .bool b
  | .string s => .string s

def ofJsAttribute (a : CString × JsValue) : Attribute := ⟨a.1, ofJsValue a.2⟩

namespace Event

variable (event : Event)

/-- The value of a name. -/
def attr (name : CString) : Option JsValue :=
  (event.attributes.find? fun a => a.1 == name).map Prod.snd

/-- A string is copied into its array up to its first NUL. -/
def toCpp : PubPkt :=
  (PubPkt.new event.eventType (event.attributes.map fun a => Java.cutAttribute (ofJsAttribute a))
    0).setTime event.timeStamp

def toJava : Java.PubPkt :=
  { eventType := event.eventType, timeStamp := event.timeStamp
    attributes := event.attributes.map ofJsAttribute }

def toJs : Evt := { evtType := event.eventType, timeStamp := event.timeStamp, attr := event.attr }

end Event

/-! ## Writers and readers -/

/-- What a reader finds in a packet. -/
@[ext]
structure Content where
  eventType : Int
  timeStamp : Int
  attr : CString → Option JsValue

/-- Through the content map. -/
def PubPkt.content (pkt : PubPkt) : Content :=
  { eventType := pkt.eventType, timeStamp := pkt.timeStamp
    attr := fun name => (pkt.getAttributeIndexAndType name).map fun found =>
      (pkt.valueAt found.1).typed }

def Java.PubPkt.content (pkt : Java.PubPkt) : Content :=
  { eventType := pkt.eventType, timeStamp := pkt.timeStamp
    attr := fun name => (pkt.attributes.find? fun a => a.name == name).map fun a => a.value.typed }

def Js.Evt.content (evt : Evt) : Content := ⟨evt.evtType, evt.timeStamp, evt.attr⟩

def Event.content (event : Event) : Content := ⟨event.eventType, event.timeStamp, event.attr⟩

inductive Codec
  | cpp | java | js

/-- The bytes that a language writes. Names that begin with no digit are visited in the order in
which they were set. -/
def Codec.write (event : Event) : Codec → Option Bytes
  | .cpp => some (Marshaller.encode event.toCpp)
  | .java => some (Java.Marshaller.encodePub event.toJava)
  | .js => getEvtPkt event.toJs (event.attributes.map Prod.fst)

/-- The decoders of the engine and of the Java client begin behind the header of 5 bytes. -/
def Codec.read (now pad : Nat) (bytes : Bytes) : Codec → Option Content
  | .cpp => (Unmarshaller.decodePubPkt now pad (bytes.drop 5)).map fun x => x.1.content
  | .java => (Java.Unmarshaller.decodePubPkt (bytes.drop 5)).map fun x => x.1.content
  | .js => (parseEvtPkt bytes).bind fun evt => evt.map Evt.content

/-- Whoever writes it, whoever reads it. -/
def Event.Agreed (event : Event) (now pad : Nat) : Prop :=
  ∀ writer reader : Codec, ∃ bytes, writer.write event = some bytes ∧
    reader.read now pad bytes = some event.content

def Event.NulFree (event : Event) : Prop :=
  ∀ a ∈ event.attributes, ∀ s, a.2 = .string s → ∀ c ∈ s, c ≠ Char.ofNat 0

/-! ## Finding values -/

/-- A packet whose content map belongs to its attributes. -/
theorem PubPkt.content_attr {pkt : PubPkt}
    (mapped : pkt.contentMap = PubPkt.buildContentMap pkt.attributes) (name : CString) :
    pkt.content.attr name =
      (pkt.attributes.find? fun a => a.name == name).map fun a => a.value.typed := by
  simp only [PubPkt.content]
  rcases PubPkt.getAttributeIndexAndType_mapped mapped name with ⟨missing, lookup⟩ |
    ⟨i, a, found, there, lookup⟩
  · rw [missing, lookup]
    rfl
  · rw [found, lookup]
    simp only [Option.map_some, PubPkt.valueAt, there, Option.getD_some]

/-- A name occurs once, so that it is found with its value. -/
theorem find?_of_nodup {α : Type} {name : α → CString} {xs : List α} (nodup : (xs.map name).Nodup)
    {x : α} (mem : x ∈ xs) : (xs.find? fun y => name y == name x) = some x := by
  induction xs with
  | nil => cases mem
  | cons y rest ih =>
      rw [List.map_cons, List.nodup_cons] at nodup
      rw [List.find?_cons]
      rcases List.mem_cons.mp mem with rfl | inRest
      · rw [beq_self_eq_true]
      · have other : (name y == name x) = false := by
          apply beq_false_of_ne
          intro same
          exact nodup.1 (same ▸ List.mem_map_of_mem inRest)
        rw [other]
        exact ih nodup.2 inRest

theorem typed_ofJsValue (v : JsValue) : (ofJsValue v).typed = v := by
  cases v <;> rfl

theorem typed_stored (pad : Nat) (v : Value) : (v.stored pad).typed = v.typed := by
  cases v <;> rfl

namespace Event

variable {event : Event}

theorem attr_of_mem {a : CString × JsValue} (mem : a ∈ event.attributes) :
    event.attr a.1 = some a.2 := by
  rw [attr, find?_of_nodup event.names mem, Option.map_some]

/-- A list of attributes in another language that has the same names and values. -/
theorem find?_ofJsAttribute (change : Value → Value)
    (same : ∀ a ∈ event.attributes, (change (ofJsValue a.2)).typed = a.2) (name : CString) :
    ((event.attributes.map fun a => Attribute.mk a.1 (change (ofJsValue a.2))).find? fun a =>
      a.name == name).map (fun a => a.value.typed) = event.attr name := by
  rw [List.find?_map, Option.map_map, attr]
  have pred : ((fun a : Attribute => a.name == name) ∘ fun a : CString × JsValue =>
      Attribute.mk a.1 (change (ofJsValue a.2))) = fun a => a.1 == name := rfl
  rw [pred]
  cases found : event.attributes.find? fun a => a.1 == name with
  | none => rfl
  | some a =>
      rw [Option.map_some, Option.map_some, Function.comp_apply,
        same a (List.mem_of_find?_eq_some found)]

/-! ## The domain of the formats -/

theorem identifier_chars {s : CString} (identifier : isIdentifier s) :
    ∀ c ∈ s, 0 < c.toNat ∧ c.toNat < 128 := by
  have start : ∀ c : Char, isIdentifierStart c → 0 < c.toNat ∧ c.toNat < 128 := by
    intro c isStart
    have letter : c.isAlpha = (decide (c.val ≥ 65 ∧ c.val ≤ 90) ||
        (decide (c.val ≥ 97) && decide (c.val ≤ 122))) := rfl
    simp only [isIdentifierStart, letter, Bool.or_eq_true, Bool.and_eq_true, decide_eq_true_eq,
      beq_iff_eq, ge_iff_le, UInt32.le_iff_toNat_le] at isStart
    rcases isStart with (upper | rfl) | rfl
    · have value : c.toNat = c.val.toNat := rfl
      have bounds : 65 ≤ c.val.toNat ∧ c.val.toNat ≤ 122 := by
        rcases upper with ⟨lower, upper⟩ | ⟨lower, upper⟩
        · exact ⟨lower, le_trans upper (by decide)⟩
        · exact ⟨le_trans (by decide) lower, upper⟩
      omega
    · decide
    · decide
  cases s with
  | nil => cases identifier
  | cons first rest =>
      rw [isIdentifier, Bool.and_eq_true, List.all_eq_true] at identifier
      obtain ⟨isStart, parts⟩ := identifier
      intro c mem
      rcases List.mem_cons.mp mem with rfl | inRest
      · exact start c isStart
      · rcases (Bool.or_eq_true _ _).mp (parts c inRest) with isStart | digit
        · exact start c isStart
        · simp only [Char.isDigit, Bool.and_eq_true, decide_eq_true_eq, ge_iff_le,
            UInt32.le_iff_toNat_le] at digit
          have value : c.toNat = c.val.toNat := rfl
          have lower : 48 ≤ c.val.toNat := digit.1
          have upper : c.val.toNat ≤ 57 := digit.2
          omega

end Event

namespace CarriedAttribute

variable {a : CString × JsValue} (carried : CarriedAttribute a)

include carried

theorem nameShort : a.1.length < 2 ^ 31 := carried.short.trans (by decide)

theorem sent : Java.SentAttribute (ofJsAttribute a) := by
  obtain ⟨name, value⟩ := a
  constructor
  · exact ⟨fun c mem => (Event.identifier_chars carried.identifier c mem).2, carried.nameShort⟩
  · have ok := carried.value
    cases value with
    | int v => exact ok
    | float bits => exact ok.elim
    | bool b => trivial
    | string s => exact ⟨ok.1, ok.2.trans (by decide)⟩

theorem sendable : Js.SendableAttribute (ofJsAttribute a) := by
  obtain ⟨name, value⟩ := a
  constructor
  · exact carried.nameShort
  · have ok := carried.value
    cases value with
    | int v => exact ok
    | float bits => trivial
    | bool b => trivial
    | string s => exact ok.2.trans (by decide)

/-- What the engine asserts of a name and of a string, read up to its first NUL. -/
theorem ok : Java.AttributeOk (ofJsAttribute a) ∧
    Java.ShortAttribute (Java.cutAttribute (ofJsAttribute a)) := by
  obtain ⟨name, value⟩ := a
  have short := carried.short
  refine ⟨⟨⟨fun c mem => (Event.identifier_chars carried.identifier c mem).2, short.le⟩, ?_⟩,
    (Unmarshaller.length_cut_le name).trans_lt short, ?_⟩
  · have ok := carried.value
    cases value with
    | int v => exact ok
    | float bits => trivial
    | bool b => trivial
    | string s => exact ⟨ok.1, ok.2.le⟩
  · intro s isString
    have ok := carried.value
    cases value with
    | int v => cases isString
    | float bits => cases isString
    | bool b => cases isString
    | string t =>
        cases isString
        exact (Unmarshaller.length_cut_le t).trans_lt ok.2

theorem cut_name : a.1.cut = a.1 :=
  Unmarshaller.cut_eq_self fun c mem => (Event.identifier_chars carried.identifier c mem).1

end CarriedAttribute

theorem cut_eq_self_iff {s : CString} : s.cut = s ↔ ∀ c ∈ s, c ≠ Char.ofNat 0 := by
  rw [CString.cut, List.takeWhile_eq_self_iff]
  simp only [bne_iff_ne]

theorem asciiString_of_ascii {s : CString} (ascii : Java.IsAscii s) : asciiString s = s := by
  rw [asciiString, List.map_map]
  refine (List.map_congr_left fun c mem => ?_).trans (List.map_id s)
  have small := ascii c mem
  simp only [Function.comp_apply, asciiChar, Marshaller.encodeChar, UInt8.toNat_ofNat', id]
  rw [Nat.mod_eq_of_lt (show c.toNat < 2 ^ 8 by omega), Nat.mod_eq_of_lt small, Char.ofNat_toNat]

theorem jsAttribute_ofJsAttribute {a : CString × JsValue} (carried : CarriedAttribute a) :
    jsAttribute (ofJsAttribute a) = a := by
  obtain ⟨name, value⟩ := a
  have isName : asciiString name = name :=
    asciiString_of_ascii fun c mem => (Event.identifier_chars carried.identifier c mem).2
  have ok := carried.value
  cases value with
  | int v => exact congrArg (·, JsValue.int v) isName
  | float bits => exact ok.elim
  | bool b => exact congrArg (·, JsValue.bool b) isName
  | string s => exact Prod.ext isName (congrArg JsValue.string (asciiString_of_ascii ok.1))

/-! ## The writers agree -/

/-- Engine and Java client write attributes in the same way. -/
theorem encodeAttribute_eq_java (a : Attribute) :
    Marshaller.encodeAttribute a = Java.Marshaller.encodeAttribute a := by
  obtain ⟨name, value⟩ := a
  cases value with
  | float bits =>
      have same := (Unmarshaller.javaFloat_eq bits).symm
      exact congrArg (fun bytes => Marshaller.encodeString name ++
        (Marshaller.encodeValType .float ++ bytes)) same
  | _ => rfl

theorem encodeLong_natCast {n : Nat} (small : n < 2 ^ 63) :
    Java.Marshaller.encodeLong n = Marshaller.encodeTime n := by
  have same : ((n : Int) % 2 ^ 64).toNat = n := by omega
  rw [Java.Marshaller.encodeLong, same]
  rfl

theorem writeInt32BE_of_isInt {v : Int} (inRange : IsInt v) :
    writeInt32BE v = some (Marshaller.encodeInt v) := if_pos inRange

theorem writeCount {n : Nat} (small : n < 2 ^ 31) :
    writeInt32BE n = some (Marshaller.encodeInt n) :=
  writeInt32BE_of_isInt ⟨by omega, by omega⟩

theorem writeHigh {n : Nat} (small : n < 2 ^ 31) : writeInt32BE n = some (bigEndian 4 n) := by
  have same : ((n : Int) % 2 ^ 32).toNat = n := by omega
  rw [writeCount small, Marshaller.encodeInt, same]

theorem encodeAttr_eq {a : CString × JsValue} (carried : CarriedAttribute a) :
    encodeAttr a = some (Marshaller.encodeAttribute (ofJsAttribute a)) := by
  obtain ⟨name, value⟩ := a
  have ok := carried.value
  have val : encodeVal value = some (Marshaller.encodeValue (ofJsValue value)) := by
    cases value with
    | int v => exact writeInt32BE_of_isInt ok
    | float bits => rfl
    | bool b => rfl
    | string s =>
        have length := writeCount (ok.2.trans (show stringValLen < 2 ^ 31 by decide))
        rw [encodeVal, length]
        rfl
  have type : [valType value] = Marshaller.encodeValType (ofJsValue value).type := by
    cases value <;> rfl
  rw [encodeAttr, writeCount carried.nameShort, val]
  show some (_ ++ (writeAscii name ++ ([valType value] ++ _))) = _
  rw [type, Marshaller.encodeAttribute, Marshaller.encodeString, List.append_assoc]
  rfl

theorem encodeAttrs_eq {attributes : List (CString × JsValue)}
    (carried : ∀ a ∈ attributes, CarriedAttribute a) : encodeAttrs attributes =
      some ((attributes.map ofJsAttribute).flatMap Marshaller.encodeAttribute) := by
  induction attributes with
  | nil => rfl
  | cons a rest ih =>
      rw [encodeAttrs, encodeAttr_eq (carried a List.mem_cons_self),
        ih fun b mem => carried b (List.mem_cons_of_mem a mem)]
      rfl

/-- The same loop over the attributes. -/
theorem evtLen_eq (attributes : List (CString × JsValue)) (len : Nat) :
    attributes.foldl (fun len a => len + attrLen a) len = (attributes.map ofJsAttribute).foldl
      (fun size att => size + Marshaller.getNumBytesAttribute att) len := by
  induction attributes generalizing len with
  | nil => rfl
  | cons a rest ih =>
      have one : attrLen a = Marshaller.getNumBytesAttribute (ofJsAttribute a) := by
        obtain ⟨name, value⟩ := a
        cases value with
        | string s =>
            show 4 + name.length + 1 + (4 + s.length) = name.length + 4 + 1 + (s.length + 4)
            omega
        | _ =>
            simp only [attrLen, Marshaller.getNumBytesAttribute, Marshaller.getNumBytesString,
              ofJsAttribute, ofJsValue, Marshaller.getNumBytesValue]
            omega
      rw [List.foldl_cons, List.map_cons, List.foldl_cons, one, ih]

namespace Event

variable (event : Event)

theorem toCpp_eventType : event.toCpp.eventType = event.eventType :=
  PubPkt.new_eventType event.inType
    (event.attributes.map fun a => Java.cutAttribute (ofJsAttribute a)) 0

theorem visited_toJs :
    event.toJs.visited (event.attributes.map Prod.fst) = event.attributes := by
  rw [Evt.visited, List.filterMap_map]
  have all : ∀ a ∈ event.attributes, ((fun i => (event.toJs.attr i).map fun val => (i, val)) ∘
      Prod.fst) a = some a := by
    intro a mem
    have found : event.toJs.attr a.1 = some a.2 := attr_of_mem mem
    rw [Function.comp_apply, found]
    rfl
  rw [List.filterMap_congr all, List.filterMap_some]

variable {event}

theorem cutAttribute_ofJsAttribute (nulFree : event.NulFree) {a : CString × JsValue}
    (mem : a ∈ event.attributes) : Java.cutAttribute (ofJsAttribute a) = ofJsAttribute a := by
  have name := (event.carried a mem).cut_name
  have noNul := nulFree a mem
  obtain ⟨i, value⟩ := a
  cases value with
  | string s =>
      have cut : s.cut = s := cut_eq_self_iff.mpr (noNul s rfl)
      show Attribute.mk i.cut (.string s.cut) = ⟨i, .string s⟩
      rw [name, cut]
  | _ => exact congrArg (Attribute.mk · _) name

variable (few : event.attributes.length < 2 ^ 16) (nulFree : event.NulFree)

include few nulFree

/-- 16 bits count the attributes. -/
theorem toCpp_attributes : event.toCpp.attributes = event.attributes.map ofJsAttribute := by
  have cut := List.map_congr_left fun a mem => cutAttribute_ofJsAttribute nulFree (a := a) mem
  have few : (event.attributes.map ofJsAttribute).length < 2 ^ 16 := by
    rw [List.length_map]
    exact few
  rw [toCpp, PubPkt.setTime, cut]
  exact PubPkt.new_attributes few event.eventType 0

theorem encodePubBody_eq :
    Java.Marshaller.encodePubBody event.toJava = Marshaller.encodeBody event.toCpp := by
  have time := event.inTime
  have collection : Java.Marshaller.encodeCollection Java.Marshaller.encodeAttribute
      event.toJava.attributes = Marshaller.encodeInt event.toCpp.attributes.length ++
        event.toCpp.attributes.flatMap Marshaller.encodeAttribute := by
    rw [toCpp_attributes few nulFree, funext encodeAttribute_eq_java]
    rfl
  rw [Java.Marshaller.encodePubBody, Marshaller.encodeBody, collection, toCpp_eventType]
  rw [show event.toJava.timeStamp = event.timeStamp from rfl, encodeLong_natCast (by omega)]
  rfl

theorem encodePub_eq : Java.Marshaller.encodePub event.toJava = Marshaller.encode event.toCpp := by
  have body := encodePubBody_eq few nulFree
  have size := congrArg List.length body
  rw [Java.Marshaller.length_encodePubBody, Marshaller.length_encodeBody] at size
  rw [Java.Marshaller.encodePub, Marshaller.encode, size, body]
  rfl

theorem fits_toCpp : event.toCpp.Fits := by
  have attributes := toCpp_attributes few nulFree
  refine ⟨?_, event.inTime.trans (by decide), ?_, ?_⟩
  · rw [toCpp_eventType]
    exact event.inType
  · rw [attributes, List.length_map]
    exact few
  · intro a mem
    rw [attributes] at mem
    obtain ⟨a, inEvent, rfl⟩ := List.mem_map.mp mem
    have carried := event.carried a inEvent
    have noNul := nulFree a inEvent
    obtain ⟨name, value⟩ := a
    refine ⟨⟨fun c mem => ?_, carried.short⟩, ?_⟩
    · have ascii := identifier_chars carried.identifier c mem
      omega
    · have ok := carried.value
      cases value with
      | int v => exact ok
      | float bits => trivial
      | bool b => trivial
      | string s =>
          refine ⟨fun c mem => ?_, ok.2⟩
          have small := ok.1 c mem
          have nonzero : c.toNat ≠ 0 := by
            intro isZero
            exact noNul s rfl c mem (by rw [← isZero, Char.ofNat_toNat])
          omega

theorem getEvtPkt_eq :
    getEvtPkt event.toJs (event.attributes.map Prod.fst) =
      some (Marshaller.encode event.toCpp) := by
  have time := event.inTime
  have type := event.inType
  have attributes := toCpp_attributes few nulFree
  have count : writeInt32BE event.attributes.length =
      some (Marshaller.encodeInt event.attributes.length) := writeCount (by omega)
  have len : writeInt32BE (evtLen event.attributes) =
      some (Marshaller.encodeInt (Marshaller.getNumBytes event.toCpp)) := by
    have same : evtLen event.attributes = Marshaller.getNumBytes event.toCpp := by
      rw [evtLen, evtLen_eq, Marshaller.getNumBytes, attributes]
    rw [same]
    exact writeCount (Marshaller.getNumBytes_lt (fits_toCpp few nulFree))
  have evtType : writeInt32BE event.toJs.evtType = some (Marshaller.encodeInt event.eventType) :=
    writeCount (by omega)
  have remainder : event.toJs.timeStamp.tmod POW32 = (event.timeStamp % 2 ^ 32 : Nat) := by
    rw [show event.toJs.timeStamp = (event.timeStamp : Int) from rfl, POW32,
      Int.tmod_eq_emod_of_nonneg (by omega)]
    omega
  have quotient : (event.toJs.timeStamp - event.toJs.timeStamp.tmod POW32) / POW32 =
      (event.timeStamp / 2 ^ 32 : Nat) := by
    rw [remainder, show event.toJs.timeStamp = (event.timeStamp : Int) from rfl, POW32]
    omega
  have high : writeInt32BE (event.timeStamp / 2 ^ 32 : Nat) =
      some (bigEndian 4 (event.timeStamp / 2 ^ 32)) := by
    have small : event.timeStamp / 2 ^ 32 < 2 ^ 31 := by omega
    exact writeHigh small
  have low : writeUInt32BE (event.timeStamp % 2 ^ 32 : Nat) =
      some (bigEndian 4 event.timeStamp) := by
    have inWord : 0 ≤ ((event.timeStamp % 2 ^ 32 : Nat) : Int) ∧
        ((event.timeStamp % 2 ^ 32 : Nat) : Int) < 2 ^ 32 := by omega
    rw [writeUInt32BE, if_pos inWord, Int.toNat_natCast]
    exact congrArg some (bigEndian_mod 4 event.timeStamp)
  have bytes : Marshaller.encode event.toCpp = [0] ++ (Marshaller.encodeInt
      (Marshaller.getNumBytes event.toCpp) ++ (Marshaller.encodeInt event.eventType ++
        (bigEndian 4 (event.timeStamp / 2 ^ 32) ++ (bigEndian 4 event.timeStamp ++
          (Marshaller.encodeInt event.attributes.length ++
            (event.attributes.map ofJsAttribute).flatMap Marshaller.encodeAttribute))))) := by
    rw [encode_parts, toCpp_eventType, attributes, List.length_map, encodeTime_eq,
      List.append_assoc]
    rfl
  rw [getEvtPkt, encodeEvt, visited_toJs, quotient, remainder, len, evtType, high, low, count,
    encodeAttrs_eq event.carried, bytes]
  rfl

end Event

/-! ## The readers agree -/

theorem toDouble_natCast {n : Nat} (small : n < 2 ^ 53) : toDouble n = n := by
  have bits : n.log2 + 1 - 53 = 0 := by
    by_cases isZero : n = 0
    · rw [isZero]
      decide
    · have log := (Nat.log2_lt isZero).mpr small
      omega
  simp only [toDouble, Int.natAbs_natCast, bits, pow_zero, Nat.div_one, Nat.mod_one]
  rw [if_neg (by omega), Nat.mul_one]
  cases n with
  | zero => rfl
  | succ n => exact Int.one_mul _

theorem jsTime_eq {n : Nat} (small : n < 2 ^ 53) : jsTime n = n := by
  have high : wrap32 (n / 2 ^ 32 % 2 ^ 32 : Nat) = (n / 2 ^ 32 : Nat) := by
    have inRange : IsInt (n / 2 ^ 32 : Nat) := ⟨by omega, by omega⟩
    have same := Unmarshaller.wrap32_emod inRange
    rw [← same]
    congr 1
  have whole : ((n / 2 ^ 32 : Nat) : Int) * POW32 + (n % 2 ^ 32 : Nat) = n := by
    rw [POW32]
    omega
  rw [jsTime, high, whole, toDouble_natCast small]

/-- Properties of different names keep the values that they are given. -/
theorem foldl_setAttr {attributes : List (CString × JsValue)}
    (names : (attributes.map Prod.fst).Nodup)
    (notProto : ∀ a ∈ attributes, a.1 ≠ "__proto__".toList)
    (attr : CString → Option JsValue) (name : CString) : attributes.foldl setAttr attr name =
      ((attributes.find? fun a => a.1 == name).map Prod.snd).or (attr name) := by
  induction attributes generalizing attr with
  | nil => rfl
  | cons a rest ih =>
      rw [List.map_cons, List.nodup_cons] at names
      rw [List.foldl_cons, ih names.2 fun b mem => notProto b (List.mem_cons_of_mem a mem),
        setAttr, if_neg (notProto a List.mem_cons_self), List.find?_cons]
      by_cases isName : a.1 = name
      · have later : (rest.find? fun b => b.1 == name) = none := by
          apply List.find?_eq_none.mpr
          intro b mem isName'
          exact names.1 (isName ▸ eq_of_beq isName' ▸ List.mem_map_of_mem mem)
        rw [later, isName, beq_self_eq_true, Function.update_self]
        rfl
      · rw [beq_false_of_ne isName, Function.update_of_ne (Ne.symm isName)]

namespace Event

variable (event : Event) (now pad : Nat)

/-- The packet that the engine makes of the bytes of the Java client. -/
def received : PubPkt :=
  (PubPkt.new event.eventType ((event.attributes.map ofJsAttribute).map fun a =>
    (Java.cutAttribute a).stored pad) now).setTime event.timeStamp

theorem reads_received : Reads (Unmarshaller.decodePubPkt now pad)
    (Java.Marshaller.encodePubBody event.toJava) (event.received now pad) := by
  have type := event.inType
  have time := event.inTime
  have timed := event.timed
  have countable := event.countable
  have length : event.toJava.attributes.length = event.attributes.length := List.length_map _
  have long : Java.IsLong event.toJava.timeStamp := by
    show -2 ^ 63 ≤ (event.timeStamp : Int) ∧ (event.timeStamp : Int) < 2 ^ 63
    omega
  have isTime : Unmarshaller.timeOfLong event.toJava.timeStamp = event.timeStamp := by
    show ((event.timeStamp : Int) % 2 ^ 64).toNat = event.timeStamp
    omega
  have each : ∀ a ∈ event.attributes.map ofJsAttribute, Reads (Unmarshaller.decodeAttribute pad)
      (Java.Marshaller.encodeAttribute a) ((Java.cutAttribute a).stored pad) := by
    intro a mem
    obtain ⟨a, inEvent, rfl⟩ := List.mem_map.mp mem
    have ok := (event.carried a inEvent).ok
    exact Unmarshaller.reads_javaAttribute ok.1 ok.2
  apply (Unmarshaller.reads_count (show event.eventType < 2 ^ 31 by omega)).bind
  apply (Unmarshaller.reads_javaLong long).bind
  apply (Unmarshaller.reads_count (by omega)).bind
  apply Reads.require (by omega)
  apply (Reads.times each).last
  simp only [isTime]
  rw [if_pos timed]
  exact Reads.pure _

theorem received_attr (name : CString) : (event.received now pad).content.attr name =
    ((event.attributes.take (event.attributes.length % 2 ^ 16)).find? fun a => a.1 == name).map
      fun a => (Java.cutValue (ofJsValue a.2)).typed := by
  have attributes : (event.received now pad).attributes =
      (event.attributes.take (event.attributes.length % 2 ^ 16)).map fun a =>
        (Java.cutAttribute (ofJsAttribute a)).stored pad := by
    simp only [received, PubPkt.setTime, PubPkt.new, List.length_map, List.map_map, ← List.map_take]
    rfl
  rw [PubPkt.content_attr rfl, attributes, List.find?_map, Option.map_map]
  have names : ∀ a ∈ event.attributes, (Java.cutAttribute (ofJsAttribute a)).name = a.1 :=
    fun a mem => (event.carried a mem).cut_name
  have values : ((fun a : Attribute => a.value.typed) ∘ fun a =>
      (Java.cutAttribute (ofJsAttribute a)).stored pad) =
        fun a => (Java.cutValue (ofJsValue a.2)).typed := by
    funext a
    exact typed_stored pad _
  rw [values]
  congr 1
  apply List.find?_congr
  intro a mem
  show ((Java.cutAttribute (ofJsAttribute a)).name == name) = _
  rw [names a (List.mem_of_mem_take mem)]

/-- What the engine makes of the bytes of the Java client. -/
theorem read_cpp_java : Codec.read now pad (Java.Marshaller.encodePub event.toJava) .cpp =
    some (event.received now pad).content := by
  have body : (Java.Marshaller.encodePub event.toJava).drop 5 =
      Java.Marshaller.encodePubBody event.toJava ++ [] := by
    rw [List.append_nil]
    rfl
  have reads := event.reads_received now pad []
  rw [Codec.read, body, reads]
  rfl

/-- The Java client reads what it has written. -/
theorem read_java : Codec.read now pad (Java.Marshaller.encodePub event.toJava) .java =
    some event.content := by
  have type := event.inType
  have time := event.inTime
  have sent : event.toJava.Sent := by
    refine ⟨⟨?_, ?_⟩, ⟨?_, ?_⟩, ?_, ?_⟩
    · show -2 ^ 31 ≤ (event.eventType : Int)
      omega
    · show (event.eventType : Int) < 2 ^ 31
      omega
    · show -2 ^ 63 ≤ (event.timeStamp : Int)
      omega
    · show (event.timeStamp : Int) < 2 ^ 63
      omega
    · show (event.attributes.map ofJsAttribute).length < 2 ^ 31
      rw [List.length_map]
      exact event.countable
    · intro a mem
      obtain ⟨a, inEvent, rfl⟩ := List.mem_map.mp mem
      exact (event.carried a inEvent).sent
  have body : (Java.Marshaller.encodePub event.toJava).drop 5 =
      Java.Marshaller.encodePubBody event.toJava ++ [] := by
    rw [List.append_nil]
    rfl
  rw [Codec.read, body, Java.Unmarshaller.reads_pubPkt sent [], Option.map_some]
  have same : ∀ a ∈ event.attributes, ((ofJsValue a.2).stored 0).typed = a.2 := by
    intro a mem
    rw [typed_stored, typed_ofJsValue]
  have attributes : event.toJava.attributes.map (Attribute.stored 0) =
      event.attributes.map fun a => Attribute.mk a.1 ((ofJsValue a.2).stored 0) := List.map_map
  apply congrArg some
  apply Content.ext
  · rfl
  · rfl
  · funext name
    rw [Java.PubPkt.content, attributes]
    exact find?_ofJsAttribute (Value.stored 0) same name

variable {event now pad} (few : event.attributes.length < 2 ^ 16) (nulFree : event.NulFree)

include few nulFree

theorem content_received : (event.received now pad).content = event.content := by
  apply Content.ext
  · exact congrArg Nat.cast (PubPkt.new_eventType event.inType
      ((event.attributes.map ofJsAttribute).map fun a => (Java.cutAttribute a).stored pad) now)
  · rfl
  · funext name
    rw [received_attr, Nat.mod_eq_of_lt few, List.take_length]
    show _ = event.attr name
    rw [attr]
    cases found : event.attributes.find? fun a => a.1 == name with
    | none => rfl
    | some a =>
        have cut := cutAttribute_ofJsAttribute nulFree (List.mem_of_find?_eq_some found)
        have value : Java.cutValue (ofJsValue a.2) = ofJsValue a.2 := congrArg Attribute.value cut
        rw [Option.map_some, Option.map_some, value, typed_ofJsValue]

theorem read_js : Codec.read now pad (Marshaller.encode event.toCpp) .js = some event.content := by
  have attributes := toCpp_attributes few nulFree
  have sendable : SendablePkt event.toCpp := by
    constructor
    · rw [toCpp_eventType]
      exact event.inType
    · rw [attributes, List.length_map]
      exact few
    · intro a mem
      rw [attributes] at mem
      obtain ⟨a, inEvent, rfl⟩ := List.mem_map.mp mem
      exact (event.carried a inEvent).sendable
  have names : event.toCpp.attributes.map jsAttribute = event.attributes := by
    rw [attributes, List.map_map]
    exact (List.map_congr_left fun a mem => jsAttribute_ofJsAttribute (event.carried a mem)).trans
      (List.map_id _)
  have parsed := parseEvtPkt_encode sendable
  rw [Codec.read, parsed, Option.bind_some, Option.map_some]
  apply congrArg some
  apply Content.ext
  · exact congrArg Nat.cast event.toCpp_eventType
  · exact jsTime_eq event.inTime
  · funext name
    show (event.toCpp.attributes.map jsAttribute).foldl setAttr (fun _ => none) name =
      event.attr name
    rw [names, foldl_setAttr event.names fun a mem => (event.carried a mem).notProto,
      Option.or_none]
    rfl

/-! ## Agreement -/

/-- The three languages write the same bytes. -/
theorem write_eq (writer : Codec) : writer.write event = some (Marshaller.encode event.toCpp) := by
  cases writer with
  | cpp => rfl
  | java => exact congrArg some (encodePub_eq few nulFree)
  | js => exact getEvtPkt_eq few nulFree

/-- They read the event from them. -/
theorem read_eq (reader : Codec) :
    reader.read now pad (Marshaller.encode event.toCpp) = some event.content := by
  have same := encodePub_eq few nulFree
  cases reader with
  | cpp => rw [← same, read_cpp_java, content_received few nulFree]
  | java => rw [← same, read_java]
  | js => exact read_js few nulFree

omit few nulFree

theorem few_of_agreed (agreed : event.Agreed now pad) : event.attributes.length < 2 ^ 16 := by
  obtain ⟨bytes, written, read⟩ := agreed .java .cpp
  cases written
  rw [read_cpp_java] at read
  by_contra many
  -- The first attribute that 16 bits leave out.
  have whole := List.take_append_drop (event.attributes.length % 2 ^ 16) event.attributes
  have left : 0 < (event.attributes.drop (event.attributes.length % 2 ^ 16)).length := by
    rw [List.length_drop]
    omega
  obtain ⟨a, inLeft⟩ := List.exists_mem_of_length_pos left
  have mem : a ∈ event.attributes := List.mem_of_mem_drop inLeft
  have unfound : ((event.attributes.take (event.attributes.length % 2 ^ 16)).find? fun b =>
      b.1 == a.1) = none := by
    apply List.find?_eq_none.mpr
    intro b inFirst isName
    have names := event.names
    rw [← whole, List.map_append, List.nodup_append] at names
    exact names.2.2 b.1 (List.mem_map_of_mem inFirst) a.1 (List.mem_map_of_mem inLeft)
      (eq_of_beq isName)
  have found : (event.received now pad).content.attr a.1 = event.attr a.1 :=
    congrFun (congrArg Content.attr (Option.some.inj read)) a.1
  rw [received_attr, unfound, attr_of_mem mem] at found
  cases found

theorem nulFree_of_agreed (agreed : event.Agreed now pad) : event.NulFree := by
  have few := few_of_agreed agreed
  obtain ⟨bytes, written, read⟩ := agreed .java .cpp
  cases written
  rw [read_cpp_java] at read
  intro a mem s isString
  have found : (event.received now pad).content.attr a.1 = event.attr a.1 :=
    congrFun (congrArg Content.attr (Option.some.inj read)) a.1
  rw [received_attr, Nat.mod_eq_of_lt few, List.take_length, find?_of_nodup event.names mem,
    attr_of_mem mem, Option.map_some, isString] at found
  have cut : s.cut = s := JsValue.string.inj (Option.some.inj found)
  exact cut_eq_self_iff.mp cut

end Event

/-- Every writer and every reader keep the type, the time and the values of an event if and only if
it has at most 65535 attributes and no string of it contains a NUL. -/
theorem codecs_agree_iff (event : Event) (now pad : Nat) :
    event.Agreed now pad ↔ event.attributes.length < 2 ^ 16 ∧ event.NulFree := by
  constructor
  · intro agreed
    exact ⟨Event.few_of_agreed agreed, Event.nulFree_of_agreed agreed⟩
  · rintro ⟨few, nulFree⟩ writer reader
    exact ⟨_, Event.write_eq few nulFree writer, Event.read_eq few nulFree reader⟩

/-- An event with a string of one NUL. -/
def nulEvent : Event where
  eventType := 1
  inType := by decide
  timeStamp := 5
  timed := by decide
  inTime := by decide
  attributes := [(['s'], .string [Char.ofNat 0])]
  countable := by decide
  names := by decide
  carried := by
    intro a mem
    cases List.mem_singleton.mp mem
    have ascii : Java.IsAscii [Char.ofNat 0] := by
      intro c mem
      cases List.mem_singleton.mp mem
      decide
    exact ⟨by decide, by decide, by decide, ascii, by decide⟩

/-- The engine reads the empty string. -/
theorem nulEvent_not_agreed : ¬ nulEvent.Agreed 0 0 := by
  intro agreed
  have nulFree := Event.nulFree_of_agreed agreed
  exact nulFree (['s'], .string [Char.ofNat 0]) List.mem_cons_self [Char.ofNat 0] rfl (Char.ofNat 0)
    List.mem_cons_self rfl

end TRex
