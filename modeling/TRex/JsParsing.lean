import TRex.JsClient

/-!
# What the JavaScript client reads

`parseEvtPkt` on what the server writes for a publication, whole and cut short. The handler of a
connection parses every buffer that arrives as one packet: `events_delivered` says that this gives
the events of the packets if every buffer is a packet, and that a buffer may not end inside the
packet that it begins with.
-/

namespace TRex.Js

open Wire Cursor

/-! ## Packets of the server -/

/-- A value of the server: an `int`, or a string whose length is one. -/
def Sendable : Value → Prop
  | .int v => IsInt v
  | .float _ => True
  | .bool _ _ => True
  | .string s => s.length < 2 ^ 31

structure SendableAttribute (a : Attribute) : Prop where
  name : a.name.length < 2 ^ 31
  value : Sendable a.value

structure SendablePkt (pkt : PubPkt) : Prop where
  type : pkt.eventType < 2 ^ 16
  few : pkt.attributes.length < 2 ^ 16
  attributes : ∀ a ∈ pkt.attributes, SendableAttribute a

/-- The string that is read: 7 bits of each character. -/
def asciiString (s : CString) : CString := (s.map Marshaller.encodeChar).map asciiChar

def jsValue : Value → JsValue
  | .int v => .int v
  | .float bits => ofFloat bits
  | .bool b _ => .bool b
  | .string s => .string (asciiString s)

def jsAttribute (a : Attribute) : CString × JsValue := (asciiString a.name, jsValue a.value)

/-- The time that is put together from two halves. -/
def jsTime (timeStamp : Nat) : Int :=
  toDouble (wrap32 (timeStamp / 2 ^ 32 % 2 ^ 32 : Nat) * POW32 + (timeStamp % 2 ^ 32 : Nat))

/-- The event that is read from a publication. -/
def evtOf (pkt : PubPkt) : Evt :=
  { evtType := pkt.eventType
    timeStamp := jsTime pkt.timeStamp
    attr := (pkt.attributes.map jsAttribute).foldl setAttr fun _ => none }

section Reading

variable {buf rest : Bytes} {pos : Int}

/-! ## Numbers at an offset -/

theorem wrap32_ofBigEndian {v : Int} (inRange : IsInt v) :
    wrap32 (ofBigEndian (Marshaller.encodeInt v)) = v := by
  rw [Marshaller.encodeInt, ofBigEndian_bigEndian]
  have same : (((v % 2 ^ 32).toNat % 256 ^ 4 : Nat) : Int) = v % 2 ^ 32 := by
    have nonneg : 0 ≤ v % 2 ^ 32 := Int.emod_nonneg _ (by decide)
    have small : v % 2 ^ 32 < 2 ^ 32 := Int.emod_lt_of_pos _ (by decide)
    rw [Nat.mod_eq_of_lt (by omega)]
    omega
  rw [same, Unmarshaller.wrap32_emod inRange]

theorem readInt32BE_at {v : Int} (inRange : IsInt v)
    (here : At buf pos (Marshaller.encodeInt v ++ rest)) : readInt32BE buf pos = some v := by
  rw [readInt32BE, here.read (Marshaller.length_encodeInt v) (by decide), Option.map_some,
    wrap32_ofBigEndian inRange]

theorem readCount_at {n : Nat} (small : n < 2 ^ 31)
    (here : At buf pos (Marshaller.encodeInt n ++ rest)) : readInt32BE buf pos = some (n : Int) :=
  readInt32BE_at ⟨by omega, by omega⟩ here

theorem readInt8_at {b : UInt8} (here : At buf pos (b :: rest)) :
    readInt8 buf pos = some (Int.bmod b.toNat (2 ^ 8)) := by
  have one : At buf pos ([b] ++ rest) := here
  rw [readInt8, one.read List.length_singleton Nat.one_pos, Option.map_some]
  congr 2
  simp [ofBigEndian]

theorem toAscii_at {s : CString} (here : At buf pos (s.map Marshaller.encodeChar ++ rest)) :
    toAscii buf pos (pos + s.length) = asciiString s := by
  rw [toAscii, here.slice, List.take_left' (List.length_map _)]
  rfl

/-- The two halves of a time. -/
theorem encodeTime_eq (n : Nat) :
    Marshaller.encodeTime n = bigEndian 4 (n / 2 ^ 32) ++ bigEndian 4 n :=
  bigEndian_add 4 4 n

/-! ## Attributes at an offset -/

/-- The number of a type. -/
def typeNumber : ValType → Int
  | .int => 0
  | .float => 1
  | .bool => 2
  | .string => 3

theorem readType_at {type : ValType} (here : At buf pos (Marshaller.encodeValType type ++ rest)) :
    readInt8 buf pos = some (typeNumber type) := by
  obtain ⟨b, written, number⟩ : ∃ b, Marshaller.encodeValType type = [b] ∧
      Int.bmod b.toNat (2 ^ 8) = typeNumber type := by
    cases type <;> exact ⟨_, rfl, by decide⟩
  rw [written] at here
  rw [← number]
  exact readInt8_at here

theorem decodeVal_at {v : Value} (sendable : Sendable v)
    (here : At buf pos (Marshaller.encodeValue v ++ rest)) :
    ∃ pos', decodeVal buf pos (typeNumber v.type) = some (jsValue v, pos') ∧ At buf pos' rest := by
  cases v with
  | int v =>
      have read := readInt32BE_at sendable here
      refine ⟨pos + 4, ?_, here.next (Marshaller.length_encodeInt v)⟩
      show (readInt32BE buf pos).bind _ = _
      rw [read]
      rfl
  | float bits =>
      have read := here.read (length_bigEndian 4 _) (by decide)
      refine ⟨pos + 4, ?_, here.next (length_bigEndian 4 _)⟩
      have float : readFloatBE buf pos = some (ofFloat bits) := by
        rw [readFloatBE, read, Option.map_some,
          show Marshaller.encodeValue (.float bits) = bigEndian 4 bits.toNat from rfl,
          ofBigEndian_bigEndian,
          Nat.mod_eq_of_lt (by simpa using bits.toNat_lt), UInt32.ofNat_toNat]
      show (readFloatBE buf pos).bind _ = _
      rw [float]
      rfl
  | bool b pad =>
      have read := readInt8_at here
      refine ⟨pos + 1, ?_, here.next List.length_singleton⟩
      have bit : (Int.bmod (if b then (1 : UInt8) else 0).toNat (2 ^ 8) == 1) = b := by
        cases b <;> decide
      show (readInt8 buf pos).bind _ = _
      rw [read]
      simp only [Option.bind_some, bit]
      rfl
  | string s =>
      rw [Marshaller.encodeValue, Marshaller.encodeString, List.append_assoc] at here
      have read := readCount_at sendable here
      have chars : At buf (pos + 4) _ := here.next (Marshaller.length_encodeInt _)
      refine ⟨pos + 4 + s.length, ?_, chars.next (List.length_map _)⟩
      show (readInt32BE buf pos).bind _ = _
      rw [read]
      simp only [Option.bind_some, toAscii_at chars]
      rfl

/-- The parts of an attribute. -/
theorem encodeAttribute_parts (a : Attribute) (rest : Bytes) :
    Marshaller.encodeAttribute a ++ rest = Marshaller.encodeInt a.name.length ++
      (a.name.map Marshaller.encodeChar ++ (Marshaller.encodeValType a.type ++
        (Marshaller.encodeValue a.value ++ rest))) := by
  rw [Marshaller.encodeAttribute, Marshaller.encodeString]
  simp only [List.append_assoc]

/-- What is read of an attribute up to its value. -/
theorem decodeAttr_named {a : Attribute} (sendable : SendableAttribute a)
    (here : At buf pos (Marshaller.encodeInt a.name.length ++
      (a.name.map Marshaller.encodeChar ++ (Marshaller.encodeValType a.type ++ rest)))) :
    At buf (pos + 4 + a.name.length + 1) rest ∧
      decodeAttr buf pos = (decodeVal buf (pos + 4 + a.name.length + 1) (typeNumber a.type)).map
        fun x => ((asciiString a.name, x.1), x.2) := by
  have atName : At buf (pos + 4) _ := here.next (Marshaller.length_encodeInt _)
  have atType : At buf (pos + 4 + a.name.length) _ := atName.next (List.length_map _)
  constructor
  · exact atType.next (Marshaller.length_encodeValType _)
  · unfold decodeAttr
    rw [readCount_at sendable.name here]
    simp only [Option.bind_eq_bind, Option.bind_some, toAscii_at atName, readType_at atType]
    exact Option.map_eq_bind.symm

theorem decodeAttr_at {a : Attribute} (sendable : SendableAttribute a)
    (here : At buf pos (Marshaller.encodeAttribute a ++ rest)) :
    ∃ pos', decodeAttr buf pos = some (jsAttribute a, pos') ∧ At buf pos' rest := by
  rw [encodeAttribute_parts] at here
  obtain ⟨atValue, named⟩ := decodeAttr_named sendable here
  obtain ⟨pos', read, behind⟩ := decodeVal_at sendable.value atValue
  exact ⟨pos', by rw [named, show a.type = a.value.type from rfl, read]; rfl, behind⟩

theorem decodeAttrs_at {attributes : List Attribute}
    (sendable : ∀ a ∈ attributes, SendableAttribute a)
    (here : At buf pos (attributes.flatMap Marshaller.encodeAttribute ++ rest))
    (attr : CString → Option JsValue) :
    decodeAttrs buf attributes.length pos attr =
      some ((attributes.map jsAttribute).foldl setAttr attr) := by
  induction attributes generalizing pos attr with
  | nil => rfl
  | cons a others ih =>
      rw [List.flatMap_cons, List.append_assoc] at here
      obtain ⟨pos', read, behind⟩ := decodeAttr_at (sendable a List.mem_cons_self) here
      rw [List.length_cons, decodeAttrs, read]
      exact ih (fun b mem => sendable b (List.mem_cons_of_mem a mem)) behind
        (setAttr attr (jsAttribute a))

/-! ## Packets -/

/-- What is read of a packet up to its attributes. -/
theorem parseEvtPkt_header {pkt : PubPkt} (sendable : SendablePkt pkt) (len : Int)
    (attrs : Bytes) :
    let buf := [0] ++ (Marshaller.encodeInt len ++ (Marshaller.encodeInt pkt.eventType ++
      (Marshaller.encodeTime pkt.timeStamp ++
        (Marshaller.encodeInt pkt.attributes.length ++ attrs))))
    ∃ pos, At buf pos attrs ∧ parseEvtPkt buf =
      (decodeAttrs buf pkt.attributes.length pos fun _ => none).map fun attr =>
        some { evtType := pkt.eventType, timeStamp := jsTime pkt.timeStamp, attr } := by
  intro buf
  have type := sendable.type
  have few := sendable.few
  have atType : At buf 0 ([0] ++ _) := At.start buf
  have atLen : At buf 1 _ := atType.next List.length_singleton
  have atEvtType : At buf (1 + 4) _ := atLen.next (Marshaller.length_encodeInt _)
  have atTime : At buf (1 + 4 + 4) _ := atEvtType.next (Marshaller.length_encodeInt _)
  rw [encodeTime_eq, List.append_assoc] at atTime
  have atLow : At buf (1 + 4 + 4 + 4) _ := atTime.next (length_bigEndian 4 _)
  have atCount : At buf (1 + 4 + 4 + 4 + 4) _ := atLow.next (length_bigEndian 4 _)
  have atAttrs : At buf (1 + 4 + 4 + 4 + 4 + 4) attrs :=
    atCount.next (Marshaller.length_encodeInt _)
  have isPub := readInt8_at atType
  rw [show Int.bmod (0 : UInt8).toNat (2 ^ 8) = 0 by decide] at isPub
  have readType := readCount_at (by omega) atEvtType
  have word : 256 ^ 4 = 2 ^ 32 := by norm_num
  have readHigh : readInt32BE buf (1 + 4 + 4) =
      some (wrap32 (pkt.timeStamp / 2 ^ 32 % 2 ^ 32 : Nat)) := by
    rw [readInt32BE, atTime.read (length_bigEndian 4 _) (by decide), Option.map_some,
      ofBigEndian_bigEndian, word]
  have readLow : readUInt32BE buf (1 + 4 + 4 + 4) =
      some ((pkt.timeStamp % 2 ^ 32 : Nat) : Int) := by
    rw [readUInt32BE, atLow.read (length_bigEndian 4 _) (by decide), Option.map_some,
      ofBigEndian_bigEndian, word]
  have readNum := readCount_at (by omega) atCount
  refine ⟨_, atAttrs, ?_⟩
  have evt : decodeEvt buf 1 = (decodeAttrs buf pkt.attributes.length
      (1 + 4 + 4 + 4 + 4 + 4) fun _ => none).map fun attr =>
        { evtType := pkt.eventType, timeStamp := jsTime pkt.timeStamp, attr } := by
    unfold decodeEvt
    simp only [Option.bind_eq_bind, readType, readHigh, readLow, readNum, Option.bind_some,
      Int.toNat_natCast]
    exact Option.map_eq_bind.symm
  unfold parseEvtPkt
  rw [isPub, evt]
  simp only [Option.bind_eq_bind, Option.bind_some]
  rw [if_neg (by decide)]
  cases decodeAttrs buf pkt.attributes.length (1 + 4 + 4 + 4 + 4 + 4) fun _ => none with
  | none => rfl
  | some attr => rfl

/-- The parts of a packet. -/
theorem encode_parts (pkt : PubPkt) : Marshaller.encode pkt = [0] ++
    (Marshaller.encodeInt (Marshaller.getNumBytes pkt) ++ (Marshaller.encodeInt pkt.eventType ++
      (Marshaller.encodeTime pkt.timeStamp ++ (Marshaller.encodeInt pkt.attributes.length ++
        pkt.attributes.flatMap Marshaller.encodeAttribute)))) := rfl

theorem parseEvtPkt_encode {pkt : PubPkt} (sendable : SendablePkt pkt) :
    parseEvtPkt (Marshaller.encode pkt) = some (some (evtOf pkt)) := by
  obtain ⟨pos, atAttrs, parsed⟩ := parseEvtPkt_header sendable (Marshaller.getNumBytes pkt)
    (pkt.attributes.flatMap Marshaller.encodeAttribute)
  have atEnd : At (Marshaller.encode pkt) pos
      (pkt.attributes.flatMap Marshaller.encodeAttribute ++ []) := by
    rw [List.append_nil]
    exact atAttrs
  rw [← encode_parts, decodeAttrs_at sendable.attributes atEnd] at parsed
  exact parsed

/-! ## A packet cut short -/

/-- Of a value that is cut nothing is read, or a string that is too short. -/
theorem decodeVal_cut {v : Value} (sendable : Sendable v) {part missing : Bytes}
    (isPart : missing ≠ []) (whole : part ++ missing = Marshaller.encodeValue v)
    (here : At buf pos part) :
    decodeVal buf pos (typeNumber v.type) = none ∨ ∃ s t pos', v = .string s ∧
      decodeVal buf pos (typeNumber v.type) = some (.string t, pos') ∧ t.length < s.length ∧
        At buf pos' [] := by
  have positive : 0 < missing.length := List.length_pos_iff.mpr isPart
  have size := congrArg List.length whole
  rw [List.length_append] at size
  cases v with
  | int v =>
      have short : part.length < 4 := by
        have four : (Marshaller.encodeValue (.int v)).length = 4 := Marshaller.length_encodeInt v
        omega
      refine .inl ?_
      show (readInt32BE buf pos).bind _ = _
      rw [readInt32BE, here.read_short short]
      rfl
  | float bits =>
      have short : part.length < 4 := by
        have four : (Marshaller.encodeValue (.float bits)).length = 4 := length_bigEndian 4 _
        omega
      refine .inl ?_
      show (readFloatBE buf pos).bind _ = _
      rw [readFloatBE, here.read_short short]
      rfl
  | bool b pad =>
      have short : part.length < 1 := by
        have one : (Marshaller.encodeValue (.bool b pad)).length = 1 := rfl
        omega
      refine .inl ?_
      show (readInt8 buf pos).bind _ = _
      rw [readInt8, here.read_short short]
      rfl
  | string s =>
      rw [Marshaller.encodeValue, Marshaller.encodeString] at whole
      rcases Cursor.cut whole with inLength | ⟨chars, rfl, rest⟩
      · rw [Marshaller.length_encodeInt] at inLength
        refine .inl ?_
        show (readInt32BE buf pos).bind _ = _
        rw [readInt32BE, here.read_short inLength]
        rfl
      · have fewer : chars.length < s.length := by
          have size := congrArg List.length rest
          rw [List.length_append, List.length_map] at size
          omega
        have atChars : At buf (pos + 4) chars := here.next (Marshaller.length_encodeInt _)
        have atEnd := atChars.skip s.length
        rw [List.drop_eq_nil_of_le fewer.le] at atEnd
        refine .inr ⟨s, chars.map asciiChar, pos + 4 + s.length, rfl, ?_, ?_, atEnd⟩
        · show (readInt32BE buf pos).bind _ = _
          rw [readCount_at sendable here]
          simp only [Option.bind_some, toAscii, atChars.slice, List.take_of_length_le fewer.le]
          rfl
        · rw [List.length_map]
          exact fewer

/-- The same of an attribute. -/
theorem decodeAttr_cut {a : Attribute} (sendable : SendableAttribute a) {part missing : Bytes}
    (isPart : missing ≠ []) (whole : part ++ missing = Marshaller.encodeAttribute a)
    (here : At buf pos part) :
    decodeAttr buf pos = none ∨ ∃ s t pos', a.value = .string s ∧
      decodeAttr buf pos = some ((asciiString a.name, .string t), pos') ∧ t.length < s.length ∧
        At buf pos' [] := by
  have parts : Marshaller.encodeAttribute a = Marshaller.encodeInt a.name.length ++
      (a.name.map Marshaller.encodeChar ++ (Marshaller.encodeValType a.type ++
        Marshaller.encodeValue a.value)) := by
    rw [Marshaller.encodeAttribute, Marshaller.encodeString, List.append_assoc]
  rw [parts] at whole
  rcases Cursor.cut whole with inLength | ⟨behindLength, rfl, fromName⟩
  · rw [Marshaller.length_encodeInt] at inLength
    refine .inl ?_
    show (readInt32BE buf pos).bind _ = _
    rw [readInt32BE, here.read_short inLength]
    rfl
  · have atName : At buf (pos + 4) _ := here.next (Marshaller.length_encodeInt _)
    have readLength := readCount_at sendable.name here
    have noType : ∀ {behindName : Bytes}, At buf (pos + 4 + a.name.length) behindName →
        behindName.length < 1 → decodeAttr buf pos = none := by
      intro behindName atType none
      unfold decodeAttr
      rw [readLength]
      simp only [Option.bind_eq_bind, Option.bind_some, readInt8, atType.read_short none]
      rfl
    rcases Cursor.cut fromName with inName | ⟨behindName, rfl, fromType⟩
    · rw [List.length_map] at inName
      have atEnd := atName.skip a.name.length
      rw [List.drop_eq_nil_of_le inName.le] at atEnd
      exact .inl (noType atEnd Nat.one_pos)
    · have atType : At buf (pos + 4 + a.name.length) _ := atName.next (List.length_map _)
      rcases Cursor.cut fromType with inType | ⟨value, rfl, fromValue⟩
      · rw [Marshaller.length_encodeValType] at inType
        exact .inl (noType atType inType)
      · obtain ⟨atValue, named⟩ := decodeAttr_named sendable here
        rw [named]
        rcases decodeVal_cut sendable.value isPart fromValue atValue with
          none | ⟨s, t, pos', isString, read, shorter, atEnd⟩
        · exact .inl (by rw [show a.type = a.value.type from rfl, none]; rfl)
        · refine .inr ⟨s, t, pos', isString, ?_, shorter, atEnd⟩
          rw [show a.type = a.value.type from rfl, read]
          rfl

/-- Of attributes that are cut either nothing is read, or the string of the last one is too
short. -/
theorem decodeAttrs_cut {attributes : List Attribute}
    (sendable : ∀ a ∈ attributes, SendableAttribute a) {part missing : Bytes}
    (isPart : missing ≠ [])
    (whole : part ++ missing = attributes.flatMap Marshaller.encodeAttribute)
    (here : At buf pos part) (attr : CString → Option JsValue) :
    decodeAttrs buf attributes.length pos attr = none ∨
      ∃ init a s t attr', attributes = init ++ [a] ∧ a.value = .string s ∧ t.length < s.length ∧
        decodeAttrs buf attributes.length pos attr =
          some (setAttr attr' (asciiString a.name, .string t)) := by
  induction attributes generalizing part pos attr with
  | nil =>
      rw [List.flatMap_nil] at whole
      exact absurd (List.append_eq_nil_iff.mp whole).2 isPart
  | cons a others ih =>
      rw [List.flatMap_cons] at whole
      rw [List.length_cons, decodeAttrs]
      rcases Cursor.cut whole with inFirst | ⟨more, rfl, rest⟩
      · -- the first attribute is cut, and behind it nothing is left to be read
        obtain ⟨lost, cutFirst, someLost⟩ : ∃ lost, part ++ lost = Marshaller.encodeAttribute a ∧
            lost ≠ [] := by
          have front : part <+: Marshaller.encodeAttribute a :=
            List.prefix_of_prefix_length_le ⟨missing, whole⟩ (List.prefix_append _ _) inFirst.le
          obtain ⟨lost, cutFirst⟩ := front
          refine ⟨lost, cutFirst, ?_⟩
          rintro rfl
          rw [← cutFirst, List.append_nil] at inFirst
          exact absurd inFirst (Nat.lt_irrefl _)
        rcases decodeAttr_cut (sendable a List.mem_cons_self) someLost cutFirst here with
          none | ⟨s, t, pos', isString, read, shorter, atEnd⟩
        · rw [none]
          exact .inl rfl
        · rw [read]
          cases others with
          | nil => exact .inr ⟨[], a, s, t, attr, rfl, isString, shorter, rfl⟩
          | cons b others =>
              refine .inl ?_
              show decodeAttrs buf (others.length + 1) pos' _ = none
              rw [decodeAttrs]
              show ((readInt32BE buf pos').bind _).bind _ = _
              rw [readInt32BE, atEnd.read_short (show 0 < 4 by decide)]
              rfl
      · obtain ⟨pos', read, behind⟩ := decodeAttr_at (sendable a List.mem_cons_self) here
        rw [read]
        rcases ih (fun b mem => sendable b (List.mem_cons_of_mem a mem)) rest behind
            (setAttr attr (jsAttribute a)) with
          none | ⟨init, last, s, t, attr', split, isString, shorter, decoded⟩
        · exact .inl none
        · exact .inr ⟨a :: init, last, s, t, attr', by rw [split]; rfl, isString, shorter, decoded⟩

/-! ## The whole packet or nothing -/

theorem decodeEvt_none (noCount : readInt32BE buf (pos + 4 + 4 + 4 + 4) = none) :
    decodeEvt buf pos = none := by
  unfold decodeEvt
  simp only [noCount]
  cases readInt32BE buf (pos + 4) with
  | none => rfl
  | some type =>
      cases readInt32BE buf (pos + 4 + 4) with
      | none => rfl
      | some high =>
          cases readUInt32BE buf (pos + 4 + 4 + 4) with
          | none => rfl
          | some low => rfl

theorem setAttr_self {name : CString} (plain : name ≠ "__proto__".toList)
    (attr : CString → Option JsValue) (val : JsValue) :
    setAttr attr (name, val) name = some val := by
  rw [setAttr, if_neg plain, Function.update_self]

/-- The name of the last attribute is one that can be set. -/
def EndsPlain (pkt : PubPkt) : Prop :=
  ∀ a ∈ pkt.attributes.getLast?, asciiString a.name ≠ "__proto__".toList

instance (pkt : PubPkt) : Decidable (EndsPlain pkt) :=
  match h : pkt.attributes.getLast? with
  | none => .isTrue fun a mem => by rw [h] at mem; cases mem
  | some a => decidable_of_iff (asciiString a.name ≠ "__proto__".toList) <| by
      unfold EndsPlain
      rw [h]
      exact ⟨fun plain b mem => by cases mem; exact plain, fun plain => plain a rfl⟩

/-- From a part of a packet its event is not read. -/
theorem parseEvtPkt_cut {pkt : PubPkt} (sendable : SendablePkt pkt) (plain : EndsPlain pkt)
    {part missing : Bytes} (isPart : missing ≠ [])
    (whole : part ++ missing = Marshaller.encode pkt) :
    parseEvtPkt part ≠ some (some (evtOf pkt)) := by
  intro parsed
  have header : Marshaller.encode pkt =
      ([0] ++ (Marshaller.encodeInt (Marshaller.getNumBytes pkt) ++
        (Marshaller.encodeInt pkt.eventType ++ (Marshaller.encodeTime pkt.timeStamp ++
          Marshaller.encodeInt pkt.attributes.length)))) ++
      pkt.attributes.flatMap Marshaller.encodeAttribute := by
    rw [encode_parts]
    simp only [List.append_assoc]
  rw [header] at whole
  rcases Cursor.cut whole with inHeader | ⟨attrs, rfl, fromAttrs⟩
  · -- the number of attributes is not there
    have size : ([0] ++ (Marshaller.encodeInt (Marshaller.getNumBytes pkt) ++
        (Marshaller.encodeInt pkt.eventType ++ (Marshaller.encodeTime pkt.timeStamp ++
          Marshaller.encodeInt pkt.attributes.length)))).length = 21 := by
      simp only [List.length_append, Marshaller.length_encodeInt, Marshaller.length_encodeTime]
      rfl
    have atCount : At part (1 + 4 + 4 + 4 + 4) (part.drop 17) := (At.start part).skip 17
    have short : (part.drop 17).length < 4 := by
      rw [List.length_drop]
      omega
    have noEvt : decodeEvt part 1 = none := by
      apply decodeEvt_none
      rw [readInt32BE, atCount.read_short short]
      rfl
    unfold parseEvtPkt at parsed
    rw [noEvt] at parsed
    cases isPub : readInt8 part 0 with
    | none =>
        rw [isPub] at parsed
        cases parsed
    | some type =>
        rw [isPub] at parsed
        simp only [Option.bind_eq_bind, Option.bind_some, Option.bind_none] at parsed
        split at parsed <;> cases parsed
  · obtain ⟨pos, atAttrs, run⟩ :=
      parseEvtPkt_header sendable (Marshaller.getNumBytes pkt) attrs
    simp only [List.append_assoc] at parsed
    rw [run] at parsed
    rcases decodeAttrs_cut sendable.attributes isPart fromAttrs atAttrs (fun _ => none) with
      none | ⟨init, a, s, t, attr', split, isString, shorter, decoded⟩
    · rw [none] at parsed
      cases parsed
    · rw [decoded, Option.map_some, Option.some_inj, Option.some_inj] at parsed
      have settable : asciiString a.name ≠ "__proto__".toList := by
        apply plain
        rw [split, List.getLast?_concat]
        rfl
      have value : jsValue a.value = .string t := by
        have attr := congrFun (congrArg Evt.attr parsed) (asciiString a.name)
        rw [evtOf, split, List.map_append, List.foldl_append] at attr
        have both : some (JsValue.string t) = some (jsValue a.value) := by
          rw [← setAttr_self settable attr' (.string t),
            ← setAttr_self settable _ (jsValue a.value)]
          exact attr
        exact (Option.some.inj both).symm
      rw [isString] at value
      have length := congrArg List.length (JsValue.string.inj value)
      rw [asciiString, List.length_map, List.length_map] at length
      omega

end Reading

/-! ## Events of a connection -/

/-- One event for each packet, in order, and each the one that the packet's own bytes are read
as. -/
def Delivered (pkts : List PubPkt) (chunks : List Bytes) : Prop :=
  ∃ evts, emit chunks = some (evts.map some) ∧
    List.Forall₂ (fun pkt evt => parseEvtPkt (Marshaller.encode pkt) = some (some evt)) pkts evts

/-- Every buffer is parsed on its own. -/
theorem emit_eq_some {chunks : List Bytes} {evts : List (Option Evt)} :
    emit chunks = some evts ↔
      List.Forall₂ (fun data evt => parseEvtPkt data = some evt) chunks evts := by
  induction chunks generalizing evts with
  | nil =>
      rw [List.forall₂_nil_left_iff]
      exact ⟨fun emitted => by cases emitted; rfl, fun none => by rw [none]; rfl⟩
  | cons data later ih =>
      constructor
      · intro emitted
        obtain ⟨evt, parsed, emitted⟩ := Option.bind_eq_some_iff.mp emitted
        obtain ⟨others, rest, last⟩ := Option.bind_eq_some_iff.mp emitted
        cases last
        exact .cons parsed (ih.mp rest)
      · intro each
        cases each with
        | cons parsed rest =>
            exact Option.bind_eq_some_iff.mpr
              ⟨_, parsed, Option.bind_eq_some_iff.mpr ⟨_, ih.mpr rest, rfl⟩⟩

/-- The events that the packets' own bytes are read as. -/
theorem own_iff {pkts : List PubPkt} (sendable : ∀ pkt ∈ pkts, SendablePkt pkt) {evts : List Evt} :
    List.Forall₂ (fun pkt evt => parseEvtPkt (Marshaller.encode pkt) = some (some evt)) pkts evts ↔
      evts = pkts.map evtOf := by
  induction pkts generalizing evts with
  | nil => exact List.forall₂_nil_left_iff
  | cons pkt others ih =>
      have own := parseEvtPkt_encode (sendable pkt List.mem_cons_self)
      have ih := fun evts => @ih (fun p mem => sendable p (List.mem_cons_of_mem pkt mem)) evts
      rw [List.map_cons]
      constructor
      · intro each
        cases each with
        | cons parsed rest =>
            rw [own] at parsed
            rw [(ih _).mp rest, Option.some.inj (Option.some.inj parsed)]
      · rintro rfl
        exact .cons own ((ih _).mpr rfl)

theorem delivered_iff {pkts : List PubPkt} (sendable : ∀ pkt ∈ pkts, SendablePkt pkt)
    {chunks : List Bytes} : Delivered pkts chunks ↔
      List.Forall₂ (fun data pkt => parseEvtPkt data = some (some (evtOf pkt))) chunks pkts := by
  unfold Delivered
  simp only [own_iff sendable, emit_eq_some]
  constructor
  · rintro ⟨evts, each, rfl⟩
    rw [List.forall₂_map_right_iff, List.forall₂_map_right_iff] at each
    exact each
  · intro each
    refine ⟨pkts.map evtOf, ?_, rfl⟩
    rw [List.forall₂_map_right_iff, List.forall₂_map_right_iff]
    exact each

/-- Up to the first buffer that is not its packet, no buffer ends inside the packet it begins
with. -/
theorem prefix_of_delivered {pkts : List PubPkt} (sendable : ∀ pkt ∈ pkts, SendablePkt pkt)
    (plain : ∀ pkt ∈ pkts, EndsPlain pkt) {chunks : List Bytes}
    (stream : chunks.flatten = (pkts.map Marshaller.encode).flatten)
    (each : List.Forall₂ (fun data pkt => parseEvtPkt data = some (some (evtOf pkt))) chunks pkts)
    {k : Nat} {pkt : PubPkt} (at_k : pkts[k]? = some pkt)
    (same : chunks.take k = (pkts.take k).map Marshaller.encode) :
    ∃ data, chunks[k]? = some data ∧ Marshaller.encode pkt <+: data := by
  induction each generalizing k with
  | nil => cases at_k
  | @cons data first later others parsed rest ih =>
      rw [List.flatten_cons, List.map_cons, List.flatten_cons] at stream
      cases k with
      | zero =>
          cases at_k
          refine ⟨data, rfl, ?_⟩
          rcases Cursor.cut stream with cut | ⟨more, rfl, -⟩
          · have front : data <+: Marshaller.encode pkt :=
              List.prefix_of_prefix_length_le ⟨_, stream⟩ (List.prefix_append _ _) cut.le
            obtain ⟨missing, whole⟩ := front
            have isPart : missing ≠ [] := by
              rintro rfl
              rw [← whole, List.append_nil] at cut
              exact absurd cut (Nat.lt_irrefl _)
            exact absurd parsed (parseEvtPkt_cut (sendable pkt List.mem_cons_self)
              (plain pkt List.mem_cons_self) isPart whole)
          · exact List.prefix_append _ _
      | succ k =>
          rw [List.take_succ_cons, List.take_succ_cons, List.map_cons] at same
          obtain ⟨sameFirst, sameRest⟩ := List.cons.inj same
          rw [sameFirst] at stream
          exact ih (fun p mem => sendable p (List.mem_cons_of_mem first mem))
            (fun p mem => plain p (List.mem_cons_of_mem first mem))
            (List.append_cancel_left stream) at_k sameRest

/-- If every buffer that arrives is one packet, its event is emitted for each of them, in order. If
they are others the events can be right only as long as there are as many buffers as packets and
the first of them that is not its packet holds more than it. -/
theorem events_delivered (pkts : List PubPkt) (chunks : List Bytes)
    (sendable : ∀ pkt ∈ pkts, SendablePkt pkt) :
    (chunks = pkts.map Marshaller.encode → Delivered pkts chunks) ∧
      (chunks.flatten = (pkts.map Marshaller.encode).flatten → (∀ pkt ∈ pkts, EndsPlain pkt) →
        Delivered pkts chunks → chunks.length = pkts.length ∧
          ∀ k pkt, pkts[k]? = some pkt → chunks.take k = (pkts.take k).map Marshaller.encode →
            ∃ data, chunks[k]? = some data ∧ Marshaller.encode pkt <+: data) := by
  rw [delivered_iff sendable]
  constructor
  · rintro rfl
    rw [List.forall₂_map_left_iff, List.forall₂_same]
    exact fun pkt mem => parseEvtPkt_encode (sendable pkt mem)
  · intro stream plain each
    refine ⟨each.length_eq, fun k pkt at_k same => ?_⟩
    exact prefix_of_delivered sendable plain stream each at_k same

/-- An event of type 7 with one attribute. -/
def alarmPkt : PubPkt := PubPkt.new 7 [⟨['n'], .string ['x', 'y']⟩] 1000

theorem alarmPkt_sendable : SendablePkt alarmPkt := by
  refine ⟨by decide, by decide, fun a mem => ?_⟩
  cases List.mem_singleton.mp mem
  exact ⟨by decide, show 2 < 2 ^ 31 by decide⟩

theorem alarmPkt_delivered :
    Delivered [alarmPkt, alarmPkt] [Marshaller.encode alarmPkt, Marshaller.encode alarmPkt] ∧
      Marshaller.encode alarmPkt <+: Marshaller.encode alarmPkt := by
  have sendable : ∀ pkt ∈ [alarmPkt, alarmPkt], SendablePkt pkt := by
    intro pkt mem
    rcases List.mem_pair.mp mem with rfl | rfl <;> exact alarmPkt_sendable
  obtain ⟨whole, others⟩ := events_delivered [alarmPkt, alarmPkt]
    [Marshaller.encode alarmPkt, Marshaller.encode alarmPkt] sendable
  have plain : ∀ pkt ∈ [alarmPkt, alarmPkt], EndsPlain pkt := by
    intro pkt mem
    rcases List.mem_pair.mp mem with rfl | rfl <;> decide
  obtain ⟨-, begins⟩ := others rfl plain (whole rfl)
  obtain ⟨data, at_0, front⟩ := begins 0 alarmPkt rfl rfl
  cases at_0
  exact ⟨whole rfl, front⟩

/-- Two packets in one buffer: the second is lost. -/
theorem mergedAlarms_not_delivered :
    [Marshaller.encode alarmPkt ++ Marshaller.encode alarmPkt].flatten =
        ([alarmPkt, alarmPkt].map Marshaller.encode).flatten ∧
      ¬ Delivered [alarmPkt, alarmPkt]
        [Marshaller.encode alarmPkt ++ Marshaller.encode alarmPkt] := by
  refine ⟨rfl, ?_⟩
  rintro ⟨evts, emitted, own⟩
  have one := (emit_eq_some.mp emitted).length_eq
  have two := own.length_eq
  rw [List.length_map] at one
  rw [← one] at two
  cases two

end TRex.Js
