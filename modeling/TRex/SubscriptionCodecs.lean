import TRex.PublicationCodecs
import TRex.ServerPackets

/-!
# Subscriptions on the wire

The Java client and the JavaScript client write subscriptions, alone or inside the packet that ends
them, and the server reads them. `Interest` is what an application subscribes to. `understood_iff`
says when the server finds it in each of the four packets, reading as many bytes as the header
announces: all names and strings must be free of NULs, at which the engine ends them, and the
lengths must be numbers of 32 bits.
-/

namespace TRex

open Wire Js

/-! ## Interests -/

structure CarriedConstraint (c : CString × Op × JsValue) : Prop where
  ascii : Java.IsAscii c.1
  short : c.1.length < nameLen + 1
  value : match c.2.2 with
    | .int v => IsInt v
    | .float _ => False
    | .bool _ => True
    | .string s => Java.IsAscii s ∧ s.length < stringValLen + 1

/-- An event type and constraints; the buffers of the engine are longer than names and strings. -/
structure Interest where
  eventType : Int
  inType : IsInt eventType
  constraints : List (CString × Op × JsValue)
  /-- They are counted by an `int`. -/
  countable : constraints.length < 2 ^ 31
  carried : ∀ c ∈ constraints, CarriedConstraint c

/-- A constraint of the Java client: the members of the other types have their default values. -/
def toConstraint (c : CString × Op × JsValue) : Constraint :=
  match c.2.2 with
  | .int v => ⟨c.1, c.2.1, .int, v, 0, false, []⟩
  | .float bits => ⟨c.1, c.2.1, .float, 0, bits, false, []⟩
  | .bool b => ⟨c.1, c.2.1, .bool, 0, 0, b, []⟩
  | .string s => ⟨c.1, c.2.1, .string, 0, 0, false, s⟩

/-- What a constraint says: name, operator, and the value of its type. -/
def Constraint.said (c : Constraint) : CString × Op × JsValue :=
  (c.name, c.op, match c.type with
    | .int => .int c.intVal
    | .float => .float c.floatVal
    | .bool => .bool c.boolVal
    | .string => .string c.stringVal)

namespace Interest

variable (interest : Interest)

def toJava : Java.SubPkt :=
  { eventType := interest.eventType, constraints := interest.constraints.map toConstraint }

def toJs : Sub := { evtType := interest.eventType, constraints := interest.constraints }

def NulFree : Prop :=
  ∀ c ∈ interest.constraints, (∀ x ∈ c.1, x ≠ Char.ofNat 0) ∧
    ∀ s, c.2.2 = .string s → ∀ x ∈ s, x ≠ Char.ofNat 0

end Interest

/-! ## Writers and the server -/

inductive Writer
  | java | js

/-- The packet that subscribes, or the one that ends the subscription. -/
def Writer.write (interest : Interest) (unsub : Bool) : Writer → Option Bytes
  | .java => some (if unsub then Java.Marshaller.encodeUnSub interest.toJava
      else Java.Marshaller.encodeSub interest.toJava)
  | .js => if unsub then getUnsubPkt interest.toJs else getSubPkt interest.toJs

def serverType (unsub : Bool) : PacketType := if unsub then .unsubPacket else .subPacket

/-- What the server reads of a body. -/
def serverRead (around : Surroundings) (unsub : Bool) : Decoder SubPkt :=
  if unsub then BufferedPacketUnmarshaller.decodeUnSubPkt around
  else Unmarshaller.decodeSubPkt around.junk

/-- Whoever writes it, alone or nested: the header announces the length of the body, and of the body
the server reads everything, and the interest in it. -/
def Interest.Understood (interest : Interest) (around : Surroundings) : Prop :=
  ∀ (writer : Writer) (unsub : Bool), ∃ length body pkt,
    writer.write interest unsub = some ([(serverType unsub).toByte] ++ (length ++ body)) ∧
      Reads Unmarshaller.decodeInt length body.length ∧
      Reads (serverRead around unsub) body pkt ∧
      pkt.eventType = interest.eventType ∧
      pkt.constraints.map Constraint.said = interest.constraints

/-! ## The writers agree -/

theorem encodeOp_eq (op : Op) : [Sub.op op] = Java.Marshaller.encodeConstraintOp op := by
  cases op <;> rfl

theorem encodeConstr_eq {c : CString × Op × JsValue} (carried : CarriedConstraint c) :
    encodeConstr c = some (Java.Marshaller.encodeConstraint (toConstraint c)) := by
  obtain ⟨name, op, value⟩ := c
  have short : name.length < 2 ^ 31 := carried.short.trans (by decide)
  have ok := carried.value
  rw [encodeConstr, writeCount short]
  cases value with
  | int v =>
      have val : encodeVal (.int v) = some (Marshaller.encodeInt v) := writeInt32BE_of_isInt ok
      rw [val]
      show some (_ ++ (_ ++ ([Sub.op op] ++ _))) = _
      rw [encodeOp_eq, ← List.append_assoc]
      rfl
  | float bits => exact ok.elim
  | bool b =>
      show some (_ ++ (_ ++ ([Sub.op op] ++ _))) = _
      rw [encodeOp_eq, ← List.append_assoc]
      rfl
  | string s =>
      have length := writeCount (ok.2.trans (show stringValLen + 1 < 2 ^ 31 by decide))
      rw [encodeVal, length]
      show some (_ ++ (_ ++ ([Sub.op op] ++ _))) = _
      rw [encodeOp_eq, ← List.append_assoc]
      rfl

theorem encodeConstrs_eq {constraints : List (CString × Op × JsValue)}
    (carried : ∀ c ∈ constraints, CarriedConstraint c) : encodeConstrs constraints =
      some ((constraints.map toConstraint).flatMap Java.Marshaller.encodeConstraint) := by
  induction constraints with
  | nil => rfl
  | cons c rest ih =>
      rw [encodeConstrs, encodeConstr_eq (carried c List.mem_cons_self),
        ih fun d mem => carried d (List.mem_cons_of_mem c mem)]
      rfl

theorem constraintLen_eq (c : CString × Op × JsValue) :
    constraintLen c = Java.Marshaller.getNumBytesConstraint (toConstraint c) := by
  obtain ⟨name, op, value⟩ := c
  cases value <;>
    simp only [constraintLen, toConstraint, Java.Marshaller.getNumBytesConstraint,
      Java.Marshaller.getNumBytesString] <;> omega

theorem getUnsubPkt_bind (sub : Sub) : getUnsubPkt sub = (getSubPkt sub).bind fun subPkt =>
    (writeInt32BE subPkt.length).bind fun length => some ([100] ++ (length ++ subPkt)) := rfl

namespace Interest

variable (interest : Interest)

/-- The length of the body. -/
def size : Nat := subLen interest.toJs

theorem size_eq : interest.size = Java.Marshaller.getNumBytesSub interest.toJava := by
  have sums : interest.constraints.map constraintLen =
      (interest.constraints.map toConstraint).map Java.Marshaller.getNumBytesConstraint := by
    rw [List.map_map]
    exact List.map_congr_left fun c _ => constraintLen_eq c
  rw [size, subLen, Java.Marshaller.foldl_add_eq, Java.Marshaller.getNumBytesSub,
    Java.Marshaller.getNumBytesCollection, Java.Marshaller.foldl_add_eq]
  show 4 + 4 + (interest.constraints.map constraintLen).sum = 4 + (4 + _)
  rw [sums]
  exact Nat.add_assoc 4 4 _

theorem length_encodeSub :
    (Java.Marshaller.encodeSub interest.toJava).length = 5 + interest.size := by
  rw [size_eq, Java.Marshaller.encodeSub, List.length_append, List.length_append,
    Java.Marshaller.length_encodeInt, Java.Marshaller.length_encodeSubBody]
  show 1 + (4 + _) = _
  omega

theorem encodeSub_eq : encodeSub interest.toJs = (writeInt32BE interest.size).map fun length =>
    length ++ Java.Marshaller.encodeSubBody interest.toJava := by
  have countable : interest.constraints.length < 2 ^ 31 := interest.countable
  have type : writeInt32BE interest.toJs.evtType =
      some (Marshaller.encodeInt interest.eventType) := writeInt32BE_of_isInt interest.inType
  have count := writeCount countable
  have constrs := encodeConstrs_eq interest.carried
  have numConstr : writeInt32BE interest.toJs.constraints.length = _ := count
  rw [encodeSub, type, numConstr]
  show (writeInt32BE interest.size).bind _ = _
  rw [show encodeConstrs interest.toJs.constraints = _ from constrs]
  cases writeInt32BE interest.size with
  | none => rfl
  | some length =>
      have same : Java.Marshaller.encodeSubBody interest.toJava =
          Marshaller.encodeInt interest.eventType ++
            (Marshaller.encodeInt interest.constraints.length ++
              (interest.constraints.map toConstraint).flatMap
                Java.Marshaller.encodeConstraint) := by
        rw [Java.Marshaller.encodeSubBody, Java.Marshaller.encodeCollection]
        show _ ++ (Java.Marshaller.encodeInt
          ((interest.constraints.map toConstraint).length : Nat) ++ _) = _
        rw [List.length_map]
        rfl
      rw [same]
      rfl

/-- The JavaScript client writes what the Java client writes, as long as it can write the
lengths. -/
theorem getSubPkt_eq (small : interest.size < 2 ^ 31) :
    getSubPkt interest.toJs = some (Java.Marshaller.encodeSub interest.toJava) := by
  have int : Java.Marshaller.encodeInt interest.size = Marshaller.encodeInt interest.size := rfl
  have type : Java.Marshaller.encodePktType .subPkt = [2] := rfl
  rw [getSubPkt, encodeSub_eq, writeCount small, Option.map_some, Java.Marshaller.encodeSub,
    ← size_eq, int, type]
  rfl

theorem getUnsubPkt_eq (small : 5 + interest.size < 2 ^ 31) :
    getUnsubPkt interest.toJs = some (Java.Marshaller.encodeUnSub interest.toJava) := by
  have subPktLen : writeInt32BE (Java.Marshaller.encodeSub interest.toJava).length =
      some (Marshaller.encodeInt (5 + interest.size : Nat)) := by
    rw [length_encodeSub]
    exact writeCount small
  have five : 1 + 4 + interest.size = 5 + interest.size := by omega
  rw [getUnsubPkt_bind, getSubPkt_eq interest (Nat.lt_of_add_left_lt small), Option.bind_some,
    subPktLen, Option.bind_some, Java.Marshaller.encodeUnSub, ← size_eq, five]
  rfl

theorem small_of_getUnsubPkt {bytes : Bytes} (written : getUnsubPkt interest.toJs = some bytes) :
    5 + interest.size < 2 ^ 31 := by
  have inRange : ∀ {n : Nat} {written : Bytes}, writeInt32BE n = some written → n < 2 ^ 31 := by
    intro n written isWritten
    rw [writeInt32BE] at isWritten
    split at isWritten
    · next inRange =>
        have upper := inRange.2
        omega
    · cases isWritten
  simp only [getUnsubPkt_bind, Option.bind_eq_some_iff] at written
  obtain ⟨subPkt, isSubPkt, length, isLength, -⟩ := written
  have isEncoded := isSubPkt
  simp only [getSubPkt, Option.bind_eq_bind, Option.bind_eq_some_iff] at isEncoded
  obtain ⟨enc, isEnc, -⟩ := isEncoded
  rw [encodeSub_eq] at isEnc
  obtain ⟨size, isSize, -⟩ := Option.map_eq_some_iff.mp isEnc
  rw [getSubPkt_eq interest (inRange isSize)] at isSubPkt
  cases isSubPkt
  have small := inRange isLength
  rw [length_encodeSub] at small
  exact small

end Interest

/-! ## The server reads them -/

/-- The value that is read: a string ends at its first NUL. -/
def cutSaid (c : CString × Op × JsValue) : CString × Op × JsValue :=
  (c.1.cut, c.2.1, match c.2.2 with
    | .string s => .string s.cut
    | v => v)

theorem said_read (junk : Constraint) (c : CString × Op × JsValue) :
    (Java.Constraint.toCpp junk (Java.cutConstraint (toConstraint c))).said = cutSaid c := by
  obtain ⟨name, op, value⟩ := c
  cases value <;> rfl

theorem CarriedConstraint.ok {c : CString × Op × JsValue} (carried : CarriedConstraint c) :
    Java.ConstraintOk (toConstraint c) := by
  obtain ⟨name, op, value⟩ := c
  have ok := carried.value
  have name : Java.Ascii nameLen name := ⟨carried.ascii, Nat.lt_succ_iff.mp carried.short⟩
  have zero : IsInt 0 := ⟨by decide, by decide⟩
  cases value with
  | int v => exact ⟨name, ok, fun isString => by cases isString⟩
  | float bits => exact ok.elim
  | bool b => exact ⟨name, zero, fun isString => by cases isString⟩
  | string s =>
      exact ⟨name, zero, fun _ => ⟨ok.1, Nat.lt_succ_iff.mp ok.2⟩⟩

namespace Interest

variable (interest : Interest) (around : Surroundings)

/-- The packet that the server makes of the body of a subscription. -/
def received : SubPkt :=
  { eventType := interest.eventType
    constraints := interest.toJava.constraints.map fun c =>
      Java.Constraint.toCpp around.junk (Java.cutConstraint c) }

theorem reads_received : Reads (Unmarshaller.decodeSubPkt around.junk)
    (Java.Marshaller.encodeSubBody interest.toJava) (interest.received around) := by
  have countable := interest.countable
  have length : interest.toJava.constraints.length = interest.constraints.length :=
    List.length_map _
  have each : ∀ c ∈ interest.toJava.constraints, Reads (Unmarshaller.decodeConstraint around.junk)
      (Java.Marshaller.encodeConstraint c)
      (Java.Constraint.toCpp around.junk (Java.cutConstraint c)) := by
    intro c mem
    obtain ⟨x, inInterest, rfl⟩ := List.mem_map.mp mem
    exact Unmarshaller.reads_constraint (interest.carried x inInterest).ok
  apply (Unmarshaller.reads_int interest.inType).bind
  apply (Unmarshaller.reads_count (by omega)).bind
  by_cases none : interest.toJava.constraints = []
  · rw [received, none]
    exact Reads.pure _
  · have some : (interest.toJava.constraints.length : Int) ≠ 0 := by
      have positive := List.length_pos_iff.mpr none
      omega
    rw [if_neg some]
    apply Reads.require (by omega)
    exact (Reads.times each).last (Reads.pure _)

theorem reads_unsub : Reads (BufferedPacketUnmarshaller.decodeUnSubPkt around)
    (Java.Marshaller.encodeSub interest.toJava) (interest.received around) := by
  have skipped := Reads.take (Java.Marshaller.encodePktType .subPkt ++
    Java.Marshaller.encodeInt (Java.Marshaller.getNumBytesSub interest.toJava))
  have header : (Java.Marshaller.encodePktType .subPkt ++
      Java.Marshaller.encodeInt (Java.Marshaller.getNumBytesSub interest.toJava)).length = 5 := by
    rw [List.length_append, Java.Marshaller.length_encodeInt]
    rfl
  rw [header] at skipped
  have whole : Reads (BufferedPacketUnmarshaller.decodeUnSubPkt around) _ _ :=
    skipped.bind (interest.reads_received around)
  rw [List.append_assoc] at whole
  exact whole

theorem said_received :
    (interest.received around).constraints.map Constraint.said =
      interest.constraints.map cutSaid := by
  show ((interest.constraints.map toConstraint).map _).map _ = _
  rw [List.map_map, List.map_map]
  exact List.map_congr_left fun c _ => said_read around.junk c

theorem cutSaid_iff (c : CString × Op × JsValue) : cutSaid c = c ↔
    (∀ x ∈ c.1, x ≠ Char.ofNat 0) ∧ ∀ s, c.2.2 = .string s → ∀ x ∈ s, x ≠ Char.ofNat 0 := by
  obtain ⟨name, op, value⟩ := c
  rw [← cut_eq_self_iff]
  constructor
  · intro same
    refine ⟨congrArg Prod.fst same, fun s isString => ?_⟩
    cases isString
    exact cut_eq_self_iff.mp (JsValue.string.inj (congrArg (fun c => c.2.2) same))
  · rintro ⟨isName, noNul⟩
    have isValue : (cutSaid (name, op, value)).2.2 = value := by
      cases value with
      | string s => exact congrArg JsValue.string (cut_eq_self_iff.mpr (noNul s rfl))
      | _ => rfl
    exact Prod.ext isName (Prod.ext rfl isValue)

theorem map_cutSaid_iff : interest.constraints.map cutSaid = interest.constraints ↔
    interest.NulFree := by
  have pointwise : interest.constraints.map cutSaid = interest.constraints.map id ↔
      ∀ c ∈ interest.constraints, cutSaid c = id c := List.map_inj_left
  rw [List.map_id] at pointwise
  rw [pointwise]
  exact forall₂_congr fun c _ => cutSaid_iff c

variable {interest around}

theorem understood_of (small : 5 + interest.size < 2 ^ 31) (nulFree : interest.NulFree) :
    interest.Understood around := by
  have said : (interest.received around).constraints.map Constraint.said = interest.constraints :=
    (interest.said_received around).trans (interest.map_cutSaid_iff.mpr nulFree)
  have plain : ∃ length, Java.Marshaller.encodeSub interest.toJava =
      [2] ++ (length ++ Java.Marshaller.encodeSubBody interest.toJava) ∧
        Reads Unmarshaller.decodeInt length
          (Java.Marshaller.encodeSubBody interest.toJava).length := by
    refine ⟨_, rfl, ?_⟩
    rw [Java.Marshaller.length_encodeSubBody, ← size_eq]
    exact Unmarshaller.reads_count (Nat.lt_of_add_left_lt small)
  have nested : ∃ length, Java.Marshaller.encodeUnSub interest.toJava =
      [100] ++ (length ++ Java.Marshaller.encodeSub interest.toJava) ∧
        Reads Unmarshaller.decodeInt length (Java.Marshaller.encodeSub interest.toJava).length := by
    refine ⟨Java.Marshaller.encodeInt
      (1 + 4 + Java.Marshaller.getNumBytesSub interest.toJava : Nat),
      rfl, ?_⟩
    rw [length_encodeSub, ← size_eq]
    exact Unmarshaller.reads_count small
  intro writer unsub
  cases unsub with
  | false =>
      obtain ⟨length, isPacket, reads⟩ := plain
      refine ⟨length, _, _, ?_, reads, interest.reads_received around, rfl, said⟩
      cases writer with
      | java => exact congrArg some isPacket
      | js =>
          exact (getSubPkt_eq interest (Nat.lt_of_add_left_lt small)).trans (congrArg some isPacket)
  | true =>
      obtain ⟨length, isPacket, reads⟩ := nested
      refine ⟨length, _, _, ?_, reads, interest.reads_unsub around, rfl, said⟩
      cases writer with
      | java => exact congrArg some isPacket
      | js => exact (getUnsubPkt_eq interest small).trans (congrArg some isPacket)

theorem length_of_reads_int {bytes : Bytes} {v : Int}
    (reads : Reads Unmarshaller.decodeInt bytes v) :
    bytes.length = 4 := by
  have read := reads []
  rw [List.append_nil] at read
  obtain ⟨n, afterWord, isWord, number⟩ := bind_eq_some.mp read
  obtain ⟨four, rest, taken, word⟩ := bind_eq_some.mp isWord
  have last : afterWord = [] := (Prod.mk.inj (Option.some.inj number)).2
  have same : rest = afterWord := (Prod.mk.inj (Option.some.inj word)).2
  obtain ⟨length, rfl⟩ := take_eq_some.mp taken
  rw [same, last, List.append_nil]
  exact length

theorem nulFree_of (understood : interest.Understood around) : interest.NulFree := by
  obtain ⟨length, body, pkt, written, reads, read, -, said⟩ := understood .java false
  have header := length_of_reads_int reads
  have split : length ++ body = Java.Marshaller.encodeInt
      (Java.Marshaller.getNumBytesSub interest.toJava) ++
        Java.Marshaller.encodeSubBody interest.toJava :=
    (List.cons.inj (Option.some.inj written)).2.symm
  have isBody := (List.append_inj split (header.trans (Java.Marshaller.length_encodeInt _).symm)).2
  rw [isBody] at read
  have same := (read []).symm.trans (interest.reads_received around [])
  rw [(Prod.mk.inj (Option.some.inj same)).1, said_received] at said
  exact interest.map_cutSaid_iff.mp said

theorem small_of (understood : interest.Understood around) : 5 + interest.size < 2 ^ 31 := by
  obtain ⟨length, body, pkt, written, -⟩ := understood .js true
  exact interest.small_of_getUnsubPkt written

end Interest

/-- The server understands all four packets of an interest if and only if they are shorter than 2^31
bytes and no name and no string contains a NUL. -/
theorem understood_iff (interest : Interest) (around : Surroundings) :
    interest.Understood around ↔ 5 + subLen interest.toJs < 2 ^ 31 ∧ interest.NulFree := by
  constructor
  · intro understood
    exact ⟨Interest.small_of understood, Interest.nulFree_of understood⟩
  · rintro ⟨small, nulFree⟩
    exact Interest.understood_of small nulFree

/-- One constraint on a string of one NUL. -/
def nulInterest : Interest where
  eventType := 1
  inType := ⟨by decide, by decide⟩
  constraints := [(['s'], .eq, .string [Char.ofNat 0])]
  countable := by decide
  carried := by
    intro c mem
    cases List.mem_singleton.mp mem
    have name : Java.IsAscii ['s'] := by
      intro c mem
      cases List.mem_singleton.mp mem
      decide
    have value : Java.IsAscii [Char.ofNat 0] := by
      intro c mem
      cases List.mem_singleton.mp mem
      decide
    exact ⟨name, by decide, value, by decide⟩

/-- The server reads the empty string. -/
theorem nulInterest_not_understood :
    ¬ nulInterest.Understood ⟨0, 0, 0, ⟨[], .eq, .int, 0, 0, false, []⟩⟩ := by
  intro understood
  have nulFree := Interest.nulFree_of understood
  exact (nulFree (['s'], .eq, .string [Char.ofNat 0]) List.mem_cons_self).2 [Char.ofNat 0] rfl
    (Char.ofNat 0) List.mem_cons_self rfl

end TRex
