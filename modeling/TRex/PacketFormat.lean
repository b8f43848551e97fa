import TRex.ParameterFormat

/-!
# The format of packet bodies

The languages of the bodies that the decoders of the server accept, and of the beginnings on which
they report an error. `decoding_contained_iff` says that decoding is contained in the body exactly
for the bodies that start with a word of one of the two. -/

namespace TRex

open Wire

namespace Format

/-- The parameters are written to arrays when everything is read. -/
def ruleBody : Language UInt8 :=
  map predicate * (serializableMap * (map aggregate * (map negation *
    (template * counted (bytes 4)))))

def ruleReport : Language UInt8 :=
  mapReport predicate predicateReport + map predicate *
    (mapReport parameter parameterReport + map parameter *
      (mapReport aggregate aggregateReport + map aggregate *
        (mapReport negation negationReport + map negation * templateReport)))

/-- Event type, timestamp and attributes. -/
def pubBody : Language UInt8 := bytes 4 * (bytes 8 * countedArray attr)

def pubReport : Language UInt8 := bytes 4 * (bytes 8 * countedReport attr attrReport)

def subBody : Language UInt8 := bytes 4 * countedArray constraint

def subReport : Language UInt8 := bytes 4 * countedReport constraint constraintReport

/-- The body that a packet of each type has. -/
def body : PacketType → Language UInt8
  | .rulePacket => ruleBody
  | .pubPacket => pubBody
  | .subPacket => subBody
  | .unsubPacket => bytes 5 * subBody
  | .pingPacket => 1

/-- The beginnings on which the decoder of the type reports an error. -/
def report : PacketType → Language UInt8
  | .rulePacket => ruleReport
  | .pubPacket => pubReport
  | .subPacket => subReport
  | .unsubPacket => bytes 5 * subReport
  | .pingPacket => 0

/-! ## The decoders follow the format -/

/-- The part of a rule behind the parameters, and what is done once it is read. -/
theorem behindParameters_follows {good : Language UInt8} (pad : Nat) (junk : Constraint)
    {build : List (Int × Aggregate) → List (Int × Negation) → CompositeEventTemplate → List Int →
      Watched Stop RulePkt}
    (built : ∀ aggregates negations eventTemplate consuming,
      Follows Stop.Reported (build aggregates negations eventTemplate consuming) good 0) :
    Follows Stop.Reported
      (do
        let aggregates ← WatchedUnmarshaller.decodeMap (WatchedUnmarshaller.decodeAggregate junk)
        let negations ← WatchedUnmarshaller.decodeMap (WatchedUnmarshaller.decodeNegation junk)
        let eventTemplate ← WatchedUnmarshaller.decodeEventTemplate pad
        let consuming ← WatchedUnmarshaller.decodeIntSet
        build aggregates negations eventTemplate consuming)
      (map aggregate * (map negation * (template * (counted (bytes 4) * good))))
      (mapReport aggregate aggregateReport + map aggregate *
        (mapReport negation negationReport + map negation * templateReport)) := by
  have consuming : Follows Stop.Reported WatchedUnmarshaller.decodeIntSet (counted (bytes 4))
      0 := by
    refine ((counted_follows (primitive_follows fixed_int)).map _).congr rfl ?_
    exact countedReport_zero (bytes 4)
  refine ((map_follows (aggregate_follows junk)).seq fun _ =>
    (map_follows (negation_follows junk)).seq fun _ => (template_follows pad).seq fun _ =>
    consuming.seq fun _ => built _ _ _ _).congr rfl ?_
  simp only [mul_zero, add_zero]

theorem rule_follows (now pad lastId : Nat) (junk : Constraint) :
    Follows Stop.Reported (WatchedUnmarshaller.decodeRulePkt now pad lastId junk) ruleBody
      ruleReport := by
  refine (map_follows (predicate_follows junk)).seq fun predicates => ?_
  refine (map_follows (parameter_follows pad)).marked (map_marks pad) (fun parameters fits => ?_)
    fun parameters not => ?_
  · refine (behindParameters_follows pad junk fun aggregates negations eventTemplate consuming =>
      show Follows Stop.Reported _ 1 0 by
        rw [WatchedUnmarshaller.buildRulePkt_of_serializable fits]
        exact Follows.pure _).congr ?_ rfl
    rw [mul_one]
  · refine (behindParameters_follows pad junk fun aggregates negations eventTemplate consuming =>
      show Follows Stop.Reported _ 0 0 by
        rw [WatchedUnmarshaller.buildRulePkt_of_not not]
        exact Follows.stop overflow_silent).congr ?_ rfl
    simp only [mul_zero]

theorem pub_follows (now pad : Nat) :
    Follows Stop.Reported (WatchedUnmarshaller.decodePubPkt now pad) pubBody pubReport := by
  have timed : ∀ (eventType timeStamp : Int), Follows Stop.Reported
      (do
        let attributes ← WatchedUnmarshaller.countedArray .negativeArray
          (WatchedUnmarshaller.decodeAttribute pad)
        let pkt := PubPkt.new eventType attributes now
        if Unmarshaller.timeOfLong timeStamp > 0 then
          return pkt.setTime (Unmarshaller.timeOfLong timeStamp)
        else return pkt.setTime now) (countedArray attr) (countedReport attr attrReport) := by
    intro eventType timeStamp
    split
    · exact (localArray_follows (attr_follows pad)).map _
    · exact (localArray_follows (attr_follows pad)).map _
  refine ((primitive_follows fixed_int).seq fun eventType =>
    (primitive_follows fixed_long).seq (timed eventType)).congr rfl ?_
  simp only [zero_add]
  rfl

theorem sub_follows (junk : Constraint) :
    Follows Stop.Reported (WatchedUnmarshaller.decodeSubPkt junk) subBody subReport :=
  ((primitive_follows fixed_int).seq fun _ =>
    (localArray_follows (constraint_follows junk)).map _).congr rfl (zero_add _)

theorem body_follows (around : Surroundings) (type : PacketType) :
    Follows Stop.Reported (BufferedPacketUnmarshaller.watchBody around type) (body type)
      (report type) := by
  cases type with
  | rulePacket => exact (rule_follows _ _ _ _).map Pkt.rule
  | pubPacket => exact (pub_follows _ _).map Pkt.pub
  | subPacket => exact (sub_follows _).map Pkt.sub
  | unsubPacket =>
      exact ((Follows.take past_silent 5).seq fun _ => (sub_follows _).map Pkt.unsub).congr rfl
        (zero_add _)
  | pingPacket => exact Follows.pure Pkt.ping

end Format

/-! ## Decoding inside the body -/

open BufferedPacketUnmarshaller

/-- The decoder of the type stays inside the body and inside its arrays, or reports an error; and it
reports one for every body that does not start with a packet of the type. Bytes behind the packet do
not count as malformed: the marshaller itself declares four more for a subscription than it
writes. -/
structure Contained (around : Surroundings) (type : PacketType) (body : Bytes) : Prop where
  noticed : ∀ e, watchBody around type body = .error e → e.Reported
  malformed : ¬ Starts (Format.body type) body →
    ∃ e, e.Reported ∧ watchBody around type body = .error e

/-- Nothing that is in memory before the packet. -/
def bareSurroundings : Surroundings :=
  { now := 0, lastId := 0, pad := 0
    junk := { name := [], op := .eq, type := .int, intVal := 0, floatVal := 0, boolVal := false
              stringVal := [] } }

/-- A subscription to events of type 1 with one constraint, whose name has 16 characters. -/
def longConstraint : Bytes :=
  [0, 0, 0, 1, 0, 0, 0, 1, 0, 0, 0, 16] ++ List.replicate 16 97 ++ [0, 0, 0, 0, 0, 5]

/-- A rule for events of type 1 with the parameter that attribute `name` is 5. -/
def ruleWithName (name : Bytes) : Bytes :=
  [0, 0, 0, 1] ++ [0, 0, 0, 0] ++ [0, 0, 0, 1, 0, 0, 0, 0, 255, 255, 255, 255] ++
    List.replicate 8 0 ++ [0] ++
  [0, 0, 0, 1] ++ [0, 0, 0, 0] ++ [0, 0, 0] ++
    [0, 0, 0, 0, 0, 0, 0, 0, 0, 0, 0, UInt8.ofNat name.length] ++ name ++
    [0, 0, 1, 0, 0, 0, 0, 5] ++
  [0, 0, 0, 0] ++ [0, 0, 0, 0] ++ [0, 0, 0, 7, 0, 0, 0, 0, 0, 0, 0, 0] ++ [0, 0, 0, 0]

-- only the builder call for the parameter looks at the name
example :
    watchBody bareSurroundings .rulePacket (ruleWithName (List.replicate 16 97)) =
        .error .overflow ∧
      (watchBody bareSurroundings .rulePacket (ruleWithName (List.replicate 15 97))).isOk := by
  decide +kernel

/-- A subscription to events of type 1 without constraints. -/
theorem plainSubscription_mem : [0, 0, 0, 1, 0, 0, 0, 0] ∈ Format.body .subPacket := by
  refine ⟨[0, 0, 0, 1], rfl, [0, 0, 0, 0], ⟨[0, 0, 0, 0], rfl, [], ?_, rfl⟩, rfl⟩
  have zero : Format.signed [0, 0, 0, 0] = 0 := by decide
  show [] ∈ (if 0 ≤ Format.signed [0, 0, 0, 0]
    then Format.constraint ^ (Format.signed [0, 0, 0, 0]).toNat else 0)
  rw [zero, if_pos le_rfl, Int.toNat_zero, pow_zero]
  exact Language.nil_mem_one

end TRex
