import TRex.IndexExactness
import TRex.Marshaller
import TRex.Subscription

/-!
# Event types from the wire to the wire

The wire, the index, the rules and the subscriptions hold the type of an event as an `int`; a packet
holds it in 16 bits. `TypePreserved t` is what a client may expect of a packet sent with type `t`:
it reaches the elements and subscriptions of that type and no others, and it is delivered with the
type it was sent with. `typePreserved_iff` says for which types this is so.
-/

namespace TRex

open Wire IndexingTable

/-- A packet decoded with type `t` matches the constraint-free elements and subscriptions of the
type `t` only, and is encoded with type `t`. -/
def TypePreserved (t : Int) : Prop :=
  ∀ (now pad : Nat) (bytes rest : Bytes) (pkt : PubPkt),
    Unmarshaller.decodePubPkt now pad (Marshaller.encodeInt t ++ bytes) = some (pkt, rest) →
    (∀ u, IsInt u →
      (∀ (alloc : Nat → Nat) (rules : List RulePkt), (rules.map RulePkt.ruleId).Nodup →
        ∀ r ∈ rules, ∀ e ∈ r.elements, e.eventType = u → e.constraints = [] →
          ((installed alloc rules).Reports pkt r.ruleId e ↔ t = u)) ∧
      (SubPkt.matchesPub ⟨u, []⟩ pkt = .ok true ↔ t = u)) ∧
    ∃ more, Marshaller.encodeBody pkt = Marshaller.encodeInt t ++ more

/-! ## What the decoder stores -/

/-- The low 16 bits of the type sent. -/
theorem decodePubPkt_eventType {t : Int} (inRange : IsInt t) {now pad : Nat} {bytes rest : Bytes}
    {pkt : PubPkt}
    (decoded : Unmarshaller.decodePubPkt now pad (Marshaller.encodeInt t ++ bytes) =
      some (pkt, rest)) : pkt.eventType = (t % 2 ^ 16).toNat := by
  obtain ⟨v, rest₁, first, afterType⟩ := bind_eq_some.mp decoded
  obtain ⟨_, rest₂, -, afterTime⟩ := bind_eq_some.mp afterType
  obtain ⟨_, rest₃, -, afterNum⟩ := bind_eq_some.mp afterTime
  obtain ⟨_, rest₄, -, counted⟩ := bind_eq_some.mp afterNum
  obtain ⟨attributes, rest₅, -, built⟩ := bind_eq_some.mp counted
  obtain rfl : v = t := by
    rw [Unmarshaller.reads_int inRange bytes] at first
    exact (congrArg Prod.fst (Option.some.inj first)).symm
  split at built
  · cases built
    rfl
  · cases built
    rfl

/-- A packet without attributes. -/
def bareBody : Bytes := Marshaller.encodeTime 1 ++ Marshaller.encodeInt 0

theorem decodePubPkt_bare {t : Int} (inRange : IsInt t) :
    Unmarshaller.decodePubPkt 0 0 (Marshaller.encodeInt t ++ bareBody) =
      some ((PubPkt.new t [] 0).setTime 1, []) := by
  have time := Unmarshaller.timeOfLong_bmod (show 1 < 2 ^ 64 by decide)
  have read : Reads (Unmarshaller.decodePubPkt 0 0) (Marshaller.encodeInt t ++ bareBody)
      ((PubPkt.new t [] 0).setTime 1) := by
    refine (Unmarshaller.reads_int inRange).bind
      ((Unmarshaller.reads_long (show 1 < 2 ^ 64 by decide)).bind
        ((Unmarshaller.reads_count (show 0 < 2 ^ 31 by decide)).last
          (Reads.require (by decide) ((Reads.pure []).last ?_))))
    rw [time]
    exact Reads.pure _
  have whole := read []
  rwa [List.append_nil] at whole

/-! ## What the type decides -/

/-- A constraint-free element is reported for the packets of its type, whatever constraints the
other elements have. -/
theorem reports_unconstrained_iff (alloc : Nat → Nat) {rules : List RulePkt}
    (ids : (rules.map RulePkt.ruleId).Nodup) {r : RulePkt} (inRules : r ∈ rules) {e : Element}
    (isElement : e ∈ r.elements) (unconstrained : e.constraints = []) (pkt : PubPkt) :
    (installed alloc rules).Reports pkt r.ruleId e ↔ e.eventType = pkt.eventType := by
  unfold Reports
  rw [mem_matching_installed]
  constructor
  · rintro ⟨tp, e', mem, ⟨sameRule, sameType, sameId⟩, sameEvent, -⟩
    obtain ⟨⟨r', inRules', ruleId', isElement'⟩, -⟩ := mem_entries mem
    obtain rfl : r' = r :=
      List.inj_on_of_nodup_map ids inRules' inRules (ruleId'.trans sameRule)
    obtain rfl := eq_of_mem_elements isElement' isElement sameType sameId
    exact sameEvent
  · intro sameEvent
    obtain ⟨k, mem⟩ := exists_mem_entries inRules isElement
    exact ⟨_, e, mem, ⟨rfl, rfl, rfl⟩, sameEvent, by simp [unconstrained]⟩

theorem encodeInt_inj {v w : Int} (hv : IsInt v) (hw : IsInt w) {a b : Bytes}
    (same : Marshaller.encodeInt v ++ a = Marshaller.encodeInt w ++ b) : v = w := by
  have left := Unmarshaller.reads_int hv a
  rw [same, Unmarshaller.reads_int hw b] at left
  exact (congrArg Prod.fst (Option.some.inj left)).symm

/-- The type of an event is preserved exactly if it fits into the 16 bits of a packet. -/
theorem typePreserved_iff (t : Int) (inRange : IsInt t) :
    TypePreserved t ↔ 0 ≤ t ∧ t < 2 ^ 16 := by
  constructor
  · intro preserved
    obtain ⟨-, more, written⟩ := preserved 0 0 bareBody [] _ (decodePubPkt_bare inRange)
    have stored : IsInt ((t % 2 ^ 16).toNat : Int) := by
      constructor <;> omega
    have same : ((t % 2 ^ 16).toNat : Int) = t := encodeInt_inj stored inRange written
    omega
  · intro small now pad bytes rest pkt decoded
    have type : (pkt.eventType : Int) = t := by
      have stored := decodePubPkt_eventType inRange decoded
      omega
    refine ⟨fun u _ => ⟨?_, ?_⟩, ?_⟩
    · intro alloc rules ids r inRules e isElement typed unconstrained
      rw [reports_unconstrained_iff alloc ids inRules isElement unconstrained, typed, type]
      exact eq_comm
    · rw [SubPkt.matchesPub_unconstrained, type]
      simp
    · rw [← type]
      exact ⟨_, rfl⟩

/-- A packet sent with type 65537 is delivered with type 1. -/
theorem not_typePreserved_65537 : ¬ TypePreserved 65537 := by
  intro preserved
  have inRange : IsInt 65537 := by
    constructor <;> decide
  obtain ⟨matched, -⟩ := preserved 0 0 bareBody [] _ (decodePubPkt_bare inRange)
  have reached := (matched 1 (by constructor <;> decide)).2.mp (by decide)
  exact absurd reached (by decide)

theorem typePreserved_65535 : TypePreserved 65535 := by
  have inRange : IsInt 65535 := by
    constructor <;> decide
  exact (typePreserved_iff 65535 inRange).mpr (by decide)

end TRex
