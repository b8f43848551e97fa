import TRex.Parameters
import TRex.Subscription

/-!
# Copies of publication packets

A packet keeps its attributes in an array and, by name, in the content map. `PubPkt::copy` runs the
constructor again, which fills both; the copy constructor fills the array only.
-/

namespace TRex

namespace PubPkt

/-- `PubPkt::PubPkt(const PubPkt&)`. -/
def copyConstructed (pkt : PubPkt) : PubPkt where
  eventType := pkt.eventType
  timeStamp := pkt.timeStamp
  attributes := pkt.attributes
  contentMap := []

/-- How a packet came about. -/
inductive Origin
  | constructed (eventType : Int) (attributes : List Attribute) (now : Nat)
  | copied (original : Origin)
  | copyConstructed (original : Origin)
  | timed (original : Origin) (timeStamp : Nat)

def Origin.pkt : Origin → PubPkt
  | .constructed eventType attributes now => PubPkt.new eventType attributes now
  | .copied original => original.pkt.copy
  | .copyConstructed original => original.pkt.copyConstructed
  | .timed original timeStamp => original.pkt.setTime timeStamp

/-- The copy constructor was not the last to build the packet. -/
def Origin.isNamed : Origin → Bool
  | .constructed _ _ _ => true
  | .copied _ => true
  | .copyConstructed _ => false
  | .timed original _ => original.isNamed

/-- The engine gets the same answers from both packets. -/
structure Alike (pkt pkt' : PubPkt) : Prop where
  eventType : pkt.eventType = pkt'.eventType
  timeStamp : pkt.timeStamp = pkt'.timeStamp
  attributes : pkt.attributes = pkt'.attributes
  names : ∀ name, pkt.getAttributeIndexAndType name = pkt'.getAttributeIndexAndType name

/-! ## What alike packets have in common -/

section Alike

variable {pkt pkt' : PubPkt} (alike : pkt.Alike pkt')

include alike

theorem Alike.matchesAll (constraints : List Constraint) :
    pkt.matchesAll constraints = pkt'.matchesAll constraints := by
  induction constraints with
  | nil => rfl
  | cons constr rest ih =>
      rw [PubPkt.matchesAll, PubPkt.matchesAll, alike.names, alike.attributes, ih]

theorem Alike.matchesPub (sub : SubPkt) : sub.matchesPub pkt = sub.matchesPub pkt' := by
  rw [SubPkt.matchesPub, SubPkt.matchesPub, alike.eventType, alike.matchesAll]

/-- Parameters and the attributes of composite events read packets by `attributeIn`. -/
theorem Alike.attributeIn (addr addr' : Nat) (name : Option CString) :
    attributeIn (some ⟨addr, pkt⟩) name = attributeIn (some ⟨addr', pkt'⟩) name := by
  cases name with
  | none => rfl
  | some name =>
      simp only [TRex.attributeIn, Option.bind_some, alike.names, PubPkt.valueAt, alike.attributes]

end Alike

/-! ## The content map -/

theorem Origin.contentMap_eq (origin : Origin) :
    origin.pkt.contentMap =
      if origin.isNamed then PubPkt.buildContentMap origin.pkt.attributes else [] := by
  induction origin with
  | constructed eventType attributes now => rfl
  | copied original ih => rfl
  | copyConstructed original ih => rfl
  | timed original timeStamp ih => exact ih

@[simp] theorem getAttributeIndexAndType_copyConstructed (pkt : PubPkt) (name : CString) :
    pkt.copyConstructed.getAttributeIndexAndType name = none := rfl

/-- A subscription with constraints never accepts what the copy constructor built. -/
theorem matchesPub_copyConstructed (pkt : PubPkt) (sub : SubPkt) :
    sub.matchesPub pkt.copyConstructed =
      .ok (decide ((pkt.eventType : Int) = sub.eventType ∧ sub.constraints = [])) := by
  by_cases same : (pkt.eventType : Int) = sub.eventType
  · have reached : sub.matchesPub pkt.copyConstructed =
        pkt.copyConstructed.matchesAll sub.constraints := if_neg (not_not.mpr same)
    rw [reached]
    cases constraints : sub.constraints with
    | nil => simp [PubPkt.matchesAll, same]
    | cons constr rest => simp [PubPkt.matchesAll]
  · simp [SubPkt.matchesPub, copyConstructed, same]

/-- No simple parameter holds of what the copy constructor built. -/
theorem checkParameter_copyConstructed (pkt : PubPkt) (addr : Nat) (pe : PartialEvent)
    (parameter : Parameter) :
    checkParameter (some ⟨addr, pkt.copyConstructed⟩) pe parameter = false := by
  have missing : attributeIn (some ⟨addr, pkt.copyConstructed⟩) (some parameter.name1) = none := rfl
  simp only [checkParameter, missing]
  split
  all_goals first | rfl | contradiction

/-- The packet of the copy constructor behaves like the original exactly if this one has no
attributes or was itself built by the copy constructor. -/
theorem copyConstructed_alike_iff (origin : Origin) :
    origin.pkt.copyConstructed.Alike origin.pkt ↔
      origin.pkt.attributes = [] ∨ origin.isNamed = false := by
  constructor
  · intro alike
    by_contra neither
    obtain ⟨filled, named⟩ := not_or.mp neither
    obtain ⟨a, rest, attributes⟩ := List.exists_cons_of_ne_nil filled
    have mapped : origin.pkt.contentMap = PubPkt.buildContentMap origin.pkt.attributes := by
      rw [origin.contentMap_eq, if_pos (Bool.not_eq_false _ ▸ named)]
    rcases getAttributeIndexAndType_mapped mapped a.name with ⟨absent, -⟩ | ⟨i, b, -, -, found⟩
    · have other := List.find?_eq_none.mp absent a (attributes ▸ List.mem_cons_self)
      exact other (beq_self_eq_true a.name)
    · have missing := alike.names a.name
      rw [getAttributeIndexAndType_copyConstructed, found] at missing
      exact Option.some_ne_none _ missing.symm
  · intro unnamed
    have empty : origin.pkt.contentMap = [] := by
      rw [origin.contentMap_eq]
      rcases unnamed with nothing | copied
      · rw [nothing]
        exact ite_self _
      · exact if_neg (Bool.not_eq_true _ ▸ copied)
    refine ⟨rfl, rfl, rfl, fun name => ?_⟩
    rw [getAttributeIndexAndType_copyConstructed, getAttributeIndexAndType, empty]
    rfl

/-- The packet that `PublishPackets` hands to the engine has lost its attribute by name. -/
theorem copiedArea_not_alike :
    ¬ (PubPkt.new 1 [⟨['a'], .string ['x']⟩] 0).copyConstructed.Alike
      (PubPkt.new 1 [⟨['a'], .string ['x']⟩] 0) := by
  intro alike
  have names := alike.names ['a']
  revert names
  decide

end PubPkt

end TRex
