import TRex.ActiveSubscriptions

/-!
# Equal subscriptions of the server

`util::equals` looks for the constraints of one subscription among those of the other and compares
their numbers. A constraint that occurs twice can make up for one that is not found the other way
round, so that a subscription counts as done although the one that is held asks for less.
-/

namespace TRex

open Float.Model (UnpackedFloat)

/-! ## Equal numbers -/

/-- Comparison goes by what a float stands for. -/
theorem compare_of_standing {y n : UnpackedFloat} (stands : standing y = some n)
    (x : UnpackedFloat) : x.compare y = x.compare n ∧ y.compare x = n.compare x := by
  cases y with
  | notANumber => cases stands
  | zero s =>
      cases stands
      constructor
      · rcases x with s | _ | s | ⟨s, m, e, pos⟩ <;> cases s <;> rfl
      · rcases x with s | _ | s | ⟨s, m, e, pos⟩ <;> cases s <;> rfl
  | infinity s =>
      cases stands
      exact ⟨rfl, rfl⟩
  | finite s m e pos =>
      cases stands
      exact ⟨rfl, rfl⟩

section EqualFloats

variable {f g : CFloat} (same : f.eq g = true) (a : CFloat)

include same

theorem compare_unpack_eq :
    (Float32.ofBits a).toModel.unpack.compare (Float32.ofBits f).toModel.unpack =
        (Float32.ofBits a).toModel.unpack.compare (Float32.ofBits g).toModel.unpack ∧
      (Float32.ofBits f).toModel.unpack.compare (Float32.ofBits a).toModel.unpack =
        (Float32.ofBits g).toModel.unpack.compare (Float32.ofBits a).toModel.unpack := by
  obtain ⟨n, left, right⟩ := (CFloat.eq_iff f g).mp same
  have viaLeft := compare_of_standing left (Float32.ofBits a).toModel.unpack
  have viaRight := compare_of_standing right (Float32.ofBits a).toModel.unpack
  exact ⟨viaLeft.1.trans viaRight.1.symm, viaLeft.2.trans viaRight.2.symm⟩

theorem CFloat.eq_congr : CFloat.eq a f = CFloat.eq a g :=
  congrArg (fun order => order == some Ordering.eq) (compare_unpack_eq same a).1

theorem CFloat.lt_congr : CFloat.lt a f = CFloat.lt a g ∧ CFloat.lt f a = CFloat.lt g a := by
  have compared := compare_unpack_eq same a
  have test : ∀ x y : CFloat, CFloat.lt x y = ((Float32.ofBits x).toModel.unpack.compare
      (Float32.ofBits y).toModel.unpack == some Ordering.lt) := by
    intro x y
    exact Bool.eq_iff_iff.mpr (decide_eq_true_iff.trans decide_eq_true_iff)
  rw [test, test, test, test, compared.1, compared.2]
  exact ⟨rfl, rfl⟩

theorem CFloat.le_congr : CFloat.le a f = CFloat.le a g ∧ CFloat.le f a = CFloat.le g a := by
  have compared := compare_unpack_eq same a
  have test : ∀ x y : CFloat, CFloat.le x y = ((Float32.ofBits x).toModel.unpack.compare
      (Float32.ofBits y).toModel.unpack).any (·.isLE) := by
    intro x y
    exact Bool.eq_iff_iff.mpr (decide_eq_true_iff.trans decide_eq_true_iff)
  rw [test, test, test, test, compared.1, compared.2]
  exact ⟨rfl, rfl⟩

end EqualFloats

/-! ## Equal constraints -/

theorem Constraint.equals_iff_sameAs (c d : Constraint) : c.equals d = true ↔
    (c.op = d.op ∧ c.type = d.type ∧ c.name = d.name) ∧ c.value.sameAs d.value = true := by
  rw [Constraint.equals, Bool.and_eq_true, Bool.and_eq_true, Bool.and_eq_true, beq_iff_eq,
    beq_iff_eq, beq_iff_eq, and_assoc (a := c.op = d.op)]
  refine and_congr_right fun names => ?_
  rw [Constraint.value, Constraint.value, ← names.2.1]
  cases c.type <;> rfl

theorem Constraint.equals_trans {c d e : Constraint} (first : c.equals d = true)
    (second : d.equals e = true) : c.equals e = true := by
  obtain ⟨⟨op, type, name⟩, value⟩ := (c.equals_iff_sameAs d).mp first
  obtain ⟨⟨op', type', name'⟩, value'⟩ := (d.equals_iff_sameAs e).mp second
  obtain ⟨i, left, middle⟩ := (Value.sameAs_iff _ _).mp value
  obtain ⟨j, middle', right⟩ := (Value.sameAs_iff _ _).mp value'
  have one : i = j := Option.some.inj (middle.symm.trans middle')
  exact (c.equals_iff_sameAs e).mpr ⟨⟨op.trans op', type.trans type', name.trans name'⟩,
    (Value.sameAs_iff _ _).mpr ⟨i, left, one ▸ right⟩⟩

/-- Equal constraints are tested alike. -/
theorem Constraint.matchesAttribute_congr {c d : Constraint} (same : c.equals d = true)
    (a : Attribute) : c.matchesAttribute a = d.matchesAttribute a := by
  obtain ⟨⟨op, type, name⟩, value⟩ := (c.equals_iff_sameAs d).mp same
  rw [Constraint.value, Constraint.value, ← type] at value
  rw [Constraint.matchesAttribute, Constraint.matchesAttribute, ← op, ← type, ← name]
  congr 2
  cases isType : c.type with
  | int =>
      rw [isType] at value
      rw [show c.intVal = d.intVal from beq_iff_eq.mp value]
  | bool =>
      rw [isType] at value
      rw [show c.boolVal = d.boolVal from beq_iff_eq.mp value]
  | string =>
      rw [isType] at value
      rw [show c.stringVal = d.stringVal from beq_iff_eq.mp value]
  | float =>
      rw [isType] at value
      have eq := CFloat.eq_congr value a.value.floatVal
      have lt := CFloat.lt_congr value a.value.floatVal
      have le := CFloat.le_congr value a.value.floatVal
      cases c.op <;> simp only [Op.matchesNumber, eq, lt.1, lt.2, le.1, le.2]

/-! ## Acceptance -/

/-- The publication satisfies the subscription. -/
def SubPkt.Accepts (sub : SubPkt) (pub : PubPkt) : Prop := sub.matchesPub pub = .ok true

/-- One turn of the loop over the constraints. -/
def PubPkt.test (pub : PubPkt) (constr : Constraint) : Except String Bool :=
  match pub.getAttributeIndexAndType constr.name with
  | none => .ok false
  | some (attrIndex, _) =>
    match pub.attributes[attrIndex]? with
    | none => .ok false
    | some attr => constr.matchesAttribute attr

theorem matchesAll_cons (pub : PubPkt) (c : Constraint) (rest : List Constraint) :
    pub.matchesAll (c :: rest) = pub.test c >>= fun passed =>
      if passed then pub.matchesAll rest else .ok false := by
  rw [PubPkt.matchesAll, PubPkt.test]
  cases pub.getAttributeIndexAndType c.name with
  | none => rfl
  | some found =>
      simp only
      cases pub.attributes[found.1]? with
      | none => rfl
      | some a => rfl

theorem matchesAll_iff_test (pub : PubPkt) (constraints : List Constraint) :
    pub.matchesAll constraints = .ok true ↔ ∀ c ∈ constraints, pub.test c = .ok true := by
  induction constraints with
  | nil => exact iff_of_true rfl (List.forall_mem_nil _)
  | cons c rest ih =>
      rw [List.forall_mem_cons, ← ih, matchesAll_cons]
      cases pub.test c with
      | error e => exact iff_of_false nofun (fun both => nomatch both.1)
      | ok passed =>
          cases passed with
          | true => exact (and_iff_right rfl).symm
          | false => exact iff_of_false nofun (fun both => nomatch both.1)

/-- Equal constraints are tested alike on a packet. -/
theorem test_congr {c d : Constraint} (same : c.equals d = true) (pub : PubPkt) :
    pub.test c = pub.test d := by
  have name : c.name = d.name := ((c.equals_iff_sameAs d).mp same).1.2.2
  rw [PubPkt.test, PubPkt.test, name, funext (Constraint.matchesAttribute_congr same)]

theorem SubPkt.accepts_iff (sub : SubPkt) (pub : PubPkt) : sub.Accepts pub ↔
    (pub.eventType : Int) = sub.eventType ∧ ∀ c ∈ sub.constraints, pub.test c = .ok true := by
  rw [SubPkt.Accepts, SubPkt.matchesPub, ← matchesAll_iff_test]
  split
  case isTrue differ => simp [differ]
  case isFalse same => simp [not_not.mp same]

/-! ## Equal subscriptions -/

/-- Every constraint of the first subscription is one of the second. -/
def SubPkt.FoundIn (pkt1 pkt2 : SubPkt) : Prop :=
  ∀ c ∈ pkt1.constraints, ∃ d ∈ pkt2.constraints, c.equals d = true

/-- What `equals` is used for. -/
structure SubPkt.EqualsFaithful (pkt1 pkt2 : SubPkt) : Prop where
  symmetric : pkt1.equals pkt2 = true → pkt2.equals pkt1 = true
  transitive : ∀ pkt3, pkt1.equals pkt2 = true → pkt2.equals pkt3 = true →
    pkt1.equals pkt3 = true
  interchangeable : pkt1.equals pkt2 = true → ∀ pub, pkt1.Accepts pub ↔ pkt2.Accepts pub

/-- A subscription that has as many constraints as the other, all of them found there, leaves none
of the other's out. -/
def SubPkt.LeavesNoneOut (pkt1 pkt2 : SubPkt) : Prop :=
  pkt1.eventType = pkt2.eventType → pkt1.constraints.length = pkt2.constraints.length →
    pkt1.FoundIn pkt2 → pkt2.FoundIn pkt1

theorem SubPkt.equals_iff (pkt1 pkt2 : SubPkt) : pkt1.equals pkt2 = true ↔
    pkt1.eventType = pkt2.eventType ∧ pkt1.constraints.length = pkt2.constraints.length ∧
      pkt1.FoundIn pkt2 := by
  rw [SubPkt.equals, Bool.and_eq_true, Bool.and_eq_true, beq_iff_eq, beq_iff_eq, and_assoc,
    List.all_eq_true]
  simp only [List.any_eq_true, SubPkt.FoundIn]

theorem SubPkt.FoundIn.trans {pkt1 pkt2 pkt3 : SubPkt} (first : pkt1.FoundIn pkt2)
    (second : pkt2.FoundIn pkt3) : pkt1.FoundIn pkt3 := by
  intro c mem
  obtain ⟨d, mem', same⟩ := first c mem
  obtain ⟨e, mem'', same'⟩ := second d mem'
  exact ⟨e, mem'', Constraint.equals_trans same same'⟩

theorem SubPkt.FoundIn.accepts {pkt1 pkt2 : SubPkt} (found : pkt1.FoundIn pkt2)
    (type : pkt1.eventType = pkt2.eventType) {pub : PubPkt} (accepts : pkt2.Accepts pub) :
    pkt1.Accepts pub := by
  obtain ⟨sameType, passed⟩ := (pkt2.accepts_iff pub).mp accepts
  refine (pkt1.accepts_iff pub).mpr ⟨sameType.trans type.symm, fun c mem => ?_⟩
  obtain ⟨d, mem', same⟩ := found c mem
  exact (test_congr same pub).trans (passed d mem')

theorem SubPkt.equals_trans {pkt1 pkt2 pkt3 : SubPkt} (first : pkt1.equals pkt2 = true)
    (second : pkt2.equals pkt3 = true) : pkt1.equals pkt3 = true := by
  obtain ⟨type, length, found⟩ := (pkt1.equals_iff pkt2).mp first
  obtain ⟨type', length', found'⟩ := (pkt2.equals_iff pkt3).mp second
  exact (pkt1.equals_iff pkt3).mpr
    ⟨type.trans type', length.trans length', found.trans found'⟩

/-- `equals` is as faithful as it should be for exactly the pairs in which the first subscription
leaves out none of the second's constraints. -/
theorem SubPkt.equalsFaithful_iff (pkt1 pkt2 : SubPkt) :
    pkt1.EqualsFaithful pkt2 ↔ pkt1.LeavesNoneOut pkt2 := by
  constructor
  · intro faithful type length found
    have back := faithful.symmetric ((pkt1.equals_iff pkt2).mpr ⟨type, length, found⟩)
    exact ((pkt2.equals_iff pkt1).mp back).2.2
  · intro none
    have back : pkt1.equals pkt2 = true → pkt2.FoundIn pkt1 := by
      intro equal
      obtain ⟨type, length, found⟩ := (pkt1.equals_iff pkt2).mp equal
      exact none type length found
    refine ⟨fun equal => ?_, fun _ => equals_trans, fun equal pub => ?_⟩
    · obtain ⟨type, length, -⟩ := (pkt1.equals_iff pkt2).mp equal
      exact (pkt2.equals_iff pkt1).mpr ⟨type.symm, length.symm, back equal⟩
    · obtain ⟨type, -, found⟩ := (pkt1.equals_iff pkt2).mp equal
      exact ⟨(back equal).accepts type.symm, found.accepts type⟩

/-- Events whose two numbers are 1, where the first is asked for twice, and where both are. -/
def firstTwice : SubPkt :=
  ⟨1, [⟨['a'], .eq, .int, 1, 0, false, []⟩, ⟨['a'], .eq, .int, 1, 0, false, []⟩]⟩

def firstAndSecond : SubPkt :=
  ⟨1, [⟨['a'], .eq, .int, 1, 0, false, []⟩, ⟨['b'], .eq, .int, 1, 0, false, []⟩]⟩

theorem firstTwice_not_equalsFaithful : ¬ firstTwice.EqualsFaithful firstAndSecond := by
  intro faithful
  have back := faithful.symmetric (by decide)
  revert back
  decide

/-! ## What the server holds -/

/-- A publication is accepted by one of the subscriptions that the connection holds. -/
def RequestHandler.Serves (handler : RequestHandler) (pub : PubPkt) : Prop :=
  ∃ sub ∈ handler.subscriptions, sub.Accepts pub

/-- A subscription is served from then on, whether it is added or taken for one that is held. -/
theorem serves_handleSubPkt {handler : RequestHandler} {pkt : SubPkt}
    (none : ∀ held ∈ handler.subscriptions, held.LeavesNoneOut pkt) (pub : PubPkt) :
    (handler.handleSubPkt pkt).Serves pub ↔ handler.Serves pub ∨ pkt.Accepts pub := by
  rw [RequestHandler.Serves, RequestHandler.handleSubPkt]
  split
  case isTrue already =>
    obtain ⟨held, mem, equal⟩ := List.any_eq_true.mp already
    have faithful := (held.equalsFaithful_iff pkt).mpr (none held mem)
    refine ⟨.inl, ?_⟩
    rintro (served | accepted)
    · exact served
    · exact ⟨held, mem, (faithful.interchangeable equal pub).mpr accepted⟩
  case isFalse new =>
    simp only [List.mem_append, List.mem_singleton, or_and_right, exists_or, exists_eq_left]
    rfl

/-- The subscription that an unsubscription takes away is interchangeable with the one it names. -/
theorem handleUnSubPkt_removes {handler handler' : RequestHandler} {pkt : SubPkt}
    (none : ∀ held ∈ handler.subscriptions, held.LeavesNoneOut pkt)
    (handled : handler.handleUnSubPkt pkt = some handler') :
    handler'.subscriptions = handler.subscriptions ∨
      ∃ before held after, handler.subscriptions = before ++ held :: after ∧
        handler'.subscriptions = before ++ after ∧ ∀ pub, held.Accepts pub ↔ pkt.Accepts pub := by
  obtain ⟨subscriptions, kept, rfl⟩ := Option.map_eq_some_iff.mp handled
  rw [RequestHandler.erase] at kept
  split at kept
  · cases kept
  cases kept
  rcases List.exists_or_eq_self_of_eraseP (fun sub => SubPkt.equals sub pkt)
    handler.subscriptions with kept | ⟨held, before, after, -, equal, whole, erased⟩
  · exact .inl kept
  · have mem : held ∈ handler.subscriptions := by
      rw [whole]
      exact List.mem_append_right _ List.mem_cons_self
    have faithful := (held.equalsFaithful_iff pkt).mpr (none held mem)
    exact .inr ⟨before, held, after, whole, erased, faithful.interchangeable equal⟩

end TRex
