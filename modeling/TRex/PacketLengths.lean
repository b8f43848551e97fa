import TRex.Parameters
import TRex.RuleMarshaller

/-!
# The length fields of packets

`getNumBytes` says in the header of a packet how many bytes follow, `encode` writes them. The length
is computed in a C `int`. Besides publications, rules and subscriptions, there are advertisements
and join packets, and `PacketMarshaller` wraps subscriptions into unsubscriptions. -/

namespace TRex.Marshaller

open Wire

/-! ## Advertisements, join packets and unsubscriptions -/

/-- The `std::set` of an `AdvPkt`, in its order. -/
structure AdvPkt where
  advertisements : List Int
  ascending : advertisements.Pairwise (· < ·)

/-- `JoinPkt`: the address, a `long`, is set from an `int`. -/
structure JoinPkt where
  address : Int
  port : Int
  deriving DecidableEq

/-- `encode(long)`. -/
def encodeLong (source : Int) : Bytes := bigEndian 8 (source % 2 ^ 64).toNat

def encodeIntSet (source : List Int) : Bytes := encodeInt source.length ++ source.flatMap encodeInt

def getNumBytesIntSet (source : List Int) : Nat := 4 * (source.length + 1)

def encodeJoinBody (source : JoinPkt) : Bytes := encodeLong source.address ++ encodeInt source.port

/-- The address and the port are added up themselves. -/
def getNumBytesJoin (source : JoinPkt) : Int := wrap32 (source.address + source.port)

/-- The whole subscription packet, as far as it is written. -/
def encodeUnSubBody (subPkt : SubPkt) : Bytes :=
  encodePktType .subPkt ++ (encodeInt (getNumBytesSub subPkt) ++ encodeSubBody subPkt)

/-- `Marshaller::getSize(SubPkt*)`. -/
def getSizeSub (pkt : SubPkt) : Nat := getNumBytesSub pkt + 5

/-! ## Any packet -/

inductive AnyPkt
  | pub (pkt : PubPkt)
  | rule (pkt : RulePkt)
  | sub (pkt : SubPkt)
  | adv (pkt : AdvPkt)
  | join (pkt : JoinPkt)
  | unsub (subPkt : SubPkt)

/-- What is written after the five bytes of the header; `none` where that is undefined. -/
def AnyPkt.body : AnyPkt → Option Bytes
  | .pub pkt => some (encodeBody pkt)
  | .rule pkt => encodeRuleBody pkt
  | .sub pkt => some (encodeSubBody pkt)
  | .adv pkt => some (encodeIntSet pkt.advertisements)
  | .join pkt => some (encodeJoinBody pkt)
  | .unsub subPkt => some (encodeUnSubBody subPkt)

/-- The length in the header; the buffer has five bytes more. -/
def AnyPkt.length : AnyPkt → Option Int
  | .pub pkt => some (wrap32 (getNumBytes pkt))
  | .rule pkt => (getNumBytesRule pkt).map fun size => wrap32 size
  | .sub pkt => some (wrap32 (getNumBytesSub pkt))
  | .adv pkt => some (wrap32 (getNumBytesIntSet pkt.advertisements))
  | .join pkt => some (getNumBytesJoin pkt)
  | .unsub subPkt => some (wrap32 (getSizeSub subPkt))

/-- The length is the number of bytes after the header. -/
def AnyPkt.LengthExact (pkt : AnyPkt) : Prop :=
  ∃ bytes, pkt.body = some bytes ∧ pkt.length = some (bytes.length : Int)

/-! ## What can be written -/


/-- A tree can be written if none of its leaves is a constant. -/
theorem isSome_encodeOpTree (tree : OpTree) :
    (encodeOpTree tree).isSome ↔ ∀ value, .static value ∉ tree.refs := by
  induction tree with
  | leaf ref valType =>
      cases ref with
      | static value => simp [encodeOpTree, encodeValueReference, OpTree.refs]
      | rulePkt index type name => simp [encodeOpTree, encodeValueReference, OpTree.refs]
  | inner left right op valType ihLeft ihRight =>
      have both : (encodeOpTree (.inner left right op valType)).isSome ↔
          (encodeOpTree left).isSome ∧ (encodeOpTree right).isSome := by
        rw [encodeOpTree]
        cases encodeOpTree left <;> cases encodeOpTree right <;> simp
      simp only [both, ihLeft, ihRight, OpTree.refs, List.mem_append, not_or, forall_and]

theorem isSome_mapM {α β : Type} (f : α → Option β) (xs : List α) :
    (xs.mapM f).isSome ↔ ∀ x ∈ xs, (f x).isSome := by
  induction xs with
  | nil => simp
  | cons x rest ih =>
      rw [List.mapM_cons, List.forall_mem_cons, ← ih]
      cases f x <;> cases rest.mapM f <;> simp

/-- A rule can be written if it has a template without constants. -/
theorem isSome_encodeRuleBody (pkt : RulePkt) :
    (encodeRuleBody pkt).isSome ↔ ∃ template ∈ pkt.ceTemplate,
      ∀ a ∈ template.attributes, ∀ value, .static value ∉ a.2.refs := by
  rw [encodeRuleBody]
  cases pkt.ceTemplate with
  | none => simp
  | some template =>
      have attributes := isSome_mapM encodeTemplateAttr template.attributes
      have tree : ∀ a, (encodeTemplateAttr a).isSome ↔ (encodeOpTree a.2).isSome := by
        intro a
        rw [encodeTemplateAttr]
        cases encodeOpTree a.2 <;> simp
      simp only [tree, isSome_encodeOpTree] at attributes
      simp only [Option.mem_def, Option.some.injEq, exists_eq_left', ← attributes]
      simp [encodeTemplate]
      cases template.attributes.mapM encodeTemplateAttr <;> simp

/-! ## Lengths -/

@[simp] theorem length_encodeLong (v : Int) : (encodeLong v).length = 8 := length_bigEndian 8 _

theorem length_encodeIntSet (source : List Int) :
    (encodeIntSet source).length = getNumBytesIntSet source := by
  simp [encodeIntSet, getNumBytesIntSet, List.length_flatMap]
  omega

/-- An `int` holds a number of bytes below 2 to the power of 31, and no other. -/
theorem wrap32_eq_iff (n : Nat) : wrap32 n = (n : Int) ↔ n < 2 ^ 31 := by
  unfold wrap32
  rw [Int.bmod_def]
  split <;> omega

/-- No number wraps to the one that is four less. -/
theorem wrap32_add_four_ne (n : Nat) : wrap32 ((n + 4 : Nat) : Int) ≠ (n : Int) := by
  unfold wrap32
  rw [Int.bmod_def]
  split <;> omega

/-- The bytes after the header are few enough for their number to fit. -/
def AnyPkt.Small (pkt : AnyPkt) : Prop := ∀ bytes ∈ pkt.body, bytes.length < 2 ^ 31

/-- The packets whose length is computed as `encode` writes them. -/
def AnyPkt.Measured : AnyPkt → Prop
  | .pub _ => True
  | .rule pkt => ∃ template ∈ pkt.ceTemplate,
      ∀ a ∈ template.attributes, ∀ value, .static value ∉ a.2.refs
  | .sub _ => False
  | .adv _ => True
  | .join pkt => wrap32 (pkt.address + pkt.port) = 12
  | .unsub _ => False

/-- Where `getNumBytes` follows `encode`, only the limit of `int` matters. -/
theorem lengthExact_of_measured {pkt : AnyPkt} {bytes : Bytes} (body : pkt.body = some bytes)
    (length : pkt.length = some (wrap32 bytes.length)) : pkt.LengthExact ↔ pkt.Small := by
  rw [AnyPkt.LengthExact, AnyPkt.Small, body, length]
  simp only [Option.some.injEq, exists_eq_left', Option.mem_def, forall_eq', wrap32_eq_iff]

/-- A length that is four too large is never right. -/
theorem not_lengthExact_of_four_more {pkt : AnyPkt} {bytes : Bytes} (body : pkt.body = some bytes)
    (length : pkt.length = some (wrap32 ((bytes.length + 4 : Nat) : Int))) : ¬ pkt.LengthExact := by
  rintro ⟨written, isBody, exact⟩
  rw [body, Option.some.injEq] at isBody
  rw [length, Option.some.injEq, ← isBody] at exact
  exact wrap32_add_four_ne _ exact

/-- The length is right for publications and advertisements, for rules with a template that has no
constants, and for the join packets whose address and port happen to add up to 12. -/
theorem lengthExact_iff (pkt : AnyPkt) : pkt.LengthExact ↔ pkt.Measured ∧ pkt.Small := by
  cases pkt with
  | pub pkt =>
      rw [lengthExact_of_measured rfl (by rw [length_encodeBody]; rfl)]
      exact (and_iff_right trivial).symm
  | rule pkt =>
      have written := isSome_encodeRuleBody pkt
      have sized := length_encodeRuleBody pkt
      rw [AnyPkt.Measured, ← written]
      cases body : encodeRuleBody pkt with
      | none =>
          refine iff_of_false ?_ fun both => Bool.false_ne_true both.1
          rintro ⟨bytes, isBody, -⟩
          rw [AnyPkt.body, body] at isBody
          cases isBody
      | some bytes =>
          rw [body, Option.map_some] at sized
          have length : (AnyPkt.rule pkt).length = some (wrap32 bytes.length) := by
            rw [AnyPkt.length, ← sized]
            rfl
          rw [@lengthExact_of_measured (.rule pkt) bytes body length]
          exact (and_iff_right rfl).symm
  | sub pkt =>
      have length := length_encodeSubBody pkt
      refine iff_of_false (not_lengthExact_of_four_more rfl ?_) fun both => both.1
      rw [length]
      rfl
  | adv pkt =>
      rw [lengthExact_of_measured rfl (by rw [length_encodeIntSet]; rfl)]
      exact (and_iff_right trivial).symm
  | join pkt =>
      have length : (encodeJoinBody pkt).length = 12 := by simp [encodeJoinBody]
      have small : (AnyPkt.join pkt).Small := by
        rintro bytes ⟨⟩
        omega
      rw [and_iff_left small, AnyPkt.LengthExact, AnyPkt.Measured]
      simp only [AnyPkt.body, AnyPkt.length, getNumBytesJoin, Option.some.injEq, exists_eq_left',
        length]
      rfl
  | unsub subPkt =>
      have length := length_encodeSubBody subPkt
      have header : (encodeUnSubBody subPkt).length = 5 + (encodeSubBody subPkt).length := by
        simp only [encodeUnSubBody, List.length_append, length_encodeInt, encodePktType,
          List.length_singleton]
        omega
      refine iff_of_false (not_lengthExact_of_four_more rfl ?_) fun both => both.1
      rw [AnyPkt.length, getSizeSub, ← length, header]
      congr 3
      omega

/-- The header of a subscription without constraints announces twelve bytes; eight follow. -/
theorem subscription_not_lengthExact : ¬ (AnyPkt.sub ⟨1, []⟩).LengthExact := by
  rintro ⟨bytes, body, length⟩
  cases body
  revert length
  decide

end TRex.Marshaller
