import TRex.JavaUnmarshaller

/-!
# Rules sent by the client and read by it

`Unmarshaller` does not expect the byte with which `Marshaller` begins a reference, so after each
leaf it is one byte further behind, and it never catches up. From then on it reads zeros, or the
bytes of the number that comes next pushed to the right, and what it puts together is what was
written only if that was zero too. `rule_roundTrips_iff` says of which rules this is true; nothing
but the template is in the copy that is returned. -/

namespace TRex.Java

open Wire

/-- Bytes that the decoder has already passed over in what was written before. -/
abbrev zeros (m : Nat) : Bytes := List.replicate m 0

namespace Unmarshaller

open Java.Marshaller

/-! ## Reading behind -/

theorem zeros_append_zeros (m n : Nat) : zeros m ++ zeros n = zeros n ++ zeros m := by
  rw [List.replicate_append_replicate, List.replicate_append_replicate, Nat.add_comm]

/-- Zeros that were written come out in front of those that are behind. -/
theorem zeros_shift (m n : Nat) (more : Bytes) :
    zeros m ++ (zeros n ++ more) = zeros n ++ (zeros m ++ more) := by
  rw [← List.append_assoc, zeros_append_zeros, List.append_assoc]

theorem zeros_succ (m : Nat) (input : Bytes) :
    zeros (m + 1) ++ input = 0 :: (zeros m ++ input) := rfl

theorem encodeInt_zero : encodeInt 0 = zeros 4 := rfl

theorem decodeInt_zero (m : Nat) (more : Bytes) :
    decodeInt (zeros m ++ (encodeInt 0 ++ more)) = some (0, zeros m ++ more) := by
  rw [encodeInt_zero, zeros_shift, ← encodeInt_zero]
  exact reads_int (show IsInt 0 by decide) _

/-- A number read behind is itself only if it is zero. -/
theorem decodeInt_behind {m : Nat} (behind : 0 < m) {v : Int} (inRange : IsInt v)
    (more rest : Bytes) : decodeInt (zeros m ++ (encodeInt v ++ more)) = some (v, rest) ↔
      v = 0 ∧ rest = zeros m ++ more := by
  constructor
  · intro read
    have isZero : v = 0 := by
      obtain ⟨n, mid, readWord, value⟩ := bind_eq_some.mp read
      obtain ⟨bytes, mid', taken, isWord⟩ := bind_eq_some.mp readWord
      have front : bytes = bigEndian 4 ((v % 2 ^ 32).toNat / 256 ^ m) := by
        have long : 4 ≤ (zeros m ++ (encodeInt v ++ more)).length := by
          rw [List.length_append, List.length_append, length_encodeInt]
          omega
        rw [Wire.take, if_pos long] at taken
        rw [← (Prod.mk.inj (Option.some.inj taken)).1, ← List.append_assoc,
          List.take_append_of_le_length,
          encodeInt, take_zeros_bigEndian (by omega)]
        rw [List.length_append, length_encodeInt]
        omega
      have number : n = (v % 2 ^ 32).toNat / 256 ^ m := by
        rw [← (Prod.mk.inj (Option.some.inj isWord)).1, front, ofBigEndian_bigEndian]
        exact Nat.mod_eq_of_lt ((Nat.div_le_self _ _).trans_lt (by omega))
      have wrapped : wrap32 (n : Int) = v := (Prod.mk.inj (Option.some.inj value)).1
      have atLeast : 256 ≤ 256 ^ m := Nat.le_self_pow behind.ne' 256
      have less : n ≤ (v % 2 ^ 32).toNat / 256 := by
        rw [number]
        exact Nat.div_le_div_left atLeast (by decide)
      obtain ⟨lower, upper⟩ := inRange
      unfold wrap32 at wrapped
      rw [Int.bmod_def] at wrapped
      split at wrapped <;> omega
    subst isZero
    rw [decodeInt_zero] at read
    cases read
    exact ⟨rfl, rfl⟩
  · rintro ⟨rfl, rfl⟩
    exact decodeInt_zero m more

/-- The same for an enumeration: what is read is the constant that is written as zero. -/
theorem enum_behind {α : Type} {decode : Decoder α} {encode : α → Bytes} {zero : α}
    (read : Reads decode [0] zero) (written : encode zero = [0]) {m : Nat} (behind : 0 < m) {a : α}
    (more rest : Bytes) :
    decode (zeros m ++ (encode a ++ more)) = some (a, rest) ↔
      a = zero ∧ rest = zeros m ++ more := by
  obtain ⟨m, rfl⟩ := Nat.exists_eq_add_one.mpr behind
  have first : decode (zeros (m + 1) ++ (encode a ++ more)) =
      some (zero, zeros m ++ (encode a ++ more)) := by
    exact read (zeros m ++ (encode a ++ more))
  rw [first, Option.some_inj, Prod.mk.injEq]
  constructor
  · rintro ⟨rfl, same⟩
    rw [written, show [(0 : UInt8)] = zeros 1 from rfl, ← List.append_assoc,
      List.replicate_append_replicate] at same
    exact ⟨rfl, same.symm⟩
  · rintro ⟨rfl, same⟩
    rw [written, same, show [(0 : UInt8)] = zeros 1 from rfl, ← List.append_assoc,
      List.replicate_append_replicate]
    exact ⟨rfl, rfl⟩

theorem decodeString_behind {m : Nat} (behind : 0 < m) {s : CString} (short : s.length < 2 ^ 31)
    (more rest : Bytes) : decodeString (zeros m ++ (encodeString s ++ more)) = some (s, rest) ↔
      s = [] ∧ rest = zeros m ++ more := by
  have inRange : IsInt s.length := by
    constructor <;> omega
  rw [encodeString, List.append_assoc]
  constructor
  · intro read
    obtain ⟨length, mid, readLength, readChars⟩ := bind_eq_some.mp read
    obtain ⟨nonneg, readChars⟩ := require_bind_eq_some.mp readChars
    obtain ⟨bytes, _, taken, last⟩ := bind_eq_some.mp readChars
    cases last
    obtain ⟨size, whole⟩ := take_eq_some.mp taken
    have same : length = ((bytes.map decodeChar).length : Int) := by
      rw [List.length_map]
      omega
    rw [same] at readLength
    obtain ⟨empty, behindLength⟩ := (decodeInt_behind behind inRange _ _).mp readLength
    have none : bytes = [] := List.length_eq_zero_iff.mp (by omega)
    subst none
    exact ⟨rfl, whole.symm.trans behindLength⟩
  · rintro ⟨rfl, rfl⟩
    exact bind_eq_some.mpr ⟨0, zeros m ++ more,
      (decodeInt_behind behind inRange _ _).mpr ⟨rfl, rfl⟩, rfl⟩

theorem decodeValueReference_behind {m : Nat} (behind : 0 < m) {index : Int} {stype : StateType}
    {name : CString} (inRange : IsInt index) (short : name.length < 2 ^ 31) (more rest : Bytes) :
    decodeValueReference (zeros m ++ (encodeInt index ++ (encodeStateType stype ++
      (encodeString name ++ more)))) = some (.rulePkt index stype name, rest) ↔
      (index = 0 ∧ stype = .state ∧ name = []) ∧ rest = zeros m ++ more := by
  have state : Reads decodeStateType [0] .state := fun _ => rfl
  constructor
  · intro read
    obtain ⟨idx, afterIndex, readIndex, read⟩ := bind_eq_some.mp read
    obtain ⟨sType, afterType, readType, read⟩ := bind_eq_some.mp read
    obtain ⟨name', afterName, readName, last⟩ := bind_eq_some.mp read
    cases last
    obtain ⟨zeroIndex, rfl⟩ := (decodeInt_behind behind inRange _ _).mp readIndex
    obtain ⟨isState, rfl⟩ := (enum_behind state rfl behind _ _).mp readType
    obtain ⟨noName, atEnd⟩ := (decodeString_behind behind short _ _).mp readName
    exact ⟨⟨zeroIndex, isState, noName⟩, atEnd⟩
  · rintro ⟨⟨rfl, rfl, rfl⟩, rfl⟩
    refine bind_eq_some.mpr ⟨0, _, (decodeInt_behind behind inRange _ _).mpr ⟨rfl, rfl⟩, ?_⟩
    refine bind_eq_some.mpr ⟨.state, _, (enum_behind state rfl behind _ _).mpr ⟨rfl, rfl⟩, ?_⟩
    exact bind_eq_some.mpr ⟨[], _, (decodeString_behind behind short _ _).mpr ⟨rfl, rfl⟩, rfl⟩

end Unmarshaller

/-! ## Trees -/

/-- The leaf that is all zeros. -/
def zeroLeaf : OpTree := .leaf (.rulePkt 0 .state []) .int

/-- The trees that come back: sums, each with the zero leaf on the right, of a leaf of any type. -/
inductive Spine : OpTree → Prop
  | leaf (valType : ValType) : Spine (.leaf (.rulePkt 0 .state []) valType)
  | inner {leftTree : OpTree} (valType : ValType) (spine : Spine leftTree) :
    Spine (.inner leftTree zeroLeaf .add valType)

def leaves : OpTree → Nat
  | .leaf _ _ => 1
  | .inner leftTree rightTree _ _ => leaves leftTree + leaves rightTree

theorem leaves_pos (tree : OpTree) : 0 < leaves tree := by
  cases tree with
  | leaf => exact Nat.one_pos
  | inner left right =>
      have := leaves_pos left
      exact Nat.add_pos_left this _

/-- A tree of the client: indexes are `int`s, and names are not too long to be written. -/
def SentTree : OpTree → Prop
  | .leaf (.rulePkt index _ name) _ => IsInt index ∧ name.length < 2 ^ 31
  | .leaf (.static _) _ => True
  | .inner leftTree rightTree _ _ => SentTree leftTree ∧ SentTree rightTree

namespace Unmarshaller

open Java.Marshaller

theorem decodeOpTreeWithin_leaf (fuel : Nat) (input : Bytes) :
    decodeOpTreeWithin (fuel + 1) (0 :: input) = (do
      let valType ← decodeValType
      return OpTree.leaf (← decodeValueReference) valType) input := rfl

theorem decodeOpTreeWithin_inner (fuel : Nat) (input : Bytes) :
    decodeOpTreeWithin (fuel + 1) (1 :: input) = (do
      let valType ← decodeValType
      let leftTree ← decodeOpTreeWithin fuel
      let rightTree ← decodeOpTreeWithin fuel
      let op ← decodeOp
      return OpTree.inner leftTree rightTree op valType) input := rfl

/-- No static value is ever read. -/
theorem decodeValueReference_static {value : Value} {input rest : Bytes} :
    decodeValueReference input ≠ some (.static value, rest) := by
  intro read
  obtain ⟨_, _, _, read⟩ := bind_eq_some.mp read
  obtain ⟨_, _, _, read⟩ := bind_eq_some.mp read
  obtain ⟨_, _, _, last⟩ := bind_eq_some.mp read
  cases last

/-- The byte before a reference is not expected: behind it the decoder is one byte further
behind. -/
theorem zeros_tag (m : Nat) (input : Bytes) :
    zeros m ++ ([0] ++ input) = zeros (m + 1) ++ input := by
  rw [show [(0 : UInt8)] = zeros 1 from rfl, ← List.append_assoc, List.replicate_append_replicate]

/-- A reference read with `m` bytes behind, its own first byte not counted. -/
theorem decodeValueReference_tagged (m : Nat) {valueRef : OpValueReference} {valType : ValType}
    (sent : SentTree (.leaf valueRef valType)) (more rest : Bytes) :
    decodeValueReference (zeros m ++ (encodeValueReference valueRef ++ more)) =
        some (valueRef, rest) ↔
      valueRef = .rulePkt 0 .state [] ∧ rest = zeros (m + 1) ++ more := by
  cases valueRef with
  | static value =>
      constructor
      · intro read
        exact absurd read decodeValueReference_static
      · rintro ⟨same, -⟩
        cases same
  | rulePkt index stype name =>
      rw [encodeValueReference, List.append_assoc, zeros_tag, List.append_assoc, List.append_assoc,
        decodeValueReference_behind (Nat.succ_pos m) sent.1 sent.2, OpValueReference.rulePkt.injEq]

/-- Behind, every tree that is read is a leaf. -/
theorem decodeOpTree_behind {m : Nat} (behind : 0 < m) {tree : OpTree} (sent : SentTree tree)
    (fuel : Nat) (more rest : Bytes) :
    decodeOpTreeWithin (fuel + 1) (zeros m ++ (encodeOpTree tree ++ more)) = some (tree, rest) ↔
      tree = zeroLeaf ∧ rest = zeros (m + 1) ++ more := by
  have int : Reads decodeValType [0] .int := fun _ => rfl
  obtain ⟨m, rfl⟩ := Nat.exists_eq_add_one.mpr behind
  rw [zeros_succ, decodeOpTreeWithin_leaf]
  cases tree with
  | inner left right op valType =>
      constructor
      · intro read
        obtain ⟨_, _, _, read⟩ := bind_eq_some.mp read
        obtain ⟨_, _, _, last⟩ := bind_eq_some.mp read
        cases last
      · rintro ⟨same, -⟩
        cases same
  | leaf valueRef valType =>
      rw [encodeOpTree, List.append_assoc, zeros_tag, List.append_assoc]
      constructor
      · intro read
        obtain ⟨_, _, readType, read⟩ := bind_eq_some.mp read
        obtain ⟨_, _, readRef, last⟩ := bind_eq_some.mp read
        cases last
        obtain ⟨isInt, rfl⟩ := (enum_behind int rfl behind _ _).mp readType
        obtain ⟨isZero, atEnd⟩ := (decodeValueReference_tagged (m + 1) sent _ _).mp readRef
        exact ⟨by rw [isInt, isZero]; rfl, atEnd⟩
      · rintro ⟨same, rfl⟩
        cases same
        refine bind_eq_some.mpr ⟨.int, _, (enum_behind int rfl behind _ _).mpr ⟨rfl, rfl⟩, ?_⟩
        exact bind_eq_some.mpr
          ⟨_, _, (decodeValueReference_tagged (m + 1) sent _ _).mpr ⟨rfl, rfl⟩, rfl⟩

/-- A tree that is read from its first byte on. -/
theorem decodeOpTree_spine {tree : OpTree} (sent : SentTree tree) {fuel : Nat}
    (enough : (encodeOpTree tree).length ≤ fuel) (more rest : Bytes) :
    decodeOpTreeWithin fuel (encodeOpTree tree ++ more) = some (tree, rest) ↔
      Spine tree ∧ rest = zeros (leaves tree) ++ more := by
  have add : Reads decodeOp [0] .add := fun _ => rfl
  induction tree generalizing fuel more rest with
  | leaf valueRef valType =>
      rw [encodeOpTree, List.length_append, List.length_singleton] at enough
      obtain ⟨fuel, rfl⟩ := Nat.exists_eq_add_one.mpr (show 0 < fuel by omega)
      rw [encodeOpTree, List.append_assoc, List.singleton_append, decodeOpTreeWithin_leaf,
        List.append_assoc, (reads_valType valType).run_bind]
      constructor
      · intro read
        obtain ⟨_, _, readRef, last⟩ := bind_eq_some.mp read
        cases last
        obtain ⟨rfl, atEnd⟩ := (decodeValueReference_tagged 0 sent _ _).mp readRef
        exact ⟨.leaf valType, atEnd⟩
      · rintro ⟨spine, rfl⟩
        cases spine
        exact bind_eq_some.mpr
          ⟨_, _, (decodeValueReference_tagged 0 sent _ _).mpr ⟨rfl, rfl⟩, rfl⟩
  | inner left right op valType ihLeft ihRight =>
      rw [encodeOpTree] at enough
      simp only [List.length_append, List.length_singleton, length_encodeValType] at enough
      obtain ⟨fuel, rfl⟩ := Nat.exists_eq_add_of_le' (show 2 ≤ fuel by omega)
      rw [encodeOpTree, List.append_assoc, List.singleton_append, decodeOpTreeWithin_inner,
        List.append_assoc, (reads_valType valType).run_bind, List.append_assoc, List.append_assoc]
      constructor
      · intro read
        obtain ⟨_, _, readLeft, read⟩ := bind_eq_some.mp read
        obtain ⟨_, _, readRight, read⟩ := bind_eq_some.mp read
        obtain ⟨_, _, readOp, last⟩ := bind_eq_some.mp read
        cases last
        obtain ⟨spine, rfl⟩ := (ihLeft sent.1 (by omega) _ _).mp readLeft
        obtain ⟨isZero, rfl⟩ := (decodeOpTree_behind (leaves_pos left) sent.2 _ _ _).mp readRight
        obtain ⟨isAdd, atEnd⟩ := (enum_behind add rfl (Nat.succ_pos _) _ _).mp readOp
        subst isZero isAdd
        exact ⟨.inner valType spine, atEnd⟩
      · rintro ⟨spine, rfl⟩
        cases spine with
        | inner _ spine =>
          refine bind_eq_some.mpr ⟨left, _, (ihLeft sent.1 (by omega) _ _).mpr ⟨spine, rfl⟩, ?_⟩
          refine bind_eq_some.mpr
            ⟨_, _, (decodeOpTree_behind (leaves_pos left) sent.2 _ _ _).mpr ⟨rfl, rfl⟩, ?_⟩
          exact bind_eq_some.mpr
            ⟨_, _, (enum_behind add rfl (Nat.succ_pos _) _ _).mpr ⟨rfl, rfl⟩, rfl⟩

end Unmarshaller

/-! ## Templates -/

/-- The first attribute is read from its first byte on, the others behind. -/
def Readable : List (CString × OpTree) → Prop
  | [] => True
  | first :: others => Spine first.2 ∧ ∀ a ∈ others, a = ([], zeroLeaf)

/-- The attributes of a template of the client. -/
structure SentTemplateAttr (a : CString × OpTree) : Prop where
  name : SentString a.1
  value : SentTree a.2

namespace Unmarshaller

open Java.Marshaller

theorem decodeTemplateAttr_behind {m : Nat} (behind : 0 < m) {a : CString × OpTree}
    (sent : SentTemplateAttr a) (more rest : Bytes) :
    decodeEventTemplateAttr (zeros m ++ (encodeTemplateAttr a ++ more)) = some (a, rest) ↔
      a = ([], zeroLeaf) ∧ rest = zeros (m + 1) ++ more := by
  have fuel : ∀ input : Bytes, decodeOpTree (zeros m ++ input) =
      decodeOpTreeWithin (m - 1 + input.length + 1) (zeros m ++ input) := by
    intro input
    rw [decodeOpTree, List.length_append, List.length_replicate]
    congr 1
    omega
  rw [encodeTemplateAttr, List.append_assoc]
  constructor
  · intro read
    obtain ⟨_, _, readName, read⟩ := bind_eq_some.mp read
    obtain ⟨_, _, readTree, last⟩ := bind_eq_some.mp read
    cases last
    obtain ⟨noName, rfl⟩ := (decodeString_behind behind sent.name.short _ _).mp readName
    rw [fuel] at readTree
    obtain ⟨isZero, atEnd⟩ := (decodeOpTree_behind behind sent.value _ _ _).mp readTree
    exact ⟨Prod.ext noName isZero, atEnd⟩
  · rintro ⟨rfl, rfl⟩
    refine bind_eq_some.mpr
      ⟨[], _, (decodeString_behind behind sent.name.short _ _).mpr ⟨rfl, rfl⟩, ?_⟩
    refine bind_eq_some.mpr ⟨zeroLeaf, _, ?_, rfl⟩
    rw [fuel]
    exact (decodeOpTree_behind behind sent.value _ _ _).mpr ⟨rfl, rfl⟩

theorem decodeTemplateAttr_spine {a : CString × OpTree} (sent : SentTemplateAttr a)
    (more rest : Bytes) :
    decodeEventTemplateAttr (encodeTemplateAttr a ++ more) = some (a, rest) ↔
      Spine a.2 ∧ rest = zeros (leaves a.2) ++ more := by
  obtain ⟨name, value⟩ := a
  have enough : (encodeOpTree value).length ≤ (encodeOpTree value ++ more).length := by
    rw [List.length_append]
    exact Nat.le_add_right _ _
  have tree := decodeOpTree_spine sent.value enough more rest
  unfold decodeEventTemplateAttr
  rw [encodeTemplateAttr, List.append_assoc, (reads_string sent.name).run_bind]
  constructor
  · intro read
    obtain ⟨_, _, readTree, last⟩ := bind_eq_some.mp read
    cases last
    exact tree.mp readTree
  · intro readable
    exact bind_eq_some.mpr ⟨value, rest, tree.mpr readable, rfl⟩

/-- Attributes behind, one byte more with each of them. -/
theorem decodeTemplateAttrs_behind {m : Nat} (behind : 0 < m) {attributes : List (CString × OpTree)}
    (sent : ∀ a ∈ attributes, SentTemplateAttr a) (more rest : Bytes) :
    times decodeEventTemplateAttr attributes.length
        (zeros m ++ (attributes.flatMap encodeTemplateAttr ++ more)) = some (attributes, rest) ↔
      (∀ a ∈ attributes, a = ([], zeroLeaf)) ∧ rest = zeros (m + attributes.length) ++ more := by
  induction attributes generalizing m with
  | nil =>
      constructor
      · intro read
        cases read
        exact ⟨fun a mem => (List.not_mem_nil mem).elim, rfl⟩
      · rintro ⟨-, rfl⟩
        rfl
  | cons first others ih =>
      have later : m + 1 + others.length = m + (first :: others).length := by
        rw [List.length_cons]
        omega
      have ih := ih (Nat.succ_pos m) fun a mem => sent a (List.mem_cons_of_mem first mem)
      rw [later] at ih
      have one := decodeTemplateAttr_behind behind (sent first List.mem_cons_self)
      rw [List.flatMap_cons, List.append_assoc, List.forall_mem_cons, and_assoc]
      constructor
      · intro read
        obtain ⟨_, _, readFirst, read⟩ := bind_eq_some.mp read
        obtain ⟨_, _, readOthers, last⟩ := bind_eq_some.mp read
        cases last
        obtain ⟨isZero, rfl⟩ := (one _ _).mp readFirst
        exact ⟨isZero, ih.mp readOthers⟩
      · rintro ⟨isZero, zero⟩
        refine bind_eq_some.mpr ⟨first, _, (one _ _).mpr ⟨isZero, rfl⟩, ?_⟩
        exact bind_eq_some.mpr ⟨others, rest, ih.mpr zero, rfl⟩

theorem readable_of_decode {attributes : List (CString × OpTree)}
    (sent : ∀ a ∈ attributes, SentTemplateAttr a) {more rest : Bytes}
    (read : times decodeEventTemplateAttr attributes.length
      (attributes.flatMap encodeTemplateAttr ++ more) = some (attributes, rest)) :
    Readable attributes := by
  cases attributes with
  | nil => trivial
  | cons first others =>
      rw [List.flatMap_cons, List.append_assoc] at read
      obtain ⟨_, _, readFirst, read⟩ := bind_eq_some.mp read
      obtain ⟨_, _, readOthers, last⟩ := bind_eq_some.mp read
      cases last
      obtain ⟨spine, rfl⟩ :=
        (decodeTemplateAttr_spine (sent first List.mem_cons_self) _ _).mp readFirst
      have zero := (decodeTemplateAttrs_behind (leaves_pos first.2)
        (fun a mem => sent a (List.mem_cons_of_mem first mem)) _ _).mp readOthers
      exact ⟨spine, zero.1⟩

/-- At the end some bytes of the attributes are still to come, and all of them are zero. -/
theorem decode_of_readable {attributes : List (CString × OpTree)} (readable : Readable attributes)
    (sent : ∀ a ∈ attributes, SentTemplateAttr a) (more : Bytes) :
    ∃ m, times decodeEventTemplateAttr attributes.length
      (attributes.flatMap encodeTemplateAttr ++ more) = some (attributes, zeros m ++ more) := by
  cases attributes with
  | nil => exact ⟨0, rfl⟩
  | cons first others =>
      rw [List.flatMap_cons, List.append_assoc]
      obtain ⟨spine, zero⟩ := readable
      refine ⟨leaves first.2 + others.length, bind_eq_some.mpr ⟨first, _,
        (decodeTemplateAttr_spine (sent first List.mem_cons_self) _ _).mpr ⟨spine, rfl⟩, ?_⟩⟩
      refine bind_eq_some.mpr ⟨others, _, ?_, rfl⟩
      exact (decodeTemplateAttrs_behind (leaves_pos first.2)
        (fun a mem => sent a (List.mem_cons_of_mem first mem)) _ _).mpr ⟨zero, rfl⟩

end Unmarshaller

/-! ## Rules -/

/-- The same rule; the consuming set has no order. -/
structure RulePkt.Equal (pkt rule : RulePkt) : Prop where
  predicates : pkt.predicates = rule.predicates
  parameters : pkt.parameters = rule.parameters
  negations : pkt.negations = rule.negations
  aggregates : pkt.aggregates = rule.aggregates
  consuming : ∀ i, i ∈ pkt.consuming ↔ i ∈ rule.consuming
  eventTemplate : pkt.eventTemplate = rule.eventTemplate

/-- `unmarshal` returns the rule that has been marshalled, and has read the whole array. -/
def RulePkt.RoundTrips (rule : RulePkt) (orders : Orders) : Prop :=
  ∃ pkt : RulePkt, Unmarshaller.unmarshal (Marshaller.encode rule orders) 0 =
    some (some (.rule pkt), ((Marshaller.encode rule orders).length : Int)) ∧ pkt.Equal rule

/-- Nothing but a template, with attributes that can be read and no static ones. -/
structure RulePkt.Survives (rule : RulePkt) : Prop where
  predicates : rule.predicates = []
  parameters : rule.parameters = []
  negations : rule.negations = []
  aggregates : rule.aggregates = []
  consuming : rule.consuming = []
  staticAttributes : rule.eventTemplate.staticAttributes = []
  attributes : Readable rule.eventTemplate.attributes

/-- The template is one that a client can have. -/
structure EventTemplate.Sent (t : EventTemplate) : Prop where
  eventType : IsInt t.eventType
  countable : FitsCounter t.attributes
  attributes : ∀ a ∈ t.attributes, SentTemplateAttr a

open Java.Marshaller Java.Unmarshaller

section RoundTrip

variable {rule : RulePkt} {orders : Orders}

/-- The body is decoded on its own, and the offset is the length of the array. -/
theorem unmarshal_encode (allocated : (encode rule orders).length < 2 ^ 31) :
    unmarshal (encode rule orders) 0 = (decodeRulePkt (encodeBody rule orders)).map fun x =>
      (some (.rule x.1), ((encode rule orders).length : Int)) := by
  have size : (encode rule orders).length = 5 + (encodeBody rule orders).length := by
    rw [encode, List.length_append, List.length_append, length_encodeInt]
    show 1 + (4 + _) = _
    omega
  have bytes : encode rule orders = encodePacketType .rulePacket ++
      (encodeInt (encodeBody rule orders).length ++ (encodeBody rule orders ++ [])) := by
    rw [encode, ← length_encodeBody, List.append_nil]
    rfl
  rw [size] at allocated ⊢
  rw [bytes, unmarshal_packet .rulePacket (by omega), List.append_nil, decodeBody]
  have body : (do return TRexPkt.rule (← decodeRulePkt)) (encodeBody rule orders) = _ := map_run ..
  rw [body, Option.map_map]
  rfl

/-- Nothing but the template is in the copy. -/
theorem decodeRulePkt_eq_some {input rest : Bytes} {pkt : RulePkt} :
    decodeRulePkt input = some (pkt, rest) ↔
      ∃ whole : RulePkt, decodeNewRulePkt input = some (whole, rest) ∧ copyRulePkt whole = pkt := by
  have run : decodeRulePkt input = _ := map_run decodeNewRulePkt copyRulePkt input
  rw [run, Option.map_eq_some_iff]
  constructor
  · rintro ⟨⟨whole, rest'⟩, decoded, same⟩
    cases same
    exact ⟨whole, decoded, rfl⟩
  · rintro ⟨whole, decoded, rfl⟩
    exact ⟨(whole, rest), decoded, rfl⟩

/-- What the template loses on the way, the rule that is returned has lost. -/
theorem decodeNewRulePkt_static {input rest : Bytes} {whole : RulePkt}
    (decoded : decodeNewRulePkt input = some (whole, rest)) :
    whole.eventTemplate.staticAttributes = [] := by
  obtain ⟨_, _, _, decoded⟩ := bind_eq_some.mp decoded
  obtain ⟨_, _, _, decoded⟩ := bind_eq_some.mp decoded
  obtain ⟨_, _, _, decoded⟩ := bind_eq_some.mp decoded
  obtain ⟨_, _, _, decoded⟩ := bind_eq_some.mp decoded
  obtain ⟨template, _, readTemplate, decoded⟩ := bind_eq_some.mp decoded
  obtain ⟨_, _, _, last⟩ := bind_eq_some.mp decoded
  cases last
  obtain ⟨_, _, _, readTemplate⟩ := bind_eq_some.mp readTemplate
  obtain ⟨_, _, _, last⟩ := bind_eq_some.mp readTemplate
  cases last
  rfl

/-- A rule that comes back has nothing but a template without static attributes. -/
theorem RulePkt.RoundTrips.bare (roundTrips : rule.RoundTrips orders)
    (allocated : (encode rule orders).length < 2 ^ 31) :
    (rule.predicates = [] ∧ rule.parameters = [] ∧ rule.negations = [] ∧ rule.aggregates = [] ∧
      rule.consuming = []) ∧ rule.eventTemplate.staticAttributes = [] := by
  obtain ⟨pkt, read, equal⟩ := roundTrips
  rw [unmarshal_encode allocated, Option.map_eq_some_iff] at read
  obtain ⟨⟨_, rest⟩, copied, same⟩ := read
  cases same
  obtain ⟨whole, decoded, rfl⟩ := decodeRulePkt_eq_some.mp copied
  have template : whole.eventTemplate = rule.eventTemplate := equal.eventTemplate
  refine ⟨⟨equal.predicates.symm, equal.parameters.symm, equal.negations.symm,
    equal.aggregates.symm, ?_⟩, ?_⟩
  · exact List.eq_nil_iff_forall_not_mem.mpr fun i mem =>
      (List.not_mem_nil ((equal.consuming i).mpr mem)).elim
  · rw [← template]
    exact decodeNewRulePkt_static decoded

theorem reads_emptyMap {α : Type} (decode : Decoder α) :
    Reads (decodeMap decode) (encodeInt 0) [] := by
  have zero : Reads decodeInt (encodeInt 0) 0 := reads_int (show IsInt 0 by decide)
  exact zero.last (Reads.pure [])

/-- Behind the number of attributes only they are read. -/
theorem decodeEventTemplate_run {t : EventTemplate} (sent : t.Sent) (more : Bytes) :
    decodeEventTemplate (encodeTemplate t ++ more) =
      (times decodeEventTemplateAttr t.attributes.length (t.attributes.flatMap encodeTemplateAttr ++
        (encodeCollection encodeAttribute t.staticAttributes ++ more))).map fun x =>
          (⟨t.eventType, x.1, []⟩, x.2) := by
  rw [encodeTemplate, List.append_assoc, List.append_assoc, encodeCollection, List.append_assoc]
  unfold decodeEventTemplate decodeCollection
  rw [(reads_int sent.eventType).run_bind, bind_assoc, (reads_count sent.countable).run_bind]
  exact map_run (times decodeEventTemplateAttr t.attributes.length)
    (fun attributes => EventTemplate.mk t.eventType attributes []) _

/-- The body of a rule without anything but a template. -/
theorem decodeNewRulePkt_bare {template : EventTemplate} :
    decodeNewRulePkt (encodeInt 0 ++ (encodeInt 0 ++ (encodeInt 0 ++ (encodeInt 0 ++
      (encodeTemplate template ++ encodeInt 0))))) = (do
        let eventTemplate ← decodeEventTemplate
        let consuming ← decodeCollection decodeInt
        return RulePkt.mk [] [] [] [] (consuming.foldl addConsuming []) eventTemplate)
      (encodeTemplate template ++ encodeInt 0) := by
  unfold decodeNewRulePkt
  rw [(reads_emptyMap _).run_bind, (reads_emptyMap _).run_bind, (reads_emptyMap _).run_bind,
    (reads_emptyMap _).run_bind]

/-- What is written of a rule without anything but a template without static attributes. -/
theorem encodeBody_bare (visits : orders.Visits rule)
    (empty : rule.predicates = [] ∧ rule.parameters = [] ∧ rule.negations = [] ∧
      rule.aggregates = [] ∧ rule.consuming = []) :
    encodeBody rule orders = encodeInt 0 ++ (encodeInt 0 ++ (encodeInt 0 ++ (encodeInt 0 ++
      (encodeTemplate rule.eventTemplate ++ encodeInt 0)))) := by
  obtain ⟨predicates, parameters, negations, aggregates, consuming⟩ := empty
  have noPredicates : orders.predicates = [] := by
    have perm := visits.predicates
    rw [predicates] at perm
    exact perm.eq_nil
  have noParameters : orders.parameters = [] := by
    have perm := visits.parameters
    rw [parameters] at perm
    exact perm.eq_nil
  have noAggregates : orders.aggregates = [] := by
    have perm := visits.aggregates
    rw [aggregates] at perm
    exact perm.eq_nil
  have noNegations : orders.negations = [] := by
    have perm := visits.negations
    rw [negations] at perm
    exact perm.eq_nil
  have noConsuming : orders.consuming = [] := by
    have perm := visits.consuming
    rw [consuming] at perm
    exact perm.eq_nil
  rw [encodeBody, predicates, parameters, aggregates, negations, noPredicates, noParameters,
    noAggregates, noNegations, noConsuming]
  rfl

/-- A rule comes back equal exactly if it has nothing but a template whose attributes can be read
with the decoder falling behind. -/
theorem rule_roundTrips_iff (visits : orders.Visits rule) (sent : rule.eventTemplate.Sent)
    (allocated : (encode rule orders).length < 2 ^ 31) :
    rule.RoundTrips orders ↔ rule.Survives := by
  have template := decodeEventTemplate_run sent (encodeInt 0)
  constructor
  · intro roundTrips
    obtain ⟨empty, static⟩ := roundTrips.bare allocated
    obtain ⟨pkt, read, equal⟩ := roundTrips
    rw [unmarshal_encode allocated, Option.map_eq_some_iff] at read
    obtain ⟨⟨_, rest⟩, copied, same⟩ := read
    cases same
    obtain ⟨whole, decoded, rfl⟩ := decodeRulePkt_eq_some.mp copied
    have isTemplate : whole.eventTemplate = rule.eventTemplate := equal.eventTemplate
    rw [encodeBody_bare visits empty, decodeNewRulePkt_bare] at decoded
    obtain ⟨t, _, readTemplate, decoded⟩ := bind_eq_some.mp decoded
    obtain ⟨_, _, _, last⟩ := bind_eq_some.mp decoded
    cases last
    rw [template, Option.map_eq_some_iff] at readTemplate
    obtain ⟨⟨attributes, behind⟩, readAttributes, isRead⟩ := readTemplate
    have isSame : attributes = rule.eventTemplate.attributes :=
      congrArg EventTemplate.attributes ((Prod.mk.inj isRead).1.trans isTemplate)
    rw [isSame] at readAttributes
    obtain ⟨predicates, parameters, negations, aggregates, consuming⟩ := empty
    exact ⟨predicates, parameters, negations, aggregates, consuming, static,
      readable_of_decode sent.attributes readAttributes⟩
  · intro survives
    have empty := And.intro survives.predicates (And.intro survives.parameters
      (And.intro survives.negations (And.intro survives.aggregates survives.consuming)))
    obtain ⟨m, readAttributes⟩ := decode_of_readable survives.attributes sent.attributes
      (encodeCollection encodeAttribute rule.eventTemplate.staticAttributes ++ encodeInt 0)
    have readTemplate : decodeEventTemplate (encodeTemplate rule.eventTemplate ++ encodeInt 0) =
        some (rule.eventTemplate, zeros m ++ (encodeInt 0 ++ encodeInt 0)) := by
      have whole : rule.eventTemplate =
          ⟨rule.eventTemplate.eventType, rule.eventTemplate.attributes, []⟩ := by
        rw [← survives.staticAttributes]
      rw [template, readAttributes, survives.staticAttributes, whole]
      rfl
    have readConsuming : decodeCollection decodeInt (zeros m ++ (encodeInt 0 ++ encodeInt 0)) =
        some ([], zeros m ++ encodeInt 0) :=
      bind_eq_some.mpr ⟨0, _, decodeInt_zero m _, rfl⟩
    have decoded : decodeNewRulePkt (encodeBody rule orders) =
        some (⟨[], [], [], [], [], rule.eventTemplate⟩, zeros m ++ encodeInt 0) := by
      rw [encodeBody_bare visits empty, decodeNewRulePkt_bare]
      exact bind_eq_some.mpr ⟨_, _, readTemplate, bind_eq_some.mpr ⟨_, _, readConsuming, rfl⟩⟩
    refine ⟨⟨[], [], [], [], [], rule.eventTemplate⟩, ?_, ?_⟩
    · rw [unmarshal_encode allocated, decodeRulePkt_eq_some.mpr ⟨_, decoded, rfl⟩]
      rfl
    · exact ⟨survives.predicates.symm, survives.parameters.symm, survives.negations.symm,
        survives.aggregates.symm, fun i => by rw [survives.consuming], rfl⟩

end RoundTrip

/-- A template with two attributes, a sum and a copy of an attribute without a name. -/
def templateRule : RulePkt :=
  { predicates := [], parameters := [], negations := [], aggregates := [], consuming := []
    eventTemplate := ⟨10, [(['s'], .inner zeroLeaf zeroLeaf .add .int), ([], zeroLeaf)], []⟩ }

def noOrders : Orders := ⟨[], [], [], [], []⟩

theorem templateRule_roundTrips : templateRule.RoundTrips noOrders := by
  have zero : SentTree zeroLeaf := ⟨by decide, Nat.two_pow_pos 31⟩
  have attributes : ∀ a ∈ templateRule.eventTemplate.attributes, SentTemplateAttr a := by
    intro a mem
    rcases List.mem_pair.mp mem with rfl | rfl
    · exact ⟨⟨fun c mem => by rw [List.mem_singleton.mp mem]; decide, by decide⟩, zero, zero⟩
    · exact ⟨⟨fun c mem => (List.not_mem_nil mem).elim, Nat.two_pow_pos 31⟩, zero⟩
  have nil : ∀ {α : Type}, ([] : List α).Perm [] := fun {α} => List.Perm.refl []
  have sent : templateRule.eventTemplate.Sent :=
    ⟨by decide, show 2 < 2 ^ 31 by decide, attributes⟩
  have visits : noOrders.Visits templateRule := ⟨nil, nil, nil, nil, nil⟩
  apply (rule_roundTrips_iff visits sent (by decide)).mpr
  have readable : Readable templateRule.eventTemplate.attributes :=
    ⟨.inner .int (.leaf .int), fun a mem => List.mem_singleton.mp mem⟩
  exact ⟨rfl, rfl, rfl, rfl, rfl, rfl, readable⟩

/-- Every event of type 1 that becomes one of type 10. -/
def relayRule : RulePkt :=
  { predicates := [⟨1, [], -1, 0, .eachWithin⟩]
    parameters := [], negations := [], aggregates := [], consuming := []
    eventTemplate := ⟨10, [], []⟩ }

/-- The rule that is returned has no predicate. -/
theorem relayRule_not_roundTrips : ¬ relayRule.RoundTrips ⟨[0], [], [], [], []⟩ := by
  intro roundTrips
  have empty := (roundTrips.bare (by decide)).1.1
  cases empty

end TRex.Java
