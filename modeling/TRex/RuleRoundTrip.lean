import TRex.Lib.Appending
import TRex.RuleBuilding
import TRex.RuleMarshaller

/-!
# Rules through the marshaller and back

The server writes a rule in one format and reads it in another: behind a template the decoder looks
for static attributes, in a leaf for the kind of the reference, among the parameters for complex
ones. Counting bytes decides what becomes of a rule. What the decoder takes for a rule is at least
`readSize`; what is written for the same rule is less (`written_lt_readSize`).
-/

namespace TRex

open Wire

/-! ## The same rule -/

def OpValueReference.settled : OpValueReference → OpValueReference
  | .rulePkt index type name => .rulePkt index type name
  | .static value => .static (value.stored 0)

def OpTree.settled : OpTree → OpTree
  | .leaf ref valType => .leaf ref.settled valType
  | .inner left right op valType => .inner left.settled right.settled op valType

def Predicate.settled (p : Predicate) : Predicate :=
  { p with constraints := p.constraints.map Constraint.settled }

def CPUParameter.settled (p : CPUParameter) : CPUParameter :=
  { p with leftTree := p.leftTree.settled, rightTree := p.rightTree.settled }

/-- The lower time counts only where there is no lower state. -/
def Negation.settled (n : Negation) : Negation :=
  { n with
    constraints := n.constraints.map Constraint.settled
    lowerTime := if n.lowerId < 0 then n.lowerTime else 0 }

def Aggregate.settled (a : Aggregate) : Aggregate :=
  { a with
    constraints := a.constraints.map Constraint.settled
    lowerTime := if a.lowerId < 0 then a.lowerTime else 0 }

def CompositeEventTemplate.settled (t : CompositeEventTemplate) : CompositeEventTemplate :=
  { t with
    attributes := t.attributes.map fun a => (a.1, a.2.settled)
    staticAttributes := t.staticAttributes.map (Attribute.stored 0) }

/-- The rules have the same elements, in the same order; the consuming sets are lists without
repetitions. -/
structure RulePkt.Same (pkt pkt' : RulePkt) : Prop where
  predicates : pkt.predicates.map Predicate.settled = pkt'.predicates.map Predicate.settled
  parameters : pkt.parameters = pkt'.parameters
  complexParameters : pkt.complexParameters.map CPUParameter.settled =
    pkt'.complexParameters.map CPUParameter.settled
  aggregates : pkt.aggregates.map Aggregate.settled = pkt'.aggregates.map Aggregate.settled
  negations : pkt.negations.map Negation.settled = pkt'.negations.map Negation.settled
  template : pkt.ceTemplate.map CompositeEventTemplate.settled =
    pkt'.ceTemplate.map CompositeEventTemplate.settled
  consuming : pkt.consuming.Perm pkt'.consuming

/-- From the body that is written the decoder reads the same rule, without the bytes behind it. -/
def RulePkt.RoundTrips (pkt : RulePkt) (now pad lastId : Nat) (junk : Constraint) : Prop :=
  ∃ body, Marshaller.encodeRuleBody pkt = some body ∧ ∃ beyond pkt' rest,
    Unmarshaller.decodeRulePkt now pad lastId junk (body ++ beyond) = some (pkt', rest) ∧
      beyond.length ≤ rest.length ∧ pkt.Same pkt'

/-! ## What reading takes -/

namespace Unmarshaller

open Marshaller

def readSizeReference : OpValueReference → Nat
  | .rulePkt _ _ name => 1 + 4 + 1 + getNumBytesString (name.getD [])
  | .static value => 1 + 1 + getNumBytesValue value

def readSizeOpTree : OpTree → Nat
  | .leaf ref _ => 1 + 1 + readSizeReference ref
  | .inner left right _ _ => 1 + 1 + readSizeOpTree left + readSizeOpTree right + 1

def readSizeTemplate (t : CompositeEventTemplate) : Nat :=
  4 + (4 + (t.attributes.map fun a => getNumBytesString a.1 + readSizeOpTree a.2).sum) +
    (4 + (t.staticAttributes.map getNumBytesAttribute).sum)

/-- What the elements of a rule take; the parameters are not counted. -/
def readSizeElements (pkt : RulePkt) : Nat :=
  (pkt.predicates.map fun p => 4 + getNumBytesPredicate p).sum +
    (pkt.aggregates.map fun a => 4 + getNumBytesAggregate a).sum +
    (pkt.negations.map fun n => 4 + getNumBytesNegation n).sum + 4 * pkt.consuming.length

/-- Five numbers of elements, the elements and the template. -/
def readSize (pkt : RulePkt) : Nat :=
  4 + 4 + 4 + 4 + 4 + readSizeElements pkt + (pkt.ceTemplate.map readSizeTemplate).getD 0

section Costs

variable {pad : Nat} {junk : Constraint}

theorem costs_int : Costs decodeInt 0 fun _ => 4 := (Costs.word 4).fixed _

theorem costs_float : Costs decodeFloat 0 fun _ => 4 := (Costs.word 4).fixed _

theorem costs_long : Costs decodeLong 0 fun _ => 8 := (Costs.word 8).fixed _

theorem costs_boolean : Costs decodeBoolean 0 fun _ => 1 := Costs.byte.fixed _

theorem costs_valType : Costs decodeValType 0 fun _ => 1 := Costs.byte.fixed _

theorem costs_constraintOp : Costs decodeConstraintOp 0 fun _ => 1 := Costs.byte.fixed _

theorem costs_compKind : Costs decodeCompKind 0 fun _ => 1 := Costs.byte.fixed _

theorem costs_stateType : Costs decodeStateType 0 fun _ => 1 := Costs.byte.fixed _

theorem costs_aggregateFun : Costs decodeAggregateFun 0 fun _ => 1 := Costs.byte.fixed _

theorem costs_opTreeOperation : Costs decodeOpTreeOperation 0 fun _ => 1 := Costs.byte.fixed _

theorem costs_string : Costs decodeString 0 getNumBytesString := by
  refine costs_int.bind fun length => Costs.require fun _ => ?_
  refine (Costs.take _).bind fun bytes => Costs.pure ?_
  have cut : (CString.cut (bytes.map decodeChar)).length ≤ (bytes.map decodeChar).length :=
    (List.takeWhile_prefix _).length_le
  rw [List.length_map] at cut
  unfold getNumBytesString
  omega

theorem costs_stringInto (limit : Nat) : Costs (decodeStringInto limit) 0 getNumBytesString :=
  costs_string.bind fun _ => Costs.require fun _ => Costs.pure (Nat.zero_add _).ge

theorem costs_constraint : Costs (decodeConstraint junk) 0 getNumBytesConstraint := by
  refine (costs_stringInto nameLen).bind fun name => costs_constraintOp.bind fun op =>
    costs_valType.bind fun type => ?_
  cases type with
  | int => exact costs_int.bind fun v => Costs.pure (by rw [Nat.zero_add]; exact le_rfl)
  | float => exact costs_float.bind fun v => Costs.pure (by rw [Nat.zero_add]; exact le_rfl)
  | bool => exact costs_boolean.bind fun v => Costs.pure (by rw [Nat.zero_add]; exact le_rfl)
  | string =>
      exact (costs_stringInto stringValLen).bind fun v =>
        Costs.pure (by rw [Nat.zero_add]; exact le_rfl)

theorem getNumBytesArray_eq {α : Type} (size : α → Nat) (source : List α) :
    getNumBytesArray size source = 4 + (source.map size).sum :=
  Java.Marshaller.foldl_add_eq size source 4

theorem costs_constraints :
    Costs (decodeConstraints junk) 0 (getNumBytesArray getNumBytesConstraint) :=
  costs_int.bind fun num => Costs.require fun _ =>
    ((costs_constraint.times num.toNat).after 4).mono fun cs => (getNumBytesArray_eq _ cs).le

theorem costs_predicate : Costs (decodeEventPredicate junk) 0 getNumBytesPredicate :=
  costs_int.bind fun _ => costs_constraints.bind fun _ => costs_int.bind fun _ =>
    costs_long.bind fun _ => costs_compKind.bind fun _ => Costs.pure (by
      rw [Nat.zero_add]
      exact le_rfl)

theorem costs_negation : Costs (decodeNegation junk) 0 getNumBytesNegation :=
  costs_int.bind fun _ => costs_constraints.bind fun _ => costs_int.bind fun _ =>
    costs_long.bind fun _ => costs_int.bind fun _ => Costs.pure (by
      rw [Nat.zero_add]
      exact le_rfl)

theorem costs_aggregate : Costs (decodeAggregate junk) 0 getNumBytesAggregate :=
  costs_int.bind fun _ => costs_constraints.bind fun _ => costs_int.bind fun _ =>
    costs_long.bind fun _ => costs_int.bind fun _ => costs_aggregateFun.bind fun _ =>
    (costs_stringInto nameLen).bind fun _ => Costs.pure (by
      rw [Nat.zero_add]
      exact le_rfl)

theorem costs_staticReference : Costs (decodeStaticValueReference pad) 0 fun ref =>
    readSizeReference ref - 1 := by
  refine costs_valType.bind fun type => ?_
  cases type with
  | int => exact costs_int.bind fun v => Costs.pure le_rfl
  | float => exact costs_float.bind fun v => Costs.pure le_rfl
  | bool => exact costs_boolean.bind fun v => Costs.pure le_rfl
  | string =>
      refine (costs_stringInto stringValLen).bind fun v => Costs.pure ?_
      simp only [readSizeReference, getNumBytesValue]
      omega

theorem costs_rulePktReference : Costs decodeRulePktReference 0 fun ref =>
    readSizeReference ref - 1 := by
  refine costs_int.bind fun idx => costs_stateType.bind fun type => costs_string.bind fun name => ?_
  split
  · refine Costs.pure ?_
    simp only [readSizeReference, getNumBytesString, Option.getD_none, List.length_nil]
    omega
  · refine Costs.pure ?_
    simp only [readSizeReference, Option.getD_some]
    omega

theorem costs_reference : Costs (decodeValueReference pad) 0 readSizeReference := by
  have rest : ∀ ref, readSizeReference ref ≤ 1 + (readSizeReference ref - 1) := fun ref => by omega
  refine Costs.byte.bind fun kind => ?_
  split
  · exact (costs_rulePktReference.after 1).mono rest
  · exact (costs_staticReference.after 1).mono rest

theorem costs_opTreeWithin (fuel : Nat) : Costs (decodeOpTreeWithin pad fuel) 0 readSizeOpTree := by
  induction fuel with
  | zero => exact Costs.fail
  | succ fuel ih =>
      refine Costs.byte.bind fun type => costs_valType.bind fun valType => ?_
      split
      · exact costs_reference.bind fun ref => Costs.pure le_rfl
      · refine ih.bind fun left => ih.bind fun right => costs_opTreeOperation.bind fun op =>
          Costs.pure ?_
        rw [readSizeOpTree, Nat.zero_add]

theorem costs_opTree : Costs (decodeOpTree pad) 0 readSizeOpTree := fun input =>
  costs_opTreeWithin input.length input

theorem costs_parameter : Costs (decodeParameter pad) 0 fun _ => 0 := by
  refine costs_constraintOp.bind fun _ => costs_stateType.bind fun _ => costs_valType.bind fun _ =>
    costs_opTree.bind fun _ => costs_opTree.bind fun _ => Costs.pure (Nat.zero_le _)

theorem costs_value (type : ValType) : Costs (decodeValue pad type) 0 getNumBytesValue := by
  cases type with
  | int => exact costs_int.bind fun v => Costs.pure le_rfl
  | float => exact costs_float.bind fun v => Costs.pure le_rfl
  | bool => exact costs_boolean.bind fun v => Costs.pure le_rfl
  | string =>
      exact costs_string.bind fun v => Costs.require fun _ => Costs.pure (Nat.zero_add _).ge

theorem costs_attribute : Costs (decodeAttribute pad) 0 getNumBytesAttribute :=
  costs_string.bind fun _ => Costs.require fun _ => costs_valType.bind fun _ =>
    (costs_value _).bind fun _ => Costs.pure (by
      rw [Nat.zero_add]
      exact le_rfl)

theorem costs_template : Costs (decodeEventTemplate pad) 0 readSizeTemplate := by
  have attr : Costs (decodeTemplateAttr pad) 0 fun a =>
      getNumBytesString a.1 + readSizeOpTree a.2 :=
    costs_string.bind fun _ => costs_opTree.bind fun _ => Costs.pure (by
      rw [Nat.zero_add])
  refine costs_int.bind fun eventType => costs_int.bind fun attrNum =>
    (attr.times _).bind fun attributes => costs_int.bind fun staticAttrNum =>
    (costs_attribute.times _).bind fun staticAttributes => Costs.pure ?_
  simp only [readSizeTemplate]
  omega

/-- Of two entries with the same key the map keeps one. -/
theorem sum_insert_le {K V : Type} (lt : K → K → Bool) (size : K × V → Nat) (k : K) (v : V)
    (m : List (K × V)) :
    ((OrdMap.insert lt k v m).map size).sum ≤ size (k, v) + (m.map size).sum := by
  induction m with
  | nil => exact le_rfl
  | cons e rest ih =>
      unfold OrdMap.insert
      split
      · exact le_rfl
      · split
        · rw [List.map_cons, List.sum_cons, List.map_cons, List.sum_cons]
          omega
        · exact Nat.le_add_left _ _

/-- A loop that adds at most the size of an element at each step. -/
theorem foldl_le {α σ : Type} {f : σ → α → σ} {weight : σ → Nat} {size : α → Nat}
    (one : ∀ s a, weight (f s a) ≤ weight s + size a) (as : List α) (s : σ) :
    weight (as.foldl f s) ≤ weight s + (as.map size).sum := by
  induction as generalizing s with
  | nil => exact le_rfl
  | cons a rest ih =>
      have first := one s a
      have later := ih (f s a)
      rw [List.foldl_cons, List.map_cons, List.sum_cons]
      omega

theorem costs_map {α : Type} {d : Decoder α} {size : α → Nat} (each : Costs d 0 size) :
    Costs (decodeMap d) 0 fun m => 4 + (m.map fun e => 4 + size e.2).sum := by
  have entry : Costs (do let key ← decodeInt; let value ← d; return (key, value)) 0
      fun e => 4 + size e.2 :=
    costs_int.bind fun _ => each.bind fun _ => Costs.pure (by rw [Nat.zero_add])
  refine costs_int.bind fun num => (entry.times num.toNat).bind fun entries => Costs.pure ?_
  let total : List (Int × α) → Nat := fun m => (m.map fun e => 4 + size e.2).sum
  have one : ∀ (m : List (Int × α)) (e : Int × α),
      total (OrdMap.insert (fun a b => decide (a < b)) e.1 e.2 m) ≤ total m + (4 + size e.2) :=
    fun m e => (sum_insert_le _ (fun e => 4 + size e.2) e.1 e.2 m).trans (Nat.add_comm _ _).le
  have inserted := foldl_le one entries []
  simp only [total, List.map_nil, List.sum_nil] at inserted
  omega

theorem length_insert_le (e : Int) (s : List Int) : (OrdSet.insert e s).length ≤ s.length + 1 := by
  induction s with
  | nil => exact le_rfl
  | cons a rest ih =>
      unfold OrdSet.insert
      split
      · exact le_rfl
      · split
        · exact Nat.succ_le_succ ih
        · exact Nat.le_succ _

theorem costs_intSet : Costs decodeIntSet 0 fun s => 4 + 4 * s.length := by
  refine costs_int.bind fun num => (costs_int.times num.toNat).bind fun elements => Costs.pure ?_
  have one : ∀ (s : List Int) (e : Int), (OrdSet.insert e s).length ≤ s.length + 1 :=
    fun s e => length_insert_le e s
  have inserted := foldl_le one elements []
  rw [List.map_const', List.sum_replicate, smul_eq_mul]
  rw [List.map_const', List.sum_replicate, smul_eq_mul, List.length_nil] at inserted
  omega

/-! What a builder call adds was read, and what it refuses costs all the same. -/

theorem readSizeElements_predicate (pkt : RulePkt) (it : Int × Predicate) :
    readSizeElements (addPredicate pkt it) ≤
      readSizeElements pkt + (4 + getNumBytesPredicate it.2) := by
  have same : getNumBytesPredicate (placedPredicate it) = getNumBytesPredicate it.2 := by
    unfold placedPredicate
    split <;> rfl
  rw [addPredicate_spec]
  split
  · simp only [readSizeElements, List.map_append, List.sum_append, List.map_cons, List.map_nil,
      List.sum_singleton, same]
    omega
  · exact Nat.le_add_right _ _

theorem readSizeElements_aggregate (now : Nat) (pkt : RulePkt) (it : Int × Aggregate) :
    readSizeElements (addAggregate now pkt it) ≤
      readSizeElements pkt + (4 + getNumBytesAggregate it.2) := by
  have same : getNumBytesAggregate (placedAggregate now it.2) = getNumBytesAggregate it.2 := rfl
  rw [addAggregate_spec]
  split
  · simp only [readSizeElements, List.map_append, List.sum_append, List.map_cons, List.map_nil,
      List.sum_singleton, same]
    omega
  · exact Nat.le_add_right _ _

theorem readSizeElements_negation (now : Nat) (pkt : RulePkt) (it : Int × Negation) :
    readSizeElements (addNegation now pkt it) ≤
      readSizeElements pkt + (4 + getNumBytesNegation it.2) := by
  have same : getNumBytesNegation (placedNegation now it.2) = getNumBytesNegation it.2 := rfl
  rw [addNegation_spec]
  split
  · simp only [readSizeElements, List.map_append, List.sum_append, List.map_cons, List.map_nil,
      List.sum_singleton, same]
    omega
  · exact Nat.le_add_right _ _

theorem readSizeElements_parameter (pkt : RulePkt) (it : Int × ComplexParameter) :
    readSizeElements (addParameter pkt it) ≤ readSizeElements pkt + 0 := by
  rw [addParameter_spec]
  split <;> exact le_rfl

theorem readSizeElements_consuming (pkt : RulePkt) (consum : Int) :
    readSizeElements (addConsuming pkt consum) ≤ readSizeElements pkt + 4 := by
  have length : (pkt.consuming.insert consum.toNat).length ≤ pkt.consuming.length + 1 := by
    rw [List.length_insert]
    split <;> omega
  rw [addConsuming_spec]
  split
  · simp only [readSizeElements]
    omega
  · exact Nat.le_add_right _ _

theorem ceTemplate_build (now lastId : Nat) (predicates : List (Int × Predicate))
    (parameters : List (Int × ComplexParameter)) (aggregates : List (Int × Aggregate))
    (negations : List (Int × Negation)) (template : CompositeEventTemplate) (consuming : List Int) :
    (buildRulePkt now lastId predicates parameters aggregates negations template
      consuming).ceTemplate = some template := by
  have one : ∀ (pkt : RulePkt) (i : Int), (addConsuming pkt i).ceTemplate = pkt.ceTemplate := by
    intro pkt i
    rw [addConsuming_spec]
    split <;> rfl
  exact Appending.foldl_keeps RulePkt.ceTemplate one consuming _

/-- No loop adds a parameter between two attributes. -/
theorem parameters_build (now lastId : Nat) (predicates : List (Int × Predicate))
    (parameters : List (Int × ComplexParameter)) (aggregates : List (Int × Aggregate))
    (negations : List (Int × Negation)) (template : CompositeEventTemplate) (consuming : List Int) :
    (buildRulePkt now lastId predicates parameters aggregates negations template
      consuming).parameters = [] := by
  have consumes : ∀ (pkt : RulePkt) (i : Int), (addConsuming pkt i).parameters =
      pkt.parameters := by
    intro pkt i
    rw [addConsuming_spec]
    split <;> rfl
  have compares : ∀ (pkt : RulePkt) (it : Int × ComplexParameter),
      (addParameter pkt it).parameters = pkt.parameters := by
    intro pkt it
    rw [addParameter_spec]
    split <;> rfl
  have negates : ∀ (pkt : RulePkt) (it : Int × Negation),
      (addNegation now pkt it).parameters = pkt.parameters := by
    intro pkt it
    rw [addNegation_spec]
    split <;> rfl
  have aggregated : ∀ (pkt : RulePkt) (it : Int × Aggregate),
      (addAggregate now pkt it).parameters = pkt.parameters := by
    intro pkt it
    rw [addAggregate_spec]
    split <;> rfl
  have predicated : ∀ (pkt : RulePkt) (it : Int × Predicate),
      (addPredicate pkt it).parameters = pkt.parameters := by
    intro pkt it
    rw [addPredicate_spec]
    split <;> rfl
  refine (Appending.foldl_keeps RulePkt.parameters consumes consuming _).trans ?_
  refine (Appending.foldl_keeps RulePkt.parameters compares parameters _).trans ?_
  refine (Appending.foldl_keeps RulePkt.parameters negates negations _).trans ?_
  refine (Appending.foldl_keeps RulePkt.parameters aggregated aggregates _).trans ?_
  exact Appending.foldl_keeps RulePkt.parameters predicated predicates _

theorem readSizeElements_build (now lastId : Nat) (predicates : List (Int × Predicate))
    (parameters : List (Int × ComplexParameter)) (aggregates : List (Int × Aggregate))
    (negations : List (Int × Negation)) (template : CompositeEventTemplate) (consuming : List Int) :
    readSizeElements
        (buildRulePkt now lastId predicates parameters aggregates negations template consuming) ≤
      (predicates.map fun it => 4 + getNumBytesPredicate it.2).sum +
        (aggregates.map fun it => 4 + getNumBytesAggregate it.2).sum +
        (negations.map fun it => 4 + getNumBytesNegation it.2).sum + 4 * consuming.length := by
  have templated : ∀ pkt : RulePkt,
      readSizeElements (pkt.setCompositeEventTemplate template) = readSizeElements pkt :=
    fun _ => rfl
  have empty : readSizeElements (RulePkt.new false lastId).1 = 0 := rfl
  refine (foldl_le readSizeElements_consuming consuming _).trans ?_
  rw [templated, List.map_const', List.sum_replicate, smul_eq_mul, Nat.mul_comm]
  refine Nat.add_le_add_right ?_ _
  refine (foldl_le readSizeElements_parameter parameters _).trans ?_
  rw [List.map_const', List.sum_replicate, smul_zero, Nat.add_zero]
  refine (foldl_le (readSizeElements_negation now) negations _).trans (Nat.add_le_add_right ?_ _)
  refine (foldl_le (readSizeElements_aggregate now) aggregates _).trans (Nat.add_le_add_right ?_ _)
  refine (foldl_le readSizeElements_predicate predicates _).trans ?_
  rw [empty, Nat.zero_add]

theorem costs_rulePkt (now lastId : Nat) :
    Costs (decodeRulePkt now pad lastId junk) 0 readSize := by
  refine (costs_map costs_predicate).bind fun predicates =>
    (costs_map costs_parameter).bind fun parameters =>
    (costs_map costs_aggregate).bind fun aggregates =>
    (costs_map costs_negation).bind fun negations =>
    costs_template.bind fun template => costs_intSet.bind fun consuming => Costs.pure ?_
  have elements := readSizeElements_build now lastId predicates parameters aggregates negations
    template consuming
  have kept : (buildRulePkt now lastId predicates parameters aggregates negations template
      consuming).ceTemplate = some template := ceTemplate_build _ _ _ _ _ _ _ _
  rw [readSize, kept, Option.map_some, Option.getD_some]
  omega

/-- The packet that is decoded has only complex parameters. -/
theorem parameters_decodeRulePkt {now lastId : Nat} {input rest : Bytes} {pkt : RulePkt}
    (decoded : decodeRulePkt now pad lastId junk input = some (pkt, rest)) :
    pkt.parameters = [] := by
  obtain ⟨predicates, _, -, decoded⟩ := bind_eq_some.mp decoded
  obtain ⟨parameters, _, -, decoded⟩ := bind_eq_some.mp decoded
  obtain ⟨aggregates, _, -, decoded⟩ := bind_eq_some.mp decoded
  obtain ⟨negations, _, -, decoded⟩ := bind_eq_some.mp decoded
  obtain ⟨template, _, -, decoded⟩ := bind_eq_some.mp decoded
  obtain ⟨consuming, _, -, decoded⟩ := bind_eq_some.mp decoded
  cases decoded
  exact parameters_build _ _ _ _ _ _ _ _

end Costs

/-! ## What is written -/

theorem getNumBytesOpTree_le {tree : OpTree} {n : Nat} (sized : getNumBytesOpTree tree = some n) :
    n ≤ readSizeOpTree tree := by
  induction tree generalizing n with
  | leaf ref valType =>
      cases ref with
      | static value => cases sized
      | rulePkt index type name =>
          cases sized
          cases name with
          | none => exact le_rfl
          | some name =>
              simp only [readSizeOpTree, readSizeReference, writtenName, Option.getD_some]
              omega
  | inner left right op valType ihLeft ihRight =>
      rw [getNumBytesOpTree] at sized
      obtain ⟨l, sizedLeft, sized⟩ := Option.bind_eq_some_iff.mp sized
      obtain ⟨r, sizedRight, sized⟩ := Option.bind_eq_some_iff.mp sized
      cases sized
      have := ihLeft sizedLeft
      have := ihRight sizedRight
      rw [readSizeOpTree]
      omega

theorem getNumBytesTemplateAttrs_le {attributes : List (CString × OpTree)} {sizes : List Nat}
    (sized : attributes.mapM getNumBytesTemplateAttr = some sizes) :
    sizes.sum ≤ (attributes.map fun a => getNumBytesString a.1 + readSizeOpTree a.2).sum := by
  induction attributes generalizing sizes with
  | nil =>
      cases sized
      exact le_rfl
  | cons a rest ih =>
      rw [List.mapM_cons] at sized
      obtain ⟨first, sizedFirst, sized⟩ := Option.bind_eq_some_iff.mp sized
      obtain ⟨later, sizedLater, sized⟩ := Option.bind_eq_some_iff.mp sized
      cases sized
      obtain ⟨tree, sizedTree, whole⟩ := Option.bind_eq_some_iff.mp sizedFirst
      cases whole
      have := getNumBytesOpTree_le sizedTree
      have := ih sizedLater
      rw [List.sum_cons, List.map_cons, List.sum_cons]
      omega

/-- The number of static attributes is missing. -/
theorem getNumBytesTemplate_lt {t : CompositeEventTemplate} {n : Nat}
    (sized : getNumBytesTemplate t = some n) : n < readSizeTemplate t := by
  obtain ⟨sizes, sizedAttributes, whole⟩ := Option.bind_eq_some_iff.mp sized
  have attributes := getNumBytesTemplateAttrs_le sizedAttributes
  have total := Java.Marshaller.foldl_add_eq id sizes (4 + 4)
  rw [List.map_id] at total
  rw [← Option.some.inj whole]
  change sizes.foldl (fun size bytes => size + id bytes) (4 + 4) < _
  rw [total, readSizeTemplate]
  omega

theorem getNumBytesIndexed_eq {α : Type} (size : α → Nat) (source : List α) :
    getNumBytesIndexed size source = 4 + (source.map fun el => 4 + size el).sum :=
  Java.Marshaller.foldl_add_eq (fun el => 4 + size el) source 4

/-- A rule without parameters between attributes is written with fewer bytes than it is read
with. -/
theorem written_lt_readSize {pkt : RulePkt} {body : Bytes}
    (written : encodeRuleBody pkt = some body) (none : pkt.parameters = []) :
    body.length < readSize pkt := by
  have sized : getNumBytesRule pkt = some body.length := by
    rw [← length_encodeRuleBody, written]
    rfl
  obtain ⟨template, isTemplate, sized⟩ := Option.bind_eq_some_iff.mp sized
  obtain ⟨n, sizedTemplate, sized⟩ := Option.bind_eq_some_iff.mp sized
  have less := getNumBytesTemplate_lt sizedTemplate
  have consuming : getNumBytesArray (fun _ => 4) pkt.consuming = 4 + 4 * pkt.consuming.length := by
    rw [getNumBytesArray_eq, List.map_const', List.sum_replicate, smul_eq_mul, Nat.mul_comm]
  rw [← Option.some.inj sized, consuming, none]
  simp only [getNumBytesIndexed_eq, List.map_nil, List.sum_nil]
  rw [readSize, readSizeElements, isTemplate, Option.map_some, Option.getD_some]
  omega

/-! ## The same size -/

theorem getNumBytesConstraint_settled (c : Constraint) :
    getNumBytesConstraint c.settled = getNumBytesConstraint c := by
  unfold getNumBytesConstraint constraintValue Constraint.settled
  cases c.type <;> rfl

theorem getNumBytesConstraints_settled (cs : List Constraint) :
    getNumBytesArray getNumBytesConstraint (cs.map Constraint.settled) =
      getNumBytesArray getNumBytesConstraint cs := by
  rw [getNumBytesArray_eq, getNumBytesArray_eq, List.map_map]
  congr 3
  funext c
  exact getNumBytesConstraint_settled c

theorem readSizeOpTree_settled (tree : OpTree) :
    readSizeOpTree tree.settled = readSizeOpTree tree := by
  induction tree with
  | leaf ref valType =>
      cases ref with
      | rulePkt index type name => rfl
      | static value => cases value <;> rfl
  | inner left right op valType ihLeft ihRight =>
      rw [OpTree.settled, readSizeOpTree, readSizeOpTree, ihLeft, ihRight]

theorem readSizeTemplate_settled (t : CompositeEventTemplate) :
    readSizeTemplate t.settled = readSizeTemplate t := by
  have values : ∀ a : Attribute, getNumBytesAttribute (a.stored 0) = getNumBytesAttribute a := by
    intro a
    cases a with
    | mk name value => cases value <;> rfl
  unfold readSizeTemplate CompositeEventTemplate.settled
  simp only [List.map_map, Function.comp_def, readSizeOpTree_settled, values]

/-- Elements that are the same once they are settled have the same sizes. -/
theorem map_size_eq {α : Type} {settled : α → α} {size : α → Nat} {xs ys : List α}
    (keeps : ∀ x, size (settled x) = size x) (same : xs.map settled = ys.map settled) :
    xs.map size = ys.map size := by
  have sizes := congrArg (List.map size) same
  simpa only [List.map_map, Function.comp_def, keeps] using sizes

theorem readSize_same {pkt pkt' : RulePkt} (same : pkt.Same pkt') :
    readSize pkt = readSize pkt' := by
  have predicates : ∀ p : Predicate, 4 + getNumBytesPredicate p.settled =
      4 + getNumBytesPredicate p := by
    intro p
    rw [getNumBytesPredicate, getNumBytesPredicate, Predicate.settled,
      getNumBytesConstraints_settled]
  have aggregates : ∀ a : Aggregate, 4 + getNumBytesAggregate a.settled =
      4 + getNumBytesAggregate a := by
    intro a
    rw [getNumBytesAggregate, getNumBytesAggregate, Aggregate.settled,
      getNumBytesConstraints_settled]
  have negations : ∀ n : Negation, 4 + getNumBytesNegation n.settled =
      4 + getNumBytesNegation n := by
    intro n
    rw [getNumBytesNegation, getNumBytesNegation, Negation.settled,
      getNumBytesConstraints_settled]
  have templates := congrArg (Option.map readSizeTemplate) same.template
  simp only [Option.map_map, Function.comp_def, readSizeTemplate_settled] at templates
  unfold readSize readSizeElements
  rw [map_size_eq predicates same.predicates, map_size_eq aggregates same.aggregates,
    map_size_eq negations same.negations, same.consuming.length_eq, templates]

/-- If the decoder reads the same rule from the body, it has read beyond its end. -/
theorem reads_beyond {pkt pkt' : RulePkt} {body beyond rest : Bytes} {now pad lastId : Nat}
    {junk : Constraint} (written : encodeRuleBody pkt = some body)
    (decoded : decodeRulePkt now pad lastId junk (body ++ beyond) = some (pkt', rest))
    (same : pkt.Same pkt') : rest.length < beyond.length := by
  have taken := costs_rulePkt now lastId _ _ _ decoded
  have less := written_lt_readSize written
    (same.parameters.trans (parameters_decodeRulePkt decoded))
  rw [readSize_same same] at less
  rw [List.length_append] at taken
  omega

end Unmarshaller

/-- No rule that is written is read as the same rule. -/
theorem rule_never_roundTrips (pkt : RulePkt) (now pad lastId : Nat) (junk : Constraint) :
    ¬ pkt.RoundTrips now pad lastId junk := by
  intro roundTrips
  obtain ⟨body, written, beyond, pkt', rest, decoded, left, same⟩ := roundTrips
  exact absurd (Unmarshaller.reads_beyond written decoded same) (Nat.not_lt.mpr left)

/-- Smoke alone: no parameter, no constant and no name. -/
def smokeRule : RulePkt :=
  { ruleId := 0
    predicates := [
      { eventType := 1, constraints := [], refersTo := -1, win := 0, kind := .eachWithin }]
    parameters := [], negations := [], aggregates := [], consuming := []
    complexParameters := []
    ceTemplate := some ⟨4, [], []⟩ }

/-- The decoder takes the number of consuming indexes for that of the static attributes. -/
theorem smokeRule_not_roundTrips :
    smokeRule.Built ∧
      (do Unmarshaller.decodeRulePkt 5 0 0 Java.hot (← Marshaller.encodeRuleBody smokeRule)) =
        none ∧
      ¬ smokeRule.RoundTrips 5 0 0 Java.hot := by
  refine ⟨?_, by decide +kernel, fun roundTrips => ?_⟩
  · exact .call (.setCompositeEventTemplate ⟨4, [], []⟩)
      (.call (.addRootPredicate 1 []) (.new true 0) rfl) rfl
  · obtain ⟨body, written, beyond, pkt', rest, decoded, left, same⟩ := roundTrips
    exact absurd (Unmarshaller.reads_beyond written decoded same) (Nat.not_lt.mpr left)

end TRex
