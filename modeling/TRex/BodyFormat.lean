import Mathlib.Order.CompletePartialOrder
import TRex.ServerPackets

/-!
# The format of the records

What the decoders of the server accept, as languages of byte strings: one for each record, and
beside it the language of the beginnings on which the decoder reports an error. Numbers and
enumerations are any bytes; only counts, lengths and type tags say what follows. The section at the
end says of each decoder that it follows its languages. `PacketFormat` puts the bodies of the
packets together. -/

namespace TRex

open Wire

namespace Format

/-! ## Strings -/

/-- Four bytes as a signed number. -/
def signed (w : Bytes) : Int := wrap32 (ofBigEndian w)

/-- A length and as many bytes. -/
def string : Language UInt8 :=
  andThen (bytes 4) fun length => {w | (w.length : Int) = signed length}

/-- The C string that the bytes hold. -/
def spelledString (w : Bytes) : CString := CString.cut ((w.drop 4).map Unmarshaller.decodeChar)

/-- A string that fits into an array of one more than `limit` characters. -/
def stringUpTo (limit : Nat) : Language UInt8 :=
  restrict string fun w => (spelledString w).length ≤ limit

def stringBelow (bound : Nat) : Language UInt8 :=
  restrict string fun w => (spelledString w).length < bound

/-- A length for which no array can be allocated; for -1 there is one. -/
def negativeLength : Language UInt8 := restrict (bytes 4) fun w => signed w < -1

/-- A string that fails the assertion on its length. -/
def stringNotBelow (bound : Nat) : Language UInt8 :=
  negativeLength + restrict string fun w => ¬ (spelledString w).length < bound

/-! ## Counts and tags -/

/-- A number of elements and the elements; a negative number of them is none. -/
def counted (element : Language UInt8) : Language UInt8 :=
  andThen (bytes 4) fun num => element ^ (signed num).toNat

def countedReport (element report : Language UInt8) : Language UInt8 :=
  andThen (bytes 4) fun num => interrupted (signed num).toNat element report

/-- The number of elements of an array is not negative. -/
def countedArray (element : Language UInt8) : Language UInt8 :=
  andThen (bytes 4) fun num => if 0 ≤ signed num then element ^ (signed num).toNat else 0

/-- The array is allocated by `new`. -/
def newArrayReport (element report : Language UInt8) : Language UInt8 :=
  andThen (bytes 4) fun num =>
    if 0 ≤ signed num then interrupted (signed num).toNat element report else 1

def tag (w : Bytes) : UInt8 := w.headD 0

/-- The values of the four types: everything but 0, 1 and 2 is the tag of a string. -/
def valueOf (string : Language UInt8) (type : UInt8) : Language UInt8 :=
  if type = 0 then bytes 4 else if type = 1 then bytes 4 else if type = 2 then bytes 1 else string

def reportOf (string : Language UInt8) (type : UInt8) : Language UInt8 :=
  if type = 0 then 0 else if type = 1 then 0 else if type = 2 then 0 else string

def typed (string : Language UInt8) : Language UInt8 :=
  andThen (bytes 1) fun type => valueOf string (tag type)

def typedReport (string : Language UInt8) : Language UInt8 :=
  andThen (bytes 1) fun type => reportOf string (tag type)

/-! ## Records -/

/-- Name, type and value. -/
def attr : Language UInt8 := stringBelow nameLen * typed (stringBelow stringValLen)

def attrReport : Language UInt8 :=
  stringNotBelow nameLen + stringBelow nameLen * typedReport (stringNotBelow stringValLen)

/-- Name, operator, type and value. -/
def constraint : Language UInt8 :=
  stringUpTo nameLen * (bytes 1 * typed (stringUpTo stringValLen))

def constraintReport : Language UInt8 :=
  negativeLength + stringUpTo nameLen * (bytes 1 * typedReport negativeLength)

def constraints : Language UInt8 := countedArray constraint

def constraintsReport : Language UInt8 := newArrayReport constraint constraintReport

/-- Event type, constraints, reference, window and kind. -/
def predicate : Language UInt8 :=
  bytes 4 * (constraints * (bytes 4 * (bytes 8 * bytes 1)))

def predicateReport : Language UInt8 := bytes 4 * constraintsReport

/-- Event type, constraints, lower bound as a state and as a time, and upper bound. -/
def negation : Language UInt8 :=
  bytes 4 * (constraints * (bytes 4 * (bytes 8 * bytes 4)))

def negationReport : Language UInt8 := bytes 4 * constraintsReport

/-- The same with function and name. -/
def aggregate : Language UInt8 :=
  bytes 4 * (constraints * (bytes 4 * (bytes 8 * (bytes 4 * (bytes 1 * stringUpTo nameLen)))))

def aggregateReport : Language UInt8 :=
  bytes 4 * (constraintsReport +
    constraints * (bytes 4 * (bytes 8 * (bytes 4 * (bytes 1 * negativeLength)))))

/-- A reference into the rule (index, kind, name) or a value. -/
def reference : Language UInt8 :=
  andThen (bytes 1) fun kind =>
    if tag kind = 0 then bytes 4 * (bytes 1 * string) else typed (stringUpTo stringValLen)

def referenceReport : Language UInt8 :=
  andThen (bytes 1) fun kind =>
    if tag kind = 0 then bytes 4 * (bytes 1 * negativeLength) else typedReport negativeLength

/-- Kind of the node, type, and the parts of a leaf or of an inner node. -/
def node (leaf inner : Language UInt8) : Language UInt8 :=
  andThen (bytes 1) fun kind => bytes 1 * if tag kind = 0 then leaf else inner

/-- Trees of a bounded depth with these leaves: an inner node has two trees and an operator. -/
def treeOf (leaf : Language UInt8) : Nat → Language UInt8
  | 0 => 0
  | depth + 1 => node leaf (treeOf leaf depth * (treeOf leaf depth * bytes 1))

def treeReportWithin : Nat → Language UInt8
  | 0 => 0
  | depth + 1 => node referenceReport
      (treeReportWithin depth + treeOf reference depth * treeReportWithin depth)

def tree : Language UInt8 := ⨆ depth, treeOf reference depth

def treeReport : Language UInt8 := ⨆ depth, treeReportWithin depth

/-- Operator, kind, type and two trees. -/
def parameter : Language UInt8 := bytes 1 * (bytes 1 * (bytes 1 * (tree * tree)))

def parameterReport : Language UInt8 :=
  bytes 1 * (bytes 1 * (bytes 1 * (treeReport + tree * treeReport)))

def templateAttr : Language UInt8 := string * tree

def templateAttrReport : Language UInt8 := negativeLength + string * treeReport

/-- Event type, computed and static attributes. -/
def template : Language UInt8 := bytes 4 * (counted templateAttr * counted attr)

def templateReport : Language UInt8 :=
  bytes 4 * (countedReport templateAttr templateAttrReport +
    counted templateAttr * countedReport attr attrReport)

/-- The entries of a map: key and value. -/
def map (value : Language UInt8) : Language UInt8 := counted (bytes 4 * value)

def mapReport (value report : Language UInt8) : Language UInt8 :=
  countedReport (bytes 4 * value) (bytes 4 * report)

/-! ## The decoders follow the format -/

section Follow

variable {α β : Type} {good bad : Language UInt8}

theorem past_silent : ¬ Stop.Reported .past := id

theorem overflow_silent : ¬ Stop.Reported .overflow := id

theorem primitive_follows {n : Nat} {d : Decoder α} (fixed : Fixed n d) :
    Follows Stop.Reported (WatchedUnmarshaller.primitive d) (bytes n) 0 :=
  Follows.ofDecoder past_silent fixed

theorem fixed_int : Fixed 4 Unmarshaller.decodeInt := (Fixed.word 4).map fun n => wrap32 n

theorem fixed_float : Fixed 4 Unmarshaller.decodeFloat := (Fixed.word 4).map fun n => UInt32.ofNat n

theorem fixed_long : Fixed 8 Unmarshaller.decodeLong :=
  (Fixed.word 8).map fun n => Int.bmod n (2 ^ 64)

theorem fixed_boolean : Fixed 1 Unmarshaller.decodeBoolean := Fixed.byte.map fun b => b == 1

theorem fixed_valType : Fixed 1 Unmarshaller.decodeValType := Fixed.byte.map _

theorem fixed_constraintOp : Fixed 1 Unmarshaller.decodeConstraintOp := Fixed.byte.map _

theorem fixed_compKind : Fixed 1 Unmarshaller.decodeCompKind := Fixed.byte.map _

theorem fixed_stateType : Fixed 1 Unmarshaller.decodeStateType := Fixed.byte.map _

theorem fixed_aggregateFun : Fixed 1 Unmarshaller.decodeAggregateFun := Fixed.byte.map _

theorem fixed_opTreeOperation : Fixed 1 Unmarshaller.decodeOpTreeOperation := Fixed.byte.map _

/-- The number that four bytes are read as. -/
theorem reads_signed {w : Bytes} (length : w ∈ bytes 4) :
    Reads Unmarshaller.decodeInt w (signed w) := by
  have word := (Reads.take w).map ofBigEndian
  rw [show w.length = 4 from length] at word
  exact word.map fun n => wrap32 n

theorem eq_signed {w : Bytes} (length : w ∈ bytes 4) {v : Int}
    (spells : Spells (WatchedUnmarshaller.primitive Unmarshaller.decodeInt) w v) : v = signed w :=
  (spells_ofDecoder (reads_signed length)).unique (spells [])

theorem string_follows :
    Follows Stop.Reported WatchedUnmarshaller.decodeString string negativeLength := by
  have next : ∀ w ∈ bytes 4, ∀ v,
      Spells (WatchedUnmarshaller.primitive Unmarshaller.decodeInt) w v →
      Follows Stop.Reported (if v < -1 then Watched.stop .badArrayNewLength
        else if v = -1 then Watched.stop .overflow
        else do
          return CString.cut ((← Watched.take .past v.toNat).map Unmarshaller.decodeChar))
        {u | (u.length : Int) = signed w} (if signed w < -1 then 1 else 0) := by
    intro w length v spells
    rw [eq_signed length spells]
    by_cases negative : signed w < -1
    · rw [if_pos negative, if_pos negative]
      refine (Follows.stop_reported (show Stop.Reported .badArrayNewLength from trivial)).congr ?_
        rfl
      ext u
      refine ⟨fun mem => absurd mem (Language.notMem_zero u), fun mem => ?_⟩
      have length : (u.length : Int) = signed w := mem
      omega
    rw [if_neg negative, if_neg negative]
    by_cases minusOne : signed w = -1
    · rw [if_pos minusOne]
      refine (Follows.stop overflow_silent).congr ?_ rfl
      ext u
      refine ⟨fun mem => absurd mem (Language.notMem_zero u), fun mem => ?_⟩
      have length : (u.length : Int) = signed w := mem
      omega
    rw [if_neg minusOne]
    refine ((Follows.take past_silent (signed w).toNat).map fun bytes =>
      CString.cut (bytes.map Unmarshaller.decodeChar)).congr ?_ rfl
    ext u
    have same : u.length = (signed w).toNat ↔ (u.length : Int) = signed w := by omega
    exact same
  refine ((primitive_follows fixed_int).bind next).congr rfl ?_
  rw [zero_add, andThen_if]
  rfl

/-- The C string that a string is read as. -/
theorem eq_spelledString {w : Bytes} (isString : w ∈ string) {s : CString}
    (spells : Spells WatchedUnmarshaller.decodeString w s) : s = spelledString w := by
  rcases isString with ⟨n, length, u, counted, rfl⟩
  have count : (u.length : Int) = signed n := counted
  have readText := (Reads.take u).map fun bytes => CString.cut (bytes.map Unmarshaller.decodeChar)
  have reads : Reads Unmarshaller.decodeString (n ++ u) (spelledString (n ++ u)) := by
    rw [spelledString, List.drop_left' length]
    refine (reads_signed length).bind (Reads.require (by omega) ?_)
    rw [← count, Int.toNat_natCast]
    exact readText
  have erased : Unmarshaller.decodeString (n ++ u ++ []) = some (s, []) := by
    rw [← WatchedUnmarshaller.erase_decodeString, Watched.erase, spells []]
    rfl
  rw [reads []] at erased
  exact (congrArg Prod.fst (Option.some.inj erased)).symm

theorem stringUpTo_follows (limit : Nat) :
    Follows Stop.Reported (WatchedUnmarshaller.decodeStringInto limit) (stringUpTo limit)
      negativeLength := by
  refine string_follows.guarded overflow_silent fun w isString s spells => ?_
  rw [eq_spelledString isString spells]

theorem stringBelow_follows (bound : Nat) :
    Follows Stop.Reported (WatchedUnmarshaller.decodeStringBelow bound) (stringBelow bound)
      (stringNotBelow bound) := by
  have isReport : Stop.Reported .assertion := trivial
  refine string_follows.guarded_reported isReport fun w isString s spells => ?_
  rw [eq_spelledString isString spells]

theorem counted_follows {d : Watched Stop α} (follows : Follows Stop.Reported d good bad) :
    Follows Stop.Reported (WatchedUnmarshaller.counted d) (counted good)
      (countedReport good bad) := by
  have next : ∀ w ∈ bytes 4, ∀ v,
      Spells (WatchedUnmarshaller.primitive Unmarshaller.decodeInt) w v →
      Follows Stop.Reported (Watched.times d v.toNat) (good ^ (signed w).toNat)
        (interrupted (signed w).toNat good bad) := by
    intro w length v spells
    rw [eq_signed length spells]
    exact follows.times _
  exact ((primitive_follows fixed_int).bind next).congr rfl (zero_add _)

/-- Elements that report nothing. -/
theorem countedReport_zero (element : Language UInt8) : countedReport element 0 = 0 := by
  ext w
  refine ⟨fun mem => ?_, fun mem => absurd mem (Language.notMem_zero w)⟩
  rcases mem with ⟨num, -, u, ⟨k, -, inElement⟩, -⟩
  rw [mul_zero] at inElement
  exact absurd inElement (Language.notMem_zero u)

/-- An array of the stack: a negative length goes unnoticed. -/
theorem localArray_follows {d : Watched Stop α} (follows : Follows Stop.Reported d good bad) :
    Follows Stop.Reported (WatchedUnmarshaller.countedArray .negativeArray d) (countedArray good)
      (countedReport good bad) := by
  have silent : ¬ Stop.Reported .negativeArray := id
  have next : ∀ w ∈ bytes 4, ∀ v,
      Spells (WatchedUnmarshaller.primitive Unmarshaller.decodeInt) w v →
      Follows Stop.Reported
        (Watched.ensure .negativeArray (0 ≤ v) >>= fun _ => Watched.times d v.toNat)
        (if 0 ≤ signed w then good ^ (signed w).toNat else 0)
        (interrupted (signed w).toNat good bad) := by
    intro w length v spells
    rw [eq_signed length spells]
    refine (Follows.ensure silent (follows.times _)).congr rfl ?_
    by_cases nonneg : 0 ≤ signed w
    · rw [if_pos nonneg]
    · rw [if_neg nonneg, Int.toNat_of_nonpos (by omega), interrupted_zero]
  exact ((primitive_follows fixed_int).bind next).congr rfl (zero_add _)

theorem newArray_follows {d : Watched Stop α} (follows : Follows Stop.Reported d good bad) :
    Follows Stop.Reported (WatchedUnmarshaller.countedArray .badArrayNewLength d)
      (countedArray good) (newArrayReport good bad) := by
  have isReport : Stop.Reported .badArrayNewLength := trivial
  have next : ∀ w ∈ bytes 4, ∀ v,
      Spells (WatchedUnmarshaller.primitive Unmarshaller.decodeInt) w v →
      Follows Stop.Reported
        (Watched.ensure .badArrayNewLength (0 ≤ v) >>= fun _ => Watched.times d v.toNat)
        (if 0 ≤ signed w then good ^ (signed w).toNat else 0)
        (if 0 ≤ signed w then interrupted (signed w).toNat good bad else 1) := by
    intro w length v spells
    rw [eq_signed length spells]
    exact Follows.ensure_reported isReport (follows.times _)
  exact ((primitive_follows fixed_int).bind next).congr rfl (zero_add _)

/-- The byte that a tag is read as. -/
theorem eq_tag {w : Bytes} (length : w ∈ bytes 1) {b : UInt8}
    (spells : Spells (WatchedUnmarshaller.primitive byte) w b) : b = tag w := by
  rcases List.length_eq_one_iff.mp length with ⟨c, rfl⟩
  exact (spells_ofDecoder (Reads.byte c)).unique (spells [])

/-- Every other tag is that of a string. -/
theorem reads_stringTag {b : UInt8} (notInt : b ≠ 0) (notFloat : b ≠ 1) (notBool : b ≠ 2) :
    Reads Unmarshaller.decodeValType [b] .string := by
  intro rest
  refine bind_eq_some.mpr ⟨b, rest, rfl, ?_⟩
  split
  · exact absurd rfl notInt
  · exact absurd rfl notFloat
  · exact absurd rfl notBool
  · rfl

/-- A type and a value of that type. -/
theorem typed_follows {f : ValType → Watched Stop α}
    (int : Follows Stop.Reported (f .int) (bytes 4) 0)
    (float : Follows Stop.Reported (f .float) (bytes 4) 0)
    (bool : Follows Stop.Reported (f .bool) (bytes 1) 0)
    (string : Follows Stop.Reported (f .string) good bad) :
    Follows Stop.Reported (WatchedUnmarshaller.primitive Unmarshaller.decodeValType >>= f)
      (typed good) (typedReport bad) := by
  have next : ∀ w ∈ bytes 1, ∀ v,
      Spells (WatchedUnmarshaller.primitive Unmarshaller.decodeValType) w v →
      Follows Stop.Reported (f v) (valueOf good (tag w)) (reportOf bad (tag w)) := by
    intro w length v spells
    rcases List.length_eq_one_iff.mp length with ⟨b, rfl⟩
    have read := spells []
    unfold valueOf reportOf
    rw [show tag [b] = b from rfl]
    by_cases isInt : b = 0
    · subst isInt
      cases read
      exact int
    by_cases isFloat : b = 1
    · subst isFloat
      cases read
      exact float
    by_cases isBool : b = 2
    · subst isBool
      cases read
      exact bool
    rw [if_neg isInt, if_neg isFloat, if_neg isBool, if_neg isInt, if_neg isFloat, if_neg isBool]
    have isString : v = .string :=
      (spells_ofDecoder (reads_stringTag isInt isFloat isBool)).unique read
    rw [isString]
    exact string
  exact ((primitive_follows fixed_valType).bind next).congr rfl (zero_add _)

theorem attr_follows (pad : Nat) :
    Follows Stop.Reported (WatchedUnmarshaller.decodeAttribute pad) attr attrReport := by
  have value : ∀ name : CString, Follows Stop.Reported
      (do
        let type ← WatchedUnmarshaller.primitive Unmarshaller.decodeValType
        let value ← WatchedUnmarshaller.decodeValue pad type
        return (⟨name, value⟩ : Attribute))
      (typed (stringBelow stringValLen)) (typedReport (stringNotBelow stringValLen)) := by
    intro name
    refine typed_follows ?_ ?_ ?_ ?_
    · exact ((primitive_follows fixed_int).map Value.int).map _
    · exact ((primitive_follows fixed_float).map Value.float).map _
    · exact ((primitive_follows fixed_boolean).map fun b => Value.bool b pad).map _
    · exact ((stringBelow_follows stringValLen).map Value.string).map _
  exact (stringBelow_follows nameLen).seq value

theorem constraint_follows (junk : Constraint) :
    Follows Stop.Reported (WatchedUnmarshaller.decodeConstraint junk) constraint
      constraintReport := by
  have value : ∀ (name : CString) (op : Op), Follows Stop.Reported
      (do
        let type ← WatchedUnmarshaller.primitive Unmarshaller.decodeValType
        WatchedUnmarshaller.decodeConstraintVal { junk with name, op, type } type)
      (typed (stringUpTo stringValLen)) (typedReport negativeLength) := by
    intro name op
    refine typed_follows ?_ ?_ ?_ ?_
    · exact (primitive_follows fixed_int).map _
    · exact (primitive_follows fixed_float).map _
    · exact (primitive_follows fixed_boolean).map _
    · exact (stringUpTo_follows stringValLen).map _
  refine ((stringUpTo_follows nameLen).seq fun name =>
    (primitive_follows fixed_constraintOp).seq (value name)).congr rfl ?_
  rw [zero_add]
  rfl

theorem constraints_follows (junk : Constraint) :
    Follows Stop.Reported (WatchedUnmarshaller.decodeConstraints junk) constraints
      constraintsReport :=
  newArray_follows (constraint_follows junk)

theorem predicate_follows (junk : Constraint) :
    Follows Stop.Reported (WatchedUnmarshaller.decodeEventPredicate junk) predicate
      predicateReport := by
  refine ((primitive_follows fixed_int).seq fun _ => (constraints_follows junk).seq fun _ =>
    (primitive_follows fixed_int).seq fun _ => (primitive_follows fixed_long).seq fun _ =>
    (primitive_follows fixed_compKind).map _).congr rfl ?_
  simp only [mul_zero, add_zero, zero_add]
  rfl

theorem negation_follows (junk : Constraint) :
    Follows Stop.Reported (WatchedUnmarshaller.decodeNegation junk) negation negationReport := by
  refine ((primitive_follows fixed_int).seq fun _ => (constraints_follows junk).seq fun _ =>
    (primitive_follows fixed_int).seq fun _ => (primitive_follows fixed_long).seq fun _ =>
    (primitive_follows fixed_int).map _).congr rfl ?_
  simp only [mul_zero, add_zero, zero_add]
  rfl

theorem aggregate_follows (junk : Constraint) :
    Follows Stop.Reported (WatchedUnmarshaller.decodeAggregate junk) aggregate aggregateReport := by
  refine ((primitive_follows fixed_int).seq fun _ => (constraints_follows junk).seq fun _ =>
    (primitive_follows fixed_int).seq fun _ => (primitive_follows fixed_long).seq fun _ =>
    (primitive_follows fixed_int).seq fun _ => (primitive_follows fixed_aggregateFun).seq fun _ =>
    (stringUpTo_follows nameLen).map _).congr rfl ?_
  simp only [zero_add]
  rfl

/-- The decoder behind the kind of a reference. -/
def referenceBehind (pad : Nat) (kind : UInt8) : Watched Stop OpValueReference :=
  match kind with
  | 0 => WatchedUnmarshaller.decodeRulePktReference
  | _ => WatchedUnmarshaller.decodeStaticValueReference pad

theorem reference_follows (pad : Nat) :
    Follows Stop.Reported (WatchedUnmarshaller.decodeValueReference pad) reference
      referenceReport := by
  have static : Follows Stop.Reported (WatchedUnmarshaller.decodeStaticValueReference pad)
      (typed (stringUpTo stringValLen)) (typedReport negativeLength) := by
    refine typed_follows ?_ ?_ ?_ ?_
    · exact (primitive_follows fixed_int).map _
    · exact (primitive_follows fixed_float).map _
    · exact (primitive_follows fixed_boolean).map _
    · exact (stringUpTo_follows stringValLen).map _
  have rulePkt : Follows Stop.Reported WatchedUnmarshaller.decodeRulePktReference
      (bytes 4 * (bytes 1 * string)) (bytes 4 * (bytes 1 * negativeLength)) := by
    have named : ∀ (idx : Int) (type : StateType), Follows Stop.Reported
        (do
          let name ← WatchedUnmarshaller.decodeString
          if type = .agg ∧ name.length = 0 then return OpValueReference.rulePkt idx .agg none
          else return .rulePkt idx type (some name)) string negativeLength := by
      intro idx type
      have either := string_follows.seq fun name : CString =>
        show Follows Stop.Reported (if type = .agg ∧ name.length = 0 then
          pure (OpValueReference.rulePkt idx .agg none) else pure (.rulePkt idx type (some name)))
          1 0 by
        split
        · exact Follows.pure _
        · exact Follows.pure _
      exact either.congr (mul_one string) (by rw [mul_zero, add_zero])
    refine ((primitive_follows fixed_int).seq fun idx =>
      (primitive_follows fixed_stateType).seq (named idx)).congr rfl ?_
    simp only [zero_add]
  have next : ∀ w ∈ bytes 1, ∀ b,
      Spells (WatchedUnmarshaller.primitive byte) w b →
      Follows Stop.Reported (referenceBehind pad b)
        (if tag w = 0 then bytes 4 * (bytes 1 * string) else typed (stringUpTo stringValLen))
        (if tag w = 0 then bytes 4 * (bytes 1 * negativeLength)
          else typedReport negativeLength) := by
    intro w length b spells
    rw [eq_tag length spells]
    by_cases isRulePkt : tag w = 0
    · rw [if_pos isRulePkt, if_pos isRulePkt, isRulePkt]
      exact rulePkt
    · rw [if_neg isRulePkt, if_neg isRulePkt]
      unfold referenceBehind
      split
      case h_1 isZero => exact absurd isZero isRulePkt
      case h_2 => exact static
  exact ((primitive_follows Fixed.byte).bind next).congr rfl (zero_add _)

/-! ### Trees -/

/-- The decoder behind the kind of a node. -/
def nodeBehind (pad depth : Nat) (kind : UInt8) : Watched Stop OpTree := do
  let valType ← WatchedUnmarshaller.primitive Unmarshaller.decodeValType
  match kind with
  | 0 => return .leaf (← WatchedUnmarshaller.decodeValueReference pad) valType
  | _ =>
    let leftTree ← WatchedUnmarshaller.decodeOpTreeWithin pad depth
    let rightTree ← WatchedUnmarshaller.decodeOpTreeWithin pad depth
    let op ← WatchedUnmarshaller.primitive Unmarshaller.decodeOpTreeOperation
    return OpTree.inner leftTree rightTree op valType

theorem treeWithin_follows (pad depth : Nat) :
    Follows Stop.Reported (WatchedUnmarshaller.decodeOpTreeWithin pad depth)
      (treeOf reference depth)
      (treeReportWithin depth) := by
  induction depth with
  | zero => exact Follows.stop past_silent
  | succ depth ih =>
      have next : ∀ w ∈ bytes 1, ∀ b, Spells (WatchedUnmarshaller.primitive byte) w b →
          Follows Stop.Reported (nodeBehind pad depth b)
          (bytes 1 * if tag w = 0 then reference
            else treeOf reference depth * (treeOf reference depth * bytes 1))
          (bytes 1 * if tag w = 0 then referenceReport
            else treeReportWithin depth + treeOf reference depth * treeReportWithin depth) := by
        intro w length b spells
        rw [eq_tag length spells]
        refine ((primitive_follows fixed_valType).seq fun valType => ?_).congr rfl (zero_add _)
        by_cases isLeaf : tag w = 0
        · rw [if_pos isLeaf, if_pos isLeaf, isLeaf]
          exact (reference_follows pad).map _
        · rw [if_neg isLeaf, if_neg isLeaf]
          split
          case h_1 isZero => exact absurd isZero isLeaf
          case h_2 =>
            refine (ih.seq fun _ => ih.seq fun _ =>
              (primitive_follows fixed_opTreeOperation).map _).congr rfl ?_
            rw [mul_zero, add_zero]
      exact ((primitive_follows Fixed.byte).bind next).congr rfl (zero_add _)

/-- What is read within a depth is read the same within a greater one. -/
theorem decodeOpTreeWithin_succ {pad depth : Nat} {input : Bytes} {x : OpTree × Bytes}
    (read : WatchedUnmarshaller.decodeOpTreeWithin pad depth input = .ok x) :
    WatchedUnmarshaller.decodeOpTreeWithin pad (depth + 1) input = .ok x := by
  induction depth generalizing input x with
  | zero => cases read
  | succ depth ih =>
      rcases Watched.bind_eq_ok.mp read with ⟨b, afterKind, readKind, readRest⟩
      rcases Watched.bind_eq_ok.mp readRest with ⟨valType, afterType, readType, readParts⟩
      refine Watched.bind_eq_ok.mpr ⟨b, afterKind, readKind, ?_⟩
      refine Watched.bind_eq_ok.mpr ⟨valType, afterType, readType, ?_⟩
      split at readParts
      case h_1 => exact readParts
      case h_2 isInner =>
        rcases Watched.bind_eq_ok.mp readParts with ⟨left, afterLeft, readLeft, readRight⟩
        rcases Watched.bind_eq_ok.mp readRight with ⟨right, afterRight, readRight, readOp⟩
        exact Watched.bind_eq_ok.mpr ⟨left, afterLeft, ih readLeft,
          Watched.bind_eq_ok.mpr ⟨right, afterRight, ih readRight, readOp⟩⟩

theorem decodeOpTreeWithin_mono {pad depth more : Nat} (deeper : depth ≤ more) {input : Bytes}
    {x : OpTree × Bytes} (read : WatchedUnmarshaller.decodeOpTreeWithin pad depth input = .ok x) :
    WatchedUnmarshaller.decodeOpTreeWithin pad more input = .ok x := by
  induction deeper with
  | refl => exact read
  | step _ ih => exact decodeOpTreeWithin_succ ih

/-- The parts of an inner node are two bytes shorter than the node. -/
theorem node_of_parts {leaf inner inner' : Language UInt8} {w : Bytes} (mem : w ∈ node leaf inner)
    (parts : ∀ u, u.length + 2 = w.length → u ∈ inner → u ∈ inner') : w ∈ node leaf inner' := by
  rcases mem with ⟨kind, isKind, x, ⟨type, isType, u, mem, rfl⟩, rfl⟩
  refine ⟨kind, isKind, _, ⟨type, isType, u, ?_, rfl⟩, rfl⟩
  by_cases isLeaf : tag kind = 0
  · rw [if_pos isLeaf] at mem ⊢
    exact mem
  · rw [if_neg isLeaf] at mem ⊢
    apply parts u ?_ mem
    have kindLength : kind.length = 1 := isKind
    have typeLength : type.length = 1 := isType
    rw [List.length_append, List.length_append, kindLength, typeLength]
    omega

theorem two_le_length_of_node {leaf inner : Language UInt8} {w : Bytes}
    (mem : w ∈ node leaf inner) : 2 ≤ w.length := by
  rcases mem with ⟨kind, isKind, x, ⟨type, isType, u, -, rfl⟩, rfl⟩
  have kindLength : kind.length = 1 := isKind
  have typeLength : type.length = 1 := isType
  rw [List.length_append, List.length_append, kindLength, typeLength]
  omega

theorem treeOf_succ (leaf : Language UInt8) (depth : Nat) :
    treeOf leaf depth ≤ treeOf leaf (depth + 1) := by
  induction depth with
  | zero => exact fun w mem => absurd mem (Language.notMem_zero w)
  | succ depth ih =>
      intro w mem
      refine node_of_parts mem fun u _ inner => ?_
      rcases inner with ⟨left, isLeft, v, ⟨right, isRight, op, isOp, rfl⟩, rfl⟩
      exact ⟨left, ih isLeft, _, ⟨right, ih isRight, op, isOp, rfl⟩, rfl⟩

theorem treeOf_mono (leaf : Language UInt8) : Monotone (treeOf leaf) :=
  monotone_nat_of_le_succ (treeOf_succ leaf)

theorem treeReportWithin_succ (depth : Nat) :
    treeReportWithin depth ≤ treeReportWithin (depth + 1) := by
  induction depth with
  | zero => exact fun w mem => absurd mem (Language.notMem_zero w)
  | succ depth ih =>
      intro w mem
      refine node_of_parts mem fun u _ inner => ?_
      rcases inner with inLeft | ⟨left, isLeft, right, inRight, rfl⟩
      · exact .inl (ih inLeft)
      · exact .inr ⟨left, treeOf_succ reference depth isLeft, right, ih inRight, rfl⟩

theorem treeReportWithin_mono : Monotone treeReportWithin :=
  monotone_nat_of_le_succ treeReportWithin_succ

/-- A tree is not deeper than it is long. -/
theorem treeOf_length {leaf : Language UInt8} {depth : Nat} {w : Bytes}
    (mem : w ∈ treeOf leaf depth) : w ∈ treeOf leaf w.length := by
  induction depth generalizing w with
  | zero => exact absurd mem (Language.notMem_zero w)
  | succ depth ih =>
      have long := two_le_length_of_node mem
      rw [show w.length = w.length - 1 + 1 by omega]
      refine node_of_parts mem fun u length inner => ?_
      rcases inner with ⟨left, isLeft, v, ⟨right, isRight, op, isOp, rfl⟩, rfl⟩
      rw [List.length_append, List.length_append] at length
      refine ⟨left, ?_, _, ⟨right, ?_, op, isOp, rfl⟩, rfl⟩
      · exact treeOf_mono leaf (by omega) (ih isLeft)
      · exact treeOf_mono leaf (by omega) (ih isRight)

theorem treeReportWithin_length {depth : Nat} {w : Bytes} (mem : w ∈ treeReportWithin depth) :
    w ∈ treeReportWithin w.length := by
  induction depth generalizing w with
  | zero => exact absurd mem (Language.notMem_zero w)
  | succ depth ih =>
      have long := two_le_length_of_node mem
      rw [show w.length = w.length - 1 + 1 by omega]
      refine node_of_parts mem fun u length inner => ?_
      rcases inner with inLeft | ⟨left, isLeft, right, inRight, rfl⟩
      · exact .inl (treeReportWithin_mono (by omega) (ih inLeft))
      · rw [List.length_append] at length
        refine .inr ⟨left, ?_, right, ?_, rfl⟩
        · exact treeOf_mono reference (by omega) (treeOf_length isLeft)
        · exact treeReportWithin_mono (by omega) (ih inRight)

theorem tree_follows (pad : Nat) :
    Follows Stop.Reported (WatchedUnmarshaller.decodeOpTree pad) tree treeReport := by
  have longer : ∀ w rest : Bytes, w.length ≤ (w ++ rest).length := by
    intro w rest
    rw [List.length_append]
    omega
  refine ⟨?_, ?_, ?_, ?_⟩
  · intro source v rest read
    rcases (treeWithin_follows pad source.length).read read with ⟨w, mem, whole⟩
    exact ⟨w, Language.mem_iSup.mpr ⟨_, mem⟩, whole⟩
  · intro w mem
    rcases Language.mem_iSup.mp mem with ⟨depth, mem⟩
    rcases (treeWithin_follows pad w.length).complete w (treeOf_length mem) with ⟨v, spells⟩
    exact ⟨v, fun rest => decodeOpTreeWithin_mono (longer w rest) (spells rest)⟩
  · intro source e stopped isReport
    rcases (treeWithin_follows pad source.length).report stopped isReport with ⟨w, mem, starts⟩
    exact ⟨w, Language.mem_iSup.mpr ⟨_, mem⟩, starts⟩
  · intro w mem rest
    rcases Language.mem_iSup.mp mem with ⟨depth, mem⟩
    exact (treeWithin_follows pad _).reported w
      (treeReportWithin_mono (longer w rest) (treeReportWithin_length mem)) rest

theorem parameter_follows (pad : Nat) :
    Follows Stop.Reported (WatchedUnmarshaller.decodeParameter pad) parameter parameterReport := by
  refine ((primitive_follows fixed_constraintOp).seq fun _ =>
    (primitive_follows fixed_stateType).seq fun _ => (primitive_follows fixed_valType).seq fun _ =>
    (tree_follows pad).seq fun _ => (tree_follows pad).map _).congr rfl ?_
  simp only [zero_add]
  rfl

theorem template_follows (pad : Nat) :
    Follows Stop.Reported (WatchedUnmarshaller.decodeEventTemplate pad) template
      templateReport := by
  have computed : Follows Stop.Reported (WatchedUnmarshaller.decodeTemplateAttr pad) templateAttr
      templateAttrReport :=
    string_follows.seq fun _ => (tree_follows pad).map _
  refine ((primitive_follows fixed_int).seq fun _ => (counted_follows computed).seq fun _ =>
    (counted_follows (attr_follows pad)).map _).congr rfl ?_
  rw [zero_add]
  rfl

theorem entry_follows {d : Watched Stop α} (follows : Follows Stop.Reported d good bad) :
    Follows Stop.Reported (WatchedUnmarshaller.decodeEntry d) (bytes 4 * good) (bytes 4 * bad) :=
  ((primitive_follows fixed_int).seq fun _ => follows.map _).congr rfl (zero_add _)

theorem map_follows {d : Watched Stop α} (follows : Follows Stop.Reported d good bad) :
    Follows Stop.Reported (WatchedUnmarshaller.decodeMap d) (map good) (mapReport good bad) :=
  (counted_follows (entry_follows follows)).map _

end Follow

end Format

end TRex
