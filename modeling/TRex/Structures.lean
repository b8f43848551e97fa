import Mathlib.Algebra.Order.Ring.Int
import Mathlib.Tactic.Common

/-!
# Data model

The types of `Common/Consts.h`, `Common/Structures.h`, `Common/TimeMs.h`, `Common/OpTree.h`, the two
`OpValueReference` subclasses and `Packets/PubPkt`.

* Timestamps and windows (`TimeMs`) are natural numbers: `TimeMs::operator-` saturates at 0, as
  subtraction on `Nat` does, and the engine never adds two timestamps.
* A C `int` is an `Int`; arithmetic that can overflow wraps through `wrap32`.
* A C `float` is its 32-bit pattern, computed on through `Float32`. Conversions to `int` that the
  language leaves undefined answer what the compiled code answers.
* A NUL-terminated character array is the list of its characters before the NUL.
-/

namespace TRex

/-! ## Constants and enumerations -/

/-- `MAX_RULE_FIELDS`: length of the per-rule arrays of counters and of `PartialEvent::indexes`. -/
def maxRuleFields : Nat := 5

abbrev CString := List Char

/-- The bit pattern of a C `float`. -/
abbrev CFloat := UInt32

inductive ValType
  | int | float | bool | string
  deriving DecidableEq

inductive CompKind
  | eachWithin | firstWithin | lastWithin | allWithin
  deriving DecidableEq

/-- Operations used in constraints; `in_` is the source's `IN`. -/
inductive Op
  | eq | lt | gt | ne | in_ | le | ge
  deriving DecidableEq

inductive AggregateFun
  | none | avg | count | min | max | sum
  deriving DecidableEq

inductive StateType
  | state | neg | agg
  deriving DecidableEq

inductive OpTreeOperation
  | add | sub | mul | div | and | or
  deriving DecidableEq

/-! ## Machine arithmetic -/

/-- The value of a 32-bit signed register holding `v`. -/
def wrap32 (v : Int) : Int := Int.bmod v (2 ^ 32)

def CFloat.ofInt (v : Int) : CFloat := (Float32.ofInt v).toBits

/-- The number a float stands for, truncated towards zero; infinities and what is no number count
as 0 here. -/
def CFloat.truncated (f : CFloat) : Int := (Float32.ofBits f).toModel.unpack.toInt 0 0

/-- The float is a number that an `int` can hold once it is truncated. -/
def CFloat.FitsInt (f : CFloat) : Prop :=
  (Float32.ofBits f).isFinite ∧ -2 ^ 31 ≤ f.truncated ∧ f.truncated < 2 ^ 31

instance (f : CFloat) : Decidable f.FitsInt := inferInstanceAs (Decidable (_ ∧ _))

/-- Conversion to `int` on the host. The instruction that the compilers use answers the smallest
`int` for whatever does not fit. -/
def CFloat.toInt (f : CFloat) : Int := if f.FitsInt then f.truncated else -2 ^ 31

/-- Conversion to `int` on the device answers the nearest `int`, and 0 for what is no number. -/
def CFloat.toIntOnDevice (f : CFloat) : Int := (Float32.ofBits f).toModel.toInt32.toInt

/-- Only what does not fit is converted differently. -/
theorem CFloat.toIntOnDevice_of_fitsInt {f : CFloat} (fits : f.FitsInt) :
    f.toIntOnDevice = f.toInt := by
  rw [toInt, if_pos fits]
  obtain ⟨finite, low, high⟩ := fits
  have number : (Float32.ofBits f).toModel.unpack.isFinite = true := finite
  rw [truncated] at low high ⊢
  rw [toIntOnDevice, Float32.Model.toInt32, Float.Model.UnpackedFloat.toInt32]
  cases unpacked : (Float32.ofBits f).toModel.unpack with
  | infinity sign => rw [unpacked] at number; cases number
  | notANumber => rw [unpacked] at number; cases number
  | zero sign => rfl
  | finite sign mantissa exponent positive =>
      rw [unpacked] at low high
      have least : Int32.minValue.toInt = -2 ^ 31 := rfl
      have most : Int32.maxValue.toInt = 2 ^ 31 - 1 := rfl
      refine Int32.toInt_ofIntClamp (least ▸ low) ?_
      rw [most]
      exact Int.le_sub_one_of_lt high

-- three thousand million
example : CFloat.toInt 0x4f32d05e = -2 ^ 31 ∧ CFloat.toIntOnDevice 0x4f32d05e = 2 ^ 31 - 1 := by
  decide

def CFloat.add (f g : CFloat) : CFloat := (Float32.ofBits f + Float32.ofBits g).toBits
def CFloat.sub (f g : CFloat) : CFloat := (Float32.ofBits f - Float32.ofBits g).toBits
def CFloat.mul (f g : CFloat) : CFloat := (Float32.ofBits f * Float32.ofBits g).toBits
def CFloat.div (f g : CFloat) : CFloat := (Float32.ofBits f / Float32.ofBits g).toBits

/-- The comparison `==` on floats, which is not equality of the patterns. -/
def CFloat.eq (f g : CFloat) : Bool := Float32.ofBits f == Float32.ofBits g
def CFloat.lt (f g : CFloat) : Bool := decide (Float32.ofBits f < Float32.ofBits g)
def CFloat.le (f g : CFloat) : Bool := decide (Float32.ofBits f ≤ Float32.ofBits g)

/-- Conversion to `bool`: everything but a zero is true. -/
def CFloat.toBool (f : CFloat) : Bool := !(CFloat.eq f (CFloat.ofInt 0))

/-! ## Attributes and constraints -/

/-- The tagged union of an attribute. Writing `boolVal` sets one byte of the union, so a Boolean
keeps the three bytes behind it (`pad`) as the writer found them. -/
inductive Value
  | int (v : Int)
  | float (bits : CFloat)
  | bool (b : Bool) (pad : Nat)
  | string (s : CString)
  deriving DecidableEq

def Value.type : Value → ValType
  | .int _ => .int
  | .float _ => .float
  | .bool _ _ => .bool
  | .string _ => .string

/-- Four little-endian bytes. -/
def littleEndian4 (n : Nat) : List Nat :=
  [n % 256, n / 256 % 256, n / 256 ^ 2 % 256, n / 256 ^ 3 % 256]

def ofLittleEndian : List Nat → Nat
  | [] => 0
  | b :: bs => b + 256 * ofLittleEndian bs

/-- The bytes of the union, from its first one on. -/
def Value.raw : Value → List Nat
  | .int v => littleEndian4 (v % 2 ^ 32).toNat
  | .float bits => littleEndian4 bits.toNat
  | .bool b pad => (if b then 1 else 0) :: (littleEndian4 pad).take 3
  | .string s => s.map Char.toNat ++ [0]

/-- `intVal`, read from whatever member was written last. -/
def Value.intVal : Value → Int
  | .int v => v
  | v => wrap32 (ofLittleEndian (v.raw.take 4))

def Value.floatVal : Value → CFloat
  | .float bits => bits
  | v => UInt32.ofNat (ofLittleEndian (v.raw.take 4))

def Value.boolVal : Value → Bool
  | .bool b _ => b
  | v => v.raw.head? != some 0

def Value.stringVal : Value → CString
  | .string s => s
  | v => (v.raw.takeWhile (· != 0)).map Char.ofNat

structure Attribute where
  name : CString
  value : Value
  deriving DecidableEq

def Attribute.type (a : Attribute) : ValType := a.value.type

/-- `EventConstraint`. The source keeps one member per type and reads the one that `type` names. -/
structure Constraint where
  name : CString
  op : Op
  type : ValType
  intVal : Int
  floatVal : CFloat
  boolVal : Bool
  stringVal : CString
  deriving DecidableEq

/-- `EventConstraint::operator==` compares only the member that `type` names. -/
def Constraint.equals (c x : Constraint) : Bool :=
  c.op == x.op && c.type == x.type && c.name == x.name &&
    match c.type with
    | .int => c.intVal == x.intVal
    | .float => CFloat.eq c.floatVal x.floatVal
    | .bool => c.boolVal == x.boolVal
    | .string => c.stringVal == x.stringVal

/-- The constraint with the members reset that its type does not name, which nothing reads. -/
def Constraint.settled (c : Constraint) : Constraint :=
  { name := c.name, op := c.op, type := c.type
    intVal := if c.type = .int then c.intVal else 0
    floatVal := if c.type = .float then c.floatVal else 0
    boolVal := if c.type = .bool then c.boolVal else false
    stringVal := if c.type = .string then c.stringVal else [] }

/-! ## Operator trees and parameters -/

/-- `RulePktValueReference` (whose name is `NULL` when built by the aggregate constructor) or
`StaticValueReference`. -/
inductive OpValueReference
  | rulePkt (index : Int) (type : StateType) (attrName : Option CString)
  | static (value : Value)
  deriving DecidableEq

inductive OpTree
  | leaf (value : OpValueReference) (valType : ValType)
  | inner (left right : OpTree) (op : OpTreeOperation) (valType : ValType)
  deriving DecidableEq

def OpTree.getValType : OpTree → ValType
  | .leaf _ valType => valType
  | .inner _ _ _ valType => valType

/-- `ParameterConstraints`: two attributes required to be equal. -/
structure Parameter where
  evIndex1 : Int
  name1 : CString
  evIndex2 : Int
  name2 : CString
  type : StateType
  deriving DecidableEq

/-- `ComplexParameterConstraints`: a comparison between two trees. -/
structure CPUParameter where
  operation : Op
  type : StateType
  vtype : ValType
  leftTree : OpTree
  rightTree : OpTree
  lastIndex : Int
  deriving DecidableEq

/-- `Neg`: no event of this type between the two bounds. `lowerId` is -1 for a time-based bound. -/
structure Negation where
  eventType : Int
  constraints : List Constraint
  lowerId : Int
  lowerTime : Nat
  upperId : Int
  deriving DecidableEq

structure Aggregate where
  eventType : Int
  constraints : List Constraint
  lowerId : Int
  lowerTime : Nat
  upperId : Int
  fun_ : AggregateFun
  name : CString
  deriving DecidableEq

structure CompositeEventTemplate where
  eventType : Int
  attributes : List (CString × OpTree)
  staticAttributes : List Attribute
  deriving DecidableEq

/-! ## Publication packets -/

structure PubPkt where
  /-- A `uint16_t`. -/
  eventType : Nat
  timeStamp : Nat
  attributes : List Attribute
  /-- Name to index of the attribute holding that name. -/
  contentMap : List (CString × Nat)
  deriving DecidableEq

/-- The constructor's loop: `map::insert` keeps the index already stored for a name. -/
def PubPkt.buildContentMap (attributes : List Attribute) : List (CString × Nat) :=
  attributes.zipIdx.foldl
    (fun m (a, i) => if (m.lookup a.name).isSome then m else m ++ [(a.name, i)]) []

/-- The content map finds the first attribute of a name. -/
theorem lookup_buildContentMap (attributes : List Attribute) (name : CString) :
    (PubPkt.buildContentMap attributes).lookup name =
      (attributes.zipIdx.find? fun x => x.1.name == name).map Prod.snd := by
  have general : ∀ (xs : List (Attribute × Nat)) (m : List (CString × Nat)),
      (xs.foldl (fun m (a, i) => if (m.lookup a.name).isSome then m else m ++ [(a.name, i)])
        m).lookup name =
        (m.lookup name).or ((xs.find? fun x => x.1.name == name).map Prod.snd) := by
    intro xs
    induction xs with
    | nil =>
        intro m
        rw [List.foldl_nil, List.find?_nil, Option.map_none, Option.or_none]
    | cons x rest ih =>
        intro m
        rw [List.foldl_cons, ih, List.find?_cons]
        by_cases isName : x.1.name = name
        · subst isName
          cases found : m.lookup x.1.name with
          | none => simp [found, List.lookup_append]
          | some i => simp [found]
        · have other : (x.1.name == name) = false := beq_false_of_ne isName
          have reverse : (name == x.1.name) = false := beq_false_of_ne (Ne.symm isName)
          cases found : (m.lookup x.1.name).isSome with
          | true => simp [found, other]
          | false => simp [found, other, List.lookup_append, List.lookup_cons, reverse]
  have all := general attributes.zipIdx []
  rw [List.lookup_nil, Option.none_or] at all
  exact all

/-- `PubPkt::PubPkt(int, Attribute*, int)`: type and number of attributes are stored in 16 bits. The
timestamp starts as the time of the call, `now`. -/
def PubPkt.new (parEventType : Int) (parAttributes : List Attribute) (now : Nat) : PubPkt :=
  let attributes := parAttributes.take (parAttributes.length % 2 ^ 16)
  { eventType := (parEventType % 2 ^ 16).toNat
    timeStamp := now
    attributes := attributes
    contentMap := PubPkt.buildContentMap attributes }

def PubPkt.setTime (p : PubPkt) (parTimeStamp : Nat) : PubPkt :=
  { p with timeStamp := parTimeStamp }

/-- `PubPkt::copy`. -/
def PubPkt.copy (p : PubPkt) : PubPkt :=
  PubPkt.new p.eventType p.attributes p.timeStamp

/-- Index and type of the attribute that the content map holds for `name`. -/
def PubPkt.getAttributeIndexAndType (p : PubPkt) (name : CString) : Option (Nat × ValType) :=
  (p.contentMap.lookup name).bind fun index =>
    (p.attributes[index]?).map fun a => (index, a.type)

/-- With the content map of the constructor, a name stands for the first attribute that has it. -/
theorem PubPkt.getAttributeIndexAndType_mapped {pkt : PubPkt}
    (mapped : pkt.contentMap = PubPkt.buildContentMap pkt.attributes) (name : CString) :
    (pkt.attributes.find? (fun a => a.name == name) = none ∧
      pkt.getAttributeIndexAndType name = none) ∨
    ∃ i a, pkt.attributes.find? (fun a => a.name == name) = some a ∧ pkt.attributes[i]? = some a ∧
      pkt.getAttributeIndexAndType name = some (i, a.type) := by
  have index : (pkt.attributes.find? fun a => a.name == name) =
      (pkt.attributes.zipIdx.find? fun x => x.1.name == name).map Prod.fst := by
    conv => lhs; rw [← List.zipIdx_map_fst 0 pkt.attributes, List.find?_map]
    rfl
  rw [index]
  simp only [PubPkt.getAttributeIndexAndType, mapped, lookup_buildContentMap]
  cases found : pkt.attributes.zipIdx.find? fun x => x.1.name == name with
  | none => exact .inl ⟨rfl, rfl⟩
  | some x =>
      have there := List.mem_zipIdx_iff_getElem?.mp (List.mem_of_find?_eq_some found)
      refine .inr ⟨x.2, x.1, rfl, there, ?_⟩
      simp only [Option.map_some, Option.bind_some, there]

/-- The union stored at a valid attribute index. -/
def PubPkt.valueAt (p : PubPkt) (index : Nat) : Value :=
  ((p.attributes[index]?).map Attribute.value).getD (.int 0)

/-- A pointer to a publication packet: its address and the packet found there. Packets do not change
while the engine holds them, so the pair stands for the pointer. -/
structure PubPktPtr where
  addr : Nat
  pkt : PubPkt
  deriving DecidableEq

def PubPktPtr.getTimeStamp (p : PubPktPtr) : Nat := p.pkt.timeStamp

end TRex
