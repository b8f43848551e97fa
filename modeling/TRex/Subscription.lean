import Mathlib.Data.List.Infix
import TRex.Structures

/-!
# Subscriptions

`Packets/SubPkt` and the server's `util::matches`. An operator that has no meaning for the type of a
constraint makes the server throw `invalid_argument`; the error is the text of the exception.
-/

namespace TRex

structure SubPkt where
  eventType : Int
  constraints : List Constraint
  deriving DecidableEq

/-- The operators' names in the texts of the exceptions. -/
def Op.name : Op → String
  | .eq => "EQ"
  | .lt => "LT"
  | .gt => "GT"
  | .ne => "NE"
  | .in_ => "IN"
  | .le => "LE"
  | .ge => "GE"

def Op.cannotBeUsedWith (op : Op) (type : String) : String :=
  op.name ++ " operation cannot be used with " ++ type ++ " type"

/-- The tests on two numbers: the source returns false where the opposite comparison holds. -/
def Op.matchesNumber {V : Type} (lt le eq : V → V → Bool) (type : String) (op : Op)
    (attr constr : V) : Except String Bool :=
  match op with
  | .eq => .ok (eq attr constr)
  | .lt => .ok (!le constr attr)
  | .gt => .ok (!le attr constr)
  | .le => .ok (!lt constr attr)
  | .ge => .ok (!lt attr constr)
  | .ne => .ok (!eq attr constr)
  | .in_ => .error (op.cannotBeUsedWith type)

def Op.matchesBool (op : Op) (attr constr : Bool) : Except String Bool :=
  match op with
  | .eq => .ok (attr == constr)
  | .ne => .ok (attr != constr)
  | _ => .error (op.cannotBeUsedWith "BOOL")

/-- `strcmp` orders strings by their characters; `IN` looks for the constraint's value in the
attribute's. -/
def Op.matchesString (op : Op) (attr constr : CString) : Bool :=
  match op with
  | .eq => decide (attr = constr)
  | .lt => decide (attr < constr)
  | .gt => decide (constr < attr)
  | .ne => decide (attr ≠ constr)
  | .le => !decide (constr < attr)
  | .ge => !decide (attr < constr)
  | .in_ => decide (constr <:+: attr)

/-- `matches(const Constraint&, const Attribute&)`. -/
def Constraint.matchesAttribute (constr : Constraint) (attr : Attribute) : Except String Bool :=
  if constr.name ≠ attr.name then .ok false
  else if constr.type ≠ attr.type then .ok false
  else
    match constr.type with
    | .int => constr.op.matchesNumber (fun a b => decide (a < b)) (fun a b => decide (a ≤ b))
        (fun a b => decide (a = b)) "INT" attr.value.intVal constr.intVal
    | .float => constr.op.matchesNumber CFloat.lt CFloat.le CFloat.eq "FLOAT" attr.value.floatVal
        constr.floatVal
    | .bool => constr.op.matchesBool attr.value.boolVal constr.boolVal
    | .string => .ok (constr.op.matchesString attr.value.stringVal constr.stringVal)

/-- The loop over the constraints of a subscription. -/
def PubPkt.matchesAll (pub : PubPkt) : List Constraint → Except String Bool
  | [] => .ok true
  | constr :: rest =>
    match pub.getAttributeIndexAndType constr.name with
    | none => .ok false
    | some (attrIndex, _) =>
      match pub.attributes[attrIndex]? with
      | none => .ok false
      | some attr => do
        if ← constr.matchesAttribute attr then matchesAll pub rest
        else return false

/-- `matches(SubPkt*, PubPkt*)`. -/
def SubPkt.matchesPub (sub : SubPkt) (pub : PubPkt) : Except String Bool :=
  if (pub.eventType : Int) ≠ sub.eventType then .ok false
  else pub.matchesAll sub.constraints

/-- Without constraints the event type decides. -/
theorem SubPkt.matchesPub_unconstrained (type : Int) (pub : PubPkt) :
    SubPkt.matchesPub ⟨type, []⟩ pub = .ok (decide ((pub.eventType : Int) = type)) := by
  unfold SubPkt.matchesPub
  split
  case isTrue differ => rw [decide_eq_false differ]
  case isFalse same => rw [decide_eq_true (not_not.mp same), PubPkt.matchesAll]

end TRex
