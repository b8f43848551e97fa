import Mathlib.Logic.Function.Basic
import TRex.Lib.Cursor
import TRex.RuleCodec

/-!
# The JavaScript client

`trex.js`: what `getEvtPkt` writes for an event, what `parseEvtPkt` reads from a buffer, and the
handler of a connection. A `Buffer` throws where a number is read outside of it or does not fit the
bytes it is written to; `none` stands for that. Strings are lists of characters as in the other
clients.

A number is an `int` if it is one of 32 bits, and else given by the 4 bytes it is written as. Times
are integral.
-/

namespace TRex.Js

open Wire

/-! ## Events -/

/-- A primitive value of JavaScript. -/
inductive JsValue
  | int (v : Int)
  | float (bits : CFloat)
  | bool (b : Bool)
  | string (s : CString)
  deriving DecidableEq

/-- An object `attr` maps the names of its properties to their values. -/
structure Evt where
  evtType : Int
  timeStamp : Int
  attr : CString → Option JsValue

/-- The properties that `for (var i in evt.attr)` visits, in its order. -/
def Evt.visited (evt : Evt) (order : List CString) : List (CString × JsValue) :=
  order.filterMap fun i => (evt.attr i).map fun val => (i, val)

/-! ## Marshalling -/

def valType : JsValue → UInt8
  | .int _ => 0
  | .float _ => 1
  | .bool _ => 2
  | .string _ => 3

def writeInt32BE (value : Int) : Option Bytes :=
  if IsInt value then some (bigEndian 4 (value % 2 ^ 32).toNat) else none

def writeUInt32BE (value : Int) : Option Bytes :=
  if 0 ≤ value ∧ value < 2 ^ 32 then some (bigEndian 4 value.toNat) else none

/-- `buf.write(s, pos, s.length, "ascii")`. -/
def writeAscii (s : CString) : Bytes := s.map fun c => UInt8.ofNat c.toNat

def attrLen (a : CString × JsValue) : Nat :=
  4 + a.1.length + 1 + match a.2 with
    | .int _ => 4
    | .float _ => 4
    | .bool _ => 1
    | .string s => 4 + s.length

def evtLen (attr : List (CString × JsValue)) : Nat :=
  attr.foldl (fun len a => len + attrLen a) (4 + 8 + 4)

def encodeVal : JsValue → Option Bytes
  | .int v => writeInt32BE v
  | .float bits => some (bigEndian 4 bits.toNat)
  | .bool b => some [if b then 1 else 0]
  | .string s => do return (← writeInt32BE s.length) ++ writeAscii s

def encodeAttr (a : CString × JsValue) : Option Bytes := do
  let nameLen ← writeInt32BE a.1.length
  let val ← encodeVal a.2
  return nameLen ++ (writeAscii a.1 ++ ([valType a.2] ++ val))

def encodeAttrs : List (CString × JsValue) → Option Bytes
  | [] => some []
  | a :: rest => do return (← encodeAttr a) ++ (← encodeAttrs rest)

def POW32 : Int := 2 ^ 32

/-- The remainder of a time has its sign. -/
def encodeEvt (evt : Evt) (order : List CString) : Option Bytes := do
  let attr := evt.visited order
  let len ← writeInt32BE (evtLen attr)
  let type ← writeInt32BE evt.evtType
  let high ← writeInt32BE ((evt.timeStamp - evt.timeStamp.tmod POW32) / POW32)
  let low ← writeUInt32BE (evt.timeStamp.tmod POW32)
  let numAttr ← writeInt32BE attr.length
  let attrs ← encodeAttrs attr
  return len ++ (type ++ (high ++ (low ++ (numAttr ++ attrs))))

def getEvtPkt (evt : Evt) (order : List CString) : Option Bytes := do
  return [0] ++ (← encodeEvt evt order)

/-! ## Subscriptions -/

/-- A constraint is an array of a name, an operand and a value. -/
structure Sub where
  evtType : Int
  constraints : List (CString × Op × JsValue)

/-- `Sub.op`. -/
def Sub.op : Op → UInt8
  | .eq => 0
  | .lt => 1
  | .gt => 2
  | .ne => 3
  | .in_ => 4
  | .le => 5
  | .ge => 6

def constraintLen (c : CString × Op × JsValue) : Nat :=
  4 + c.1.length + (1 + 1) + match c.2.2 with
    | .int _ => 4
    | .float _ => 4
    | .bool _ => 1
    | .string s => 4 + s.length

def subLen (sub : Sub) : Nat :=
  sub.constraints.foldl (fun len c => len + constraintLen c) (4 + 4)

def encodeConstr (c : CString × Op × JsValue) : Option Bytes := do
  let nameLen ← writeInt32BE c.1.length
  let val ← encodeVal c.2.2
  return nameLen ++ (writeAscii c.1 ++ ([Sub.op c.2.1] ++ ([valType c.2.2] ++ val)))

def encodeConstrs : List (CString × Op × JsValue) → Option Bytes
  | [] => some []
  | c :: rest => do return (← encodeConstr c) ++ (← encodeConstrs rest)

def encodeSub (sub : Sub) : Option Bytes := do
  let len ← writeInt32BE (subLen sub)
  let type ← writeInt32BE sub.evtType
  let numConstr ← writeInt32BE sub.constraints.length
  let constrs ← encodeConstrs sub.constraints
  return len ++ (type ++ (numConstr ++ constrs))

def getSubPkt (sub : Sub) : Option Bytes := do
  return [2] ++ (← encodeSub sub)

/-- The subscription packet as it is, behind a header. -/
def getUnsubPkt (sub : Sub) : Option Bytes := do
  let subPkt ← getSubPkt sub
  let subPktLen ← writeInt32BE subPkt.length
  return [100] ++ (subPktLen ++ subPkt)

/-! ## Parsing -/

def readInt8 (buf : Bytes) (pos : Int) : Option Int :=
  (Cursor.read buf pos 1).map fun bytes => Int.bmod (ofBigEndian bytes) (2 ^ 8)

def readInt32BE (buf : Bytes) (pos : Int) : Option Int :=
  (Cursor.read buf pos 4).map fun bytes => wrap32 (ofBigEndian bytes)

def readUInt32BE (buf : Bytes) (pos : Int) : Option Int :=
  (Cursor.read buf pos 4).map fun bytes => (ofBigEndian bytes : Int)

/-- The number that a float stands for, if it is one of 32 bits. -/
def integral? (bits : CFloat) : Option Int :=
  let n := bits.toNat
  let exponent := n / 2 ^ 23 % 2 ^ 8
  let fraction := 2 ^ 23 + n % 2 ^ 23
  let sign : Int := if n < 2 ^ 31 then 1 else -1
  if n % 2 ^ 31 = 0 then some 0
  else if 150 ≤ exponent then
    let value := sign * (fraction * 2 ^ (exponent - 150) : Nat)
    if exponent < 255 ∧ IsInt value then some value else none
  else if fraction % 2 ^ (150 - exponent) = 0 ∧ 0 < exponent then
    some (sign * (fraction / 2 ^ (150 - exponent) : Nat))
  else none

def isNaN (bits : CFloat) : Bool := 0x7f800000 < bits.toNat % 2 ^ 31

/-- A number keeps no trace of having been a float; there is one `NaN`. -/
def ofFloat (bits : CFloat) : JsValue :=
  match integral? bits with
  | some v => .int v
  | none => if isNaN bits then .float 0x7fc00000 else .float bits

def readFloatBE (buf : Bytes) (pos : Int) : Option JsValue :=
  (Cursor.read buf pos 4).map fun bytes => ofFloat (UInt32.ofNat (ofBigEndian bytes))

/-- One byte in ASCII: the high bit is dropped. -/
def asciiChar (b : UInt8) : Char := Char.ofNat (b.toNat % 128)

/-- `buf.toString("ascii", start, end)`. -/
def toAscii (buf : Bytes) (start stop : Int) : CString :=
  (Cursor.slice buf start stop).map asciiChar

/-- An integer as a double: 53 bits of it, and the rest rounded to the even neighbour if it is half
of the last. -/
def toDouble (n : Int) : Int :=
  let unit := 2 ^ (n.natAbs.log2 + 1 - 53)
  let low := n.natAbs / unit
  let rest := n.natAbs % unit
  let rounded := if 2 * rest > unit ∨ (2 * rest = unit ∧ low % 2 = 1) then low + 1 else low
  n.sign * (rounded * unit : Nat)

/-- A property is set; `__proto__` takes nothing but objects. -/
def setAttr (attr : CString → Option JsValue) (a : CString × JsValue) : CString → Option JsValue :=
  if a.1 = "__proto__".toList then attr else Function.update attr a.1 (some a.2)

/-- A value of a type, and the offset behind it. -/
def decodeVal (buf : Bytes) (pos attrValType : Int) : Option (JsValue × Int) :=
  if attrValType = 0 then do return (.int (← readInt32BE buf pos), pos + 4)
  else if attrValType = 1 then do return (← readFloatBE buf pos, pos + 4)
  else if attrValType = 2 then do return (.bool ((← readInt8 buf pos) == 1), pos + 1)
  else do
    let attrValLen ← readInt32BE buf pos
    let pos := pos + 4
    return (.string (toAscii buf pos (pos + attrValLen)), pos + attrValLen)

/-- Name and value of an attribute, and the offset behind it. -/
def decodeAttr (buf : Bytes) (pos : Int) : Option ((CString × JsValue) × Int) := do
  let attrNameLen ← readInt32BE buf pos
  let pos := pos + 4
  let attrName := toAscii buf pos (pos + attrNameLen)
  let pos := pos + attrNameLen
  let attrValType ← readInt8 buf pos
  let (attrVal, pos) ← decodeVal buf (pos + 1) attrValType
  return ((attrName, attrVal), pos)

def decodeAttrs (buf : Bytes) : Nat → Int → (CString → Option JsValue) →
    Option (CString → Option JsValue)
  | 0, _, attr => some attr
  | n + 1, pos, attr => do
    let (a, pos) ← decodeAttr buf pos
    decodeAttrs buf n pos (setAttr attr a)

/-- The length at `pos` is skipped. -/
def decodeEvt (buf : Bytes) (pos : Int) : Option Evt := do
  let pos := pos + 4
  let type ← readInt32BE buf pos
  let pos := pos + 4
  let high ← readInt32BE buf pos
  let pos := pos + 4
  let low ← readUInt32BE buf pos
  let pos := pos + 4
  let nAttr ← readInt32BE buf pos
  let attr ← decodeAttrs buf nAttr.toNat (pos + 4) fun _ => none
  return { evtType := type, timeStamp := toDouble (high * POW32 + low), attr }

/-- For another packet than a publication the result is `undefined`, here `some none`. -/
def parseEvtPkt (buf : Bytes) : Option (Option Evt) := do
  if (← readInt8 buf 0) ≠ 0 then return none
  else return some (← decodeEvt buf 1)

/-- The handler of `data`: what is emitted for the buffers that arrive. -/
def emit : List Bytes → Option (List (Option Evt))
  | [] => some []
  | data :: later => do return (← parseEvtPkt data) :: (← emit later)

end TRex.Js
