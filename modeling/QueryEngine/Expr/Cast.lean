import QueryEngine.Calendar.Reading
import QueryEngine.Expr.Typing
import QueryEngine.Value.Column

/-! Casting values.

NULL casts to NULL of any type. A number that does not fit its target, a text that
does not read as one, or a date without a written form fails; the other casts that
`SqlType.canCast` lists always succeed. -/
namespace QueryEngine

/-- An integer as a value of an integral type, if it is in its range. -/
def Scalar.ofInt? (t : SqlType) (i : Int) : Option Scalar :=
  let ranged (low high : Int) (v : Scalar) : Option Scalar := if low ≤ i ∧ i ≤ high then some v else none
  match t with
  | .tinyInt => ranged (-0x80) 0x7f (.tinyInt (Int8.ofInt i))
  | .smallInt => ranged (-0x8000) 0x7fff (.smallInt (Int16.ofInt i))
  | .integer => ranged (-0x80000000) 0x7fffffff (.integer (Int32.ofInt i))
  | .bigInt => ranged (-0x8000000000000000) 0x7fffffffffffffff (.bigInt (Int64.ofInt i))
  | _ => none

/-- `v` if it fits the type, else NULL. -/
def Slot.ofScalar (t : SqlType) (v : Scalar) : Slot t := if h : v.Fits t then ⟨v, h⟩ else null t

namespace Cast

/-- An optional sign and decimal digits. -/
def intOfText? (s : String) : Option Int :=
  let (minus, digits) := Double.splitSign s.toList
  if !digits.isEmpty && digits.all Char.isDigit then
    let n := digits.foldl (fun n c => 10 * n + (c.toNat - '0'.toNat)) 0
    some (if minus then -(n : Int) else n)
  else none

/-- The ways to write a truth value, blanks around it and any case allowed. -/
def booleanOfText? (s : String) : Option Bool :=
  let word := String.ofList (Text.trim (s.toList.map Char.toLower))
  if word ∈ ["t", "tr", "tru", "true", "y", "ye", "yes", "on", "1"] then some true
  else if word ∈ ["f", "fa", "fal", "fals", "false", "n", "no", "of", "off", "0"] then some false
  else none

def toBoolean? : Scalar → Option Bool
  | .boolean b => some b
  | .double d => some (d.magnitude ≠ 0)
  | .varchar s => booleanOfText? s
  | v => v.toInt64?.map fun i => i ≠ 0

def toInt? : Scalar → Option Int
  | .boolean b => some (if b then 1 else 0)
  | .double d => d.truncate
  | .varchar s => intOfText? s
  | .date days => some days.toInt
  | v => v.toInt64?.map Int64.toInt

def toDouble? : Scalar → Option Double
  | .boolean b => some (Double.ofInt64 (if b then 1 else 0))
  | .varchar s => Double.ofText? s
  | v => v.toDouble?

def toDays? : Scalar → Option Int
  | .varchar s => CivilDate.daysOfText? s
  | v => v.toInt64?.map Int64.toInt

/-- A value as text, without the quotes and marks of its written form. -/
def toVarchar : Scalar → Except QueryError String
  | .varchar s => .ok s
  | .double d => .ok d.toVarchar
  | .date days =>
    let date := CivilDate.ofDays days.toInt
    if date.isWritable then .ok date.toText else .error (.kernel (.unwritableDate days.toInt))
  | v => .ok v.toText

/-- A value cast to a type that its own can be cast to. -/
def value (t : SqlType) (v : Scalar) : Except QueryError Scalar :=
  let orFail (r : Option Scalar) : Except QueryError Scalar :=
    match r with
    | some w => .ok w
    | none => .error (.execution (.cast v t))
  if v.isNull then .ok .null
  else
    match t with
    | .sqlNull => orFail none
    | .boolean => orFail ((toBoolean? v).map .boolean)
    | .tinyInt | .smallInt | .integer | .bigInt => orFail ((toInt? v).bind (Scalar.ofInt? t))
    | .double => orFail ((toDouble? v).map .double)
    | .varchar => (toVarchar v).map .varchar
    | .date =>
      orFail ((toDays? v).bind fun i => (Scalar.ofInt? .integer i).map fun _ => .date (Int32.ofInt i))

def slot (t : SqlType) (v : Scalar) : Except QueryError (Slot t) := (value t v).map (Slot.ofScalar t)

/-- A value brought to a wider type. -/
def widen (t : SqlType) (v : Scalar) : Slot t :=
  match slot t v with
  | .ok s => s
  | .error _ => Slot.null t

end Cast

namespace Column

/-- Every slot cast; the error is that of the first slot that cannot be. -/
def cast (t : SqlType) (c : Column) : Except QueryError Column :=
  if c.type.canCast t then (c.slots.mapM (Cast.slot t)).map (ofSlots t)
  else .error (.kernel (.cast c.type.storage t.storage))

/-- The column brought to the common type of an operation. -/
def widen (t : SqlType) (c : Column) : Column :=
  if c.type = t then c else ofSlots t (c.slots.map (Cast.widen t))

end Column
end QueryEngine
