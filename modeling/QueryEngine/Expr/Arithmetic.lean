import QueryEngine.Expr.Cast

/-! Operators on slots.

Arithmetic on integers is checked: a result outside the type's range is an error.
Division truncates, and a zero divisor gives NULL instead of an error; `-0.0` is
not zero. Truth values follow Kleene's logic, NULL being unknown. -/
namespace QueryEngine

/-- Zero of a numeric type. -/
def SqlType.zero : SqlType → Except QueryError Scalar
  | .tinyInt => .ok (.tinyInt 0)
  | .smallInt => .ok (.smallInt 0)
  | .integer => .ok (.integer 0)
  | .bigInt => .ok (.bigInt 0)
  | .double => .ok (.double Double.zero)
  | t => .error (.type (.notNumeric t))

def Scalar.isZero : Scalar → Bool
  | .double d => d = Double.zero
  | v => v.toInt64? = some 0

namespace ArithmeticOp

def onInts : ArithmeticOp → Int → Int → Int
  | add => (· + ·)
  | subtract => (· - ·)
  | multiply => (· * ·)
  | divide => Int.tdiv

def onDoubles : ArithmeticOp → Double → Double → Double
  | add => Double.add
  | subtract => Double.sub
  | multiply => Double.mul
  | divide => Double.div

/-- The operation on two values of the numeric type `t`, or NULL if one is NULL. -/
def apply (op : ArithmeticOp) (t : SqlType) (l r : Scalar) : Except ExecutionError (Slot t) :=
  if op = divide ∧ r.isZero then .ok (Slot.null t)
  else
    match l, r with
    | .double a, .double b => .ok (Slot.ofScalar t (.double (op.onDoubles a b)))
    | l, r =>
      match l.toInt64?, r.toInt64? with
      | some a, some b =>
        match Scalar.ofInt? t (op.onInts a.toInt b.toInt) with
        | some v => .ok (Slot.ofScalar t v)
        | none => .error (.overflow op l r)
      | _, _ => .ok (Slot.null t)

end ArithmeticOp

/-- The negative of a value of the numeric type `t`. -/
def Scalar.negate (t : SqlType) (v : Scalar) : Except ExecutionError (Slot t) :=
  match v with
  | .double d => .ok (Slot.ofScalar t (.double d.neg))
  | v =>
    match v.toInt64? with
    | none => .ok (Slot.null t)
    | some i =>
      match Scalar.ofInt? t (-i.toInt) with
      | some v => .ok (Slot.ofScalar t v)
      | none => .error (.negationOverflow v)

def ComparisonOp.accepts : ComparisonOp → Ordering → Bool
  | eq, o => o.isEq
  | notEq, o => o.isNe
  | lt, o => o.isLT
  | ltEq, o => o.isLE
  | gt, o => o.isGT
  | gtEq, o => o.isGE

/-- Compares two values of one type; NULL compares as unknown. -/
def ComparisonOp.apply (op : ComparisonOp) (l r : Scalar) : Option Bool :=
  if l.isNull || r.isNull then none else some (op.accepts (l.compareTotal r))

def LogicOp.apply : LogicOp → Option Bool → Option Bool → Option Bool
  | and, some false, _ => some false
  | and, _, some false => some false
  | and, some true, some true => some true
  | or, some true, _ => some true
  | or, _, some true => some true
  | or, some false, some false => some false
  | _, _, _ => none

end QueryEngine
