import QueryEngine.Expr.Arithmetic

/-! Aggregates: calls, and the running state of one call over one group.

NULL arguments do not count. Integer sums are exact and fail when they leave 64
bits; sums of doubles and averages are folds from the left, in the order the
values arrive. -/
namespace QueryEngine

/-- An aggregate call with the type it was resolved to. -/
structure AggregateCall where
  function : AggregateFunction
  argument : Option Expr
  type : SqlType

namespace AggregateCall

def ofExpr (input : List SqlType) (e : Expr) : Except QueryError AggregateCall :=
  match e with
  | .aggregate f args => do return ⟨f, args.head?, ← e.resolve input⟩
  | e => .error (.invalidPlan (.notAggregateCall e))

def toText (a : AggregateCall) : String :=
  match a.argument with
  | some e => a.function.toText ++ "(" ++ e.toText ++ ")"
  | none => "COUNT(*)"

end AggregateCall

/-- What an aggregate remembers of the values so far. -/
structure Accumulator where
  function : AggregateFunction
  type : SqlType
  count : Nat
  intSum : Int
  doubleSum : Double
  extreme : Scalar
  deriving DecidableEq

namespace Accumulator

def start (function : AggregateFunction) (type : SqlType) : Accumulator :=
  ⟨function, type, 0, 0, Double.zero, .null⟩

/-- Whether a sum is kept as an integer. -/
def sumsInts (a : Accumulator) : Bool := a.function = .sum && a.type = .bigInt

/-- Adds a value that is not NULL. -/
def add (a : Accumulator) (v : Scalar) : Except QueryError Accumulator :=
  let a := { a with count := a.count + 1 }
  match a.function with
  | .countStar | .count => .ok a
  | .sum | .avg =>
    if a.sumsInts then
      let sum := a.intSum + (v.toInt64?.getD 0).toInt
      if -0x8000000000000000 ≤ sum ∧ sum ≤ 0x7fffffffffffffff then .ok { a with intSum := sum }
      else .error (.execution .sumOverflow)
    else
      .ok { a with doubleSum := a.doubleSum.add (v.toDouble?.getD Double.zero) }
  | .min => .ok (if a.extreme.isNull || (v.compare a.extreme).isLT then { a with extreme := v } else a)
  | .max => .ok (if a.extreme.isNull || (v.compare a.extreme).isGT then { a with extreme := v } else a)

/-- Takes the argument of one row; `none` is a row of `COUNT(*)`. -/
def update (a : Accumulator) : Option Scalar → Except QueryError Accumulator
  | none => .ok { a with count := a.count + 1 }
  | some v => if v.isNull then .ok a else a.add v

/-- The aggregate of the values so far. All but the counts are NULL over no values. -/
def value (a : Accumulator) : Scalar :=
  match a.function with
  | .countStar | .count => .bigInt (Int64.ofNat a.count)
  | f =>
    if a.count = 0 then .null
    else
      match f with
      | .sum => if a.sumsInts then .bigInt (Int64.ofInt a.intSum) else .double a.doubleSum
      | .avg => .double (a.doubleSum.div (Double.ofInt64 (Int64.ofNat a.count)))
      | _ => a.extreme

end Accumulator
end QueryEngine
