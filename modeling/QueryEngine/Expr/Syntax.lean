import QueryEngine.Value.Scalar

/-! Bound expressions and how they are written.

Columns are referred to by position. Aggregate and window calls are expressions
too, so that a call in a place where none may stand can be named in an error. -/
namespace QueryEngine

inductive ArithmeticOp where
  | add
  | subtract
  | multiply
  | divide
  deriving DecidableEq

inductive ComparisonOp where
  | eq
  | notEq
  | lt
  | ltEq
  | gt
  | gtEq
  deriving DecidableEq

inductive LogicOp where
  | and
  | or
  deriving DecidableEq

inductive BinaryOp where
  | arithmetic (op : ArithmeticOp)
  | comparison (op : ComparisonOp)
  | logic (op : LogicOp)
  deriving DecidableEq

inductive UnaryOp where
  | not
  | negate
  | isNull
  | isNotNull
  deriving DecidableEq

inductive AggregateFunction where
  | countStar
  | count
  | sum
  | avg
  | min
  | max
  deriving DecidableEq

inductive WindowFunction where
  | rowNumber
  | rank
  | denseRank
  | aggregate (function : AggregateFunction)
  deriving DecidableEq

mutual

inductive Expr where
  | column (index : Nat) (type : SqlType)
  | literal (value : Scalar)
  | binary (left : Expr) (op : BinaryOp) (right : Expr)
  | unary (op : UnaryOp) (operand : Expr)
  | cast (operand : Expr) (type : SqlType)
  | aggregate (function : AggregateFunction) (args : List Expr)
  | window (function : WindowFunction) (args partitions : List Expr) (orders : List SortKey)

/-- A key that rows are ordered by. Where NULL stands does not depend on the
direction. -/
structure SortKey where
  expr : Expr
  descending : Bool
  nullsFirst : Bool

end

instance : Inhabited Expr := ⟨.literal .null⟩

instance : Inhabited SortKey := ⟨⟨default, false, true⟩⟩

/-! ### Written form -/

def ArithmeticOp.toText : ArithmeticOp → String
  | add => "+"
  | subtract => "-"
  | multiply => "*"
  | divide => "/"

def ComparisonOp.toText : ComparisonOp → String
  | eq => "="
  | notEq => "<>"
  | lt => "<"
  | ltEq => "<="
  | gt => ">"
  | gtEq => ">="

def LogicOp.toText : LogicOp → String
  | and => "AND"
  | or => "OR"

namespace BinaryOp

def toText : BinaryOp → String
  | arithmetic op => op.toText
  | comparison op => op.toText
  | logic op => op.toText

def isArithmetic : BinaryOp → Bool
  | arithmetic _ => true
  | _ => false

def isComparison : BinaryOp → Bool
  | comparison _ => true
  | _ => false

end BinaryOp

def UnaryOp.toText : UnaryOp → String
  | not => "NOT"
  | negate => "-"
  | isNull => "IS NULL"
  | isNotNull => "IS NOT NULL"

def AggregateFunction.toText : AggregateFunction → String
  | countStar => "COUNT_STAR"
  | count => "COUNT"
  | sum => "SUM"
  | avg => "AVG"
  | min => "MIN"
  | max => "MAX"

def WindowFunction.toText : WindowFunction → String
  | rowNumber => "ROW_NUMBER"
  | rank => "RANK"
  | denseRank => "DENSE_RANK"
  | aggregate f => f.toText

/-- Texts with a comma between them. -/
def commaList (texts : List String) : String := String.intercalate ", " texts

namespace Expr

/-- The tests for NULL stand behind their operand, the other operators before it. -/
def unaryText (op : UnaryOp) (operand : String) : String :=
  match op with
  | .isNull | .isNotNull => "(" ++ operand ++ " " ++ op.toText ++ ")"
  | .not | .negate => "(" ++ op.toText ++ " " ++ operand ++ ")"

def callText (f : AggregateFunction) (args : List String) : String :=
  match f with
  | .countStar => "COUNT(*)"
  | f => f.toText ++ "(" ++ commaList args ++ ")"

def windowText (f : WindowFunction) (args partitions orders : List String) : String :=
  let call := match f with
    | .aggregate f => callText f args
    | f => f.toText ++ "(" ++ commaList args ++ ")"
  let partitionText := if partitions.isEmpty then "" else "PARTITION BY " ++ commaList partitions
  let orderText := if orders.isEmpty then "" else "ORDER BY " ++ commaList orders
  let gap := if partitions.isEmpty || orders.isEmpty then "" else " "
  call ++ " OVER (" ++ partitionText ++ gap ++ orderText ++ ")"

end Expr

def SortKey.suffix (descending nullsFirst : Bool) : String :=
  (if descending then " DESC" else " ASC") ++ (if nullsFirst then " NULLS FIRST" else " NULLS LAST")

mutual

def Expr.toText : Expr → String
  | .column i _ => "#" ++ toString i
  | .literal v => v.toText
  | .binary l op r => "(" ++ l.toText ++ " " ++ op.toText ++ " " ++ r.toText ++ ")"
  | .unary op e => Expr.unaryText op e.toText
  | .cast e t => "CAST(" ++ e.toText ++ " AS " ++ t.toSql ++ ")"
  | .aggregate f args => Expr.callText f (Expr.toTexts args)
  | .window f args partitions orders =>
    Expr.windowText f (Expr.toTexts args) (Expr.toTexts partitions) (SortKey.toTexts orders)

def Expr.toTexts : List Expr → List String
  | [] => []
  | e :: es => e.toText :: Expr.toTexts es

def SortKey.toText : SortKey → String
  | ⟨e, descending, nullsFirst⟩ => e.toText ++ SortKey.suffix descending nullsFirst

def SortKey.toTexts : List SortKey → List String
  | [] => []
  | k :: ks => k.toText :: SortKey.toTexts ks

end

theorem Expr.toTexts_eq_map (es : List Expr) : Expr.toTexts es = es.map Expr.toText := by
  induction es with
  | nil => rfl
  | cons e es ih => rw [Expr.toTexts, ih, List.map_cons]

theorem SortKey.toTexts_eq_map (ks : List SortKey) : SortKey.toTexts ks = ks.map SortKey.toText := by
  induction ks with
  | nil => rfl
  | cons k ks ih => rw [SortKey.toTexts, ih, List.map_cons]

/-! ### Calls inside an expression -/

namespace Expr

/-- Whether an aggregate call occurs outside the arguments of other calls. -/
def containsAggregate : Expr → Bool
  | .aggregate _ _ => true
  | .binary l _ r => l.containsAggregate || r.containsAggregate
  | .unary _ e => e.containsAggregate
  | .cast e _ => e.containsAggregate
  | _ => false

mutual

/-- Whether a window call occurs, looking into the arguments of aggregate calls. -/
def containsWindow : Expr → Bool
  | .window _ _ _ _ => true
  | .binary l _ r => l.containsWindow || r.containsWindow
  | .unary _ e => e.containsWindow
  | .cast e _ => e.containsWindow
  | .aggregate _ args => anyContainsWindow args
  | _ => false

def anyContainsWindow : List Expr → Bool
  | [] => false
  | e :: es => e.containsWindow || anyContainsWindow es

end

end Expr
end QueryEngine
