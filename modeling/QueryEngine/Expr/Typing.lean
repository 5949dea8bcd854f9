import QueryEngine.Error

/-! The type of an expression over an input of given column types.

A column reference carries the type it was bound with and is checked against the
input. Calls resolve too, wherever they stand; where they may stand is for the
compiler of plans to say. -/
namespace QueryEngine

/-- The casts that exist: every type from NULL and to itself; BOOLEAN, numbers and
VARCHAR among each other; DATE and VARCHAR, INTEGER or BIGINT both ways. -/
def SqlType.canCast (source target : SqlType) : Bool :=
  if source = target ∨ source = .sqlNull then true
  else
    let plain (t : SqlType) : Bool := t.isNumeric || t = .boolean || t = .varchar
    let dated (t : SqlType) : Bool := t = .varchar || t = .integer || t = .bigInt
    plain source && plain target || source = .date && dated target || target = .date && dated source

/-- The result type for an argument type, `none` for a call without argument. -/
def AggregateFunction.returnType (f : AggregateFunction) : Option SqlType → Except QueryError SqlType
  | none =>
    match f with
    | .countStar => .ok .bigInt
    | f => .error (.invalidPlan (.missingArgument f))
  | some t =>
    match f with
    | .countStar => .error (.invalidPlan .countStarArgument)
    | .count => .ok .bigInt
    | .sum =>
      if t.isIntegral then .ok .bigInt
      else if t = .double then .ok .double
      else .error (.type (.undefinedAggregate f t))
    | .avg => if t.isNumeric then .ok .double else .error (.type (.undefinedAggregate f t))
    | .min | .max => .ok t

namespace Expr

def binaryType (l : SqlType) (op : BinaryOp) (r : SqlType) : Except QueryError SqlType :=
  let mismatch := QueryError.type (.operands op l r)
  match op with
  | .logic _ =>
    if (l = .boolean ∨ l = .sqlNull) ∧ (r = .boolean ∨ r = .sqlNull) then .ok .boolean else .error mismatch
  | .comparison _ => if (SqlType.common? l r).isSome then .ok .boolean else .error mismatch
  | .arithmetic _ =>
    match SqlType.common? l r with
    | some t => if t = .sqlNull ∨ t.isNumeric then .ok t else .error mismatch
    | none => .error mismatch

def unaryType (op : UnaryOp) (t : SqlType) : Except QueryError SqlType :=
  match op with
  | .isNull | .isNotNull => .ok .boolean
  | .not => if t = .boolean ∨ t = .sqlNull then .ok .boolean else .error (.type (.notOperand t))
  | .negate => if t.isNumeric then .ok t else .error (.type (.negated t))

def castType (source target : SqlType) : Except QueryError SqlType :=
  if source.canCast target then .ok target else .error (.type (.cast source target))

def columnType (input : List SqlType) (index : Nat) (bound : SqlType) : Except QueryError SqlType :=
  match input[index]? with
  | none => .error (.invalidPlan (.inputColumn index input.length))
  | some actual =>
    if actual = bound then .ok bound else .error (.type (.boundColumn index actual bound))

/-- The type of an aggregate call whose arguments have these types. -/
def callType (f : AggregateFunction) : List (Except QueryError SqlType) → Except QueryError SqlType
  | [] => f.returnType none
  | [t] => do f.returnType (some (← t))
  | _ => .error (.invalidPlan (.manyArguments f))

def windowType (f : WindowFunction) (args : List (Except QueryError SqlType)) : Except QueryError SqlType :=
  match f with
  | .aggregate f => callType f args
  | f => if args.isEmpty then .ok .bigInt else .error (.invalidPlan (.windowArgument f))

/-- The first error of a list of results. -/
def allResolve : List (Except QueryError SqlType) → Except QueryError Unit
  | [] => .ok ()
  | t :: ts => do
    let _ ← t
    allResolve ts

end Expr

mutual

/-- The type of an expression over columns of types `input`. -/
def Expr.resolve (input : List SqlType) : Expr → Except QueryError SqlType
  | .column i t => Expr.columnType input i t
  | .literal v => .ok v.type
  | .binary l op r => do
    let lt ← l.resolve input
    let rt ← r.resolve input
    Expr.binaryType lt op rt
  | .unary op e => do Expr.unaryType op (← e.resolve input)
  | .cast e t => do Expr.castType (← e.resolve input) t
  | .aggregate f args => Expr.callType f (Expr.resolveEach input args)
  | .window f args partitions orders => do
    Expr.allResolve (Expr.resolveEach input partitions)
    Expr.allResolve (SortKey.resolveEach input orders)
    Expr.windowType f (Expr.resolveEach input args)

def Expr.resolveEach (input : List SqlType) : List Expr → List (Except QueryError SqlType)
  | [] => []
  | e :: es => e.resolve input :: Expr.resolveEach input es

def SortKey.resolve (input : List SqlType) : SortKey → Except QueryError SqlType
  | ⟨e, _, _⟩ => e.resolve input

def SortKey.resolveEach (input : List SqlType) : List SortKey → List (Except QueryError SqlType)
  | [] => []
  | k :: ks => k.resolve input :: SortKey.resolveEach input ks

end

theorem Expr.resolveEach_eq_map (input : List SqlType) (es : List Expr) :
    Expr.resolveEach input es = es.map (Expr.resolve input) := by
  induction es with
  | nil => rfl
  | cons e es ih => rw [Expr.resolveEach, ih, List.map_cons]

theorem SortKey.resolveEach_eq_map (input : List SqlType) (ks : List SortKey) :
    SortKey.resolveEach input ks = ks.map (SortKey.resolve input) := by
  induction ks with
  | nil => rfl
  | cons k ks ih => rw [SortKey.resolveEach, ih, List.map_cons]

/-- The types of a list of expressions, or the first error. -/
def Expr.resolveAll (input : List SqlType) (es : List Expr) : Except QueryError (List SqlType) :=
  es.mapM (Expr.resolve input)

end QueryEngine
