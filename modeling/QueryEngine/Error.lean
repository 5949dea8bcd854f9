import QueryEngine.Expr.Syntax

/-! Why a query fails.

An error is its cause; `QueryError.message` is the one place that words it. A
failed step is one of three things: an error, a `crash` (an access outside a
column, or a row count beyond 64 bits, where no check stands), or `stalled`, the
answer of a loop that has used up its bound. -/
namespace QueryEngine

/-- A plan or an expression that does not hold together. -/
inductive PlanError where
  | inputColumn (index columns : Nat)
  | chunkColumn (index columns : Nat)
  | targetColumn (index columns : Nat)
  | sourceColumn (index columns : Nat)
  | tableColumn (table : String) (index : Nat)
  | keptInputColumns (limit columns : Nat)
  | keptChunkColumns (limit columns : Nat)
  | missingArgument (function : AggregateFunction)
  | manyArguments (function : AggregateFunction)
  | countStarArgument
  | windowArgument (function : WindowFunction)
  | childCount (node : String) (expected actual : Nat)
  | misplacedCall (context : String) (expr : Expr)
  | outputTypes (operator : String) (actual expected : List SqlType)
  | deleteInput (table : String)
  | joinWithoutCondition
  | notAggregateCall (expr : Expr)
  | notWindowCall (expr : Expr)

inductive TypeError where
  | notNumeric (type : SqlType)
  | undefinedAggregate (function : AggregateFunction) (type : SqlType)
  | boundColumn (index : Nat) (actual bound : SqlType)
  | notOperand (type : SqlType)
  | negated (type : SqlType)
  | cast (source target : SqlType)
  | operands (op : BinaryOp) (left right : SqlType)
  | predicate (expr : Expr) (type : SqlType)
  | booleanOperand (actual : StorageType)
  | uncoercible (left right : SqlType)
  | arithmetic (op : ArithmeticOp) (type : SqlType)
  | joined (left right : SqlType)

/-- Data that an operation cannot be carried out on. -/
inductive ExecutionError where
  | cast (value : Scalar) (target : SqlType)
  | overflow (op : ArithmeticOp) (left right : Scalar)
  | operandLengths (op : ArithmeticOp) (type : SqlType)
  | negationOverflow (value : Scalar)
  | negationType (type : StorageType)
  | sumOverflow
  | sink (reason : String)

inductive StorageError where
  | missingColumns (table : String)
  | noColumn (table : String) (index : Nat)
  | rowId (id : Int) (table : String)
  | columnType (table : String) (type : StorageType)
  | unevenColumns (table : String)

inductive UnsupportedType where
  | column (type : StorageType)
  | array (type : StorageType)

/-- A broken agreement between the parts of the engine. -/
inductive InternalError where
  | rowOfArray (row length : Nat)
  | valueType (value : Scalar) (type : SqlType)
  | assignedType (index : Nat) (expected actual : StorageType)
  | slice (start stop size : Nat)
  | columnLength (index actual expected : Nat)
  | flatCount (count rows : Nat)
  | selectionCount (selected count : Nat)
  | selectionRange
  | appendedTypes (chunk collection : List SqlType)
  | rowOfCollection (row count : Nat)
  | aggregateOutside (expr : Expr)
  | windowOutside (expr : Expr)
  | noChildState (child : String)
  | otherState (operator : String)
  | matchFlags (flags rows : Nat)
  | keyLength (length rows : Nat)

/-- Refusals of the routines that work on whole arrays. -/
inductive KernelError where
  | cast (source target : StorageType)
  | unwritableDate (days : Int)
  | unordered (type : StorageType)
  | concatenation
  | comparedLengths (left right : Nat)
  | logicLengths
  | unevenBatch
  | columnlessBatch

/-- A refused reservation: what was asked for, and the pool at that moment. -/
structure ReservationError where
  requested : Nat
  used : Nat
  limit : Nat

inductive FileError where
  | notFound
  | isDirectory
  | other (reason : String)

inductive QueryError where
  | invalidPlan (cause : PlanError)
  | type (cause : TypeError)
  | execution (cause : ExecutionError)
  | resourceExhausted (cause : ReservationError)
  | storage (cause : StorageError)
  | notImplemented (cause : UnsupportedType)
  | internal (cause : InternalError)
  | io (cause : FileError)
  | kernel (cause : KernelError)
  | config

inductive Failure where
  | error (error : QueryError)
  | crash
  | stalled

instance : MonadLift (Except QueryError) (Except Failure) where
  monadLift
    | .ok a => .ok a
    | .error e => .error (.error e)

instance {σ : Type} : MonadLift (Except Failure) (EStateM Failure σ) where
  monadLift
    | .ok a => pure a
    | .error e => throw e

/-! ### Wording -/

/-- Words with the texts of numbers between them. -/
private def words (parts : List String) : String := String.join parts

private def num (n : Nat) : String := toString n

def PlanError.message : PlanError → String
  | .inputColumn i n =>
    words ["column reference #", num i, " out of range for input with ", num n, " columns"]
  | .chunkColumn i n =>
    words ["column reference #", num i, " out of range for chunk with ", num n, " columns"]
  | .targetColumn i n => words ["column ", num i, " out of range for chunk with ", num n, " columns"]
  | .sourceColumn i n => words ["cannot reference column ", num i, " of a chunk with ", num n, " columns"]
  | .tableColumn t i => words ["table ", t, " has no column ", num i]
  | .keptInputColumns k n => words ["cannot keep ", num k, " columns of an input with ", num n]
  | .keptChunkColumns k n => words ["cannot keep ", num k, " columns of a chunk with ", num n]
  | .missingArgument f => f.toText ++ " takes exactly one argument"
  | .manyArguments f => f.toText ++ " takes at most one argument"
  | .countStarArgument => "COUNT(*) takes no arguments"
  | .windowArgument f => f.toText ++ " takes no arguments"
  | .childCount node n m => words [node, " expects ", num n, " children, got ", num m]
  | .misplacedCall context e =>
    words [context, " expression ", e.toText, " contains an aggregate or window function"]
  | .outputTypes operator actual expected =>
    words [operator, " produces ", SqlType.labels actual, " but the plan expects ", SqlType.labels expected]
  | .deleteInput t => words ["delete from ", t, " expects a BIGINT row id as the last input column"]
  | .joinWithoutCondition => "hash join requires at least one join condition"
  | .notAggregateCall e => e.toText ++ " is not an aggregate function call"
  | .notWindowCall e => e.toText ++ " is not a window function call"

def TypeError.message : TypeError → String
  | .notNumeric t => t.toSql ++ " is not a numeric type"
  | .undefinedAggregate f t => words [f.toText, " is not defined for ", t.toSql]
  | .boundColumn i actual bound =>
    words ["column #", num i, " is ", actual.toSql, " but was bound as ", bound.toSql]
  | .notOperand t => "NOT expects BOOLEAN, got " ++ t.toSql
  | .negated t => "cannot negate " ++ t.toSql
  | .cast source target => words ["cannot cast ", source.toSql, " to ", target.toSql]
  | .operands op l r => words ["cannot apply ", op.toText, " to ", l.toSql, " and ", r.toSql]
  | .predicate e t => words ["filter predicate ", e.toText, " has type ", t.toSql]
  | .booleanOperand actual => "expected BOOLEAN operand, got " ++ actual.name
  | .uncoercible l r => words ["Cannot coerce ", l.toSql, " and ", r.toSql]
  | .arithmetic op t => words ["cannot apply ", op.toText, " to ", t.toSql]
  | .joined l r => words ["cannot join ", l.toSql, " with ", r.toSql]

def ExecutionError.message : ExecutionError → String
  | .cast v t => words ["could not cast ", v.toText, " to ", t.toSql]
  | .overflow op l r =>
    words [op.toText, " failed: Arithmetic overflow: Overflow happened on: ", l.toText, " ", op.toText, " ",
      r.toText]
  | .operandLengths op t =>
    words [op.toText, " failed: Compute error: Cannot perform ", if t = .double then "" else "a ",
      "binary operation on arrays of different length"]
  | .negationOverflow v => "negation failed: Arithmetic overflow: Overflow happened on: - " ++ v.toText
  | .negationType t => "negation failed: Invalid argument error: Invalid arithmetic operation: !" ++ t.name
  | .sumOverflow => "integer overflow in SUM"
  | .sink reason => reason

def StorageError.message : StorageError → String
  | .missingColumns t => words ["table ", t, " returned too few columns"]
  | .noColumn t i => words ["table ", t, " has no column ", num i]
  | .rowId id t => words ["row id ", toString id, " out of range for ", t]
  | .columnType t type => words ["table ", t, " has unsupported column type ", type.name]
  | .unevenColumns t => words ["columns of table ", t, " differ in length"]

def UnsupportedType.message : UnsupportedType → String
  | .column t => "Unsupported column type " ++ t.name
  | .array t => "Unsupported physical type " ++ t.name

def InternalError.message : InternalError → String
  | .rowOfArray r n => words ["row ", num r, " out of range for array of length ", num n]
  | .valueType v t => words ["value ", v.toText, " does not have type ", t.toSql]
  | .assignedType i expected actual =>
    words ["column ", num i, " expects ", expected.name, " but got ", actual.name]
  | .slice start stop size =>
    words ["slice [", num start, ", ", num stop, ") out of range for chunk of size ", num size]
  | .columnLength i actual expected =>
    words ["column ", num i, " has ", num actual, " rows, expected ", num expected]
  | .flatCount count rows => words ["flat chunk reports ", num count, " rows but columns hold ", num rows]
  | .selectionCount selected count =>
    words ["selection of ", num selected, " rows but chunk reports ", num count]
  | .selectionRange => "selection index out of range"
  | .appendedTypes chunk collection =>
    words ["cannot append chunk of types ", SqlType.labels chunk, " to collection of types ",
      SqlType.labels collection]
  | .rowOfCollection r n => words ["row ", num r, " out of range for collection of ", num n, " rows"]
  | .aggregateOutside e =>
    words ["aggregate ", e.toText, " cannot be evaluated outside an aggregate operator"]
  | .windowOutside e =>
    words ["window function ", e.toText, " cannot be evaluated outside a window operator"]
  | .noChildState child => child ++ " has no state for its child"
  | .otherState operator => operator ++ " received a state created by another operator"
  | .matchFlags flags rows => words [num flags, " match flags for a chunk of ", num rows, " rows"]
  | .keyLength n rows =>
    words ["join key of ", num n, " rows for a chunk of ", num rows, " physical rows"]

def KernelError.message : KernelError → String
  | .cast source target =>
    words ["Cast error: Casting from ", source.name, " to ", target.name, " not supported"]
  | .unwritableDate days =>
    words ["Cast error: Failed to convert ", toString days, " to temporal for Date32"]
  | .unordered t => words ["Invalid argument error: The data type type ", t.name, " has no natural order"]
  | .concatenation =>
    "Invalid argument error: It is not possible to concatenate arrays of different data types."
  | .comparedLengths l r =>
    words ["Invalid argument error: Cannot compare arrays of different lengths, got ", num l, " vs ", num r]
  | .logicLengths => "Compute error: Cannot perform bitwise operation on arrays of different length"
  | .unevenBatch => "Invalid argument error: all columns in a record batch must have the same length"
  | .columnlessBatch =>
    "Invalid argument error: must either specify a row count or at least one column"

def ReservationError.message (e : ReservationError) : String :=
  words ["cannot reserve ", num e.requested, " bytes: ", num e.used, " of ", num e.limit, " in use"]

def FileError.message : FileError → String
  | .notFound => "No such file or directory (os error 2)"
  | .isDirectory => "Is a directory (os error 21)"
  | .other reason => reason

def QueryError.message : QueryError → String
  | .invalidPlan cause => "Invalid plan: " ++ cause.message
  | .type cause => "Type error: " ++ cause.message
  | .execution cause => "Execution error: " ++ cause.message
  | .resourceExhausted cause => "Resources exhausted: " ++ cause.message
  | .storage cause => "Storage error: " ++ cause.message
  | .notImplemented cause => "Not implemented: " ++ cause.message
  | .internal cause => "Internal error: " ++ cause.message
  | .io cause => "IO error: " ++ cause.message
  | .kernel cause => "Arrow error: " ++ cause.message
  | .config => "Config error: not a configuration"

end QueryEngine
