import QueryEngine.Chunk.Basic
import QueryEngine.Expr.Arithmetic

/-! Evaluating expressions over the rows of a chunk.

A result has one slot per physical row, so that it lines up with the columns and
the selection stays valid for it. Arithmetic and casts, which can fail on data,
first put NULL into the hidden rows: what a selection hides raises no error. The
columns of a chunk that was not verified may differ in length; an operator refuses
operands of different lengths. -/
namespace QueryEngine

namespace Column

/-- The slots as truth values; a column of type NULL is all unknown. -/
def toBooleans (c : Column) : Except QueryError (List (Option Bool)) :=
  match c.type with
  | .boolean => .ok (c.slots.map fun
    | .boolean b => some b
    | _ => none)
  | .sqlNull => .ok (c.slots.map fun _ => none)
  | t => .error (.type (.booleanOperand t.storage))

/-- Both columns brought to their common type. -/
def coerce (l r : Column) : Except QueryError (SqlType × Column × Column) :=
  match SqlType.common? l.type r.type with
  | some t => .ok (t, l.widen t, r.widen t)
  | none => .error (.type (.uncoercible l.type r.type))

/-- NULL in every slot that a chunk hides. -/
def masked (c : Column) (chunk : Chunk) : Except Failure Column :=
  match chunk.selection with
  | some s => c.keepOnly s
  | none => .ok c

end Column

namespace Evaluate

/-- The first error of two lists of operands, or all results. -/
def zipOperands {t : SqlType} (f : Scalar → Scalar → Except ExecutionError (Slot t)) (l r : Column) :
    Except Failure Column :=
  match (l.slots.zip r.slots).mapM fun v => f v.1 v.2 with
  | .ok slots => .ok (Column.ofSlots t slots)
  | .error e => .error (.error (.execution e))

def logic (op : LogicOp) (l r : Column) : Except Failure Column := do
  let ls ← l.toBooleans
  let rs ← r.toBooleans
  if l.size ≠ r.size then throw (.error (.kernel .logicLengths))
  return Column.ofBooleans (List.zipWith op.apply ls rs)

def comparison (op : ComparisonOp) (l r : Column) : Except Failure Column := do
  let (t, l', r') ← l.coerce r
  if t = .sqlNull then return Column.nulls .boolean l.size
  if l.size ≠ r.size then throw (.error (.kernel (.comparedLengths l.size r.size)))
  return Column.ofBooleans (List.zipWith op.apply l'.slots r'.slots)

def arithmetic (chunk : Chunk) (op : ArithmeticOp) (l r : Column) : Except Failure Column := do
  let (t, l', r') ← l.coerce r
  if t = .sqlNull then return Column.nulls .sqlNull l.size
  if !t.isNumeric then throw (.error (.type (.arithmetic op t)))
  let l' ← l'.masked chunk
  let r' ← r'.masked chunk
  if l.size ≠ r.size then throw (.error (.execution (.operandLengths op t)))
  zipOperands (op.apply t) l' r'

def binary (chunk : Chunk) (op : BinaryOp) (l r : Column) : Except Failure Column :=
  match op with
  | .logic op => logic op l r
  | .comparison op => comparison op l r
  | .arithmetic op => arithmetic chunk op l r

def negate (chunk : Chunk) (c : Column) : Except Failure Column := do
  if c.type = .sqlNull then return c
  let c ← c.masked chunk
  if !c.type.isNumeric then throw (.error (.execution (.negationType c.type.storage)))
  match c.slots.mapM (Scalar.negate c.type) with
  | .ok slots => return Column.ofSlots c.type slots
  | .error e => throw (.error (.execution e))

def unary (chunk : Chunk) (op : UnaryOp) (c : Column) : Except Failure Column :=
  match op with
  | .not => do return Column.ofBooleans ((← c.toBooleans).map fun b => b.map (!·))
  | .negate => negate chunk c
  | .isNull => .ok (Column.ofBooleans (c.slots.map fun v => some v.isNull))
  | .isNotNull => .ok (Column.ofBooleans (c.slots.map fun v => some !v.isNull))

def cast (chunk : Chunk) (t : SqlType) (c : Column) : Except Failure Column := do
  if c.type = t then return c
  (← c.masked chunk).cast t

end Evaluate

namespace Expr

/-- The value of an expression on every physical row of a chunk. -/
def evaluate (chunk : Chunk) : Expr → Except Failure Column
  | .column i _ =>
    match chunk.columns[i]? with
    | some found => .ok found
    | none => .error (.error (.invalidPlan (.chunkColumn i chunk.columns.length)))
  | .literal v => .ok (Column.fill chunk.physicalRows ⟨v, v.fits_type⟩)
  | .binary l op r => do
    let l ← l.evaluate chunk
    let r ← r.evaluate chunk
    Evaluate.binary chunk op l r
  | .unary op e => do Evaluate.unary chunk op (← e.evaluate chunk)
  | .cast e t => do Evaluate.cast chunk t (← e.evaluate chunk)
  | .aggregate f args => .error (.error (.internal (.aggregateOutside (.aggregate f args))))
  | .window f args partitions orders =>
    .error (.error (.internal (.windowOutside (.window f args partitions orders))))

/-- The value of an expression on every active row. -/
def evaluateActive (chunk : Chunk) (e : Expr) : Except Failure Column := do
  let result ← e.evaluate chunk
  match chunk.selection with
  | some s => result.gather s
  | none => return result

/-- The active rows on which a predicate is TRUE. -/
def selectRows (chunk : Chunk) (predicate : Expr) : Except Failure Selection := do
  let truths ← (← predicate.evaluate chunk).toBooleans
  if chunk.activeWithin truths.length then
    let truths := truths.toArray
    return chunk.activeRows.filter fun row => truths.getD row none = some true
  else
    throw .crash

end Expr
end QueryEngine
