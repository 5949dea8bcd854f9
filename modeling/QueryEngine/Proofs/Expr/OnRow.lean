import QueryEngine.Expr.Arithmetic
import QueryEngine.Proofs.Result
import QueryEngine.Proofs.Value.Datum

/-! Evaluating expressions on one row.

A row is all that a value can depend on: no chunk, no selection and no neighbouring
row is in sight here. Operands keep their types, so that NULL of a type is brought
to the same common type as any other value of it. -/
namespace QueryEngine

namespace Datum

/-- The truth value; one of type NULL is unknown. -/
def toBoolean (d : Datum) : Except QueryError (Option Bool) :=
  match d.type with
  | .boolean => .ok (match d.value with
    | .boolean b => some b
    | _ => none)
  | .sqlNull => .ok none
  | t => .error (.type (.booleanOperand t.storage))

theorem toBoolean_of_boolean {d : Datum} (h : d.type = .boolean) :
    d.toBoolean = .ok (match d.value with
      | .boolean b => some b
      | _ => none) := by
  unfold toBoolean
  simp only [h]

/-- The value brought to the common type of an operation. -/
def widen (t : SqlType) (d : Datum) : Scalar := if d.type = t then d.value else (Cast.widen t d.value).val

def logic (op : LogicOp) (l r : Datum) : Except QueryError Datum := do
  return ofBoolean (op.apply (← l.toBoolean) (← r.toBoolean))

def comparison (op : ComparisonOp) (l r : Datum) : Except QueryError Datum :=
  match SqlType.common? l.type r.type with
  | none => .error (.type (.uncoercible l.type r.type))
  | some .sqlNull => .ok (null .boolean)
  | some t => .ok (ofBoolean (op.apply (l.widen t) (r.widen t)))

/-- The outcome of an operation on slots. -/
def ofResult {t : SqlType} : Except ExecutionError (Slot t) → Except QueryError Datum
  | .ok s => .ok (ofSlot s)
  | .error e => .error (.execution e)

def arithmetic (op : ArithmeticOp) (l r : Datum) : Except QueryError Datum :=
  match SqlType.common? l.type r.type with
  | none => .error (.type (.uncoercible l.type r.type))
  | some t =>
    if t = .sqlNull then .ok (null .sqlNull)
    else if t.isNumeric then ofResult (op.apply t (l.widen t) (r.widen t))
    else .error (.type (.arithmetic op t))

def binary (op : BinaryOp) (l r : Datum) : Except QueryError Datum :=
  match op with
  | .logic op => logic op l r
  | .comparison op => comparison op l r
  | .arithmetic op => arithmetic op l r

def negate (d : Datum) : Except QueryError Datum :=
  if d.type = .sqlNull then .ok d
  else if d.type.isNumeric then ofResult (d.value.negate d.type)
  else .error (.execution (.negationType d.type.storage))

def unary (op : UnaryOp) (d : Datum) : Except QueryError Datum :=
  match op with
  | .not => do return ofBoolean ((← d.toBoolean).map fun b => !b)
  | .negate => d.negate
  | .isNull => .ok (ofBoolean (some d.value.isNull))
  | .isNotNull => .ok (ofBoolean (some !d.value.isNull))

def cast (t : SqlType) (d : Datum) : Except QueryError Datum :=
  if d.type = t then .ok d
  else if d.type.canCast t then (Cast.slot t d.value).map ofSlot
  else .error (.kernel (.cast d.type.storage t.storage))

end Datum

namespace Expr

/-- The value of an expression on a row. -/
def onRow (row : Row) : Expr → Except QueryError Datum
  | .column i _ =>
    match row[i]? with
    | some d => .ok d
    | none => .error (.invalidPlan (.chunkColumn i row.length))
  | .literal v => .ok ⟨v.type, v⟩
  | .binary l op r => do
    let l ← l.onRow row
    let r ← r.onRow row
    Datum.binary op l r
  | .unary op e => do Datum.unary op (← e.onRow row)
  | .cast e t => do Datum.cast t (← e.onRow row)
  | .aggregate f args => .error (.internal (.aggregateOutside (.aggregate f args)))
  | .window f args partitions orders => .error (.internal (.windowOutside (.window f args partitions orders)))

/-- No call anywhere in an expression. -/
def isPlain : Expr → Bool
  | .column _ _ | .literal _ => true
  | .binary l _ r => l.isPlain && r.isPlain
  | .unary _ e | .cast e _ => e.isPlain
  | .aggregate _ _ | .window _ _ _ _ => false

/-- What the compiler asks of an expression is that it has no call. -/
theorem isPlain_eq (e : Expr) : e.isPlain = !(e.containsAggregate || e.containsWindow) := by
  fun_induction isPlain e with
  | case1 | case2 => rfl
  | case3 l _ r hl hr =>
    rw [hl, hr, containsAggregate, containsWindow]
    cases l.containsAggregate <;> cases r.containsAggregate <;> cases l.containsWindow <;> rfl
  | case4 _ e he => rw [he, containsAggregate, containsWindow]
  | case5 e _ he => rw [he, containsAggregate, containsWindow]
  | case6 => rfl
  | case7 => simp [containsAggregate, containsWindow]

end Expr
end QueryEngine
