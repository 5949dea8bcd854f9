import QueryEngine.Expr.Evaluate

/-! Putting rows in order.

Rows are compared key by key. Each key has its own direction and says by itself
where NULL stands. The sort is stable: rows that are equal on all keys stay in the
order they came. There is no order on a key of type NULL. -/
namespace QueryEngine

/-- An evaluated sort key: a value per row, and how values are ordered. -/
structure SortColumn where
  values : Array Scalar
  descending : Bool
  nullsFirst : Bool

namespace SortColumn

def compareValues (c : SortColumn) (a b : Scalar) : Ordering :=
  match a.isNull, b.isNull with
  | true, true => .eq
  | true, false => if c.nullsFirst then .lt else .gt
  | false, true => if c.nullsFirst then .gt else .lt
  | false, false => if c.descending then (a.compareTotal b).swap else a.compareTotal b

def compare (c : SortColumn) (a b : Nat) : Ordering :=
  c.compareValues (c.values.getD a .null) (c.values.getD b .null)

/-- The sort keys evaluated on a chunk. -/
def ofKeys (chunk : Chunk) (keys : List SortKey) : Except Failure (List SortColumn) := do
  let columns ← keys.mapM fun (k : SortKey) => k.expr.evaluate chunk
  if columns.any fun c => c.type = .sqlNull then
    throw (.error (.kernel (.unordered SqlType.sqlNull.storage)))
  return (keys.zip columns).map fun k => ⟨k.2.slots.toArray, k.1.descending, k.1.nullsFirst⟩

end SortColumn

namespace Rows

/-- Compares two rows key by key. -/
def compare : List SortColumn → Nat → Nat → Ordering
  | [], _, _ => .eq
  | c :: cs, a, b => (c.compare a b).then (compare cs a b)

/-- The rows in order. With two rows or more each is looked at, so that a row outside
the keys crashes. -/
def sort (columns : List SortColumn) (rows : List Nat) : Except Failure (List Nat) :=
  if 2 ≤ rows.length ∧ columns.any fun c => rows.any (c.values.size ≤ ·) then .error .crash
  else .ok (rows.mergeSort fun a b => (compare columns a b).isLE)

/-- All rows of some columns in order; without keys they stay as they are. -/
def sortColumns (keys : List SortKey) (columns : List Column) : Except Failure (List Column) := do
  if keys.isEmpty then return columns
  let input ← Chunk.ofColumns columns
  let rows ← sort (← SortColumn.ofKeys input keys) (List.range input.count)
  columns.mapM fun (c : Column) => c.gather rows

end Rows
end QueryEngine
