import QueryEngine.Expr.Evaluate
import QueryEngine.Key.Map

/-! The right side of a join, hashed.

Its rows are indexed by their keys. A row with a NULL in its key is in no entry, but
that there was one is remembered for mark joins. -/
namespace QueryEngine

structure JoinSide where
  columns : List Column
  rows : Nat
  index : KeyMap (List Nat)
  hasNull : Bool

namespace JoinSide

/-- Adds a row under its key. -/
def addRow (s : JoinSide) (row : Nat) : Option Key → JoinSide
  | some k => { s with index := s.index.addRow k row }
  | none => { s with hasNull := true }

/-- Indexes `count` rows by the values of `keys`. -/
def ofColumns (keys : List Expr) (columns : List Column) (count : Nat) : Except Failure JoinSide := do
  let side : JoinSide := ⟨columns, count, .empty, false⟩
  if count = 0 then return side
  let input ← Chunk.ofColumns columns
  let keyColumns ← keys.mapM (Expr.evaluate (input.setCount count))
  (List.range count).foldlM (fun s row => do return s.addRow row (← Key.joining? keyColumns row)) side

/-- The bytes that the index of a side with rows is accounted for. -/
def bytes (s : JoinSide) (keys : Nat) : Nat :=
  if s.rows = 0 then 0 else s.index.size * (48 + 24 * keys) + 4 * s.rows

/-- The rows that match a row of the left side; none if its key has a NULL. -/
def matches? (s : JoinSide) (keyColumns : List Column) (row : Nat) : Except QueryError (Option (List Nat)) := do
  return (← Key.joining? keyColumns row).bind s.index.get?

end JoinSide
end QueryEngine
