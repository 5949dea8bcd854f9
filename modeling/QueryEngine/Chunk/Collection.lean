import QueryEngine.Chunk.Basic

/-! Collections: the active rows of many chunks of one list of types.

Operators that see their whole input before they answer buffer it in one, and so
does the result of a query. -/
namespace QueryEngine

structure Collection where
  types : List SqlType
  chunks : List Chunk
  count : Nat

namespace Collection

def ofTypes (types : List SqlType) : Collection := ⟨types, [], 0⟩

def isEmpty (c : Collection) : Bool := c.count = 0

/-- The bytes that the columns of a chunk are accounted for. -/
def chunkBytes (chunk : Chunk) : Nat := total (chunk.columns.map Column.bytes)

def bytes (c : Collection) : Nat := total (c.chunks.map chunkBytes)

/-- Appends the active rows of a chunk and tells the bytes now held for them. A
chunk without rows is skipped; a collection that has neither types nor chunks
takes the types of the first chunk that has rows. -/
def append (c : Collection) (chunk : Chunk) : Except Failure (Collection × Nat) := do
  if chunk.isEmpty then return (c, 0)
  let types := if c.chunks.isEmpty && c.types.isEmpty then chunk.types else c.types
  if chunk.types ≠ types then
    throw (.error (.internal (.appendedTypes chunk.types types)))
  let flat ← chunk.flatten
  return (⟨types, c.chunks ++ [flat], ← addCounts c.count flat.count⟩, chunkBytes flat)

/-- Column `index` of a chunk; a chunk that has no such column crashes. -/
def chunkColumn (index : Nat) (chunk : Chunk) : Except Failure Column :=
  match chunk.columns[index]? with
  | some column => .ok column
  | none => .error .crash

/-- One column per type, holding all rows. -/
def materialize (c : Collection) : Except Failure (List Column) :=
  c.types.zipIdx.mapM fun field => do
    Column.concat field.1 (← c.chunks.mapM (chunkColumn field.2))

/-- The value in column `index` of the row at position `row`, where `total` rows
are looked at in all. -/
def lookup (total index row : Nat) : List Chunk → Nat → Except Failure Scalar
  | [], _ => .error (.error (.internal (.rowOfCollection row total)))
  | chunk :: rest, remaining => do
    if remaining < chunk.count then
      return ← (← chunkColumn index chunk).get remaining
    lookup total index row rest (remaining - chunk.count)

def get (c : Collection) (index row : Nat) : Except Failure Scalar := lookup c.count index row c.chunks row

/-- All values of column `index`. -/
def values (c : Collection) (index : Nat) : Except Failure (List Scalar) := do
  let parts ← c.chunks.mapM fun (chunk : Chunk) => do
    let column ← chunkColumn index chunk
    (List.range chunk.count).mapM fun row => (liftM (column.get row) : Except Failure Scalar)
  return parts.flatten

end Collection
end QueryEngine
