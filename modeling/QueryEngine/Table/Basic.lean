import QueryEngine.Chunk.Batch

/-! Tables: named columns of one length, and which of their rows are deleted.

The columns never change. Which rows are deleted is kept apart from them, in a
mask that every reader and every delete is handed. A window is read at any offset
and of any length, cut to the rows there are (`window`). -/
namespace QueryEngine

structure Table where
  name : String
  columns : List Column
  rows : Nat
  even : ∀ c ∈ columns, c.size = rows

/-- For each row of a table whether it is deleted. -/
abbrev Mask := List Bool

/-- Some rows of a table: the columns asked for, and the rows of the window that are
not deleted, or `none` when no row is. -/
structure TableWindow where
  columns : List Column
  visible : Option Selection
  deriving DecidableEq

namespace Mask

/-- A mask without deleted rows. -/
def allLive (rows : Nat) : Mask := List.replicate rows false

def live (m : Mask) : Nat := m.count false

/-- The rows that are not deleted, from row `offset` on, as positions from there; `none`
when there is no deleted row. -/
def visible (m : Mask) (offset len : Nat) : Option Selection :=
  let window := (m.drop offset).take len
  if window.contains true then some ((window.zipIdx.filter fun row => !row.1).map Prod.snd) else none

end Mask

namespace Table

def types (t : Table) : List SqlType := t.columns.map Column.type

/-- A table of the given columns; one without columns has no rows. -/
def ofArrays (name : String) (arrays : List HostArray) : Except QueryError Table := do
  let columns ← arrays.mapM fun (a : HostArray) => a.toColumn fun t => .storage (.columnType name t)
  let rows := columns.head?.elim 0 Column.size
  if h : ∀ c ∈ columns, c.size = rows then return ⟨name, columns, rows, h⟩
  else throw (.storage (.unevenColumns name))

/-- Column `index` of a batch; a batch that has no such column crashes. -/
def batchColumn (index : Nat) (b : Batch) : Except Failure HostArray :=
  match b.columns[index]? with
  | some a => .ok a
  | none => .error .crash

/-- The rows of all batches, with the columns of the first. -/
def ofBatches (name : String) (batches : List Batch) : Except Failure Table := do
  match batches with
  | [] => ofArrays name []
  | first :: rest =>
    let columns ← first.columns.zipIdx.mapM fun field => do
      HostArray.concat field.1 (← rest.mapM (batchColumn field.2))
    ofArrays name columns

/-- The slots of the columns `ids` in the rows from `offset` on, `len` rows or as many
as there are. -/
def window (t : Table) (mask : Mask) (ids : List Nat) (offset len : Nat) :
    Except QueryError TableWindow := do
  let start := min offset t.rows
  let stop := min (offset + len) t.rows
  let columns ← ids.mapM fun id =>
    match t.columns[id]? with
    | some c => .ok (c.window start (stop - start))
    | none => .error (.storage (.noColumn t.name id))
  return ⟨columns, mask.visible start (stop - start)⟩

/-- Deletes rows by id and counts those that were not deleted before. An id that is no
row of the table ends it; what was deleted up to there stays deleted. -/
def delete (t : Table) (mask : Mask) : List Int64 → Except QueryError Nat × Mask
  | [] => (.ok 0, mask)
  | id :: ids =>
    match if 0 ≤ id.toInt then mask[id.toInt.toNat]? else none with
    | none => (.error (.storage (.rowId id.toInt t.name)), mask)
    | some gone =>
      let (count, mask) := t.delete (mask.set id.toInt.toNat true) ids
      (count.map fun n => if gone then n else n + 1, mask)

end Table
end QueryEngine
