import QueryEngine.Chunk.Basic

/-! Batches: what the outside gets to see of a chunk.

A batch has named columns of one length. A chunk's active rows become a batch
with columns `c0`, `c1`, …; a chunk without columns becomes a batch of no rows. -/
namespace QueryEngine

structure Batch where
  rows : Nat
  columns : List HostArray

namespace Batch

/-- The name of column `i`. -/
def columnName (i : Nat) : String := "c" ++ toString i

/-- The columns with their names; every column may hold NULL. -/
def fields (b : Batch) : List (String × StorageType) :=
  b.columns.zipIdx.map fun f => (columnName f.2, f.1.storage)

def ofArrays (columns : List HostArray) : Except QueryError Batch :=
  match columns with
  | [] => .error (.kernel .columnlessBatch)
  | first :: rest =>
    if rest.all fun a => a.size = first.size then .ok ⟨first.size, columns⟩ else .error (.kernel .unevenBatch)

end Batch

/-- The active rows as a batch. -/
def Chunk.toBatch (c : Chunk) : Except Failure Batch := do
  if c.columns.isEmpty then return ⟨0, []⟩
  Batch.ofArrays ((← c.flatColumns).map HostArray.column)

end QueryEngine
