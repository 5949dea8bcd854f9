import QueryEngine.Chunk.Basic

/-! Filling a chunk, column by column.

A filling that fails leaves the chunk as far as it has come. An operator fills the
buffer of the operator above it, so what a failure has left there can be read by a
later pull. -/
namespace QueryEngine

/-- Steps on a chunk. What was done before a step fails stays done. -/
abbrev Filling := EStateM Failure Chunk

namespace Filling

/-- Puts a column in place. -/
def put (index : Nat) (column : Column) : Filling Unit := do set (← (← get).setColumn index column)

/-- Puts columns in place from `index` on. -/
def putAll (index : Nat) : List Column → Filling Unit
  | [] => return ()
  | column :: rest => do
    put index column
    putAll (index + 1) rest

/-- Puts computed columns in place from `index` on. A column that cannot be computed
ends it at its turn. -/
def putComputed (index : Nat) : List (Except Failure Column) → Filling Unit
  | [] => return ()
  | column :: rest => do
    put index (← column)
    putComputed (index + 1) rest

/-- The chunk that a filling makes of another. -/
def onto (c : Chunk) (f : Filling Unit) : Except Failure Chunk :=
  match f c with
  | .ok () filled => .ok filled
  | .error e _ => .error e

end Filling
end QueryEngine
