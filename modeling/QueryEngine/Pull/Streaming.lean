import QueryEngine.Expr.Evaluate
import QueryEngine.Pull.Operator

/-! Operators that answer chunk by chunk: filters, projections, pruning and limits.

Each output chunk comes from one chunk of the input. Filters and limits only narrow
which of its rows are active; a projection computes columns for all its rows, hidden
ones included, so that the selection stays valid. A filter or a limit fetches on
until a row is left, and a limit stops fetching once its window is full. -/
namespace QueryEngine.Operator
open Pull

/-! ### Filters -/

/-- Keeps the rows on which all predicates are TRUE. Predicates after the last row is
gone are not evaluated. -/
def keepTrue : List Expr → Filling Unit
  | [] => return ()
  | p :: ps => do
    let rows ← p.selectRows (← get)
    modify fun chunk => chunk.select rows
    if (← get).isEmpty then return
    keepTrue ps

def filterChunks (input : Operator) (predicates : List Expr) : Nat → Pull Unit
  | 0 => throw .stalled
  | rounds + 1 => do
    let chunk ← input.fetch
    if chunk.isEmpty then return
    filling do
      modify fun c => c.reference chunk
      keepTrue predicates
    if !(← out).isEmpty then return
    changeOut Chunk.reset
    filterChunks input predicates rounds

def filter (config : Config) (predicates : List Expr) (input : Operator) : Operator where
  name := "Filter"
  types := input.types
  start := State.above .none input.start
  rowsLeft s := input.rowsBelow s.below
  pull := answer config input.types do filterChunks input predicates (← input.rounds)

/-! ### Projections -/

/-- One column per expression, over the rows of a chunk. -/
def projectChunk (exprs : List Expr) (chunk : Chunk) : Filling Unit := do
  Filling.putComputed 0 (exprs.map (Expr.evaluate chunk))
  modify fun c => c.setCountFrom chunk

def project (config : Config) (exprs : List Expr) (types : List SqlType) (input : Operator) : Operator where
  name := "Projection"
  types := types
  start := State.above .none input.start
  rowsLeft s := input.rowsBelow s.below
  pull := answer config types do
    let chunk ← input.fetch
    if chunk.isEmpty then return
    filling (projectChunk exprs chunk)

/-! ### Pruning -/

/-- The first `limit` columns of a chunk. -/
def pruneChunk (limit : Nat) (chunk : Chunk) : Filling Unit := do
  if chunk.columns.length < limit then
    throw (.error (.invalidPlan (.keptChunkColumns limit chunk.columns.length)))
  Filling.putAll 0 (chunk.columns.take limit)
  modify fun c => c.setCountFrom chunk

def prune (config : Config) (limit : Nat) (input : Operator) : Operator where
  name := "PruneColumns"
  types := input.types.take limit
  start := State.above .none input.start
  rowsLeft s := input.rowsBelow s.below
  pull := answer config (input.types.take limit) do
    let chunk ← input.fetch
    if chunk.isEmpty then return
    filling (pruneChunk limit chunk)

/-! ### Limits -/

/-- The row after the last one wanted, of rows counted up to `maxCount`. -/
def limitEnd (limit : Option Nat) (offset : Nat) : Option Nat := limit.map fun n => min (offset + n) maxCount

/-- The positions in a chunk of `count` rows that are wanted, `seen` rows having been
before it. -/
def limitWindow (stop : Option Nat) (offset seen count : Nat) : Nat × Nat :=
  (min (offset - seen) count, (stop.map fun stop => min (stop - seen) count).getD count)

/-- The wanted rows of a chunk. -/
def limitChunk (chunk : Chunk) (low high : Nat) : Except Failure Chunk :=
  if low = 0 ∧ high = chunk.count then .ok chunk else chunk.slice low (high - low)

def limitChunks (input : Operator) (stop : Option Nat) (offset : Nat) : Nat → Nat → Pull Unit
  | 0, _ => throw .stalled
  | rounds + 1, seen => do
    if stop.any (· ≤ seen) then return
    let chunk ← input.fetch
    if chunk.isEmpty then return
    let next ← addCounts seen chunk.count
    setProgress (.limit next)
    let (low, high) := limitWindow stop offset seen chunk.count
    if high ≤ low then limitChunks input stop offset rounds next
    else
      let wanted ← limitChunk chunk low high
      changeOut fun c => c.reference wanted

def limit (config : Config) (limit : Option Nat) (offset : Nat) (input : Operator) : Operator where
  name := "Limit"
  types := input.types
  start := State.above (.limit 0) input.start
  rowsLeft s := input.rowsBelow s.below
  pull := answer config input.types do
    match ← progress with
    | .limit seen => limitChunks input (limitEnd limit offset) offset (← input.rounds) seen
    | _ => fail (.internal (.otherState "Limit"))

end QueryEngine.Operator
