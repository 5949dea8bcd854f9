import QueryEngine.Chunk.Collection
import QueryEngine.Config.Basic
import QueryEngine.Pull.Frame

/-! Operators: what a parent knows of an input.

An operator is a record of functions, and one with inputs is built from theirs. A
pull fills a chunk; an empty one ends the stream, and from then on there are only
empty ones. A state bounds the rows that are still to come (`rowsLeft`); a loop over
an input takes its bound from there, one round for every row and one for the end,
and each round that goes on has seen a row. -/
namespace QueryEngine

structure Operator where
  name : String
  types : List SqlType
  /-- A fresh state. -/
  start : State
  /-- No more rows than this are still to come. -/
  rowsLeft : State → Nat
  /-- Fills the chunk with the next rows, whatever it held before. -/
  pull : Pull Unit

namespace Operator
open Pull

/-- What a pull is around the operator's own work: the chunk is made ready for it,
an empty result is the end, and what is handed out is verified if so configured. -/
def answer (config : Config) (types : List SqlType) (work : Pull Unit) : Pull Unit := do
  changeOut fun c => c.prepare types config.capacity
  if (← get).cell.finished then return
  work
  let chunk ← out
  if chunk.isEmpty then finish
  if config.verify then chunk.verify

/-- The rows that the first input may still give from the cells below. -/
def rowsBelow (input : Operator) : List Cell → Nat
  | [] => 0
  | cell :: below => input.rowsLeft ⟨cell, below⟩

/-- Enough rounds for a loop over the first input. -/
def rounds (input : Operator) : Pull Nat := do return input.rowsBelow (← get).below + 1

/-- The next chunk of the first input, which fills the buffer. -/
def fetch (input : Operator) : Pull Chunk := do
  inInput input.name (← get).cell.buffer Frame.afterFetch input.pull

/-- Appends the chunks of an input to a collection and reserves what they take. -/
def drainInto (input : Operator) : Nat → Collection → Pull Collection
  | 0, _ => throw .stalled
  | rounds + 1, collection => do
    let chunk ← inInput input.name Chunk.fresh Frame.afterInput input.pull
    if chunk.isEmpty then return collection
    let (collection, bytes) ← collection.append chunk
    reserve bytes
    drainInto input rounds collection

/-- All rows of the first input. -/
def drain (input : Operator) : Pull Collection := do
  drainInto input (← input.rounds) (Collection.ofTypes input.types)

/-! ### Output handed out piece by piece -/

/-- Hands out the next rows of an output, as many as the chunk has room for, and keeps
the rest. -/
def handOut (keep : Option Output → Progress) (o : Output) : Pull Unit := do
  if o.rows ≤ o.position then return
  let len := min (← out).capacity (o.rows - o.position)
  filling do
    Filling.putComputed 0 (o.columns.map fun (c : Column) => c.slice o.position len)
    modify fun c => c.setCount len
  setProgress (keep (some { o with position := o.position + len }))

/-- The rows that an output has left; before it is computed, those of the input, and
at least `least`. -/
def outputLeft (input : Operator) (least : Nat) (below : List Cell) : Option Output → Nat
  | some o => o.rows - o.position
  | none => max least (input.rowsBelow below)

end Operator
end QueryEngine
