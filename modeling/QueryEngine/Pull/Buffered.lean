import QueryEngine.Pull.Operator
import QueryEngine.Window.Call

/-! Operators that read their whole input before they answer: sorting and windows.

The first pull drains the input and computes the output, which stays in the cell
together with its reservation; every pull then hands out the next rows. When the
first pull fails nothing is kept of it but how far the input has been read. -/
namespace QueryEngine.Operator
open Pull

/-- The output of the first pull, kept in the cell. -/
def firstOutput (keep : Option Output → Progress) (compute : Pull Output) : Pull Output := do
  let o ← buffering compute
  setProgress (keep (some o))
  return o

/-- All rows of the input, for an operator that needs a state to read it from. -/
def drainOwn (name : String) (input : Operator) : Pull Collection := do
  if (← get).below.isEmpty then
    fail (.internal (.otherState name))
  input.drain

/-! ### Sorting -/

def sortInput (keys : List SortKey) (input : Operator) : Pull Output := do
  let buffered ← drainOwn "Order" input
  let columns ← Rows.sortColumns keys (← buffered.materialize)
  return ⟨columns, buffered.count, 0⟩

def order (config : Config) (keys : List SortKey) (input : Operator) : Operator where
  name := "Order"
  types := input.types
  start := State.above (.order none) input.start
  rowsLeft s :=
    match s.cell.progress with
    | .order output => outputLeft input 0 s.below output
    | _ => 0
  pull := answer config input.types do
    match ← progress with
    | .order (some o) => handOut .order o
    | .order none => handOut .order (← firstOutput .order (sortInput keys input))
    | _ => fail (.internal (.otherState "Order"))

/-! ### Windows -/

/-- Computes the calls one after the other, each result being reserved before the
next is computed. -/
def windowColumns (chunk : Chunk) : List WindowCall → Pull (List Column)
  | [] => return []
  | call :: calls => do
    let column ← call.evaluate chunk
    reserve column.bytes
    return column :: (← windowColumns chunk calls)

/-- The calls that have a place behind `columns` input columns. -/
def placedCalls (calls : List WindowCall) (input : Operator) (columns : Nat) : Except Failure (List WindowCall) :=
  let types := (input.types ++ calls.map WindowCall.type).drop columns
  if input.types.length + calls.length < columns then .error .crash
  else .ok ((calls.zip types).map fun call => { call.1 with type := call.2 })

def windowInput (calls : List WindowCall) (input : Operator) : Pull Output := do
  let buffered ← drainOwn "Window" input
  let columns ← buffered.materialize
  if buffered.isEmpty then return ⟨columns, 0, 0⟩
  let chunk := (← Chunk.ofColumns columns).setCount buffered.count
  let results ← windowColumns chunk (← placedCalls calls input columns.length)
  return ⟨columns ++ results, buffered.count, 0⟩

def window (config : Config) (calls : List WindowCall) (input : Operator) : Operator where
  name := "Window"
  types := input.types ++ calls.map WindowCall.type
  start := State.above (.window none) input.start
  rowsLeft s :=
    match s.cell.progress with
    | .window output => outputLeft input 0 s.below output
    | _ => 0
  pull := answer config (input.types ++ calls.map WindowCall.type) do
    match ← progress with
    | .window (some o) => handOut .window o
    | .window none => handOut .window (← firstOutput .window (windowInput calls input))
    | _ => fail (.internal (.otherState "Window"))

end QueryEngine.Operator
