import QueryEngine.Expr.Aggregate
import QueryEngine.Key.Map
import QueryEngine.Pull.Buffered

/-! Aggregation by groups.

A group is the rows with equal group keys; it shows the key of its first row, and
groups come in the order of their first rows. Bytes are reserved for each new group
before it is made. Without group expressions all rows are one group, and no rows
are one too. -/
namespace QueryEngine

/-- A group's key as first seen, and the running state of each call. -/
structure Group where
  key : Key
  accumulators : List Accumulator

namespace Group

def start (calls : List AggregateCall) (key : Key) : Group :=
  ⟨key, calls.map fun c => Accumulator.start c.function c.type⟩

/-- Takes the arguments of a row, call by call. -/
def updateAll (row : Nat) : List (Accumulator × Option Column) → Except QueryError (List Accumulator)
  | [] => .ok []
  | (a, none) :: rest => do
    let a ← a.update none
    return a :: (← updateAll row rest)
  | (a, some argument) :: rest => do
    let a ← a.update (some (← argument.get row))
    return a :: (← updateAll row rest)

def addRow (g : Group) (arguments : List (Option Column)) (row : Nat) : Except QueryError Group := do
  return { g with accumulators := ← updateAll row (g.accumulators.zip arguments) }

end Group

namespace Operator
open Pull

/-- Bytes that a group is accounted for. -/
def groupBytes (keys calls : Nat) : Nat := 24 * (keys + 1) + 56 * calls

/-- The groups after one more row. -/
def groupRow (calls : List AggregateCall) (keys : List Column) (arguments : List (Option Column))
    (groups : KeyMap Group) (row : Nat) : Pull (KeyMap Group) := do
  let key ← Key.ofRow keys row
  let group ← match groups.get? key with
    | some g => pure g
    | none => do
      reserve (groupBytes keys.length calls.length)
      pure (Group.start calls key)
  return groups.put key (← group.addRow arguments row)

def groupRows (calls : List AggregateCall) (keys : List Column) (arguments : List (Option Column)) :
    KeyMap Group → List Nat → Pull (KeyMap Group)
  | groups, [] => return groups
  | groups, row :: rows => do groupRows calls keys arguments (← groupRow calls keys arguments groups row) rows

/-- The groups after one more chunk. -/
def groupChunk (keys : List Expr) (calls : List AggregateCall) (groups : KeyMap Group) (chunk : Chunk) :
    Pull (KeyMap Group) := do
  let keyColumns ← (keys.mapM (Expr.evaluate chunk) : Except Failure (List Column))
  let arguments ← calls.mapM fun (c : AggregateCall) => (c.argument.mapM (Expr.evaluate chunk) : Except Failure (Option Column))
  groupRows calls keyColumns arguments groups chunk.activeRows

def groupChunks (keys : List Expr) (calls : List AggregateCall) (input : Operator) :
    Nat → KeyMap Group → Pull (KeyMap Group)
  | 0, _ => throw .stalled
  | rounds + 1, groups => do
    let chunk ← input.fetch
    if chunk.isEmpty then return groups
    groupChunks keys calls input rounds (← groupChunk keys calls groups chunk)

/-- The columns of the keys and of the calls, a row per group. -/
def groupColumns (keyTypes : List SqlType) (calls : List AggregateCall) (groups : List Group) :
    Except QueryError (List Column) := do
  let keys ← keyTypes.zipIdx.mapM fun field =>
    Column.ofScalars field.1 (groups.map fun g => g.key.getD field.2 .null)
  let results ← calls.zipIdx.mapM fun call =>
    Column.ofScalars call.1.type (groups.map fun g => (g.accumulators[call.2]?.map Accumulator.value).getD .null)
  return keys ++ results

def groupInput (keys : List Expr) (keyTypes : List SqlType) (calls : List AggregateCall) (input : Operator) :
    Pull Output := do
  let groups := (← groupChunks keys calls input (← input.rounds) .empty).values
  let groups := if groups.isEmpty && keys.isEmpty then [Group.start calls []] else groups
  return ⟨← groupColumns keyTypes calls groups, groups.length, 0⟩

def aggregate (config : Config) (keys : List Expr) (keyTypes : List SqlType) (calls : List AggregateCall)
    (input : Operator) : Operator where
  name := "HashAggregate"
  types := keyTypes ++ calls.map AggregateCall.type
  start := State.above (.aggregate none) input.start
  rowsLeft s :=
    match s.cell.progress with
    | .aggregate output => outputLeft input 1 s.below output
    | _ => 0
  pull := answer config (keyTypes ++ calls.map AggregateCall.type) do
    match ← progress with
    | .aggregate (some o) => handOut .aggregate o
    | .aggregate none =>
      handOut .aggregate (← firstOutput .aggregate (groupInput keys keyTypes calls input))
    | _ => fail (.internal (.otherState "HashAggregate"))

end Operator
end QueryEngine
