import QueryEngine.Expr.Aggregate
import QueryEngine.Key.Map
import QueryEngine.Sort.Rows

/-! Window calls: a value for every row, from the rows of its partition.

A partition is the rows with equal partition keys, put in order by the sort keys.
Rows that are equal on those are peers. Rankings count rows or runs of peers; an
aggregate is taken over all rows up to the last peer, or over the whole partition
when there are no sort keys. -/
namespace QueryEngine

/-- A window call with the type it was resolved to. -/
structure WindowCall where
  function : WindowFunction
  args : List Expr
  partitions : List Expr
  orders : List SortKey
  type : SqlType

namespace WindowCall

def ofExpr (input : List SqlType) (e : Expr) : Except QueryError WindowCall := do
  let type ← e.resolve input
  match e with
  | .window function args partitions orders => return ⟨function, args, partitions, orders, type⟩
  | e => throw (.invalidPlan (.notWindowCall e))

def toExpr (w : WindowCall) : Expr := .window w.function w.args w.partitions w.orders

/-! ### Values of one partition -/

/-- A row and its value. -/
abbrev RowValue := Nat × Scalar

def ranked (row rank : Nat) : RowValue := (row, .bigInt (Int64.ofNat rank))

/-- Rows numbered from one. -/
def rowNumbers (rows : List Nat) : List RowValue := rows.zipIdx.map fun r => ranked r.1 (r.2 + 1)

/-- Every row of a run has the place of the run's first row, `before` rows being ahead
of the first run. -/
def ranks (before : Nat) : List (List Nat) → List RowValue
  | [] => []
  | run :: runs => run.map (ranked · (before + 1)) ++ ranks (before + run.length) runs

/-- Every row of a run has the number of the run. -/
def denseRanks (runs : List (List Nat)) : List RowValue :=
  runs.zipIdx.flatMap fun run => run.1.map (ranked · (run.2 + 1))

/-- Takes the argument in each of some rows. -/
def accumulate (argument : Option Column) (a : Accumulator) (rows : List Nat) :
    Except QueryError Accumulator :=
  rows.foldlM (fun a row => do
    match argument with
    | some c => a.update (some (← c.get row))
    | none => a.update none) a

/-- Every row of a frame has the aggregate of all rows up to the frame's end. -/
def runningAggregates (argument : Option Column) (a : Accumulator) :
    List (List Nat) → Except QueryError (List RowValue)
  | [] => .ok []
  | frame :: frames => do
    let a ← accumulate argument a frame
    return frame.map (fun row => (row, a.value)) ++ (← runningAggregates argument a frames)

/-- The values of the rows of one partition. -/
def partitionValues (w : WindowCall) (keys : List SortColumn) (argument : Option Column) (rows : List Nat) :
    Except Failure (List RowValue) := do
  let rows ← Rows.sort keys rows
  let runs := rows.splitBy fun a b => (Rows.compare keys a b).isEq
  match w.function with
  | .rowNumber => return rowNumbers rows
  | .rank => return ranks 0 runs
  | .denseRank => return denseRanks runs
  | .aggregate f => runningAggregates argument (Accumulator.start f w.type) (if keys.isEmpty then [rows] else runs)

/-! ### Values of all rows -/

/-- One value per row, in the order of the rows. -/
def inRowOrder (count : Nat) (values : List RowValue) : List Scalar :=
  (values.foldl (fun slots v => slots.setIfInBounds v.1 v.2) (Array.replicate count .null)).toList

/-- The column of a window call over a chunk without selection. -/
def evaluate (w : WindowCall) (chunk : Chunk) : Except Failure Column := do
  let partitionKeys ← w.partitions.mapM (Expr.evaluate chunk)
  let sortKeys ← SortColumn.ofKeys chunk w.orders
  let args ← w.args.mapM (Expr.evaluate chunk)
  let partitions ← KeyMap.ofRows partitionKeys (List.range chunk.count)
  let values ← partitions.values.mapM (w.partitionValues sortKeys args.head?)
  Column.ofScalars w.type (inRowOrder chunk.count values.flatten)

end WindowCall
end QueryEngine
