import QueryEngine.Context

/-! Results as text: the number of rows, then a table of all batches.

Cells show a value as text and NULL as nothing. A column is as wide as its widest
cell, and every line is framed. -/
namespace QueryEngine.Cli

/-- The text of a value in a table. -/
def cellText (v : Scalar) : String :=
  match v with
  | .null => ""
  | v =>
    match Cast.toVarchar v with
    | .ok s => s
    | .error _ => v.toText

def spaced (s : String) (width : Nat) : String := s ++ String.ofList (List.replicate (width - s.length) ' ')

/-- A line with one piece per column between the frame's pieces. -/
def framed (corner filler : String) (pieces : List String) : String :=
  corner ++ filler ++ String.intercalate (filler ++ corner ++ filler) pieces ++ filler ++ corner

def rule (widths : List Nat) : String :=
  framed "+" "-" (widths.map fun w => String.ofList (List.replicate w '-'))

def tableLine (widths : List Nat) (cells : List String) : String :=
  framed "|" " " (List.zipWith spaced cells widths)

/-- Rows of cells under a line of names. -/
def tableLines (names : List String) (rows : List (List String)) : List String :=
  let widths := names.zipIdx.map fun name =>
    (rows.map fun row => (row.getD name.2 "").length).foldl max name.1.length
  [rule widths, tableLine widths names, rule widths] ++ rows.map (tableLine widths) ++ [rule widths]

/-- The cells of an array, foreign values being unknown. -/
def cells : HostArray → List String
  | .column c => c.slots.map cellText
  | .foreign _ filled => filled.map fun _ => ""

/-- The rows of a batch. -/
def batchRows (b : Batch) : List (List String) :=
  let columns := b.columns.map fun a => (cells a).toArray
  (List.range b.rows).map fun row => columns.map fun c => c.getD row ""

def batchLines (batches : List Batch) : List String :=
  match batches with
  | [] => []
  | first :: _ => tableLines (first.fields.map Prod.fst) (batches.flatMap batchRows)

def resultLines (r : QueryResult) : Except Failure (List String) := do
  return ["Row count: " ++ toString r.rows, ""] ++ batchLines (← r.toBatches)

end QueryEngine.Cli
