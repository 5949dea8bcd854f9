import QueryEngine.Pull.Operator

/-! Operators without inputs: prepared chunks, table scans, and no rows at all.

A scan reads its table window by window and passes over windows in which every row
is deleted. Which rows are deleted is looked up when a window is read, not before. -/
namespace QueryEngine.Operator
open Pull

/-- Hands out prepared chunks, one per pull; past the last there is nothing. -/
def source (config : Config) (types : List SqlType) (chunks : List Chunk) : Operator where
  name := "Source"
  types := types
  start := State.ofLeaf .none
  rowsLeft s := total ((chunks.drop s.cell.buffer.count).map Chunk.count)
  pull := answer config types do
    let buffer := (← get).cell.buffer
    match chunks[buffer.count]? with
    | none => return
    | some chunk =>
      setBuffer (buffer.setCount (buffer.count + 1))
      changeOut fun c => c.reference chunk

def empty (config : Config) (types : List SqlType) : Operator where
  name := "EmptyResult"
  types := types
  start := State.ofLeaf .none
  rowsLeft _ := 0
  pull := answer config types (return ())

/-! ### Table scans -/

/-- A window of a table and the rows it covers. -/
structure ScannedWindow where
  offset : Nat
  len : Nat
  window : TableWindow

/-- The first window from `offset` on that has a row which is not deleted, if any, and
the row to go on from. Every window has at least one row, so that the rows after
`offset` are enough rounds. -/
def nextWindow (table : Provider) (mask : Mask) (ids : List Nat) (capacity : Nat) :
    Nat → Nat → Except QueryError (Option ScannedWindow) × Nat
  | 0, offset => (.ok none, offset)
  | rounds + 1, offset =>
    if table.table.rows ≤ offset then (.ok none, offset)
    else
      let len := min capacity (table.table.rows - offset)
      match table.window mask ids offset len with
      | .error e => (.error e, offset + len)
      | .ok w =>
        if w.visible = some [] then nextWindow table mask ids capacity rounds (offset + len)
        else (.ok (some ⟨offset, len, w⟩), offset + len)

def rowIds (offset len : Nat) : Column := Column.ofInts ((List.range len).map fun i => Int64.ofNat (offset + i))

/-- The columns to read, from the window's columns in their order. -/
def readColumns (table : Provider) (w : ScannedWindow) : List ColumnRef → List Column → List (Except Failure Column)
  | [], _ => []
  | .rowId :: refs, cs => .ok (rowIds w.offset w.len) :: readColumns table w refs cs
  | .column _ :: refs, c :: cs => .ok c :: readColumns table w refs cs
  | .column _ :: _, [] => [.error (.error (.storage (.missingColumns table.name)))]

/-- The rows of a window that are not deleted. -/
def fillFromWindow (table : Provider) (refs : List ColumnRef) (w : ScannedWindow) : Filling Unit := do
  Filling.putComputed 0 (readColumns table w refs w.window.columns)
  match w.window.visible with
  | some rows => modify fun c => c.select rows
  | none => modify fun c => c.setCount w.len

def tableIds (refs : List ColumnRef) : List Nat :=
  refs.filterMap fun
    | .column i => some i
    | .rowId => none

def scan (config : Config) (table : Provider) (refs : List ColumnRef) (types : List SqlType) : Operator where
  name := "TableScan"
  types := types
  start := State.ofLeaf (.scan 0)
  rowsLeft s :=
    match s.cell.progress with
    | .scan offset => table.table.rows - offset
    | _ => 0
  pull := answer config types do
    match ← progress with
    | .scan offset =>
      let mask := (← get).session.mask table
      let (found, offset) :=
        nextWindow table mask (tableIds refs) (← out).capacity (table.table.rows - offset) offset
      setProgress (.scan offset)
      match ← found with
      | some w => filling (fillFromWindow table refs w)
      | none => return
    | _ => fail (.internal (.otherState "TableScan"))

end QueryEngine.Operator
