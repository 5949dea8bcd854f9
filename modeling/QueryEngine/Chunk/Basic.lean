import QueryEngine.Chunk.Selection
import QueryEngine.Count
import QueryEngine.Value.Column

/-! Chunks: the unit of data between operators.

A chunk holds columns, a number of rows and perhaps a selection. Without a
selection its rows are those of the columns; with one they are the selected rows,
and the others are hidden. `verify` checks that columns, count and selection
agree. The operations that fill a chunk piecemeal do not; the column types are
always those of its columns. -/
namespace QueryEngine

/-- Rows that a chunk holds unless told otherwise. -/
def defaultCapacity : Nat := 1024

/-- A sum of row counts; beyond 64 bits there is none. -/
def addCounts (a b : Nat) : Except Failure Nat := if a + b ≤ maxCount then .ok (a + b) else .error .crash

structure Chunk where
  columns : List Column
  selection : Option Selection
  count : Nat
  capacity : Nat
  deriving DecidableEq

namespace Chunk

/-- A chunk of no columns and no rows. -/
def fresh : Chunk := ⟨[], none, 0, defaultCapacity⟩

instance : Inhabited Chunk := ⟨fresh⟩

def types (c : Chunk) : List SqlType := c.columns.map Column.type

def isEmpty (c : Chunk) : Bool := c.count = 0

/-! ### Rows -/

/-- Rows of the columns, hidden ones included. -/
def physicalRows (c : Chunk) : Nat :=
  match c.columns, c.selection with
  | column :: _, _ => column.size
  | [], some s => s.last?.elim 0 (· + 1)
  | [], none => c.count

/-- The active rows, in order. -/
def activeRows (c : Chunk) : List Nat := c.selection.getD (List.range c.count)

/-- Whether all active rows are among the first `rows`. -/
def activeWithin (c : Chunk) (rows : Nat) : Bool :=
  match c.selection with
  | some s => s.all (· < rows)
  | none => c.count ≤ rows

/-- The physical row of the active row at position `i`. -/
def rowAt (c : Chunk) (i : Nat) : Except Failure Nat :=
  match c.selection with
  | some s => s.row i
  | none => .ok i

/-! ### Filling -/

/-- No rows, and empty columns of the same types. -/
def reset (c : Chunk) : Chunk :=
  { c with columns := c.types.map Column.empty, selection := none, count := 0 }

/-- The chunk made empty for columns of the given types, whatever it held before; a
capacity is at least one row. -/
def prepare (_ : Chunk) (types : List SqlType) (capacity : Nat) : Chunk :=
  ⟨types.map Column.empty, none, 0, max capacity 1⟩

/-- Puts an array into column `index`. -/
def setArray (c : Chunk) (index : Nat) (a : HostArray) : Except QueryError Chunk :=
  match c.columns[index]?, a with
  | none, _ => .error (.invalidPlan (.targetColumn index c.columns.length))
  | some old, .foreign t _ => .error (.internal (.assignedType index old.type.storage (.ofForeign t)))
  | some old, .column new =>
    if new.type = old.type then .ok { c with columns := c.columns.set index new }
    else .error (.internal (.assignedType index old.type.storage new.type.storage))

def setColumn (c : Chunk) (index : Nat) (new : Column) : Except QueryError Chunk := c.setArray index new

/-- Takes column `source` of another chunk for column `index`. -/
def referenceColumn (c : Chunk) (index : Nat) (other : Chunk) (source : Nat) : Except QueryError Chunk :=
  match other.columns[source]? with
  | none => .error (.invalidPlan (.sourceColumn source other.columns.length))
  | some column => c.setColumn index column

/-- Takes columns, count and selection of another chunk; the capacity stays. -/
def reference (c other : Chunk) : Chunk := { other with capacity := c.capacity }

def setCount (c : Chunk) (count : Nat) : Chunk := { c with selection := none, count := count }

/-- Takes count and selection of another chunk. -/
def setCountFrom (c other : Chunk) : Chunk := { c with selection := other.selection, count := other.count }

def select (c : Chunk) (s : Selection) : Chunk := { c with selection := some s, count := s.length }

/-! ### Verification -/

/-- The first column that has not `rows` slots. -/
def unevenColumn (rows : Nat) : Nat → List Column → Option InternalError
  | _, [] => none
  | i, column :: rest =>
    if column.size = rows then unevenColumn rows (i + 1) rest else some (.columnLength i column.size rows)

def disagreement (c : Chunk) : Option InternalError :=
  (unevenColumn c.physicalRows 0 c.columns).or <|
    match c.selection with
    | none =>
      if !c.columns.isEmpty && c.physicalRows ≠ c.count then some (.flatCount c.count c.physicalRows) else none
    | some s =>
      if s.length ≠ c.count then some (.selectionCount s.length c.count)
      else if s.any (c.physicalRows ≤ ·) then some .selectionRange
      else none

/-- Checks that columns, count and selection agree. -/
def verify (c : Chunk) : Except QueryError Unit :=
  match c.disagreement with
  | some e => .error (.internal e)
  | none => .ok ()

/-- A chunk without selection, from columns of one length. -/
def ofColumns (columns : List Column) : Except QueryError Chunk :=
  let count := columns.head?.elim 0 Column.size
  let c : Chunk := ⟨columns, none, count, max defaultCapacity count⟩
  do c.verify; return c

def ofArrays (arrays : List HostArray) : Except QueryError Chunk := do
  ofColumns (← arrays.mapM fun (a : HostArray) => a.toColumn fun t => .notImplemented (.column t))

/-! ### Reading -/

/-- The columns restricted to the active rows. -/
def flatColumns (c : Chunk) : Except Failure (List Column) :=
  match c.selection with
  | none => .ok c.columns
  | some s => c.columns.mapM fun (column : Column) => column.gather s

/-- The active rows alone, without a selection. -/
def flatten (c : Chunk) : Except Failure Chunk := do
  return { c with columns := ← c.flatColumns, selection := none }

/-- The active rows at positions `offset` up to `offset + len`. -/
def slice (c : Chunk) (offset len : Nat) : Except Failure Chunk := do
  let stop ← addCounts offset len
  if c.count < stop then
    throw (.error (.internal (.slice offset stop c.count)))
  match c.selection with
  | some s => return c.select (← s.slice offset stop)
  | none =>
    let columns ← c.columns.mapM fun (column : Column) => column.slice offset len
    return { c with columns := columns, count := len }

end Chunk
end QueryEngine
