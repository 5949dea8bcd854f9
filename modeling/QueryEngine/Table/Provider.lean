import QueryEngine.Memory.Pool
import QueryEngine.Table.Basic

/-! What plans read tables through, and the state that all of a session shares.

A provider hands out windows of a table. It may withhold columns that it was asked
for; a scan notices. A session has the memory pool and the masks of the tables, so
that every plan of the session sees what any of them has deleted. -/
namespace QueryEngine

/-- A column to read: one of the table's, or the number of the row. -/
inductive ColumnRef where
  | column (index : Nat)
  | rowId
  deriving DecidableEq

def ColumnRef.toText : ColumnRef → String
  | column i => "#" ++ toString i
  | rowId => "rowid"

structure Provider where
  /-- Which table of a session it is; providers of one number share a mask. -/
  id : Nat
  table : Table
  /-- How many columns at the end of each window are left out. -/
  withheld : Nat

namespace Provider

def name (p : Provider) : String := p.table.name

/-- The type of a column to read. -/
def columnType (p : Provider) : ColumnRef → Except QueryError SqlType
  | .rowId => .ok .bigInt
  | .column i =>
    match p.table.types[i]? with
    | some t => .ok t
    | none => .error (.invalidPlan (.tableColumn p.name i))

def window (p : Provider) (mask : Mask) (ids : List Nat) (offset len : Nat) :
    Except QueryError TableWindow := do
  let w ← p.table.window mask ids offset len
  return { w with columns := w.columns.take (w.columns.length - p.withheld) }

end Provider

structure Session where
  pool : Pool
  /-- The masks of the tables that rows were deleted from. -/
  masks : List (Nat × Mask)

namespace Session

def ofLimit? (limit : Option Nat) : Session := ⟨Pool.ofLimit? limit, []⟩

def mask (s : Session) (p : Provider) : Mask := (s.masks.lookup p.id).getD (Mask.allLive p.table.rows)

def setMask (s : Session) (p : Provider) (m : Mask) : Session :=
  { s with masks := (p.id, m) :: s.masks.filter fun entry => entry.1 ≠ p.id }

/-- Deletes rows of a table by id. -/
def delete (s : Session) (p : Provider) (ids : List Int64) : Except QueryError Nat × Session :=
  let (count, mask) := p.table.delete (s.mask p) ids
  (count, s.setMask p mask)

/-- Gives bytes back to the pool. -/
def release (s : Session) (bytes : Nat) : Session := { s with pool := s.pool.release bytes }

end Session
end QueryEngine
