import QueryEngine.Join.Build
import QueryEngine.Table.Provider

/-! The state of one sequence of pulls.

A plan does not change while it runs. All that changes is in a state made for the
plan: a cell for the plan's root and one for each first input below it, down to a
leaf. Second inputs need none, for they are read to their end within one pull. A
cell tells how far its operator has come; what the operator has buffered stays in
it, and with it the bytes reserved for that, until the state is closed. -/
namespace QueryEngine

/-- Rows that have been computed, and how many of them were handed out. -/
structure Output where
  columns : List Column
  rows : Nat
  position : Nat

/-- A join's right side, and the pairs of a left row and a right row still owed for
the left chunk in the buffer; no right row stands for NULLs. -/
structure JoinProgress where
  side : Option JoinSide
  pending : List (Nat × Option Nat)
  emitted : Nat

/-- How far an operator has come. -/
inductive Progress where
  | none
  /-- The first row of the table that was not read. -/
  | scan (offset : Nat)
  | order (output : Option Output)
  /-- Rows of the input seen. -/
  | limit (seen : Nat)
  /-- The right side; its position is the next row to pair with the left chunk in the
  buffer. -/
  | cross (right : Option Output)
  | join (progress : JoinProgress)
  | aggregate (output : Option Output)
  | window (output : Option Output)
  | delete (done : Bool)

structure Cell where
  /-- The chunk last fetched from the first input. -/
  buffer : Chunk
  finished : Bool
  progress : Progress
  /-- Bytes reserved in the pool for what the cell holds. -/
  reserved : Nat

structure State where
  cell : Cell
  /-- The cells of the first inputs, outermost first. -/
  below : List Cell

namespace Cell

def start (progress : Progress) : Cell := ⟨Chunk.fresh, false, progress, 0⟩

end Cell

namespace State

/-- A state that belongs to no plan. -/
def blank : State := ⟨Cell.start .none, []⟩

def cells (s : State) : List Cell := s.cell :: s.below

/-- A fresh state of an operator without inputs. -/
def ofLeaf (progress : Progress) : State := ⟨Cell.start progress, []⟩

/-- A fresh state of an operator, over a state of its first input. -/
def above (progress : Progress) (input : State) : State := ⟨Cell.start progress, input.cells⟩

/-- The state without the states of its inputs. -/
def orphan (s : State) : State := { s with below := [] }

/-- Bytes reserved by some cells. -/
def reservedBy (cells : List Cell) : Nat := total (cells.map Cell.reserved)

def reserved (s : State) : Nat := reservedBy s.cells

end State

/-- Closes a state: its bytes go back to the pool. -/
def Session.close (session : Session) (s : State) : Session := session.release s.reserved

end QueryEngine
