import QueryEngine.Chunk.Filling
import QueryEngine.Pull.State

/-! Steps of a pull.

A step sees a frame: the cell of its operator, the cells below it, the session and
the chunk that the pull is to fill. What it has changed stays changed when it fails,
in the cells and in the chunk as in the session; only bytes that a failing step has
reserved go back (`buffering`). So after every step the pool counts just what the
cells hold. -/
namespace QueryEngine

structure Frame where
  cell : Cell
  below : List Cell
  session : Session
  /-- The chunk to fill. -/
  out : Chunk

abbrev Pull := EStateM Failure Frame

namespace Frame

/-- Gives back bytes that the operator's cell has reserved. -/
def giveBack (f : Frame) (bytes : Nat) : Frame :=
  { f with
    cell := { f.cell with reserved := f.cell.reserved - bytes }
    session := f.session.release bytes }

/-- Gives back what the cells below have reserved, and puts others in their place. -/
def replaceBelow (f : Frame) (below : List Cell) : Frame :=
  { f with
    below := below
    session := f.session.release (State.reservedBy f.below) }

/-- The frame of the first input, which is to fill `out`, if there are cells for it. -/
def input? (f : Frame) (out : Chunk) : Option Frame :=
  match f.below with
  | [] => none
  | cell :: below => some ⟨cell, below, f.session, out⟩

/-- The frame after the first input's frame has become `input`. -/
def afterInput (f input : Frame) : Frame :=
  { f with below := input.cell :: input.below, session := input.session }

/-- The frame after the first input has filled the buffer. -/
def afterFetch (f input : Frame) : Frame :=
  { f.afterInput input with cell := { f.cell with buffer := input.out } }

/-- The frame without a join's right side in the cell. -/
def forgetSide (f : Frame) : Frame :=
  match f.cell.progress with
  | .join p => { f with cell := { f.cell with progress := .join { p with side := none } } }
  | _ => f

end Frame

namespace Pull
variable {α : Type}

def fail (e : QueryError) : Pull α := throw (.error e)

def progress : Pull Progress := do return (← get).cell.progress

def setProgress (p : Progress) : Pull Unit := modify fun f => { f with cell := { f.cell with progress := p } }

def setBuffer (c : Chunk) : Pull Unit := modify fun f => { f with cell := { f.cell with buffer := c } }

def finish : Pull Unit := modify fun f => { f with cell := { f.cell with finished := true } }

/-! ### The chunk to fill -/

def out : Pull Chunk := do return (← get).out

def changeOut (change : Chunk → Chunk) : Pull Unit := modify fun f => { f with out := change f.out }

def filling (step : Filling α) : Pull α := fun f =>
  match step f.out with
  | .ok a filled => .ok a { f with out := filled }
  | .error e filled => .error e { f with out := filled }

/-! ### Bytes -/

/-- Reserves bytes for the operator's cell. -/
def reserve (bytes : Nat) : Pull Unit := do
  let f ← get
  let pool ← f.session.pool.reserve bytes
  set { f with
    cell := { f.cell with reserved := f.cell.reserved + bytes }
    session := { f.session with pool := pool } }

/-- What the step has reserved takes the place of what the cell held before, which
goes back; if the step fails, what it has reserved goes back instead. -/
def buffering (step : Pull α) : Pull α := fun f =>
  match step f with
  | .ok a g => .ok a (g.giveBack f.cell.reserved)
  | .error e g => .error e (g.giveBack (g.cell.reserved - f.cell.reserved))

/-! ### The first input -/

/-- Lets a step of the first input fill a chunk; `after` tells what becomes of the
frame, whether the step succeeds or fails. -/
def inInput (name : String) (out : Chunk) (after : Frame → Frame → Frame) (step : Pull Unit) : Pull Chunk :=
  fun f =>
    match f.input? out with
    | none => .error (.error (.internal (.noChildState name))) f
    | some input =>
      match step input with
      | .ok () g => .ok g.out (after f g)
      | .error e g => .error e (after f g)

/-- Runs a step with a fresh state below, which is closed again afterwards. -/
def onFresh (s : State) (step : Pull α) : Pull α := fun f =>
  match step { f with below := s.cells } with
  | .ok a g => .ok a (g.replaceBelow f.below)
  | .error e g => .error e (g.replaceBelow f.below)

end Pull
end QueryEngine
