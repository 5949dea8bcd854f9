import QueryEngine.Join.Result
import QueryEngine.Pull.Operator

/-! Operators with two inputs: cross products and joins.

The first pull reads the right input to its end, from a state of its own that is
closed at once; what was buffered stays in the cell. The left input is then read
chunk by chunk. A cross product answers a left chunk once for every right row. A join
looks its rows up by key and owes the pairs it has found until they are handed out;
no chunk is fetched while pairs are owed. Both read the left chunk from the buffer,
which a failed fetch may have changed. -/
namespace QueryEngine.Operator
open Pull

/-- Reads the right input to its end, from a fresh state. -/
def drainRight {α : Type} (right : Operator) (finish : Collection → Pull α) : Pull α :=
  buffering (onFresh right.start do finish (← right.drain))

/-! ### Cross products -/

/-- The right side; there is no left chunk to pair its rows with yet. -/
def crossRight (right : Operator) : Pull Output := do
  let side ← drainRight right fun buffered => do
    return (⟨← buffered.materialize, buffered.count, buffered.count⟩ : Output)
  setProgress (.cross (some side))
  return side

/-- The left chunk that the next right row is paired with: the one in the buffer, or a
fetched one when that has met every right row; `none` at the end. -/
def crossLeft (left : Operator) (side : Output) : Pull (Option (Chunk × Output)) := do
  if side.position < side.rows then return some ((← get).cell.buffer, side)
  let chunk ← left.fetch
  return if chunk.isEmpty then none else some (chunk, { side with position := 0 })

/-- The left columns, then a right row repeated on every row. -/
def pairRow (types : List SqlType) (side : Output) (chunk : Chunk) : Filling Unit := do
  let columns := chunk.columns.length
  Filling.putAll 0 chunk.columns
  let broadcast (c : Column × SqlType) : Except Failure Column := do
    let v ← c.1.get side.position
    return Column.fill chunk.physicalRows (Slot.ofScalar (if v.isNull then c.2 else v.type) v)
  Filling.putComputed columns ((side.columns.zip (types.drop columns)).map broadcast)
  modify fun c => c.setCountFrom chunk

def cross (config : Config) (left right : Operator) : Operator where
  name := "CrossProduct"
  types := left.types ++ right.types
  start := State.above (.cross none) left.start
  rowsLeft s :=
    match s.cell.progress with
    | .cross (some side) =>
      (side.rows - side.position) * s.cell.buffer.count + side.rows * left.rowsBelow s.below
    | .cross none => right.rowsLeft right.start * left.rowsBelow s.below
    | _ => 0
  pull := answer config (left.types ++ right.types) do
    let side ← match ← progress with
      | .cross (some side) => pure side
      | .cross none => crossRight right
      | _ => fail (.internal (.otherState "CrossProduct"))
    if side.rows = 0 then return
    let some (chunk, side) ← crossLeft left side | return
    setProgress (.cross (some { side with position := side.position + 1 }))
    filling (pairRow (left.types ++ right.types) side chunk)

/-! ### Joins -/

/-- The right side, indexed by its keys. Pairs that are still owed stay owed. -/
def joinRight (keys : List Expr) (right : Operator) (p : JoinProgress) : Pull JoinSide := do
  let side ← drainRight right fun buffered => do
    let side ← JoinSide.ofColumns keys (← buffered.materialize) buffered.count
    reserve (side.bytes keys.length)
    return side
  setProgress (.join { p with side := some side })
  return side

/-- Takes the right side out of the cell for a step and puts it back behind it. A crash
loses it, and the next pull reads the right input again. -/
def lendingSide (step : Pull Unit) : Pull Unit := fun f =>
  match step f with
  | .error .crash g => .error .crash g.forgetSide
  | answer => answer

/-- The left and right rows of some pairs. -/
def takePairs (side : JoinSide) (chunk : Chunk) (pairs : List (Nat × Option Nat)) : Filling Unit := do
  let left := chunk.columns.map fun (c : Column) => c.gather (pairs.map Prod.fst)
  let right := side.columns.map fun (c : Column) => c.gatherPadded (pairs.map Prod.snd)
  Filling.putComputed 0 (left ++ right)
  modify fun c => c.setCount pairs.length

/-- Hands out the next owed pairs, as many as the chunk has room for. -/
def handOutPairs (side : JoinSide) (p : JoinProgress) : Pull Unit := do
  let stop ← addCounts p.emitted (← out).capacity
  let stop := min stop p.pending.length
  setProgress (.join { p with emitted := stop })
  let chunk := (← get).cell.buffer
  filling (takePairs side chunk ((p.pending.take stop).drop p.emitted))

/-- The pairs of a left row with the right rows that match it. -/
def pairsOf (kind : JoinKind) (row : Nat) : Option (List Nat) → List (Nat × Option Nat)
  | some rows => if kind = .inner ∨ kind = .left then rows.map fun r => (row, some r) else []
  | none => if kind = .left then [(row, none)] else []

/-- Looks rows up, tells for each whether it has a match and collects the pairs. A key
that cannot be read ends it; the pairs up to there are kept. -/
def probeRows (kind : JoinKind) (side : JoinSide) (keys : List Column) :
    List Nat → Except QueryError (List Bool) × List (Nat × Option Nat)
  | [] => (.ok [], [])
  | row :: rows =>
    match side.matches? keys row with
    | .error e => (.error e, [])
    | .ok found =>
      let (flags, pairs) := probeRows kind side keys rows
      (flags.map (found.isSome :: ·), pairsOf kind row found ++ pairs)

/-- The answer to a left chunk when the right side has no rows; inner and semi joins
have ended before. -/
def joinWithNothing (kind : JoinKind) (rightTypes : List SqlType) (chunk : Chunk) : Filling Unit :=
  match kind with
  | .left => JoinResult.padded chunk rightTypes
  | .anti => modify fun c => c.reference chunk
  | _ => JoinResult.marked [] chunk (List.replicate chunk.count false) false

/-- Answers left chunks until there is a row to hand out. -/
def probe (kind : JoinKind) (keys : List Expr) (left right : Operator) (side : JoinSide) :
    Nat → JoinProgress → Pull Unit
  | 0, _ => throw .stalled
  | rounds + 1, p => do
    if p.emitted < p.pending.length then
      return ← handOutPairs side p
    let p := { p with pending := [], emitted := 0 }
    setProgress (.join p)
    if side.rows = 0 ∧ (kind = .inner ∨ kind = .semi) then return
    let chunk ← left.fetch
    if chunk.isEmpty then return
    if side.rows = 0 then
      return ← filling (joinWithNothing kind right.types chunk)
    let keyColumns ← (keys.mapM (Expr.evaluate chunk) : Except Failure (List Column))
    let (flags, pending) := probeRows kind side keyColumns chunk.activeRows
    let p := { p with pending := pending }
    setProgress (.join p)
    let flags ← flags
    match kind with
    | .inner | .left => probe kind keys left right side rounds p
    | .semi | .anti => do
      filling (JoinResult.semiOrAnti chunk flags (kind = .anti))
      if !(← out).isEmpty then return
      changeOut Chunk.reset
      probe kind keys left right side rounds p
    | .mark => filling (JoinResult.marked (keyColumns.map HostArray.column) chunk flags side.hasNull)

def join (config : Config) (kind : JoinKind) (on : List (Expr × Expr)) (left right : Operator) : Operator where
  name := "HashJoin"
  types := kind.outputTypes left.types right.types
  start := State.above (.join ⟨none, [], 0⟩) left.start
  rowsLeft s :=
    match s.cell.progress with
    | .join p =>
      let rightRows := p.side.elim (right.rowsLeft right.start) JoinSide.rows
      (p.pending.length - p.emitted) + (rightRows + 1) * left.rowsBelow s.below
    | _ => 0
  pull := answer config (kind.outputTypes left.types right.types) do
    match ← progress with
    | .join p => do
      let side ← match p.side with
        | some side => pure side
        | none => joinRight (on.map Prod.snd) right p
      let rounds := (← left.rounds) + 1
      lendingSide (probe kind (on.map Prod.fst) left right side rounds { p with side := some side })
    | _ => fail (.internal (.otherState "HashJoin"))

end QueryEngine.Operator
