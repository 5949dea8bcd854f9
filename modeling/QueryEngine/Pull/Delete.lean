import QueryEngine.Pull.Operator

/-! Deleting the rows whose ids an input yields.

The ids are in the input's last column; NULL is no row. The rows of a chunk are
deleted before the next chunk is fetched, and what was deleted stays deleted when a
later chunk fails. The answer is one row: how many rows were live before. -/
namespace QueryEngine.Operator
open Pull

/-- The row ids of a chunk. A chunk without a last column of type BIGINT crashes. -/
def idsOf (chunk : Chunk) : Except Failure (List Int64) :=
  match chunk.columns.getLast? with
  | none => .error .crash
  | some column =>
    if column.type = .bigInt ∧ chunk.activeWithin column.size then
      let slots := column.slots.toArray
      .ok (chunk.activeRows.filterMap fun row => (slots.getD row .null).toInt64?)
    else .error .crash

/-- Deletes rows by id and counts those that were live. -/
def deleteIds (table : Provider) (ids : List Int64) : Pull Nat := do
  let f ← get
  let (count, session) := f.session.delete table ids
  set { f with session := session }
  count

def deleteChunks (table : Provider) (input : Operator) : Nat → Nat → Pull Nat
  | 0, _ => throw .stalled
  | rounds + 1, deleted => do
    let chunk ← input.fetch
    if chunk.isEmpty then return deleted
    let count ← deleteIds table (← idsOf chunk)
    deleteChunks table input rounds (deleted + count)

def delete (config : Config) (table : Provider) (input : Operator) : Operator where
  name := "Delete"
  types := [.bigInt]
  start := State.above (.delete false) input.start
  rowsLeft s :=
    match s.cell.progress with
    | .delete done => if done then 0 else 1
    | _ => 0
  pull := answer config [.bigInt] do
    match ← progress with
    | .delete true => return
    | .delete false => do
      let deleted ← deleteChunks table input (← input.rounds) 0
      setProgress (.delete true)
      filling do
        Filling.put 0 (Column.ofInts [Int64.ofNat deleted])
        modify fun c => c.setCount 1
    | _ => fail (.internal (.otherState "Delete"))

end QueryEngine.Operator
