import QueryEngine.Chunk.Filling
import QueryEngine.Join.Kind

/-! Join results that keep the left columns as they are.

A semi or anti join is a selection on the left chunk. A left row without a match
is padded with NULL. A mark join adds one column: TRUE for a row with a match;
without one, NULL if a key of the row is NULL or some right key was, else FALSE.
Match flags are per active row. -/
namespace QueryEngine.JoinResult
open Filling

def checkFlags (child : Chunk) (found : List Bool) : Except QueryError Unit :=
  if found.length = child.count then .ok () else .error (.internal (.matchFlags found.length child.count))

/-- Keeps the rows with a match, or those without one if `anti`. -/
def semiOrAnti (child : Chunk) (found : List Bool) (anti : Bool) : Filling Unit := do
  checkFlags child found
  putAll 0 child.columns
  let kept := (child.activeRows.zip found).filter fun row => row.2 ≠ anti
  modify fun result => result.select (kept.map Prod.fst)

/-- The left rows with NULL in all right columns. -/
def padded (child : Chunk) (rightTypes : List SqlType) : Filling Unit := do
  putAll 0 child.columns
  putAll child.columns.length (rightTypes.map fun t => Column.nulls t child.physicalRows)
  modify fun result => result.setCountFrom child

/-- The mark of a row. -/
def mark (keys : List HostArray) (rightHasNull : Bool) (row : Nat) (found : Bool) : Option Bool :=
  if found then some true
  else if rightHasNull || keys.any fun k => k.isMarkedNull row then none
  else some false

/-- The marks of all physical rows; a hidden row has none. -/
def marks (keys : List HostArray) (rightHasNull : Bool) (rows : Nat) (found : List (Nat × Bool)) :
    List (Option Bool) :=
  (found.foldl (fun ms f => ms.setIfInBounds f.1 (mark keys rightHasNull f.1 f.2))
    (Array.replicate rows none)).toList

/-- The left rows with their marks. No keys, no matches and no NULL on the right say
that the right side is empty. -/
def marked (keys : List HostArray) (child : Chunk) (found : List Bool) (rightHasNull : Bool) :
    Filling Unit := do
  checkFlags child found
  let rows := child.physicalRows
  if let some k := keys.find? fun k => k.size ≠ rows then
    throw (.error (.internal (.keyLength k.size rows)))
  putAll 0 child.columns
  if !child.activeWithin rows then throw .crash
  let ms := marks keys rightHasNull rows (child.activeRows.zip found)
  put child.columns.length (Column.ofBooleans ms)
  modify fun result => result.setCountFrom child

end QueryEngine.JoinResult
