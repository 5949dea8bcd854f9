import QueryEngine.Value.Column

/-! Keys: the values of some columns in one row.

Grouping, partitioning and joining compare keys by their canonical forms, so that
the two zeros are one key and so are all NaNs. Grouping takes NULL for a value like
any other. A join does not: a row that has a NULL in its key matches nothing. -/
namespace QueryEngine

abbrev Key := List Scalar

namespace Key

def canonical (k : Key) : Key := k.map Scalar.canonical

/-- The key of a row. -/
def ofRow (columns : List Column) (row : Nat) : Except QueryError Key :=
  columns.mapM fun (c : Column) => c.get row

/-- The key that a row is joined by; `none` if it has a NULL, behind which nothing is
read. -/
def joining? : List Column → Nat → Except QueryError (Option Key)
  | [], _ => .ok (some [])
  | c :: cs, row => do
    let v ← c.get row
    if v.isNull then return none
    return (← joining? cs row).map (v :: ·)

end Key
end QueryEngine
