import QueryEngine.Value.SqlType

/-! The kinds of joins. A mark join keeps every left row and adds a truth value: has
it a match? -/
namespace QueryEngine

inductive JoinKind where
  | inner
  | left
  | semi
  | anti
  | mark
  deriving DecidableEq

namespace JoinKind

def toText : JoinKind → String
  | inner => "INNER"
  | left => "LEFT"
  | semi => "SEMI"
  | anti => "ANTI"
  | mark => "MARK"

/-- The column types of a join of inputs of these types. -/
def outputTypes (k : JoinKind) (l r : List SqlType) : List SqlType :=
  match k with
  | inner | left => l ++ r
  | semi | anti => l
  | mark => l ++ [.boolean]

end JoinKind
end QueryEngine
