import QueryEngine.Error

/-! Selections: the rows of a chunk that are active, in the order they are read.

A row may occur more than once and rows need not be sorted. Row numbers have 32
bits, which shows only where a selection is made from the ends of a range. -/
namespace QueryEngine

abbrev Selection := List Nat

namespace Selection

/-- The rows from `start` up to but not including `stop`. -/
def range (start stop : Nat) : Selection :=
  let first := start % 0x100000000
  (List.range (stop % 0x100000000 - first)).map (first + ·)

/-- The active row at position `i`. -/
def row (s : Selection) (i : Nat) : Except Failure Nat :=
  match s[i]? with
  | some r => .ok r
  | none => .error .crash

/-- The active rows at positions `start` up to but not including `stop`. -/
def slice (s : Selection) (start stop : Nat) : Except Failure Selection :=
  if start ≤ stop ∧ stop ≤ s.length then .ok ((s.drop start).take (stop - start)) else .error .crash

def last? (s : Selection) : Option Nat := s.max?

end Selection
end QueryEngine
