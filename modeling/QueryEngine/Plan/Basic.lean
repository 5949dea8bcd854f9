import QueryEngine.Expr.Aggregate
import QueryEngine.Join.Kind
import QueryEngine.Table.Provider
import QueryEngine.Window.Call

/-! Plans: trees of operators, ready to run.

The checked constructors resolve what a node needs to know of its inputs and refuse
a node that does not fit them. -/
namespace QueryEngine

inductive Plan where
  | source (types : List SqlType) (chunks : List Chunk)
  | scan (table : Provider) (columns : List ColumnRef) (types : List SqlType)
  | filter (predicates : List Expr) (input : Plan)
  | project (exprs : List Expr) (types : List SqlType) (input : Plan)
  | prune (limit : Nat) (input : Plan)
  | order (keys : List SortKey) (input : Plan)
  | limit (limit : Option Nat) (offset : Nat) (input : Plan)
  | aggregate (keys : List Expr) (keyTypes : List SqlType) (calls : List AggregateCall) (input : Plan)
  | window (calls : List WindowCall) (input : Plan)
  | cross (left right : Plan)
  | join (kind : JoinKind) (on : List (Expr × Expr)) (left right : Plan)
  | delete (table : Provider) (input : Plan)
  | empty (types : List SqlType)

namespace Plan

/-- The types of the columns that a plan yields. -/
def types : Plan → List SqlType
  | source ts _ => ts
  | scan _ _ ts => ts
  | filter _ input => input.types
  | project _ ts _ => ts
  | prune k input => input.types.take k
  | order _ input => input.types
  | limit _ _ input => input.types
  | aggregate _ keyTypes calls _ => keyTypes ++ calls.map AggregateCall.type
  | window calls input => input.types ++ calls.map WindowCall.type
  | cross l r => l.types ++ r.types
  | join kind _ l r => kind.outputTypes l.types r.types
  | delete _ _ => [.bigInt]
  | empty ts => ts

/-! ### Checked constructors -/

def ofScan (table : Provider) (columns : List ColumnRef) : Except QueryError Plan := do
  return scan table columns (← columns.mapM table.columnType)

def ofAggregate (keys calls : List Expr) (input : Plan) : Except QueryError Plan := do
  let keyTypes ← Expr.resolveAll input.types keys
  return aggregate keys keyTypes (← calls.mapM (AggregateCall.ofExpr input.types)) input

def ofWindow (calls : List Expr) (input : Plan) : Except QueryError Plan := do
  return window (← calls.mapM (WindowCall.ofExpr input.types)) input

/-- A pair of join keys, both cast to their common type. -/
def joinPair (left right : List SqlType) (pair : Expr × Expr) : Except QueryError (Expr × Expr) := do
  let l ← pair.1.resolve left
  let r ← pair.2.resolve right
  let castTo (t actual : SqlType) (e : Expr) : Expr := if actual = t then e else .cast e t
  match SqlType.common? l r with
  | some t => return (castTo t l pair.1, castTo t r pair.2)
  | none => throw (.type (.joined l r))

def ofJoin (kind : JoinKind) (on : List (Expr × Expr)) (left right : Plan) : Except QueryError Plan := do
  if on.isEmpty then throw (.invalidPlan .joinWithoutCondition)
  return join kind (← on.mapM (joinPair left.types right.types)) left right

def ofDelete (table : Provider) (input : Plan) : Except QueryError Plan :=
  if input.types.getLast? = some .bigInt then .ok (delete table input)
  else .error (.invalidPlan (.deleteInput table.name))

def ofPrune (limit : Nat) (input : Plan) : Except QueryError Plan :=
  if limit ≤ input.types.length then .ok (prune limit input)
  else .error (.invalidPlan (.keptInputColumns limit input.types.length))

/-! ### Written form -/

def name : Plan → String
  | source _ _ => "Source"
  | scan _ _ _ => "TableScan"
  | filter _ _ => "Filter"
  | project _ _ _ => "Projection"
  | prune _ _ => "PruneColumns"
  | order _ _ => "Order"
  | limit _ _ _ => "Limit"
  | aggregate _ _ _ _ => "HashAggregate"
  | window _ _ => "Window"
  | cross _ _ => "CrossProduct"
  | join _ _ _ _ => "HashJoin"
  | delete _ _ => "Delete"
  | empty _ => "EmptyResult"

def pairText (pair : Expr × Expr) : String := pair.1.toText ++ " = " ++ pair.2.toText

/-- What a node does, behind its name. -/
def params : Plan → String
  | source _ _ | cross _ _ | empty _ => ""
  | scan table columns _ => table.name ++ " [" ++ commaList (columns.map ColumnRef.toText) ++ "]"
  | filter predicates _ => String.intercalate " AND " (predicates.map Expr.toText)
  | project exprs _ _ => commaList (exprs.map Expr.toText)
  | prune k _ => toString k
  | order keys _ => commaList (keys.map SortKey.toText)
  | limit (some n) offset _ => "limit=" ++ toString n ++ ", offset=" ++ toString offset
  | limit none offset _ => "offset=" ++ toString offset
  | aggregate keys _ calls _ =>
    "groups=[" ++ commaList (keys.map Expr.toText) ++ "], aggs=[" ++ commaList (calls.map AggregateCall.toText) ++ "]"
  | window calls _ => commaList (calls.map fun c => c.toExpr.toText)
  | join kind on _ _ => kind.toText ++ " on [" ++ commaList (on.map pairText) ++ "]"
  | delete table _ => table.name

/-- A line of a plan, two blanks further in for each level. -/
def line (level : Nat) (text : String) : String := String.ofList (List.replicate (2 * level) ' ') ++ text ++ "\n"

def nodeText (p : Plan) : String := if p.params = "" then p.name else p.name ++ ": " ++ p.params

/-- A line per node, inputs below their node. -/
def toTextAt (level : Nat) : Plan → String
  | filter ps input => line level (filter ps input).nodeText ++ input.toTextAt (level + 1)
  | project es ts input => line level (project es ts input).nodeText ++ input.toTextAt (level + 1)
  | prune k input => line level (prune k input).nodeText ++ input.toTextAt (level + 1)
  | order ks input => line level (order ks input).nodeText ++ input.toTextAt (level + 1)
  | limit n offset input => line level (limit n offset input).nodeText ++ input.toTextAt (level + 1)
  | aggregate ks ts cs input => line level (aggregate ks ts cs input).nodeText ++ input.toTextAt (level + 1)
  | window cs input => line level (window cs input).nodeText ++ input.toTextAt (level + 1)
  | delete t input => line level (delete t input).nodeText ++ input.toTextAt (level + 1)
  | cross l r => line level (cross l r).nodeText ++ l.toTextAt (level + 1) ++ r.toTextAt (level + 1)
  | join k on l r => line level (join k on l r).nodeText ++ l.toTextAt (level + 1) ++ r.toTextAt (level + 1)
  | p => line level p.nodeText

def toText (p : Plan) : String := p.toTextAt 0

end Plan
end QueryEngine
