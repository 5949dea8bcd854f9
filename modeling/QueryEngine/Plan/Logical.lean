import QueryEngine.Plan.Basic

/-! Logical plans: what a query asks for.

The builders resolve the types of each node from those of its inputs and refuse a
node that does not resolve. A plan put together without them is taken as it is;
compiling checks it. -/
namespace QueryEngine

inductive LogicalNode where
  | get (table : Provider) (columns : List ColumnRef)
  | filter (exprs : List Expr)
  | project (exprs : List Expr)
  | aggregate (groups calls : List Expr)
  | window (exprs : List Expr)
  | order (keys : List SortKey)
  | limit (limit : Option Nat) (offset : Nat)
  | cross
  | join (kind : JoinKind) (on : List (Expr × Expr))
  | delete (table : Provider)
  | prune (limit : Nat)
  | empty

inductive LogicalPlan where
  | node (node : LogicalNode) (inputs : List LogicalPlan) (types : List SqlType)

namespace LogicalNode

def name : LogicalNode → String
  | get _ _ => "Get"
  | filter _ => "Filter"
  | project _ => "Projection"
  | aggregate _ _ => "Aggregate"
  | window _ => "Window"
  | order _ => "Order"
  | limit _ _ => "Limit"
  | cross => "CrossProduct"
  | join _ _ => "Join"
  | delete _ => "Delete"
  | prune _ => "PruneColumns"
  | empty => "EmptyResult"

/-- How many inputs a node has. -/
def arity : LogicalNode → Nat
  | get _ _ | empty => 0
  | cross | join _ _ => 2
  | _ => 1

def exprTexts (es : List Expr) : String := commaList (es.map Expr.toText)

def limitText : Option Nat → String
  | some n => "Some(" ++ toString n ++ ")"
  | none => "None"

def toText : LogicalNode → String
  | get table columns => "Get: " ++ table.name ++ " [" ++ commaList (columns.map ColumnRef.toText) ++ "]"
  | filter es => "Filter: " ++ exprTexts es
  | project es => "Projection: [" ++ exprTexts es ++ "]"
  | aggregate groups calls => "Aggregate: groups=[" ++ exprTexts groups ++ "], aggregates=[" ++ exprTexts calls ++ "]"
  | window es => "Window: [" ++ exprTexts es ++ "]"
  | order keys => "Order: [" ++ commaList (keys.map SortKey.toText) ++ "]"
  | limit n offset => "Limit: limit=" ++ limitText n ++ ", offset=" ++ toString offset
  | cross => "CrossProduct"
  | join kind on => kind.toText ++ " Join: " ++ String.intercalate " AND " (on.map Plan.pairText)
  | delete table => "Delete: " ++ table.name
  | prune k => "PruneColumns: " ++ toString k
  | empty => "EmptyResult"

end LogicalNode

namespace LogicalPlan

def root : LogicalPlan → LogicalNode
  | node n _ _ => n

def inputs : LogicalPlan → List LogicalPlan
  | node _ ps _ => ps

def types : LogicalPlan → List SqlType
  | node _ _ ts => ts

mutual

/-- A line per node, inputs below their node. -/
def toTextAt (level : Nat) : LogicalPlan → String
  | node n inputs _ => Plan.line level n.toText ++ textsAt (level + 1) inputs

def textsAt (level : Nat) : List LogicalPlan → String
  | [] => ""
  | p :: ps => p.toTextAt level ++ textsAt level ps

end

def toText (p : LogicalPlan) : String := p.toTextAt 0

/-! ### Builders -/

def get (table : Provider) (columns : List ColumnRef) : Except QueryError LogicalPlan := do
  return node (.get table columns) [] (← columns.mapM table.columnType)

/-- All columns of a table. -/
def scan (table : Provider) : Except QueryError LogicalPlan :=
  get table ((List.range table.table.columns.length).map .column)

def empty (types : List SqlType) : LogicalPlan := node .empty [] types

/-- Refuses a predicate that is not a truth value. -/
def checkPredicate (input : List SqlType) (e : Expr) : Except QueryError Unit := do
  let t ← e.resolve input
  if t = .boolean ∨ t = .sqlNull then return ()
  throw (.type (.predicate e t))

def filter (p : LogicalPlan) (exprs : List Expr) : Except QueryError LogicalPlan := do
  exprs.forM (checkPredicate p.types)
  return node (.filter exprs) [p] p.types

def project (p : LogicalPlan) (exprs : List Expr) : Except QueryError LogicalPlan := do
  return node (.project exprs) [p] (← Expr.resolveAll p.types exprs)

def aggregate (p : LogicalPlan) (groups calls : List Expr) : Except QueryError LogicalPlan := do
  let groupTypes ← Expr.resolveAll p.types groups
  return node (.aggregate groups calls) [p] (groupTypes ++ (← Expr.resolveAll p.types calls))

def window (p : LogicalPlan) (exprs : List Expr) : Except QueryError LogicalPlan := do
  return node (.window exprs) [p] (p.types ++ (← Expr.resolveAll p.types exprs))

def order (p : LogicalPlan) (keys : List SortKey) : Except QueryError LogicalPlan := do
  Expr.allResolve (SortKey.resolveEach p.types keys)
  return node (.order keys) [p] p.types

def limit (p : LogicalPlan) (limit : Option Nat) (offset : Nat) : LogicalPlan :=
  node (.limit limit offset) [p] p.types

def cross (l r : LogicalPlan) : LogicalPlan := node .cross [l, r] (l.types ++ r.types)

def join (l r : LogicalPlan) (kind : JoinKind) (on : List (Expr × Expr)) : Except QueryError LogicalPlan := do
  on.forM fun pair => do
    let _ ← pair.1.resolve l.types
    let _ ← pair.2.resolve r.types
  return node (.join kind on) [l, r] (kind.outputTypes l.types r.types)

def delete (p : LogicalPlan) (table : Provider) : LogicalPlan := node (.delete table) [p] [.bigInt]

def prune (p : LogicalPlan) (limit : Nat) : Except QueryError LogicalPlan := do
  if p.types.length < limit then throw (.invalidPlan (.keptInputColumns limit p.types.length))
  return node (.prune limit) [p] (p.types.take limit)

end LogicalPlan
end QueryEngine
