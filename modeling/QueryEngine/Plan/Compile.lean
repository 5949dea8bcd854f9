import QueryEngine.Plan.Logical

/-! Compiling logical plans.

A node is compiled after its inputs. Calls may stand only as whole elements of the
list that computes them, except inside window calls. What a node yields must be what
the logical plan says it yields. -/
namespace QueryEngine

/-- Refuses an expression with a call in it. -/
def Expr.checkPlain (context : String) (e : Expr) : Except QueryError Unit :=
  if e.containsAggregate || e.containsWindow then .error (.invalidPlan (.misplacedCall context e)) else .ok ()

/-- Refuses a call with a call in its arguments. -/
def Expr.checkArguments : Expr → Except QueryError Unit
  | .aggregate _ args => args.forM (Expr.checkPlain "aggregate argument")
  | _ => .ok ()

namespace LogicalNode

/-- A node over compiled inputs. -/
def compileOver (n : LogicalNode) (inputs : List Plan) (types : List SqlType) : Except QueryError Plan :=
  match n, inputs with
  | get table columns, [] => Plan.ofScan table columns
  | empty, [] => .ok (.empty types)
  | filter exprs, [input] => do
    exprs.forM fun e => do
      e.checkPlain "filter"
      LogicalPlan.checkPredicate input.types e
    return .filter exprs input
  | project exprs, [input] => do
    let types ← exprs.mapM fun e => do
      e.checkPlain "projection"
      e.resolve input.types
    return .project exprs types input
  | aggregate groups calls, [input] => do
    groups.forM (Expr.checkPlain "group")
    calls.forM Expr.checkArguments
    Plan.ofAggregate groups calls input
  | window exprs, [input] => Plan.ofWindow exprs input
  | order keys, [input] => do
    keys.forM fun k => do
      k.expr.checkPlain "order"
      let _ ← k.expr.resolve input.types
    return .order keys input
  | limit n offset, [input] => .ok (.limit n offset input)
  | delete table, [input] => Plan.ofDelete table input
  | prune k, [input] => Plan.ofPrune k input
  | cross, [l, r] => .ok (.cross l r)
  | join kind on, [l, r] => do
    on.forM fun pair => do
      pair.1.checkPlain "join condition"
      pair.2.checkPlain "join condition"
    Plan.ofJoin kind on l r
  | n, inputs => .error (.invalidPlan (.childCount n.name n.arity inputs.length))

end LogicalNode

mutual

/-- The plan that a logical plan asks for. -/
def LogicalPlan.compile : LogicalPlan → Except QueryError Plan
  | .node n inputs types => do
    if inputs.length ≠ n.arity then
      throw (.invalidPlan (.childCount n.name n.arity inputs.length))
    let plan ← n.compileOver (← LogicalPlan.compileAll inputs) types
    if plan.types ≠ types then
      throw (.invalidPlan (.outputTypes plan.name plan.types types))
    return plan

def LogicalPlan.compileAll : List LogicalPlan → Except QueryError (List Plan)
  | [] => .ok []
  | p :: ps => do
    let plan ← p.compile
    return plan :: (← LogicalPlan.compileAll ps)

end
end QueryEngine
