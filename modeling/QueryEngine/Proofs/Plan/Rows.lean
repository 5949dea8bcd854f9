import QueryEngine.Plan.Run
import QueryEngine.Proofs.Join.Keys
import QueryEngine.Proofs.Plan.Compiled
import QueryEngine.Proofs.Pull.Delete
import QueryEngine.Proofs.Pull.Grouping
import QueryEngine.Proofs.Pull.Join
import QueryEngine.Proofs.Pull.Leaf
import QueryEngine.Proofs.Pull.Streaming

/-! What compiled plans give.

A compiled plan is built node by node over compiled inputs (`Built`), so what holds of
every operator over inputs for which it holds, holds of every compiled plan. A plan
that neither pairs rows chunk by chunk nor deletes has rows that no setting has a part
in (`Plan.rows`), and these are what its operator gives. -/
namespace QueryEngine

mutual

/-- The nodes of a logical plan, inputs behind their node. -/
def LogicalPlan.nodes : LogicalPlan → List LogicalNode
  | .node n inputs _ => n :: LogicalPlan.nodesOf inputs

def LogicalPlan.nodesOf : List LogicalPlan → List LogicalNode
  | [] => []
  | q :: qs => q.nodes ++ LogicalPlan.nodesOf qs

end

namespace Plan

/-- A plan compiled from nodes that are as `P` tells. -/
inductive Built (P : LogicalNode → Prop) : Plan → Prop
  | node {n : LogicalNode} {inputs : List Plan} {types : List SqlType} {p : Plan} (hn : P n)
    (hinputs : ∀ q ∈ inputs, Built P q) (h : n.compileOver inputs types = .ok p) : Built P p

mutual

theorem built_of_compile {P : LogicalNode → Prop} : ∀ (q : LogicalPlan) {p : Plan}, (∀ n ∈ q.nodes, P n) →
    q.compile = .ok p → Built P p
  | .node n inputs types, p, hP, h => by
    rw [LogicalPlan.compile] at h
    rw [LogicalPlan.nodes] at hP
    split at h
    · cases h
    obtain ⟨plans, hplans, h⟩ := bind_eq_ok.mp h
    obtain ⟨plan, hplan, h⟩ := bind_eq_ok.mp h
    split at h
    · cases h
    cases h
    refine .node (hP n (List.mem_cons_self ..)) ?_ hplan
    exact built_of_compileAll inputs (fun n hn => hP n (List.mem_cons_of_mem _ hn)) hplans

theorem built_of_compileAll {P : LogicalNode → Prop} : ∀ (qs : List LogicalPlan) {ps : List Plan},
    (∀ n ∈ LogicalPlan.nodesOf qs, P n) → LogicalPlan.compileAll qs = .ok ps → ∀ p ∈ ps, Built P p
  | [], ps, _, h => by
    cases h
    exact fun _ hp => (by cases hp)
  | q :: qs, ps, hP, h => by
    rw [LogicalPlan.compileAll] at h
    rw [LogicalPlan.nodesOf] at hP
    obtain ⟨plan, hplan, h⟩ := bind_eq_ok.mp h
    obtain ⟨plans, hplans, h⟩ := bind_eq_ok.mp h
    cases h
    intro p hp
    rcases List.mem_cons.mp hp with hp | hp
    · exact hp ▸ built_of_compile q (fun n hn => hP n (List.mem_append_left _ hn)) hplan
    · exact built_of_compileAll qs (fun n hn => hP n (List.mem_append_right _ hn)) hplans p hp

end

/-- The rows of a plan, over tables with the deleted rows of a session. A cross product
and a deletion have none of their own here: theirs depend on more. -/
def rows (session : Session) : Plan → List Row
  | source _ chunks => chunks.flatMap Chunk.rows
  | scan table columns _ => table.liveFrom (session.mask table) columns 0
  | filter predicates input => (input.rows session).filter fun row => predicates.all (Expr.holdsOn row)
  | project exprs _ input => (input.rows session).map fun row => exprs.map (Expr.valueOn row)
  | prune k input => (input.rows session).map (List.take k)
  | order keys input => Operator.sortRows keys input.types (input.rows session)
  | limit n offset input => Operator.limitRows (Operator.limitEnd n offset) offset 0 (input.rows session)
  | aggregate keys keyTypes calls input => groupedRows keys keyTypes calls (input.rows session)
  | window calls input => Operator.windowRows calls input.types (input.rows session)
  | join kind on l r => (joinKeys on).nestedLoop kind r.types (l.rows session) (r.rows session)
  | cross _ _ | delete _ _ | empty _ => []

/-- What a node asks of the terms: tables as they are in the session, where rows are
told beforehand. -/
def Admits (T : Terms) (session : Session) : LogicalNode → Prop
  | .get table _ => T.told → session.Fits table ∧ ∀ s : Session, T.sees s.masks → s.mask table = session.mask table
  | .cross => ¬T.told
  | .delete _ => ¬T.told ∧ ∀ masks, T.sees masks
  | _ => True

theorem Built.gives {T : Terms} {c₁ c₂ : Config} (h₁ : c₁.capacity = T.capacity) (h₂ : c₂.capacity = T.capacity)
    {session : Session} {p : Plan} (h : Built (Admits T session) p) :
    Gives T (p.operator c₁) (p.operator c₂) (p.rows session) (p.operator c₁).start.cells := by
  induction h with
  | @node n inputs types p hn hinputs h ih =>
    cases LogicalNode.compiled_of_compileOver h with
    | get htypes => exact Operator.gives_scan (length_of_mapM htypes).symm hn h₁ h₂
    | empty => exact Operator.gives_empty h₁ h₂ types
    | filter => exact Operator.gives_filter h₁ h₂ _ (ih _ (List.mem_cons_self ..))
    | project _ htypes => exact Operator.gives_project h₁ h₂ (length_of_mapM htypes).symm (ih _ (List.mem_cons_self ..))
    | @aggregate _ _ _ _ keyTypes calls =>
      exact Operator.gives_aggregate h₁ h₂ _ keyTypes calls (ih _ (List.mem_cons_self ..))
    | @window _ _ _ calls =>
      have hinput := Operator.gives_window h₁ h₂ calls (ih _ (List.mem_cons_self ..))
      rw [operator_types] at hinput
      exact hinput
    | @order keys =>
      have hinput := Operator.gives_order h₁ h₂ keys (ih _ (List.mem_cons_self ..))
      rw [operator_types] at hinput
      exact hinput
    | limit => exact Operator.gives_limit h₁ h₂ _ _ (ih _ (List.mem_cons_self ..))
    | delete => exact Operator.gives_delete hn.1 hn.2 h₁ h₂ _ (ih _ (List.mem_cons_self ..))
    | prune => exact Operator.gives_prune h₁ h₂ _ (ih _ (List.mem_cons_self ..))
    | cross =>
      exact Operator.gives_cross hn h₁ h₂ (ih _ (List.mem_cons_self ..)) (ih _ (List.mem_cons_of_mem _ (List.mem_cons_self ..)))
    | @join kind on keys l r _ _ hkeys =>
      have hleft := ih l (List.mem_cons_self ..)
      have hright := ih r (List.mem_cons_of_mem _ (List.mem_cons_self ..))
      exact Operator.gives_join (J := ⟨kind, joinKeys keys, l.types, r.types, on.map (commonType l.types r.types),
        r.rows session⟩) h₁ h₂ (operator_types c₁ l) (operator_types c₁ r) (keyOn_left hkeys).2 (keyOn_right hkeys).2
        hleft hright

end Plan
end QueryEngine
