import QueryEngine.Plan.Compile
import QueryEngine.Proofs.Expr.OnRow
import QueryEngine.Proofs.Expr.Typing

/-! What compiling a node says of it.

A node over compiled inputs is compiled to a plan of one kind, and what was checked on
the way is known of its expressions (`LogicalNode.Compiled`). Nothing that is proved of
compiled plans looks into the compiler past this. -/
namespace QueryEngine

theorem Expr.isPlain_of_checkPlain {context : String} {e : Expr} (h : e.checkPlain context = .ok ()) :
    e.isPlain = true := by
  rw [checkPlain] at h
  split at h
  · cases h
  · rename_i hcalls
    rw [isPlain_eq, Bool.eq_false_iff.mpr hcalls]
    rfl

theorem LogicalPlan.checkPredicate_eq_ok {types : List SqlType} {e : Expr} (h : checkPredicate types e = .ok ()) :
    ∃ t, e.resolve types = .ok t ∧ (t = .boolean ∨ t = .sqlNull) := by
  obtain ⟨t, ht, h⟩ := bind_eq_ok.mp h
  by_cases htruth : t = .boolean ∨ t = .sqlNull
  · exact ⟨t, ht, htruth⟩
  · rw [if_neg htruth] at h
    cases h

namespace LogicalNode

/-- The plan that a node over compiled inputs has become, with what was checked. -/
inductive Compiled : LogicalNode → List Plan → List SqlType → Plan → Prop
  | get {table : Provider} {columns : List ColumnRef} {types columnTypes : List SqlType}
    (htypes : columns.mapM table.columnType = .ok columnTypes) :
    Compiled (.get table columns) [] types (.scan table columns columnTypes)
  | empty (types : List SqlType) : Compiled .empty [] types (.empty types)
  | filter {exprs : List Expr} {input : Plan} {types : List SqlType} (htruths : ∀ e ∈ exprs, e.isPlain = true ∧
      ∃ t, e.resolve input.types = .ok t ∧ (t = .boolean ∨ t = .sqlNull)) :
    Compiled (.filter exprs) [input] types (.filter exprs input)
  | project {exprs : List Expr} {input : Plan} {types resolved : List SqlType} (hplain : ∀ e ∈ exprs, e.isPlain = true)
    (htypes : exprs.mapM (Expr.resolve input.types) = .ok resolved) :
    Compiled (.project exprs) [input] types (.project exprs resolved input)
  | aggregate {groups exprs : List Expr} {input : Plan} {types keyTypes : List SqlType} {calls : List AggregateCall}
    (hplain : ∀ e ∈ groups, e.isPlain = true) (harguments : ∀ e ∈ exprs, e.checkArguments = .ok ())
    (hkeyTypes : Expr.resolveAll input.types groups = .ok keyTypes)
    (hcalls : exprs.mapM (AggregateCall.ofExpr input.types) = .ok calls) :
    Compiled (.aggregate groups exprs) [input] types (.aggregate groups keyTypes calls input)
  | window {exprs : List Expr} {input : Plan} {types : List SqlType} {calls : List WindowCall}
    (hcalls : exprs.mapM (WindowCall.ofExpr input.types) = .ok calls) :
    Compiled (.window exprs) [input] types (.window calls input)
  | order {keys : List SortKey} {input : Plan} {types : List SqlType}
    (hkeys : ∀ k ∈ keys, k.expr.isPlain = true ∧ ∃ t, k.expr.resolve input.types = .ok t) :
    Compiled (.order keys) [input] types (.order keys input)
  | limit {n : Option Nat} {offset : Nat} {input : Plan} {types : List SqlType} :
    Compiled (.limit n offset) [input] types (.limit n offset input)
  | delete {table : Provider} {input : Plan} {types : List SqlType} (hlast : input.types.getLast? = some .bigInt) :
    Compiled (.delete table) [input] types (.delete table input)
  | prune {k : Nat} {input : Plan} {types : List SqlType} (hk : k ≤ input.types.length) :
    Compiled (.prune k) [input] types (.prune k input)
  | cross {l r : Plan} {types : List SqlType} : Compiled .cross [l, r] types (.cross l r)
  | join {kind : JoinKind} {on keys : List (Expr × Expr)} {l r : Plan} {types : List SqlType}
    (hplain : ∀ pair ∈ on, pair.1.isPlain = true ∧ pair.2.isPlain = true)
    (hkeys : on.mapM (Plan.joinPair l.types r.types) = .ok keys) :
    Compiled (.join kind on) [l, r] types (.join kind keys l r)

theorem compiled_of_compileOver {n : LogicalNode} {inputs : List Plan} {types : List SqlType} {p : Plan}
    (h : n.compileOver inputs types = .ok p) : n.Compiled inputs types p := by
  unfold compileOver at h
  split at h
  · -- get
    obtain ⟨_, htypes, h⟩ := bind_eq_ok.mp h
    cases h
    exact .get htypes
  · -- empty
    cases h
    exact .empty types
  · -- filter
    obtain ⟨_, hchecked, h⟩ := bind_eq_ok.mp h
    cases h
    refine .filter fun e he => ?_
    obtain ⟨_, hplain, htruth⟩ := bind_eq_ok.mp (forall_of_forM hchecked e he)
    exact ⟨Expr.isPlain_of_checkPlain hplain, LogicalPlan.checkPredicate_eq_ok htruth⟩
  · -- project
    obtain ⟨resolved, hchecked, h⟩ := bind_eq_ok.mp h
    cases h
    refine .project (fun e he => ?_) (mapM_eq_ok_iff.mpr ((mapM_eq_ok_iff.mp hchecked).imp fun e t ht => ?_))
    · obtain ⟨t, _, ht⟩ := mapM_ok_of_mem hchecked he
      obtain ⟨_, hplain, _⟩ := bind_eq_ok.mp ht
      exact Expr.isPlain_of_checkPlain hplain
    · obtain ⟨_, _, ht⟩ := bind_eq_ok.mp ht
      exact ht
  · -- aggregate
    obtain ⟨_, hplain, h⟩ := bind_eq_ok.mp h
    obtain ⟨_, harguments, h⟩ := bind_eq_ok.mp h
    obtain ⟨_, hkeyTypes, h⟩ := bind_eq_ok.mp h
    obtain ⟨_, hcalls, h⟩ := bind_eq_ok.mp h
    cases h
    exact .aggregate (fun e he => Expr.isPlain_of_checkPlain (forall_of_forM hplain e he)) (forall_of_forM harguments)
      hkeyTypes hcalls
  · -- window
    obtain ⟨_, hcalls, h⟩ := bind_eq_ok.mp h
    cases h
    exact .window hcalls
  · -- order
    obtain ⟨_, hchecked, h⟩ := bind_eq_ok.mp h
    cases h
    refine .order fun k hk => ?_
    obtain ⟨_, hplain, ht⟩ := bind_eq_ok.mp (forall_of_forM hchecked k hk)
    obtain ⟨t, ht, _⟩ := bind_eq_ok.mp ht
    exact ⟨Expr.isPlain_of_checkPlain hplain, t, ht⟩
  · -- limit
    cases h
    exact .limit
  · -- delete
    unfold Plan.ofDelete at h
    split at h
    · rename_i hlast
      cases h
      exact .delete hlast
    · cases h
  · -- prune
    unfold Plan.ofPrune at h
    split at h
    · rename_i hk
      cases h
      exact .prune hk
    · cases h
  · -- cross
    cases h
    exact .cross
  · -- join
    obtain ⟨_, hchecked, h⟩ := bind_eq_ok.mp h
    unfold Plan.ofJoin at h
    split at h
    · cases h
    obtain ⟨_, hkeys, h⟩ := bind_eq_ok.mp h
    cases h
    refine .join (fun pair hpair => ?_) hkeys
    obtain ⟨_, hl, hr⟩ := bind_eq_ok.mp (forall_of_forM hchecked pair hpair)
    exact ⟨Expr.isPlain_of_checkPlain hl, Expr.isPlain_of_checkPlain hr⟩
  · cases h

end LogicalNode
end QueryEngine
