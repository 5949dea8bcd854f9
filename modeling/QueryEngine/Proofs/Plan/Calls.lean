import QueryEngine.Proofs.Plan.TypeSoundness
import QueryEngine.Proofs.Pull.Quiet

/-! Where calls may stand.

An aggregate or window call is computed by the node that has it as a whole element of its
list; anywhere else it comes before the evaluator, which refuses it, and only when there
are rows. So the compiler is to refuse a call that stands inside another expression or in
a list of another node. It does, with one exception: it does not look inside the calls of
a window node. A compiled plan in which no call stands there never comes upon one; a call
that stands there compiles, and the first row to be answered fails on it. -/
namespace QueryEngine

/-! ### What may have no calls in it -/

namespace Expr

/-- The arguments of an aggregate call; any other expression stands for itself. -/
def belowAggregate : Expr → List Expr
  | .aggregate _ args => args
  | e => [e]

def isWindowCall : Expr → Bool
  | .window _ _ _ _ => true
  | _ => false

/-- The arguments, partition keys and sort keys of a window call. -/
def withinWindow : Expr → List Expr
  | .window _ args partitions orders => args ++ partitions ++ orders.map SortKey.expr
  | _ => []

end Expr

namespace LogicalNode

/-- The expressions in which no call may stand, but for what stands within the calls of a
window. -/
def scalars : LogicalNode → List Expr
  | filter exprs | project exprs => exprs
  | aggregate groups calls => groups ++ calls.flatMap Expr.belowAggregate
  | window exprs => exprs.filter fun e => !e.isWindowCall
  | order keys => keys.map SortKey.expr
  | join _ on => on.flatMap fun pair => [pair.1, pair.2]
  | get _ _ | limit _ _ | cross | delete _ | prune _ | empty => []

/-- What stands within the calls of a window. -/
def withinWindows : LogicalNode → List Expr
  | window exprs => exprs.flatMap Expr.withinWindow
  | _ => []

variable {n : LogicalNode} {inputs : List Plan} {types : List SqlType} {p : Plan}

/-- Only a call is compiled to an aggregate call. -/
theorem isPlain_belowAggregate {input : List SqlType} {e argument : Expr} {c : AggregateCall}
    (hplain : e.checkArguments = .ok ()) (h : AggregateCall.ofExpr input e = .ok c) (hargument : argument ∈ e.belowAggregate) :
    argument.isPlain = true := by
  cases e with
  | aggregate f args => exact Expr.isPlain_of_checkPlain (forall_of_forM hplain argument hargument)
  | _ => cases h

/-- Only a call is compiled to a window call. -/
theorem isWindowCall_of_ofExpr {input : List SqlType} {e : Expr} {w : WindowCall} (h : WindowCall.ofExpr input e = .ok w) :
    e.isWindowCall = true := by
  obtain ⟨t, _, h⟩ := bind_eq_ok.mp h
  cases e with
  | window => rfl
  | _ => cases h

/-- A node that compiles has no call in any of these. -/
theorem isPlain_of_compileOver (h : n.compileOver inputs types = .ok p) : ∀ e ∈ n.scalars, e.isPlain = true := by
  cases compiled_of_compileOver h with
  | get | empty | limit | delete | prune | cross => nofun
  | filter htruths => exact fun e he => (htruths e he).1
  | project hplain => exact hplain
  | aggregate hplain harguments _ hcalls =>
    refine List.forall_mem_append.mpr ⟨hplain, fun e he => ?_⟩
    obtain ⟨call, hcall, he⟩ := List.mem_flatMap.mp he
    obtain ⟨_, _, hof⟩ := mapM_ok_of_mem hcalls hcall
    exact isPlain_belowAggregate (harguments call hcall) hof he
  | window hcalls =>
    intro e he
    obtain ⟨he, hnone⟩ := List.mem_filter.mp he
    obtain ⟨_, _, hof⟩ := mapM_ok_of_mem hcalls he
    simp [isWindowCall_of_ofExpr hof] at hnone
  | order hkeys => exact List.forall_mem_map.mpr fun k hk => (hkeys k hk).1
  | join hplain =>
    intro e he
    obtain ⟨pair, hpair, he⟩ := List.mem_flatMap.mp he
    rcases List.mem_pair.mp he with rfl | rfl
    · exact (hplain pair hpair).1
    · exact (hplain pair hpair).2

end LogicalNode

namespace LogicalPlan

mutual

/-- Every node of a plan that compiles has been compiled. -/
theorem compiled_nodes : ∀ (q : LogicalPlan) {p : Plan}, q.compile = .ok p →
    ∀ n ∈ q.nodes, ∃ inputs types plan, n.compileOver inputs types = .ok plan
  | .node root inputs types, p, h, n, hn => by
    rw [compile] at h
    split at h
    · cases h
    obtain ⟨plans, hplans, h⟩ := bind_eq_ok.mp h
    obtain ⟨plan, hplan, _⟩ := bind_eq_ok.mp h
    rw [nodes] at hn
    rcases List.mem_cons.mp hn with rfl | hn
    · exact ⟨plans, types, plan, hplan⟩
    · exact compiled_nodesOf inputs hplans n hn

theorem compiled_nodesOf : ∀ (qs : List LogicalPlan) {ps : List Plan}, compileAll qs = .ok ps →
    ∀ n ∈ nodesOf qs, ∃ inputs types plan, n.compileOver inputs types = .ok plan
  | [], _, _, _, hn => by cases hn
  | q :: qs, ps, h, n, hn => by
    rw [compileAll] at h
    obtain ⟨plan, hplan, h⟩ := bind_eq_ok.mp h
    obtain ⟨plans, hplans, _⟩ := bind_eq_ok.mp h
    rw [nodesOf] at hn
    rcases List.mem_append.mp hn with hn | hn
    · exact compiled_nodes q hplan n hn
    · exact compiled_nodesOf qs hplans n hn

end

end LogicalPlan

/-! ### Running -/

namespace Plan

/-- A call with nothing but plain expressions within is flat. -/
theorem flat_of_ofExpr {input : List SqlType} {e : Expr} {w : WindowCall} (h : WindowCall.ofExpr input e = .ok w)
    (hplain : ∀ part ∈ e.withinWindow, part.isPlain = true) : w.Flat := by
  obtain ⟨t, _, h⟩ := bind_eq_ok.mp h
  cases e with
  | window f args partitions orders =>
    cases h
    obtain ⟨hfront, horders⟩ := List.forall_mem_append.mp hplain
    obtain ⟨hargs, hpartitions⟩ := List.forall_mem_append.mp hfront
    exact ⟨hargs, hpartitions, List.forall_mem_map.mp horders⟩
  | _ => cases h

/-- No pull of a plan without calls within window calls comes upon a call. -/
theorem Built.quiet (config : Config) {p : Plan} (h : Built (fun n => ∀ e ∈ n.withinWindows, e.isPlain = true) p) :
    Quiet (p.operator config).pull := by
  induction h with
  | @node n inputs types p hn hinputs h ih =>
    have hplain := LogicalNode.isPlain_of_compileOver h
    cases LogicalNode.compiled_of_compileOver h with
    | get => exact Operator.quiet_scan _ _ _
    | empty => exact Operator.quiet_empty _
    | filter => exact Operator.quiet_filter (ih _ (List.mem_cons_self ..)) hplain
    | project => exact Operator.quiet_project (ih _ (List.mem_cons_self ..)) hplain _
    | aggregate _ _ _ hcalls =>
      obtain ⟨hgroups, harguments⟩ := List.forall_mem_append.mp hplain
      refine Operator.quiet_aggregate (ih _ (List.mem_cons_self ..)) hgroups (fun c hc argument hargument => ?_) _
      obtain ⟨e, he, hof⟩ := mem_of_mapM hcalls hc
      refine harguments argument (List.mem_flatMap.mpr ⟨e, he, ?_⟩)
      cases e with
      | aggregate f args =>
        obtain ⟨_, _, hof⟩ := bind_eq_ok.mp hof
        cases hof
        exact List.mem_of_mem_head? hargument
      | _ => cases hof
    | window hcalls =>
      refine Operator.quiet_window (ih _ (List.mem_cons_self ..)) fun w hw => ?_
      obtain ⟨e, he, hof⟩ := mem_of_mapM hcalls hw
      exact flat_of_ofExpr hof fun part hpart => hn part (List.mem_flatMap.mpr ⟨e, he, hpart⟩)
    | order => exact Operator.quiet_order (ih _ (List.mem_cons_self ..)) (List.forall_mem_map.mp hplain)
    | limit => exact Operator.quiet_limit (ih _ (List.mem_cons_self ..)) _ _
    | delete => exact Operator.quiet_delete (ih _ (List.mem_cons_self ..)) _
    | prune => exact Operator.quiet_prune (ih _ (List.mem_cons_self ..)) _
    | cross => exact Operator.quiet_cross (ih _ (List.mem_cons_self ..)) (ih _ (List.mem_cons_of_mem _ (List.mem_cons_self ..)))
    | join hkeysPlain hkeys =>
      obtain ⟨hleft, hright⟩ := resolved_keys hkeysPlain hkeys
      refine Operator.quiet_join (ih _ (List.mem_cons_self ..)) (ih _ (List.mem_cons_of_mem _ (List.mem_cons_self ..))) _
        fun pair hpair => ⟨?_, ?_⟩
      · exact (hleft pair.1 (List.mem_map_of_mem hpair)).1
      · exact (hright pair.2 (List.mem_map_of_mem hpair)).1

variable {α : Type} {config : Config} {p : Plan}

/-- A run ends as its pulls and its consumer do. -/
theorem pullAll_quiet {consume : Consumer α} (h : Quiet (p.operator config).pull)
    (hconsume : ∀ consumer chunk, Yields Failure.Quiet (consume consumer chunk).1 fun _ => True) (rounds : Nat)
    (stats : Stats) (out : Chunk) (s : State) (consumer : α) (session : Session) :
    Yields Failure.Quiet (p.pullAll config consume rounds stats out s consumer session).result fun _ => True := by
  induction rounds generalizing stats out s consumer session with
  | zero => trivial
  | succ rounds ih =>
    rw [pullAll, pull]
    cases hpull : (p.operator config).pull ⟨s.cell, s.below, session, out⟩ with
    | error e f => exact h _ _ _ hpull
    | ok a f =>
      simp only []
      split
      · trivial
      cases hcount : addCounts stats.rows f.out.count with
      | error e => exact (addCounts_quiet _ _).error hcount
      | ok rows =>
        have hconsumed := hconsume consumer f.out
        cases htaken : consume consumer f.out with
        | mk result consumer' =>
        rw [htaken] at hconsumed
        cases result with
        | error e => exact hconsumed
        | ok _ => exact ih _ _ _ _ _

/-- A run ends as its pulls do. -/
theorem Built.run_quiet (config : Config) {p : Plan} (h : Built (fun n => ∀ e ∈ n.withinWindows, e.isPlain = true) p)
    (collected : Collection) (session : Session) :
    Yields Failure.Quiet (p.run config Collection.consume collected session).result fun _ => True := by
  apply pullAll_quiet (h.quiet config)
  intro collected chunk
  unfold Collection.consume
  cases happended : collected.append chunk with
  | ok more => trivial
  | error e => exact (collected.append_quiet chunk).error happended

end Plan

namespace LogicalPlan
open Plan

/-- A call in an expression of any node, but for those within the calls of a window, makes
compiling fail. And a compiled plan without calls within window calls never comes upon a
call: no pull does, from whatever state, in whatever session and under whatever config,
and no execution. -/
theorem compile_keeps_calls_out (q : LogicalPlan) :
    ((∃ n ∈ q.nodes, ∃ e ∈ n.scalars, e.isPlain = false) → ∃ x, q.compile = .error x) ∧
    ((∀ n ∈ q.nodes, ∀ e ∈ n.withinWindows, e.isPlain = true) → ∀ p, q.compile = .ok p →
      (∀ config out s session x, (p.pull config out s session).result = .error x → x.Quiet) ∧
      ∀ (c : Context) session x, (c.execute q session).1 = .error x → x.Quiet) := by
  constructor
  · rintro ⟨n, hn, e, he, hcall⟩
    cases hq : q.compile with
    | error x => exact ⟨x, rfl⟩
    | ok p =>
      obtain ⟨inputs, types, plan, hplan⟩ := compiled_nodes q hq n hn
      have hplain : e.isPlain = true := LogicalNode.isPlain_of_compileOver hplan e he
      rw [hcall] at hplain
      cases hplain
  · intro hwithin p hp
    have hbuilt : Built (fun n => ∀ e ∈ n.withinWindows, e.isPlain = true) p := built_of_compile q hwithin hp
    constructor
    · intro config out s session x hx
      rw [Plan.pull] at hx
      cases hpull : (p.operator config).pull ⟨s.cell, s.below, session, out⟩ with
      | ok a f =>
        rw [hpull] at hx
        cases hx
      | error e f =>
        rw [hpull] at hx
        cases hx
        exact hbuilt.quiet config _ _ _ hpull
    · intro c session x hx
      have hran := hbuilt.run_quiet c.config (Collection.ofTypes p.types) session
      rw [Context.execute_of_compile hp] at hx
      exact (Yields.map (R := fun _ => True) hran).error hx

/-- A sum in a predicate does not compile; a running sum of successors does, and past the
greatest integer it is a successor that fails. -/
theorem compile_keeps_calls_out_sum :
    let table : Provider := ⟨0, ⟨"t", [.ofInts [0x7fffffffffffffff]], 1, by decide⟩, 0⟩
    let scan : LogicalPlan := .node (.get table [.column 0]) [] [.bigInt]
    let next : Expr := .binary (.column 0 .bigInt) (.arithmetic .add) (.literal (.bigInt 1))
    let absent : LogicalPlan := .node (.filter [.unary .isNull (.aggregate .sum [next])]) [scan] [.bigInt]
    let running : LogicalPlan := .node (.window [.window (.aggregate .sum) [next] [] []]) [scan] [.bigInt, .bigInt]
    let c : Context := ⟨Config.standard, [table]⟩
    (∃ x, absent.compile = .error x) ∧
      ∃ p x, running.compile = .ok p ∧ (c.execute running c.session).1 = .error x ∧ x.Quiet := by
  intro table scan next absent running c
  have hrunning : running.compile =
      .ok (.window [⟨.aggregate .sum, [next], [], [], .bigInt⟩] (.scan table [.column 0] [.bigInt])) := rfl
  have hwithin : ∀ n ∈ running.nodes, ∀ e ∈ n.withinWindows, e.isPlain = true :=
    List.forall_mem_cons.mpr ⟨List.forall_mem_cons.mpr ⟨rfl, nofun⟩, List.forall_mem_cons.mpr ⟨nofun, nofun⟩⟩
  have hfails : (c.execute running c.session).1.toOption.isNone = true := by decide +kernel
  constructor
  · exact (compile_keeps_calls_out absent).1 ⟨_, List.mem_cons_self .., _, List.mem_cons_self .., rfl⟩
  · cases hx : (c.execute running c.session).1 with
    | ok result =>
      rw [hx] at hfails
      cases hfails
    | error x => exact ⟨_, x, hrunning, rfl, ((compile_keeps_calls_out running).2 hwithin _ hrunning).2 c c.session x hx⟩

/-- A sum within a running sum: the plan compiles, and running it over a row fails on the
inner sum. -/
theorem compile_sum_within_window :
    let table : Provider := ⟨0, ⟨"t", [.ofInts [1]], 1, by decide⟩, 0⟩
    let sum : Expr := .aggregate .sum [.column 0 .bigInt]
    let q : LogicalPlan := .node (.window [.window (.aggregate .sum) [sum] [] []])
      [.node (.get table [.column 0]) [] [.bigInt]] [.bigInt, .bigInt]
    let c : Context := ⟨Config.standard, [table]⟩
    ∃ p x, q.compile = .ok p ∧ (c.execute q c.session).1 = .error x ∧ ¬x.Quiet := by
  intro table sum q c
  have hcompile : q.compile =
      .ok (.window [⟨.aggregate .sum, [sum], [], [], .bigInt⟩] (.scan table [.column 0] [.bigInt])) := rfl
  have hfails : Yields (fun x : Failure => ¬x.Quiet) (c.execute q c.session).1 fun _ => False := by decide +kernel
  obtain ⟨x, hx, hquiet⟩ := hfails.exists_error
  exact ⟨_, x, hcompile, hx, hquiet⟩

end LogicalPlan
end QueryEngine
