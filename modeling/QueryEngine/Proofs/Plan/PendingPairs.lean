import QueryEngine.Proofs.Plan.Rows
import QueryEngine.Proofs.Pull.Emitted
import QueryEngine.Proofs.Pull.EnduringPairs

/-! The pairs that joins in plans owe.

Every operator of a plan outlasts failures over inputs that do (`Assembled.enduring`), so nothing
has to be asked of the inputs of a join in a plan: what is known of its cursor holds wherever pulls
may come to, whatever was refused them and whatever has been deleted in between. -/
namespace QueryEngine.Plan

/-- A plan over prepared chunks and tables, each of its nodes checked by the compiler. -/
inductive Assembled : Plan → Prop
  | source {types : List SqlType} {chunks : List Chunk} (hchunks : ∀ chunk ∈ chunks, chunk.Sound ∧ chunk.types = types) :
    Assembled (.source types chunks)
  | node {n : LogicalNode} {inputs : List Plan} {types : List SqlType} {p : Plan}
    (hinputs : ∀ q ∈ inputs, Assembled q) (h : n.compileOver inputs types = .ok p) : Assembled p

theorem Built.assembled {P : LogicalNode → Prop} {p : Plan} (h : Built P p) : Assembled p := by
  induction h with
  | node _ _ h ih => exact .node ih h

/-- All that the compiler makes is so, and the plans within it. -/
theorem assembled_of_compile {q : LogicalPlan} {p : Plan} (h : q.compile = .ok p) : Assembled p :=
  (built_of_compile (P := fun _ => True) q (fun _ _ => trivial) h).assembled

/-- Whatever was refused, and whatever has been deleted since, a plan hands out sound chunks of its types when it succeeds. -/
theorem Assembled.enduring {p : Plan} (h : Assembled p) (config : Config) :
    (p.operator config).Enduring (fun _ => True) (p.operator config).start.cells := by
  induction h with
  | source hchunks => exact Operator.enduring_source hchunks
  | @node n inputs types p hinputs h ih =>
    cases LogicalNode.compiled_of_compileOver h with
    | get htypes => exact Operator.enduring_scan (length_of_mapM htypes).symm
    | empty => exact Operator.enduring_empty types
    | filter => exact Operator.enduring_filter (ih _ (List.mem_cons_self ..)) _
    | project _ htypes => exact Operator.enduring_project (ih _ (List.mem_cons_self ..)) (length_of_mapM htypes).symm
    | aggregate => exact Operator.enduring_aggregate (ih _ (List.mem_cons_self ..)) _ _ _
    | window => exact Operator.enduring_window (ih _ (List.mem_cons_self ..)) _
    | order => exact Operator.enduring_order (ih _ (List.mem_cons_self ..)) _
    | limit => exact Operator.enduring_limit (ih _ (List.mem_cons_self ..)) _ _
    | delete => exact Operator.enduring_delete (ih _ (List.mem_cons_self ..)) (fun _ => trivial) _
    | prune => exact Operator.enduring_prune (ih _ (List.mem_cons_self ..)) _
    | cross =>
      exact Operator.enduring_cross (ih _ (List.mem_cons_self ..)) (ih _ (List.mem_cons_of_mem _ (List.mem_cons_self ..))).proper
    | @join kind on keys l r _ _ hkeys =>
      exact Operator.enduring_join (J := ⟨kind, joinKeys keys, l.types, r.types, on.map (commonType l.types r.types), []⟩)
        (operator_types config l) (operator_types config r) (keyOn_left hkeys).2 (keyOn_right hkeys).2
        (ih l (List.mem_cons_self ..)) (ih r (List.mem_cons_of_mem _ (List.mem_cons_self ..))).proper

variable {config : Config} {kind : JoinKind} {on : List (Expr × Expr)} {l r : Plan}

theorem Assembled.of_join (h : Assembled (.join kind on l r)) : Assembled l ∧ Assembled r := by
  cases h with
  | node hinputs h =>
    cases LogicalNode.compiled_of_compileOver h with
    | join => exact ⟨hinputs l (List.mem_cons_self ..), hinputs r (List.mem_cons_of_mem _ (List.mem_cons_self ..))⟩

/-- The join over the operators of its inputs, whatever is deleted. -/
def joinOver (config : Config) (kind : JoinKind) (on : List (Expr × Expr)) (l r : Plan) : JoinOver :=
  ⟨config, kind, on, l.operator config, r.operator config, fun _ => True⟩

/-- Wherever pulls have brought a join in a plan, of which any may have failed, its cursor neither
loses pairs nor repeats them, and there is room to add a capacity to it. -/
theorem cursor_exact (h : Assembled (.join kind on l r)) (hpos : 1 ≤ config.capacity) (hmax : config.capacity ≤ maxCount)
    {answers : List (Except Failure Chunk)} {s : State}
    (hgoes : ((Plan.join kind on l r).operator config).Goes (fun _ => True) State.Storable ((Plan.join kind on l r).start config)
      answers s) : ∃ p, (joinOver config kind on l r).Cursor answers s p :=
  JoinOver.cursor_of_goes (J := joinOver config kind on l r) hpos hmax (h.of_join.1.enduring config)
    (h.of_join.2.enduring config).proper hgoes

/-- Two left rows, of which one has two matches and the other none, in chunks of two rows. The first
pull is refused bytes for the right side; the next two hand out three pairs. -/
theorem cursor_exact_refused :
    let config : Config := ⟨2, none, true⟩
    let on : List (Expr × Expr) := [(.column 0 .bigInt, .column 0 .bigInt)]
    let l : Plan := .source [.bigInt] [⟨[.ofInts [1, 7, 1]], some [2, 1], 2, 2⟩]
    let r : Plan := .source [.bigInt] [⟨[.ofInts [1, 1]], none, 2, 2⟩]
    let join := (Plan.join .left on l r).operator config
    let refused := join.pullOnce (Session.ofLimit? (some 0)) join.start
    let first := join.pullOnce (Session.ofLimit? none) refused.2
    let second := join.pullOnce (Session.ofLimit? none) first.2
    ([refused.1, first.1, second.1].map fun answer => answer.toOption.map Chunk.count) = [none, some 2, some 1] ∧
      ∃ p, (joinOver config .left on l r).Cursor [refused.1, first.1, second.1] second.2 p ∧
        p.pending = [(2, some 0), (2, some 1), (1, none)] ∧ p.emitted = 3 := by
  intro config on l r join refused first second
  have hl : Assembled l := .source (List.forall_mem_singleton.mpr ⟨(Chunk.verify_eq_ok_iff _).mp rfl, rfl⟩)
  have hr : Assembled r := .source (List.forall_mem_singleton.mpr ⟨(Chunk.verify_eq_ok_iff _).mp rfl, rfl⟩)
  have hcompile : (LogicalNode.join .left on).compileOver [l, r] [.bigInt, .bigInt] = .ok (.join .left on l r) := rfl
  have hjoin : Assembled (.join .left on l r) :=
    .node (List.forall_mem_cons.mpr ⟨hl, List.forall_mem_singleton.mpr hr⟩) hcompile
  have hgoes : join.Goes (fun _ => True) State.Storable join.start [refused.1, first.1, second.1] second.2 :=
    (((Operator.Goes.start (by decide)).once trivial (by decide +kernel)).once trivial (by decide +kernel)).once trivial
      (by decide +kernel)
  obtain ⟨p, hp⟩ := cursor_exact hjoin (by decide) (by decide) hgoes
  refine ⟨by decide +kernel, p, hp, ?_⟩
  have hpairs : (second.2.joined?.map fun p => (p.pending, p.emitted)) = some ([(2, some 0), (2, some 1), (1, none)], 3) := by
    decide +kernel
  rw [State.joined?_of_progress hp.progress] at hpairs
  exact Prod.mk.inj (Option.some.inj hpairs)

end QueryEngine.Plan
