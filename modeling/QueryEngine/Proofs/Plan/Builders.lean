import QueryEngine.Proofs.Plan.Calls

/-! What the builders promise to the compiler.

The types of a plan are worked out twice: by the builders as a plan is put together, and
by the compiler over the plans that the inputs became. A plan put together by the
builders alone (`LogicalPlan.Made`) has at every node what the builder of that node found
out (`LogicalNode.Resolves`), and over inputs of those types the compiler finds the same.
What is left for it to refuse are calls out of place and the demands that only operators
have of their inputs (`LogicalNode.Refuses`); it compiles every plan without these, each
node to the types that its builder gave it. -/
namespace QueryEngine

/-! ### What the compiler may refuse -/

/-- The arguments of an aggregate call. -/
def Expr.aggregateArguments : Expr → List Expr
  | .aggregate _ args => args
  | _ => []

namespace LogicalNode

/-- The expressions of a node that may have no call in them, each with the place it
stands in. -/
def scalarPlaces : LogicalNode → List (String × Expr)
  | filter exprs => exprs.map (("filter", ·))
  | project exprs => exprs.map (("projection", ·))
  | aggregate groups calls =>
    groups.map (("group", ·)) ++ (calls.flatMap Expr.aggregateArguments).map (("aggregate argument", ·))
  | order keys => keys.map fun k => ("order", k.expr)
  | join _ on => on.flatMap fun pair => [("join condition", pair.1), ("join condition", pair.2)]
  | get _ _ | window _ | limit _ _ | cross | delete _ | prune _ | empty => []

/-- The errors of a node over inputs of these types that no builder looks for, with the
fault of each. -/
inductive Refuses : LogicalNode → List (List SqlType) → QueryError → Prop
  | misplacedCall {n : LogicalNode} {inputs : List (List SqlType)} {place : String} {e : Expr}
    (he : (place, e) ∈ n.scalarPlaces) (hcall : e.isPlain = false) :
    Refuses n inputs (.invalidPlan (.misplacedCall place e))
  | notAggregateCall {groups calls : List Expr} {inputs : List (List SqlType)} {e : Expr} (he : e ∈ calls)
    (hcall : ∀ f args, e ≠ .aggregate f args) :
    Refuses (.aggregate groups calls) inputs (.invalidPlan (.notAggregateCall e))
  | notWindowCall {exprs : List Expr} {inputs : List (List SqlType)} {e : Expr} (he : e ∈ exprs)
    (hcall : e.isWindowCall = false) :
    Refuses (.window exprs) inputs (.invalidPlan (.notWindowCall e))
  | joinWithoutCondition {kind : JoinKind} {inputs : List (List SqlType)} :
    Refuses (.join kind []) inputs (.invalidPlan .joinWithoutCondition)
  | joined {kind : JoinKind} {on : List (Expr × Expr)} {left right : List SqlType} {pair : Expr × Expr} {l r : SqlType}
    (hpair : pair ∈ on) (hl : pair.1.resolve left = .ok l) (hr : pair.2.resolve right = .ok r)
    (hnone : SqlType.common? l r = none) : Refuses (.join kind on) [left, right] (.type (.joined l r))
  | deleteInput {table : Provider} {input : List SqlType} (hlast : input.getLast? ≠ some .bigInt) :
    Refuses (.delete table) [input] (.invalidPlan (.deleteInput table.name))

end LogicalNode

/-- Refused as it stands, whatever its inputs were compiled to. -/
def LogicalPlan.Refuses (q : LogicalPlan) (e : QueryError) : Prop := q.root.Refuses (q.inputs.map LogicalPlan.types) e

/-! ### What the builders have found out -/

/-- A node whose expressions the builders resolved over inputs of these types, with the
types that it got. -/
inductive LogicalNode.Resolves : LogicalNode → List (List SqlType) → List SqlType → Prop
  | get {table : Provider} {columns : List ColumnRef} {types : List SqlType}
    (htypes : columns.mapM table.columnType = .ok types) : Resolves (.get table columns) [] types
  | empty (types : List SqlType) : Resolves .empty [] types
  | filter {exprs : List Expr} {input : List SqlType}
    (htruths : ∀ e ∈ exprs, LogicalPlan.checkPredicate input e = .ok ()) : Resolves (.filter exprs) [input] input
  | project {exprs : List Expr} {input types : List SqlType} (htypes : Expr.resolveAll input exprs = .ok types) :
    Resolves (.project exprs) [input] types
  | aggregate {groups calls : List Expr} {input keyTypes callTypes : List SqlType}
    (hkeyTypes : Expr.resolveAll input groups = .ok keyTypes) (hcallTypes : Expr.resolveAll input calls = .ok callTypes) :
    Resolves (.aggregate groups calls) [input] (keyTypes ++ callTypes)
  | window {exprs : List Expr} {input callTypes : List SqlType} (hcallTypes : Expr.resolveAll input exprs = .ok callTypes) :
    Resolves (.window exprs) [input] (input ++ callTypes)
  | order {keys : List SortKey} {input : List SqlType} (hkeys : ∀ k ∈ keys, ∃ t, k.expr.resolve input = .ok t) :
    Resolves (.order keys) [input] input
  | limit {n : Option Nat} {offset : Nat} {input : List SqlType} : Resolves (.limit n offset) [input] input
  | cross {l r : List SqlType} : Resolves .cross [l, r] (l ++ r)
  | join {kind : JoinKind} {on : List (Expr × Expr)} {l r : List SqlType}
    (hkeys : ∀ pair ∈ on, (∃ t, pair.1.resolve l = .ok t) ∧ ∃ t, pair.2.resolve r = .ok t) :
    Resolves (.join kind on) [l, r] (kind.outputTypes l r)
  | delete {table : Provider} {input : List SqlType} : Resolves (.delete table) [input] [.bigInt]
  | prune {k : Nat} {input : List SqlType} (hk : k ≤ input.length) : Resolves (.prune k) [input] (input.take k)

theorem LogicalNode.Resolves.arity {n : LogicalNode} {inputs : List (List SqlType)} {types : List SqlType}
    (h : n.Resolves inputs types) : inputs.length = n.arity := by
  cases h <;> rfl

/-- Two inputs, by their types. -/
theorem map_eq_pair {α β : Type} {f : α → β} {xs : List α} {b c : β} (h : xs.map f = [b, c]) :
    ∃ x y, xs = [x, y] ∧ f x = b ∧ f y = c := by
  obtain ⟨x, ys, rfl, hx, hys⟩ := List.map_eq_cons_iff.mp h
  obtain ⟨y, rfl, hy⟩ := List.map_eq_singleton_iff.mp hys
  exact ⟨x, y, rfl, hx, hy⟩

namespace LogicalPlan
variable {p l r q : LogicalPlan}

/-- Put together by the builders alone. -/
inductive Made : LogicalPlan → Prop
  | get {table : Provider} {columns : List ColumnRef} {q : LogicalPlan} (h : get table columns = .ok q) : Made q
  | scan {table : Provider} {q : LogicalPlan} (h : scan table = .ok q) : Made q
  | empty (types : List SqlType) : Made (empty types)
  | filter {p q : LogicalPlan} {exprs : List Expr} (hp : Made p) (h : p.filter exprs = .ok q) : Made q
  | project {p q : LogicalPlan} {exprs : List Expr} (hp : Made p) (h : p.project exprs = .ok q) : Made q
  | aggregate {p q : LogicalPlan} {groups calls : List Expr} (hp : Made p) (h : p.aggregate groups calls = .ok q) : Made q
  | window {p q : LogicalPlan} {exprs : List Expr} (hp : Made p) (h : p.window exprs = .ok q) : Made q
  | order {p q : LogicalPlan} {keys : List SortKey} (hp : Made p) (h : p.order keys = .ok q) : Made q
  | limit {p : LogicalPlan} (n : Option Nat) (offset : Nat) (hp : Made p) : Made (p.limit n offset)
  | cross {l r : LogicalPlan} (hl : Made l) (hr : Made r) : Made (l.cross r)
  | join {l r q : LogicalPlan} {kind : JoinKind} {on : List (Expr × Expr)} (hl : Made l) (hr : Made r)
    (h : l.join r kind on = .ok q) : Made q
  | delete {p : LogicalPlan} (table : Provider) (hp : Made p) : Made (p.delete table)
  | prune {p q : LogicalPlan} {k : Nat} (hp : Made p) (h : p.prune k = .ok q) : Made q

/-- What a plan made by the builders is at its root, and below. -/
def Resolved (q : LogicalPlan) : Prop :=
  q.root.Resolves (q.inputs.map types) q.types ∧ ∀ p ∈ q.inputs, p.Made

theorem made_of_pair (hl : l.Made) (hr : r.Made) : ∀ p ∈ [l, r], p.Made := by
  intro p hp
  rcases List.mem_pair.mp hp with rfl | rfl
  · exact hl
  · exact hr

theorem resolved_of_get {table : Provider} {columns : List ColumnRef} (h : get table columns = .ok q) : q.Resolved := by
  obtain ⟨types, htypes, h⟩ := bind_eq_ok.mp h
  cases h
  exact ⟨.get htypes, nofun⟩

theorem resolved_of_made (hq : q.Made) : q.Resolved := by
  cases hq with
  | get h => exact resolved_of_get h
  | scan h => exact resolved_of_get h
  | empty types => exact ⟨.empty types, nofun⟩
  | filter hp h =>
    obtain ⟨_, hchecked, h⟩ := bind_eq_ok.mp h
    cases h
    exact ⟨.filter (forall_of_forM hchecked), List.forall_mem_singleton.mpr hp⟩
  | project hp h =>
    obtain ⟨types, htypes, h⟩ := bind_eq_ok.mp h
    cases h
    exact ⟨.project htypes, List.forall_mem_singleton.mpr hp⟩
  | aggregate hp h =>
    obtain ⟨keyTypes, hkeyTypes, h⟩ := bind_eq_ok.mp h
    obtain ⟨callTypes, hcallTypes, h⟩ := bind_eq_ok.mp h
    cases h
    exact ⟨.aggregate hkeyTypes hcallTypes, List.forall_mem_singleton.mpr hp⟩
  | window hp h =>
    obtain ⟨callTypes, hcallTypes, h⟩ := bind_eq_ok.mp h
    cases h
    exact ⟨.window hcallTypes, List.forall_mem_singleton.mpr hp⟩
  | order hp h =>
    obtain ⟨_, hresolve, h⟩ := bind_eq_ok.mp h
    cases h
    rw [SortKey.resolveEach_eq_map] at hresolve
    refine ⟨.order fun k hk => ?_, List.forall_mem_singleton.mpr hp⟩
    obtain ⟨t, ht⟩ := Expr.resolve_of_allResolve hresolve k hk
    exact ⟨t, (k.resolve_eq _).symm.trans ht⟩
  | limit n offset hp => exact ⟨.limit, List.forall_mem_singleton.mpr hp⟩
  | cross hl hr => exact ⟨.cross, made_of_pair hl hr⟩
  | join hl hr h =>
    obtain ⟨_, hchecked, h⟩ := bind_eq_ok.mp h
    cases h
    refine ⟨.join fun pair hpair => ?_, made_of_pair hl hr⟩
    obtain ⟨t, ht, h⟩ := bind_eq_ok.mp (forall_of_forM hchecked pair hpair)
    obtain ⟨u, hu, _⟩ := bind_eq_ok.mp h
    exact ⟨⟨t, ht⟩, u, hu⟩
  | delete table hp => exact ⟨.delete, List.forall_mem_singleton.mpr hp⟩
  | prune hp h =>
    unfold prune at h
    split at h
    · cases h
    · rename_i hk
      cases h
      exact ⟨.prune (Nat.le_of_not_lt hk), List.forall_mem_singleton.mpr hp⟩

end LogicalPlan

/-! ### Compiling one node -/

theorem Expr.checkPlain_yields (context : String) (e : Expr) :
    Yields (fun x => x = .invalidPlan (.misplacedCall context e) ∧ e.isPlain = false) (e.checkPlain context)
      fun _ => True := by
  refine .ite (fun hcalls => ⟨rfl, ?_⟩) fun _ => trivial
  rw [isPlain_eq, hcalls]
  rfl

namespace LogicalNode
variable {n : LogicalNode} {inputs : List Plan} {types : List SqlType}

/-- An expression of a node that may have no call in it. -/
theorem checkPlain_yields {inputs : List (List SqlType)} {place : String} {e : Expr} (he : (place, e) ∈ n.scalarPlaces) :
    Yields (n.Refuses inputs) (e.checkPlain place) fun _ => True := by
  refine (e.checkPlain_yields place).error_mono ?_
  rintro _ ⟨rfl, hcall⟩
  exact .misplacedCall he hcall

theorem checkArguments_yields {groups calls : List Expr} {inputs : List (List SqlType)} {e : Expr} (he : e ∈ calls) :
    Yields (Refuses (.aggregate groups calls) inputs) e.checkArguments fun _ => True := by
  cases e with
  | aggregate f args =>
    refine .forM fun a ha => checkPlain_yields ?_
    refine List.mem_append_right _ (List.mem_map.mpr ⟨a, ?_, rfl⟩)
    exact List.mem_flatMap.mpr ⟨_, he, ha⟩
  | _ => trivial

theorem aggregateCall_yields {groups calls : List Expr} {inputs : List (List SqlType)} {input : List SqlType} {e : Expr}
    (he : e ∈ calls) {t : SqlType} (ht : e.resolve input = .ok t) :
    Yields (Refuses (.aggregate groups calls) inputs) (AggregateCall.ofExpr input e)
      fun c => e.resolve input = .ok c.type := by
  cases e with
  | aggregate f args => exact Yields.bind (Q := (· = t)) (.of_ok ht rfl) fun _ hu => hu ▸ ht
  | _ => exact .notAggregateCall he nofun

theorem windowCall_yields {exprs : List Expr} {inputs : List (List SqlType)} {input : List SqlType} {e : Expr}
    (he : e ∈ exprs) {t : SqlType} (ht : e.resolve input = .ok t) :
    Yields (Refuses (.window exprs) inputs) (WindowCall.ofExpr input e) fun w => e.resolve input = .ok w.type := by
  refine Yields.bind (Q := (· = t)) (.of_ok ht rfl) fun u hu => ?_
  cases e with
  | window => exact hu ▸ ht
  | _ => exact .notWindowCall he rfl

/-- Calls compiled one by one have the types that their list has. -/
theorem types_of_calls {α : Type} {type : α → SqlType} {input ts : List SqlType} {exprs : List Expr} {calls : List α}
    (hcalls : List.Forall₂ (fun e c => e.resolve input = .ok (type c)) exprs calls)
    (hts : Expr.resolveAll input exprs = .ok ts) : calls.map type = ts :=
  Except.ok.inj ((mapM_eq_ok_iff.mpr (List.forall₂_map_right_iff.mpr hcalls)).symm.trans hts)

theorem joinPair_yields {kind : JoinKind} {on : List (Expr × Expr)} {l r : List SqlType} {pair : Expr × Expr}
    (hpair : pair ∈ on) (hl : ∃ t, pair.1.resolve l = .ok t) (hr : ∃ t, pair.2.resolve r = .ok t) :
    Yields (Refuses (.join kind on) [l, r]) (Plan.joinPair l r pair) fun _ => True := by
  obtain ⟨lt, hlt⟩ := hl
  obtain ⟨rt, hrt⟩ := hr
  refine Yields.bind (Q := (· = lt)) (.of_ok hlt rfl) fun _ hl => ?_
  refine Yields.bind (Q := (· = rt)) (.of_ok hrt rfl) fun _ hr => ?_
  subst hl hr
  cases hcommon : SqlType.common? _ _ with
  | some t => trivial
  | none => exact .joined hpair hlt hrt hcommon

/-- Over inputs of the types that the builder saw, a node is compiled to the types that
the builder found, or refused. -/
theorem compileOver_yields (hn : n.Resolves (inputs.map Plan.types) types) :
    Yields (n.Refuses (inputs.map Plan.types)) (n.compileOver inputs types) fun p => p.types = types := by
  generalize htypes : inputs.map Plan.types = inputTypes at hn ⊢
  cases hn with
  | get hcolumns =>
    obtain rfl := List.map_eq_nil_iff.mp htypes
    exact Yields.bind (Q := (· = types)) (.of_ok hcolumns rfl) fun _ ht => ht
  | empty =>
    obtain rfl := List.map_eq_nil_iff.mp htypes
    rfl
  | @filter exprs _ htruths =>
    obtain ⟨input, rfl, rfl⟩ := List.map_eq_singleton_iff.mp htypes
    have hchecks : ∀ e ∈ exprs, Yields (Refuses (.filter exprs) [input.types])
        (do e.checkPlain "filter"; LogicalPlan.checkPredicate input.types e) fun _ => True := by
      intro e he
      refine (checkPlain_yields (List.mem_map.mpr ⟨e, he, rfl⟩)).bind fun _ _ => ?_
      exact .of_ok (htruths e he) trivial
    exact (Yields.forM hchecks).bind fun _ _ => rfl
  | @project exprs _ _ hresolved =>
    obtain ⟨input, rfl, rfl⟩ := List.map_eq_singleton_iff.mp htypes
    have hchecks : ∀ e ∈ exprs, Yields (Refuses (.project exprs) [input.types])
        (do e.checkPlain "projection"; e.resolve input.types) fun t => e.resolve input.types = .ok t := by
      intro e he
      refine (checkPlain_yields (List.mem_map.mpr ⟨e, he, rfl⟩)).bind fun _ _ => ?_
      obtain ⟨t, _, ht⟩ := mapM_ok_of_mem hresolved he
      exact .of_ok ht ht
    refine (Yields.mapM hchecks).bind fun ts hts => ?_
    exact Except.ok.inj ((mapM_eq_ok_iff.mpr hts).symm.trans hresolved)
  | @aggregate groups calls _ keyTypes callTypes hkeyTypes hcallTypes =>
    obtain ⟨input, rfl, rfl⟩ := List.map_eq_singleton_iff.mp htypes
    refine (Yields.forM fun e he => checkPlain_yields ?_).bind fun _ _ => ?_
    · exact List.mem_append_left _ (List.mem_map.mpr ⟨e, he, rfl⟩)
    refine (Yields.forM fun e he => checkArguments_yields he).bind fun _ _ => ?_
    refine Yields.bind (Q := (· = keyTypes)) (.of_ok hkeyTypes rfl) fun _ hkeys => ?_
    have hcalls : ∀ e ∈ calls, Yields (Refuses (.aggregate groups calls) [input.types])
        (AggregateCall.ofExpr input.types e) fun c => e.resolve input.types = .ok c.type := by
      intro e he
      obtain ⟨t, _, ht⟩ := mapM_ok_of_mem hcallTypes he
      exact aggregateCall_yields he ht
    refine (Yields.mapM hcalls).bind fun cs hcs => ?_
    exact congrArg₂ (· ++ ·) hkeys (types_of_calls hcs hcallTypes)
  | @window exprs _ callTypes hcallTypes =>
    obtain ⟨input, rfl, rfl⟩ := List.map_eq_singleton_iff.mp htypes
    have hcalls : ∀ e ∈ exprs, Yields (Refuses (.window exprs) [input.types])
        (WindowCall.ofExpr input.types e) fun w => e.resolve input.types = .ok w.type := by
      intro e he
      obtain ⟨t, _, ht⟩ := mapM_ok_of_mem hcallTypes he
      exact windowCall_yields he ht
    refine (Yields.mapM hcalls).bind fun ws hws => ?_
    exact congrArg (input.types ++ ·) (types_of_calls hws hcallTypes)
  | @order keys _ hkeys =>
    obtain ⟨input, rfl, rfl⟩ := List.map_eq_singleton_iff.mp htypes
    have hchecks : ∀ k ∈ keys, Yields (Refuses (.order keys) [input.types])
        (do k.expr.checkPlain "order"; let _ ← k.expr.resolve input.types) fun _ => True := by
      intro k hk
      refine (checkPlain_yields (List.mem_map.mpr ⟨k, hk, rfl⟩)).bind fun _ _ => ?_
      obtain ⟨t, ht⟩ := hkeys k hk
      exact Yields.bind (Q := fun _ => True) (.of_ok ht trivial) fun _ _ => trivial
    exact (Yields.forM hchecks).bind fun _ _ => rfl
  | limit =>
    obtain ⟨input, rfl, rfl⟩ := List.map_eq_singleton_iff.mp htypes
    rfl
  | cross =>
    obtain ⟨l, r, rfl, rfl, rfl⟩ := map_eq_pair htypes
    rfl
  | @join kind on _ _ hkeys =>
    obtain ⟨l, r, rfl, rfl, rfl⟩ := map_eq_pair htypes
    have hchecks : ∀ pair ∈ on, Yields (Refuses (.join kind on) [l.types, r.types])
        (do pair.1.checkPlain "join condition"; pair.2.checkPlain "join condition") fun _ => True := by
      intro pair hpair
      have hplace (e : Expr) (he : e ∈ [pair.1, pair.2]) :
          ("join condition", e) ∈ (LogicalNode.join kind on).scalarPlaces :=
        List.mem_flatMap.mpr ⟨pair, hpair, List.mem_map.mpr ⟨e, he, rfl⟩⟩
      refine (checkPlain_yields (hplace _ (List.mem_cons_self ..))).bind fun _ _ => ?_
      exact checkPlain_yields (hplace _ (List.mem_cons_of_mem _ (List.mem_cons_self ..)))
    refine (Yields.forM hchecks).bind fun _ _ => ?_
    cases on with
    | nil => exact .joinWithoutCondition
    | cons pair rest =>
      exact (Yields.mapM fun pair hpair => joinPair_yields hpair (hkeys pair hpair).1 (hkeys pair hpair).2).bind fun _ _ => rfl
  | delete =>
    obtain ⟨input, rfl, rfl⟩ := List.map_eq_singleton_iff.mp htypes
    exact .ite (fun _ => rfl) fun hlast => .deleteInput hlast
  | prune hk =>
    obtain ⟨input, rfl, rfl⟩ := List.map_eq_singleton_iff.mp htypes
    exact .of_ok (if_pos hk) rfl

theorem mem_scalars_of_place {place : String} {e : Expr} (he : (place, e) ∈ n.scalarPlaces) : e ∈ n.scalars := by
  cases n with
  | get | window | limit | cross | delete | prune | empty => cases he
  | filter exprs | project exprs =>
    obtain ⟨_, he, heq⟩ := List.mem_map.mp he
    cases heq
    exact he
  | aggregate groups calls =>
    rcases List.mem_append.mp he with he | he
    · obtain ⟨_, he, heq⟩ := List.mem_map.mp he
      cases heq
      exact List.mem_append_left _ he
    · obtain ⟨_, he, heq⟩ := List.mem_map.mp he
      cases heq
      obtain ⟨call, hcall, he⟩ := List.mem_flatMap.mp he
      refine List.mem_append_right _ (List.mem_flatMap.mpr ⟨call, hcall, ?_⟩)
      cases call with
      | aggregate f args => exact he
      | _ => cases he
  | order keys =>
    obtain ⟨k, hk, heq⟩ := List.mem_map.mp he
    cases heq
    exact List.mem_map_of_mem hk
  | join kind on =>
    obtain ⟨pair, hpair, he⟩ := List.mem_flatMap.mp he
    refine List.mem_flatMap.mpr ⟨pair, hpair, ?_⟩
    rcases List.mem_pair.mp he with heq | heq
    · cases heq
      exact List.mem_cons_self ..
    · cases heq
      exact List.mem_cons_of_mem _ (List.mem_cons_self ..)

/-- A node that compiles has no fault that could be refused. -/
theorem not_refuses_of_compileOver {p : Plan} (h : n.compileOver inputs types = .ok p) :
    ∀ e, ¬n.Refuses (inputs.map Plan.types) e := by
  intro e hrefuses
  generalize htypes : inputs.map Plan.types = inputTypes at hrefuses
  cases hrefuses with
  | misplacedCall he hcall =>
    rw [isPlain_of_compileOver h _ (mem_scalars_of_place he)] at hcall
    cases hcall
  | notAggregateCall he hcall =>
    cases compiled_of_compileOver h with
    | aggregate _ _ _ hcalls =>
      obtain ⟨c, _, hof⟩ := mapM_ok_of_mem hcalls he
      unfold AggregateCall.ofExpr at hof
      split at hof
      · exact hcall _ _ rfl
      · cases hof
  | notWindowCall he hcall =>
    cases compiled_of_compileOver h with
    | window hcalls =>
      obtain ⟨w, _, hof⟩ := mapM_ok_of_mem hcalls he
      rw [isWindowCall_of_ofExpr hof] at hcall
      cases hcall
  | joinWithoutCondition =>
    cases compiled_of_compileOver h with
    | join => cases h
  | joined hpair hl hr hnone =>
    cases compiled_of_compileOver h with
    | join _ hkeys =>
      cases htypes
      obtain ⟨key, _, hkey⟩ := mapM_ok_of_mem hkeys hpair
      obtain ⟨_, hl', hkey⟩ := bind_eq_ok.mp hkey
      obtain ⟨_, hr', hkey⟩ := bind_eq_ok.mp hkey
      cases hl.symm.trans hl'
      cases hr.symm.trans hr'
      simp only [hnone] at hkey
      cases hkey
  | deleteInput hlast =>
    cases compiled_of_compileOver h with
    | delete hbigInt =>
      cases htypes
      exact hlast hbigInt

end LogicalNode

/-! ### Compiling a plan -/

namespace LogicalPlan

mutual

/-- A plan and all that is below it. -/
def parts : LogicalPlan → List LogicalPlan
  | node n inputs types => node n inputs types :: partsOf inputs

def partsOf : List LogicalPlan → List LogicalPlan
  | [] => []
  | q :: qs => q.parts ++ partsOf qs

end

mutual

theorem made_parts : ∀ {q : LogicalPlan}, q.Made → ∀ part ∈ q.parts, part.Made
  | .node n inputs types, hq, part, hpart => by
    rw [parts] at hpart
    rcases List.mem_cons.mp hpart with rfl | hpart
    · exact hq
    · exact made_partsOf (resolved_of_made hq).2 part hpart

theorem made_partsOf : ∀ {qs : List LogicalPlan}, (∀ q ∈ qs, q.Made) → ∀ part ∈ partsOf qs, part.Made
  | [], _, part, hpart => by cases hpart
  | q :: qs, hqs, part, hpart => by
    rw [partsOf] at hpart
    obtain ⟨hq, hqs⟩ := List.forall_mem_cons.mp hqs
    rcases List.mem_append.mp hpart with hpart | hpart
    · exact made_parts hq part hpart
    · exact made_partsOf hqs part hpart

end

/-- Nothing of the plans is refused. -/
def Sound (qs : List LogicalPlan) : Prop := ∀ q ∈ qs, ∀ e, ¬q.Refuses e

mutual

theorem compile_yields : ∀ {q : LogicalPlan}, q.Made →
    Yields (fun e => ∃ part ∈ q.parts, part.Refuses e) q.compile fun p => p.types = q.types ∧ Sound q.parts
  | .node n inputs types, hq => by
    obtain ⟨hresolves, hinputs⟩ := resolved_of_made hq
    have harity : inputs.length = n.arity := (List.length_map _).symm.trans hresolves.arity
    rw [compile, if_neg (not_not_intro harity), parts]
    have hbelow := compileAll_yields hinputs
    refine (hbelow.error_mono ?_).bind fun plans ⟨hplans, hsound⟩ => ?_
    · rintro e ⟨part, hpart, hrefuses⟩
      exact ⟨part, List.mem_cons_of_mem _ hpart, hrefuses⟩
    rw [← hplans] at hresolves
    refine ((LogicalNode.compileOver_yields hresolves).and_ok.error_mono ?_).bind fun p ⟨hp, hok⟩ => ?_
    · intro e hrefuses
      rw [hplans] at hrefuses
      exact ⟨_, List.mem_cons_self .., hrefuses⟩
    refine .ite (fun hne => absurd hp hne) fun _ => ⟨hp, ?_⟩
    refine List.forall_mem_cons.mpr ⟨fun e hrefuses => ?_, hsound⟩
    refine LogicalNode.not_refuses_of_compileOver hok e ?_
    rw [hplans]
    exact hrefuses

theorem compileAll_yields : ∀ {qs : List LogicalPlan}, (∀ q ∈ qs, q.Made) →
    Yields (fun e => ∃ part ∈ partsOf qs, part.Refuses e) (compileAll qs)
      fun ps => ps.map Plan.types = qs.map types ∧ Sound (partsOf qs)
  | [], _ => ⟨rfl, nofun⟩
  | q :: qs, hqs => by
    obtain ⟨hq, hqs⟩ := List.forall_mem_cons.mp hqs
    rw [compileAll, partsOf]
    refine ((compile_yields hq).error_mono ?_).bind fun p ⟨hp, hsound⟩ => ?_
    · rintro e ⟨part, hpart, hrefuses⟩
      exact ⟨part, List.mem_append_left _ hpart, hrefuses⟩
    refine ((compileAll_yields hqs).error_mono ?_).bind fun ps ⟨hps, hsounds⟩ => ?_
    · rintro e ⟨part, hpart, hrefuses⟩
      exact ⟨part, List.mem_append_right _ hpart, hrefuses⟩
    exact ⟨congrArg₂ List.cons hp hps, List.forall_mem_append.mpr ⟨hsound, hsounds⟩⟩

end

/-- At every node of a plan that the builders made, what it is compiled to has the types
that its builder resolved. If it does not compile, then something in it is refused, with
that very error; and it compiles if nothing is. -/
theorem compile_made {q : LogicalPlan} (hq : q.Made) : ∀ part ∈ q.parts,
    (∀ p, part.compile = .ok p → p.types = part.types ∧ ∀ below ∈ part.parts, ∀ e, ¬below.Refuses e) ∧
    ∀ e, part.compile = .error e → ∃ below ∈ part.parts, below.Refuses e := by
  intro part hpart
  have hyields := compile_yields (made_parts hq part hpart)
  refine ⟨fun p hp => ?_, fun e he => ?_⟩
  · rw [hp] at hyields
    exact hyields
  · rw [he] at hyields
    exact hyields

/-- A join without conditions passes its builder and is refused, while what it joins compiles. -/
theorem compile_made_join :
    let table : Provider := ⟨0, ⟨"t", [.ofInts [1]], 1, by decide⟩, 0⟩
    let input : LogicalPlan := .node (.get table [.column 0]) [] [.bigInt]
    let q : LogicalPlan := .node (.join .inner []) [input, input] [.bigInt, .bigInt]
    input.join input .inner [] = .ok q ∧ q.Made ∧
    (∃ p, input.compile = .ok p ∧ p.types = [.bigInt]) ∧
    q.compile = .error (.invalidPlan .joinWithoutCondition) ∧
    ∃ part ∈ q.parts, part.Refuses (.invalidPlan .joinWithoutCondition) := by
  intro table input q
  have hscan : scan table = .ok input := rfl
  have hjoin : input.join input .inner [] = .ok q := rfl
  have hq : q.Made := .join (.scan hscan) (.scan hscan) hjoin
  have hbelow : input ∈ q.parts := List.mem_cons_of_mem _ (List.mem_cons_self ..)
  exact ⟨rfl, hq, ⟨_, rfl, ((compile_made hq input hbelow).1 _ rfl).1⟩, rfl,
    (compile_made hq q (List.mem_cons_self ..)).2 _ rfl⟩

end LogicalPlan
end QueryEngine
