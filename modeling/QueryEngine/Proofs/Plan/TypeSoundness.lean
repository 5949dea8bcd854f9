import QueryEngine.Proofs.Plan.WellFormed
import QueryEngine.Proofs.Pull.SureChunks
import QueryEngine.Proofs.Pull.SureGrouping
import QueryEngine.Proofs.Pull.SureJoin

/-! Compiled plans fail on data alone.

What the compiler has checked of a node is what its operator needs, over tables that give
the columns they are asked for: every pull of a compiled plan ends or fails on a value, on
a row id or for want of bytes (`Built.sure`). One check is missing. A sort key may have
type NULL, and on that there is no order, so keys of that type are excluded here; a plan
with one compiles and fails. -/
namespace QueryEngine

/-! ### What is asked of a plan -/

namespace Plan

/-- The plan and all plans that it is made of. -/
def parts : Plan → List Plan
  | source types chunks => [source types chunks]
  | scan table columns types => [scan table columns types]
  | filter ps input => filter ps input :: input.parts
  | project es types input => project es types input :: input.parts
  | prune k input => prune k input :: input.parts
  | order keys input => order keys input :: input.parts
  | limit n offset input => limit n offset input :: input.parts
  | aggregate keys keyTypes calls input => aggregate keys keyTypes calls input :: input.parts
  | window calls input => window calls input :: input.parts
  | cross l r => cross l r :: (l.parts ++ r.parts)
  | join kind on l r => join kind on l r :: (l.parts ++ r.parts)
  | delete table input => delete table input :: input.parts
  | empty types => [empty types]

/-- No key has type NULL, which has no order. -/
def Orderable (types : List SqlType) (keys : List SortKey) : Prop := ∀ k ∈ keys, k.expr.resolve types ≠ .ok .sqlNull

/-- What is asked of each part besides that it compiles: tables give all columns they are
asked for, window calls have no calls in them, and keys that rows are put in order by
have an order. -/
def Answerable : Plan → Prop
  | scan table _ _ => table.withheld = 0
  | order keys input => Orderable input.types keys
  | window calls input => ∀ w ∈ calls, w.Flat ∧ Orderable input.types w.orders
  | _ => True

/-- No more rows than this come of a plan. -/
def rowBound : Plan → Nat
  | source _ chunks => total (chunks.map Chunk.count)
  | scan table _ _ => table.table.rows
  | filter _ input | project _ _ input | prune _ input | order _ input | limit _ _ input | window _ input => input.rowBound
  | aggregate _ _ _ input => max 1 input.rowBound
  | cross l r => r.rowBound * l.rowBound
  | join _ _ l r => (r.rowBound + 1) * l.rowBound
  | delete _ _ => 1
  | empty _ => 0

theorem rowsLeft_start (config : Config) (p : Plan) :
    (p.operator config).rowsBelow (p.operator config).start.cells = p.rowBound := by
  induction p with
  | source types chunks => rfl
  | scan table columns types => rfl
  | filter _ input ih | project _ _ input ih | prune _ input ih | limit _ _ input ih => exact ih
  | order _ input ih | window _ input ih => exact (Nat.zero_max _).trans ih
  | aggregate _ _ _ input ih => exact congrArg (max 1) ih
  | cross l r hl hr => exact congrArg₂ (· * ·) hr hl
  | join _ _ l r hl hr =>
    refine (Nat.zero_add _).trans (congrArg₂ (· * ·) (congrArg (· + 1) hr) hl)
  | delete _ input ih => rfl
  | empty _ => rfl

end Plan

/-! ### What compiling checks -/

theorem SortKey.resolve_eq (types : List SqlType) (k : SortKey) : k.resolve types = k.expr.resolve types := by
  cases k
  rw [resolve]

theorem AggregateCall.fits_of_ofExpr {types : List SqlType} {e : Expr} {c : AggregateCall}
    (hplain : e.checkArguments = .ok ()) (h : ofExpr types e = .ok c) : c.Fits types := by
  have hresolved := resolved_of_ofExpr h
  refine ⟨fun argument hargument => ⟨?_, hresolved.argument argument hargument⟩, hresolved.resolved⟩
  cases e with
  | aggregate f args =>
    obtain ⟨_, _, h⟩ := bind_eq_ok.mp h
    cases h
    exact Expr.isPlain_of_checkPlain (forall_of_forM hplain argument (List.mem_of_mem_head? hargument))
  | _ => cases h

theorem WindowCall.fits_of_ofExpr {types : List SqlType} {e : Expr} {w : WindowCall} (h : ofExpr types e = .ok w)
    (hflat : w.Flat) (horder : Plan.Orderable types w.orders) : w.Fits types := by
  obtain ⟨t, ht, h⟩ := bind_eq_ok.mp h
  cases e with
  | window f args partitions orders =>
    cases h
    rw [Expr.resolve, Expr.resolveEach_eq_map, Expr.resolveEach_eq_map, SortKey.resolveEach_eq_map] at ht
    obtain ⟨_, hpartitions, ht⟩ := bind_eq_ok.mp ht
    obtain ⟨_, horders, ht⟩ := bind_eq_ok.mp ht
    refine ⟨hflat.args, fun e he => ⟨hflat.partitions e he, Expr.resolve_of_allResolve hpartitions e he⟩,
      fun k hk => ⟨hflat.orders k hk, ?_⟩, ht⟩
    obtain ⟨u, hu⟩ := Expr.resolve_of_allResolve horders k hk
    rw [SortKey.resolve_eq] at hu
    exact ⟨u, hu, fun hnull => horder k hk (hnull ▸ hu)⟩
  | _ => cases h

namespace Plan

theorem mem_parts_self (p : Plan) : p ∈ p.parts := by cases p <;> exact List.mem_cons_self ..

section
variable {input left right : List SqlType}

/-- A key that was cast is plain if it was before. -/
theorem isPlain_castTo {e : Expr} {actual t : SqlType} (h : e.isPlain = true) :
    (if actual = t then e else .cast e t : Expr).isPlain = true := by
  split <;> exact h

theorem resolved_keys {on keys : List (Expr × Expr)} (hplain : ∀ pair ∈ on, pair.1.isPlain = true ∧ pair.2.isPlain = true)
    (hkeys : on.mapM (joinPair left right) = .ok keys) :
    Expr.Resolved left (keys.map Prod.fst) ∧ Expr.Resolved right (keys.map Prod.snd) := by
  have hkey (key : Expr × Expr) (hmem : key ∈ keys) : (key.1.isPlain = true ∧ ∃ t, key.1.resolve left = .ok t) ∧
      key.2.isPlain = true ∧ ∃ t, key.2.resolve right = .ok t := by
    obtain ⟨pair, hpair, hjoin⟩ := mem_of_mapM hkeys hmem
    obtain ⟨hl, hr⟩ := hplain pair hpair
    obtain ⟨l, r, _, _, hfst, hsnd⟩ := joinPair_ok hjoin
    obtain ⟨t, hlt, hrt⟩ := joinPair_typed hjoin
    refine ⟨⟨?_, t, hlt⟩, ?_, t, hrt⟩
    · rw [hfst]
      exact isPlain_castTo hl
    · rw [hsnd]
      exact isPlain_castTo hr
  refine ⟨fun e he => ?_, fun e he => ?_⟩
  · obtain ⟨key, hmem, rfl⟩ := List.mem_map.mp he
    exact (hkey key hmem).1
  · obtain ⟨key, hmem, rfl⟩ := List.mem_map.mp he
    exact (hkey key hmem).2

end

/-! ### Running -/

section
variable {session : Session}

/-- Every operator of a compiled plan is sure. -/
theorem Built.sure (config : Config) (hverify : config.verify = false) (hroom : config.capacity ≤ maxCount) {p : Plan}
    (h : Built (Admits (untold config) session) p)
    (hparts : ∀ part ∈ p.parts, part.Answerable ∧ 2 * part.rowBound ≤ maxCount) :
    Sure (untold config) (p.operator config) (p.operator config).start.cells := by
  have hsees : ∀ masks, (untold config).sees masks := fun _ => trivial
  -- the inputs are sure by induction; of the node itself what was checked is peeled off `h`
  induction h with
  | @node n inputs types p hn hinputs h ih =>
    have hself := (hparts p (mem_parts_self p)).1
    have hgives : Gives (untold config) (p.operator config) (p.operator config) (p.rows session)
        (p.operator config).start.cells := (Built.node hn hinputs h).gives rfl rfl
    have hbelow (q : Plan) (hq : q ∈ inputs) (hin : ∀ part ∈ q.parts, part ∈ p.parts) :
        Sure (untold config) (q.operator config) (q.operator config).start.cells ∧
          (q.operator config).rowsBelow (q.operator config).start.cells ≤ maxCount := by
      refine ⟨ih q hq fun part hpart => hparts part (hin part hpart), ?_⟩
      have hbound := (hparts q (hin q (mem_parts_self q))).2
      rw [rowsLeft_start]
      omega
    have hone {q : Plan} (hinput : inputs = [q]) (hp : p.parts = p :: q.parts) :=
      hbelow q (hinput ▸ List.mem_cons_self ..) fun _ hpart => hp ▸ List.mem_cons_of_mem _ hpart
    have htwo {l r : Plan} (hinputs : inputs = [l, r]) (hp : p.parts = p :: (l.parts ++ r.parts)) :=
      And.intro
        (hbelow l (hinputs ▸ List.mem_cons_self ..) fun _ hpart => hp ▸ List.mem_cons_of_mem _ (List.mem_append_left _ hpart))
        (hbelow r (hinputs ▸ List.mem_cons_of_mem _ (List.mem_cons_self ..)) fun _ hpart =>
          hp ▸ List.mem_cons_of_mem _ (List.mem_append_right _ hpart))
    cases LogicalNode.compiled_of_compileOver h with
    | get htypes => exact Operator.sure_scan hsees hverify htypes hself hgives
    | empty => exact Operator.sure_empty hsees hverify hgives
    | filter htruths =>
      have hinput := (hone rfl rfl).1
      refine Operator.sure_filter hsees hverify hinput ?_ hgives
      rw [operator_types]
      exact htruths
    | project hplain htypes =>
      have hinput := (hone rfl rfl).1
      rw [← operator_types config] at htypes
      exact Operator.sure_project hsees hverify hinput hplain htypes hgives
    | aggregate hplain harguments hkeyTypes hcalls =>
      obtain ⟨hinput, hcounted⟩ := hone rfl rfl
      rw [← operator_types config] at hkeyTypes hcalls
      refine Operator.sure_aggregate hsees hverify hinput hcounted hplain hkeyTypes (fun c hc => ?_) hgives
      obtain ⟨e, he, hcall⟩ := mem_of_mapM hcalls hc
      exact AggregateCall.fits_of_ofExpr (harguments e he) hcall
    | @window _ _ _ calls hcalls =>
      obtain ⟨hinput, hcounted⟩ := hone rfl rfl
      have hgives : Gives (untold config) (.window config calls _) (.window config calls _) _ _ := hgives
      refine Operator.sure_window hsees hverify hinput hcounted (fun w hw => ?_) hgives
      obtain ⟨e, _, hcall⟩ := mem_of_mapM hcalls hw
      rw [operator_types]
      exact WindowCall.fits_of_ofExpr hcall (hself w hw).1 (hself w hw).2
    | order hkeys =>
      obtain ⟨hinput, hcounted⟩ := hone rfl rfl
      refine Operator.sure_order hsees hverify hinput hcounted (fun k hk => ?_) hgives
      rw [operator_types]
      obtain ⟨hplain, t, ht⟩ := hkeys k hk
      exact ⟨hplain, t, ht, fun hnull => hself k hk (hnull ▸ ht)⟩
    | limit =>
      obtain ⟨hinput, hcounted⟩ := hone rfl rfl
      exact Operator.sure_limit hsees hverify hinput hcounted hgives
    | delete hlast =>
      have hinput := (hone rfl rfl).1
      rw [← operator_types config] at hlast
      exact Operator.sure_delete hsees hverify hinput hlast hgives
    | prune hk =>
      have hinput := (hone rfl rfl).1
      rw [← operator_types config] at hk
      exact Operator.sure_prune hsees hverify hinput hk hgives
    | cross =>
      obtain ⟨⟨hleft, _⟩, hright, hcounted⟩ := htwo rfl rfl
      exact Operator.sure_cross hsees hverify hleft hright hcounted hgives
    | @join kind on keys l r _ hplain hkeys =>
      have hmost := (hparts _ (mem_parts_self (.join kind keys l r))).2
      rw [← rowsLeft_start config] at hmost
      obtain ⟨⟨hleft, _⟩, hright, hcounted⟩ := htwo rfl rfl
      obtain ⟨hleftKeys, hrightKeys⟩ := resolved_keys hplain hkeys
      exact Operator.sure_join (J := ⟨kind, joinKeys keys, l.types, r.types, on.map (commonType l.types r.types), []⟩)
        hsees hverify (operator_types config l) (operator_types config r) (keyOn_left hkeys).2 (keyOn_right hkeys).2
        hleftKeys hrightKeys hleft hright hcounted hroom hmost hgives

/-- A sure plan is pulled to its end and its chunks are collected. -/
theorem pullAll_yields {config : Config} {T : Terms} {p : Plan} {s : State} {stats : Stats} {out : Chunk}
    {collected : Collection} {rows : List Row} (rounds : Nat) (h : Sure T (p.operator config) s.cells)
    (hrounds : (p.operator config).rowsBelow s.cells < rounds) (hc : collected.Holds p.types rows)
    (hcollected : collected.count + (p.operator config).rowsBelow s.cells ≤ maxCount)
    (hstats : stats.rows + (p.operator config).rowsBelow s.cells ≤ maxCount) :
    Yields Failure.OfData (p.pullAll config Collection.consume rounds stats out s collected session).result
      fun _ => True := by
  -- what is collected and counted grows by the rows that the plan then has left fewer of
  induction rounds generalizing s stats out collected session rows with
  | zero => cases hrounds
  | succ rounds ih =>
    have hstep : Ends (p.operator config).pull ⟨s.cell, s.below, session, out⟩ _ := Sure.step h out
    unfold Ends at hstep
    rw [pullAll, pull]
    cases hpull : (p.operator config).pull ⟨s.cell, s.below, session, out⟩ with
    | error e f =>
      rw [hpull] at hstep
      exact hstep
    | ok a f =>
      rw [hpull] at hstep
      obtain ⟨hhanded, hleft, hfewer⟩ := hstep
      let next : State := ⟨f.cell, f.below⟩
      have hfewer : f.out.count + (p.operator config).rowsBelow next.cells ≤ (p.operator config).rowsBelow s.cells := hfewer
      simp only []
      by_cases he : f.out.isEmpty = true
      · rw [if_pos he]
        trivial
      have hrow := Chunk.count_pos he
      rw [if_neg he, Chunk.addCounts_of_le (by omega)]
      simp only [Collection.consume]
      rw [operator_types] at hhanded
      have happend := Sure.append_yields hc hhanded.sound hhanded.typed (by omega)
      cases hmore : collected.append f.out with
      | error e => exact happend.error hmore
      | ok appended =>
        rw [hmore] at happend
        obtain ⟨⟨rows', hrows'⟩, hcount⟩ := happend
        have hkept : appended.1.count + (p.operator config).rowsBelow next.cells ≤ maxCount := by omega
        have hsum : stats.rows + f.out.count + (p.operator config).rowsBelow next.cells ≤ maxCount := by omega
        exact ih (s := next) hleft (by omega) hrows' hkept hsum

end

end Plan

namespace Context
open Plan

/-- Verifying chunks changes nothing. -/
theorem execute_unverified {q : LogicalPlan} {p : Plan} (h : q.compile = .ok p) (c : Context) (session : Session) :
    c.execute q session = (⟨c.config.withVerify false, c.tables⟩ : Context).execute q session := by
  have hbuilt : Built (Admits (untold c.config) session) p := built_of_compile q (fun n _ => admits_untold _ _ n) h
  have hgives : Gives (untold c.config) (p.operator c.config) (p.operator (c.config.withVerify false)) (p.rows session)
      (p.operator c.config).start.cells := hbuilt.gives rfl rfl
  have hrun := run_congr (fun _ => trivial) Collection.consume (Collection.ofTypes p.types) session hgives
  rw [execute_of_compile h, execute_of_compile h]
  simp only [hrun]

end Context
end QueryEngine
