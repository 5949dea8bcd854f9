import QueryEngine.Proofs.Window.Call
import QueryEngine.Chunk.Collection
import QueryEngine.Join.Build
import QueryEngine.Pull.Buffered
import QueryEngine.Pull.Delete
import QueryEngine.Pull.Grouping
import QueryEngine.Pull.Leaf
import QueryEngine.Pull.Pairing
import QueryEngine.Pull.Streaming

/-! Errors about calls.

The evaluator refuses an aggregate or window call, wherever it comes upon one. No other
part of the engine knows of calls, so whatever an operator does with columns, keys and
windows it fails with other errors, as long as the expressions that it evaluates have no
call in them (`Quiet`). -/
namespace QueryEngine

/-- Any error but that the evaluator came upon a call. -/
def QueryError.Quiet : QueryError → Prop
  | .internal (.aggregateOutside _) | .internal (.windowOutside _) => False
  | _ => True

instance : DecidablePred QueryError.Quiet
  | .internal (.aggregateOutside _) | .internal (.windowOutside _) => .isFalse id
  | .internal (.rowOfArray _ _) | .internal (.valueType _ _) | .internal (.assignedType _ _ _) | .internal (.slice _ _ _)
  | .internal (.columnLength _ _ _) | .internal (.flatCount _ _) | .internal (.selectionCount _ _)
  | .internal .selectionRange | .internal (.appendedTypes _ _) | .internal (.rowOfCollection _ _)
  | .internal (.noChildState _) | .internal (.otherState _) | .internal (.matchFlags _ _) | .internal (.keyLength _ _)
  | .invalidPlan _ | .type _ | .execution _ | .resourceExhausted _ | .storage _ | .notImplemented _ | .io _
  | .kernel _ | .config => .isTrue trivial

theorem QueryError.OfValue.quiet {e : QueryError} (h : e.OfValue) : e.Quiet := by
  unfold OfValue at h
  split at h <;> trivial

def Failure.Quiet : Failure → Prop
  | .error e => e.Quiet
  | .crash | .stalled => True

instance : DecidablePred Failure.Quiet
  | .error e => inferInstanceAs (Decidable e.Quiet)
  | .crash | .stalled => .isTrue trivial

section
variable {ε α β : Type} {P : ε → Prop}

theorem Yields.mapM_true {f : α → Except ε β} {xs : List α} (h : ∀ a ∈ xs, Yields P (f a) fun _ => True) :
    Yields P (xs.mapM f) fun _ => True :=
  (Yields.mapM h).mono fun _ _ => trivial

theorem Yields.foldlM_true {f : β → α → Except ε β} {xs : List α} {b : β}
    (h : ∀ b, ∀ a ∈ xs, Yields P (f b a) fun _ => True) : Yields P (xs.foldlM f b) fun _ => True :=
  Yields.foldlM trivial fun b a ha _ => h b a ha

end

/-! ### Columns and chunks -/

theorem addCounts_quiet (a b : Nat) : Yields Failure.Quiet (addCounts a b) fun _ => True := by
  unfold addCounts
  split <;> trivial

namespace Column
variable (c : Column)

theorem get_quiet (row : Nat) : Yields QueryError.Quiet (c.get row) fun _ => True := by
  unfold get
  split <;> trivial

theorem gather_quiet (rows : List Nat) : Yields Failure.Quiet (c.gather rows) fun _ => True := by
  unfold gather
  split <;> trivial

theorem gatherPadded_quiet (rows : List (Option Nat)) : Yields Failure.Quiet (c.gatherPadded rows) fun _ => True := by
  unfold gatherPadded
  split <;> trivial

theorem slice_quiet (offset len : Nat) : Yields Failure.Quiet (c.slice offset len) fun _ => True := by
  unfold slice
  split <;> trivial

theorem concat_quiet (t : SqlType) (cs : List Column) : Yields Failure.Quiet (concat t cs) fun _ => True := by
  unfold concat
  split <;> trivial

theorem ofScalars_quiet (t : SqlType) (vs : List Scalar) : Yields QueryError.Quiet (ofScalars t vs) fun _ => True := by
  unfold ofScalars
  refine .ite (fun _ => trivial) fun _ => ?_
  split <;> trivial

theorem toBooleans_quiet : Yields QueryError.Quiet c.toBooleans fun _ => True := by
  unfold toBooleans
  split <;> trivial

theorem coerce_quiet (d : Column) : Yields QueryError.Quiet (c.coerce d) fun _ => True := by
  unfold coerce
  split <;> trivial

theorem masked_quiet (chunk : Chunk) : Yields Failure.Quiet (c.masked chunk) fun _ => True := by
  unfold masked
  split
  · unfold keepOnly
    split <;> trivial
  · trivial

end Column

namespace Chunk
variable (c : Chunk)

/-- What columns, count and selection disagree in is no call. -/
theorem verify_quiet : Yields QueryError.Quiet c.verify fun _ => True := by
  have huneven (rows i : Nat) (columns : List Column) :
      ∀ e ∈ unevenColumn rows i columns, QueryError.Quiet (.internal e) := by
    induction columns generalizing i with
    | nil => nofun
    | cons column rest ih =>
      rw [unevenColumn]
      split
      · exact ih _
      · rintro _ ⟨⟩
        trivial
  unfold verify
  split
  case h_2 => trivial
  case h_1 e he =>
    rcases Option.or_eq_some_iff.mp he with he | ⟨-, he⟩
    · exact huneven _ _ _ e he
    · split at he
      · split at he <;> cases he
        trivial
      · split at he
        · cases he
          trivial
        · split at he <;> cases he
          trivial

theorem ofColumns_quiet (columns : List Column) : Yields QueryError.Quiet (ofColumns columns) fun _ => True :=
  (verify_quiet _).bind fun _ _ => trivial

theorem flatten_quiet : Yields Failure.Quiet c.flatten fun _ => True := by
  refine .bind (Q := fun _ => True) ?_ fun _ _ => trivial
  unfold flatColumns
  split
  · trivial
  · exact .mapM_true fun column _ => column.gather_quiet _

theorem slice_quiet (offset len : Nat) : Yields Failure.Quiet (c.slice offset len) fun _ => True := by
  refine (addCounts_quiet _ _).bind fun stop _ => .ite (fun _ => trivial) fun _ => ?_
  split
  · refine .bind (Q := fun _ => True) ?_ fun _ _ => trivial
    unfold Selection.slice
    split <;> trivial
  · exact .bind (.mapM_true fun column _ => column.slice_quiet _ _) fun _ _ => trivial

end Chunk

namespace Collection

theorem append_quiet (c : Collection) (chunk : Chunk) : Yields Failure.Quiet (c.append chunk) fun _ => True := by
  refine .ite (fun _ => trivial) fun _ => .ite (fun _ => trivial) fun _ => ?_
  exact chunk.flatten_quiet.bind fun flat _ => (addCounts_quiet _ _).bind fun _ _ => trivial

theorem materialize_quiet (c : Collection) : Yields Failure.Quiet c.materialize fun _ => True := by
  refine .mapM_true fun field _ => .bind (.mapM_true fun chunk _ => ?_) fun _ _ => Column.concat_quiet _ _
  unfold chunkColumn
  split <;> trivial

end Collection

/-! ### Expressions -/

namespace Evaluate

theorem logic_quiet (op : LogicOp) (l r : Column) : Yields Failure.Quiet (logic op l r) fun _ => True :=
  (Yields.lift l.toBooleans_quiet).bind fun _ _ => (Yields.lift r.toBooleans_quiet).bind fun _ _ =>
    .ite (fun _ => trivial) fun _ => trivial

theorem comparison_quiet (op : ComparisonOp) (l r : Column) : Yields Failure.Quiet (comparison op l r) fun _ => True :=
  (Yields.lift (l.coerce_quiet r)).bind fun _ _ => .ite (fun _ => trivial) fun _ => .ite (fun _ => trivial) fun _ => trivial

theorem arithmetic_quiet (chunk : Chunk) (op : ArithmeticOp) (l r : Column) :
    Yields Failure.Quiet (arithmetic chunk op l r) fun _ => True := by
  refine (Yields.lift (l.coerce_quiet r)).bind fun ⟨t, l', r'⟩ _ => .ite (fun _ => trivial) fun _ =>
    .ite (fun _ => trivial) fun _ => ?_
  refine (l'.masked_quiet chunk).bind fun _ _ => (r'.masked_quiet chunk).bind fun _ _ => .ite (fun _ => trivial) fun _ => ?_
  unfold zipOperands
  split <;> trivial

theorem negate_quiet (chunk : Chunk) (c : Column) : Yields Failure.Quiet (negate chunk c) fun _ => True := by
  refine .ite (fun _ => trivial) fun _ => (c.masked_quiet chunk).bind fun _ _ => .ite (fun _ => trivial) fun _ => ?_
  split <;> trivial

theorem cast_quiet (chunk : Chunk) (t : SqlType) (c : Column) : Yields Failure.Quiet (cast chunk t c) fun _ => True := by
  refine .ite (fun _ => trivial) fun _ => (c.masked_quiet chunk).bind fun masked _ => .lift ?_
  refine .ite (fun _ => Yields.map (.mapM_true fun v _ => ?_)) fun _ => trivial
  exact (Cast.slot_yields t v).error_mono fun _ he => he.quiet

end Evaluate

/-- An expression without calls. -/
theorem Expr.evaluate_quiet (chunk : Chunk) {e : Expr} (h : e.isPlain = true) :
    Yields Failure.Quiet (e.evaluate chunk) fun _ => True := by
  fun_induction evaluate chunk e with
  | case1 | case2 | case3 => trivial
  | case4 l op r hl hr =>
    rw [isPlain, Bool.and_eq_true] at h
    refine (hl h.1).bind fun lc _ => (hr h.2).bind fun rc _ => ?_
    cases op with
    | logic op => exact Evaluate.logic_quiet op lc rc
    | comparison op => exact Evaluate.comparison_quiet op lc rc
    | arithmetic op => exact Evaluate.arithmetic_quiet chunk op lc rc
  | case5 op e he =>
    refine (he h).bind fun c _ => ?_
    cases op with
    | not => exact (Yields.lift c.toBooleans_quiet).bind fun _ _ => trivial
    | negate => exact Evaluate.negate_quiet chunk c
    | isNull | isNotNull => trivial
  | case6 e t he => exact (he h).bind fun c _ => Evaluate.cast_quiet chunk t c
  | case7 | case8 => cases h

namespace Expr
variable {chunk : Chunk}

/-- Expressions without calls, side by side. -/
theorem evaluateAll_quiet {es : List Expr} (h : ∀ e ∈ es, e.isPlain = true) :
    Yields Failure.Quiet (es.mapM (evaluate chunk)) fun _ => True :=
  .mapM_true fun e he => evaluate_quiet chunk (h e he)

theorem selectRows_quiet {p : Expr} (h : p.isPlain = true) : Yields Failure.Quiet (p.selectRows chunk) fun _ => True :=
  (evaluate_quiet chunk h).bind fun c _ => (Yields.lift c.toBooleans_quiet).bind fun _ _ =>
    .ite (fun _ => trivial) fun _ => trivial

end Expr

/-! ### Keys and orders -/

theorem Key.ofRow_quiet (columns : List Column) (row : Nat) :
    Yields QueryError.Quiet (Key.ofRow columns row) fun _ => True :=
  .mapM_true fun c _ => c.get_quiet row

theorem Key.joining?_quiet (columns : List Column) (row : Nat) :
    Yields QueryError.Quiet (Key.joining? columns row) fun _ => True := by
  induction columns with
  | nil => trivial
  | cons c cs ih => exact (c.get_quiet row).bind fun v _ => .ite (fun _ => trivial) fun _ => ih.bind fun _ _ => trivial

theorem KeyMap.ofRows_quiet (columns : List Column) (rows : List Nat) :
    Yields QueryError.Quiet (KeyMap.ofRows columns rows) fun _ => True :=
  .foldlM_true fun _ row _ => (Key.ofRow_quiet columns row).bind fun _ _ => trivial

theorem SortColumn.ofKeys_quiet {chunk : Chunk} {keys : List SortKey} (h : ∀ k ∈ keys, k.expr.isPlain = true) :
    Yields Failure.Quiet (SortColumn.ofKeys chunk keys) fun _ => True :=
  .bind (.mapM_true fun k hk => Expr.evaluate_quiet chunk (h k hk)) fun _ _ => .ite (fun _ => trivial) fun _ => trivial

namespace Rows

theorem sort_quiet (columns : List SortColumn) (rows : List Nat) :
    Yields Failure.Quiet (sort columns rows) fun _ => True :=
  .ite (fun _ => trivial) fun _ => trivial

theorem sortColumns_quiet {keys : List SortKey} {columns : List Column} (h : ∀ k ∈ keys, k.expr.isPlain = true) :
    Yields Failure.Quiet (sortColumns keys columns) fun _ => True :=
  .ite (fun _ => trivial) fun _ => (Yields.lift (Chunk.ofColumns_quiet columns)).bind fun _ _ =>
    (SortColumn.ofKeys_quiet h).bind fun _ _ => (sort_quiet _ _).bind fun _ _ => .mapM_true fun c _ => c.gather_quiet _

end Rows

/-! ### Aggregates and windows -/

namespace Accumulator

theorem update_quiet (a : Accumulator) (v : Option Scalar) : Yields QueryError.Quiet (a.update v) fun _ => True := by
  cases v with
  | none => trivial
  | some v =>
    refine .ite (fun _ => trivial) fun _ => ?_
    unfold add
    dsimp only
    split
    case h_3 | h_4 => exact .ite (fun _ => .ite (fun _ => trivial) fun _ => trivial) fun _ => trivial
    all_goals trivial

end Accumulator

theorem Group.updateAll_quiet (row : Nat) (taken : List (Accumulator × Option Column)) :
    Yields QueryError.Quiet (Group.updateAll row taken) fun _ => True := by
  induction taken with
  | nil => trivial
  | cons first rest ih =>
    obtain ⟨a, argument⟩ := first
    cases argument with
    | none => exact (a.update_quiet none).bind fun _ _ => ih.bind fun _ _ => trivial
    | some c => exact (c.get_quiet row).bind fun _ _ => (a.update_quiet _).bind fun _ _ => ih.bind fun _ _ => trivial

theorem Group.addRow_quiet (g : Group) (arguments : List (Option Column)) (row : Nat) :
    Yields QueryError.Quiet (g.addRow arguments row) fun _ => True :=
  (Group.updateAll_quiet row _).bind fun _ _ => trivial

theorem Operator.groupColumns_quiet (keyTypes : List SqlType) (calls : List AggregateCall) (groups : List Group) :
    Yields QueryError.Quiet (groupColumns keyTypes calls groups) fun _ => True :=
  .bind (.mapM_true fun _ _ => Column.ofScalars_quiet _ _) fun _ _ =>
    .bind (.mapM_true fun _ _ => Column.ofScalars_quiet _ _) fun _ _ => trivial

namespace WindowCall

theorem accumulate_quiet (argument : Option Column) (a : Accumulator) (rows : List Nat) :
    Yields QueryError.Quiet (accumulate argument a rows) fun _ => True := by
  refine .foldlM_true fun a row _ => ?_
  cases argument with
  | none => exact a.update_quiet none
  | some c => exact (c.get_quiet row).bind fun _ _ => a.update_quiet _

theorem runningAggregates_quiet (argument : Option Column) (a : Accumulator) (frames : List (List Nat)) :
    Yields QueryError.Quiet (runningAggregates argument a frames) fun _ => True := by
  induction frames generalizing a with
  | nil => trivial
  | cons frame frames ih => exact (accumulate_quiet argument a frame).bind fun a _ => (ih a).bind fun _ _ => trivial

theorem partitionValues_quiet (w : WindowCall) (keys : List SortColumn) (argument : Option Column) (rows : List Nat) :
    Yields Failure.Quiet (w.partitionValues keys argument rows) fun _ => True := by
  refine (Rows.sort_quiet keys rows).bind fun rows _ => ?_
  split
  · trivial
  · trivial
  · trivial
  · exact .lift (runningAggregates_quiet _ _ _)

theorem evaluate_quiet {w : WindowCall} {chunk : Chunk} (h : w.Flat) :
    Yields Failure.Quiet (w.evaluate chunk) fun _ => True := by
  refine (Expr.evaluateAll_quiet h.partitions).bind fun partitions _ => ?_
  refine (SortColumn.ofKeys_quiet h.orders).bind fun keys _ => ?_
  refine (Expr.evaluateAll_quiet h.args).bind fun args _ => ?_
  refine (Yields.lift (KeyMap.ofRows_quiet _ _)).bind fun partitions _ => ?_
  refine .bind (.mapM_true fun rows _ => partitionValues_quiet _ _ _ rows) fun values _ => ?_
  exact .lift (Column.ofScalars_quiet _ _)

end WindowCall

/-! ### Joins and tables -/

namespace JoinSide

theorem ofColumns_quiet {keys : List Expr} {columns : List Column} {count : Nat} (h : ∀ e ∈ keys, e.isPlain = true) :
    Yields Failure.Quiet (ofColumns keys columns count) fun _ => True := by
  refine .ite (fun _ => trivial) fun _ => (Yields.lift (Chunk.ofColumns_quiet columns)).bind fun _ _ => ?_
  refine (Expr.evaluateAll_quiet h).bind fun keyColumns _ => .foldlM_true fun side row _ => ?_
  exact (Yields.lift (Key.joining?_quiet keyColumns row)).bind fun _ _ => trivial

end JoinSide

namespace Operator

theorem probeRows_quiet (kind : JoinKind) (side : JoinSide) (keys : List Column) (rows : List Nat) :
    Yields QueryError.Quiet (probeRows kind side keys rows).1 fun _ => True := by
  induction rows with
  | nil => trivial
  | cons row rows ih =>
    have hrow : Yields QueryError.Quiet (side.matches? keys row) fun _ => True :=
      (Key.joining?_quiet keys row).bind fun _ _ => trivial
    rw [probeRows]
    cases hfound : side.matches? keys row with
    | error e => exact hrow.error hfound
    | ok found => exact Yields.map (ih.mono fun _ _ => trivial)

end Operator

theorem Provider.window_quiet (table : Provider) (mask : Mask) (ids : List Nat) (offset len : Nat) :
    Yields QueryError.Quiet (table.window mask ids offset len) fun _ => True := by
  refine .bind (Q := fun _ => True) (.bind (.mapM_true fun id _ => ?_) fun _ _ => trivial) fun _ _ => trivial
  split <;> trivial

theorem Table.delete_quiet (t : Table) (mask : Mask) (ids : List Int64) :
    Yields QueryError.Quiet (t.delete mask ids).1 fun _ => True := by
  induction ids generalizing mask with
  | nil => trivial
  | cons id ids ih =>
    rw [Table.delete]
    split
    · trivial
    · exact Yields.map ((ih _).mono fun _ _ => trivial)

theorem Operator.nextWindow_quiet (table : Provider) (mask : Mask) (ids : List Nat) (capacity rounds offset : Nat) :
    Yields QueryError.Quiet (nextWindow table mask ids capacity rounds offset).1 fun _ => True := by
  induction rounds generalizing offset with
  | zero => trivial
  | succ rounds ih =>
    rw [nextWindow]
    split
    · trivial
    dsimp only
    have hwindow := table.window_quiet mask ids offset (min capacity (table.table.rows - offset))
    split
    · rename_i e he
      exact hwindow.error he
    · split
      · exact ih _
      · trivial

theorem Operator.idsOf_quiet (chunk : Chunk) : Yields Failure.Quiet (idsOf chunk) fun _ => True := by
  unfold idsOf
  split
  · trivial
  · exact .ite (fun _ => trivial) fun _ => trivial

end QueryEngine
