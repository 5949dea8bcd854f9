import QueryEngine.Chunk.Collection
import QueryEngine.Join.Build
import QueryEngine.Proofs.Yields
import QueryEngine.Pull.Buffered
import QueryEngine.Pull.Delete
import QueryEngine.Pull.Pairing
import QueryEngine.Pull.Streaming

/-! Failures in time.

Only a loop that reads an input can run out of rounds. Whatever is done to columns, keys
and windows is one pass over rows that are there, so it ends; where it fails it fails with
an error or a crash (`Failure.InTime`), whatever the columns and the expressions are. -/
namespace QueryEngine

/-- Any failure but that a loop has used up its rounds. -/
def Failure.InTime : Failure → Prop
  | .error _ | .crash => True
  | .stalled => False

theorem Failure.InTime.ne {e : Failure} (h : e.InTime) : e ≠ .stalled := by
  rintro rfl
  exact h

section
variable {α β : Type}

/-- A query error is in time. -/
theorem Yields.inTime (x : Except QueryError α) : Yields Failure.InTime (liftM x) fun _ => True := by
  cases x <;> trivial

theorem Yields.mapM_inTime {f : α → Except Failure β} (xs : List α) (h : ∀ a, Yields Failure.InTime (f a) fun _ => True) :
    Yields Failure.InTime (xs.mapM f) fun _ => True :=
  (Yields.mapM fun a _ => h a).mono fun _ _ => trivial

end

/-! ### Columns and chunks -/

theorem addCounts_inTime (a b : Nat) : Yields Failure.InTime (addCounts a b) fun sum => sum = a + b :=
  .ite (fun _ => rfl) fun _ => trivial

namespace Column
variable (c : Column)

theorem gather_inTime (rows : List Nat) : Yields Failure.InTime (c.gather rows) fun _ => True := by
  unfold gather
  split <;> trivial

theorem gatherPadded_inTime (rows : List (Option Nat)) : Yields Failure.InTime (c.gatherPadded rows) fun _ => True := by
  unfold gatherPadded
  split <;> trivial

theorem slice_inTime (offset len : Nat) : Yields Failure.InTime (c.slice offset len) fun _ => True := by
  unfold slice
  split <;> trivial

theorem concat_inTime (t : SqlType) (cs : List Column) : Yields Failure.InTime (concat t cs) fun _ => True := by
  unfold concat
  split <;> trivial

theorem masked_inTime (chunk : Chunk) : Yields Failure.InTime (c.masked chunk) fun _ => True := by
  unfold masked
  split
  · unfold keepOnly
    split <;> trivial
  · trivial

end Column

namespace Chunk
variable (c : Chunk)

theorem flatten_inTime : Yields Failure.InTime c.flatten fun flat => flat.count = c.count := by
  refine .bind (Q := fun _ => True) ?_ fun _ _ => rfl
  unfold flatColumns
  split
  · trivial
  · exact .mapM_inTime _ fun column => column.gather_inTime _

end Chunk

namespace Collection

/-- The active rows of the chunk are added to those that are counted. -/
theorem append_inTime (c : Collection) (chunk : Chunk) :
    Yields Failure.InTime (c.append chunk) fun appended => appended.1.count ≤ c.count + chunk.count := by
  refine .ite (fun _ => Nat.le_add_right _ _) fun _ => .ite (fun _ => trivial) fun _ => ?_
  refine chunk.flatten_inTime.bind fun flat hflat => (addCounts_inTime _ _).bind fun sum hsum => ?_
  exact Nat.le_of_eq (hsum.trans (congrArg (c.count + ·) hflat))

theorem materialize_inTime (c : Collection) : Yields Failure.InTime c.materialize fun _ => True := by
  refine .mapM_inTime _ fun field => .bind (.mapM_inTime _ fun chunk => ?_) fun _ _ => Column.concat_inTime _ _
  unfold chunkColumn
  split <;> trivial

end Collection

/-! ### Expressions -/

namespace Evaluate

theorem binary_inTime (chunk : Chunk) (op : BinaryOp) (l r : Column) :
    Yields Failure.InTime (binary chunk op l r) fun _ => True := by
  cases op with
  | logic op =>
    exact (Yields.inTime l.toBooleans).bind fun _ _ => (Yields.inTime r.toBooleans).bind fun _ _ =>
      .ite (fun _ => trivial) fun _ => trivial
  | comparison op =>
    exact (Yields.inTime (l.coerce r)).bind fun _ _ => .ite (fun _ => trivial) fun _ =>
      .ite (fun _ => trivial) fun _ => trivial
  | arithmetic op =>
    refine (Yields.inTime (l.coerce r)).bind fun ⟨t, l', r'⟩ _ => .ite (fun _ => trivial) fun _ =>
      .ite (fun _ => trivial) fun _ => ?_
    refine (l'.masked_inTime chunk).bind fun _ _ => (r'.masked_inTime chunk).bind fun _ _ =>
      .ite (fun _ => trivial) fun _ => ?_
    unfold zipOperands
    split <;> trivial

theorem unary_inTime (chunk : Chunk) (op : UnaryOp) (c : Column) :
    Yields Failure.InTime (unary chunk op c) fun _ => True := by
  cases op with
  | not => exact (Yields.inTime c.toBooleans).bind fun _ _ => trivial
  | negate =>
    refine .ite (fun _ => trivial) fun _ => (c.masked_inTime chunk).bind fun _ _ => .ite (fun _ => trivial) fun _ => ?_
    split <;> trivial
  | isNull | isNotNull => trivial

theorem cast_inTime (chunk : Chunk) (t : SqlType) (c : Column) : Yields Failure.InTime (cast chunk t c) fun _ => True :=
  .ite (fun _ => trivial) fun _ => (c.masked_inTime chunk).bind fun _ _ => .inTime _

end Evaluate

namespace Expr
variable (chunk : Chunk)

theorem evaluate_inTime (e : Expr) : Yields Failure.InTime (e.evaluate chunk) fun _ => True := by
  fun_induction evaluate chunk e with
  | case1 | case2 | case3 | case7 | case8 => trivial
  | case4 l op r hl hr => exact hl.bind fun lc _ => hr.bind fun rc _ => Evaluate.binary_inTime chunk op lc rc
  | case5 op e he => exact he.bind fun c _ => Evaluate.unary_inTime chunk op c
  | case6 e t he => exact he.bind fun c _ => Evaluate.cast_inTime chunk t c

/-- The rows on which a predicate is TRUE are some of the active ones. -/
theorem selectRows_inTime (p : Expr) : Yields Failure.InTime (p.selectRows chunk) fun kept => kept.Sublist chunk.activeRows := by
  refine (p.evaluate_inTime chunk).bind fun c _ => (Yields.inTime c.toBooleans).bind fun _ _ => ?_
  exact .ite (fun _ => List.filter_sublist) fun _ => trivial

end Expr

/-! ### Orders and windows -/

theorem SortColumn.ofKeys_inTime (chunk : Chunk) (keys : List SortKey) :
    Yields Failure.InTime (SortColumn.ofKeys chunk keys) fun _ => True :=
  .bind (.mapM_inTime _ fun k => k.expr.evaluate_inTime chunk) fun _ _ => .ite (fun _ => trivial) fun _ => trivial

namespace Rows

theorem sort_inTime (columns : List SortColumn) (rows : List Nat) :
    Yields Failure.InTime (sort columns rows) fun _ => True :=
  .ite (fun _ => trivial) fun _ => trivial

theorem sortColumns_inTime (keys : List SortKey) (columns : List Column) :
    Yields Failure.InTime (sortColumns keys columns) fun _ => True :=
  .ite (fun _ => trivial) fun _ => (Yields.inTime (Chunk.ofColumns columns)).bind fun _ _ =>
    (SortColumn.ofKeys_inTime _ _).bind fun _ _ => (sort_inTime _ _).bind fun _ _ =>
      .mapM_inTime _ fun c => c.gather_inTime _

end Rows

namespace WindowCall

theorem partitionValues_inTime (w : WindowCall) (keys : List SortColumn) (argument : Option Column) (rows : List Nat) :
    Yields Failure.InTime (w.partitionValues keys argument rows) fun _ => True := by
  refine (Rows.sort_inTime keys rows).bind fun rows _ => ?_
  split
  · trivial
  · trivial
  · trivial
  · exact .inTime _

theorem evaluate_inTime (w : WindowCall) (chunk : Chunk) : Yields Failure.InTime (w.evaluate chunk) fun _ => True := by
  refine .bind (.mapM_inTime _ fun e => e.evaluate_inTime chunk) fun _ _ => ?_
  refine (SortColumn.ofKeys_inTime _ _).bind fun keys _ => .bind (.mapM_inTime _ fun e => e.evaluate_inTime chunk) fun args _ => ?_
  refine (Yields.inTime _).bind fun partitions _ => ?_
  exact .bind (.mapM_inTime _ fun rows => partitionValues_inTime _ _ _ rows) fun values _ => .inTime _

end WindowCall

/-! ### What operators do besides reading -/

namespace Operator

theorem placedCalls_inTime (calls : List WindowCall) (input : Operator) (columns : Nat) :
    Yields Failure.InTime (placedCalls calls input columns) fun _ => True := by
  unfold placedCalls
  dsimp only
  split <;> trivial

theorem idsOf_inTime (chunk : Chunk) : Yields Failure.InTime (idsOf chunk) fun _ => True := by
  unfold idsOf
  split
  · trivial
  · split <;> trivial

end Operator
end QueryEngine
