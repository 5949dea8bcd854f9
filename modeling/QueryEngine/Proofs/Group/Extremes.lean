import QueryEngine.Proofs.Group.Computed
import QueryEngine.Proofs.Group.Permuted
import QueryEngine.Proofs.Sort.Computed
import QueryEngine.Proofs.Value.Extreme

/-! The extremes of a column, grouped and sorted.

`MIN` and `MAX` of a column take its values as keys, a sort takes them in their total order. So
over the same rows, in whatever chunks they come, the one value of the call and the value at
that end of the sorted column are the same key, unless NaNs with a sign bit stand among numbers
(`extreme_settled`). Neither the call nor the sort fails but for want of bytes. -/
namespace QueryEngine

/-! ### The call -/

theorem Expr.resolve_column {types : List SqlType} {i : Nat} {t : SqlType} (ht : types[i]? = some t) :
    (column i t).resolve types = .ok t := columnType_eq_ok.mpr ⟨ht, rfl⟩

namespace Extreme
variable {x : Extreme} {i : Nat} {t : SqlType} {types : List SqlType} {row : Row} {rows : List Row} {v : Scalar}

def function : Extreme → AggregateFunction
  | least => .min
  | greatest => .max

/-- The extreme of a column. -/
def call (x : Extreme) (i : Nat) (t : SqlType) : AggregateCall := ⟨x.function, some (.column i t), t⟩

theorem ofExpr_call (x : Extreme) (ht : types[i]? = some t) :
    AggregateCall.ofExpr types (.aggregate x.function [.column i t]) = .ok (x.call i t) := by
  rw [AggregateCall.ofExpr, Expr.resolve, Expr.resolveEach, Expr.resolveEach, Expr.resolve_column ht]
  cases x <;> rfl

theorem resolved_calls (x : Extreme) (ht : types[i]? = some t) : ∀ c ∈ [x.call i t], c.Resolved types :=
  List.forall_mem_singleton.mpr (AggregateCall.resolved_of_ofExpr (x.ofExpr_call ht))

theorem says_call (hsome : (x.call i t).valuesOn rows ≠ []) :
    (x.call i t).Says rows v ↔ x.Of Scalar.compare ((x.call i t).valuesOn rows) v := by
  cases x <;> exact iff_of_eq (if_neg hsome)

theorem not_overflowing (x : Extreme) : ¬Group.Overflowing [] [x.call i t] rows := by
  rintro ⟨group, -, c, hc, hsum, -⟩
  rw [List.mem_singleton.mp hc] at hsum
  cases x <;> cases hsum

end Extreme

/-! ### The column -/

section
variable {x : Extreme} {i : Nat} {t : SqlType} {types : List SqlType} {row : Row} {rows : List Row}

/-- A column has a value on every row. -/
theorem Typed.column (hrow : Typed types row) (ht : types[i]? = some t) :
    ∃ d, (Expr.column i t).onRow row = .ok d ∧ d.type = t ∧ d.Fits := by
  rw [← hrow.1, List.getElem?_map] at ht
  obtain ⟨d, hd, rfl⟩ := Option.map_eq_some_iff.mp ht
  exact ⟨d, by rw [Expr.onRow, hd], rfl, hrow.2 d (List.mem_of_getElem? hd)⟩

theorem type_of_mem_valuesOn (hrows : ∀ row ∈ rows, Typed types row) (ht : types[i]? = some t) {v : Scalar}
    (hv : v ∈ (x.call i t).valuesOn rows) : v.type = t := by
  obtain ⟨hv, hsome⟩ := List.mem_filter.mp hv
  obtain ⟨row, hrow, hv⟩ := List.mem_filterMap.mp hv
  obtain ⟨d, hd, rfl, hfits⟩ := (hrows row hrow).column ht
  have hvalue : d.value = v := by
    rw [← Expr.valueOn_of_ok hd]
    exact Option.some.inj hv
  rw [← hvalue] at hsome ⊢
  refine hfits.resolve_left fun hnull => ?_
  rw [hnull] at hsome
  cases hsome

/-- Rows are put in order by a column that is not NULL on all of them. -/
theorem SortKey.computes_column {descending nullsFirst : Bool} (hrows : ∀ row ∈ rows, Typed types row)
    (ht : types[i]? = some t) (hsome : (x.call i t).valuesOn rows ≠ []) :
    Computes types [⟨.column i t, descending, nullsFirst⟩] rows := by
  have htyped : t ≠ .sqlNull := by
    rintro rfl
    obtain ⟨v, hv⟩ := List.exists_mem_of_ne_nil _ hsome
    have hnull : v = .null := (Scalar.fits_sqlNull_iff v).mp (.inr (type_of_mem_valuesOn hrows ht hv))
    rw [hnull] at hv
    cases (List.mem_filter.mp hv).2
  refine ⟨List.forall_mem_singleton.mpr ⟨rfl, t, Expr.resolve_column ht, htyped⟩, fun row hrow =>
    List.forall_mem_singleton.mpr ?_⟩
  obtain ⟨d, hd, -⟩ := (hrows row hrow).column ht
  exact ⟨d, hd⟩

end

/-- Where a sort has put the rows in ascending order of a column, its values ascend. -/
theorem SortKey.Orders.valuesOn {e : Expr} {nullsFirst : Bool} {rows : List Row} {places : List Nat} {c : AggregateCall}
    (h : Orders [⟨e, false, nullsFirst⟩] rows places) (hc : c.argument = some e) :
    (c.valuesOn (places.map fun i => rows.getD i [])).Pairwise fun a b => a.compareTotal b ≠ .gt := by
  have harguments (row : Row) : c.argumentOn row = some (e.valueOn row).value := by
    rw [AggregateCall.argumentOn, hc, Option.map_some]
  unfold AggregateCall.valuesOn
  rw [List.pairwise_filter, List.pairwise_filterMap, List.pairwise_map]
  refine h.before.imp fun {i j} hij a ha b hb hsome hsome' => ?_
  cases (harguments _).symm.trans ha
  cases (harguments _).symm.trans hb
  have hne : compareRows [⟨e, false, nullsFirst⟩] (rows.getD i []) (rows.getD j []) ≠ .gt := by
    rcases hij with hlt | ⟨heq, -⟩
    · rw [hlt]
      decide
    · rw [heq]
      decide
  rw [Bool.not_eq_true'] at hsome hsome'
  rwa [compareRows, compareRows, Ordering.then_eq, compareValues, valueOn, valueOn, hsome, hsome'] at hne

/-! ### The runs -/

namespace Operator
open QueryEngine.Group (Evaluates RowOf split)
variable {sees sees' : List (Nat × Mask) → Prop} {input input' : Operator} {rows all : List Row} {x : Extreme} {i : Nat}
  {t : SqlType}

/-- All rows are one group, and the extreme is all that its row shows. -/
theorem row_of_extreme {types : List SqlType} (ht : types[i]? = some t) (hsome : (x.call i t).valuesOn rows ≠ [])
    (h : List.Forall₂ (RowOf [] [x.call i t]) (split [] rows) all) :
    ∃ v, all = [[⟨t, v⟩]] ∧ x.Of Scalar.compare ((x.call i t).valuesOn rows) v := by
  have hone : List.Forall₂ (RowOf [] [x.call i t]) [rows] all := h
  obtain ⟨row, _, hrow, hnone, rfl⟩ := List.forall₂_cons_left_iff.mp hone
  obtain rfl := List.forall₂_nil_left_iff.mp hnone
  obtain ⟨results, rfl, hresults⟩ := hrow.shows (x.resolved_calls ht)
  obtain ⟨d, _, ⟨htype, hsays⟩, hnone, rfl⟩ := List.forall₂_cons_left_iff.mp hresults
  obtain rfl := List.forall₂_nil_left_iff.mp hnone
  have hfront : (rows.head?.elim [] fun first => ([] : List Expr).map fun e => e.valueOn first) = [] := by
    cases rows <;> rfl
  obtain ⟨type, v⟩ := d
  obtain rfl : type = t := htype
  exact ⟨v, by rw [hfront, List.nil_append], (Extreme.says_call hsome).mp hsays⟩

/-- The extreme of a column fails only for want of bytes. -/
theorem first_extreme_error {config : Config} (x : Extreme) (ht : input.types[i]? = some t) (h : input.Streams sees rows)
    (hfeeds : input.Feeds sees input.start.cells) {session : Session} {out : Chunk} (hs : sees session.masks) {e : Failure}
    {g : Frame} (hg : (aggregate config [] [] [x.call i t] input).first session out = .error e g) : e.Refused := by
  have hresolved := x.resolved_calls ht
  have hvalues (row : Row) (hrow : row ∈ rows.filter fun row => Typed input.types row) : Evaluates [] [x.call i t] row := by
    obtain ⟨d, hd, -⟩ := (mem_typed hrow).column ht
    refine ⟨nofun, fun c hc e he => ?_⟩
    rw [List.mem_singleton.mp hc] at he
    cases he
    exact ⟨d, hd⟩
  by_contra hroom
  obtain ⟨-, hover⟩ := first_aggregate_error rfl hresolved h.typed hfeeds hvalues (made_groups rfl hresolved) hs hg hroom
  exact x.not_overflowing hover

end Operator
end QueryEngine
