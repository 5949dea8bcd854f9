import QueryEngine.Proofs.Group.HandedOut
import QueryEngine.Proofs.Pull.Draining
import QueryEngine.Proofs.Sort.Ordered

/-! When sorting succeeds.

Rows that every key has a value for are put in order. So where they can be counted, the first
pull of a sort fails only for want of bytes (`first_order_error`). -/
namespace QueryEngine

/-- Every key has a value on each of the rows, in an order that values of its type have. -/
structure SortKey.Computes (types : List SqlType) (keys : List SortKey) (rows : List Row) : Prop where
  sortable : Sortable types keys
  values : ∀ row ∈ rows, ∀ k ∈ keys, ∃ d, k.expr.onRow row = .ok d

theorem SortColumn.ofKeys_of_rows {chunk : Chunk} {keys : List SortKey} (hc : chunk.Sound) (hrows : chunk.isEmpty = false)
    (h : SortKey.Computes chunk.types keys chunk.rows) : ∃ columns, ofKeys chunk keys = .ok columns := by
  obtain ⟨columns, hcolumns⟩ : ∃ columns, (keys.mapM fun k : SortKey => k.expr.evaluate chunk) = .ok columns :=
    mapM_of_forall fun k hk => by
      obtain ⟨-, t, ht, -⟩ := h.sortable k hk
      exact Expr.evaluate_of_rows hc hrows ht fun row hrow => h.values row hrow k hk
  have hordered : ¬(columns.any fun c => c.type = .sqlNull) = true := fun hany => by
    obtain ⟨column, hcolumn, hnull⟩ := List.any_eq_true.mp hany
    obtain ⟨k, hk, hevaluated⟩ := mem_of_mapM hcolumns hcolumn
    obtain ⟨-, t, ht, hne⟩ := h.sortable k hk
    exact hne ((Expr.evaluate_type hc ht hevaluated).symm.trans (of_decide_eq_true hnull))
  refine ⟨(keys.zip columns).map fun k => ⟨k.2.slots.toArray, k.1.descending, k.1.nullsFirst⟩, ?_⟩
  unfold ofKeys
  rw [hcolumns, ok_bind, if_neg hordered]
  rfl

/-- Rows that the keys have values for are put in order. -/
theorem Rows.sortColumns_of_rows {keys : List SortKey} {types : List SqlType} {rows : List Row} {cs : List Column}
    (hcs : Lists cs types rows) (htypes : types ≠ []) (hrows : rows ≠ []) (h : SortKey.Computes types keys rows) :
    ∃ ds, sortColumns keys cs = .ok ds := by
  unfold sortColumns
  by_cases hk : keys.isEmpty = true
  · exact ⟨cs, if_pos hk⟩
  obtain ⟨input, hinput, hsound, hcolumns, hflat, hcount⟩ := Chunk.ofColumns_ok fun c hc => hcs.size hc
  have hcount : input.count = rows.length := hcount fun hnone => htypes (by rw [← hcs.typed, hnone]; rfl)
  have hlisted : input.types = types ∧ input.rows = rows := by
    refine ⟨by rw [Chunk.types, hcolumns, hcs.typed], ?_⟩
    rw [← hcs.toRows_eq, ← hcount, ← hcolumns, Chunk.rows, Chunk.activeRows, hflat]
    rfl
  have hsome : input.isEmpty = false := by
    rw [Bool.eq_false_iff, ne_eq, ← hsound.rows_eq_nil_iff, hlisted.2]
    exact hrows
  obtain ⟨columns, hkeyed⟩ := SortColumn.ofKeys_of_rows hsound hsome (hlisted.1.symm ▸ hlisted.2.symm ▸ h)
  rw [if_neg hk, hinput, lift_ok, ok_bind, hkeyed, ok_bind, ← hcolumns]
  exact gather_sorted hsound hflat (SortColumn.ofKeys_ok hsound hkeyed).2

namespace Operator
variable {sees : List (Nat × Mask) → Prop} {input : Operator} {keys : List SortKey} {rows given : List Row} {f : Frame}

/-- Rows are sorted where the keys have values on them, but for want of bytes. -/
theorem fails_sortInput (htypes : input.types ≠ []) (h : Gives ⟨0, False, True, sees⟩ input input given f.below)
    (hfeeds : input.Feeds sees f.below) (hs : sees f.session.masks) (hle : given.length ≤ maxCount) (hrows : given ≠ [])
    (hcomputes : (∀ row ∈ given, Typed input.types row) → SortKey.Computes input.types keys given) :
    Pull.Fails (sortInput keys input) f fun e _ => e.Refused := by
  unfold sortInput
  refine (fails_drainOwn "Order" h hfeeds hs hle).bind fun buffered g hg => ?_
  obtain ⟨all, hall, htold⟩ := ((agree_drainOwn "Order" h hs).2 buffered g hg).holds
  obtain rfl : all = given := htold trivial
  obtain ⟨columns, hcolumns, hlists⟩ := hall.materialize_ok
  obtain ⟨sorted, hsorted⟩ := Rows.sortColumns_of_rows hlists htypes hrows (hcomputes fun row hrow => hlists.typed_of_mem hrow)
  rw [hcolumns]
  refine .step (a := columns) rfl ?_
  rw [hsorted]
  exact .step (a := sorted) rfl .pure

/-- A first pull of a sort that fails was refused bytes. -/
theorem first_order_error {config : Config} (htypes : input.types ≠ []) (h : input.Streams sees rows)
    (hfeeds : input.Feeds sees input.start.cells) (hle : rows.length ≤ maxCount) (hrows : rows ≠ [])
    (hcomputes : (∀ row ∈ rows, Typed input.types row) → SortKey.Computes input.types keys rows) {session : Session}
    {out : Chunk} (hs : sees session.masks) {e : Failure} {g : Frame}
    (hg : (order config keys input).first session out = .error e g) : e.Refused := by
  have hop := blocking_order config keys input
  exact hop.first_fails (hop.unstarted h) (made_order keys) hs
    (fails_sortInput htypes h hfeeds hs hle hrows hcomputes) hg

end Operator
end QueryEngine
