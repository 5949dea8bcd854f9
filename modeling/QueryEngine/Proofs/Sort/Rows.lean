import QueryEngine.Proofs.Expr.Failing
import QueryEngine.Sort.Rows

/-! Sorting by keys that were resolved.

There is an order on every type but NULL. So where no key has that type, keys have a
value for every row, the rows can be put in order, and so can columns; what fails does
so on data, when a key is evaluated. -/
namespace QueryEngine

/-- Keys that rows of the given types can be put in order by. -/
def Sortable (types : List SqlType) (keys : List SortKey) : Prop :=
  ∀ k ∈ keys, k.expr.isPlain = true ∧ ∃ t, k.expr.resolve types = .ok t ∧ t ≠ .sqlNull

theorem Chunk.ofColumns_ok {columns : List Column} {n : Nat} (h : ∀ c ∈ columns, c.size = n) :
    ∃ chunk, ofColumns columns = .ok chunk ∧ chunk.Sound ∧ chunk.columns = columns ∧ chunk.selection = none ∧
      (columns ≠ [] → chunk.count = n) := by
  have heven : ∀ c ∈ columns, c.size = columns.head?.elim 0 Column.size := fun c hc => by
    cases columns with
    | nil => cases hc
    | cons first rest => exact (h c hc).trans (h first (List.mem_cons_self ..)).symm
  have hsound : Sound ⟨columns, none, _, max defaultCapacity (columns.head?.elim 0 Column.size)⟩ := sound_flat heven
  refine ⟨_, ?_, hsound, rfl, rfl, fun hne => ?_⟩
  · unfold ofColumns
    simp only [(verify_eq_ok_iff _).mpr hsound]
    rfl
  · cases columns with
    | nil => exact absurd rfl hne
    | cons first rest => exact h first (List.mem_cons_self ..)

namespace SortColumn

/-- Every key has a value for every physical row. -/
theorem ofKeys_yields {chunk : Chunk} {keys : List SortKey} (hc : chunk.Sound) (hkeys : Sortable chunk.types keys) :
    Yields Failure.OfData (ofKeys chunk keys) fun columns => ∀ c ∈ columns, c.values.size = chunk.physicalRows := by
  have hevaluated : Yields Failure.OfData (keys.mapM fun k : SortKey => k.expr.evaluate chunk) fun columns =>
      List.Forall₂ (fun _ column => column.type ≠ .sqlNull ∧ column.size = chunk.physicalRows) keys columns := by
    refine Yields.mapM fun k hk => ?_
    obtain ⟨hplain, t, ht, hne⟩ := hkeys k hk
    exact (Expr.evaluate_yields hc hplain ht).mono fun column ⟨htype, hsize⟩ => ⟨htype ▸ hne, hsize⟩
  unfold ofKeys
  refine hevaluated.bind fun columns hcolumns => ?_
  have hmem (column : Column) (hcol : column ∈ columns) : column.type ≠ .sqlNull ∧ column.size = chunk.physicalRows := by
    obtain ⟨_, _, hcolumn⟩ := exists_of_mem_right hcolumns hcol
    exact hcolumn
  have hordered : ¬(columns.any fun c => c.type = .sqlNull) = true := by
    simpa using fun column hcol => (hmem column hcol).1
  rw [if_neg hordered]
  intro c hc
  obtain ⟨pair, hpair, rfl⟩ := List.mem_map.mp hc
  rw [List.size_toArray]
  exact (hmem pair.2 (List.of_mem_zip hpair).2).2

end SortColumn

namespace Rows

/-- Rows that the keys have values for are put in order. -/
theorem sort_ok {columns : List SortColumn} {rows : List Nat} (h : ∀ c ∈ columns, ∀ r ∈ rows, r < c.values.size) :
    ∃ sorted, sort columns rows = .ok sorted ∧ sorted.Perm rows := by
  have hin : ¬(2 ≤ rows.length ∧ (columns.any fun c => rows.any (c.values.size ≤ ·)) = true) := by
    rintro ⟨_, hany⟩
    obtain ⟨c, hc, hany⟩ := List.any_eq_true.mp hany
    obtain ⟨r, hr, hle⟩ := List.any_eq_true.mp hany
    exact absurd (h c hc r hr) (Nat.not_lt.mpr (of_decide_eq_true hle))
  exact ⟨_, if_neg hin, List.mergeSort_perm _ _⟩

/-- A chunk without selection is put in order by keys with a value for every physical row. -/
theorem gather_sorted {input : Chunk} (hc : input.Sound) (hflat : input.selection = none) {columns : List SortColumn}
    (hsizes : ∀ c ∈ columns, c.values.size = input.physicalRows) :
    ∃ ds, (do
      let rows ← sort columns (List.range input.count)
      input.columns.mapM fun (c : Column) => c.gather rows) = .ok ds := by
  have hin (r : Nat) (hr : r ∈ List.range input.count) : r < input.physicalRows := hc.flat hflat ▸ List.mem_range.mp hr
  obtain ⟨sorted, hsorted, hperm⟩ := sort_ok fun c hc r hr => hsizes c hc ▸ hin r hr
  have hgather (c : Column) (hmem : c ∈ input.columns) : ∃ gathered, c.gather sorted = .ok gathered :=
    Column.gather_of_lt fun r hr => hc.even c hmem ▸ hin r (hperm.mem_iff.mp hr)
  rw [hsorted, ok_bind]
  exact mapM_of_forall hgather

/-- Columns of one length are put in order. -/
theorem sortColumns_yields {keys : List SortKey} {columns : List Column} {n : Nat} (h : ∀ c ∈ columns, c.size = n)
    (hkeys : Sortable (columns.map Column.type) keys) :
    Yields Failure.OfData (sortColumns keys columns) fun _ => True := by
  unfold sortColumns
  refine .ite (fun _ => trivial) fun _ => ?_
  obtain ⟨input, hinput, hsound, hcolumns, hflat, _⟩ := Chunk.ofColumns_ok h
  have htypes : input.types = columns.map Column.type := by rw [Chunk.types, hcolumns]
  rw [hinput, lift_ok, ok_bind]
  refine (SortColumn.ofKeys_yields hsound (htypes ▸ hkeys)).bind fun sortColumns hsizes => ?_
  obtain ⟨ds, hds⟩ := gather_sorted hsound hflat hsizes
  exact .of_ok (hcolumns ▸ hds) trivial

end Rows
end QueryEngine
