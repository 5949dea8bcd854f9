import QueryEngine.Chunk.Collection
import QueryEngine.Expr.Cast
import QueryEngine.Proofs.Chunk.Flat

/-! Rows kept as columns.

Columns list some rows when each has, in order, the rows' values in its place
(`Lists`). There is only one way to do so (`Lists.eq_ofRows`). A collection holds the
rows of the chunks that were appended to it, in their order, and materializing lists
them. -/
namespace QueryEngine

/-- The columns together are the rows. -/
structure Lists (cs : List Column) (types : List SqlType) (rows : List Row) : Prop where
  typed : cs.map Column.type = types
  width : ∀ row ∈ rows, row.length = types.length
  data : ∀ j c, cs[j]? = some c → c.data = rows.map fun row => row.getD j default

theorem Slot.ofScalar_val {t : SqlType} {v : Scalar} (h : v.Fits t) : (Slot.ofScalar t v).val = v := by
  have hs : Slot.ofScalar t v = ⟨v, h⟩ := dif_pos h
  exact congrArg Subtype.val hs

theorem Column.data_ofSlots {t : SqlType} (slots : List (Slot t)) : (ofSlots t slots).data = slots.map Datum.ofSlot :=
  List.map_map

/-- What a column shows has the column's type. -/
theorem Column.fits_of_mem_data {c : Column} {d : Datum} (h : d ∈ c.data) : d.type = c.type ∧ d.value.Fits c.type := by
  obtain ⟨v, hv, rfl⟩ := List.mem_map.mp h
  exact ⟨rfl, c.typed v hv⟩

theorem Column.value_fits (c : Column) (i : Nat) : (c.datum i).value.Fits c.type := by
  by_cases h : i < c.size
  · have hmem : c.datum i ∈ c.data := List.mem_of_getElem? (data_getElem? h)
    exact (fits_of_mem_data hmem).2
  · rw [datum_of_size_le (Nat.le_of_not_lt h)]
    exact Scalar.null_fits _

/-- A column of type NULL has no other value. -/
theorem Column.value_of_untyped {c : Column} (h : c.type = .sqlNull) (i : Nat) : (c.datum i).value = .null := by
  have hfits := c.value_fits i
  rw [h] at hfits
  rcases hfits with hnull | htype
  · exact hnull
  · cases hv : (c.datum i).value with
    | null => rfl
    | _ =>
      rw [hv] at htype
      cases htype

/-- A column of the given values; NULL for one that does not fit. -/
def Column.ofData (t : SqlType) (ds : List Datum) : Column := ofSlots t (ds.map fun d => Slot.ofScalar t d.value)

theorem Column.ofData_data (c : Column) : ofData c.type c.data = c := by
  refine ext_data rfl ?_
  rw [ofData, data_ofSlots, List.map_map]
  conv_rhs => rw [← List.map_id c.data]
  refine List.map_congr_left fun d hd => ?_
  obtain ⟨htype, hfits⟩ := fits_of_mem_data hd
  show Datum.mk c.type (Slot.ofScalar c.type d.value).val = d
  rw [Slot.ofScalar_val hfits, ← htype]

/-- The columns that list some rows. -/
def Column.ofRows (types : List SqlType) (rows : List Row) : List Column :=
  types.mapIdx fun j t => .ofData t (rows.map fun row => row.getD j default)

/-- The first `n` rows of some columns. -/
def Column.toRows (cs : List Column) (n : Nat) : List Row := (List.range n).map fun i => cs.map fun c => c.datum i

@[simp] theorem Column.length_toRows (cs : List Column) (n : Nat) : (toRows cs n).length = n := by simp [toRows]

namespace Lists
variable {cs : List Column} {types : List SqlType} {rows : List Row}

theorem length (h : Lists cs types rows) : cs.length = types.length := by rw [← h.typed, List.length_map]

theorem size (h : Lists cs types rows) {c : Column} (hc : c ∈ cs) : c.size = rows.length := by
  obtain ⟨j, hj⟩ := List.mem_iff_getElem?.mp hc
  rw [← Column.length_data, h.data j c hj, List.length_map]

theorem row (h : Lists cs types rows) {i : Nat} {row : Row} (hi : rows[i]? = some row) :
    (cs.map fun c => c.datum i) = row := by
  have hlt : i < rows.length := (List.getElem?_eq_some_iff.mp hi).1
  have hw : row.length = cs.length := by rw [h.length, h.width row (List.mem_of_getElem? hi)]
  apply List.ext_getElem
  · rw [List.length_map, hw]
  · intro j hj hj'
    rw [List.length_map] at hj
    have hc : cs[j]? = some cs[j] := List.getElem?_eq_getElem hj
    have hsome : some (cs[j].datum i) = some row[j] := by
      rw [← Column.data_getElem? ((h.size (List.getElem_mem hj)).symm ▸ hlt), h.data j _ hc, List.getElem?_map, hi]
      simp [hj']
    rw [List.getElem_map]
    exact Option.some.inj hsome

theorem toRows_eq (h : Lists cs types rows) : Column.toRows cs rows.length = rows := by
  rw [Column.toRows]
  apply List.ext_getElem
  · simp
  · intro i hi hi'
    rw [List.getElem_map, List.getElem_range]
    exact h.row (List.getElem?_eq_getElem hi')

theorem eq_ofRows (h : Lists cs types rows) : cs = Column.ofRows types rows := by
  apply List.ext_getElem
  · simp [Column.ofRows, h.length]
  · intro j hj hj'
    have hc : cs[j]? = some cs[j] := List.getElem?_eq_getElem hj
    have hin : j < types.length := h.length ▸ hj
    have ht : types[j] = cs[j].type := by simp [← h.typed]
    simp only [Column.ofRows, List.getElem_mapIdx]
    rw [ht, ← h.data j _ hc, Column.ofData_data]

theorem of_rearranged {n : Nat} {source : Nat → Nat} {ds : List Column} (h : Rearranged n source cs ds) :
    Lists ds (cs.map Column.type) ((List.range n).map fun i => cs.map fun c => c.datum (source i)) where
  typed := h.types
  width row hrow := by
    obtain ⟨i, _, rfl⟩ := List.mem_map.mp hrow
    rw [List.length_map, List.length_map]
  data j d hj := by
    rw [Column.data_eq_map, h.size d (List.mem_of_getElem? hj), List.map_map]
    refine List.map_congr_left fun i hi => ?_
    have hrow := h.datum i (List.mem_range.mp hi)
    have hd : (ds.map fun d => d.datum i)[j]? = some (d.datum i) := by rw [List.getElem?_map, hj]; rfl
    rw [hrow] at hd
    simp only [Function.comp_apply, List.getD_eq_getElem?_getD, hd, Option.getD_some]

theorem of_sizes {n : Nat} (ht : cs.map Column.type = types) (hs : ∀ c ∈ cs, c.size = n) :
    Lists cs types (Column.toRows cs n) :=
  ht ▸ of_rearranged (Rearranged.self hs)

end Lists

namespace Chunk

theorem lists_of_flat {c : Chunk} (hc : c.Sound) (h : c.selection = none) : Lists c.columns c.types c.rows := by
  have hrows : c.rows = Column.toRows c.columns c.count := by
    rw [rows, activeRows, h]
    rfl
  rw [hrows]
  exact Lists.of_sizes rfl fun column hcol => (hc.even column hcol).trans (hc.flat h)

end Chunk

/-! ### Collections -/

namespace Collection

/-- The rows of a collection, without selections. -/
structure Holds (c : Collection) (types : List SqlType) (rows : List Row) : Prop where
  typed : c.types = types
  flat : ∀ chunk ∈ c.chunks, chunk.Sound ∧ chunk.selection = none ∧ chunk.types = types
  listed : c.chunks.flatMap Chunk.rows = rows
  counted : c.count = rows.length

theorem holds_ofTypes (types : List SqlType) : Holds (ofTypes types) types [] :=
  ⟨rfl, fun _ h => (by cases h), rfl, rfl⟩

theorem Holds.append {c d : Collection} {types : List SqlType} {rows : List Row} {chunk : Chunk} {bytes : Nat}
    (h : c.Holds types rows) (hc : chunk.Sound) (ht : chunk.types = types) (ha : c.append chunk = .ok (d, bytes)) :
    d.Holds types (rows ++ chunk.rows) := by
  unfold Collection.append at ha
  by_cases he : chunk.isEmpty = true
  · rw [if_pos he] at ha
    cases ha
    rw [hc.rows_eq_nil_iff.mpr he, List.append_nil]
    exact h
  · simp only [he, ht, h.typed, ite_self, ne_eq, not_true_eq_false, if_false, Bool.false_eq_true] at ha
    obtain ⟨flat, hflat, ha⟩ := bind_eq_ok.mp ha
    obtain ⟨n, hn, ha⟩ := bind_eq_ok.mp ha
    cases ha
    have hf := Chunk.flattens_of_flatten hc hflat
    refine ⟨rfl, fun one hone => ?_, ?_, ?_⟩
    · rcases List.mem_append.mp hone with hone | hone
      · exact h.flat one hone
      · rw [List.mem_singleton.mp hone]
        exact ⟨hf.sound, hf.flat, hf.types.trans ht⟩
    · rw [List.flatMap_append, h.listed, List.flatMap_singleton, hf.rows]
    · rw [Chunk.addCounts_ok hn, h.counted, List.length_append, hf.count, hc.length_rows]

theorem chunkColumn_ok {index : Nat} {chunk : Chunk} {column : Column} (h : chunkColumn index chunk = .ok column) :
    chunk.columns[index]? = some column := by
  unfold chunkColumn at h
  split at h
  · cases h
    assumption
  · cases h

theorem data_concat {t : SqlType} {parts : List Column} {d : Column} (h : Column.concat t parts = .ok d)
    (ht : ∀ c ∈ parts, c.type = t) : d.data = parts.flatMap Column.data := by
  obtain ⟨htype, hslots⟩ := Column.concat_ok h
  rw [Column.data, htype, hslots, List.map_flatMap]
  clear h hslots
  induction parts with
  | nil => rfl
  | cons c parts ih =>
    rw [List.flatMap_cons, List.flatMap_cons, ih fun c' hc' => ht c' (List.mem_cons_of_mem _ hc'), Column.data,
      ht c (List.mem_cons_self ..)]

/-- One column of all chunks. -/
theorem Holds.column {c : Collection} {types : List SqlType} {rows : List Row} (h : c.Holds types rows) {j : Nat}
    {t : SqlType} {parts : List Column} {d : Column} (hj : types[j]? = some t)
    (hparts : c.chunks.mapM (chunkColumn j) = .ok parts) (hd : Column.concat t parts = .ok d) :
    d.type = t ∧ d.data = rows.map fun row => row.getD j default := by
  refine ⟨(Column.concat_ok hd).1, ?_⟩
  have htypes (p : Column) (hp : p ∈ parts) : p.type = t := by
    obtain ⟨chunk, hchunk, hcol⟩ := mem_of_mapM hparts hp
    have hget : chunk.types[j]? = some p.type := by
      rw [Chunk.types, List.getElem?_map, chunkColumn_ok hcol]
      rfl
    rw [(h.flat chunk hchunk).2.2, hj] at hget
    exact (Option.some.inj hget).symm
  rw [data_concat hd htypes, ← h.listed, List.map_flatMap]
  have hall := mapM_eq_ok_iff.mp hparts
  have hflat := h.flat
  clear hparts hd htypes h
  generalize c.chunks = chunks at hall hflat
  induction hall with
  | nil => rfl
  | @cons chunk p chunks parts hcol _ ih =>
    obtain ⟨hs, hn, _⟩ := hflat chunk (List.mem_cons_self ..)
    rw [List.flatMap_cons, List.flatMap_cons, ih fun c' hc' => hflat c' (List.mem_cons_of_mem _ hc'),
      (Chunk.lists_of_flat hs hn).data j p (chunkColumn_ok hcol)]

theorem Holds.materialize {c : Collection} {types : List SqlType} {rows : List Row} (h : c.Holds types rows)
    {cs : List Column} (hm : c.materialize = .ok cs) : Lists cs types rows := by
  unfold Collection.materialize at hm
  rw [h.typed] at hm
  have hcol (j : Nat) (t : SqlType) (hj : types[j]? = some t) :
      ∃ d, cs[j]? = some d ∧ d.type = t ∧ d.data = rows.map fun row => row.getD j default := by
    have hz : types.zipIdx[j]? = some (t, j) := by simp [List.getElem?_zipIdx, hj]
    obtain ⟨d, hd, hf⟩ := mapM_ok_getElem? hm hz
    obtain ⟨parts, hparts, hd'⟩ := bind_eq_ok.mp hf
    exact ⟨d, hd, h.column hj hparts hd'⟩
  have hlen : cs.length = types.length := by rw [length_of_mapM hm, List.length_zipIdx]
  refine ⟨?_, ?_, fun j d hd => ?_⟩
  · apply List.ext_getElem?
    intro j
    cases hj : types[j]? with
    | none =>
      rw [List.getElem?_eq_none_iff] at hj
      exact List.getElem?_eq_none (by simp; omega)
    | some t =>
      obtain ⟨d, hd, ht, _⟩ := hcol j t hj
      rw [List.getElem?_map, hd, ← ht]
      rfl
  · intro row hrow
    rw [← h.listed] at hrow
    obtain ⟨chunk, hchunk, hrow⟩ := List.mem_flatMap.mp hrow
    obtain ⟨r, _, rfl⟩ := List.mem_map.mp hrow
    rw [Chunk.length_row, ← (h.flat chunk hchunk).2.2, Chunk.types, List.length_map]
  · have hj : j < types.length := hlen ▸ (List.getElem?_eq_some_iff.mp hd).1
    obtain ⟨d', hd', _, hdata⟩ := hcol j _ (List.getElem?_eq_getElem hj)
    cases hd'.symm.trans hd
    exact hdata

/-- A collection has the columns of its types. -/
theorem Holds.materialize_ok {c : Collection} {types : List SqlType} {rows : List Row}
    (h : c.Holds types rows) : ∃ cs, c.materialize = .ok cs ∧ Lists cs types rows := by
  have hcolumn {t : SqlType} {j : Nat} (hj : types[j]? = some t) (chunk : Chunk) (hchunk : chunk ∈ c.chunks) :
      ∃ column, chunkColumn j chunk = .ok column ∧ column.type = t := by
    have hget : chunk.types[j]? = some t := by rw [(h.flat chunk hchunk).2.2, hj]
    rw [Chunk.types, List.getElem?_map] at hget
    obtain ⟨column, hcol, ht⟩ := Option.map_eq_some_iff.mp hget
    exact ⟨column, by simp only [chunkColumn, hcol], ht⟩
  have hfields : ∃ cs, c.materialize = .ok cs := by
    unfold Collection.materialize
    rw [h.typed]
    refine mapM_of_forall fun field hfield => ?_
    obtain ⟨t, j⟩ := field
    have hj : types[j]? = some t := List.mk_mem_zipIdx_iff_getElem?.mp hfield
    obtain ⟨parts, hparts⟩ := mapM_of_forall (f := chunkColumn j) fun chunk hchunk =>
      (hcolumn hj chunk hchunk).imp fun _ hcol => hcol.1
    have htyped (part : Column) (hpart : part ∈ parts) : part.type = t := by
      obtain ⟨chunk, hchunk, hcol⟩ := mem_of_mapM hparts hpart
      obtain ⟨column, hcol', ht⟩ := hcolumn hj chunk hchunk
      cases hcol'.symm.trans hcol
      exact ht
    exact ⟨_, by rw [hparts, ok_bind, Column.concat, dif_pos htyped]⟩
  obtain ⟨cs, hcs⟩ := hfields
  exact ⟨cs, hcs, h.materialize hcs⟩

end Collection
end QueryEngine
