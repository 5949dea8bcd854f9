import QueryEngine.Join.Result
import QueryEngine.Proofs.Chunk.Filled

/-! Join results beside the left columns.

A flag tells of an active row what is known of it as a row (`flag`), so a row that is
selected twice has the same flag twice. -/
namespace QueryEngine.JoinResult

variable {c d : Chunk} {types : List SqlType} {capacity : Nat} {flag : Row → Bool}

theorem zip_flags (c : Chunk) (flag : Row → Bool) :
    c.activeRows.zip (c.rows.map flag) = c.activeRows.map fun r => (r, flag (c.row r)) := by
  rw [Chunk.rows, List.map_map, List.map_prod_left_eq_zip]
  rfl

theorem kept_eq (c : Chunk) (flag : Row → Bool) (anti : Bool) :
    (((c.activeRows.zip (c.rows.map flag)).filter fun row => row.2 ≠ anti).map Prod.fst) =
      c.activeRows.filter fun r => flag (c.row r) ≠ anti := by
  rw [zip_flags, List.filter_map, List.map_map]
  exact List.map_id _

/-- The left rows with a match, or those without. -/
theorem semiOrAnti_ok {anti : Bool} (hc : c.Sound) (ht : c.types = types)
    (h : semiOrAnti c (c.rows.map flag) anti (Chunk.blank types capacity) = .ok () d) :
    Chunk.Narrowed (fun row => flag row ≠ anti) ((Chunk.blank types capacity).reference c) d := by
  obtain ⟨_, s, hflags, hrest⟩ := run_bind_eq_ok.mp h
  obtain ⟨_, rfl⟩ := run_liftQuery_eq_ok.mp hflags
  obtain ⟨_, filled, hput, hselect⟩ := run_bind_eq_ok.mp hrest
  cases hselect
  obtain ⟨rfl, _⟩ := Filling.putAll_blank (by rw [← ht, Chunk.types, List.length_map]) hput
  have hselected : (c.select (c.activeRows.filter fun r => flag (c.row r) ≠ anti)).Sound :=
    hc.select fun r hr => hc.active_lt (List.mem_of_mem_filter hr)
  rw [kept_eq]
  refine ⟨hselected.reference (Chunk.blank types capacity), rfl, rfl, ?_, List.filter_sublist⟩
  show (c.activeRows.filter fun r => flag (c.row r) ≠ anti).map c.row = c.rows.filter _
  rw [Chunk.rows, List.filter_map]
  rfl

/-- The left rows, each followed by NULL in all right columns. -/
theorem padded_ok {rightTypes : List SqlType} (hc : c.Sound) (ht : c.types = types)
    (h : padded c rightTypes (Chunk.blank (types ++ rightTypes) capacity) = .ok () d) :
    Chunk.Mapped (types ++ rightTypes) (fun row => row ++ rightTypes.map Datum.null) c d := by
  have h' : (Filling.putAll 0 (c.columns ++ rightTypes.map fun t => Column.nulls t c.physicalRows) >>= fun _ =>
      modify fun result => result.setCountFrom c : Filling Unit) (Chunk.blank (types ++ rightTypes) capacity) =
        .ok () d := by
    rw [Filling.putAll_append, bind_assoc, Nat.zero_add]
    exact h
  obtain ⟨_, filled, hput, hrest⟩ := run_bind_eq_ok.mp h'
  cases hrest
  have hlen : (c.columns ++ rightTypes.map fun t => Column.nulls t c.physicalRows).length =
      (types ++ rightTypes).length := by
    rw [List.length_append, List.length_append, ← ht, Chunk.types, List.length_map, List.length_map]
  obtain ⟨rfl, htyped⟩ := Filling.putAll_blank hlen hput
  refine Chunk.mapped_setCountFrom capacity hc htyped (fun column hcol => ?_) fun r _ => ?_
  · rcases List.mem_append.mp hcol with hcol | hcol
    · exact hc.even column hcol
    · obtain ⟨t, _, rfl⟩ := List.mem_map.mp hcol
      exact Column.size_nulls _ _
  · rw [List.map_append, List.map_map]
    congr 1
    exact List.map_congr_left fun t _ => Column.datum_nulls _ _ _

/-! ### Marks -/

theorem length_marks (keys : List HostArray) (rightHasNull : Bool) (rows : Nat) (found : List (Nat × Bool)) :
    (marks keys rightHasNull rows found).length = rows := by
  simp [marks, size_writes]

theorem getElem?_marks (keys : List HostArray) (rightHasNull : Bool) (flag : Nat → Bool) {places : List Nat} {rows r : Nat}
    (hr : r ∈ places) (h : r < rows) :
    (marks keys rightHasNull rows (places.map fun r => (r, flag r)))[r]? = some (mark keys rightHasNull r (flag r)) := by
  rw [marks, List.foldl_map, Array.getElem?_toList,
    getElem?_writes (fun r => mark keys rightHasNull r (flag r)) places (by simpa using h), if_pos hr]

section
variable {keys : List HostArray} {rightHasNull : Bool} {found : List Bool}

/-- With a flag for every row and keys of the left side's length, marking puts columns in place. -/
theorem marked_eq_putAll (hc : c.Sound) (hfound : found.length = c.count) (hkeys : ∀ k ∈ keys, k.size = c.physicalRows) :
    marked keys c found rightHasNull =
      (Filling.putAll 0 (c.columns ++
          [Column.ofBooleans (marks keys rightHasNull c.physicalRows (c.activeRows.zip found))]) >>= fun _ =>
        modify fun result => result.setCountFrom c : Filling Unit) := by
  have hflags : checkFlags c found = .ok () := if_pos hfound
  have hnone : (keys.find? fun k => k.size ≠ c.physicalRows) = none :=
    List.find?_eq_none.mpr fun k hk => by simpa using hkeys k hk
  rw [Filling.putAll_append, bind_assoc, Nat.zero_add, ← Filling.put_eq_putAll]
  unfold marked
  simp only [hflags, hnone, hc.activeWithin, Bool.not_true, Bool.false_eq_true, if_false]
  rfl

/-- It is refused otherwise. -/
theorem marked_inputs {e : Chunk} (h : marked keys c found rightHasNull e = .ok () d) :
    found.length = c.count ∧ ∀ k ∈ keys, k.size = c.physicalRows := by
  obtain ⟨_, s, hflags, hrest⟩ := run_bind_eq_ok.mp h
  obtain ⟨hflags, rfl⟩ := run_liftQuery_eq_ok.mp hflags
  constructor
  · unfold checkFlags at hflags
    split at hflags
    · assumption
    · cases hflags
  · cases hfind : keys.find? fun k => k.size ≠ c.physicalRows with
    | some k =>
      simp only [hfind] at hrest
      cases hrest
    | none => simpa using hfind

/-- The left columns and the marks, under the left selection. -/
theorem marked_eq_ok (hc : c.Sound) (ht : c.types = types)
    (h : marked keys c found rightHasNull (Chunk.blank (types ++ [.boolean]) capacity) = .ok () d) :
    d = Chunk.setCountFrom ⟨c.columns ++
        [Column.ofBooleans (marks keys rightHasNull c.physicalRows (c.activeRows.zip found))], none, 0, max capacity 1⟩ c ∧
      d.types = types ++ [.boolean] := by
  obtain ⟨hfound, hkeys⟩ := marked_inputs h
  rw [marked_eq_putAll hc hfound hkeys] at h
  obtain ⟨_, filled, hput, hrest⟩ := run_bind_eq_ok.mp h
  cases hrest
  obtain ⟨rfl, htyped⟩ := Filling.putAll_blank (by simp [← ht, Chunk.types]) hput
  exact ⟨rfl, htyped⟩

theorem size_marked (hc : c.Sound) (found : List (Nat × Bool)) :
    ∀ column ∈ c.columns ++ [Column.ofBooleans (marks keys rightHasNull c.physicalRows found)],
      column.size = c.physicalRows := by
  intro column hcol
  rcases List.mem_append.mp hcol with hcol | hcol
  · exact hc.even column hcol
  · rw [List.mem_singleton.mp hcol, Column.size_ofBooleans]
    exact length_marks _ _ _ _

/-- The left rows, each followed by its mark. -/
theorem marked_ok {truth : Row → Option Bool} (hc : c.Sound) (ht : c.types = types)
    (htruth : ∀ r ∈ c.activeRows, mark keys rightHasNull r (flag (c.row r)) = truth (c.row r))
    (h : marked keys c (c.rows.map flag) rightHasNull (Chunk.blank (types ++ [.boolean]) capacity) = .ok () d) :
    Chunk.Mapped (types ++ [.boolean]) (fun row => row ++ [Datum.ofBoolean (truth row)]) c d := by
  obtain ⟨rfl, htyped⟩ := marked_eq_ok hc ht h
  refine Chunk.mapped_setCountFrom capacity hc htyped (size_marked hc _) fun r hr => ?_
  have hmark := getElem?_marks keys rightHasNull (fun r => flag (c.row r)) hr (hc.active_lt hr)
  rw [← zip_flags] at hmark
  rw [List.map_append, ← htruth r hr]
  congr 1
  rw [List.map_singleton, Column.datum_ofBooleans hmark]

end

end QueryEngine.JoinResult
