import QueryEngine.Proofs.Group.Computed

/-! What the rows of groups show.

The row of a group shows the key of the group's first row, and behind it what the calls come
to. All rows of a group have one key as keys are compared, and no two groups have the same
(`nodup_commonKey`), so a group can be found by the key that its row shows (`nodup_keyShown`). -/
namespace QueryEngine

namespace Group
variable {keys : List Expr} {rows group : List Row}

/-- The key that a row of the groups shows, as keys are compared. -/
def keyShown (width : Nat) (shown : Row) : Key := Key.canonical ((shown.take width).map Datum.value)

/-- The key of a group, as keys are compared: that of its first row. -/
def commonKey (keys : List Expr) (group : List Row) : Key := Key.canonical (group.head?.elim [] (keyOn keys))

/-- The rows of one key are a group, and there are no others. -/
theorem mem_split_iff (hrows : rows ≠ []) : group ∈ split keys rows ↔
    ∃ row ∈ rows, group = KeyMap.itemsOf (keyOn keys) rows (keyOn keys row).canonical := by
  rw [split_eq (.inr hrows), List.mem_map]
  refine ⟨fun ⟨k, hk, hgroup⟩ => ?_, fun ⟨row, hrow, hgroup⟩ => ?_⟩
  · obtain ⟨row, hrow, rfl⟩ := List.mem_map.mp (List.mem_eraseDups.mp hk)
    exact ⟨row, hrow, hgroup.symm⟩
  · exact ⟨_, List.mem_eraseDups.mpr (List.mem_map_of_mem hrow), hgroup.symm⟩

theorem commonKey_itemsOf {row : Row} (hrow : row ∈ rows) :
    commonKey keys (KeyMap.itemsOf (keyOn keys) rows (keyOn keys row).canonical) = (keyOn keys row).canonical := by
  have hmem : row ∈ KeyMap.itemsOf (keyOn keys) rows (keyOn keys row).canonical :=
    List.mem_filter.mpr ⟨hrow, decide_eq_true rfl⟩
  obtain ⟨first, rest, hitems⟩ := List.exists_cons_of_ne_nil (List.ne_nil_of_mem hmem)
  have hfirst : first ∈ KeyMap.itemsOf (keyOn keys) rows (keyOn keys row).canonical := hitems ▸ List.mem_cons_self ..
  rw [commonKey, hitems]
  exact of_decide_eq_true (List.mem_filter.mp hfirst).2

/-- No two groups have the same key. -/
theorem nodup_commonKey (keys : List Expr) (rows : List Row) : ((split keys rows).map (commonKey keys)).Nodup := by
  by_cases h : keys ≠ [] ∨ rows ≠ []
  · have hkeys : (split keys rows).map (commonKey keys) = (rows.map fun row => (keyOn keys row).canonical).eraseDups := by
      rw [split_eq h, List.map_map]
      conv_rhs => rw [← List.map_id (List.eraseDups _)]
      refine List.map_congr_left fun k hk => ?_
      obtain ⟨row, hrow, rfl⟩ := List.mem_map.mp (List.mem_eraseDups.mp hk)
      exact commonKey_itemsOf hrow
    exact hkeys ▸ nodup_eraseDups _
  · obtain ⟨rfl, rfl⟩ : keys = [] ∧ rows = [] := by simpa [not_or] using h
    exact List.nodup_singleton _

/-- All rows of a group have its key. -/
theorem commonKey_of_mem {row : Row} (hgroup : group ∈ split keys rows) (hrow : row ∈ group) :
    (keyOn keys row).canonical = commonKey keys group := by
  have hrows : rows ≠ [] := List.ne_nil_of_mem ((mem_split hgroup).2 row hrow)
  obtain ⟨first, hfirst, rfl⟩ := (mem_split_iff hrows).mp hgroup
  rw [commonKey_itemsOf hfirst]
  exact of_decide_eq_true (List.mem_filter.mp hrow).2

/-! ### Rows of groups -/

theorem length_front (hsome : keys = [] ∨ group ≠ []) :
    (group.head?.elim [] fun first => keys.map fun e => e.valueOn first : Row).length = keys.length := by
  cases group with
  | nil =>
    rw [hsome.resolve_right fun hne => hne rfl]
    rfl
  | cons first rest => exact List.length_map _

theorem keyShown_front (hsome : keys = [] ∨ group ≠ []) (results : Row) :
    keyShown keys.length ((group.head?.elim [] fun first => keys.map fun e => e.valueOn first) ++ results) =
      commonKey keys group := by
  rw [keyShown, List.take_left' (length_front hsome)]
  cases group with
  | nil => rfl
  | cons first rest =>
    show Key.canonical ((keys.map fun e => e.valueOn first).map Datum.value) = _
    rw [List.map_map]
    rfl

/-- The row of a group shows the group's key, and behind it what the calls come to. -/
theorem RowOf.shown {calls : List AggregateCall} {shown : Row} (h : RowOf keys calls group shown)
    (hsome : keys = [] ∨ group ≠ []) :
    keyShown keys.length shown = commonKey keys group ∧
      ∃ accumulators, calls.mapM (fun c => c.folded group) = .ok accumulators ∧
        shown.drop keys.length = (calls.zip accumulators).map fun p => ⟨p.1.type, p.2.value⟩ := by
  obtain ⟨accumulators, hfolded, rfl⟩ := h
  exact ⟨keyShown_front hsome _, accumulators, hfolded, List.drop_left' (length_front hsome)⟩

/-- No two rows of the groups show the same key. -/
theorem nodup_keyShown {calls : List AggregateCall} {grouped : List Row}
    (h : List.Forall₂ (RowOf keys calls) (split keys rows) grouped) : (grouped.map (keyShown keys.length)).Nodup := by
  have hkeys : grouped.map (keyShown keys.length) = (split keys rows).map (commonKey keys) := by
    have hall : List.Forall₂ (fun group shown => keyShown keys.length shown = commonKey keys group) (split keys rows) grouped :=
      (forall₂_mem h).imp fun group shown hrow => (hrow.2.shown (mem_split hrow.1).1).1
    clear h
    generalize split keys rows = groups at hall
    induction hall with
    | nil => rfl
    | cons hkey _ ih => rw [List.map_cons, List.map_cons, hkey, ih]
  exact hkeys ▸ nodup_commonKey keys rows

/-! ### One group in two rows -/

section
variable {width : Nat} {types : List SqlType} {row row' : Row}

/-- Two rows that show one group: they may have another member of the key's class, and all
else is the same. -/
structure SameGroup (width : Nat) (row row' : Row) : Prop where
  types : row.map Datum.type = row'.map Datum.type
  key : keyShown width row = keyShown width row'
  results : row.drop width = row'.drop width

/-- The same groups, in whatever order. -/
def SameGroups (width : Nat) (shown shown' : List Row) : Prop :=
  ∃ middle, List.Forall₂ (SameGroup width) shown middle ∧ middle.Perm shown'

theorem eq_of_types_of_values {row row' : Row} (ht : row.map Datum.type = row'.map Datum.type)
    (hv : row.map Datum.value = row'.map Datum.value) : row = row' := by
  have hsplit (row : Row) : row = (row.map Datum.type).zipWith Datum.mk (row.map Datum.value) := by
    induction row with
    | nil => rfl
    | cons d row ih => rw [List.map_cons, List.map_cons, List.zipWith_cons_cons, ← ih]
  rw [hsplit row, hsplit row', ht, hv]

theorem canonical_of_typed (h : Typed types row) (hnone : .double ∉ types) :
    Key.canonical (row.map Datum.value) = row.map Datum.value := by
  rw [Key.canonical, List.map_map]
  refine List.map_congr_left fun d hd => Scalar.canonical_of_fits (h.2 d hd) fun hdouble => hnone ?_
  rw [← h.1, ← hdouble]
  exact List.mem_map_of_mem hd

/-- Only of doubles is there more than one to a class. -/
theorem SameGroup.eq (h : SameGroup width row row') (hrow : Typed types (row.take width))
    (hrow' : Typed types (row'.take width)) (hnone : .double ∉ types) : row = row' := by
  have hkey := h.key
  rw [keyShown, keyShown, canonical_of_typed hrow hnone, canonical_of_typed hrow' hnone] at hkey
  rw [← List.take_append_drop width row, ← List.take_append_drop width row', h.results,
    eq_of_types_of_values (hrow.1.trans hrow'.1.symm) hkey]

end

end Group
end QueryEngine
