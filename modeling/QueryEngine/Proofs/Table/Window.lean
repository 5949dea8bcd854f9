import QueryEngine.Proofs.Table.Live

/-! Windows of a table.

A window is cut to the rows there are in two places, the columns and the mask, and slicing
either out of its bounds would crash. Taken with counts that stop at the greatest one and
slices that are checked, it is the same window (`Table.window_eq_sliced`): no offset and no
length is out of bounds. Its two ends say what it shows (`Table.window_exact`). -/
namespace QueryEngine

namespace Mask
variable {m : Mask} {start len : Nat}

/-- The entries at positions `start` up to but not including `stop`. -/
def slice (m : Mask) (start stop : Nat) : Except Failure Mask :=
  if start ≤ stop ∧ stop ≤ m.length then .ok ((m.drop start).take (stop - start)) else .error .crash

/-- Nothing is selected where nothing is deleted. -/
theorem visible_eq_none_iff (h : start + len ≤ m.length) :
    m.visible start len = none ↔ ∀ row, start ≤ row → row < start + len → m.isLive row = true := by
  have hwindow (i : Nat) : ((m.drop start).take len)[i]? = if i < len then m[start + i]? else none := by
    rw [List.getElem?_take, List.getElem?_drop]
  have hnone : m.visible start len = none ↔ true ∉ (m.drop start).take len := by
    unfold visible
    dsimp only
    rw [← List.contains_iff_mem]
    split
    · exact ⟨nofun, fun h => absurd ‹_› h⟩
    · exact ⟨fun _ => ‹_›, fun _ => rfl⟩
  rw [hnone, List.mem_iff_getElem?, not_exists]
  constructor
  · intro hlive row hle hlt
    have hrow := hlive (row - start)
    rw [hwindow, if_pos (by omega), Nat.add_sub_cancel' hle, List.getElem?_eq_getElem (by omega)] at hrow
    rw [isLive, List.getElem?_eq_getElem (by omega)]
    simpa using hrow
  · intro hlive i hi
    rw [hwindow] at hi
    split at hi
    · have hrow := hlive (start + i) (by omega) (by omega)
      rw [isLive, hi] at hrow
      cases hrow
    · cases hi

/-- What is selected are the positions of the live rows, in their order. -/
theorem visible_spec {s : Selection} (h : m.visible start len = some s) (hle : start + len ≤ m.length) :
    s.Pairwise (· < ·) ∧ ∀ i, i ∈ s ↔ i < len ∧ m.isLive (start + i) = true := by
  have hlive := visible_eq_live hle
  rw [h, Option.getD_some, liveRows] at hlive
  constructor
  · have hsorted : (s.map (start + ·)).Pairwise (· < ·) := hlive ▸ List.Pairwise.filter _ List.pairwise_lt_range'
    exact (List.pairwise_map.mp hsorted).imp fun hlt => Nat.lt_of_add_lt_add_left hlt
  · intro i
    have hmem : i ∈ s ↔ start + i ∈ s.map (start + ·) := by simp
    rw [hmem, hlive, List.mem_filter, List.mem_range'_1]
    exact and_congr_left fun _ => ⟨fun h => by omega, fun h => by omega⟩

end Mask

namespace Table
variable {t : Table} {mask : Mask} {ids : List Nat} {offset len : Nat}

/-- One column of a window. -/
def columnWindow (t : Table) (start len id : Nat) : Except QueryError Column :=
  match t.columns[id]? with
  | some c => .ok (c.window start len)
  | none => .error (.storage (.noColumn t.name id))

theorem window_eq (t : Table) (mask : Mask) (ids : List Nat) (offset len : Nat) :
    t.window mask ids offset len = (do
      let start := min offset t.rows
      let stop := min (offset + len) t.rows
      let columns ← ids.mapM (t.columnWindow start (stop - start))
      return ⟨columns, mask.visible start (stop - start)⟩) := rfl

theorem columnWindow_eq_ok_iff {start id : Nat} {c : Column} : t.columnWindow start len id = .ok c ↔
    ∃ full, t.columns[id]? = some full ∧ c = full.window start len := by
  unfold columnWindow
  cases t.columns[id]? with
  | none => simp
  | some full => simp [eq_comm]

theorem columnWindow_returns_iff {start id : Nat} : (∃ c, t.columnWindow start len id = .ok c) ↔ id < t.columns.length := by
  unfold columnWindow
  by_cases hid : id < t.columns.length <;> simp [hid]

theorem columnWindow_eq_error_iff {start id : Nat} {e : QueryError} : t.columnWindow start len id = .error e ↔
    t.columns.length ≤ id ∧ e = .storage (.noColumn t.name id) := by
  rw [← List.getElem?_eq_none_iff]
  unfold columnWindow
  cases t.columns[id]? with
  | none => simp [eq_comm]
  | some full => simp

/-! ### No window is out of bounds -/

/-- `window` by counts that stop at the greatest one and slices that are checked. -/
def windowSliced (t : Table) (mask : Mask) (ids : List Nat) (offset len : Nat) : Except Failure TableWindow := do
  let rows := mask.length
  let stop := min (min (offset + len) maxCount) rows
  let len := stop - offset
  let columns ← ids.mapM fun id =>
    match t.columns[id]? with
    | some c => c.slice (min offset rows) len
    | none => throw (.error (.storage (.noColumn t.name id)))
  let deleted ← mask.slice (min offset rows) stop
  return ⟨columns,
    if deleted.contains true then some ((deleted.zipIdx.filter fun row => !row.1).map Prod.snd) else none⟩

theorem window_eq_sliced (hmask : mask.length = t.rows) (hrows : t.rows ≤ maxCount) (ids : List Nat) (offset len : Nat) :
    t.windowSliced mask ids offset len = liftM (t.window mask ids offset len) := by
  have hstop : min (min (offset + len) maxCount) t.rows = min (offset + len) t.rows := by omega
  have hlen : min (offset + len) t.rows - offset = min (offset + len) t.rows - min offset t.rows := by omega
  rw [window_eq]
  unfold windowSliced
  dsimp only
  rw [hmask, hstop, hlen]
  have hle : min offset t.rows ≤ min (offset + len) t.rows := by omega
  have hin : min (offset + len) t.rows ≤ t.rows := Nat.min_le_right _ _
  generalize min offset t.rows = start at hle ⊢
  generalize min (offset + len) t.rows = stop at hle hin ⊢
  have hcolumn (id : Nat) : (match t.columns[id]? with
      | some c => c.slice start (stop - start)
      | none => throw (.error (.storage (.noColumn t.name id)))) =
    (liftM (t.columnWindow start (stop - start) id) : Except Failure Column) := by
    unfold columnWindow
    cases hc : t.columns[id]? with
    | none => rfl
    | some c =>
      have hsize := t.even c (List.mem_of_getElem? hc)
      exact if_pos (by omega)
  have hdeleted : mask.slice start stop = .ok ((mask.drop start).take (stop - start)) :=
    if_pos ⟨hle, hmask ▸ hin⟩
  simp only [hcolumn, mapM_liftQuery, hdeleted]
  cases ids.mapM (t.columnWindow start (stop - start)) with
  | ok columns => rfl
  | error e => rfl

/-! ### What a window shows -/

/-- A window fails on the first column that the table does not have. -/
theorem window_eq_error_iff {e : QueryError} : t.window mask ids offset len = .error e ↔
    ∃ before id after, ids = before ++ id :: after ∧ (∀ i ∈ before, i < t.columns.length) ∧ t.columns.length ≤ id ∧
      e = .storage (.noColumn t.name id) := by
  rw [window_eq, bind_eq_error]
  simp only [mapM_eq_error_iff, columnWindow_returns_iff, columnWindow_eq_error_iff]
  exact or_iff_left fun ⟨_, _, h⟩ => nomatch h

theorem window_returns_iff : (∃ w, t.window mask ids offset len = .ok w) ↔ ∀ id ∈ ids, id < t.columns.length := by
  constructor
  · rintro ⟨w, hw⟩ id hid
    rw [window_eq] at hw
    obtain ⟨columns, hcolumns, -⟩ := bind_eq_ok.mp hw
    obtain ⟨c, -, hc⟩ := exists_of_mem_left (mapM_eq_ok_iff.mp hcolumns) hid
    exact columnWindow_returns_iff.mp ⟨c, hc⟩
  · intro hids
    cases h : t.window mask ids offset len with
    | ok w => exact ⟨w, rfl⟩
    | error e =>
      obtain ⟨before, id, after, rfl, -, hid, -⟩ := window_eq_error_iff.mp h
      exact absurd (hids id (by simp)) (Nat.not_lt.mpr hid)

/-- What a window from row `start` up to but not including row `stop` shows. -/
structure Shows (t : Table) (mask : Mask) (ids : List Nat) (start stop : Nat) (w : TableWindow) : Prop where
  columns : List.Forall₂ (fun id c => ∃ full, t.columns[id]? = some full ∧ c.type = full.type ∧ c.size = stop - start ∧
    ∀ i < stop - start, c.slots[i]? = full.slots[start + i]?) ids w.columns
  /-- Nothing is selected if no row of the window is deleted. -/
  whole : w.visible = none ↔ ∀ row, start ≤ row → row < stop → mask.isLive row = true
  selected : ∀ s, w.visible = some s → s.Pairwise (· < ·) ∧ ∀ i, i ∈ s ↔ i < stop - start ∧ mask.isLive (start + i) = true

theorem window_shows {w : TableWindow} (hmask : mask.length = t.rows) (h : t.window mask ids offset len = .ok w) :
    t.Shows mask ids (min offset t.rows) (min (offset + len) t.rows) w := by
  rw [window_eq] at h
  obtain ⟨columns, hcolumns, h⟩ := bind_eq_ok.mp h
  cases h
  have hin : min offset t.rows + (min (offset + len) t.rows - min offset t.rows) ≤ mask.length := by omega
  refine ⟨(mapM_eq_ok_iff.mp hcolumns).imp fun id c hc => ?_, ?_, fun s hs => Mask.visible_spec hs hin⟩
  · obtain ⟨full, hfull, rfl⟩ := columnWindow_eq_ok_iff.mp hc
    have hsize := t.even full (List.mem_of_getElem? hfull)
    refine ⟨full, hfull, rfl, ?_, fun i hi => ?_⟩
    · rw [Column.size_window, hsize]
      omega
    · rw [Column.window, List.getElem?_take_of_lt hi, List.getElem?_drop]
  · rw [Mask.visible_eq_none_iff hin, Nat.add_sub_cancel' (by omega)]

/-- A window of a table: it is never out of bounds, it fails on a column that the table does
not have, and it shows the rows between its ends otherwise. -/
structure Windows (t : Table) (mask : Mask) (ids : List Nat) (offset len : Nat) : Prop where
  /-- No slice is out of bounds and no count overflows. -/
  sliced : t.windowSliced mask ids offset len = liftM (t.window mask ids offset len)
  returns : (∃ w, t.window mask ids offset len = .ok w) ↔ ∀ id ∈ ids, id < t.columns.length
  fails : ∀ e, t.window mask ids offset len = .error e ↔ ∃ before id after, ids = before ++ id :: after ∧
    (∀ i ∈ before, i < t.columns.length) ∧ t.columns.length ≤ id ∧ e = .storage (.noColumn t.name id)
  shows : ∀ w, t.window mask ids offset len = .ok w → t.Shows mask ids (min offset t.rows) (min (offset + len) t.rows) w

end Table
end QueryEngine
