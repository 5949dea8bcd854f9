import QueryEngine.Proofs.Result
import QueryEngine.Proofs.Value.Datum
import QueryEngine.Table.Provider

/-! The rows of a table that are not deleted.

A window shows the live rows among those it covers (`visible_eq_live`), so that windows
put one behind the other show the live rows of the table, wherever they are cut. -/
namespace QueryEngine

namespace Mask

/-- Whether a row is not deleted. -/
def isLive (m : Mask) (row : Nat) : Bool := m[row]? = some false

/-- The rows from `offset` on that are not deleted, of the next `len`. -/
def liveRows (m : Mask) (offset len : Nat) : List Nat := (List.range' offset len).filter m.isLive

theorem liveRows_add (m : Mask) (offset len more : Nat) :
    m.liveRows offset (len + more) = m.liveRows offset len ++ m.liveRows (offset + len) more := by
  rw [liveRows, ← List.range'_append_1, List.filter_append]
  rfl

theorem filter_zipIdx (window : List Bool) :
    ((window.zipIdx.filter fun row => !row.1).map Prod.snd) =
      (List.range window.length).filter fun i => window[i]? = some false := by
  have hzip : window.zipIdx = (List.range window.length).map fun i => (window.getD i false, i) := by
    apply List.ext_getElem
    · simp
    · intro i hi _
      rw [List.length_zipIdx] at hi
      simp [hi]
  rw [hzip, List.filter_map, List.map_map, show (Prod.snd ∘ fun i => (window.getD i false, i)) = id from rfl, List.map_id]
  refine List.filter_congr fun i hi => ?_
  have hlt := List.mem_range.mp hi
  simp [hlt]

/-- What is shown of a window is in order and within it. -/
theorem visible_some {m : Mask} {offset len : Nat} {rows : Selection} (h : m.visible offset len = some rows) :
    rows.Sublist (List.range len) := by
  unfold visible at h
  simp only at h
  split at h
  · rw [Option.some.injEq, filter_zipIdx] at h
    subst h
    refine (List.filter_sublist ..).trans (List.range_sublist.mpr ?_)
    rw [List.length_take]
    omega
  · cases h

theorem visible_eq_live {m : Mask} {offset len : Nat} (h : offset + len ≤ m.length) :
    ((m.visible offset len).getD (List.range len)).map (offset + ·) = m.liveRows offset len := by
  have hwindow (i : Nat) (hi : i < len) : ((m.drop offset).take len)[i]? = m[offset + i]? := by
    rw [List.getElem?_take_of_lt hi, List.getElem?_drop]
  have hlen : ((m.drop offset).take len).length = len := by
    rw [List.length_take, List.length_drop]
    omega
  have hrange : List.range' offset len = (List.range len).map (offset + ·) := List.range'_eq_map_range ..
  rw [liveRows, hrange, List.filter_map]
  congr 1
  unfold visible
  simp only
  split
  · rw [Option.getD_some, filter_zipIdx, hlen]
    refine List.filter_congr fun i hi => ?_
    rw [hwindow i (List.mem_range.mp hi)]
    rfl
  · rename_i hall
    rw [Option.getD_none]
    refine (List.filter_eq_self.mpr fun i hi => ?_).symm
    have hi := List.mem_range.mp hi
    have hget := hwindow i hi
    have hlt : offset + i < m.length := by omega
    rw [List.getElem?_eq_getElem hlt] at hget
    have hmem : m[offset + i] ∈ (m.drop offset).take len := List.mem_of_getElem? hget
    simp only [Function.comp_apply, isLive, List.getElem?_eq_getElem hlt, Option.some.injEq, decide_eq_true_eq]
    cases hv : m[offset + i] with
    | false => rfl
    | true =>
      rw [hv] at hmem
      exact absurd (List.contains_iff_mem.mpr hmem) hall

end Mask

namespace Provider

/-- What a reference reads in a row of a table. -/
def read (p : Provider) (row : Nat) : ColumnRef → Datum
  | .rowId => ⟨.bigInt, .bigInt (Int64.ofNat row)⟩
  | .column i => (p.table.columns[i]?.map fun c => c.datum row).getD default

/-- What a scan reads in a row of a table. -/
def rowOf (p : Provider) (refs : List ColumnRef) (row : Nat) : Row := refs.map (p.read row)

/-- The live rows from `offset` on, as a scan reads them. -/
def liveFrom (p : Provider) (mask : Mask) (refs : List ColumnRef) (offset : Nat) : List Row :=
  (mask.liveRows offset (p.table.rows - offset)).map (p.rowOf refs)

theorem liveFrom_of_le {p : Provider} {mask : Mask} {refs : List ColumnRef} {offset : Nat}
    (h : p.table.rows ≤ offset) : p.liveFrom mask refs offset = [] := by
  rw [liveFrom, Nat.sub_eq_zero_of_le h]
  rfl

theorem liveFrom_add (p : Provider) (mask : Mask) (refs : List ColumnRef) {offset len : Nat}
    (h : offset + len ≤ p.table.rows) :
    p.liveFrom mask refs offset =
      (mask.liveRows offset len).map (p.rowOf refs) ++ p.liveFrom mask refs (offset + len) := by
  rw [liveFrom, show p.table.rows - offset = len + (p.table.rows - (offset + len)) by omega, Mask.liveRows_add,
    List.map_append]
  rfl

theorem window_ok {p : Provider} {mask : Mask} {ids : List Nat} {offset len : Nat} {w : TableWindow}
    (h : p.window mask ids offset len = .ok w) (hlen : offset + len ≤ p.table.rows) :
    w.visible = mask.visible offset len ∧ ∃ columns : List Column,
      List.Forall₂ (fun id c => ∃ full, p.table.columns[id]? = some full ∧ c = full.window offset len) ids columns ∧
        w.columns = columns.take (columns.length - p.withheld) := by
  obtain ⟨full, hfull, h⟩ := bind_eq_ok.mp h
  cases h
  obtain ⟨columns, hcolumns, hfull⟩ := bind_eq_ok.mp hfull
  cases hfull
  rw [Nat.min_eq_left (show offset ≤ p.table.rows by omega), Nat.min_eq_left hlen, Nat.add_sub_cancel_left] at hcolumns ⊢
  refine ⟨rfl, columns, (mapM_eq_ok_iff.mp hcolumns).imp fun id c hc => ?_, rfl⟩
  split at hc
  · rename_i full hget
    cases hc
    exact ⟨full, hget, rfl⟩
  · cases hc

/-- The live rows are those a window shows, then those behind it. -/
theorem liveFrom_window {p : Provider} {mask : Mask} {ids : List Nat} {offset len : Nat} {w : TableWindow}
    (refs : List ColumnRef) (hfit : mask.length = p.table.rows) (hlen : offset + len ≤ p.table.rows)
    (h : p.window mask ids offset len = .ok w) :
    p.liveFrom mask refs offset =
      (w.visible.getD (List.range len)).map (fun i => p.rowOf refs (offset + i)) ++ p.liveFrom mask refs (offset + len) := by
  have hlive := @Mask.visible_eq_live mask offset len (by omega)
  rw [liveFrom_add p mask refs hlen, (window_ok h hlen).1, ← hlive, List.map_map]
  rfl

end Provider

/-- Deleting keeps a mask as long as it is, also when an id ends it. -/
theorem Table.length_delete (t : Table) (ids : List Int64) (mask : Mask) : (t.delete mask ids).2.length = mask.length := by
  induction ids generalizing mask with
  | nil => rfl
  | cons id ids ih =>
    rw [delete]
    split
    · rfl
    · exact (ih _).trans List.length_set

namespace Session
variable {s : Session} {p q : Provider}

/-- The mask of a table has an entry for each of its rows. -/
def Fits (s : Session) (p : Provider) : Prop := (s.mask p).length = p.table.rows

theorem fits_ofLimit? (limit : Option Nat) (p : Provider) : (ofLimit? limit).Fits p := List.length_replicate

theorem mask_setMask_self (h : p.id = q.id) (m : Mask) : (s.setMask q m).mask p = m := by
  rw [mask, setMask, h, List.lookup_cons_self, Option.getD_some]

theorem mask_setMask_of_ne (h : p.id ≠ q.id) (m : Mask) : (s.setMask q m).mask p = s.mask p := by
  have hkept (masks : List (Nat × Mask)) : (masks.filter fun entry => entry.1 ≠ q.id).lookup p.id = masks.lookup p.id := by
    induction masks with
    | nil => rfl
    | cons entry masks ih =>
      by_cases hentry : entry.1 = q.id
      · have hother : (p.id == entry.1) = false := beq_eq_false_iff_ne.mpr (hentry ▸ h)
        rw [List.filter_cons_of_neg (by simp [hentry]), ih, List.lookup_cons, hother]
      · rw [List.filter_cons_of_pos (by simp [hentry]), List.lookup_cons, List.lookup_cons, ih]
  have hother : (p.id == q.id) = false := beq_eq_false_iff_ne.mpr h
  rw [mask, setMask, List.lookup_cons, hother, hkept, mask]

/-- Masks fit after a deletion from any table. -/
theorem Fits.delete (hp : s.Fits p) (hq : s.Fits q) (hrows : p.id = q.id → p.table.rows = q.table.rows) (ids : List Int64) :
    (s.delete q ids).2.Fits p := by
  unfold Session.delete Fits
  by_cases h : p.id = q.id
  · rw [mask_setMask_self h, Table.length_delete, hrows h]
    exact hq
  · rw [mask_setMask_of_ne h]
    exact hp

end Session
end QueryEngine
