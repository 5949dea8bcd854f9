import Mathlib.Data.List.Nodup
import QueryEngine.Proofs.Key.Grouped
import QueryEngine.Proofs.Table.Deleted

/-! What deletions by row ids come to, one after another.

A row that has been named is gone for good, and is counted once: by the first call that
names it, however often that call does. So the rows that are left and all counts add up to
the rows there were (`Table.Deletions.addsUp`). -/
namespace QueryEngine

namespace Mask
variable {m : Mask}

/-- The ids that name a live row, each of them once. -/
def liveIds (m : Mask) (ids : List Int64) : List Int64 :=
  ids.eraseDups.filter fun id => decide (0 ≤ id.toInt) && m.isLive id.toInt.toNat

theorem mem_liveIds {ids : List Int64} {id : Int64} :
    id ∈ m.liveIds ids ↔ id ∈ ids ∧ 0 ≤ id.toInt ∧ m.isLive id.toInt.toNat = true := by
  rw [liveIds, List.mem_filter, List.mem_eraseDups, Bool.and_eq_true, decide_eq_true_iff]

theorem lt_of_isLive {i : Nat} (h : m.isLive i = true) : i < m.length := by
  have hget : m[i]? = some false := by simpa [isLive] using h
  exact (List.getElem?_eq_some_iff.mp hget).1

theorem namedBy_iff {ids : List Int64} {i : Nat} : namedBy ids i = true ↔ ∃ id ∈ ids, id.toInt = i := by
  simp [namedBy]

/-- There are as many as there are live rows that are named. -/
theorem length_liveIds (m : Mask) (ids : List Int64) :
    (m.liveIds ids).length = ((List.range m.length).filter fun i => m.isLive i && namedBy ids i).length := by
  have hinj : ∀ a ∈ m.liveIds ids, ∀ b ∈ m.liveIds ids, a.toInt.toNat = b.toInt.toNat → a = b := fun a ha b hb hab => by
    have hpos := (mem_liveIds.mp ha).2.1
    have hpos' := (mem_liveIds.mp hb).2.1
    exact Int64.toInt_inj.mp (by omega)
  have hnodup : ((m.liveIds ids).map fun id => id.toInt.toNat).Nodup :=
    List.Nodup.map_on hinj ((nodup_eraseDups ids).filter _)
  have hperm : ((m.liveIds ids).map fun id => id.toInt.toNat).Perm
      ((List.range m.length).filter fun i => m.isLive i && namedBy ids i) := by
    refine (List.perm_ext_iff_of_nodup hnodup (List.nodup_range.filter _)).mpr fun i => ?_
    rw [List.mem_map, List.mem_filter, List.mem_range, Bool.and_eq_true, namedBy_iff]
    constructor
    · rintro ⟨id, hid, rfl⟩
      obtain ⟨hmem, hpos, hlive⟩ := mem_liveIds.mp hid
      exact ⟨lt_of_isLive hlive, hlive, id, hmem, by omega⟩
    · rintro ⟨_, hlive, id, hmem, hid⟩
      have hrow : id.toInt.toNat = i := by omega
      exact ⟨id, mem_liveIds.mpr ⟨hmem, by omega, hrow ▸ hlive⟩, hrow⟩
  rw [← hperm.length_eq, List.length_map]

end Mask

/-- The rows of a table that a window shows. -/
def TableWindow.rows (w : TableWindow) (t : Table) (offset len : Nat) : List Nat :=
  let start := min offset t.rows
  (w.visible.getD (List.range (min (offset + len) t.rows - start))).map (start + ·)

namespace Table
variable {t : Table} {m m' m'' : Mask} {ids : List Int64} {calls more : List (List Int64)} {n : Nat} {counts fewer : List Nat}

/-- A window shows the live rows among those it covers. -/
theorem mem_rows_window {cols : List Nat} {offset len row : Nat} {w : TableWindow} (hfit : m.length = t.rows)
    (h : t.window m cols offset len = .ok w) :
    row ∈ w.rows t offset len ↔ offset ≤ row ∧ row < offset + len ∧ m.isLive row = true := by
  obtain ⟨columns, _, hw⟩ := bind_eq_ok.mp h
  cases hw
  have hlive := @Mask.visible_eq_live m (min offset t.rows) (min (offset + len) t.rows - min offset t.rows) (by omega)
  rw [TableWindow.rows, hlive, Mask.liveRows, List.mem_filter, List.mem_range'_1]
  constructor
  · rintro ⟨hrange, hrow⟩
    exact ⟨by omega, by omega, hrow⟩
  · rintro ⟨hle, hlt, hrow⟩
    have hlt' := Mask.lt_of_isLive hrow
    exact ⟨by omega, hrow⟩

/-- A deletion counts the distinct ids of live rows. -/
theorem delete_count (h : t.delete m ids = (.ok n, m')) : n = (m.liveIds ids).length := by
  obtain ⟨-, -, hlive, hfewer⟩ := delete_ok h
  have hlen : m'.length = m.length := by
    have hkept := length_delete t ids m
    rwa [h] at hkept
  have hnamed := Mask.live_of_named hlen hlive
  rw [Mask.length_liveIds]
  omega

/-- Deletions one after another that all succeed, and their counts. -/
inductive Deletions (t : Table) : Mask → List (List Int64) → List Nat → Mask → Prop
  | none (m : Mask) : Deletions t m [] [] m
  | next {m m' m'' : Mask} {ids : List Int64} {calls : List (List Int64)} {n : Nat} {counts : List Nat}
    (hdelete : t.delete m ids = (.ok n, m')) (hrest : Deletions t m' calls counts m'') :
    Deletions t m (ids :: calls) (n :: counts) m''

namespace Deletions

theorem append (h : t.Deletions m calls counts m') (h' : t.Deletions m' more fewer m'') :
    t.Deletions m (calls ++ more) (counts ++ fewer) m'' := by
  induction h with
  | none m => exact h'
  | next hdelete _ ih => exact .next hdelete (ih h')

theorem length_eq (h : t.Deletions m calls counts m') : m'.length = m.length := by
  induction h with
  | none m => rfl
  | @next m _ _ ids _ _ _ hdelete _ ih =>
    have hkept := length_delete t ids m
    rw [hdelete] at hkept
    exact ih.trans hkept

/-- What is left are the live rows that no call has named. -/
theorem isLive (h : t.Deletions m calls counts m') (i : Nat) :
    m'.isLive i = (m.isLive i && !namedBy calls.flatten i) := by
  induction h with
  | none m => exact (Bool.and_true _).symm
  | next hdelete _ ih =>
    obtain ⟨-, -, hlive, -⟩ := delete_ok hdelete
    rw [ih, hlive i, List.flatten_cons, namedBy_append, Bool.not_or, Bool.and_assoc]

theorem live_add (h : t.Deletions m calls counts m') : m'.live + total counts = m.live := by
  induction h with
  | none m => rfl
  | next hdelete _ ih =>
    obtain ⟨-, -, -, hfewer⟩ := delete_ok hdelete
    rw [total_cons]
    omega

/-- One of the calls, with the mask that it has found. -/
theorem split {before after : List (List Int64)} (h : t.Deletions m (before ++ ids :: after) counts m') :
    ∃ found n left, t.Deletions m before (counts.take before.length) found ∧ counts[before.length]? = some n ∧
      t.delete found ids = (.ok n, left) := by
  induction before generalizing m counts with
  | nil =>
    cases h with
    | next hdelete _ => exact ⟨m, _, _, .none m, rfl, hdelete⟩
  | cons first before ih =>
    cases h with
    | next hdelete hrest =>
      obtain ⟨found, n, left, hbefore, hcount, hfound⟩ := ih hrest
      exact ⟨found, n, left, .next hdelete hbefore, hcount, hfound⟩

end Deletions

/-- What deletions from a table come to, of which no row had been deleted. -/
structure AddsUp (t : Table) (calls : List (List Int64)) (counts : List Nat) (m : Mask) : Prop where
  /-- There are as many rows, deleted or not. -/
  length : m.length = t.rows
  /-- Every window shows just the rows that no call has named. -/
  shown : ∀ cols offset len w, t.window m cols offset len = .ok w → ∀ row,
    row ∈ w.rows t offset len ↔ (offset ≤ row ∧ row < offset + len ∧ row < t.rows) ∧ namedBy calls.flatten row = false
  /-- A call counts the distinct rows that it names and that it has found live. -/
  counted : ∀ before ids after, calls = before ++ ids :: after → ∃ found,
    t.Deletions (Mask.allLive t.rows) before (counts.take before.length) found ∧
      counts[before.length]? = some (found.liveIds ids).length
  sum : m.live + total counts = t.rows

theorem Deletions.addsUp (h : t.Deletions (Mask.allLive t.rows) calls counts m) : t.AddsUp calls counts m where
  length := h.length_eq.trans List.length_replicate
  shown cols offset len w hw row := by
    have hall : (Mask.allLive t.rows).isLive row = decide (row < t.rows) := by
      simp [Mask.isLive, Mask.allLive, List.getElem?_replicate]
    rw [mem_rows_window (h.length_eq.trans List.length_replicate) hw, h.isLive, hall]
    simp [and_assoc]
  counted before ids after hcalls := by
    subst hcalls
    obtain ⟨found, n, left, hbefore, hcount, hdelete⟩ := h.split
    exact ⟨found, hbefore, by rw [hcount, delete_count hdelete]⟩
  sum := by
    rw [h.live_add, Mask.live, Mask.allLive, List.count_replicate_self]

end Table
end QueryEngine
