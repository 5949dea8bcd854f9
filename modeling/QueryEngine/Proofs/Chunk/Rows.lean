import QueryEngine.Chunk.Basic
import QueryEngine.Proofs.Result
import QueryEngine.Proofs.Value.Datum

/-! The rows of a chunk.

`verify` accepts a chunk exactly when it is `Sound`: its columns are of one length,
and its active rows are as many as it counts and lie within the columns. What a
sound chunk says is the list of its rows. Flattening keeps it, a selection picks
from it and a slice is a piece of it, whatever rows the selection hides. -/
namespace QueryEngine

/-- A chunk without columns is as long as its selection needs. -/
theorem Selection.lt_last {s : Selection} {r : Nat} (hr : r ∈ s) : r < s.last?.elim 0 (· + 1) := by
  obtain ⟨m, hm⟩ : ∃ m, s.max? = some m := by
    cases hm : s.max? with
    | none => simp [List.max?_eq_none_iff.mp hm] at hr
    | some m => exact ⟨m, rfl⟩
  have := (List.max?_eq_some_iff.mp hm).2 r hr
  simp only [Selection.last?, hm, Option.elim]
  omega

namespace Chunk

/-- What stands in a physical row. -/
def row (c : Chunk) (r : Nat) : Row := c.columns.map fun column => column.datum r

/-- The active rows, in order. -/
def rows (c : Chunk) : List Row := c.activeRows.map c.row

structure Sound (c : Chunk) : Prop where
  even : ∀ column ∈ c.columns, column.size = c.physicalRows
  flat : c.selection = none → c.physicalRows = c.count
  selected : ∀ s, c.selection = some s → s.length = c.count ∧ ∀ r ∈ s, r < c.physicalRows

/-- No more rows than there is room for, read in the order in which they stand. -/
structure Tidy (capacity : Nat) (c : Chunk) : Prop where
  bounded : c.count ≤ max capacity 1
  increasing : c.activeRows.Pairwise (· < ·)

@[simp] theorem length_row (c : Chunk) (r : Nat) : (c.row r).length = c.columns.length := by simp [row]

theorem length_row_eq (c : Chunk) (r : Nat) : (c.row r).length = c.types.length := by
  rw [length_row, types, List.length_map]

theorem length_of_mem_rows {c : Chunk} {row : Row} (h : row ∈ c.rows) : row.length = c.types.length := by
  obtain ⟨r, _, rfl⟩ := List.mem_map.mp h
  exact c.length_row_eq r

theorem row_getElem? {c : Chunk} {i : Nat} {column : Column} (h : c.columns[i]? = some column) (r : Nat) :
    (c.row r)[i]? = some (column.datum r) := by
  simp [row, h]

/-! ### What is verified -/

theorem unevenColumn_eq_none_iff (rows i : Nat) (cs : List Column) :
    unevenColumn rows i cs = none ↔ ∀ c ∈ cs, c.size = rows := by
  induction cs generalizing i with
  | nil => simp [unevenColumn]
  | cons c cs ih =>
    rw [unevenColumn]
    by_cases h : c.size = rows
    · rw [if_pos h, ih]
      simp [h]
    · rw [if_neg h]
      simp [h]

theorem verify_eq_ok_iff (c : Chunk) : c.verify = .ok () ↔ c.Sound := by
  have hv : c.verify = .ok () ↔ c.disagreement = none := by
    unfold verify
    cases c.disagreement <;> simp
  rw [hv, disagreement, Option.or_eq_none_iff, unevenColumn_eq_none_iff]
  constructor
  · rintro ⟨heven, h⟩
    refine ⟨heven, fun hs => ?_, fun s hs => ?_⟩
    · rw [hs] at h
      cases hc : c.columns with
      | nil => rw [physicalRows, hc, hs]
      | cons column rest => simpa [hc] using h
    · rw [hs] at h
      by_cases hlen : s.length = c.count
      · by_cases hany : ∃ r ∈ s, c.physicalRows ≤ r
        · simp [hlen, hany] at h
        · exact ⟨hlen, by simpa using hany⟩
      · simp [hlen] at h
  · rintro ⟨heven, hflat, hselected⟩
    refine ⟨heven, ?_⟩
    cases hs : c.selection with
    | none => simp [hflat hs]
    | some s =>
      obtain ⟨hlen, hlt⟩ := hselected s hs
      simpa [hlen] using hlt

/-- Verification decides soundness. -/
instance (c : Chunk) : Decidable c.Sound :=
  match h : c.verify with
  | .ok () => .isTrue ((verify_eq_ok_iff c).mp h)
  | .error _ => .isFalse fun hc => by cases h.symm.trans ((verify_eq_ok_iff c).mpr hc)

namespace Sound
variable {c : Chunk}

theorem length_activeRows (h : c.Sound) : c.activeRows.length = c.count := by
  unfold activeRows
  cases hs : c.selection with
  | none => simp
  | some s => exact (h.selected s hs).1

theorem active_lt (h : c.Sound) {r : Nat} (hr : r ∈ c.activeRows) : r < c.physicalRows := by
  unfold activeRows at hr
  cases hs : c.selection with
  | none =>
    rw [hs] at hr
    rw [h.flat hs]
    simpa using hr
  | some s =>
    rw [hs] at hr
    exact (h.selected s hs).2 r hr

theorem length_rows (h : c.Sound) : c.rows.length = c.count := by rw [rows, List.length_map, h.length_activeRows]

theorem rows_eq_nil_iff (h : c.Sound) : c.rows = [] ↔ c.isEmpty = true := by
  rw [← List.length_eq_zero_iff, h.length_rows, isEmpty, decide_eq_true_iff]

theorem activeWithin (h : c.Sound) : c.activeWithin c.physicalRows = true := by
  unfold Chunk.activeWithin
  cases hs : c.selection with
  | none => simp [h.flat hs]
  | some s => simpa using (h.selected s hs).2

end Sound

/-- Every active position stands for a physical row. -/
theorem rowAt_of_lt {c : Chunk} (hc : c.Sound) {i : Nat} (hi : i < c.count) :
    ∃ r, c.rowAt i = .ok r ∧ c.activeRows[i]? = some r ∧ r < c.physicalRows := by
  obtain ⟨r, hr⟩ : ∃ r, c.activeRows[i]? = some r := ⟨_, List.getElem?_eq_getElem (hc.length_activeRows.symm ▸ hi)⟩
  refine ⟨r, ?_, hr, hc.active_lt (List.mem_of_getElem? hr)⟩
  unfold activeRows at hr
  unfold rowAt
  cases hs : c.selection with
  | none =>
    rw [hs, Option.getD_none, List.getElem?_range hi] at hr
    rw [← Option.some.inj hr]
  | some s =>
    rw [hs, Option.getD_some] at hr
    simp only [Selection.row, hr]

/-- A chunk without a selection is sound when its columns are as long as it counts. -/
theorem sound_flat {columns : List Column} {count capacity : Nat} (h : ∀ c ∈ columns, c.size = count) :
    Sound ⟨columns, none, count, capacity⟩ := by
  have hp : physicalRows ⟨columns, none, count, capacity⟩ = count := by
    cases columns with
    | nil => rfl
    | cons c rest => exact h c (List.mem_cons_self ..)
  exact ⟨fun c hc => (h c hc).trans hp.symm, fun _ => hp, fun _ hs => by cases hs⟩

theorem physicalRows_of_columns {c : Chunk} {column : Column} (hm : column ∈ c.columns)
    (h : ∀ d ∈ c.columns, d.size = column.size) : c.physicalRows = column.size := by
  unfold physicalRows
  cases hc : c.columns with
  | nil => simp [hc] at hm
  | cons first rest => exact h first (by simp [hc])

theorem Sound.physicalRows_select {c : Chunk} (h : c.Sound) {s : Selection} (hs : ∀ r ∈ s, r < c.physicalRows) :
    ∀ r ∈ s, r < (c.select s).physicalRows := by
  intro r hr
  unfold physicalRows select
  cases hc : c.columns with
  | nil => exact Selection.lt_last hr
  | cons first rest =>
    have := h.even first (by simp [hc])
    have := hs r hr
    simp only
    omega

/-- Picking some of the physical rows of a sound chunk. -/
theorem Sound.select {c : Chunk} (h : c.Sound) {s : Selection} (hs : ∀ r ∈ s, r < c.physicalRows) :
    (c.select s).Sound where
  even column hc := by
    have hc' : column ∈ c.columns := hc
    refine (physicalRows_of_columns hc ?_).symm
    intro d hd
    rw [h.even d hd, h.even column hc']
  flat hn := by cases hn
  selected t ht := by
    cases ht
    exact ⟨rfl, h.physicalRows_select hs⟩

@[simp] theorem rows_select (c : Chunk) (s : Selection) : (c.select s).rows = s.map c.row := rfl

/-! ### The same chunk with another capacity -/

theorem Sound.reference {d : Chunk} (h : d.Sound) (c : Chunk) : (c.reference d).Sound :=
  ⟨h.even, h.flat, h.selected⟩

@[simp] theorem rows_reference (c d : Chunk) : (c.reference d).rows = d.rows := rfl

theorem Tidy.reference {capacity : Nat} {d : Chunk} (h : d.Tidy capacity) (c : Chunk) :
    (c.reference d).Tidy capacity := ⟨h.bounded, h.increasing⟩

/-! ### Empty chunks -/

/-- A chunk made ready to be filled. -/
def blank (types : List SqlType) (capacity : Nat) : Chunk := fresh.prepare types capacity

@[simp] theorem capacity_blank (types : List SqlType) (capacity : Nat) :
    (blank types capacity).capacity = max capacity 1 := rfl

@[simp] theorem count_blank (types : List SqlType) (capacity : Nat) : (blank types capacity).count = 0 := rfl

@[simp] theorem types_blank (types : List SqlType) (capacity : Nat) : (blank types capacity).types = types := by
  simp [blank, prepare, Chunk.types, Function.comp_def, Column.empty]

@[simp] theorem length_columns_blank (types : List SqlType) (capacity : Nat) :
    (blank types capacity).columns.length = types.length := by
  simp [blank, prepare]

theorem sound_blank (types : List SqlType) (capacity : Nat) : (blank types capacity).Sound := by
  apply sound_flat
  intro c hc
  obtain ⟨t, _, rfl⟩ := List.mem_map.mp hc
  rfl

theorem tidy_blank (types : List SqlType) (capacity : Nat) : (blank types capacity).Tidy capacity :=
  ⟨Nat.zero_le _, List.Pairwise.nil⟩

theorem sound_reset (c : Chunk) : c.reset.Sound := sound_flat fun column hcol => by
  obtain ⟨t, _, rfl⟩ := List.mem_map.mp hcol
  rfl

theorem reset_eq_blank {c : Chunk} {types : List SqlType} {capacity : Nat} (ht : c.types = types)
    (hcap : c.capacity = max capacity 1) : c.reset = blank types capacity := by
  rw [reset, ht, hcap]
  rfl

/-! ### Columns beside those of another chunk -/

@[simp] theorem activeRows_setCountFrom (c d : Chunk) : (c.setCountFrom d).activeRows = d.activeRows := rfl

/-- Columns as long as those of a sound chunk, under its selection. -/
theorem Sound.setCountFrom {c d : Chunk} (hd : d.Sound) (hc : ∀ column ∈ c.columns, column.size = d.physicalRows) :
    (c.setCountFrom d).Sound := by
  cases hs : d.selection with
  | none =>
    have hflat : (c.setCountFrom d).selection = none := hs
    have hc' : ∀ column ∈ c.columns, column.size = d.count := fun column hcol => (hc column hcol).trans (hd.flat hs)
    have hsound : Sound ⟨c.columns, none, d.count, c.capacity⟩ := sound_flat hc'
    rwa [← hflat] at hsound
  | some s =>
    obtain ⟨hlen, hlt⟩ := hd.selected s hs
    cases hcols : c.columns with
    | nil =>
      refine ⟨fun column hcol => ?_, fun hn => ?_, fun t ht => ?_⟩
      · have : column ∈ c.columns := hcol
        rw [hcols] at this
        cases this
      · cases hs.symm.trans hn
      · cases hs.symm.trans ht
        refine ⟨hlen, fun r hr => ?_⟩
        simp only [physicalRows, Chunk.setCountFrom, hcols, hs]
        exact Selection.lt_last hr
    | cons first rest =>
      have hphysical : (c.setCountFrom d).physicalRows = d.physicalRows := by
        simp only [physicalRows, Chunk.setCountFrom, hcols]
        exact hc first (by rw [hcols]; exact List.mem_cons_self ..)
      refine ⟨fun column hcol => (hc column hcol).trans hphysical.symm, fun hn => ?_, fun t ht => ?_⟩
      · cases hs.symm.trans hn
      · cases hs.symm.trans ht
        exact ⟨hlen, fun r hr => hphysical ▸ hlt r hr⟩

end Chunk
end QueryEngine
