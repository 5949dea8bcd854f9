import QueryEngine.Value.Column

/-! Rows: what a reader takes from columns.

A row is a value for each column, with the column's type. A column is known when
its type and its data are (`ext_data`), so the lemmas here say of every operation on
columns what its slots are; nothing after them looks inside. -/
namespace QueryEngine

/-- A value with the type of the column it stands in. -/
structure Datum where
  type : SqlType
  value : Scalar
  deriving DecidableEq

abbrev Row := List Datum

instance : Inhabited Datum := ⟨⟨.sqlNull, .null⟩⟩

namespace Datum

def null (t : SqlType) : Datum := ⟨t, .null⟩

def ofSlot {t : SqlType} (s : Slot t) : Datum := ⟨t, s.val⟩

def ofBoolean : Option Bool → Datum
  | some b => ⟨.boolean, .boolean b⟩
  | none => null .boolean

end Datum

/-! ### Slots that are written one after another -/

section
variable {α β : Type}

theorem size_writes (place : β → Nat) (value : β → α) (writes : List β) (slots : Array α) :
    (writes.foldl (fun slots w => slots.setIfInBounds (place w) (value w)) slots).size = slots.size := by
  induction writes generalizing slots with
  | nil => rfl
  | cons w writes ih => rw [List.foldl_cons, ih, Array.size_setIfInBounds]

/-- The order of writes does not matter where a place has one value. -/
theorem getElem?_writes (value : Nat → α) (places : List Nat) {slots : Array α} {i : Nat} (h : i < slots.size) :
    (places.foldl (fun slots p => slots.setIfInBounds p (value p)) slots)[i]? =
      some (if i ∈ places then value i else slots[i]) := by
  induction places generalizing slots with
  | nil => simp [h]
  | cons p places ih =>
    rw [List.foldl_cons, ih (by simpa using h), Array.getElem_setIfInBounds h]
    by_cases hp : p = i
    · simp [hp]
    · simp [hp, Ne.symm hp]

end

namespace Column

/-- The value in a row; NULL where there is no such row. -/
def datum (c : Column) (row : Nat) : Datum := ⟨c.type, c.slots[row]?.getD .null⟩

@[simp] theorem datum_type (c : Column) (row : Nat) : (c.datum row).type = c.type := rfl

theorem ext_slots {c d : Column} (ht : c.type = d.type) (hs : c.slots = d.slots) : c = d := by
  cases c
  cases d
  subst ht hs
  rfl

theorem datum_of_size_le {c : Column} {row : Nat} (h : c.size ≤ row) : c.datum row = .null c.type := by
  simp [datum, Datum.null, List.getElem?_eq_none (show c.slots.length ≤ row from h)]

/-- All values, with their type. -/
def data (c : Column) : List Datum := c.slots.map fun v => ⟨c.type, v⟩

@[simp] theorem length_data (c : Column) : c.data.length = c.size := List.length_map _

theorem data_eq_map (c : Column) : c.data = (List.range c.size).map c.datum := by
  apply List.ext_getElem
  · simp
  · intro i hi _
    rw [length_data] at hi
    have hlt : i < c.slots.length := hi
    simp [data, datum, List.getElem?_eq_getElem hlt]

theorem ext_data {c d : Column} (ht : c.type = d.type) (h : c.data = d.data) : c = d := by
  apply ext_slots ht
  have hv := congrArg (List.map Datum.value) h
  simpa [data, Function.comp_def] using hv

theorem data_getElem? {c : Column} {row : Nat} (h : row < c.size) : c.data[row]? = some (c.datum row) := by
  rw [data_eq_map, List.getElem?_map, List.getElem?_range h]
  rfl

/-! ### Made from slots -/

@[simp] theorem type_ofSlots (t : SqlType) (slots : List (Slot t)) : (ofSlots t slots).type = t := rfl

@[simp] theorem size_ofSlots (t : SqlType) (slots : List (Slot t)) :
    (ofSlots t slots).size = slots.length :=
  List.length_map _

theorem datum_ofSlots {t : SqlType} {slots : List (Slot t)} {row : Nat} {s : Slot t}
    (h : slots[row]? = some s) : (ofSlots t slots).datum row = .ofSlot s := by
  have hs : (ofSlots t slots).slots[row]? = some s.val := by
    show (List.map Subtype.val slots)[row]? = some s.val
    exact (List.getElem?_map ..).trans (congrArg (Option.map Subtype.val) h)
  simp [datum, hs, Datum.ofSlot]

@[simp] theorem type_fill {t : SqlType} (n : Nat) (v : Slot t) : (fill n v).type = t := rfl

@[simp] theorem size_fill {t : SqlType} (n : Nat) (v : Slot t) : (fill n v).size = n := by
  simp [fill]

theorem datum_fill {t : SqlType} {n row : Nat} (v : Slot t) (h : row < n) :
    (fill n v).datum row = .ofSlot v := by
  apply datum_ofSlots
  simp [h]

theorem get_fill {t : SqlType} {n row : Nat} (v : Slot t) (h : row < n) : (fill n v).get row = .ok v.val := by
  have hslot : (fill n v).slots[row]? = some v.val :=
    (List.getElem?_map ..).trans (congrArg (Option.map Subtype.val) (List.getElem?_replicate_of_lt h))
  rw [get, hslot]

@[simp] theorem type_nulls (t : SqlType) (n : Nat) : (nulls t n).type = t := rfl

@[simp] theorem size_nulls (t : SqlType) (n : Nat) : (nulls t n).size = n := size_fill n _

@[simp] theorem datum_nulls (t : SqlType) (n row : Nat) : (nulls t n).datum row = .null t := by
  by_cases h : row < n
  · rw [nulls, datum_fill _ h]
    rfl
  · rw [datum_of_size_le (by simpa using h)]
    rfl

@[simp] theorem type_ofBooleans (slots : List (Option Bool)) : (ofBooleans slots).type = .boolean := rfl

@[simp] theorem size_ofBooleans (slots : List (Option Bool)) : (ofBooleans slots).size = slots.length := by
  simp [ofBooleans]

theorem datum_ofBooleans {slots : List (Option Bool)} {row : Nat} {b : Option Bool}
    (h : slots[row]? = some b) : (ofBooleans slots).datum row = .ofBoolean b := by
  cases b with
  | none => exact datum_ofSlots ((List.getElem?_map ..).trans (congrArg (Option.map _) h))
  | some b => exact datum_ofSlots ((List.getElem?_map ..).trans (congrArg (Option.map _) h))

/-! ### Rearranged -/

theorem gather_ok {c g : Column} {rows : List Nat} (h : c.gather rows = .ok g) :
    g.type = c.type ∧ g.slots = rows.map fun r => (c.datum r).value := by
  unfold gather at h
  split at h
  · cases h
    refine ⟨rfl, List.map_congr_left fun r _ => ?_⟩
    simp [datum]
  · cases h

theorem data_gather {c g : Column} {rows : List Nat} (h : c.gather rows = .ok g) : g.data = rows.map c.datum := by
  obtain ⟨ht, hs⟩ := gather_ok h
  rw [data, ht, hs, List.map_map]
  rfl

theorem gather_of_lt {c : Column} {rows : List Nat} (h : ∀ r ∈ rows, r < c.size) :
    ∃ g, c.gather rows = .ok g := by
  have : c.covers rows = true := by simpa [covers] using Or.inr h
  unfold gather
  rw [if_pos this]
  exact ⟨_, rfl⟩

theorem datum_gather {c g : Column} {rows : List Nat} (h : c.gather rows = .ok g) {i r : Nat}
    (hr : rows[i]? = some r) : g.datum i = c.datum r := by
  obtain ⟨ht, hs⟩ := gather_ok h
  simp [datum, ht, hs, hr]

theorem size_gather {c g : Column} {rows : List Nat} (h : c.gather rows = .ok g) : g.size = rows.length := by
  simp [size, (gather_ok h).2]

theorem gatherPadded_ok {c g : Column} {rows : List (Option Nat)} (h : c.gatherPadded rows = .ok g) :
    g.type = c.type ∧ g.slots = rows.map fun r => r.elim .null fun r => (c.datum r).value := by
  unfold gatherPadded at h
  split at h
  · cases h
    refine ⟨rfl, List.map_congr_left fun r _ => ?_⟩
    cases r <;> simp [datum]
  · cases h

theorem gatherPadded_of_lt {c : Column} {rows : List (Option Nat)} (h : ∀ r, some r ∈ rows → r < c.size) :
    ∃ g, c.gatherPadded rows = .ok g := by
  have hcovers : c.covers (rows.filterMap id) = true := by
    simp only [covers, Bool.or_eq_true, List.all_eq_true, decide_eq_true_eq]
    exact .inr fun r hr => h r (by simpa using hr)
  unfold gatherPadded
  rw [if_pos hcovers]
  exact ⟨_, rfl⟩

theorem datum_gatherPadded {c g : Column} {rows : List (Option Nat)} (h : c.gatherPadded rows = .ok g)
    {i : Nat} {r : Option Nat} (hr : rows[i]? = some r) :
    g.datum i = r.elim (.null c.type) c.datum := by
  obtain ⟨ht, hs⟩ := gatherPadded_ok h
  cases r <;> simp [datum, Datum.null, ht, hs, hr]

theorem size_gatherPadded {c g : Column} {rows : List (Option Nat)} (h : c.gatherPadded rows = .ok g) :
    g.size = rows.length := by
  simp [size, (gatherPadded_ok h).2]

@[simp] theorem type_window (c : Column) (offset len : Nat) : (c.window offset len).type = c.type := rfl

theorem size_window (c : Column) (offset len : Nat) : (c.window offset len).size = min len (c.size - offset) := by
  simp [window, size]

theorem datum_window {c : Column} {offset len i : Nat} (h : i < len) :
    (c.window offset len).datum i = c.datum (offset + i) := by
  simp [datum, window, h]

theorem slice_ok {c d : Column} {offset len : Nat} (h : c.slice offset len = .ok d) :
    offset + len ≤ c.size ∧ d = c.window offset len := by
  unfold slice at h
  split at h
  · cases h
    exact ⟨‹_›, rfl⟩
  · cases h

theorem concat_ok {t : SqlType} {cs : List Column} {d : Column} (h : concat t cs = .ok d) :
    d.type = t ∧ d.slots = cs.flatMap slots := by
  unfold concat at h
  split at h
  · cases h
    exact ⟨rfl, rfl⟩
  · cases h

theorem ofScalars_ok {t : SqlType} {vs : List Scalar} {d : Column} (h : ofScalars t vs = .ok d) :
    d.type = t ∧ d.size = vs.length := by
  unfold ofScalars at h
  split at h
  · rename_i ht
    cases h
    exact ⟨by rw [ht]; rfl, size_nulls _ _⟩
  · split at h
    · cases h
      exact ⟨rfl, rfl⟩
    · cases h

theorem ofScalars_of_fits {t : SqlType} {vs : List Scalar} (h : ∀ v ∈ vs, v.Fits t) :
    ∃ c, ofScalars t vs = .ok c := by
  unfold ofScalars
  by_cases ht : t = .sqlNull
  · exact ⟨_, if_pos ht⟩
  · rw [if_neg ht, dif_pos h]
    exact ⟨_, rfl⟩

/-- Values that fit keep their places in a column. -/
theorem datum_ofScalars {t : SqlType} {vs : List Scalar} {d : Column} (h : ofScalars t vs = .ok d)
    (hfits : ∀ v ∈ vs, v.Fits t) (i : Nat) : d.datum i = ⟨t, vs[i]?.getD .null⟩ := by
  unfold ofScalars at h
  split at h
  · rename_i ht
    subst ht
    cases h
    have hnull : vs[i]?.getD .null = .null := by
      cases hv : vs[i]? with
      | none => rfl
      | some v => exact (Scalar.fits_sqlNull_iff v).mp (hfits v (List.mem_of_getElem? hv))
    rw [datum_nulls, hnull]
    rfl
  · cases h
    rfl

/-! ### Masked -/

theorem length_marks (n : Nat) (rows : List Nat) : (marks n rows).length = n := by
  simp [marks, size_writes]

theorem getElem?_marks {n row : Nat} (rows : List Nat) (h : row < n) :
    (marks n rows)[row]? = some (decide (row ∈ rows)) := by
  rw [marks, Array.getElem?_toList, getElem?_writes (fun _ => true) rows (by simpa using h)]
  by_cases hr : row ∈ rows <;> simp [hr]

theorem keepOnly_of_lt {c : Column} {rows : List Nat} (h : ∀ r ∈ rows, r < c.size) :
    ∃ m, c.keepOnly rows = .ok m := by
  unfold keepOnly
  rw [if_pos (by simpa using h)]
  exact ⟨_, rfl⟩

theorem keepOnly_ok {c m : Column} {rows : List Nat} (h : c.keepOnly rows = .ok m) :
    m.type = c.type ∧ m.size = c.size ∧
      ∀ r < c.size, m.datum r = if r ∈ rows then c.datum r else .null c.type := by
  unfold keepOnly at h
  split at h
  · cases h
    refine ⟨rfl, by simp [size, length_marks], fun r hr => ?_⟩
    have hm := getElem?_marks rows hr
    have hs : c.slots[r]? = some c.slots[r] := List.getElem?_eq_getElem hr
    have hz : (c.slots.zip (marks c.size rows))[r]? = some (c.slots[r], decide (r ∈ rows)) :=
      List.getElem?_zip_eq_some.mpr ⟨hs, hm⟩
    by_cases hmem : r ∈ rows <;> simp [datum, Datum.null, hz, hs, hmem]
  · cases h

end Column
end QueryEngine
