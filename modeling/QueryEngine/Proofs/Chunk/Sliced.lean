import QueryEngine.Proofs.Chunk.Collected

/-! Slices.

A chunk without a selection is known by its rows (`Chunk.ext_rows`), for there is one way
to keep rows as columns. So it makes no difference whether a slice cuts the columns or only
the selection: flattened, both are the chunk of the same rows. And a slice of a slice is one
slice, of a selected chunk because it cuts the selection twice, of a flat one because the
rows are the same (`slice_slice`). -/
namespace QueryEngine

namespace Chunk
variable {c d e : Chunk} {offset len : Nat}

/-- Chunks without selection that say the same are the same. -/
theorem ext_rows (hc : c.Sound) (hd : d.Sound) (hcflat : c.selection = none) (hdflat : d.selection = none)
    (htypes : c.types = d.types) (hcapacity : c.capacity = d.capacity) (hrows : c.rows = d.rows) : c = d := by
  have hcolumns : c.columns = d.columns := by
    rw [(lists_of_flat hc hcflat).eq_ofRows, (lists_of_flat hd hdflat).eq_ofRows, htypes, hrows]
  have hcount : c.count = d.count := by rw [← hc.length_rows, ← hd.length_rows, hrows]
  obtain ⟨columns, selection, count, capacity⟩ := c
  cases hcflat
  cases hcolumns
  cases hcount
  cases hcapacity
  cases d
  cases hdflat
  rfl

theorem capacity_flatten (h : c.flatten = .ok d) : d.capacity = c.capacity := by
  obtain ⟨columns, -, h⟩ := bind_eq_ok.mp h
  cases h
  rfl

/-- A slice of selected rows is cut from the selection, one of a flat chunk from its columns. -/
theorem slice_parts (h : c.slice offset len = .ok d) :
    d.capacity = c.capacity ∧ (c.selection = none → d.selection = none) ∧
      ∀ s, c.selection = some s → d = c.select ((s.drop offset).take len) := by
  obtain ⟨-, ⟨s, hs, rfl⟩ | ⟨hs, columns, -, rfl⟩⟩ := slice_cases h
  · refine ⟨rfl, fun hnone => (by cases hs.symm.trans hnone), fun s' hs' => ?_⟩
    cases hs.symm.trans hs'
    rfl
  · exact ⟨rfl, fun _ => rfl, fun s hs' => by cases hs.symm.trans hs'⟩

theorem take_drop_take_drop {α : Type} (rows : List α) {offset len o n : Nat} (h : o + n ≤ len) :
    ((((rows.drop offset).take len).drop o).take n) = (rows.drop (offset + o)).take n := by
  rw [List.drop_take, List.take_take, List.drop_drop, Nat.min_eq_left (by omega)]

/-- Flattened slices are slices of the flattened chunk. -/
theorem flatten_slice (hc : c.Sound) (hle : offset + len ≤ c.count) (hcount : c.count ≤ maxCount)
    (h : c.slice offset len = .ok d) :
    ∃ flat piece, c.flatten = .ok flat ∧ flat.slice offset len = .ok piece ∧ d.flatten = .ok piece := by
  obtain ⟨flat, hflat, hwhole⟩ := flatten_ok hc
  obtain ⟨piece, hpiece⟩ : ∃ piece, flat.slice offset len = .ok piece :=
    slice_of_le hwhole.sound (hwhole.count ▸ hle) (hwhole.count ▸ hcount)
  have hcut := (slice_ok hc h).2
  have hcut' := (slice_ok hwhole.sound hpiece).2
  obtain ⟨d', hd', hflattened⟩ := flatten_ok hcut.sound
  have hsame : d' = piece := by
    refine ext_rows hflattened.sound hcut'.sound hflattened.flat ((slice_parts hpiece).2.1 hwhole.flat) ?_ ?_ ?_
    · rw [hflattened.types, hcut.types, hcut'.types, hwhole.types]
    · rw [capacity_flatten hd', (slice_parts h).1, (slice_parts hpiece).1, capacity_flatten hflat]
    · rw [hflattened.rows, hcut.rows, hcut'.rows, hwhole.rows]
  exact ⟨flat, piece, hflat, hpiece, hsame ▸ hd'⟩

/-- A slice of a slice is one slice. -/
theorem slice_slice (hc : c.Sound) (hle : offset + len ≤ c.count) (hcount : c.count ≤ maxCount)
    (h : c.slice offset len = .ok d) {o n : Nat} (hn : o + n ≤ len) :
    ∃ e, d.slice o n = .ok e ∧ c.slice (offset + o) n = .ok e := by
  have hcut := (slice_ok hc h).2
  obtain ⟨e, he⟩ : ∃ e, d.slice o n = .ok e :=
    slice_of_le hcut.sound (hcut.count ▸ hn) (by rw [hcut.count]; omega)
  obtain ⟨e', he'⟩ : ∃ e', c.slice (offset + o) n = .ok e' := slice_of_le hc (by omega) hcount
  refine ⟨e, he, ?_⟩
  suffices e = e' from this ▸ he'
  obtain ⟨hcapacity, hflat, hselected⟩ := slice_parts h
  obtain ⟨hcapacity', hflat', hselected'⟩ := slice_parts he
  obtain ⟨hcapacity'', hflat'', hselected''⟩ := slice_parts he'
  cases hs : c.selection with
  | some s =>
    have hd := hselected s hs
    have hpiece : d.selection = some ((s.drop offset).take len) := by rw [hd]; rfl
    rw [hselected' _ hpiece, hselected'' s hs, take_drop_take_drop s hn, hd]
    rfl
  | none =>
    have hinner := (slice_ok hcut.sound he).2
    have houter := (slice_ok hc he').2
    refine ext_rows hinner.sound houter.sound (hflat' (hflat hs)) (hflat'' hs) ?_ ?_ ?_
    · rw [hinner.types, hcut.types, houter.types]
    · rw [hcapacity', hcapacity, hcapacity'']
    · rw [hinner.rows, hcut.rows, houter.rows, take_drop_take_drop c.rows hn]

/-- What a slice of a chunk is. -/
structure SliceOf (c : Chunk) (offset len : Nat) (d : Chunk) : Prop where
  verified : d.verify = .ok ()
  types : d.types = c.types
  count : d.count = len
  rows : d.rows = (c.rows.drop offset).take len
  /-- Flattened it is the slice of the flattened chunk. -/
  flattened : ∃ flat piece, c.flatten = .ok flat ∧ flat.slice offset len = .ok piece ∧ d.flatten = .ok piece
  /-- A slice of it is a slice of the chunk. -/
  nested : ∀ o n, o + n ≤ len → ∃ e, d.slice o n = .ok e ∧ c.slice (offset + o) n = .ok e

/-- From a verified chunk any rows that it has can be sliced. -/
theorem slice_rows (h : c.verify = .ok ()) (hcount : c.count ≤ maxCount) (hle : offset + len ≤ c.count) :
    ∃ d, c.slice offset len = .ok d ∧ c.SliceOf offset len d := by
  have hc := (verify_eq_ok_iff c).mp h
  obtain ⟨d, hd⟩ := slice_of_le hc hle hcount
  have hcut := (slice_ok hc hd).2
  refine ⟨d, hd, (verify_eq_ok_iff d).mpr hcut.sound, hcut.types, hcut.count, hcut.rows, ?_, fun o n hn => ?_⟩
  · exact flatten_slice hc hle hcount hd
  · exact slice_slice hc hle hcount hd hn

/-- The last three of four selected rows, one of them selected twice. -/
theorem slice_rows_repeated :
    let c : Chunk := ⟨[.ofInts [5, 6, 7, 8], .nulls .sqlNull 4], some [1, 3, 0, 3], 4, 4⟩
    c.verify = .ok () ∧ c.count ≤ maxCount ∧ 1 + 3 ≤ c.count ∧ ∃ d, c.slice 1 3 = .ok d ∧ c.SliceOf 1 3 d ∧
      (d.rows.map fun row => row.map Datum.value) = [[.bigInt 8, .null], [.bigInt 5, .null], [.bigInt 8, .null]] := by
  intro c
  have hverified : c.verify = .ok () := rfl
  have hle : 1 + 3 ≤ c.count := by decide
  obtain ⟨d, hd, hslice⟩ := slice_rows hverified (by decide) hle
  refine ⟨hverified, by decide, hle, d, hd, hslice, ?_⟩
  rw [hslice.rows]
  decide +kernel

end Chunk
end QueryEngine
