import QueryEngine.Proofs.Chunk.Rows

/-! Chunks made of other chunks' rows.

Flattening, slicing and picking a single row rearrange slots the same way in every
column (`Rearranged`). What they make of a sound chunk is sound and has just the
rows that were asked for. -/
namespace QueryEngine

/-- Columns whose slots `0` up to `n` are the slots `source 0`, `source 1`, … of others. -/
structure Rearranged (n : Nat) (source : Nat → Nat) (cs ds : List Column) : Prop where
  types : ds.map Column.type = cs.map Column.type
  size : ∀ d ∈ ds, d.size = n
  datum : ∀ i < n, (ds.map fun d => d.datum i) = cs.map fun c => c.datum (source i)

namespace Rearranged
variable {n : Nat} {source : Nat → Nat} {cs ds : List Column}

theorem self (h : ∀ c ∈ cs, c.size = n) : Rearranged n id cs cs := ⟨rfl, h, fun _ _ => rfl⟩

theorem of_mapM {f : Column → Except Failure Column}
    (hf : ∀ c ∈ cs, ∀ d, f c = .ok d → d.type = c.type ∧ d.size = n ∧ ∀ i < n, d.datum i = c.datum (source i))
    (h : cs.mapM f = .ok ds) : Rearranged n source cs ds := by
  have hall := mapM_eq_ok_iff.mp h
  clear h
  induction hall with
  | nil => exact ⟨rfl, by simp, fun _ _ => rfl⟩
  | @cons c d cs ds hcd _ ih =>
    obtain ⟨ht, hs, hd⟩ := hf c (List.mem_cons_self ..) d hcd
    have hrest := ih fun c hc => hf c (List.mem_cons_of_mem _ hc)
    refine ⟨?_, ?_, fun i hi => ?_⟩
    · rw [List.map_cons, List.map_cons, ht, hrest.types]
    · intro e he
      rcases List.mem_cons.mp he with rfl | he
      · exact hs
      · exact hrest.size e he
    · rw [List.map_cons, List.map_cons, hd i hi, hrest.datum i hi]

theorem of_map {f : Column → Column}
    (hf : ∀ c ∈ cs, (f c).type = c.type ∧ (f c).size = n ∧ ∀ i < n, (f c).datum i = c.datum (source i)) :
    Rearranged n source cs (cs.map f) where
  types := by
    rw [List.map_map]
    exact List.map_congr_left fun c hc => (hf c hc).1
  size d hd := by
    obtain ⟨c, hc, rfl⟩ := List.mem_map.mp hd
    exact (hf c hc).2.1
  datum i hi := by
    rw [List.map_map]
    exact List.map_congr_left fun c hc => (hf c hc).2.2 i hi

theorem of_gather {rows : List Nat} (h : cs.mapM (fun c => c.gather rows) = .ok ds) :
    Rearranged rows.length (fun i => rows.getD i 0) cs ds := by
  refine of_mapM (fun c _ d hd => ⟨(Column.gather_ok hd).1, Column.size_gather hd, fun i hi => ?_⟩) h
  exact Column.datum_gather hd (by simp [List.getD_eq_getElem?_getD, List.getElem?_eq_getElem hi])

theorem of_slice {offset len : Nat} (h : cs.mapM (fun c => c.slice offset len) = .ok ds) :
    Rearranged len (fun i => offset + i) cs ds := by
  refine of_mapM (fun c _ d hd => ?_) h
  obtain ⟨hle, rfl⟩ := Column.slice_ok hd
  refine ⟨rfl, ?_, fun i hi => Column.datum_window hi⟩
  rw [Column.size_window]
  omega

theorem length (h : Rearranged n source cs ds) : ds.length = cs.length := by
  simpa using congrArg List.length h.types

theorem column (h : Rearranged n source cs ds) {j : Nat} {c : Column} (hj : cs[j]? = some c) :
    ∃ d, ds[j]? = some d ∧ d.type = c.type ∧ d.size = n ∧ ∀ i < n, d.datum i = c.datum (source i) := by
  have hlt : j < ds.length := h.length ▸ (List.getElem?_eq_some_iff.mp hj).1
  have hd : ds[j]? = some ds[j] := List.getElem?_eq_getElem hlt
  refine ⟨ds[j], hd, ?_, h.size _ (List.getElem_mem hlt), fun i hi => ?_⟩
  · have ht := congrArg (fun types => types[j]?) h.types
    simpa [hd, hj] using ht
  · have hdatum := congrArg (fun data => data[j]?) (h.datum i hi)
    simpa [hd, hj] using hdatum

end Rearranged

theorem Selection.slice_ok {s piece : Selection} {offset len : Nat} (h : s.slice offset (offset + len) = .ok piece) :
    piece = (s.drop offset).take len := by
  unfold Selection.slice at h
  split at h
  · cases h
    rw [Nat.add_sub_cancel_left]
  · cases h

theorem take_drop_range {n offset len : Nat} (h : offset + len ≤ n) :
    ((List.range n).drop offset).take len = (List.range len).map (offset + ·) := by
  apply List.ext_getElem
  · simp
    omega
  · intro i _ hi
    simp at hi ⊢

theorem map_getD_range {α : Type} (rows : List α) (d : α) :
    (List.range rows.length).map (fun i => rows.getD i d) = rows := by
  apply List.ext_getElem
  · simp
  · intro i h _
    simp only [List.length_map, List.length_range] at h
    simp [h]

namespace Chunk

@[simp] theorem activeRows_flat (columns : List Column) (count capacity : Nat) :
    activeRows ⟨columns, none, count, capacity⟩ = List.range count := rfl

theorem sound_of_rearranged {c : Chunk} {n : Nat} {source : Nat → Nat} {ds : List Column} (capacity : Nat)
    (h : Rearranged n source c.columns ds) : Sound ⟨ds, none, n, capacity⟩ := sound_flat h.size

theorem rows_of_rearranged {c : Chunk} {n : Nat} {source : Nat → Nat} {ds : List Column} (capacity : Nat)
    (h : Rearranged n source c.columns ds) :
    rows ⟨ds, none, n, capacity⟩ = (List.range n).map fun i => c.row (source i) := by
  rw [rows, activeRows_flat]
  exact List.map_congr_left fun i hi => h.datum i (List.mem_range.mp hi)

/-! ### Flattening -/

/-- The columns restricted to the active rows have these in their order. -/
theorem flatColumns_ok {c : Chunk} (hc : c.Sound) :
    ∃ ds, c.flatColumns = .ok ds ∧ Rearranged c.count (fun i => c.activeRows.getD i 0) c.columns ds := by
  unfold flatColumns activeRows
  cases hs : c.selection with
  | none =>
    refine ⟨c.columns, rfl, rfl, fun column hcol => (hc.even column hcol).trans (hc.flat hs), fun i hi => ?_⟩
    simp [hi]
  | some s =>
    obtain ⟨hlen, hlt⟩ := hc.selected s hs
    obtain ⟨ds, hds⟩ : ∃ ds, c.columns.mapM (fun column => column.gather s) = .ok ds :=
      mapM_of_forall fun column hcol => Column.gather_of_lt fun r hr => by rw [hc.even column hcol]; exact hlt r hr
    exact ⟨ds, hds, hlen ▸ Rearranged.of_gather hds⟩

/-- The active rows alone: a chunk that hides nothing and says the same. -/
structure Flattens (c d : Chunk) : Prop where
  sound : d.Sound
  flat : d.selection = none
  count : d.count = c.count
  types : d.types = c.types
  rows : d.rows = c.rows

theorem flatten_ok {c : Chunk} (hc : c.Sound) : ∃ d, c.flatten = .ok d ∧ Flattens c d := by
  obtain ⟨ds, hds, hre⟩ := flatColumns_ok hc
  refine ⟨⟨ds, none, c.count, c.capacity⟩, by rw [flatten, hds]; rfl, sound_of_rearranged _ hre, rfl, rfl, hre.types, ?_⟩
  rw [rows_of_rearranged _ hre, rows]
  conv_rhs => rw [← map_getD_range c.activeRows 0, hc.length_activeRows, List.map_map]
  rfl

theorem flattens_of_flatten {c d : Chunk} (hc : c.Sound) (h : c.flatten = .ok d) : Flattens c d := by
  obtain ⟨d', hd', hfl⟩ := flatten_ok hc
  cases hd'.symm.trans h
  exact hfl

/-! ### One row -/

/-- A physical row as a chunk of its own. -/
def only (c : Chunk) (r : Nat) : Chunk :=
  { c with columns := c.columns.map fun column => column.window r 1, selection := none, count := 1 }

theorem only_rearranged {c : Chunk} (hc : c.Sound) {r : Nat} (hr : r < c.physicalRows) :
    Rearranged 1 (fun _ => r) c.columns (c.columns.map fun column => column.window r 1) := by
  refine Rearranged.of_map fun column hcol => ⟨rfl, ?_, fun i hi => ?_⟩
  · rw [Column.size_window, hc.even column hcol]
    omega
  · rw [Column.datum_window hi]
    congr 1
    omega

theorem sound_only {c : Chunk} (hc : c.Sound) {r : Nat} (hr : r < c.physicalRows) : (c.only r).Sound :=
  sound_of_rearranged c.capacity (only_rearranged hc hr)

theorem rows_only {c : Chunk} (hc : c.Sound) {r : Nat} (hr : r < c.physicalRows) : (c.only r).rows = [c.row r] :=
  rows_of_rearranged c.capacity (only_rearranged hc hr)

@[simp] theorem types_only (c : Chunk) (r : Nat) : (c.only r).types = c.types := by
  simp [only, types, Function.comp_def]

/-! ### Slices -/

theorem addCounts_ok {a b n : Nat} (h : addCounts a b = .ok n) : n = a + b := by
  unfold addCounts at h
  split at h
  · cases h
    rfl
  · cases h

theorem addCounts_of_le {a b : Nat} (h : a + b ≤ maxCount) : addCounts a b = .ok (a + b) := if_pos h

/-- As many rows as there are can be cut out. -/
theorem slice_of_le {c : Chunk} (hc : c.Sound) {offset len : Nat} (hle : offset + len ≤ c.count)
    (hcount : c.count ≤ maxCount) : ∃ piece, c.slice offset len = .ok piece := by
  unfold slice
  rw [addCounts_of_le (Nat.le_trans hle hcount), ok_bind, if_neg (Nat.not_lt.mpr hle)]
  cases hs : c.selection with
  | some s =>
    have hpiece : s.slice offset (offset + len) = .ok ((s.drop offset).take (offset + len - offset)) :=
      if_pos ⟨Nat.le_add_right _ _, (hc.selected s hs).1.symm ▸ hle⟩
    simp only [hpiece]
    exact ⟨_, rfl⟩
  | none =>
    have hsize (column : Column) (hcol : column ∈ c.columns) : offset + len ≤ column.size := by
      rw [hc.even column hcol, hc.flat hs]
      exact hle
    have hpiece (column : Column) (hcol : column ∈ c.columns) : ∃ piece, column.slice offset len = .ok piece :=
      ⟨_, if_pos (hsize column hcol)⟩
    obtain ⟨columns, hcolumns⟩ := mapM_of_forall hpiece
    simp only [hcolumns]
    exact ⟨_, rfl⟩

/-- The rows `offset` up to `offset + len` of another chunk. -/
structure Slices (c : Chunk) (offset len : Nat) (d : Chunk) : Prop where
  sound : d.Sound
  count : d.count = len
  types : d.types = c.types
  rows : d.rows = (c.rows.drop offset).take len
  increasing : c.activeRows.Pairwise (· < ·) → d.activeRows.Pairwise (· < ·)

/-- A slice lies within the chunk. It is cut from the selection, or else from the columns. -/
theorem slice_cases {c d : Chunk} {offset len : Nat} (h : c.slice offset len = .ok d) :
    offset + len ≤ c.count ∧
      ((∃ s, c.selection = some s ∧ d = c.select ((s.drop offset).take len)) ∨
        c.selection = none ∧ ∃ columns, (c.columns.mapM fun column => column.slice offset len) = .ok columns ∧
          d = ⟨columns, none, len, c.capacity⟩) := by
  obtain ⟨stop, hstop, h⟩ := bind_eq_ok.mp h
  obtain rfl := addCounts_ok hstop
  by_cases hlt : c.count < offset + len
  · rw [if_pos hlt] at h
    cases h
  rw [if_neg hlt] at h
  refine ⟨Nat.le_of_not_lt hlt, ?_⟩
  cases hs : c.selection with
  | some s =>
    rw [hs] at h
    obtain ⟨piece, hpiece, h⟩ := bind_eq_ok.mp h
    cases h
    exact .inl ⟨s, rfl, by rw [Selection.slice_ok hpiece]⟩
  | none =>
    rw [hs] at h
    obtain ⟨columns, hcolumns, h⟩ := bind_eq_ok.mp h
    cases h
    exact .inr ⟨rfl, columns, hcolumns, rfl⟩

theorem slice_ok {c d : Chunk} (hc : c.Sound) {offset len : Nat} (h : c.slice offset len = .ok d) :
    offset + len ≤ c.count ∧ Slices c offset len d := by
  obtain ⟨hle, ⟨s, hs, rfl⟩ | ⟨hs, columns, hcolumns, rfl⟩⟩ := slice_cases h
  · obtain ⟨hlen, hin⟩ := hc.selected s hs
    have hsub : ((s.drop offset).take len).Sublist s := (List.take_sublist ..).trans (List.drop_sublist ..)
    refine ⟨hle, hc.select fun r hr => hin r (hsub.subset hr), ?_, rfl, ?_, fun hinc => ?_⟩
    · show ((s.drop offset).take len).length = len
      rw [List.length_take, List.length_drop, hlen]
      omega
    · rw [rows_select, Chunk.rows, activeRows, hs, Option.getD_some, List.map_take, List.map_drop]
    · rw [activeRows, hs, Option.getD_some] at hinc
      exact hinc.sublist hsub
  · have hre := Rearranged.of_slice hcolumns
    refine ⟨hle, sound_of_rearranged c.capacity hre, rfl, hre.types, ?_, fun _ => ?_⟩
    · rw [rows_of_rearranged c.capacity hre, Chunk.rows, activeRows, hs, Option.getD_none, ← List.map_drop,
        ← List.map_take, take_drop_range hle, List.map_map]
      rfl
    · rw [activeRows_flat]
      exact List.pairwise_lt_range

end Chunk
end QueryEngine
