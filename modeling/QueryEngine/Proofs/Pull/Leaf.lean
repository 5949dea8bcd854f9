import QueryEngine.Proofs.Chunk.Filled
import QueryEngine.Proofs.Pull.Gives
import QueryEngine.Proofs.Table.Live
import QueryEngine.Pull.Leaf

/-! What operators without inputs give: nothing, prepared chunks, or the live rows of
a table. -/
namespace QueryEngine.Operator
variable {T : Terms} {c₁ c₂ : Config}

theorem gives_empty (h₁ : c₁.capacity = T.capacity) (h₂ : c₂.capacity = T.capacity) (types : List SqlType) :
    Gives T (empty c₁ types) (empty c₂ types) [] (empty c₁ types).start.cells := by
  have halike : Alike (empty c₁ types) (empty c₂ types) := ⟨rfl, rfl, rfl, rfl⟩
  exact Gives.of_work (K := fun rows _ _ => T.told → rows = []) halike h₁ h₂ rfl rfl
    (fun _ _ hf hout hK hs => Pull.Agree.pure (.none hout hf hs hK)) rfl fun _ => rfl

/-- An empty chunk would end the stream. -/
theorem gives_source (h₁ : c₁.capacity = T.capacity) (h₂ : c₂.capacity = T.capacity) {types : List SqlType}
    {chunks : List Chunk} (hc : ∀ chunk ∈ chunks, T.Handed types chunk ∧ chunk.isEmpty = false) :
    Gives T (source c₁ types chunks) (source c₂ types chunks) (chunks.flatMap Chunk.rows)
      (source c₁ types chunks).start.cells := by
  have halike : Alike (source c₁ types chunks) (source c₂ types chunks) := ⟨rfl, rfl, rfl, rfl⟩
  refine Gives.of_work (K := fun rows cell _ => T.told → rows = (chunks.drop cell.buffer.count).flatMap Chunk.rows)
    halike h₁ h₂ rfl rfl (fun f rows hf hout hK hs => ?_) rfl fun _ => rfl
  refine Pull.Agree.step rfl ?_
  cases hget : chunks[f.cell.buffer.count]? with
  | none =>
    simp only [hget]
    refine Pull.Agree.pure (Worked.none hout hf hs fun ht => ?_)
    rw [hK ht, List.drop_of_length_le (List.getElem?_eq_none_iff.mp hget)]
    rfl
  | some chunk =>
    simp only [hget]
    obtain ⟨hhanded, hempty⟩ := hc chunk (List.mem_of_getElem? hget)
    refine Pull.Agree.step rfl (Pull.Agree.last rfl ⟨?_, hs, hf, fun he => ?_, fun _ => ⟨_, fun _ => rfl, fun ht => ?_⟩⟩)
    · exact ⟨hhanded.sound.reference _, hhanded.typed, fun ht => (hhanded.tidy ht).reference _⟩
    · cases hempty.symm.trans he
    · obtain ⟨hlt, hget⟩ := List.getElem?_eq_some_iff.mp hget
      rw [hK ht, List.drop_eq_getElem_cons hlt, hget, List.flatMap_cons]
      rfl

/-! ### Scans -/

/-- A window with a live row, behind deleted rows only. -/
structure LiveWindow (table : Provider) (mask : Mask) (refs : List ColumnRef) (capacity offset : Nat)
    (w : ScannedWindow) : Prop where
  positive : 0 < w.len
  bounded : w.len ≤ capacity
  within : w.offset + w.len ≤ table.table.rows
  read : table.window mask (tableIds refs) w.offset w.len = .ok w.window
  shown : w.window.visible ≠ some []
  skipped : mask.length = table.table.rows → table.liveFrom mask refs offset = table.liveFrom mask refs w.offset

/-- Where a search for the next live row ends: behind its window, or with no live row. -/
def Stops (table : Provider) (mask : Mask) (refs : List ColumnRef) (capacity rounds offset next : Nat) :
    Option ScannedWindow → Prop
  | some w => next = w.offset + w.len ∧ LiveWindow table mask refs capacity offset w
  | none =>
    mask.length = table.table.rows → table.table.rows - offset ≤ rounds → table.liveFrom mask refs offset = []

/-- A round of a search that succeeds: it is at the end of the table, or passes a window over of
which all rows are deleted, or is at one with a live row. -/
theorem nextWindow_succ_ok {table : Provider} {mask : Mask} {refs : List ColumnRef} {capacity rounds offset next : Nat}
    {found : Option ScannedWindow} (hcap : 0 < capacity)
    (h : nextWindow table mask (tableIds refs) capacity (rounds + 1) offset = (.ok found, next)) :
    (table.table.rows ≤ offset ∧ found = none ∧ next = offset) ∨
    (∃ len w, 0 < len ∧ offset + len ≤ table.table.rows ∧ table.window mask (tableIds refs) offset len = .ok w ∧
      w.visible = some [] ∧ nextWindow table mask (tableIds refs) capacity rounds (offset + len) = (.ok found, next)) ∨
    ∃ w, found = some w ∧ w.offset = offset ∧ next = offset + w.len ∧ LiveWindow table mask refs capacity offset w := by
  rw [nextWindow] at h
  by_cases hend : table.table.rows ≤ offset
  · rw [if_pos hend] at h
    cases h
    exact .inl ⟨hend, rfl, rfl⟩
  rw [if_neg hend] at h
  have hlen : offset + min capacity (table.table.rows - offset) ≤ table.table.rows := by omega
  have hpos : 0 < min capacity (table.table.rows - offset) := by omega
  generalize hl : min capacity (table.table.rows - offset) = len at h hlen hpos
  simp only at h
  cases hw : table.window mask (tableIds refs) offset len with
  | error e =>
    rw [hw] at h
    cases h
  | ok w =>
    rw [hw] at h
    simp only at h
    by_cases hv : w.visible = some []
    · rw [if_pos hv] at h
      exact .inr (.inl ⟨len, w, hpos, hlen, hw, hv, h⟩)
    · rw [if_neg hv] at h
      cases h
      exact .inr (.inr ⟨_, rfl, rfl, rfl, hpos, hl ▸ Nat.min_le_left _ _, hlen, hw, hv, fun _ => rfl⟩)

theorem nextWindow_ok {table : Provider} {mask : Mask} {refs : List ColumnRef} {capacity rounds offset : Nat}
    {found : Option ScannedWindow} {next : Nat} (hcap : 0 < capacity)
    (h : nextWindow table mask (tableIds refs) capacity rounds offset = (.ok found, next)) :
    Stops table mask refs capacity rounds offset next found := by
  induction rounds generalizing offset with
  | zero =>
    cases h
    intro _ hle
    exact Provider.liveFrom_of_le (by omega)
  | succ rounds ih =>
    rcases nextWindow_succ_ok hcap h with ⟨hend, rfl, rfl⟩ | ⟨len, w, hpos, hlen, hw, hv, h⟩ | ⟨w, rfl, hoffset, hnext, hlive⟩
    · exact fun _ _ => Provider.liveFrom_of_le hend
    · have hskip (hfit : mask.length = table.table.rows) :
          table.liveFrom mask refs offset = table.liveFrom mask refs (offset + len) := by
        rw [Provider.liveFrom_window refs hfit hlen hw, hv]
        rfl
      have hrest := ih h
      cases found with
      | some w' =>
        obtain ⟨hnext, hw'⟩ := hrest
        exact ⟨hnext, { hw' with skipped := fun hfit => (hskip hfit).trans (hw'.skipped hfit) }⟩
      | none => exact fun hfit hle => (hskip hfit).trans (hrest hfit (by omega))
    · exact ⟨hoffset ▸ hnext, hlive⟩

theorem nextWindow_offset {p : Provider} {m : Mask} {ids : List Nat} {capacity rounds offset next : Nat}
    {found : Except QueryError (Option ScannedWindow)} (h : nextWindow p m ids capacity rounds offset = (found, next)) :
    offset ≤ next ∧ ∀ w, found = .ok (some w) → offset ≤ w.offset := by
  induction rounds generalizing offset with
  | zero =>
    cases h
    exact ⟨Nat.le_refl _, nofun⟩
  | succ rounds ih =>
    rw [nextWindow] at h
    split at h
    · cases h
      exact ⟨Nat.le_refl _, nofun⟩
    simp only [] at h
    split at h
    · cases h
      exact ⟨Nat.le_add_right _ _, nofun⟩
    split at h
    · obtain ⟨hle, hw⟩ := ih h
      exact ⟨by omega, fun w hfound => Nat.le_trans (Nat.le_add_right _ _) (hw w hfound)⟩
    · cases h
      exact ⟨Nat.le_add_right _ _, fun w hw => by cases hw; exact Nat.le_refl _⟩

theorem size_rowIds (offset len : Nat) : (rowIds offset len).size = len := by
  rw [rowIds, Column.ofInts, Column.size_ofSlots]
  exact (List.length_map _).trans ((List.length_map _).trans List.length_range)

theorem datum_rowIds {offset len i : Nat} (hi : i < len) :
    (rowIds offset len).datum i = ⟨.bigInt, .bigInt (Int64.ofNat (offset + i))⟩ := by
  rw [rowIds, Column.ofInts]
  refine Column.datum_ofSlots (s := ⟨.bigInt (Int64.ofNat (offset + i)), .inr rfl⟩) ?_
  have hrow : ((List.range len).map fun i => Int64.ofNat (offset + i))[i]? = some (Int64.ofNat (offset + i)) := by
    rw [List.getElem?_map, List.getElem?_range hi]
    rfl
  exact (List.getElem?_map ..).trans (congrArg (Option.map _) hrow)

/-- The columns of a window, a column for each reference. -/
theorem readColumns_ok {table : Provider} {w : ScannedWindow} {refs : List ColumnRef} {windows columns cs : List Column}
    (hw : List.Forall₂ (fun id c => ∃ full, table.table.columns[id]? = some full ∧ c = full.window w.offset w.len)
      (tableIds refs) windows)
    (hcut : columns <+: windows) (hle : w.offset + w.len ≤ table.table.rows)
    (h : readColumns table w refs columns = cs.map Except.ok) :
    (∀ c ∈ cs, c.size = w.len) ∧ ∀ i < w.len, (cs.map fun c => c.datum i) = table.rowOf refs (w.offset + i) := by
  induction refs generalizing windows columns cs with
  | nil =>
    rw [readColumns, eq_comm, List.map_eq_nil_iff] at h
    subst h
    exact ⟨by simp, fun _ _ => rfl⟩
  | cons ref refs ih =>
    have hrows {c : Column} {cs : List Column} {i : Nat} (hc : c.datum i = table.read (w.offset + i) ref)
        (hcs : (cs.map fun c => c.datum i) = table.rowOf refs (w.offset + i)) :
        ((c :: cs).map fun c => c.datum i) = table.rowOf (ref :: refs) (w.offset + i) := by
      rw [List.map_cons, hc, hcs]
      rfl
    cases ref with
    | rowId =>
      rw [readColumns, eq_comm] at h
      obtain ⟨c, cs, rfl, hc, htail⟩ := List.map_eq_cons_iff.mp h
      cases hc
      obtain ⟨hsize, hrow⟩ := ih hw hcut htail.symm
      refine ⟨List.forall_mem_cons.mpr ⟨size_rowIds _ _, hsize⟩, fun i hi => hrows (datum_rowIds hi) (hrow i hi)⟩
    | column id =>
      obtain ⟨window, windows, ⟨full, hfull, rfl⟩, hrest, rfl⟩ := List.forall₂_cons_left_iff.mp hw
      cases columns with
      | nil =>
        rw [readColumns, eq_comm] at h
        obtain ⟨_, _, _, hc, _⟩ := List.map_eq_cons_iff.mp h
        cases hc
      | cons first columns =>
        obtain ⟨rfl, hprefix⟩ := List.cons_prefix_cons.mp hcut
        rw [readColumns, eq_comm] at h
        obtain ⟨c, cs, rfl, hc, htail⟩ := List.map_eq_cons_iff.mp h
        cases hc
        obtain ⟨hsize, hrow⟩ := ih hrest hprefix htail.symm
        refine ⟨List.forall_mem_cons.mpr ⟨?_, hsize⟩, fun i hi => hrows ?_ (hrow i hi)⟩
        · rw [Column.size_window, table.table.even full (List.mem_of_getElem? hfull)]
          omega
        · rw [Column.datum_window hi, Provider.read, hfull]
          rfl

/-- A window's live rows fill a chunk. -/
theorem fillFromWindow_ok {table : Provider} {refs : List ColumnRef} {types : List SqlType} {w : ScannedWindow}
    {mask : Mask} {capacity offset most : Nat} {d : Chunk} (htypes : refs.length = types.length)
    (hw : LiveWindow table mask refs most offset w)
    (h : fillFromWindow table refs w (Chunk.blank types capacity) = .ok () d) :
    d.Sound ∧ d.types = types ∧ d.activeRows = w.window.visible.getD (List.range w.len) ∧
      d.rows = d.activeRows.map fun i => table.rowOf refs (w.offset + i) := by
  obtain ⟨hvisible, columns, hcolumns, hcut⟩ := Provider.window_ok hw.read hw.within
  obtain ⟨_, c, hput, hrest⟩ := run_bind_eq_ok.mp h
  obtain ⟨cs, hcs, hput⟩ := Filling.putComputed_ok hput
  obtain ⟨hsize, hrow⟩ := readColumns_ok hcolumns (hcut ▸ List.take_prefix ..) hw.within hcs
  have hlen : cs.length = types.length := by
    rw [← htypes, ← List.length_map (fun c => c.datum 0), hrow 0 hw.positive, Provider.rowOf, List.length_map]
  obtain ⟨rfl, htyped⟩ := Filling.putAll_blank hlen hput
  have hflat : Chunk.Sound ⟨cs, none, w.len, max capacity 1⟩ := Chunk.sound_flat hsize
  have hphysical : Chunk.physicalRows ⟨cs, none, w.len, max capacity 1⟩ = w.len := hflat.flat rfl
  cases hv : w.window.visible with
  | some rows =>
    rw [hv] at hrest
    cases hrest
    rw [hv] at hvisible
    have hlt (r : Nat) (hr : r ∈ rows) : r < w.len :=
      List.mem_range.mp ((Mask.visible_some hvisible.symm).subset hr)
    refine ⟨hflat.select fun r hr => hphysical.symm ▸ hlt r hr, htyped, rfl, ?_⟩
    exact List.map_congr_left fun i hi => hrow i (hlt i hi)
  | none =>
    rw [hv] at hrest
    cases hrest
    refine ⟨hflat, htyped, rfl, ?_⟩
    exact List.map_congr_left fun i hi => hrow i (List.mem_range.mp hi)

theorem activeRows_window {table : Provider} {refs : List ColumnRef} {w : ScannedWindow} {mask : Mask}
    {most offset : Nat} (hw : LiveWindow table mask refs most offset w) :
    let rows := w.window.visible.getD (List.range w.len)
    rows.Sublist (List.range w.len) ∧ rows ≠ [] := by
  cases hv : w.window.visible with
  | none =>
    refine ⟨List.Sublist.refl _, fun h => ?_⟩
    rw [Option.getD_none, List.range_eq_nil] at h
    exact Nat.ne_of_gt hw.positive h
  | some rows =>
    refine ⟨Mask.visible_some ((Provider.window_ok hw.read hw.within).1 ▸ hv), fun h => hw.shown ?_⟩
    rw [hv]
    exact congrArg some h

/-- The row at which a scan goes on, and the live rows from there on. -/
def ScanningFrom (T : Terms) (table : Provider) (mask : Mask) (refs : List ColumnRef) (rows : List Row) (cell : Cell)
    (_ : List Cell) : Prop :=
  ∃ offset, cell.progress = .scan offset ∧ (T.told → rows = table.liveFrom mask refs offset)

section
variable {table : Provider} {refs : List ColumnRef} {types : List SqlType} {mask : Mask} (htypes : refs.length = types.length)
  (hmask : T.told → mask.length = table.table.rows ∧ ∀ session : Session, T.sees session.masks → session.mask table = mask)
include htypes hmask

/-- The next window with a live row is answered. -/
theorem agree_scanWindow {rows : List Row} {f : Frame} {offset : Nat} (hf : f.cell.finished = false)
    (hout : f.out = Chunk.blank types T.capacity) (hs : T.sees f.session.masks)
    (hrows : T.told → rows = table.liveFrom mask refs offset) :
    let work : Pull Unit := do
      let mask := (← get).session.mask table
      let (found, offset) := nextWindow table mask (tableIds refs) (← Pull.out).capacity (table.table.rows - offset) offset
      Pull.setProgress (.scan offset)
      match ← found with
      | some w => Pull.filling (fillFromWindow table refs w)
      | none => return
    Pull.Agree work work f fun _ g => Worked T types (ScanningFrom T table mask refs) rows g := by
  refine Pull.Agree.step rfl (Pull.Agree.step rfl ?_)
  cases hnext : nextWindow table (f.session.mask table) (tableIds refs) f.out.capacity (table.table.rows - offset) offset with
  | mk found next =>
  refine Pull.Agree.step rfl (Pull.Agree.liftQuery_bind fun found' hfound => ?_)
  subst hfound
  rw [hout, Chunk.capacity_blank] at hnext
  have hspec := nextWindow_ok (Nat.lt_of_lt_of_le Nat.one_pos (Nat.le_max_right _ _)) hnext
  cases found' with
  | none =>
    refine Pull.Agree.pure (Worked.none hout hf hs fun ht => ?_)
    rw [hrows ht]
    rw [Stops, (hmask ht).2 _ hs] at hspec
    exact hspec (hmask ht).1 (Nat.le_refl _)
  | some w =>
    obtain ⟨hend, hw⟩ := hspec
    refine Pull.Agree.filling fun _ d hd => ?_
    rw [show _ = Chunk.blank types T.capacity from hout] at hd
    obtain ⟨hsound, htyped, hactive, hdrows⟩ := fillFromWindow_ok htypes hw hd
    obtain ⟨hsub, hsome⟩ := activeRows_window hw
    rw [← hactive] at hsub hsome
    have hnonempty : d.isEmpty = false := by
      rw [← Bool.not_eq_true, ← hsound.rows_eq_nil_iff, hdrows, List.map_eq_nil_iff]
      exact hsome
    refine ⟨⟨hsound, htyped, fun _ => ⟨?_, List.pairwise_lt_range.sublist hsub⟩⟩, hs, hf, fun he => ?_, fun _ =>
      ⟨table.liveFrom mask refs next, ⟨next, rfl, fun _ => rfl⟩, fun ht => ?_⟩⟩
    · rw [← hsound.length_activeRows]
      have hcount := hsub.length_le
      rw [List.length_range] at hcount
      exact Nat.le_trans hcount hw.bounded
    · cases hnonempty.symm.trans he
    · obtain ⟨hfit, hseen⟩ := hmask ht
      rw [hseen _ hs] at hw
      show rows = d.rows ++ _
      rw [hrows ht, hw.skipped hfit, Provider.liveFrom_window refs hfit hw.within hw.read, hdrows, hactive, hend]

theorem gives_scan (h₁ : c₁.capacity = T.capacity) (h₂ : c₂.capacity = T.capacity) :
    Gives T (scan c₁ table refs types) (scan c₂ table refs types) (table.liveFrom mask refs 0)
      (scan c₁ table refs types).start.cells := by
  have halike : Alike (scan c₁ table refs types) (scan c₂ table refs types) := ⟨rfl, rfl, rfl, rfl⟩
  refine Gives.of_work (K := ScanningFrom T table mask refs) halike h₁ h₂ rfl rfl (fun f rows hf hout hK hs => ?_) rfl
    ⟨0, rfl, fun _ => rfl⟩
  obtain ⟨offset, hoffset, hrows⟩ := hK
  refine Pull.Agree.step rfl ?_
  simp only [hoffset]
  exact agree_scanWindow htypes hmask hf hout hs hrows

end

end QueryEngine.Operator
