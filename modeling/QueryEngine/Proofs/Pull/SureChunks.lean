import QueryEngine.Proofs.Expr.Failing
import QueryEngine.Proofs.Pull.Leaf
import QueryEngine.Proofs.Pull.Streaming
import QueryEngine.Proofs.Pull.Sure
import QueryEngine.Pull.Delete

/-! Operators that answer chunk by chunk are sure.

What the compiler has checked of a node is what a pull needs: that columns exist and
have the types that they are put under, and that predicates are truth values. -/
namespace QueryEngine

/-- Only for an id that is no row does a deletion fail. -/
theorem Table.delete_yields (t : Table) (mask : Mask) (ids : List Int64) :
    Yields QueryError.OfData (t.delete mask ids).1 fun _ => True := by
  induction ids generalizing mask with
  | nil => trivial
  | cons id ids ih =>
    rw [Table.delete]
    split
    · trivial
    · exact Yields.map (ih _)

namespace Operator
variable {T : Terms} {config : Config} {input : Operator} {f : Frame} {rows : List Row}

section
variable (hsees : ∀ masks, T.sees masks) (hverify : config.verify = false)
include hsees hverify

theorem sure_empty {types : List SqlType}
    (hgives : Gives T (empty config types) (empty config types) rows (empty config types).start.cells) :
    Sure T (empty config types) (empty config types).start.cells := by
  refine Sure.of_work (K := fun _ _ => True) hsees hverify rfl hgives trivial (fun _ _ => rfl) fun f hout _ => ?_
  refine .pure ⟨fun _ => trivial, Nat.le_of_eq ?_⟩
  rw [hout, Chunk.count_blank, Nat.zero_add]

end

/-! ### Scans -/

theorem columnType_ok {table : Provider} {i : Nat} {t : SqlType} (h : table.columnType (.column i) = .ok t) :
    ∃ full, table.table.columns[i]? = some full ∧ full.type = t := by
  cases hget : table.table.columns[i]? with
  | none => simp [Provider.columnType, Table.types, hget] at h
  | some full =>
    refine ⟨full, rfl, ?_⟩
    simpa [Provider.columnType, Table.types, hget] using h

/-- The columns that were resolved are there to be read. -/
theorem window_of_refs {table : Provider} {refs : List ColumnRef} {types : List SqlType}
    (h : refs.mapM table.columnType = .ok types) (mask : Mask) (offset len : Nat) :
    ∃ w, table.window mask (tableIds refs) offset len = .ok w := by
  cases hw : table.window mask (tableIds refs) offset len with
  | ok w => exact ⟨w, rfl⟩
  | error e =>
    obtain hw | ⟨_, _, hw⟩ := bind_eq_error.mp hw
    · obtain hw | ⟨_, _, hw⟩ := bind_eq_error.mp hw
      · obtain ⟨id, hid, he⟩ := mapM_eq_error hw
        obtain ⟨ref, href, hsome⟩ := List.mem_filterMap.mp hid
        obtain ⟨t, _, ht⟩ := mapM_ok_of_mem h href
        cases ref with
        | rowId => cases hsome
        | column i =>
          cases hsome
          obtain ⟨full, hfull, _⟩ := columnType_ok ht
          rw [hfull] at he
          cases he
      · cases hw
    · cases hw

theorem nextWindow_of_refs {table : Provider} {refs : List ColumnRef} {types : List SqlType}
    (h : refs.mapM table.columnType = .ok types) (mask : Mask) (capacity rounds offset : Nat) :
    ∃ found next, nextWindow table mask (tableIds refs) capacity rounds offset = (.ok found, next) := by
  induction rounds generalizing offset with
  | zero => exact ⟨none, offset, rfl⟩
  | succ rounds ih =>
    rw [nextWindow]
    by_cases hend : table.table.rows ≤ offset
    · exact ⟨none, offset, if_pos hend⟩
    · rw [if_neg hend]
      obtain ⟨w, hw⟩ := window_of_refs h mask offset (min capacity (table.table.rows - offset))
      simp only [hw]
      by_cases hv : w.visible = some []
      · rw [if_pos hv]
        exact ih _
      · rw [if_neg hv]
        exact ⟨_, _, rfl⟩

/-- All columns are read, of the types that they were resolved to. -/
theorem readColumns_whole {table : Provider} {w : ScannedWindow} {refs : List ColumnRef} {types : List SqlType}
    {windows : List Column} (h : refs.mapM table.columnType = .ok types)
    (hw : List.Forall₂ (fun id c => ∃ full, table.table.columns[id]? = some full ∧ c = full.window w.offset w.len)
      (tableIds refs) windows) :
    ∃ cs : List Column, readColumns table w refs windows = cs.map Except.ok ∧ cs.map Column.type = types := by
  have hall := mapM_eq_ok_iff.mp h
  clear h
  induction hall generalizing windows with
  | nil => exact ⟨[], rfl, rfl⟩
  | @cons ref t refs types ht _ ih =>
    cases ref with
    | rowId =>
      cases ht
      obtain ⟨cs, hread, rfl⟩ := ih hw
      exact ⟨rowIds w.offset w.len :: cs, by rw [readColumns, hread]; rfl, rfl⟩
    | column i =>
      obtain ⟨c, windows, ⟨full, hfull, rfl⟩, hrest, rfl⟩ := List.forall₂_cons_left_iff.mp hw
      obtain ⟨full', hfull', rfl⟩ := columnType_ok ht
      cases hfull'.symm.trans hfull
      obtain ⟨cs, hread, rfl⟩ := ih hrest
      exact ⟨full.window w.offset w.len :: cs, by rw [readColumns, hread]; rfl, rfl⟩

/-- A window of a table that withholds no columns can be filled in. -/
theorem fillFromWindow_whole {table : Provider} {refs : List ColumnRef} {types : List SqlType} {w : ScannedWindow}
    {mask : Mask} {capacity offset most : Nat} (h : refs.mapM table.columnType = .ok types) (hall : table.withheld = 0)
    (hw : LiveWindow table mask refs most offset w) :
    ∃ d, fillFromWindow table refs w (Chunk.blank types capacity) = .ok () d := by
  obtain ⟨_, windows, hwindows, hcut⟩ := Provider.window_ok hw.read hw.within
  rw [hall, Nat.sub_zero, List.take_length] at hcut
  obtain ⟨cs, hread, htypes⟩ := readColumns_whole h hwindows
  have hfit : cs.map Column.type <+: (Chunk.blank types capacity).types.drop 0 := by
    refine ⟨[], ?_⟩
    rw [htypes, Chunk.types_blank, List.drop_zero, List.append_nil]
  obtain ⟨d, hd, -⟩ := Filling.putAll_of_types hfit
  unfold fillFromWindow
  rw [hcut, hread, ← Filling.putAll_eq_putComputed, run_bind, hd]
  cases w.window.visible <;> exact ⟨_, rfl⟩

/-- The live rows of a window fill a chunk with no more rows than the window has. -/
theorem fillFromWindow_ends {table : Provider} {refs : List ColumnRef} {types : List SqlType} {w : ScannedWindow}
    {mask : Mask} {capacity offset most : Nat} (h : refs.mapM table.columnType = .ok types) (hall : table.withheld = 0)
    (hw : LiveWindow table mask refs most offset w) :
    Ends (fillFromWindow table refs w) (Chunk.blank types capacity) fun _ d => d.count ≤ w.len := by
  have hfilled : ∃ d, fillFromWindow table refs w (Chunk.blank types capacity) = .ok () d := fillFromWindow_whole h hall hw
  obtain ⟨d, hd⟩ := hfilled
  obtain ⟨hsound, _, hactive, _⟩ := fillFromWindow_ok (length_of_mapM h).symm hw hd
  refine .of_ok hd ?_
  rw [← hsound.length_activeRows, hactive]
  have hrows := (activeRows_window hw).1.length_le
  rwa [List.length_range] at hrows

theorem sure_scan (hsees : ∀ masks, T.sees masks) (hverify : config.verify = false) {table : Provider}
    {refs : List ColumnRef} {types : List SqlType} (h : refs.mapM table.columnType = .ok types) (hall : table.withheld = 0)
    (hgives : Gives T (scan config table refs types) (scan config table refs types) rows
      (scan config table refs types).start.cells) :
    Sure T (scan config table refs types) (scan config table refs types).start.cells := by
  refine Sure.of_work (K := fun cell _ => ∃ offset, cell.progress = .scan offset) hsees hverify rfl hgives ⟨0, rfl⟩
    (fun _ _ => rfl) fun f hout hK => ?_
  obtain ⟨offset, hoffset⟩ := hK
  have hleft (g : Frame) (next : Nat) (hnext : g.cell.progress = .scan next) :
      (scan config table refs types).rowsBelow g.cells = table.table.rows - next := by
    simp only [Frame.cells, rowsBelow, scan, hnext]
  rw [hleft f offset hoffset]
  refine .step rfl ?_
  simp only [hoffset]
  refine .step rfl (.step rfl ?_)
  obtain ⟨found, next, hfound⟩ := nextWindow_of_refs h (f.session.mask table) f.out.capacity
    (table.table.rows - offset) offset
  have hcapacity : 0 < f.out.capacity := by
    rw [hout, Chunk.capacity_blank]
    omega
  obtain ⟨hmore, hwindow⟩ := nextWindow_offset hfound
  have hspec := nextWindow_ok hcapacity hfound
  simp only [hfound]
  refine .step rfl (.step (a := found) rfl ?_)
  cases found with
  | none =>
    refine .pure ⟨fun _ => ⟨next, rfl⟩, ?_⟩
    rw [hleft _ next rfl]
    show f.out.count + _ ≤ _
    rw [hout, Chunk.count_blank]
    omega
  | some w =>
    obtain ⟨hend, hw⟩ := hspec
    have hbehind := hwindow w rfl
    have hwithin := hw.within
    refine .filling ?_
    show Ends _ f.out _
    rw [hout]
    refine (fillFromWindow_ends h hall hw).mono fun _ d hd => ⟨fun _ => ⟨next, rfl⟩, ?_⟩
    rw [hleft _ next rfl]
    show d.count + _ ≤ _
    omega

/-! ### Filters -/

/-- What the compiler has checked of predicates over an input. -/
def Truths (types : List SqlType) (ps : List Expr) : Prop :=
  ∀ p ∈ ps, p.isPlain = true ∧ ∃ t, p.resolve types = .ok t ∧ (t = .boolean ∨ t = .sqlNull)

theorem keepTrue_ends {ps : List Expr} {c : Chunk} (hc : c.Sound) (hps : Truths c.types ps) :
    Ends (keepTrue ps) c fun _ d => d.count ≤ c.count := by
  induction ps generalizing c with
  | nil => exact .pure (Nat.le_refl _)
  | cons p ps ih =>
    obtain ⟨hplain, t, ht, htruth⟩ := hps p (List.mem_cons_self ..)
    rw [keepTrue]
    refine .step rfl (.lift_bind (Expr.selectRows_yields hc hplain ht htruth) fun kept hkept => ?_)
    have hcount : (c.select kept).count ≤ c.count := by
      rw [← hc.length_activeRows]
      exact hkept.length_le
    have hsound : (c.select kept).Sound := hc.select fun r hr => hc.active_lt (hkept.subset hr)
    refine .step (a := ()) (t := c.select kept) rfl (.step rfl (.ite (fun _ => .pure hcount) fun _ => ?_))
    have hrest : Truths (c.select kept).types ps := fun q hq => hps q (List.mem_cons_of_mem _ hq)
    exact (ih hsound hrest).mono fun _ d hd => Nat.le_trans hd hcount

/-- What work on the chunks of an input leaves, `K` holding of the cells. -/
def Advanced (input : Operator) (K : Cell → List Cell → Prop) (f g : Frame) : Prop :=
  (g.out.isEmpty = false → K g.cell g.below) ∧ g.out.count + input.rowsBelow g.below ≤ input.rowsBelow f.below

/-- Work that ends where the first input does and answers its next chunk elsewhere. -/
theorem ends_taken {K : Cell → List Cell → Prop} {next : Chunk → Pull Unit} (h : Sure T input f.below)
    (hout : f.out.count = 0)
    (hnext : ∀ chunk g, Sure.Fetched T input f chunk g → 0 < chunk.count → Ends (next chunk) g fun _ k =>
      (k.out.isEmpty = false → K k.cell k.below) ∧
        k.out.count + input.rowsBelow k.below ≤ chunk.count + input.rowsBelow g.below) :
    Ends
      (do
        let chunk ← input.fetch
        if chunk.isEmpty then return
        next chunk)
      f fun _ g => Advanced input K f g := by
  refine h.fetch.bind fun chunk g hg => .ite (fun _ => .pure ⟨fun he => ?_, ?_⟩) fun he => ?_
  · rw [hg.out, Chunk.isEmpty, hout] at he
    cases he
  · rw [hg.out, hout]
    have hfewer := hg.fewer
    omega
  · exact (hnext chunk g hg (Chunk.count_pos he)).mono fun _ k hk => ⟨hk.1, Nat.le_trans hk.2 hg.fewer⟩

theorem ends_filterChunks {ps : List Expr} (rounds : Nat) (h : Sure T input f.below) (hout : f.out.count = 0)
    (hrounds : input.rowsBelow f.below < rounds) (hps : Truths input.types ps) :
    Ends (filterChunks input ps rounds) f fun _ g => Advanced input (fun _ below => Sure T input below) f g := by
  -- a chunk of which no row is kept takes rows away, so the rounds suffice
  induction rounds generalizing f with
  | zero => cases hrounds
  | succ rounds ih =>
    refine ends_taken h hout fun chunk g hg hrow => ?_
    have hkept : Ends (do
        modify fun c => c.reference chunk
        keepTrue ps : Filling Unit) g.out fun _ d => d.count ≤ chunk.count := by
      refine .step rfl ((keepTrue_ends (hg.handed.sound.reference _) ?_).mono fun _ d hd => hd)
      exact hg.handed.typed.symm ▸ hps
    refine .filling_bind hkept fun _ d hd => .step rfl (.ite (fun _ => .pure ⟨fun _ => hg.left, ?_⟩) fun _ => ?_)
    · exact Nat.add_le_add_right hd _
    · have hfewer := hg.fewer
      have hfewer : input.rowsBelow g.below < rounds := by omega
      have hrest := ih (f := { g with out := d.reset }) hg.left rfl hfewer
      exact .step rfl (hrest.mono fun _ k hk => ⟨hk.1, Nat.le_trans hk.2 (Nat.le_add_left _ _)⟩)

section
variable (hsees : ∀ masks, T.sees masks) (hverify : config.verify = false) (h : Sure T input input.start.cells)
include hsees hverify h

theorem sure_filter {ps : List Expr} (hps : Truths input.types ps)
    (hgives : Gives T (filter config ps input) (filter config ps input) rows (filter config ps input).start.cells) :
    Sure T (filter config ps input) (filter config ps input).start.cells := by
  refine Sure.of_work (K := fun _ below => Sure T input below) hsees hverify rfl hgives h (fun _ _ => rfl)
    fun f hout hbelow => ?_
  exact .step rfl (ends_filterChunks _ hbelow (hout ▸ rfl) (Nat.lt_succ_self _) hps)

/-! ### Projections and pruning -/

/-- A chunk of the input answered by one with as many rows. -/
theorem sure_mapChunk {op : Operator} {fill : Chunk → Filling Unit} (hpull : op.pull = answer config op.types do
      let chunk ← input.fetch
      if chunk.isEmpty then return
      Pull.filling (fill chunk))
    (hstart : op.start = State.above .none input.start) (hleft : op.rowsLeft = fun s => input.rowsBelow s.below)
    (hgives : Gives T op op rows op.start.cells)
    (hfill : ∀ c : Chunk, c.Sound → c.types = input.types →
      Ends (fill c) (Chunk.blank op.types config.capacity) fun _ d => d.count = c.count) :
    Sure T op op.start.cells := by
  have hbelow (cells : List Cell) (cell : Cell) : op.rowsBelow (cell :: cells) = input.rowsBelow cells := by
    rw [rowsBelow, hleft]
  refine Sure.of_work (K := fun _ below => Sure T input below) hsees hverify hpull hgives ?_ (fun _ _ => ?_)
    fun f hout hinput => ?_
  · rw [hstart]
    exact h
  · rw [hleft]
  · rw [Frame.cells, hbelow]
    refine (ends_taken (K := fun _ below => Sure T input below) hinput (hout ▸ rfl) fun chunk g hg _ => ?_).mono
      fun _ g hg => ⟨hg.1, ?_⟩
    · refine .filling ?_
      rw [hg.out, hout]
      exact (hfill chunk hg.handed.sound hg.handed.typed).mono fun _ d hd =>
        ⟨fun _ => hg.left, Nat.add_le_add_right (Nat.le_of_eq hd) _⟩
    · rw [Frame.cells, hbelow]
      exact hg.2

theorem sure_project {exprs : List Expr} {types : List SqlType} (hplain : ∀ e ∈ exprs, e.isPlain = true)
    (htypes : exprs.mapM (Expr.resolve input.types) = .ok types)
    (hgives : Gives T (project config exprs types input) (project config exprs types input) rows
      (project config exprs types input).start.cells) :
    Sure T (project config exprs types input) (project config exprs types input).start.cells := by
  refine sure_mapChunk hsees hverify h rfl rfl rfl hgives fun c hc ht => ?_
  have hcomputed : Filling.Computes (exprs.map (Expr.evaluate c)) (Chunk.blank types config.capacity).types := by
    rw [Chunk.types_blank, Filling.Computes, List.forall₂_map_left_iff]
    refine (forall₂_mem (mapM_eq_ok_iff.mp htypes)).imp fun e t hmem => ?_
    exact (Expr.evaluate_yields hc (hplain e hmem.1) (ht.symm ▸ hmem.2)).mono fun _ hcol => hcol.1
  exact (Filling.putComputed_whole hcomputed).bind fun _ d _ => .of_ok rfl rfl

theorem sure_prune {k : Nat} (hk : k ≤ input.types.length)
    (hgives : Gives T (prune config k input) (prune config k input) rows (prune config k input).start.cells) :
    Sure T (prune config k input) (prune config k input).start.cells := by
  refine sure_mapChunk hsees hverify h rfl rfl rfl hgives fun c hc ht => ?_
  have hwidth : ¬c.columns.length < k := by
    rw [← ht, Chunk.types, List.length_map] at hk
    omega
  have hkept : (c.columns.take k).map Column.type = (Chunk.blank (input.types.take k) config.capacity).types := by
    rw [Chunk.types_blank, ← ht, Chunk.types, List.map_take]
  unfold pruneChunk
  rw [if_neg hwidth]
  exact (Filling.putAll_whole hkept).bind fun _ d _ => .of_ok rfl rfl

end

/-! ### Limits -/

theorem limitChunk_of_le {c : Chunk} {low high : Nat} (hc : c.Sound) (hlow : low < high) (hhigh : high ≤ c.count)
    (hcount : c.count ≤ maxCount) : ∃ wanted, limitChunk c low high = .ok wanted := by
  unfold limitChunk
  by_cases hall : low = 0 ∧ high = c.count
  · rw [if_pos hall]
    exact ⟨c, rfl⟩
  · rw [if_neg hall]
    exact Chunk.slice_of_le hc (by omega) hcount

/-- The rows that were seen and those that are left can be counted. -/
def Counting (T : Terms) (input : Operator) (cell : Cell) (below : List Cell) : Prop :=
  ∃ seen, cell.progress = .limit seen ∧ Sure T input below ∧ seen + input.rowsBelow below ≤ maxCount

theorem ends_limitChunks {stop : Option Nat} {offset seen : Nat} (rounds : Nat) (h : Sure T input f.below)
    (hout : f.out.count = 0) (hrounds : input.rowsBelow f.below < rounds)
    (hle : seen + input.rowsBelow f.below ≤ maxCount) :
    Ends (limitChunks input stop offset rounds seen) f fun _ g => Advanced input (Counting T input) f g := by
  induction rounds generalizing f seen with
  | zero => cases hrounds
  | succ rounds ih =>
    rw [limitChunks]
    refine .ite (fun _ => .pure ⟨fun he => ?_, ?_⟩) fun _ => ends_taken h hout fun chunk g hg hrow => ?_
    · rw [Chunk.isEmpty, hout] at he
      cases he
    · rw [hout]
      omega
    have hfewer := hg.fewer
    have hcounted : seen + chunk.count + input.rowsBelow g.below ≤ maxCount := by omega
    have hnext := Chunk.addCounts_of_le (Nat.le_trans (Nat.le_add_right _ _) hcounted)
    refine .lift_bind (Q := (· = seen + chunk.count)) (.of_ok hnext rfl) fun next hnext => .step rfl ?_
    subst hnext
    cases hwindow : limitWindow stop offset seen chunk.count with
    | mk low high =>
    simp only
    rw [← hg.handed.sound.length_rows] at hwindow
    obtain ⟨_, _, hhigh⟩ := limitRows_eq_window hwindow
    rw [hg.handed.sound.length_rows] at hhigh
    refine .ite (fun _ => ?_) fun hlt => ?_
    · have hcount : g.out.count = 0 := by rw [hg.out, hout]
      have hfewer : input.rowsBelow g.below < rounds := by omega
      have hrest := ih (f := { g with cell := { g.cell with progress := .limit (seen + chunk.count) } }) hg.left hcount
        hfewer hcounted
      exact hrest.mono fun _ k hk => ⟨hk.1, Nat.le_trans hk.2 (Nat.le_add_left _ _)⟩
    · obtain ⟨wanted, hwanted⟩ := limitChunk_of_le hg.handed.sound (Nat.lt_of_not_le hlt) hhigh (by omega)
      refine .lift_bind (Q := (· = wanted)) (.of_ok hwanted rfl) fun wanted' heq => .of_ok rfl ⟨fun _ => ?_, ?_⟩
      · exact ⟨_, rfl, hg.left, hcounted⟩
      · subst heq
        obtain ⟨_, _, _, hcount, _⟩ := limitChunk_ok hg.handed.sound (Nat.lt_of_not_le hlt) hwanted
        exact Nat.add_le_add_right hcount _

section
variable (hsees : ∀ masks, T.sees masks) (hverify : config.verify = false) (h : Sure T input input.start.cells)
include hsees hverify h

theorem sure_limit {n : Option Nat} {offset : Nat} (hle : input.rowsBelow input.start.cells ≤ maxCount)
    (hgives : Gives T (limit config n offset input) (limit config n offset input) rows
      (limit config n offset input).start.cells) :
    Sure T (limit config n offset input) (limit config n offset input).start.cells := by
  refine Sure.of_work (K := Counting T input) hsees hverify rfl hgives ⟨0, rfl, h, ?_⟩ (fun _ _ => rfl)
    fun f hout hK => ?_
  · rw [Nat.zero_add]
    exact hle
  · obtain ⟨seen, hseen, hinput, hcounted⟩ := hK
    refine .step rfl ?_
    simp only [hseen]
    exact .step rfl (ends_limitChunks _ hinput (hout ▸ rfl) (Nat.lt_succ_self _) hcounted)

end

/-! ### Deletions -/

theorem idsOf_yields {c : Chunk} (hc : c.Sound) (hlast : c.types.getLast? = some .bigInt) :
    Yields Failure.OfData (idsOf c) fun _ => True := by
  rw [Chunk.types, List.getLast?_map] at hlast
  obtain ⟨column, hcol, htype⟩ := Option.map_eq_some_iff.mp hlast
  have hsize : column.size = c.physicalRows := hc.even column (List.mem_of_getLast? hcol)
  unfold idsOf
  rw [hcol]
  simp only
  rw [if_pos ⟨htype, hsize.symm ▸ hc.activeWithin⟩]
  trivial

theorem ends_deleteChunks {table : Provider} (hlast : input.types.getLast? = some .bigInt) (rounds deleted : Nat)
    (h : Sure T input f.below) (hrounds : input.rowsBelow f.below < rounds) :
    Ends (deleteChunks table input rounds deleted) f fun _ g => g.out = f.out := by
  induction rounds generalizing f deleted with
  | zero => cases hrounds
  | succ rounds ih =>
    rw [deleteChunks]
    refine h.fetch.bind fun chunk g hg => .ite (fun _ => .pure hg.out) fun he => ?_
    have hrow := Chunk.count_pos he
    have hfewer := hg.fewer
    refine .lift_bind (idsOf_yields hg.handed.sound (hg.handed.typed.symm ▸ hlast)) fun ids _ => ?_
    have hdeleted : Ends (deleteIds table ids) g fun _ k => k.out = g.out ∧ k.below = g.below := by
      unfold deleteIds
      exact .step rfl (.step rfl (.liftQuery ((Table.delete_yields ..).mono fun _ _ => ⟨rfl, rfl⟩)))
    refine hdeleted.bind fun count k hk => ?_
    obtain ⟨hout, hbelow⟩ := hk
    have hrest := ih (f := k) (deleted + count) (hbelow.symm ▸ hg.left) (by rw [hbelow]; omega)
    exact hrest.mono fun _ k' hk' => hk'.trans (hout.trans hg.out)

theorem sure_delete (hsees : ∀ masks, T.sees masks) (hverify : config.verify = false)
    (h : Sure T input input.start.cells) {table : Provider} (hlast : input.types.getLast? = some .bigInt)
    (hgives : Gives T (delete config table input) (delete config table input) rows
      (delete config table input).start.cells) :
    Sure T (delete config table input) (delete config table input).start.cells := by
  have hleft (g : Frame) (done : Bool) (hp : g.cell.progress = .delete done) :
      (delete config table input).rowsBelow g.cells = if done then 0 else 1 := by
    simp only [Frame.cells, rowsBelow, delete, hp]
  refine Sure.of_work (K := fun cell below => (cell.progress = .delete false ∧ Sure T input below) ∨
    cell.progress = .delete true) hsees hverify rfl hgives (.inl ⟨rfl, h⟩) (fun _ _ => rfl) fun f hout hK => ?_
  refine .step rfl ?_
  rcases hK with ⟨hp, hinput⟩ | hp
  · simp only [hp]
    rw [hleft f false hp]
    refine .step rfl ((ends_deleteChunks hlast _ 0 hinput (Nat.lt_succ_self _)).bind fun deleted g hg => ?_)
    refine .step rfl (.filling ?_)
    show Ends _ g.out _
    rw [hg, hout]
    have htype : (Chunk.blank (delete config table input).types config.capacity).types[0]? =
        some (Column.ofInts [Int64.ofNat deleted]).type := congrArg (·[0]?) (Chunk.types_blank _ _)
    refine (Filling.put_of_type htype).bind fun _ d _ => .of_ok rfl ⟨fun _ => .inr rfl, ?_⟩
    rw [hleft _ true rfl]
    exact Nat.le_refl _
  · simp only [hp]
    refine .pure ⟨fun _ => .inr hp, Nat.le_of_eq ?_⟩
    rw [hout, Chunk.count_blank, Nat.zero_add]

end Operator
end QueryEngine
