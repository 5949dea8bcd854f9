import QueryEngine.Proofs.Chunk.Filled
import QueryEngine.Proofs.Pull.Gives
import QueryEngine.Pull.Buffered

/-! What operators give that read their whole input first.

All of them hand out an output that is computed once, from all rows of the input, and
kept in the cell (`Buffered`). What is left to show of each is what it computes. -/
namespace QueryEngine

/-- The rows of an output. Columns are only asked for where there are rows. -/
structure Output.Holds (o : Output) (types : List SqlType) (rows : List Row) : Prop where
  lists : 0 < o.rows → Lists o.columns types rows
  counted : o.rows = rows.length

/-- What is left of an output that waits in the cell, or of the input that it will be
computed from. -/
def Buffered (T : Terms) (in₁ in₂ : Operator) (keep : Option Output → Progress) (types : List SqlType)
    (F : List Row → List Row) (rows : List Row) (cell : Cell) (below : List Cell) : Prop :=
  (cell.progress = keep none ∧ Through T in₁ in₂ F rows cell below) ∨
    ∃ o all, cell.progress = keep (some o) ∧ o.Holds types all ∧ (T.told → rows = all.drop o.position)

/-- What computing an output leaves. -/
structure Computed (T : Terms) (types : List SqlType) (F : List Row → List Row) (given : List Row) (f : Frame)
    (o : Output) (g : Frame) : Prop where
  sees : T.sees g.session.masks
  out : g.out = f.out
  unfinished : g.cell.finished = f.cell.finished
  position : o.position = 0
  holds : ∃ all, o.Holds types all ∧ (T.told → all = F given)

/-- What computing an output from all rows of the input leaves, `P` telling of the rows, of
the columns that list them and of the output. -/
structure OfRows (T : Terms) (types : List SqlType) (P : List Row → List Column → Output → Prop) (given : List Row)
    (f : Frame) (o : Output) (g : Frame) : Prop where
  sees : T.sees g.session.masks
  out : g.out = f.out
  unfinished : g.cell.finished = f.cell.finished
  made : ∃ all cs, Lists cs types all ∧ (T.told → all = given) ∧ P all cs o

namespace Operator

/-- A piece of an output, as a chunk. -/
theorem fillPiece_ok {o : Output} {types : List SqlType} {all : List Row} {capacity len : Nat} {d : Chunk}
    (ho : Lists o.columns types all)
    (h : (do
      Filling.putComputed 0 (o.columns.map fun (c : Column) => c.slice o.position len)
      modify fun c => c.setCount len : Filling Unit) (Chunk.blank types capacity) = .ok () d) :
    d.Sound ∧ d.types = types ∧ d.count = len ∧ d.activeRows = List.range len ∧
      (o.position + len ≤ all.length → d.rows = (all.drop o.position).take len) := by
  obtain ⟨_, filled, hput, hrest⟩ := run_bind_eq_ok.mp h
  cases hrest
  obtain ⟨cs, hcs, hput⟩ := Filling.putComputed_ok hput
  have hslices := mapM_eq_ok_iff_map.mpr hcs
  obtain ⟨rfl, htyped⟩ := Filling.putAll_blank (by rw [length_of_mapM hslices, ho.length]) hput
  have hre := Rearranged.of_slice hslices
  refine ⟨Chunk.sound_flat hre.size, htyped, rfl, rfl, fun hle => ?_⟩
  apply List.ext_getElem
  · rw [List.length_take, List.length_drop, Chunk.rows, List.length_map]
    show (List.range len).length = _
    rw [List.length_range]
    omega
  · intro i hi hi'
    have hlt : i < len := by
      rw [List.length_take] at hi'
      omega
    have hin : o.position + i < all.length := by omega
    have hrow := ho.row (List.getElem?_eq_getElem hin)
    rw [List.getElem_take, List.getElem_drop, ← hrow, ← hre.datum i hlt]
    simp [Chunk.rows, Chunk.row, Chunk.setCount, Chunk.activeRows]

section
variable {T : Terms} {in₁ in₂ : Operator} {keep : Option Output → Progress} {types : List SqlType}
  {F : List Row → List Row} {f : Frame} {rows : List Row}

theorem agree_handOut {o : Output} {all : List Row} (hf : f.cell.finished = false)
    (hout : f.out = Chunk.blank types T.capacity) (hs : T.sees f.session.masks) (ho : o.Holds types all)
    (hrows : T.told → rows = all.drop o.position) :
    Pull.Agree (handOut keep o) (handOut keep o) f fun _ g => Worked T types (Buffered T in₁ in₂ keep types F) rows g := by
  unfold handOut
  refine Pull.Agree.ite (fun hend => ?_) fun hmore => Pull.Agree.step rfl ?_
  · refine Pull.Agree.pure (Worked.none hout hf hs fun ht => ?_)
    rw [hrows ht, List.drop_of_length_le (by rw [← ho.counted]; exact hend)]
  have hlists := ho.lists (by omega)
  have hcounted := ho.counted
  have hlen : 0 < min f.out.capacity (o.rows - o.position) := by
    rw [hout, Chunk.capacity_blank]
    omega
  generalize hl : min f.out.capacity (o.rows - o.position) = len at hlen
  have hcap : len ≤ max T.capacity 1 := by
    rw [← hl, hout, Chunk.capacity_blank]
    exact Nat.min_le_left _ _
  refine (Pull.Agree.filling (Q := fun _ g => ∃ d, g = { f with out := d } ∧ d.Sound ∧ d.types = types ∧
    d.count = len ∧ d.activeRows = List.range len ∧ d.rows = (all.drop o.position).take len) fun _ d hd => ?_).bind
    fun _ g ⟨d, hg, hsound, htyped, hcount, hactive, hdrows⟩ => ?_
  · rw [hout] at hd
    obtain ⟨hsound, htyped, hcount, hactive, hdrows⟩ := fillPiece_ok hlists hd
    exact ⟨d, rfl, hsound, htyped, hcount, hactive, hdrows (by omega)⟩
  · subst hg
    refine Pull.Agree.last rfl ⟨⟨hsound, htyped, fun _ => ⟨?_, ?_⟩⟩, hs, hf, fun he => ?_, fun _ =>
      ⟨_, .inr ⟨_, all, rfl, ⟨ho.lists, ho.counted⟩, fun _ => rfl⟩, fun ht => ?_⟩⟩
    · rw [hcount]
      exact hcap
    · rw [hactive]
      exact List.pairwise_lt_range
    · have he : d.count = 0 := by simpa [Chunk.isEmpty] using he
      omega
    · show rows = d.rows ++ all.drop (o.position + len)
      rw [hrows ht, hdrows, ← List.drop_drop, List.take_append_drop]

/-- The first pull computes the output and hands out from it. -/
theorem agree_firstOutput {compute₁ compute₂ : Pull Output}
    (hcompute : ∀ (f : Frame) given, Gives T in₁ in₂ given f.below → T.sees f.session.masks →
      Pull.Agree compute₁ compute₂ f (Computed T types F given f))
    (hf : f.cell.finished = false) (hout : f.out = Chunk.blank types T.capacity) (hs : T.sees f.session.masks)
    (h : Through T in₁ in₂ F rows f.cell f.below) :
    Pull.Agree (do handOut keep (← firstOutput keep compute₁)) (do handOut keep (← firstOutput keep compute₂)) f
      fun _ g => Worked T types (Buffered T in₁ in₂ keep types F) rows g := by
  obtain ⟨given, hgiven, hrows⟩ := h
  have hbuffered : Pull.Agree (Pull.buffering compute₁) (Pull.buffering compute₂) f (Computed T types F given f) :=
    Pull.Agree.buffering ((hcompute f given hgiven hs).mono fun o g hg =>
      ⟨hg.sees, hg.out, hg.unfinished, hg.position, hg.holds⟩)
  have hfirst : Pull.Agree (firstOutput keep compute₁) (firstOutput keep compute₂) f (Computed T types F given f) := by
    unfold firstOutput
    refine hbuffered.bind fun o g hg => Pull.Agree.step rfl (Pull.Agree.pure ?_)
    exact ⟨hg.sees, hg.out, hg.unfinished, hg.position, hg.holds⟩
  refine hfirst.bind fun o g hg => ?_
  obtain ⟨all, hall, htold⟩ := hg.holds
  refine agree_handOut (hg.unfinished.trans hf) (hg.out.trans hout) hg.sees hall fun ht => ?_
  rw [hrows ht, htold ht, hg.position, List.drop_zero]

theorem agree_drainOwn {given : List Row} (name : String) (h : Gives T in₁ in₂ given f.below)
    (hs : T.sees f.session.masks) :
    Pull.Agree (drainOwn name in₁) (drainOwn name in₂) f (Gives.Drained T in₁.types [] given f) := by
  unfold drainOwn
  refine Pull.Agree.step rfl (Pull.Agree.ite (fun _ => ?_) fun _ => h.drain hs)
  exact Pull.Agree.bind (Q := fun _ _ => False) Pull.Agree.fail fun _ _ h => h.elim

end

/-! ### Sorting -/

/-- The rows in order, if they can be put in order. -/
def sortRows (keys : List SortKey) (types : List SqlType) (rows : List Row) : List Row :=
  match Rows.sortColumns keys (Column.ofRows types rows) with
  | .ok columns => Column.toRows columns rows.length
  | .error _ => []

theorem length_sort {columns : List SortColumn} {rows sorted : List Nat} (h : Rows.sort columns rows = .ok sorted) :
    sorted.length = rows.length := by
  unfold Rows.sort at h
  split at h
  · cases h
  · cases h
    exact List.length_mergeSort _

theorem sortColumns_ok {keys : List SortKey} {types : List SqlType} {rows : List Row} {cs ds : List Column}
    (hcs : Lists cs types rows) (h : Rows.sortColumns keys cs = .ok ds) :
    Lists ds types (sortRows keys types rows) ∧ (sortRows keys types rows).length = rows.length := by
  have hrows : sortRows keys types rows = Column.toRows ds rows.length := by
    rw [sortRows, ← hcs.eq_ofRows, h]
  suffices ds.map Column.type = types ∧ ∀ d ∈ ds, d.size = rows.length by
    rw [hrows]
    exact ⟨Lists.of_sizes this.1 this.2, Column.length_toRows _ _⟩
  unfold Rows.sortColumns at h
  by_cases hk : keys.isEmpty = true
  · rw [if_pos hk] at h
    cases h
    exact ⟨hcs.typed, fun _ hd => hcs.size hd⟩
  rw [if_neg hk] at h
  obtain ⟨input, hinput, h⟩ := bind_eq_ok.mp h
  obtain ⟨sortColumns, _, h⟩ := bind_eq_ok.mp h
  obtain ⟨sorted, hsorted, h⟩ := bind_eq_ok.mp h
  have hcount : input.count = cs.head?.elim 0 Column.size := by
    obtain ⟨_, _, hinput⟩ := bind_eq_ok.mp (lift_eq_ok.mp hinput)
    cases hinput
    rfl
  have hre := Rearranged.of_gather h
  refine ⟨hre.types.trans hcs.typed, fun d hd => ?_⟩
  rw [hre.size d hd, length_sort hsorted, List.length_range, hcount]
  cases cs with
  | nil =>
    cases h
    cases hd
  | cons c cs => exact hcs.size (List.mem_cons_self ..)

section
variable {T : Terms} {in₁ in₂ : Operator} {given : List Row} {f : Frame}

theorem agree_sortInput_made (keys : List SortKey) (h : Gives T in₁ in₂ given f.below) (hs : T.sees f.session.masks) :
    Pull.Agree (sortInput keys in₁) (sortInput keys in₂) f
      (OfRows T in₁.types (fun all cs o => ∃ ds, Rows.sortColumns keys cs = .ok ds ∧ o = ⟨ds, all.length, 0⟩) given f) := by
  refine (agree_drainOwn "Order" h hs).bind fun buffered g hg => ?_
  obtain ⟨all, hall, htold⟩ := hg.holds
  obtain ⟨held, hcell⟩ := hg.cell
  refine Pull.Agree.lift_bind fun columns hcolumns => Pull.Agree.lift_bind fun sorted hsorted => ?_
  refine Pull.Agree.pure ⟨hg.sees, hg.out, by rw [hcell], all, columns, hall.materialize hcolumns, htold, sorted, hsorted, ?_⟩
  rw [hall.counted]

theorem agree_sortInput (keys : List SortKey) (h : Gives T in₁ in₂ given f.below) (hs : T.sees f.session.masks) :
    Pull.Agree (sortInput keys in₁) (sortInput keys in₂) f
      (Computed T in₁.types (sortRows keys in₁.types) given f) := by
  refine (agree_sortInput_made keys h hs).mono fun o g hg => ?_
  obtain ⟨all, cs, hcs, htold, ds, hds, rfl⟩ := hg.made
  obtain ⟨hlists, hlength⟩ := sortColumns_ok hcs hds
  exact ⟨hg.sees, hg.out, hg.unfinished, rfl, sortRows keys in₁.types all, ⟨fun _ => hlists, hlength.symm⟩,
    fun ht => by rw [htold ht]⟩

theorem gives_order {c₁ c₂ : Config} (h₁ : c₁.capacity = T.capacity) (h₂ : c₂.capacity = T.capacity)
    (keys : List SortKey) (h : Gives T in₁ in₂ given in₁.start.cells) :
    Gives T (order c₁ keys in₁) (order c₂ keys in₂) (sortRows keys in₁.types given)
      (order c₁ keys in₁).start.cells := by
  have halike : Alike (order c₁ keys in₁) (order c₂ keys in₂) :=
    ⟨rfl, h.alike.types, congrArg (State.above (.order none)) h.alike.start, by simp only [order, h.alike.outputLeft]⟩
  refine Gives.of_work (K := Buffered T in₁ in₂ .order in₁.types (sortRows keys in₁.types)) halike h₁ h₂ rfl rfl
    (fun f rows hf hout hK hs => ?_) rfl (.inl ⟨rfl, given, h, fun _ => rfl⟩)
  refine Pull.Agree.step rfl ?_
  rcases hK with ⟨hp, hK⟩ | ⟨o, all, hp, ho, hrows⟩
  · simp only [hp]
    exact agree_firstOutput (fun f given h hs => agree_sortInput keys h hs) hf hout hs hK
  · simp only [hp]
    exact agree_handOut hf hout hs ho hrows

end

/-! ### Windows -/

/-- The columns of the calls over all rows. -/
def callColumns (calls : List WindowCall) (columns : List Column) (rows : Nat) : Except Failure (List Column) := do
  let chunk ← Chunk.ofColumns columns
  calls.mapM (WindowCall.evaluate · (chunk.setCount rows))

/-- The rows with the values of the calls behind them, if they have any. -/
def windowRows (calls : List WindowCall) (types : List SqlType) (rows : List Row) : List Row :=
  match callColumns calls (Column.ofRows types rows) rows.length with
  | .ok results => Column.toRows (Column.ofRows types rows ++ results) rows.length
  | .error _ => []

theorem length_inRowOrder (count : Nat) (values : List WindowCall.RowValue) :
    (WindowCall.inRowOrder count values).length = count := by
  simp [WindowCall.inRowOrder, size_writes]

theorem evaluate_call_ok {w : WindowCall} {chunk : Chunk} {column : Column} (h : w.evaluate chunk = .ok column) :
    column.type = w.type ∧ column.size = chunk.count := by
  obtain ⟨_, _, h⟩ := bind_eq_ok.mp h
  obtain ⟨_, _, h⟩ := bind_eq_ok.mp h
  obtain ⟨_, _, h⟩ := bind_eq_ok.mp h
  obtain ⟨_, _, h⟩ := bind_eq_ok.mp h
  obtain ⟨_, _, h⟩ := bind_eq_ok.mp h
  obtain ⟨htype, hsize⟩ := Column.ofScalars_ok (lift_eq_ok.mp h)
  exact ⟨htype, hsize.trans (length_inRowOrder _ _)⟩

theorem callColumns_ok {calls : List WindowCall} {columns results : List Column} {rows : Nat}
    (h : callColumns calls columns rows = .ok results) :
    results.map Column.type = calls.map WindowCall.type ∧ ∀ c ∈ results, c.size = rows := by
  obtain ⟨chunk, _, hresults⟩ := bind_eq_ok.mp h
  clear h
  refine ⟨?_, fun c hc => ?_⟩
  · have hall := mapM_eq_ok_iff.mp hresults
    clear hresults
    induction hall with
    | nil => rfl
    | cons hc _ ih => rw [List.map_cons, List.map_cons, (evaluate_call_ok hc).1, ih]
  · obtain ⟨w, _, hw⟩ := mem_of_mapM hresults hc
    exact (evaluate_call_ok hw).2

theorem placedCalls_eq (calls : List WindowCall) (input : Operator) :
    placedCalls calls input input.types.length = .ok calls := by
  unfold placedCalls
  simp only [List.drop_left]
  rw [if_neg (by omega)]
  congr 1
  induction calls with
  | nil => rfl
  | cons w calls ih => rw [List.map_cons, List.zip_cons_cons, List.map_cons, ih]

section
variable {T : Terms} {in₁ in₂ : Operator} {given : List Row} {f : Frame}

theorem agree_windowColumns (chunk : Chunk) (calls : List WindowCall) :
    Pull.Agree (windowColumns chunk calls) (windowColumns chunk calls) f fun results g =>
      calls.mapM (WindowCall.evaluate · chunk) = .ok results ∧ Pull.Booked f g := by
  induction calls generalizing f with
  | nil => exact Pull.Agree.pure ⟨rfl, Pull.Booked.self f⟩
  | cons w calls ih =>
    rw [windowColumns]
    refine Pull.Agree.lift_bind fun column hcolumn => ?_
    refine (Pull.Agree.reserve _).bind fun _ g hg => ?_
    refine ih.bind fun results g' ⟨hresults, hg'⟩ => Pull.Agree.pure ⟨?_, hg.trans hg'⟩
    rw [List.mapM_cons, hcolumn, ok_bind, hresults]
    rfl

theorem lists_window {calls : List WindowCall} {types : List SqlType} {rows : List Row} {cs results : List Column}
    (hcs : Lists cs types rows) (h : callColumns calls cs rows.length = .ok results) :
    Lists (cs ++ results) (types ++ calls.map WindowCall.type) (windowRows calls types rows) ∧
      (windowRows calls types rows).length = rows.length := by
  have hrows : windowRows calls types rows = Column.toRows (cs ++ results) rows.length := by
    rw [windowRows, ← hcs.eq_ofRows, h]
  obtain ⟨htypes, hsize⟩ := callColumns_ok h
  rw [hrows]
  refine ⟨Lists.of_sizes (by rw [List.map_append, hcs.typed, htypes]) fun c hc => ?_, Column.length_toRows _ _⟩
  rcases List.mem_append.mp hc with hc | hc
  · exact hcs.size hc
  · exact hsize c hc

theorem windowRows_nil (calls : List WindowCall) (types : List SqlType) : windowRows calls types [] = [] := by
  unfold windowRows
  split <;> rfl

/-- What the calls make of all rows. Without rows they are not evaluated. -/
def Extended (calls : List WindowCall) (all : List Row) (cs : List Column) (o : Output) : Prop :=
  (all = [] ∧ o = ⟨cs, 0, 0⟩) ∨
    ∃ results, callColumns calls cs all.length = .ok results ∧ o = ⟨cs ++ results, all.length, 0⟩

theorem agree_windowInput_made (calls : List WindowCall) (h : Gives T in₁ in₂ given f.below)
    (hs : T.sees f.session.masks) :
    Pull.Agree (windowInput calls in₁) (windowInput calls in₂) f (OfRows T in₁.types (Extended calls) given f) := by
  refine (agree_drainOwn "Window" h hs).bind fun buffered g hg => ?_
  obtain ⟨all, hall, htold⟩ := hg.holds
  obtain ⟨held, hcell⟩ := hg.cell
  have hfinished : g.cell.finished = f.cell.finished := by rw [hcell]
  have htold : T.told → all = given := htold
  refine Pull.Agree.lift_bind fun columns hcolumns => ?_
  have hlists := hall.materialize hcolumns
  refine Pull.Agree.ite (fun he => ?_) fun he => ?_
  · have hnone : all = [] := by
      rw [← List.length_eq_zero_iff, ← hall.counted]
      simpa [Collection.isEmpty] using he
    exact Pull.Agree.pure ⟨hg.sees, hg.out, hfinished, all, columns, hlists, htold, .inl ⟨hnone, rfl⟩⟩
  · refine Pull.Agree.liftQuery_bind fun chunk hchunk => ?_
    have hplaced : placedCalls calls in₂ in₁.types.length = .ok calls := by
      rw [← h.alike.types]
      exact placedCalls_eq calls in₂
    rw [hlists.length, placedCalls_eq, hplaced]
    refine Pull.Agree.lift_bind fun placed hplaced => ?_
    cases hplaced
    refine (agree_windowColumns _ calls).bind fun results g' ⟨hresults, hbooked⟩ => ?_
    obtain ⟨_, _, rfl⟩ := hbooked
    have hcall : callColumns calls columns all.length = .ok results := by
      rw [callColumns, hchunk, lift_ok, ok_bind, ← hall.counted]
      exact hresults
    exact Pull.Agree.pure ⟨hg.sees, hg.out, hfinished, all, columns, hlists, htold, .inr ⟨results, hcall, by rw [hall.counted]⟩⟩

theorem agree_windowInput (calls : List WindowCall) (h : Gives T in₁ in₂ given f.below) (hs : T.sees f.session.masks) :
    Pull.Agree (windowInput calls in₁) (windowInput calls in₂) f
      (Computed T (in₁.types ++ calls.map WindowCall.type) (windowRows calls in₁.types) given f) := by
  refine (agree_windowInput_made calls h hs).mono fun o g hg => ?_
  obtain ⟨all, cs, hcs, htold, ⟨rfl, rfl⟩ | ⟨results, hresults, rfl⟩⟩ := hg.made
  · refine ⟨hg.sees, hg.out, hg.unfinished, rfl, [], ⟨fun h => (by cases h), rfl⟩, fun ht => ?_⟩
    rw [← htold ht, windowRows_nil]
  · obtain ⟨hwindow, hlength⟩ := lists_window hcs hresults
    exact ⟨hg.sees, hg.out, hg.unfinished, rfl, windowRows calls in₁.types all, ⟨fun _ => hwindow, hlength.symm⟩,
      fun ht => by rw [htold ht]⟩

theorem gives_window {c₁ c₂ : Config} (h₁ : c₁.capacity = T.capacity) (h₂ : c₂.capacity = T.capacity)
    (calls : List WindowCall) (h : Gives T in₁ in₂ given in₁.start.cells) :
    Gives T (window c₁ calls in₁) (window c₂ calls in₂) (windowRows calls in₁.types given)
      (window c₁ calls in₁).start.cells := by
  have halike : Alike (window c₁ calls in₁) (window c₂ calls in₂) :=
    ⟨rfl, congrArg (· ++ calls.map WindowCall.type) h.alike.types, congrArg (State.above (.window none)) h.alike.start,
      by simp only [window, h.alike.outputLeft]⟩
  refine Gives.of_work (K := Buffered T in₁ in₂ .window (in₁.types ++ calls.map WindowCall.type)
    (windowRows calls in₁.types)) halike h₁ h₂ rfl rfl (fun f rows hf hout hK hs => ?_) rfl
    (.inl ⟨rfl, given, h, fun _ => rfl⟩)
  refine Pull.Agree.step rfl ?_
  rcases hK with ⟨hp, hK⟩ | ⟨o, all, hp, ho, hrows⟩
  · simp only [hp]
    exact agree_firstOutput (fun f given h hs => agree_windowInput calls h hs) hf hout hs hK
  · simp only [hp]
    exact agree_handOut hf hout hs ho hrows

end

end Operator
end QueryEngine
