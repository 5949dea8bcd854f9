import QueryEngine.Proofs.Join.Hash
import QueryEngine.Proofs.Pull.Reads
import QueryEngine.Proofs.Pull.Streaming

/-! Operators that answer each chunk of their input by one of their own.

A projection and a pruning give a chunk columns of their own and leave it its rows: those
are as many, and the selection is the very same, also where no column is left to tell how
many there are (`Aligned`). A run hands out one chunk for each that the input has handed out
with rows, in their order, and ends when the input does (`HandsMapped`). The first columns
of an input are projected from it as they are pruned from it (`prune_pull`). -/
namespace QueryEngine.Operator
open Pull

/-! ### One chunk -/

/-- A chunk with the rows of another, active ones and hidden ones in the same places. -/
structure Aligned (c d : Chunk) : Prop where
  sound : d.Sound
  count : d.count = c.count
  selection : d.selection = c.selection

/-- On every active row each column has the value that its expression has on that row. -/
structure Projected (exprs : List Expr) (c d : Chunk) : Prop extends Aligned c d where
  values : List.Forall₂ (fun e (column : Column) => ∀ r ∈ c.activeRows, e.onRow (c.row r) = .ok (column.datum r)) exprs d.columns

structure Pruned (limit : Nat) (c d : Chunk) : Prop extends Aligned c d where
  columns : d.columns = c.columns.take limit

section
variable {types : List SqlType} {capacity : Nat} {c d : Chunk}

theorem projectChunk_projected {exprs : List Expr} (hc : c.Sound) (hlen : exprs.length = types.length)
    (h : projectChunk exprs c (Chunk.blank types capacity) = .ok () d) : Projected exprs c d := by
  obtain ⟨_, filled, hput, hrest⟩ := run_bind_eq_ok.mp h
  cases hrest
  obtain ⟨cs, hcs, hput⟩ := Filling.putComputed_ok hput
  have hcomputed := mapM_eq_ok_iff_map.mpr hcs
  obtain ⟨rfl, _⟩ := Filling.putAll_blank (by rw [length_of_mapM hcomputed, hlen]) hput
  refine ⟨⟨hc.setCountFrom (Expr.evaluateAll_ok hc hcomputed).1, rfl, rfl⟩, ?_⟩
  exact (mapM_eq_ok_iff.mp hcomputed).imp fun e column he => (Expr.evaluate_rowwise hc he).value

theorem pruneChunk_pruned {limit : Nat} (hc : c.Sound) (ht : c.types = types)
    (h : pruneChunk limit c (Chunk.blank (types.take limit) capacity) = .ok () d) : Pruned limit c d := by
  unfold pruneChunk at h
  by_cases hlimit : c.columns.length < limit
  · rw [if_pos hlimit] at h
    cases h
  rw [if_neg hlimit] at h
  obtain ⟨_, filled, hput, hrest⟩ := run_bind_eq_ok.mp h
  cases hrest
  have hlen : (c.columns.take limit).length = (types.take limit).length := by
    rw [← ht, Chunk.types, ← List.map_take, List.length_map]
  obtain ⟨rfl, _⟩ := Filling.putAll_blank hlen hput
  exact ⟨⟨hc.setCountFrom fun column hcol => hc.even column (List.mem_of_mem_take hcol), rfl, rfl⟩, rfl⟩

end

/-! ### Runs -/

/-- Answers the next chunk of the input by one filled from it. -/
def answerChunk (input : Operator) (fill : Chunk → Filling Unit) : Pull Unit := do
  let chunk ← input.fetch
  if chunk.isEmpty then return
  filling (fill chunk)

/-- What a run has done that answers every chunk of an input by one that is related to it. -/
structure HandsMapped (R : Chunk → Chunk → Prop) (input : Operator) (sees : List (Nat × Mask) → Prop)
    (fed chunks : List Chunk) (s : State) : Prop where
  read : input.Reads sees input.start.cells fed s.below
  /-- One chunk for each that has rows. -/
  mapped : List.Forall₂ R (withRows fed) (withRows chunks)
  /-- Empty chunks come last. -/
  unbroken : chunks.Pairwise fun c d => c.isEmpty = true → d.isEmpty = true
  /-- It ends where the input does. -/
  ends : (∃ c ∈ chunks, c.isEmpty = true) ↔ ∃ c ∈ fed, c.isEmpty = true

section
variable {config : Config} {input op : Operator} {sees : List (Nat × Mask) → Prop} {R : Chunk → Chunk → Prop}
  {types : List SqlType} {fill : Chunk → Filling Unit} {fed outs chunks : List Chunk}

/-- As long as the input has handed out chunks with rows only. -/
structure Mapped (R : Chunk → Chunk → Prop) (fed outs : List Chunk) : Prop where
  related : List.Forall₂ R fed outs
  full : ∀ c ∈ fed, c.isEmpty = false

/-- One chunk read and answered. -/
theorem logs_answerChunk {f : Frame} (hR : ∀ c d, R c d → Aligned c d)
    (hfill : ∀ c d, c.Sound → c.types = input.types → fill c f.out = .ok () d → R c d) (hin : input.Proper sees f.below)
    (hs : sees f.session.masks) (hf : f.cell.finished = false) (hout : f.out.Sound) (he : f.out.isEmpty = true)
    (hK : Mapped R fed outs) :
    Pull.Agree (answerChunk input fill) (answerChunk input fill) f
      fun _ g => Logs input sees (fun fed outs _ => Mapped R fed outs)
        (fun fed outs => List.Forall₂ R (withRows fed) outs ∧ ∃ c ∈ fed, c.isEmpty = true) fed outs f g := by
  refine (hin.fetch hs).bind fun chunk g hg => ?_
  have hfg : g.cell.finished = false := by rw [hg.cell]; exact hf
  refine Pull.Agree.ite (fun hlast => Pull.Agree.pure ⟨hg.out.symm ▸ hout, hfg, [chunk], hg.reads, fun _ => ?_, fun hfull => ?_⟩)
    fun hrows => Pull.Agree.filling fun _ d hd => ?_
  · have hnone : withRows [chunk] = [] := withRows_of_empty (List.forall_mem_singleton.mpr hlast)
    rw [withRows_append, withRows_of_full hK.full, hnone, List.append_nil]
    exact ⟨hK.related, chunk, List.mem_append_right _ (List.mem_singleton_self _), hlast⟩
  · rw [hg.out, he] at hfull
    cases hfull
  · have hfull : chunk.isEmpty = false := by simpa using hrows
    have hrel := hfill chunk d hg.sound hg.typed (hg.out ▸ hd)
    have haligned := hR chunk d hrel
    refine ⟨haligned.sound, hfg, [chunk], hg.reads, fun hnone => ?_, fun _ => ?_⟩
    · have hsame : d.isEmpty = chunk.isEmpty := by rw [Chunk.isEmpty, Chunk.isEmpty, haligned.count]
      cases hnone.symm.trans (hsame.trans hfull)
    · exact ⟨List.rel_append hK.related (.cons hrel .nil),
        List.forall_mem_append.mpr ⟨hK.full, List.forall_mem_singleton.mpr hfull⟩⟩

theorem handsMapped (hpull : op.pull = answer config types (answerChunk input fill))
    (hstart : op.start = State.above .none input.start) (hR : ∀ c d, R c d → Aligned c d)
    (hfill : ∀ c d, c.Sound → c.types = input.types → fill c (Chunk.blank types config.capacity) = .ok () d → R c d)
    (hin : input.Proper sees input.start.cells) {s : State} (hp : op.Pulls sees op.start chunks s) :
    ∃ fed, HandsMapped R input sees fed chunks s := by
  have hwork (f : Frame) (fed outs : List Chunk) (hf : f.cell.finished = false)
      (hout : f.out = Chunk.blank types config.capacity) (hK : Mapped R fed outs)
      (hin : input.Proper sees f.below) (hs : sees f.session.masks) :=
    logs_answerChunk (f := f) hR (fun c d hc ht hd => hfill c d hc ht (hout ▸ hd)) hin hs hf
      (hout ▸ Chunk.sound_blank _ _) (hout ▸ rfl) hK
  obtain ⟨fed, hread, hlog⟩ := pulls_logged (K := fun fed outs _ => Mapped R fed outs) hpull hwork hstart hin
    ⟨.nil, List.forall_mem_nil _⟩ hp
  by_cases hall : ∀ c ∈ chunks, c.isEmpty = false
  · obtain ⟨_, hmapped⟩ := hlog.ongoing hall
    refine ⟨fed, hread, ?_, hlog.unbroken, ?_⟩
    · rw [withRows_of_full hall, withRows_of_full hmapped.full]
      exact hmapped.related
    · constructor
      · rintro ⟨c, hc, he⟩
        cases (hall c hc).symm.trans he
      · rintro ⟨c, hc, he⟩
        cases (hmapped.full c hc).symm.trans he
  · have hend : ∃ c ∈ chunks, c.isEmpty = true := by simpa using hall
    obtain ⟨_, hrelated, hlast⟩ := hlog.ended hend
    exact ⟨fed, hread, hrelated, hlog.unbroken, fun _ => hlast, fun _ => hend⟩

end

/-! ### Pruning as projecting -/

/-- A reference to every column of some types. -/
def columnsOf (types : List SqlType) : List Expr := types.zipIdx.map fun field => .column field.2 field.1

@[simp] theorem length_columnsOf (types : List SqlType) : (columnsOf types).length = types.length := by simp [columnsOf]

theorem evaluate_columnsOf (c : Chunk) (limit : Nat) :
    (columnsOf (c.types.take limit)).map (Expr.evaluate c) = (c.columns.take limit).map Except.ok := by
  apply List.ext_getElem
  · simp [Chunk.types]
  · intro i hi hi'
    have hlt : i < c.columns.length := by
      simp only [List.length_map, List.length_take] at hi'
      omega
    simp [columnsOf, Expr.evaluate, List.getElem?_eq_getElem hlt]

theorem pruneChunk_eq {limit : Nat} {c : Chunk} (h : limit ≤ c.types.length) :
    pruneChunk limit c = projectChunk (columnsOf (c.types.take limit)) c := by
  have hlimit : ¬c.columns.length < limit := by simpa [Chunk.types] using h
  rw [pruneChunk, if_neg hlimit, projectChunk, evaluate_columnsOf, Filling.putAll_eq_putComputed]

section
variable {config : Config} {input : Operator} {sees : List (Nat × Mask) → Prop} {limit : Nat}

/-- Over sound chunks of the input's types there is no difference, in failures neither. -/
theorem prune_pull (config : Config) (hlimit : limit ≤ input.types.length) {f : Frame} (hin : input.Proper sees f.below)
    (hs : sees f.session.masks) :
    (prune config limit input).pull f =
      (project config (columnsOf (input.types.take limit)) (input.types.take limit) input).pull f := by
  refine answer_congr fun _ => ?_
  let g : Frame := { f with out := Chunk.blank (input.types.take limit) config.capacity }
  have hagree : Pull.Agree (answerChunk input (pruneChunk limit))
      (answerChunk input (projectChunk (columnsOf (input.types.take limit)))) g fun _ _ => True := by
    refine (Proper.fetch (f := g) hin hs).bind fun chunk k hk => ?_
    rw [pruneChunk_eq (hk.typed.symm ▸ hlimit), hk.typed]
    exact Pull.Agree.of_ok fun _ _ _ => trivial
  exact hagree.1

/-- Two operators that cannot be told apart in runs from their start, up to the first pull that
fails, and by how it fails. -/
structure SameRuns (op op' : Operator) (sees : List (Nat × Mask) → Prop) : Prop where
  types : op.types = op'.types
  start : op.start = op'.start
  rowsLeft : op.rowsLeft = op'.rowsLeft
  runs : ∀ chunks s, op.Pulls sees op.start chunks s ↔ op'.Pulls sees op'.start chunks s
  next : ∀ chunks s, op.Pulls sees op.start chunks s → ∀ session out, sees session.masks →
    op.pull ⟨s.cell, s.below, session, out⟩ = op'.pull ⟨s.cell, s.below, session, out⟩

theorem prune_handsMapped (config : Config) (limit : Nat) (hin : input.Proper sees input.start.cells) {chunks : List Chunk}
    {s : State} (hp : (prune config limit input).Pulls sees (prune config limit input).start chunks s) :
    ∃ fed, HandsMapped (Pruned limit) input sees fed chunks s :=
  handsMapped rfl rfl (fun _ _ h => h.toAligned) (fun _ _ hc ht hd => pruneChunk_pruned hc ht hd) hin hp

theorem project_handsMapped (config : Config) {exprs : List Expr} {types : List SqlType} (hlen : exprs.length = types.length)
    (hin : input.Proper sees input.start.cells) {chunks : List Chunk} {s : State}
    (hp : (project config exprs types input).Pulls sees (project config exprs types input).start chunks s) :
    ∃ fed, HandsMapped (Projected exprs) input sees fed chunks s :=
  handsMapped rfl rfl (fun _ _ h => h.toAligned) (fun _ _ hc _ hd => projectChunk_projected hc hlen hd) hin hp

theorem prune_sameRuns (config : Config) (hlimit : limit ≤ input.types.length) (hin : input.Proper sees input.start.cells) :
    SameRuns (prune config limit input)
      (project config (columnsOf (input.types.take limit)) (input.types.take limit) input) sees := by
  have hpull {s : State} {fed : List Chunk} (hread : input.Reads sees input.start.cells fed s.below) (session : Session)
      (out : Chunk) (hs : sees session.masks) :=
    prune_pull (f := ⟨s.cell, s.below, session, out⟩) config hlimit (hread.proper hin).1 hs
  refine ⟨rfl, rfl, rfl, fun chunks s => ⟨fun hp => ?_, fun hp => ?_⟩, fun chunks s hp session out hs => ?_⟩
  · refine Pulls.switch (.none _) hp fun more t ht session out hs => ?_
    obtain ⟨_, hmapped⟩ := prune_handsMapped config limit hin ht
    exact (hpull hmapped.read session out hs).symm
  · refine Pulls.switch (.none _) hp fun more t ht session out hs => ?_
    obtain ⟨_, hmapped⟩ := project_handsMapped config (length_columnsOf _) hin ht
    exact hpull hmapped.read session out hs
  · obtain ⟨_, hmapped⟩ := prune_handsMapped config limit hin hp
    exact hpull hmapped.read session out hs

/-- What projections and prunings of an input are. -/
structure MapsChunks (config : Config) (input : Operator) (sees : List (Nat × Mask) → Prop) : Prop where
  projects : ∀ exprs types, exprs.length = types.length → ∀ chunks s,
    (project config exprs types input).Pulls sees (project config exprs types input).start chunks s →
      ∃ fed, HandsMapped (Projected exprs) input sees fed chunks s
  prunes : ∀ limit chunks s, (prune config limit input).Pulls sees (prune config limit input).start chunks s →
    ∃ fed, HandsMapped (Pruned limit) input sees fed chunks s
  same : ∀ limit ≤ input.types.length, SameRuns (prune config limit input)
    (project config (columnsOf (input.types.take limit)) (input.types.take limit) input) sees

theorem mapsChunks (config : Config) (hin : input.Proper sees input.start.cells) : MapsChunks config input sees :=
  ⟨fun _ _ hlen _ _ hp => project_handsMapped config hlen hin hp, fun limit _ _ hp => prune_handsMapped config limit hin hp,
    fun _ hlimit => prune_sameRuns config hlimit hin⟩

end

/-- Rows 2 and 0 of three, then a row more: with a column computed, and with none left. -/
theorem mapsChunks_selected :
    let config : Config := ⟨2, none, true⟩
    let first : Chunk := ⟨[.ofInts [3, 1, 2], .ofBooleans [some true, none, some false]], some [2, 0], 2, 3⟩
    let second : Chunk := ⟨[.ofInts [5], .ofBooleans [none]], none, 1, 1⟩
    let input := source config [.bigInt, .boolean] [first, second]
    let next : Expr := .binary (.column 0 .bigInt) (.arithmetic .add) (.literal (.bigInt 1))
    let projection := project config [next] [.bigInt] input
    let pruning := prune config 0 input
    MapsChunks config input (fun _ => True) ∧
      (projection.pullTimes 3 projection.start (Session.ofLimit? none)).map
          (List.map fun c => (c.selection, c.rows.map (List.map Datum.value))) =
        some [(some [2, 0], [[.bigInt 3], [.bigInt 4]]), (none, [[.bigInt 6]]), (none, [])] ∧
      (pruning.pullTimes 3 pruning.start (Session.ofLimit? none)).map
          (List.map fun c => (c.selection, c.columns, c.count)) =
        some [(some [2, 0], [], 2), (none, [], 1), (none, [], 0)] := by
  intro config first second input next projection pruning
  have hsound : ∀ c ∈ [first, second], c.Sound ∧ c.types = [.bigInt, .boolean] ∧ c.isEmpty = false := by decide
  exact ⟨mapsChunks config (source_streams config _ hsound).proper, by decide +kernel, by decide +kernel⟩

end QueryEngine.Operator
