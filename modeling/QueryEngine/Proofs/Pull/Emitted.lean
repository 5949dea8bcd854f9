import QueryEngine.Proofs.Pull.Owed

/-! What a join has handed out of the pairs it owes.

Along a run in which any pull may fail, the pairs in the cell were found by a pull that owed
nothing, and the pulls since then have handed them out in their order up to the cursor, in pieces
that are full but for the last (`JoinOver.Emits`). All that is said of the cursor follows from
this and from what one pull keeps (`JoinOver.cursor_of_goes`). -/
namespace QueryEngine

/-- What a join has found and how much of it is handed out. -/
def State.joined? (s : State) : Option JoinProgress :=
  match s.cell.progress with
  | .join p => some p
  | _ => none

/-- The pairs that a join has found fit into memory. -/
def State.Storable (s : State) : Prop := s.joined?.elim 0 (fun p => p.pending.length) ≤ maxLength

instance (s : State) : Decidable s.Storable :=
  inferInstanceAs (Decidable (s.joined?.elim 0 (fun p => p.pending.length) ≤ maxLength))

theorem State.joined?_of_progress {s : State} {p : JoinProgress} (h : s.cell.progress = .join p) : s.joined? = some p := by
  rw [joined?, h]

namespace JoinOver
open Operator Pull
variable {J : JoinOver} {s : State} {p : JoinProgress} {side : JoinSide} {buffer d : Chunk} {chunks : List Chunk}
  {answers earlier failed : List (Except Failure Chunk)}

/-! ### Pieces -/

/-- The chunks in which the pairs were handed out up to where they are owed. -/
structure Pieces (J : JoinOver) (buffer : Chunk) (side : JoinSide) (p : JoinProgress) (chunks : List Chunk) : Prop where
  rows : chunks.flatMap Chunk.rows = pairRows buffer side (p.pending.take p.emitted)
  /-- All but the last are full, and so is that if there are pairs behind it. -/
  full : ∀ c ∈ chunks.dropLast, c.count = J.config.capacity
  owing : p.emitted < p.pending.length → ∀ c ∈ chunks, c.count = J.config.capacity
  filled : ∀ c ∈ chunks, 0 < c.count ∧ c.count ≤ J.config.capacity

theorem Pieces.start (hp : p.emitted = 0) : J.Pieces buffer side p [] where
  rows := by rw [hp]; rfl
  full := List.forall_mem_nil _
  owing _ := List.forall_mem_nil _
  filled := List.forall_mem_nil _

theorem Pieces.next (hpos : 1 ≤ J.config.capacity) (h : J.Pieces buffer side p chunks) (howed : p.emitted < p.pending.length)
    (hd : J.Piece buffer side p d) : J.Pieces buffer side (J.next p) (chunks ++ [d]) where
  rows := by
    have htake : p.pending.take (J.next p).emitted =
        p.pending.take p.emitted ++ (p.pending.drop p.emitted).take J.config.capacity := by
      rw [← List.take_add, List.take_eq_take_iff]
      show min (min _ _) _ = min _ _
      rw [Nat.min_assoc, Nat.min_self]
    show _ = pairRows buffer side (p.pending.take _)
    rw [htake, List.flatMap_append, h.rows, List.flatMap_singleton, hd.rows]
    exact List.map_append.symm
  full := by
    rw [List.dropLast_concat]
    exact h.owing howed
  owing howed' := by
    have hcount := hd.count
    have howed' : min (p.emitted + J.config.capacity) p.pending.length < p.pending.length := howed'
    exact List.forall_mem_append.mpr ⟨h.owing howed, List.forall_mem_singleton.mpr (by omega)⟩
  filled := by
    have hcount := hd.count
    exact List.forall_mem_append.mpr ⟨h.filled, List.forall_mem_singleton.mpr (by omega)⟩

/-- The first piece, after which a pull has begun with the pairs. -/
theorem Pieces.first (hpos : 1 ≤ J.config.capacity) (hsome : p.pending ≠ []) (hp : p.emitted = min J.config.capacity p.pending.length)
    (hd : J.Piece buffer side { p with emitted := 0 } d) : J.Pieces buffer side p [d] := by
  have hnext : J.next { p with emitted := 0 } = p := by
    obtain ⟨side, pending, emitted⟩ := p
    simpa [JoinOver.next] using hp.symm
  have hstart : J.Pieces buffer side { p with emitted := 0 } [] := .start rfl
  have hpieces := hstart.next hpos (List.length_pos_iff.mpr hsome) hd
  rw [hnext] at hpieces
  exact hpieces

/-! ### Runs -/

/-- Behind some answers there was a pull from a state that owed nothing: it found the pairs, and
failed or handed out their first piece. The pulls behind it have handed out the others. -/
structure Emits (J : JoinOver) (answers earlier failed : List (Except Failure Chunk)) (chunks : List Chunk) (s : State)
    (p : JoinProgress) (side : JoinSide) : Prop where
  answers : answers = earlier ++ failed ++ chunks.map .ok
  failed : failed = [] ∨ ∃ e, failed = [.error e]
  before : ∃ t q, J.op.Goes J.sees State.Storable J.op.start earlier t ∧ t.cell.progress = .join q ∧ q.pending.length ≤ q.emitted
  pieces : J.Pieces s.cell.buffer side p chunks

/-- What holds along a run. -/
def Runs (J : JoinOver) (answers : List (Except Failure Chunk)) (s : State) : Prop :=
  ∃ p, J.Keeps s p ∧ (p.pending ≠ [] → ∃ side earlier failed chunks, p.side = some side ∧
    J.Emits answers earlier failed chunks s p side)

theorem Keeps.stored (h : J.Keeps s p) (hs : s.Storable) : p.pending.length ≤ maxLength := by
  rw [State.Storable, State.joined?_of_progress h.progress] at hs
  exact hs

theorem Emits.start (hgoes : J.op.Goes J.sees State.Storable J.op.start earlier s) (h : J.Keeps s p)
    (hnone : p.pending.length ≤ p.emitted) (hfailed : failed = [] ∨ ∃ e, failed = [.error e]) {t : State} {q : JoinProgress}
    (hpieces : J.Pieces t.cell.buffer side q chunks) :
    J.Emits (earlier ++ failed ++ chunks.map .ok) earlier failed chunks t q side :=
  ⟨rfl, hfailed, ⟨s, p, hgoes, h.progress, hnone⟩, hpieces⟩

section
variable (hpos : 1 ≤ J.config.capacity) (hmax : J.config.capacity ≤ maxCount)
  (hright : J.right.Proper J.sees J.right.start.cells)
include hpos hmax hright

/-- A pull that succeeds hands out the next piece, or the first one of other pairs. -/
theorem Runs.served (h : J.Runs answers s) (hgoes : J.op.Goes J.sees State.Storable J.op.start answers s)
    {session : Session} {out : Chunk} {f : Frame} (hs : J.sees session.masks)
    (hpull : J.op.pull ⟨s.cell, s.below, session, out⟩ = .ok () f) :
    J.Runs (answers ++ [.ok f.out]) ⟨f.cell, f.below⟩ := by
  obtain ⟨p, hkeeps, hemits⟩ := h
  rcases Nat.lt_or_ge p.emitted p.pending.length with howed | hnone
  · obtain ⟨side, d, hside, hpiece, hrun⟩ := pull_owed hpos hmax hkeeps howed (hkeeps.stored hgoes.within) session out
    cases hrun.symm.trans hpull
    obtain ⟨side', earlier, failed, chunks, hside', hanswers, hfailed, hbefore, hpieces⟩ :=
      hemits (List.length_pos_iff.mp (Nat.zero_lt_of_lt howed))
    cases hside.symm.trans hside'
    refine ⟨J.next p, hkeeps.next howed, fun _ => ⟨side, earlier, failed, chunks ++ [d], hside, ?_, hfailed, hbefore,
      hpieces.next hpos howed hpiece⟩⟩
    rw [hanswers, List.map_append, List.append_assoc _ (chunks.map _)]
    rfl
  · obtain ⟨q, fed, hq, hemitted, hpiece⟩ := (leaves_pull hpos hmax hright hkeeps hnone hs out).1 _ _ hpull
    refine ⟨q, hq.keeps, fun hsome => ?_⟩
    obtain ⟨side, hside⟩ := Option.ne_none_iff_exists'.mp fun hnone => hsome (hq.keeps.sideless hnone).1
    have hpieces := Pieces.first hpos hsome hemitted (hpiece side hside hsome)
    refine ⟨side, answers, [], [f.out], hside, ?_⟩
    have hemits := Emits.start hgoes hkeeps hnone (.inl rfl) (t := ⟨f.cell, f.below⟩) hpieces
    rw [List.append_nil] at hemits
    exact hemits

/-- A pull that fails has owed nothing; the pairs that it has found are owed from then on. -/
theorem Runs.denied (h : J.Runs answers s) (hgoes : J.op.Goes J.sees State.Storable J.op.start answers s)
    {session : Session} {out : Chunk} {e : Failure} {f : Frame} (hs : J.sees session.masks)
    (hpull : J.op.pull ⟨s.cell, s.below, session, out⟩ = .error e f) :
    J.Runs (answers ++ [.error e]) ⟨f.cell, f.below⟩ := by
  obtain ⟨p, hkeeps, -⟩ := h
  rcases Nat.lt_or_ge p.emitted p.pending.length with howed | hnone
  · obtain ⟨side, d, -, -, hrun⟩ := pull_owed hpos hmax hkeeps howed (hkeeps.stored hgoes.within) session out
    cases hrun.symm.trans hpull
  · obtain ⟨q, fed, hq, hemitted⟩ := (leaves_pull hpos hmax hright hkeeps hnone hs out).2 _ _ hpull
    refine ⟨q, hq.keeps, fun hsome => ?_⟩
    obtain ⟨side, hside⟩ := Option.ne_none_iff_exists'.mp fun hnone => hsome (hq.keeps.sideless hnone).1
    have hpieces : J.Pieces f.cell.buffer side q [] := .start hemitted
    refine ⟨side, answers, [.error e], [], hside, ?_⟩
    have hemits := Emits.start hgoes hkeeps hnone (.inr ⟨e, rfl⟩) (t := ⟨f.cell, f.below⟩) hpieces
    rw [List.map_nil, List.append_nil] at hemits
    exact hemits

theorem runs (hleft : J.left.Enduring J.sees J.left.start.cells)
    (hgoes : J.op.Goes J.sees State.Storable J.op.start answers s) : J.Runs answers s := by
  induction hgoes with
  | start => exact ⟨⟨none, [], 0⟩, keeps_idle (fun _ hside => by cases hside) rfl hleft, fun hsome => absurd rfl hsome⟩
  | pulled hgoes hs hpull _ ih => exact ih.served hpos hmax hright hgoes hs hpull
  | failed hgoes hs hpull _ ih => exact ih.denied hpos hmax hright hgoes hs hpull

end

/-! ### The cursor -/

/-- The state of a join that has given some answers. -/
structure Cursor (J : JoinOver) (answers : List (Except Failure Chunk)) (s : State) (p : JoinProgress) : Prop where
  progress : s.cell.progress = .join p
  within : p.emitted ≤ p.pending.length
  /-- Wherever the end of a piece is computed, the sum is a count. -/
  room : p.emitted = 0 ∨ p.emitted < p.pending.length → p.emitted + J.config.capacity ≤ maxCount
  /-- The pairs are of rows that the left chunk in the buffer and the columns of the right side have. -/
  inRange : ∀ pair ∈ p.pending,
    (pair.1 ∈ s.cell.buffer.activeRows ∧ ∀ column ∈ s.cell.buffer.columns, pair.1 < column.size) ∧
      ∃ side, p.side = some side ∧ ∀ r, pair.2 = some r → ∀ column ∈ side.columns, r < column.size
  /-- They are the pairs of the left chunk in the buffer. A pull has found them that owed nothing, and
  the pulls since then have handed them out in their order, up to the cursor. -/
  emits : p.pending ≠ [] → ∃ side earlier failed chunks, p.side = some side ∧
    p.pending = J.foundIn side s.cell.buffer ∧ J.Emits answers earlier failed chunks s p side
  /-- While there are more, a pull hands out the next piece. Neither input is asked for a chunk: nothing
  below changes, and it would be the same over any other inputs. -/
  owing : p.emitted < p.pending.length → ∀ session out, ∃ side d, p.side = some side ∧ J.Piece s.cell.buffer side p d ∧
    J.op.pull ⟨s.cell, s.below, session, out⟩ = .ok () ⟨{ s.cell with progress := .join (J.next p) }, s.below, session, d⟩ ∧
    ∀ left right : Operator, J.kind.outputTypes left.types right.types = J.types →
      (join J.config J.kind J.on left right).pull ⟨s.cell, s.below, session, out⟩ = J.op.pull ⟨s.cell, s.below, session, out⟩
  /-- When all are handed out, the pairs of the left chunks that a pull fetches take their place. -/
  seeking : p.pending.length ≤ p.emitted → ∀ session out, J.sees session.masks →
    Leaves J.op.pull ⟨s.cell, s.below, session, out⟩ (J.Served s.below) fun _ g => J.Denied s.below ⟨g.cell, g.below⟩

/-- From the start of a join to any state of a run, in which pulls may have failed. -/
theorem cursor_of_goes (hpos : 1 ≤ J.config.capacity) (hmax : J.config.capacity ≤ maxCount)
    (hleft : J.left.Enduring J.sees J.left.start.cells) (hright : J.right.Proper J.sees J.right.start.cells)
    (hgoes : J.op.Goes J.sees State.Storable J.op.start answers s) : ∃ p, J.Cursor answers s p := by
  obtain ⟨p, hkeeps, hemits⟩ := runs hpos hmax hright hleft hgoes
  have hstored := hkeeps.stored hgoes.within
  refine ⟨p, hkeeps.progress, hkeeps.cursor, ?_, fun pair hpair => ?_, fun hsome => ?_, fun howed session out => ?_,
    fun hnone session out hs => leaves_pull hpos hmax hright hkeeps hnone hs out⟩
  · rintro (hzero | howed)
    · rw [hzero, Nat.zero_add]
      exact hmax
    · exact hkeeps.room howed hmax hstored
  · obtain ⟨side, hside, hready, -, ⟨hsound, -⟩, -, hwithin⟩ := hkeeps.within (List.ne_nil_of_mem hpair)
    obtain ⟨hleft, hright⟩ := hwithin pair hpair
    obtain ⟨rows, hlists, hrows⟩ := hready.lists
    refine ⟨⟨hleft, fun column hcolumn => ?_⟩, side, hside, fun r hr column hcolumn => ?_⟩
    · rw [hsound.even column hcolumn]
      exact hsound.active_lt hleft
    · rw [hlists.size hcolumn, ← hrows]
      exact hright r hr
  · obtain ⟨side, earlier, failed, chunks, hside, hrest⟩ := hemits hsome
    exact ⟨side, earlier, failed, chunks, hside, (hkeeps.found side hside hsome).2.2, hrest⟩
  · obtain ⟨side, d, hside, hpiece, hpull⟩ := pull_owed hpos hmax hkeeps howed hstored session out
    exact ⟨side, d, hside, hpiece, hpull, fun left right htypes => pull_owed_alike hkeeps howed htypes session out⟩

end JoinOver
end QueryEngine
