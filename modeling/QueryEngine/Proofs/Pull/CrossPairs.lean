import QueryEngine.Proofs.Join.Hash
import QueryEngine.Proofs.Pull.Deals
import QueryEngine.Proofs.Pull.Reads

/-! Cross products, chunk by chunk.

A cross product keeps the left chunk in the cell's buffer and the place of the next right row
in its progress. What it still owes are the pairs of that chunk with the right rows from there
on; together with those it has handed out they are the pairs of all chunks it has read. The
right input is read by the first pull and by no other, and without right rows the left input
is left alone. -/
namespace QueryEngine

/-- Left chunks with rows, each with one right row after the other. -/
def pairings (fed : List Chunk) (right : List Row) : List (Chunk × Row) :=
  (withRows fed).flatMap fun c => right.map fun row => (c, row)

theorem pairings_concat {c : Chunk} (hc : c.isEmpty = false) (fed : List Chunk) (right : List Row) :
    pairings (fed ++ [c]) right = pairings fed right ++ right.map fun row => (c, row) := by
  rw [pairings, withRows_append, List.flatMap_append, withRows_of_full (List.forall_mem_singleton.mpr hc),
    List.flatMap_singleton, pairings]

theorem pairings_empty {c : Chunk} (hc : c.isEmpty = true) (fed : List Chunk) (right : List Row) :
    pairings (fed ++ [c]) right = pairings fed right := by
  rw [pairings, withRows_append, withRows_of_empty (List.forall_mem_singleton.mpr hc), List.append_nil, pairings]

theorem pairings_nil (fed : List Chunk) : pairings fed [] = [] := List.flatMap_eq_nil_iff.mpr fun _ _ => rfl

/-- A left chunk with one right row beside its rows: its columns under its selection, and
beside them columns of the right types that show the row wherever the left columns have a
slot. -/
structure Beside (types : List SqlType) (pair : Chunk × Row) (d : Chunk) : Prop where
  sound : d.Sound
  columns : ∃ extra : List Column, d.columns = pair.1.columns ++ extra ∧ extra.map Column.type = types ∧
    (∀ column ∈ extra, column.size = pair.1.physicalRows) ∧
    ∀ r < pair.1.physicalRows, (extra.map fun column => column.datum r) = pair.2
  selection : d.selection = pair.1.selection
  count : d.count = pair.1.count
  rows : d.rows = pair.1.rows.map (· ++ pair.2)

namespace Operator
variable {left right : Operator} {sees : List (Nat × Mask) → Prop} {rightRows : List Row} {fed outs chunks : List Chunk}
  {f : Frame} {config : Config}

/-- What a cross product does when the right side is there. -/
def crossPair (left : Operator) (types : List SqlType) (side : Output) : Pull Unit := do
  if side.rows = 0 then return
  let some (chunk, side) ← crossLeft left side | return
  Pull.setProgress (.cross (some { side with position := side.position + 1 }))
  Pull.filling (pairRow types side chunk)

theorem cross_pull (config : Config) (left right : Operator) :
    (cross config left right).pull = answer config (left.types ++ right.types) (do
      let side ← match ← Pull.progress with
        | .cross (some side) => pure side
        | .cross none => crossRight right
        | _ => Pull.fail (.internal (.otherState "CrossProduct"))
      crossPair left (left.types ++ right.types) side) := rfl

theorem pairRow_beside {side : Output} {capacity : Nat} {c d : Chunk} {row : Row} (hc : c.Sound) (ht : c.types = left.types)
    (hside : HoldsSide side right.types rightRows) (hrow : rightRows[side.position]? = some row)
    (h : pairRow (left.types ++ right.types) side c (Chunk.blank (left.types ++ right.types) capacity) = .ok () d) :
    Beside right.types (c, row) d := by
  have hmapped := pairRow_ok hc ht hside.lists h
  obtain ⟨extra, rfl, htyped, hsize, hdatum⟩ := pairRow_columns ht hside.lists h
  have hshown : (side.columns.map fun column => column.datum side.position) = row := hside.lists.row hrow
  rw [hshown] at hdatum hmapped
  exact ⟨hmapped.sound, ⟨extra, rfl, htyped, hsize, hdatum⟩, rfl, rfl, hmapped.rows⟩

/-! ### Between pulls -/

/-- What was handed out of the pairs of the chunks read, and what is owed: the chunk in the
buffer with the right rows from a place on. -/
structure CrossPaired (left right : Operator) (rightRows : List Row) (fed outs : List Chunk) (side : Output) (buffer : Chunk) :
    Prop where
  holds : HoldsSide side right.types rightRows
  waiting : side.position < side.rows → buffer.Sound ∧ buffer.types = left.types ∧ buffer.isEmpty = false
  paired : ∃ done, List.Forall₂ (Beside right.types) done outs ∧
    pairings fed rightRows = done ++ (rightRows.drop side.position).map fun row => (buffer, row)
  idle : rightRows = [] → fed = []

/-- What holds of a cross product that goes on. -/
def CrossGoing (left right : Operator) (rightRows : List Row) (fed outs : List Chunk) (cell : Cell) : Prop :=
  (cell.progress = .cross none ∧ fed = [] ∧ outs = []) ∨
    ∃ side, cell.progress = .cross (some side) ∧ CrossPaired left right rightRows fed outs side cell.buffer

/-- At its end it has handed out all pairs, and the left input has ended, or was not read as
there are no right rows. -/
def CrossDone (right : Operator) (rightRows : List Row) (fed outs : List Chunk) : Prop :=
  List.Forall₂ (Beside right.types) (pairings fed rightRows) outs ∧
    (if rightRows = [] then fed = [] else ∃ c ∈ fed, c.isEmpty = true)

/-- The left chunk for the next right row. -/
theorem logs_crossLeft {side : Output} (hin : left.Proper sees f.below) (hs : sees f.session.masks) (hsome : rightRows ≠ [])
    (h : CrossPaired left right rightRows fed outs side f.cell.buffer) :
    Pull.Agree (crossLeft left side) (crossLeft left side) f fun found g =>
      sees g.session.masks ∧ g.out = f.out ∧ g.cell.finished = f.cell.finished ∧
        ∃ more, left.Reads sees f.below more g.below ∧
          match found with
          | none => CrossDone right rightRows (fed ++ more) outs
          | some (chunk, side') => g.cell.buffer = chunk ∧ side'.position < side'.rows ∧
            CrossPaired left right rightRows (fed ++ more) outs side' chunk := by
  unfold crossLeft
  refine .ite (fun hmore => ?_) fun hend => ?_
  · refine .step rfl (.pure ⟨hs, rfl, rfl, [], .none _, rfl, hmore, ?_⟩)
    rw [List.append_nil]
    exact h
  · obtain ⟨done, hdone, hpairs⟩ := h.paired
    have hnone : rightRows.drop side.position = [] :=
      List.drop_of_length_le (h.holds.rows ▸ Nat.le_of_not_lt hend)
    rw [hnone, List.map_nil, List.append_nil] at hpairs
    refine (hin.fetch hs).bind fun chunk g hg => .pure ⟨hg.masks, hg.out, by rw [hg.cell], [chunk], hg.reads, ?_⟩
    cases he : chunk.isEmpty with
    | true =>
      simp only [if_true]
      refine ⟨?_, ?_⟩
      · rw [pairings_empty he, hpairs]
        exact hdone
      · rw [if_neg hsome]
        exact ⟨chunk, List.mem_append_right _ (List.mem_singleton_self _), he⟩
    | false =>
      simp only [Bool.false_eq_true, if_false]
      refine ⟨by rw [hg.cell], ?_, h.holds.moved 0, fun _ => ⟨hg.sound, hg.typed, he⟩, ⟨done, hdone, ?_⟩,
        fun hnil => absurd hnil hsome⟩
      · show 0 < side.rows
        rw [h.holds.rows]
        exact List.length_pos_iff.mpr hsome
      · rw [pairings_concat he, hpairs]
        rfl

theorem logs_crossPair {side : Output} (hin : left.Proper sees f.below) (hs : sees f.session.masks)
    (hf : f.cell.finished = false) (hout : f.out = Chunk.blank (left.types ++ right.types) config.capacity)
    (h : CrossPaired left right rightRows fed outs side f.cell.buffer) :
    Pull.Agree (crossPair left (left.types ++ right.types) side) (crossPair left (left.types ++ right.types) side) f
      fun _ g => Logs left sees (CrossGoing left right rightRows) (CrossDone right rightRows) fed outs f g := by
  have hblank : f.out.isEmpty = true := by rw [hout]; rfl
  have hsound : f.out.Sound := hout ▸ Chunk.sound_blank _ _
  refine .ite (fun hzero => .pure ⟨hsound, hf, [], .none _, fun _ => ?_, fun he => ?_⟩) fun hrows => ?_
  · have hnone : rightRows = [] := List.length_eq_zero_iff.mp (h.holds.rows ▸ hzero)
    obtain ⟨done, hdone, hpairs⟩ := h.paired
    rw [List.append_nil]
    rw [hnone, List.drop_nil, List.map_nil, List.append_nil] at hpairs
    refine ⟨?_, ?_⟩
    · rw [hnone, hpairs]
      exact hdone
    · rw [if_pos hnone]
      exact h.idle hnone
  · cases hblank.symm.trans he
  have hsome : rightRows ≠ [] := fun hnone => hrows (by rw [h.holds.rows, hnone]; rfl)
  refine (logs_crossLeft hin hs hsome h).bind fun found g ⟨hsees, hg, hfinished, more, hread, hfound⟩ => ?_
  cases found with
  | none =>
    refine .pure ⟨hg ▸ hsound, hfinished.trans hf, more, hread, fun _ => hfound, fun he => ?_⟩
    rw [hg] at he
    cases hblank.symm.trans he
  | some found =>
    obtain ⟨chunk, side'⟩ := found
    obtain ⟨hbuffer, hmore, hpaired⟩ := hfound
    obtain ⟨hchunk, htyped, hfull⟩ := hpaired.waiting hmore
    obtain ⟨done, hdone, hpairs⟩ := hpaired.paired
    have hlt : side'.position < rightRows.length := hpaired.holds.rows ▸ hmore
    rw [List.drop_eq_getElem_cons hlt, List.map_cons] at hpairs
    refine .step rfl (.filling fun _ d hd => ?_)
    have hd : pairRow (left.types ++ right.types) side' chunk (Chunk.blank (left.types ++ right.types) config.capacity) =
        .ok () d := by
      rw [← hout, ← hg]
      exact hd
    have hbeside : Beside right.types (chunk, rightRows[side'.position]) d :=
      pairRow_beside hchunk htyped hpaired.holds (List.getElem?_eq_getElem hlt) hd
    have hdfull : d.isEmpty = false := by
      rw [Chunk.isEmpty, hbeside.count]
      exact hfull
    refine ⟨hbeside.sound, hfinished.trans hf, more, hread, fun he => ?_, fun _ => .inr ⟨_, rfl, hpaired.holds.moved _,
      fun _ => ?_, ⟨done ++ [(chunk, rightRows[side'.position])], List.rel_append hdone (.cons hbeside .nil), ?_⟩,
      hpaired.idle⟩⟩
    · cases hdfull.symm.trans he
    · show g.cell.buffer.Sound ∧ g.cell.buffer.types = left.types ∧ g.cell.buffer.isEmpty = false
      rw [hbuffer]
      exact ⟨hchunk, htyped, hfull⟩
    · show pairings (fed ++ more) rightRows = _ ++ (rightRows.drop (side'.position + 1)).map fun row => (g.cell.buffer, row)
      rw [hpairs, hbuffer, List.append_assoc, List.singleton_append]

/-- A cross product's own work. -/
theorem cross_work (config : Config) (left : Operator) (hright : right.Streams sees rightRows) :
    ∃ work, (cross config left right).pull = answer config (left.types ++ right.types) work ∧
      ∀ f fed outs, f.cell.finished = false → f.out = Chunk.blank (left.types ++ right.types) config.capacity →
        CrossGoing left right rightRows fed outs f.cell → left.Proper sees f.below → sees f.session.masks →
        Pull.Agree work work f fun _ g =>
          Logs left sees (CrossGoing left right rightRows) (CrossDone right rightRows) fed outs f g := by
  refine ⟨_, cross_pull config left right, fun f fed outs hf hout hK hin hs => .step rfl ?_⟩
  rcases hK with ⟨hp, rfl, rfl⟩ | ⟨side, hp, hpaired⟩
  · simp only [hp]
    refine (agree_crossRight hright hs).bind
      fun side g ⟨⟨⟨rows, hlists, hcount, hall⟩, hend⟩, hsees, hg, hbelow, hfinished⟩ => ?_
    cases hall trivial
    have hpaired : CrossPaired left right rightRows [] [] side g.cell.buffer := by
      refine ⟨⟨hlists, hcount⟩, fun hmore => by omega, ⟨[], .nil, ?_⟩, fun _ => rfl⟩
      rw [List.drop_of_length_le (by omega)]
      rfl
    refine (logs_crossPair (hbelow ▸ hin) hsees (hfinished.trans hf) (hg.trans hout) hpaired).mono fun _ k hk => ?_
    obtain ⟨more, hread, hleft⟩ := hk.left
    exact ⟨hk.sound, hk.unfinished, more, hbelow ▸ hread, hleft⟩
  · simp only [hp]
    exact logs_crossPair hin hs hf hout hpaired

/-! ### What is left alone -/

/-- When the right side is there, or nothing more is to come, the right input is not looked at. -/
theorem cross_pull_right (config : Config) (left : Operator) {right right' : Operator} (htypes : right'.types = right.types)
    (h : f.cell.finished = true ∨ ∃ side, f.cell.progress = .cross (some side)) :
    (cross config left right').pull f = (cross config left right).pull f := by
  rw [cross_pull, cross_pull, htypes]
  refine answer_congr fun hf => ?_
  obtain hfinished | ⟨side, hside⟩ := h
  · cases hf.symm.trans hfinished
  · let blank : Frame := { f with out := Chunk.blank (left.types ++ right.types) config.capacity }
    have hprogress : Pull.progress blank = .ok (.cross (some side)) blank := by
      rw [← hside]
      rfl
    rw [run_bind, run_bind, hprogress]

/-- Without right rows the left input is not looked at. -/
theorem cross_pull_left (config : Config) {left left' : Operator} (htypes : left'.types = left.types)
    (hright : right.Streams sees []) (hs : sees f.session.masks)
    (h : f.cell.finished = true ∨ f.cell.progress = .cross none) :
    (cross config left' right).pull f = (cross config left right).pull f := by
  rw [cross_pull, cross_pull, htypes]
  refine answer_congr fun hf => ?_
  obtain hfinished | hnone := h
  · cases hf.symm.trans hfinished
  let blank : Frame := { f with out := Chunk.blank (left.types ++ right.types) config.capacity }
  have hprogress : Pull.progress blank = .ok (.cross none) blank := by
    rw [← hnone]
    rfl
  rw [run_bind, run_bind, hprogress]
  show (crossRight right >>= fun side => crossPair left' _ side) blank = (crossRight right >>= fun side => crossPair left _ side) blank
  rw [run_bind, run_bind]
  cases hside : crossRight right blank with
  | error e g => rfl
  | ok side g =>
    obtain ⟨⟨⟨rows, _, hcount, hall⟩, _⟩, _⟩ := (agree_crossRight (f := blank) hright hs).2 side g hside
    rw [hall trivial] at hcount
    simp only [crossPair, hcount, List.length_nil, if_true]

/-- The first pull reads the right input to its end. -/
theorem reads_crossRight (h : right.Proper sees right.start.cells) (hs : sees f.session.masks) :
    Pull.Agree (crossRight right) (crossRight right) f fun _ _ => ∃ fed, right.ReadsOut sees right.start.cells fed := by
  unfold crossRight drainRight
  refine Pull.Agree.bind (Q := fun _ _ => ∃ fed, right.ReadsOut sees right.start.cells fed) ?_ fun side g hg =>
    .step rfl (.pure hg)
  refine .buffering (.onFresh ?_)
  refine Pull.Agree.bind (Q := fun _ _ => ∃ fed, right.ReadsOut sees right.start.cells fed) ?_ fun buffered g hg =>
    .lift_bind fun columns _ => .pure hg
  exact .step rfl (h.drainInto _ _ hs)

/-! ### Runs -/

/-- What a run of a cross product has done over inputs that give some rows, of which it has
read the left chunks `fed`. -/
structure HandsPairs (config : Config) (left right : Operator) (sees : List (Nat × Mask) → Prop) (leftRows rightRows : List Row)
    (fed chunks : List Chunk) (s : State) : Prop where
  read : left.Reads sees left.start.cells fed s.below
  /-- One chunk for each left chunk and each right row, in this order. -/
  paired : List.Forall₂ (Beside right.types) ((pairings fed rightRows).take (withRows chunks).length) (withRows chunks)
  /-- Empty chunks come last. -/
  unbroken : chunks.Pairwise fun c d => c.isEmpty = true → d.isEmpty = true
  /-- At the end no pair is owed, and the left input has ended, if there are right rows. -/
  complete : (∃ c ∈ chunks, c.isEmpty = true) → List.Forall₂ (Beside right.types) (pairings fed rightRows) (withRows chunks) ∧
    (rightRows ≠ [] → fed.flatMap Chunk.rows = leftRows)
  product : (∃ c ∈ chunks, c.isEmpty = true) → (chunks.flatMap Chunk.rows).Perm (pairs leftRows rightRows)
  /-- The first pull has read the right input to its end; what comes after it would be the same
  with any other right input. -/
  drained : ∀ first rest, chunks = first :: rest →
    (∃ fed, right.ReadsOut sees right.start.cells fed ∧ fed.flatMap Chunk.rows = rightRows) ∧
    ∃ t, (cross config left right).Pulls sees (cross config left right).start [first] t ∧
      ∀ right' : Operator, right'.types = right.types → (cross config left right').Pulls sees t rest s
  /-- Without right rows there is no row and nothing was read of the left input; the run would be
  the same with any other left input. -/
  idle : rightRows = [] → (∀ c ∈ chunks, c.isEmpty = true) ∧ fed = [] ∧
    ∀ left' : Operator, left'.types = left.types → (cross config left' right).Pulls sees (cross config left right).start chunks s

section
variable {leftRows : List Row} {s : State}

theorem cross_logged (config : Config) (hleft : left.Proper sees left.start.cells) (hright : right.Streams sees rightRows)
    (hp : (cross config left right).Pulls sees (cross config left right).start chunks s) :
    ∃ fed, left.Reads sees left.start.cells fed s.below ∧
      Log (CrossGoing left right rightRows) (CrossDone right rightRows) fed chunks s.cell := by
  obtain ⟨work, hpull, hwork⟩ := cross_work config left hright
  exact pulls_logged hpull hwork rfl hleft (.inl ⟨rfl, rfl, rfl⟩) hp

/-- After the first pull the right side is there, unless nothing more is to come. -/
theorem cross_started (hleft : left.Proper sees left.start.cells) (hright : right.Streams sees rightRows)
    (hp : (cross config left right).Pulls sees (cross config left right).start chunks s) (hsome : chunks ≠ []) :
    s.cell.finished = true ∨ ∃ side, s.cell.progress = .cross (some side) := by
  obtain ⟨fed, _, hlog⟩ := cross_logged config hleft hright hp
  by_cases hall : ∀ c ∈ chunks, c.isEmpty = false
  · obtain ⟨_, hnone | ⟨side, hside, _⟩⟩ := hlog.ongoing hall
    · exact absurd hnone.2.2 hsome
    · exact .inr ⟨side, hside⟩
  · exact .inl (hlog.ended (by simpa using hall)).1

/-- Without right rows there is nothing to hand out, and nothing to be read. -/
theorem cross_idle (hp : (cross config left right).Pulls sees (cross config left right).start chunks s)
    (hlog : Log (CrossGoing left right []) (CrossDone right []) fed chunks s.cell) :
    (∀ c ∈ chunks, c.isEmpty = true) ∧ fed = [] ∧ (s.cell.finished = true ∨ s.cell.progress = .cross none) := by
  by_cases hall : ∀ c ∈ chunks, c.isEmpty = false
  · have hnone : chunks = [] ∧ fed = [] := by
      obtain ⟨_, ⟨_, hfed, hchunks⟩ | ⟨side, _, hpaired⟩⟩ := hlog.ongoing hall
      · exact ⟨hchunks, hfed⟩
      · obtain ⟨done, hdone, hpairs⟩ := hpaired.paired
        rw [pairings_nil, eq_comm, List.append_eq_nil_iff] at hpairs
        rw [hpairs.1, List.forall₂_nil_left_iff] at hdone
        exact ⟨hdone, hpaired.idle rfl⟩
    obtain ⟨rfl, rfl⟩ := hnone
    cases hp
    exact ⟨List.forall_mem_nil _, rfl, .inr rfl⟩
  · obtain ⟨hfinished, hpaired, hfed⟩ := hlog.ended (by simpa using hall)
    rw [pairings_nil, List.forall₂_nil_left_iff] at hpaired
    rw [if_pos rfl] at hfed
    refine ⟨fun c hc => ?_, hfed, .inl hfinished⟩
    have hempty := List.filter_eq_nil_iff.mp hpaired c hc
    simpa using hempty

/-- A cross product pairs every left row with every right row. -/
theorem cross_handsPairs (config : Config) (hleft : left.Streams sees leftRows) (hright : right.Streams sees rightRows)
    (hp : (cross config left right).Pulls sees (cross config left right).start chunks s) :
    ∃ fed, HandsPairs config left right sees leftRows rightRows fed chunks s := by
  obtain ⟨fed, hread, hlog⟩ := cross_logged config hleft.proper hright hp
  refine ⟨fed, hread, ?_, hlog.unbroken, fun hend => ?_, fun hend => ?_, fun first rest hchunks => ?_, fun hnone => ?_⟩
  · by_cases hall : ∀ c ∈ chunks, c.isEmpty = false
    · rw [withRows_of_full hall]
      obtain ⟨_, ⟨_, rfl, rfl⟩ | ⟨side, _, hpaired⟩⟩ := hlog.ongoing hall
      · exact .nil
      · obtain ⟨done, hdone, hpairs⟩ := hpaired.paired
        rw [hpairs, ← hdone.length_eq, List.take_left]
        exact hdone
    · have hpaired := (hlog.ended (by simpa using hall)).2.1
      rw [List.take_of_length_le (Nat.le_of_eq hpaired.length_eq)]
      exact hpaired
  · obtain ⟨_, hpaired, hfed⟩ := hlog.ended hend
    refine ⟨hpaired, fun hsome => ?_⟩
    rw [if_neg hsome] at hfed
    obtain ⟨t, _, hrun⟩ := hread.pulls
    obtain ⟨_, rest, _, hgiven⟩ := Gives.pulls hleft hrun
    obtain ⟨hgiven, hlast⟩ := hgiven trivial
    rw [hgiven, hlast hfed, List.append_nil]
  · have hdeals : Deals ⟨config.capacity, False, True, sees⟩ (cross config left right) (pairs leftRows rightRows)
        (cross config left right).start.cells :=
      deals_cross trivial id rfl (hleft.of_untidy id (fun _ => trivial) rfl) (hright.of_untidy id (fun _ => trivial) rfl)
    obtain ⟨rest, hperm, hrest⟩ := hdeals.pulls hp
    rw [hrest hend, List.append_nil] at hperm
    exact hperm.symm
  · subst hchunks
    cases hp with
    | @next _ _ session out f _ hs hpull hrest =>
      have hfirst : (cross config left right).Pulls sees (cross config left right).start [f.out] ⟨f.cell, f.below⟩ :=
        .next hs hpull (.none _)
      refine ⟨?_, _, hfirst, fun right' htypes => ?_⟩
      · obtain ⟨k, hwork, _⟩ := answer_ok rfl (cross_pull config left right ▸ hpull)
        obtain ⟨_, _, hprogress, hwork⟩ := run_bind_eq_ok.mp hwork
        cases hprogress
        obtain ⟨side, g, hside, _⟩ := run_bind_eq_ok.mp hwork
        obtain ⟨fed, hfed⟩ := (reads_crossRight hright.proper hs).2 side g hside
        exact ⟨fed, hfed, hfed.rows hright⟩
      · refine hfirst.switch hrest fun more t ht session out _ => cross_pull_right config left htypes ?_
        exact cross_started hleft.proper hright ht (List.cons_ne_nil _ _)
  · subst hnone
    obtain ⟨hempty, hfed, _⟩ := cross_idle hp hlog
    refine ⟨hempty, hfed, fun left' htypes => ?_⟩
    refine Pulls.switch (.none _) hp fun more t ht session out hs => cross_pull_left config htypes hright hs ?_
    obtain ⟨_, _, hlog⟩ := cross_logged config hleft.proper hright ht
    exact (cross_idle ht hlog).2.2

end

/-- Two left chunks, the first with a hidden row, and two right rows, of which one is NULL. -/
theorem cross_handsPairs_hidden :
    let config : Config := ⟨2, none, true⟩
    let first : Chunk := ⟨[.ofInts [1, 2, 3]], some [2, 0], 2, 4⟩
    let second : Chunk := ⟨[.ofInts [4]], none, 1, 1⟩
    let right : Chunk := ⟨[.ofSlots .integer [⟨.integer 7, .inr rfl⟩, Slot.null .integer]], none, 2, 2⟩
    let left := source config [.bigInt] [first, second]
    let rights := source config [.integer] [right]
    let op := cross config left rights
    ∃ chunks s fed, op.Pulls (fun _ => True) op.start chunks s ∧
      chunks.map Chunk.activeRows = [[2, 0], [2, 0], [0], [0], []] ∧
      HandsPairs config left rights (fun _ => True) ([first, second].flatMap Chunk.rows) right.rows fed chunks s := by
  intro config first second right left rights op
  have hpulled : (op.pullTimes 5 op.start (Session.ofLimit? none)).map (List.map Chunk.activeRows) =
      some [[2, 0], [2, 0], [0], [0], []] := by decide +kernel
  obtain ⟨chunks, s, hrun, hactive⟩ := pulls_of_map (fun _ => trivial) hpulled
  have hleft : ∀ c ∈ [first, second], c.Sound ∧ c.types = [.bigInt] ∧ c.isEmpty = false := by decide
  have hright : rights.Streams (fun _ => True) right.rows := source_streams_chunk config _ rfl rfl rfl
  obtain ⟨fed, hpairs⟩ := cross_handsPairs config (source_streams config _ hleft) hright hrun
  exact ⟨chunks, s, fed, hrun, hactive, hpairs⟩

end Operator
end QueryEngine
