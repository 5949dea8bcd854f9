import QueryEngine.Proofs.Join.Entries
import QueryEngine.Proofs.Pull.Enduring

/-! The pairs that a join owes.

The pairs that looking up a left chunk comes to stand in the cell with a cursor, and the chunk
stays in the buffer until they are handed out. Between pulls, failed ones too, they are the pairs
of that chunk, in range of it and of the right side, and the cursor stands at a multiple of the
capacity or behind the last of them (`JoinOver.Keeps`). So a pull that owes pairs can add a
capacity to it without overflow: it hands out the next piece and asks neither input for anything
(`pull_owed`, `pull_owed_alike`). A pull that owes none fetches left chunks until one of them has
pairs or there are no more (`leaves_pull`). -/
namespace QueryEngine

/-- No list in memory is longer. -/
def maxLength : Nat := 0x7fffffffffffffff

/-- A join over two inputs, and what is known, all the while, of the rows deleted from tables. -/
structure JoinOver where
  config : Config
  kind : JoinKind
  on : List (Expr × Expr)
  left : Operator
  right : Operator
  sees : List (Nat × Mask) → Prop

namespace JoinOver
open Operator Pull

def op (J : JoinOver) : Operator := join J.config J.kind J.on J.left J.right

def types (J : JoinOver) : List SqlType := J.kind.outputTypes J.left.types J.right.types

/-- The pairs that looking up a left chunk comes to, those before a key that cannot be read.
Over a right side without rows nothing is looked up. -/
def foundIn (J : JoinOver) (side : JoinSide) (chunk : Chunk) : List (Nat × Option Nat) :=
  if side.rows = 0 then []
  else
    match (J.on.map Prod.fst).mapM (Expr.evaluate chunk) with
    | .ok keyColumns => (probeRows J.kind side keyColumns chunk.activeRows).2
    | .error _ => []

/-- What holds of a join between pulls, whether they succeed or fail. -/
structure Keeps (J : JoinOver) (s : State) (p : JoinProgress) : Prop where
  progress : s.cell.progress = .join p
  left : J.left.Enduring J.sees s.below
  sideless : p.side = none → p.pending = [] ∧ p.emitted = 0
  ready : ∀ side, p.side = some side → side.Ready J.right.types
  cursor : p.emitted ≤ p.pending.length
  /-- Only full pieces leave pairs behind. -/
  pieces : J.config.capacity ∣ p.emitted ∨ p.emitted = p.pending.length
  /-- The pairs are those of the chunk in the buffer. -/
  found : ∀ side, p.side = some side → p.pending ≠ [] → (J.kind = .inner ∨ J.kind = .left) ∧
    (s.cell.buffer.Sound ∧ s.cell.buffer.types = J.left.types) ∧ p.pending = J.foundIn side s.cell.buffer
  finished : s.cell.finished = true → p.pending = []

variable {J : JoinOver} {s : State} {p : JoinProgress} {side : JoinSide} {f g : Frame} {chunk : Chunk}

/-! ### Pairs within range -/

theorem foundIn_within (hs : side.Ready J.right.types) (chunk : Chunk) :
    PairsWithin chunk.activeRows side.rows (J.foundIn side chunk) := by
  unfold foundIn
  split
  · exact List.forall_mem_nil _
  · split
    · exact probeRows_within J.kind hs _ _
    · exact List.forall_mem_nil _

theorem foundIn_empty (hc : chunk.Sound) (he : chunk.isEmpty = true) : J.foundIn side chunk = [] := by
  have hrows : chunk.activeRows = [] := by
    rw [← List.length_eq_zero_iff, hc.length_activeRows]
    simpa [Chunk.isEmpty] using he
  unfold foundIn
  rw [hrows]
  split
  · rfl
  · split <;> rfl

theorem foundIn_of_kind (hkind : ¬(J.kind = .inner ∨ J.kind = .left)) (chunk : Chunk) :
    J.foundIn side chunk = [] := by
  unfold foundIn
  split
  · rfl
  · split
    · exact probeRows_nil hkind _ _ _
    · rfl

/-- Where there are pairs, there is a right side, which has found them in the buffer. -/
theorem Keeps.within (h : J.Keeps s p) (hsome : p.pending ≠ []) :
    ∃ side, p.side = some side ∧ side.Ready J.right.types ∧ (J.kind = .inner ∨ J.kind = .left) ∧
      (s.cell.buffer.Sound ∧ s.cell.buffer.types = J.left.types) ∧ p.pending = J.foundIn side s.cell.buffer ∧
        PairsWithin s.cell.buffer.activeRows side.rows p.pending := by
  cases hside : p.side with
  | none => exact absurd (h.sideless hside).1 hsome
  | some side =>
    obtain ⟨hkind, hbuffer, hfound⟩ := h.found side hside hsome
    have hready := h.ready side hside
    refine ⟨side, rfl, hready, hkind, hbuffer, hfound, ?_⟩
    rw [hfound]
    exact foundIn_within hready _

/-- A join that owes pairs has not ended. -/
theorem Keeps.unfinished (h : J.Keeps s p) (howed : p.emitted < p.pending.length) :
    s.cell.finished = false ∧ p.pending ≠ [] := by
  have hsome : p.pending ≠ [] := List.length_pos_iff.mp (Nat.zero_lt_of_lt howed)
  exact ⟨Bool.eq_false_iff.mpr fun hf => hsome (h.finished hf), hsome⟩

/-- Behind the pairs that are handed out there is room to count a piece, as many as a list may have. -/
theorem Keeps.room (h : J.Keeps s p) (howed : p.emitted < p.pending.length) (hcapacity : J.config.capacity ≤ maxCount)
    (hlength : p.pending.length ≤ maxLength) : p.emitted + J.config.capacity ≤ maxCount := by
  have hmax : 2 * maxLength ≤ maxCount := by decide
  rcases Nat.eq_zero_or_pos p.emitted with hzero | hpos
  · omega
  · have hle : J.config.capacity ≤ p.emitted := Nat.le_of_dvd hpos (h.pieces.resolve_right (by omega))
    omega

/-! ### Handing pairs out -/

/-- Where the next piece of the pairs ends. -/
def next (J : JoinOver) (p : JoinProgress) : JoinProgress :=
  { p with emitted := min (p.emitted + J.config.capacity) p.pending.length }

/-- The next piece of the pairs. -/
structure Piece (J : JoinOver) (buffer : Chunk) (side : JoinSide) (p : JoinProgress) (d : Chunk) : Prop where
  sound : d.Sound
  count : d.count = min J.config.capacity (p.pending.length - p.emitted)
  rows : d.rows = pairRows buffer side ((p.pending.drop p.emitted).take J.config.capacity)

theorem takePiece (J : JoinOver) (p : JoinProgress) :
    (p.pending.take (J.next p).emitted).drop p.emitted = (p.pending.drop p.emitted).take J.config.capacity := by
  rw [List.drop_take, List.take_eq_take_iff, List.length_drop]
  show min (min (p.emitted + J.config.capacity) p.pending.length - p.emitted) _ = _
  omega

theorem handOutPairs_run (h : J.Keeps ⟨f.cell, f.below⟩ p) (hside : p.side = some side)
    (howed : p.emitted < p.pending.length) (hpos : 1 ≤ J.config.capacity) (hroom : p.emitted + J.config.capacity ≤ maxCount)
    (hout : f.out = Chunk.blank J.types J.config.capacity) :
    ∃ d, handOutPairs side p f = .ok () { f with cell := { f.cell with progress := .join (J.next p) }, out := d } ∧
      J.Piece f.cell.buffer side p d := by
  obtain ⟨side', hside', hready, hkind, ⟨hsound, htypes⟩, -, hwithin⟩ := h.within (h.unfinished howed).2
  cases hside.symm.trans hside'
  obtain ⟨rows, hlists, hrows⟩ := hready.lists
  have htyped : J.types = f.cell.buffer.types ++ J.right.types := by
    rw [types, htypes]
    rcases hkind with hkind | hkind <;> rw [hkind, JoinKind.outputTypes]
  have hstop : addCounts p.emitted f.out.capacity = .ok (p.emitted + J.config.capacity) := by
    rw [hout, Chunk.capacity_blank, Nat.max_eq_left hpos]
    exact if_pos hroom
  generalize hpairs : (p.pending.take (J.next p).emitted).drop p.emitted = pairs
  have hpiece : PairsWithin (List.range f.cell.buffer.physicalRows) rows.length pairs := fun pair hpair => by
    rw [← hpairs] at hpair
    obtain ⟨hleft, hright⟩ := hwithin pair (List.mem_of_mem_take (List.mem_of_mem_drop hpair))
    exact ⟨List.mem_range.mpr (hsound.active_lt hleft), hrows ▸ hright⟩
  obtain ⟨d, hd, -⟩ := takePairs_of_within (d := f.out) hsound hlists (by rw [hout, Chunk.types_blank, htyped]) hpiece
  have hwidth : f.cell.buffer.columns.length + side.columns.length = J.types.length := by
    rw [htyped, List.length_append, Chunk.types, List.length_map, hlists.length]
  obtain ⟨hdsound, -, hcount, -, hdrows⟩ := takePairs_ok hwidth (hout ▸ hd)
  refine ⟨d, ?_, hdsound, ?_, ?_⟩
  · show (liftM (addCounts p.emitted f.out.capacity) >>= fun _ => _ : Pull Unit) f = _
    rw [hstop]
    show filling (takePairs side f.cell.buffer ((p.pending.take (J.next p).emitted).drop p.emitted))
      { f with cell := { f.cell with progress := .join (J.next p) } } = _
    rw [filling, hpairs, hd]
  · rw [hcount, ← hpairs, takePiece, List.length_take, List.length_drop]
  · rw [hdrows, ← hpairs, takePiece]

/-- Of the pairs a piece has been handed out. -/
theorem Keeps.next {cell : Cell} {below : List Cell} (h : J.Keeps ⟨cell, below⟩ p) (howed : p.emitted < p.pending.length) :
    J.Keeps ⟨{ cell with progress := .join (J.next p) }, below⟩ (J.next p) where
  progress := rfl
  left := h.left
  sideless hnone := by
    obtain ⟨side, hside, -⟩ := h.within (h.unfinished howed).2
    cases hside.symm.trans hnone
  ready := h.ready
  cursor := Nat.min_le_right _ _
  pieces := by
    have hdvd := h.pieces.resolve_right (Nat.ne_of_lt howed)
    rcases Nat.le_total (p.emitted + J.config.capacity) p.pending.length with hle | hle
    · exact .inl (by rw [JoinOver.next, Nat.min_eq_left hle]; exact (Nat.dvd_add_right hdvd).mpr (Nat.dvd_refl _))
    · exact .inr (Nat.min_eq_right hle)
  found := h.found
  finished := h.finished

/-! ### Looking for pairs -/

section
variable {cell : Cell} {below : List Cell} {taken : Option JoinSide}

theorem keeps_idle (hready : ∀ side, taken = some side → side.Ready J.right.types)
    (hp : cell.progress = .join ⟨taken, [], 0⟩) (hleft : J.left.Enduring J.sees below) :
    J.Keeps ⟨cell, below⟩ ⟨taken, [], 0⟩ where
  progress := hp
  left := hleft
  sideless _ := ⟨rfl, rfl⟩
  ready := hready
  cursor := Nat.le_refl _
  pieces := .inr rfl
  found _ _ hsome := absurd rfl hsome
  finished _ := rfl

theorem keeps_found (hready : side.Ready J.right.types)
    (hp : cell.progress = .join ⟨some side, J.foundIn side cell.buffer, 0⟩) (hleft : J.left.Enduring J.sees below)
    (hbuffer : cell.buffer.Sound ∧ cell.buffer.types = J.left.types) (hf : cell.finished = false) :
    J.Keeps ⟨cell, below⟩ ⟨some side, J.foundIn side cell.buffer, 0⟩ where
  progress := hp
  left := hleft
  sideless hnone := nomatch hnone
  ready _ hside := Option.some.inj hside ▸ hready
  cursor := Nat.zero_le _
  pieces := .inl (Nat.dvd_zero _)
  found side' hside hsome := by
    cases hside
    exact ⟨not_not.mp fun hkind => hsome (foundIn_of_kind hkind _), hbuffer, rfl⟩
  finished hend := nomatch hf.symm.trans hend

end

/-- The pairs there are after some chunks were fetched: those of the chunks, behind those
that were owed before. -/
structure Found (J : JoinOver) (below : List Cell) (side : JoinSide) (owed : List (Nat × Option Nat)) (s : State)
    (q : JoinProgress) (fed : List Chunk) : Prop where
  keeps : J.Keeps s q
  taken : q.side = some side
  fetches : J.left.Fetches J.sees below fed s.below
  pairs : q.pending = owed ++ fed.flatMap (J.foundIn side)

/-- Where looking for pairs succeeds, the first piece of them is handed out. -/
def Refills (J : JoinOver) (below : List Cell) (side : JoinSide) (owed : List (Nat × Option Nat)) (g : Frame) : Prop :=
  ∃ q fed, J.Found below side owed ⟨g.cell, g.below⟩ q fed ∧ q.emitted = min J.config.capacity q.pending.length ∧
    (q.pending ≠ [] → J.Piece g.cell.buffer side { q with emitted := 0 } g.out)

/-- Where it fails, all of them are owed; a crash leaves none. -/
def Misses (J : JoinOver) (below : List Cell) (side : JoinSide) (owed : List (Nat × Option Nat)) (e : Failure) (g : Frame) :
    Prop :=
  ∃ q fed, J.Found below side owed ⟨g.cell, g.below⟩ q fed ∧ q.emitted = 0 ∧ (e = .crash → q.pending = [])

section
variable {below : List Cell} {pending : List (Nat × Option Nat)} {emitted : Nat}

theorem Found.after {owed : List (Nat × Option Nat)} {q : JoinProgress} {fed : List Chunk} {cells : List Cell}
    (hread : J.left.Reads J.sees below [chunk] cells) (h : J.Found cells side (J.foundIn side chunk) s q fed)
    (howed : owed = []) : J.Found below side owed s q (chunk :: fed) where
  keeps := h.keeps
  taken := h.taken
  fetches := hread.fetches h.fetches
  pairs := by rw [h.pairs, howed, List.flatMap_cons, List.nil_append]

/-- Nothing is owed, and none of the chunks has a pair. -/
theorem found_idle {fed : List Chunk} (hready : side.Ready J.right.types)
    (hp : s.cell.progress = .join ⟨some side, [], 0⟩) (hleft : J.left.Enduring J.sees s.below)
    (hfetches : J.left.Fetches J.sees below fed s.below) (hnone : ∀ chunk ∈ fed, J.foundIn side chunk = []) :
    J.Found below side [] s ⟨some side, [], 0⟩ fed where
  keeps := keeps_idle (fun _ hside => Option.some.inj hside ▸ hready) hp hleft
  taken := rfl
  fetches := hfetches
  pairs := (List.flatMap_eq_nil_iff.mpr hnone).symm

theorem Found.refills {fed : List Chunk} (h : J.Found below side [] ⟨g.cell, g.below⟩ ⟨some side, [], 0⟩ fed) :
    J.Refills below side [] g := ⟨_, fed, h, (Nat.min_zero _).symm, fun hsome => absurd rfl hsome⟩

theorem Found.misses {fed : List Chunk} {e : Failure}
    (h : J.Found below side [] ⟨g.cell, g.below⟩ ⟨some side, [], 0⟩ fed) : J.Misses below side [] e g :=
  ⟨_, fed, h, rfl, fun _ => rfl⟩

/-- The pairs of the chunk are found, and the join goes on according to its kind; those kinds
that have flags have no pairs. -/
theorem leaves_lookedUp {select mark : Filling Unit} {pairs : List (Nat × Option Nat)} {fed : List Chunk}
    {below : List Cell} {goOn : Pull Unit} {kind : JoinKind} (hk : J.kind = kind)
    (hnone : ¬(J.kind = .inner ∨ J.kind = .left) → pairs = [])
    (hfound : J.Found below side [] ⟨f.cell, f.below⟩ ⟨some side, pairs, 0⟩ fed)
    (hgo : ∀ d, (J.kind = .inner ∨ J.kind = .left → d = f.out) →
      Leaves goOn { f with out := d } (J.Refills below side []) (J.Misses below side [])) :
    Leaves
      (match kind with
      | .inner | .left => goOn
      | .semi | .anti => do
        filling select
        if !(← Pull.out).isEmpty then return
        changeOut Chunk.reset
        goOn
      | .mark => filling mark)
      f (J.Refills below side []) (J.Misses below side []) := by
  have hnothing (hkind : ¬(J.kind = .inner ∨ J.kind = .left)) (d : Chunk) :
      J.Refills below side [] { f with out := d } ∧ ∀ e, J.Misses below side [] e { f with out := d } := by
    obtain rfl := hnone hkind
    exact ⟨Found.refills (g := { f with out := d }) hfound, fun _ => Found.misses (g := { f with out := d }) hfound⟩
  have hselect (hkind : ¬(J.kind = .inner ∨ J.kind = .left)) :
      Leaves (do
        filling select
        if !(← Pull.out).isEmpty then return
        changeOut Chunk.reset
        goOn) f (J.Refills below side []) (J.Misses below side []) :=
    .filling_or (fun d => (hnothing hkind d).1) (fun e d => (hnothing hkind d).2 e) fun d =>
      hgo d fun hpairs => absurd hpairs hkind
  cases kind with
  | inner => exact hgo f.out fun _ => rfl
  | left => exact hgo f.out fun _ => rfl
  | semi => exact hselect (by rw [hk]; decide)
  | anti => exact hselect (by rw [hk]; decide)
  | mark =>
    have hkind : ¬(J.kind = .inner ∨ J.kind = .left) := by rw [hk]; decide
    exact .filling (fun d => (hnothing hkind d).1) fun e d => (hnothing hkind d).2 e

variable (hpos : 1 ≤ J.config.capacity) (hmax : J.config.capacity ≤ maxCount)
include hpos hmax

/-- Pairs of which none was handed out yet: the first piece is. -/
theorem leaves_handOutPairs (h : J.Keeps ⟨f.cell, f.below⟩ ⟨some side, pending, 0⟩) (howed : 0 < pending.length)
    (hout : f.out = Chunk.blank J.types J.config.capacity) :
    Leaves (handOutPairs side ⟨some side, pending, 0⟩) f (J.Refills f.below side pending) (J.Misses f.below side pending) := by
  obtain ⟨d, hrun, hpiece⟩ := handOutPairs_run h rfl howed hpos (by simpa using hmax) hout
  refine .of_ok hrun ⟨J.next ⟨some side, pending, 0⟩, [], ⟨?_, rfl, .all (.none _), (List.append_nil _).symm⟩, ?_, ?_⟩
  · exact h.next howed
  · show min (0 + J.config.capacity) pending.length = _
    rw [Nat.zero_add]
    rfl
  · exact fun _ => hpiece

theorem leaves_probe (rounds : Nat) (h : J.Keeps ⟨f.cell, f.below⟩ ⟨some side, pending, emitted⟩)
    (hf : f.cell.finished = false) (hs : J.sees f.session.masks)
    (hfresh : emitted = 0 ∨ rounds ≠ 0 ∧ pending.length ≤ emitted)
    (hout : J.kind = .inner ∨ J.kind = .left → f.out = Chunk.blank J.types J.config.capacity) :
    Leaves (probe J.kind (J.on.map Prod.fst) J.left J.right side rounds ⟨some side, pending, emitted⟩) f
      (J.Refills f.below side (pending.drop emitted)) (J.Misses f.below side (pending.drop emitted)) := by
  induction rounds generalizing f pending emitted with
  | zero =>
    obtain rfl : emitted = 0 := hfresh.resolve_right fun h => h.1 rfl
    exact .throw ⟨_, [], ⟨h, rfl, .all (.none _), (List.append_nil _).symm⟩, rfl, fun hcrash => by cases hcrash⟩
  | succ rounds ih =>
    rw [probe]
    refine .ite (fun howed => ?_) fun hnone => ?_
    · have howed : emitted < pending.length := howed
      obtain rfl : emitted = 0 := hfresh.resolve_right fun h => by omega
      obtain ⟨_, -, -, hkind, -⟩ := h.within (h.unfinished howed).2
      exact leaves_handOutPairs hpos hmax h howed (hout hkind)
    have hnone : pending.length ≤ emitted := Nat.le_of_not_lt hnone
    have hready := h.ready side rfl
    rw [List.drop_of_length_le hnone]
    let idle : Frame := { f with cell := { f.cell with progress := .join ⟨some side, [], 0⟩ } }
    refine .step (g := idle) rfl (.ite (fun _ => .pure ?_) fun _ => ?_)
    · exact Found.refills (found_idle hready rfl h.left (.all (.none _)) (List.forall_mem_nil _))
    refine Leaves.bind_run ((Enduring.fetch (f := idle) h.left hs).mono (fun _ hg => hg) fun e g hg => ?_)
      fun chunk g hrun hg => ?_
    · exact Found.misses (found_idle hready (by rw [hg.1.cell]) hg.1.enduring hg.2 (List.forall_mem_nil _))
    obtain ⟨hg, hbuffer, hsees, hread⟩ := hg
    obtain rfl := buffer_of_fetch hrun
    have hidle (d : Chunk) (hnone : J.foundIn side g.cell.buffer = []) :
        J.Found f.below side [] ⟨{ g with out := d }.cell, { g with out := d }.below⟩ ⟨some side, [], 0⟩ [g.cell.buffer] :=
      found_idle hready (by rw [hg.cell]) hg.enduring (.all hread) (by simpa using hnone)
    refine .ite (fun he => .pure (Found.refills (hidle g.out (foundIn_empty hbuffer.1 he)))) fun _ => ?_
    refine .ite (fun hzero => .filling (fun d => Found.refills (hidle d (if_pos hzero))) fun _ d =>
      Found.misses (hidle d (if_pos hzero))) fun hzero => ?_
    refine .lift_bind (fun e he => Found.misses (hidle g.out ?_)) fun keyColumns hcolumns => ?_
    · rw [foundIn, if_neg hzero, he]
    generalize hprobe : probeRows J.kind side keyColumns g.cell.buffer.activeRows = answer
    obtain ⟨flags, pairs⟩ := answer
    obtain rfl : pairs = J.foundIn side g.cell.buffer := by
      rw [foundIn, if_neg hzero, hcolumns]
      show pairs = (probeRows _ _ _ _).2
      rw [hprobe]
    -- the pairs stand in the cell before the flags are looked at, so a key that fails leaves them owed
    let owing : Frame := { g with cell := { g.cell with progress := .join ⟨some side, J.foundIn side g.cell.buffer, 0⟩ } }
    have hfinished : owing.cell.finished = false := by
      show g.cell.finished = false
      rw [hg.cell]
      exact hf
    have hkeeps : J.Keeps ⟨owing.cell, owing.below⟩ ⟨some side, J.foundIn side g.cell.buffer, 0⟩ :=
      keeps_found hready rfl hg.enduring hbuffer hfinished
    have hfound : J.Found f.below side [] ⟨owing.cell, owing.below⟩ ⟨some side, J.foundIn side g.cell.buffer, 0⟩
        [g.cell.buffer] := ⟨hkeeps, rfl, .all hread, by simp⟩
    refine .step (g := owing) rfl (.liftQuery_bind (fun e _ => ⟨_, _, hfound, rfl, fun hcrash => by cases hcrash⟩)
      fun flags _ => ?_)
    refine leaves_lookedUp rfl (foundIn_of_kind · _) hfound fun d hd => ?_
    have hrest := ih (f := { owing with out := d }) hkeeps hfinished hsees (.inl rfl)
      fun hkind => (hd hkind).trans (hg.out.trans (hout hkind))
    refine hrest.mono (fun k hk => ?_) fun e k hk => ?_
    · obtain ⟨q, fed, hk, hanswer⟩ := hk
      exact ⟨q, _, hk.after hread rfl, hanswer⟩
    · obtain ⟨q, fed, hk, hanswer⟩ := hk
      exact ⟨q, _, hk.after hread rfl, hanswer⟩

end

/-! ### Pulls -/

section
variable {below : List Cell}

theorem joinRight_run (hright : J.right.Proper J.sees J.right.start.cells) (hs : J.sees f.session.masks)
    (h : joinRight (J.on.map Prod.snd) J.right p f = .ok side g) :
    side.Ready J.right.types ∧ J.sees g.session.masks ∧ g.out = f.out ∧ g.below = f.below ∧
      ∃ held, g.cell = { f.cell with progress := .join { p with side := some side }, reserved := held } := by
  refine keepRight_run (Q := fun side => side.Ready J.right.types) (k := fun side => .join { p with side := some side })
    hright hs (fun buffered all g hall => .lift_bind fun columns hcolumns => .lift_bind fun side hside => ?_) h
  rw [hall.counted] at hside
  exact (Pull.Agree.reserve _).bind fun _ g' hg' => .pure ⟨JoinSide.ofColumns_ready (hall.materialize hcolumns) hside, hg'⟩

theorem fails_joinRight (p : JoinProgress) : Fails (joinRight (J.on.map Prod.snd) J.right p) f fun _ g =>
    (∃ held, g.cell = { f.cell with reserved := held }) ∧ g.below = f.below :=
  fails_keepRight fun _ hbooks => preserves_finishJoin hbooks _

/-- The work of a pull, once there is a right side. -/
def goOn (J : JoinOver) (p : JoinProgress) (side : JoinSide) : Pull Unit := do
  let rounds := (← J.left.rounds) + 1
  lendingSide (probe J.kind (J.on.map Prod.fst) J.left J.right side rounds { p with side := some side })

/-- The work of a pull. -/
def work (J : JoinOver) : Pull Unit := do
  match ← Pull.progress with
  | .join p => do
    let side ← match p.side with
      | some side => pure side
      | none => joinRight (J.on.map Prod.snd) J.right p
    J.goOn p side
  | _ => fail (.internal (.otherState "HashJoin"))

theorem pull_op (J : JoinOver) : J.op.pull = answer J.config J.types J.work := rfl

/-- What a pull that owes nothing leaves: the pairs of the chunks it has fetched. -/
structure Sought (J : JoinOver) (below : List Cell) (s : State) (q : JoinProgress) (fed : List Chunk) : Prop where
  keeps : J.Keeps s q
  fetches : J.left.Fetches J.sees below fed s.below
  /-- The right side that found them is still there, unless a crash has taken it along. -/
  pairs : fed = [] ∧ q.pending = [] ∨
    ∃ side, q.pending = fed.flatMap (J.foundIn side) ∧ (q.side = some side ∨ q.side = none)

/-- It has handed out the first piece of them, -/
def Served (J : JoinOver) (below : List Cell) (g : Frame) : Prop :=
  ∃ q fed, J.Sought below ⟨g.cell, g.below⟩ q fed ∧ q.emitted = min J.config.capacity q.pending.length ∧
    ∀ side, q.side = some side → q.pending ≠ [] → J.Piece g.cell.buffer side { q with emitted := 0 } g.out

/-- or, if it fails, nothing. -/
def Denied (J : JoinOver) (below : List Cell) (s : State) : Prop := ∃ q fed, J.Sought below s q fed ∧ q.emitted = 0

theorem Found.sought {q : JoinProgress} {fed : List Chunk} (h : J.Found below side [] s q fed) : J.Sought below s q fed :=
  ⟨h.keeps, h.fetches, .inr ⟨side, h.pairs, .inl h.taken⟩⟩

theorem Keeps.of_cell {t : State} (h : J.Keeps s p) (hp : t.cell.progress = s.cell.progress)
    (hbuffer : t.cell.buffer = s.cell.buffer) (hbelow : t.below = s.below)
    (hend : t.cell.finished = true → s.cell.finished = true ∨ p.pending = []) : J.Keeps t p where
  progress := hp.trans h.progress
  left := hbelow ▸ h.left
  sideless := h.sideless
  ready := h.ready
  cursor := h.cursor
  pieces := h.pieces
  found := hbuffer ▸ h.found
  finished hf := (hend hf).elim h.finished id

/-- The end of the stream is marked where there are no pairs. -/
theorem Sought.ended {q : JoinProgress} {fed : List Chunk} (h : J.Sought below ⟨g.cell, g.below⟩ q fed)
    (hend : g.out.isEmpty = true → q.pending = []) : J.Sought below ⟨g.ended.cell, g.ended.below⟩ q fed where
  keeps := h.keeps.of_cell (Frame.progress_ended g) (Frame.buffer_ended g) (Frame.below_ended g) fun hf => by
    rw [Frame.finished_ended, Bool.or_eq_true] at hf
    exact hf.imp_right hend
  fetches := (Frame.below_ended g).symm ▸ h.fetches
  pairs := h.pairs

variable (hpos : 1 ≤ J.config.capacity) (hmax : J.config.capacity ≤ maxCount)
include hpos

/-- A piece of what is owed has a row. -/
theorem Piece.not_empty {buffer d : Chunk} (h : J.Piece buffer side p d) (howed : p.emitted < p.pending.length) :
    d.isEmpty = false := by
  have hcount := h.count
  rw [Chunk.isEmpty, decide_eq_false_iff_not]
  omega

theorem Served.ended (h : J.Served below g) : J.Served below g.ended := by
  obtain ⟨q, fed, hg, hemitted, hpiece⟩ := h
  refine ⟨q, fed, hg.ended fun he => ?_, hemitted, by simpa using hpiece⟩
  by_contra hsome
  obtain ⟨side, hside⟩ := Option.ne_none_iff_exists'.mp fun hnone => hsome (hg.keeps.sideless hnone).1
  have hfull := (hpiece side hside hsome).not_empty hpos (List.length_pos_iff.mpr hsome)
  cases he.symm.trans hfull

omit hpos in
/-- A chunk that is not sound, which the check refuses, is none of pairs. -/
theorem Served.unsound (h : J.Served below g) (hg : ¬g.out.Sound) : J.Denied below ⟨g.ended.cell, g.ended.below⟩ := by
  obtain ⟨q, fed, hq, hemitted, hpiece⟩ := h
  have hempty : q.pending = [] := by
    by_contra hsome
    obtain ⟨side, hside⟩ := Option.ne_none_iff_exists'.mp fun hnone => hsome (hq.keeps.sideless hnone).1
    exact hg (hpiece side hside hsome).sound
  refine ⟨q, fed, hq.ended fun _ => hempty, ?_⟩
  rw [hemitted, hempty]
  exact Nat.min_zero _

include hmax

/-- A crash takes the right side along, and leaves no pairs. -/
theorem leaves_goOn (h : J.Keeps ⟨f.cell, f.below⟩ { p with side := some side }) (hnone : p.pending.length ≤ p.emitted)
    (hf : f.cell.finished = false) (hs : J.sees f.session.masks) (hout : f.out = Chunk.blank J.types J.config.capacity) :
    Leaves (J.goOn p side) f (J.Served f.below) fun _ g => J.Denied f.below ⟨g.cell, g.below⟩ := by
  have hprobe := leaves_probe hpos hmax (J.left.rowsBelow f.below + 1 + 1) h hf hs (.inr ⟨Nat.succ_ne_zero _, hnone⟩)
    fun _ => hout
  rw [List.drop_of_length_le hnone] at hprobe
  refine .step rfl (leaves_lent (hprobe.mono (fun g ⟨q, fed, hfound, hemitted, hpiece⟩ => ?_) fun _ _ hg => hg)
    (fun e g ⟨q, fed, hfound, hemitted, _⟩ _ => ⟨q, fed, hfound.sought, hemitted⟩)
    fun g ⟨q, fed, hfound, hemitted, hcrash⟩ => ?_)
  · exact ⟨q, fed, hfound.sought, hemitted, fun side' hside => Option.some.inj (hfound.taken.symm.trans hside) ▸ hpiece⟩
  · have hforget : g.forgetSide = { g with cell := { g.cell with progress := .join { q with side := none } } } := by
      rw [Frame.forgetSide, hfound.keeps.progress]
    have hidle : ({ q with side := none } : JoinProgress) = ⟨none, [], 0⟩ := by rw [hcrash rfl, hemitted]
    rw [hforget, hidle]
    have hpairs : [] = fed.flatMap (J.foundIn side) := (hcrash rfl).symm.trans hfound.pairs
    have hkeeps : J.Keeps ⟨{ g.cell with progress := .join ⟨none, [], 0⟩ }, g.below⟩ ⟨none, [], 0⟩ :=
      keeps_idle (fun _ hside => by cases hside) rfl hfound.keeps.left
    exact ⟨⟨none, [], 0⟩, fed, ⟨hkeeps, hfound.fetches, .inr ⟨side, hpairs, .inr rfl⟩⟩, rfl⟩

theorem leaves_pull (hright : J.right.Proper J.sees J.right.start.cells) (h : J.Keeps s p)
    (hnone : p.pending.length ≤ p.emitted) {session : Session} (hs : J.sees session.masks) (out : Chunk) :
    Leaves J.op.pull ⟨s.cell, s.below, session, out⟩ (J.Served s.below) fun _ g => J.Denied s.below ⟨g.cell, g.below⟩ := by
  cases hf : s.cell.finished with
  | true =>
    have hempty := h.finished hf
    refine .of_ok (pull_of_finished rfl hf session out)
      ⟨p, [], ⟨h, .all (.none _), .inl ⟨rfl, hempty⟩⟩, ?_, fun _ _ hsome => absurd hempty hsome⟩
    have hcursor := h.cursor
    rw [hempty, List.length_nil] at hcursor ⊢
    rw [Nat.min_zero, Nat.le_zero.mp hcursor]
  | false =>
    refine J.pull_op ▸ leaves_answer (I := J.Served s.below) hf (.step rfl ?_) (fun g hg => hg.ended hpos)
      fun e g hg hunsound => hg.unsound hunsound
    simp only [h.progress]
    cases hside : p.side with
    | some side => exact leaves_goOn hpos hmax (by rw [← hside]; exact h) hnone hf hs rfl
    | none =>
      obtain ⟨hempty, hzero⟩ := h.sideless hside
      have hdenied (g : Frame) (held : Nat) (hcell : g.cell = { s.cell with reserved := held }) (hbelow : g.below = s.below) :
          J.Denied s.below ⟨g.cell, g.below⟩ :=
        ⟨p, [], ⟨h.of_cell (by rw [hcell]) (by rw [hcell]) hbelow fun _ => .inr hempty, hbelow ▸ .all (.none _),
          .inl ⟨rfl, hempty⟩⟩, hzero⟩
      have hjoin : Leaves (joinRight (J.on.map Prod.snd) J.right p)
          ⟨s.cell, s.below, session, Chunk.blank J.types J.config.capacity⟩ (fun _ => True)
          fun _ g => J.Denied s.below ⟨g.cell, g.below⟩ :=
        ⟨fun _ _ _ => trivial, (fails_joinRight p).mono fun _ g ⟨⟨held, hcell⟩, hbelow⟩ => hdenied g held hcell hbelow⟩
      refine hjoin.bind_run fun side g hrun _ => ?_
      obtain ⟨hready, hsees, hout, hbelow, held, hcell⟩ := joinRight_run hright hs hrun
      have hkeeps : J.Keeps ⟨g.cell, g.below⟩ { p with side := some side } := by
        rw [hempty, hzero]
        refine keeps_idle (fun _ hside => Option.some.inj hside ▸ hready) ?_ (hbelow ▸ h.left)
        rw [hcell, hempty, hzero]
      have hfinished : g.cell.finished = false := by rw [hcell]; exact hf
      have hrest := leaves_goOn hpos hmax hkeeps hnone hfinished hsees hout
      rw [hbelow] at hrest
      exact hrest

omit hpos hmax in
/-- While pairs are owed no input is asked for more. -/
theorem work_owed (hp : f.cell.progress = .join p) (hside : p.side = some side) (howed : p.emitted < p.pending.length) :
    J.work f = lendingSide (handOutPairs side p) f := by
  have hsame : ({ p with side := some side } : JoinProgress) = p := by rw [← hside]
  have hprobe (rounds : Nat) :
      probe J.kind (J.on.map Prod.fst) J.left J.right side (rounds + 1) p = handOutPairs side p := by
    rw [probe, if_pos howed]
  show (match f.cell.progress with
    | .join p => do
      let side ← match p.side with
        | some side => pure side
        | none => joinRight (J.on.map Prod.snd) J.right p
      J.goOn p side
    | _ => fail (.internal (.otherState "HashJoin")) : Pull Unit) f = _
  simp only [hp, hside]
  show lendingSide (probe J.kind (J.on.map Prod.fst) J.left J.right side (J.left.rowsBelow f.below + 1 + 1)
    { p with side := some side }) f = _
  rw [hsame, hprobe]

/-- A pull that owes pairs hands out the next piece of them, and changes nothing else. -/
theorem pull_owed (h : J.Keeps s p) (howed : p.emitted < p.pending.length) (hstored : p.pending.length ≤ maxLength)
    (session : Session) (out : Chunk) : ∃ side d, p.side = some side ∧ J.Piece s.cell.buffer side p d ∧
      J.op.pull ⟨s.cell, s.below, session, out⟩ =
        .ok () ⟨{ s.cell with progress := .join (J.next p) }, s.below, session, d⟩ := by
  obtain ⟨hf, hsome⟩ := h.unfinished howed
  obtain ⟨side, hside, -⟩ := h.within hsome
  obtain ⟨d, hrun, hpiece⟩ := handOutPairs_run (f := ⟨s.cell, s.below, session, Chunk.blank J.types J.config.capacity⟩) h hside
    howed hpos (h.room howed hmax hstored) rfl
  refine ⟨side, d, hside, hpiece, ?_⟩
  have hwork : J.work ⟨s.cell, s.below, session, Chunk.blank J.types J.config.capacity⟩ =
      .ok () ⟨{ s.cell with progress := .join (J.next p) }, s.below, session, d⟩ := by
    rw [work_owed h.progress hside howed, lendingSide, hrun]
  refine (J.pull_op ▸ answer_of_work (f := ⟨s.cell, s.below, session, out⟩) hf hwork hpiece.sound).trans ?_
  rw [Frame.ended, if_neg (by simpa using hpiece.not_empty hpos howed)]

omit hpos hmax in
/-- Over any other inputs of these types it is the same. -/
theorem pull_owed_alike (h : J.Keeps s p) (howed : p.emitted < p.pending.length) {left right : Operator}
    (htypes : J.kind.outputTypes left.types right.types = J.types) (session : Session) (out : Chunk) :
    (join J.config J.kind J.on left right).pull ⟨s.cell, s.below, session, out⟩ =
      J.op.pull ⟨s.cell, s.below, session, out⟩ := by
  obtain ⟨side, hside, -⟩ := h.within (h.unfinished howed).2
  show answer J.config (J.kind.outputTypes left.types right.types) { J with left, right }.work _ = answer J.config J.types J.work _
  rw [htypes]
  let blank : Frame := ⟨s.cell, s.below, session, Chunk.blank J.types J.config.capacity⟩
  have hwork (J : JoinOver) : J.work blank = lendingSide (handOutPairs side p) blank := work_owed h.progress hside howed
  exact answer_congr fun _ => (hwork { J with left, right }).trans (hwork J).symm

end

end JoinOver
end QueryEngine
