import Mathlib.Algebra.Order.Floor.Div
import QueryEngine.Proofs.Pull.Buffered
import QueryEngine.Proofs.Pull.Fails
import QueryEngine.Proofs.Pull.Runs

/-! Outputs handed out over a run.

Once an operator has its output in the cell nothing can fail: every pull hands out the
next rows, as many as there is room for, and after the last of them nothing more
(`pull_serving`). So all there is to know of a run is what the output holds, which the
first pull computes from the rows of the input (`Pulls.served`). -/
namespace QueryEngine

namespace Operator
variable {config : Config} {op input : Operator} {sees : List (Nat × Mask) → Prop} {keep : Option Output → Progress}
  {types : List SqlType} {next : Progress → Pull Unit} {s s' : State} {rest : List Row} {chunks : List Chunk}

/-- The rows that are left of the output in the cell. -/
structure Serving (keep : Option Output → Progress) (types : List SqlType) (s : State) (rest : List Row) : Prop where
  output : ∃ o all, s.cell.progress = keep (some o) ∧ o.Holds types all ∧ rest = all.drop o.position
  ended : s.cell.finished = true → rest = []

/-- The next piece of an output, which is there to be taken. -/
theorem fillPiece {o : Output} {all : List Row} {len : Nat} (capacity : Nat) (ho : Lists o.columns types all)
    (hlen : o.position + len ≤ all.length) :
    ∃ d, (do
      Filling.putComputed 0 (o.columns.map fun (c : Column) => c.slice o.position len)
      modify fun c => c.setCount len : Filling Unit) (Chunk.blank types capacity) = .ok () d := by
  have hslices : (o.columns.map fun c : Column => c.slice o.position len) =
      (o.columns.map fun c => c.window o.position len).map Except.ok := by
    rw [List.map_map]
    refine List.map_congr_left fun c hc => if_pos ?_
    rw [ho.size hc]
    exact hlen
  have htypes : (o.columns.map fun c => c.window o.position len).map Column.type <+:
      (Chunk.blank types capacity).types.drop 0 := by
    rw [List.map_map, List.drop_zero, Chunk.types_blank, ← ho.typed]
    exact List.prefix_refl _
  obtain ⟨d, hd, -⟩ := Filling.putAll_of_types htypes
  rw [hslices, ← Filling.putAll_eq_putComputed, run_bind, hd]
  exact ⟨_, rfl⟩

/-- Handing out takes the next rows off those that are left. -/
theorem handOut_serving {o : Output} {all : List Row} {f : Frame} {capacity : Nat}
    (hp : f.cell.progress = keep (some o)) (hout : f.out = Chunk.blank types capacity) (ho : o.Holds types all) :
    ∃ g, handOut keep o f = .ok () g ∧ g.out.Sound ∧ g.out.rows = (all.drop o.position).take (max capacity 1) ∧
      g.cell.finished = f.cell.finished ∧ ∃ o', g.cell.progress = keep (some o') ∧ o'.Holds types all ∧
        all.drop o'.position = (all.drop o.position).drop (max capacity 1) := by
  have hcounted := ho.counted
  by_cases hend : o.rows ≤ o.position
  · have hnone : all.drop o.position = [] := List.drop_of_length_le (hcounted ▸ hend)
    refine ⟨f, ?_, ?_, ?_, rfl, o, hp, ho, ?_⟩
    · unfold handOut
      rw [if_pos hend]
      rfl
    · rw [hout]
      exact Chunk.sound_blank _ _
    · rw [hout, hnone, (Chunk.sound_blank _ _).rows_eq_nil_iff.mpr rfl, List.take_nil]
    · rw [hnone, List.drop_nil]
  have hlists := ho.lists (by omega)
  generalize hlen : min (max capacity 1) (o.rows - o.position) = len
  obtain ⟨d, hd⟩ := fillPiece capacity hlists (show o.position + len ≤ all.length by omega)
  obtain ⟨hsound, -, -, -, hrows⟩ := fillPiece_ok hlists hd
  refine ⟨{ f with
    out := d
    cell := { f.cell with progress := keep (some { o with position := o.position + len }) } }, ?_, hsound, ?_, rfl,
    _, rfl, ⟨ho.lists, ho.counted⟩, ?_⟩
  · have hroom : min f.out.capacity (o.rows - o.position) = len := by rw [hout]; exact hlen
    unfold handOut
    rw [if_neg hend]
    show (do
      Pull.filling (do
        Filling.putComputed 0 (o.columns.map fun (c : Column) => c.slice o.position (min f.out.capacity (o.rows - o.position)))
        modify fun c => c.setCount (min f.out.capacity (o.rows - o.position)))
      Pull.setProgress (keep (some { o with position := o.position + min f.out.capacity (o.rows - o.position) })) :
        Pull Unit) f = _
    rw [hroom, run_bind, Pull.filling, hout, hd]
    rfl
  · rw [hrows (by omega), List.take_eq_take_iff, List.length_drop]
    omega
  · show all.drop (o.position + len) = _
    rw [List.drop_drop, List.drop_eq_drop_iff]
    omega

/-- Runs that hand out some rows, every chunk but the last of them full, and then nothing
more for as long as one pulls. -/
structure HandsOut (op : Operator) (capacity : Nat) (rows : List Row) (chunks : List Chunk) (s : State) : Prop where
  listed : chunks.flatMap Chunk.rows = rows.take (chunks.length * max capacity 1)
  full : ∀ i c, chunks[i]? = some c → i + 1 < rows.length ⌈/⌉ max capacity 1 → c.count = max capacity 1
  ended : ∀ i c, chunks[i]? = some c → (c.isEmpty = true ↔ rows.length ⌈/⌉ max capacity 1 ≤ i)
  goesOn : ∀ session out, ∃ f, op.pull ⟨s.cell, s.below, session, out⟩ = .ok () f

/-- Operators whose first pull computes an output from the rows of the input, which then
is handed out. -/
structure Blocking (config : Config) (op input : Operator) (keep : Option Output → Progress) (compute : Pull Output)
    (next : Progress → Pull Unit) : Prop where
  pull : op.pull = answer config op.types (do next (← Pull.progress))
  start : op.start = State.above (keep none) input.start
  kept : ∀ o, next (keep (some o)) = handOut keep o
  fresh : next (keep none) = do handOut keep (← firstOutput keep compute)

variable {compute : Pull Output}

/-- A pull hands out the next of the rows that are left. -/
theorem Blocking.pull_serving (hop : Blocking config op input keep compute next) (h : Serving keep op.types s rest)
    (session : Session) (out : Chunk) :
    ∃ g, op.pull ⟨s.cell, s.below, session, out⟩ = .ok () g ∧ g.out.Sound ∧
      g.out.rows = rest.take (max config.capacity 1) ∧
      Serving keep op.types ⟨g.cell, g.below⟩ (rest.drop (max config.capacity 1)) := by
  obtain ⟨o, all, hp, ho, hrest⟩ := h.output
  cases hf : s.cell.finished with
  | true =>
    refine ⟨_, pull_of_finished hop.pull hf session out, Chunk.sound_blank _ _, ?_, ⟨o, all, hp, ho, ?_⟩, fun _ => ?_⟩
    · rw [h.ended hf, (Chunk.sound_blank _ _).rows_eq_nil_iff.mpr rfl, List.take_nil]
    · rw [← hrest, h.ended hf, List.drop_nil]
    · rw [h.ended hf, List.drop_nil]
  | false =>
    obtain ⟨g, hhand, hsound, hrows, hfinished, o', hp', ho', hleft⟩ :=
      handOut_serving (f := ⟨s.cell, s.below, session, Chunk.blank op.types config.capacity⟩) hp rfl ho
    have hwork : (do next (← Pull.progress) : Pull Unit)
        ⟨s.cell, s.below, session, Chunk.blank op.types config.capacity⟩ = .ok () g := by
      rw [← hhand, ← hop.kept, ← hp]
      rfl
    have hanswer := answer_of_work (f := ⟨s.cell, s.below, session, out⟩) hf hwork hsound
    refine ⟨g.ended, hop.pull ▸ hanswer, ?_, ?_, ⟨o', all, ?_, ho', ?_⟩, fun he => ?_⟩
    · rw [Frame.out_ended]
      exact hsound
    · rw [Frame.out_ended, hrows, hrest]
    · rw [← hp']
      exact g.progress_ended
    · rw [hleft, hrest]
    · have he : (g.cell.finished || g.out.isEmpty) = true := g.finished_ended ▸ he
      rw [hfinished, hf, Bool.false_or, ← hsound.rows_eq_nil_iff, hrows, ← hrest, List.take_eq_nil_iff] at he
      rcases he with he | he
      · omega
      · rw [he, List.drop_nil]

/-- What a run takes off the rows that are left. -/
theorem Blocking.serving (hop : Blocking config op input keep compute next) (h : Serving keep op.types s rest)
    (hp : op.Pulls sees s chunks s') :
    Serving keep op.types s' (rest.drop (chunks.length * max config.capacity 1)) ∧
      chunks.flatMap Chunk.rows = rest.take (chunks.length * max config.capacity 1) ∧
      ∀ i c, chunks[i]? = some c → c.count = min (max config.capacity 1) (rest.length - i * max config.capacity 1) := by
  induction hp generalizing rest with
  | none s =>
    rw [List.length_nil, Nat.zero_mul]
    exact ⟨h, rfl, fun _ _ hc => (by cases hc)⟩
  | @next s s' session out f chunks _ hf _ ih =>
    obtain ⟨g, hg, hsound, hrows, hserving⟩ := hop.pull_serving h session out
    cases hg.symm.trans hf
    obtain ⟨hlast, hlisted, hcounts⟩ := ih hserving
    rw [List.length_cons, Nat.succ_mul, Nat.add_comm]
    refine ⟨?_, ?_, fun i c hc => ?_⟩
    · rw [← List.drop_drop]
      exact hlast
    · rw [List.flatMap_cons, hrows, hlisted, List.take_add]
    · cases i with
      | zero =>
        cases hc
        rw [← hsound.length_rows, hrows, List.length_take, Nat.zero_mul, Nat.sub_zero]
      | succ i =>
        rw [hcounts i c (by simpa using hc), List.length_drop, Nat.succ_mul]
        omega

/-- A run that begins with an output in the cell hands it out. -/
theorem Blocking.handsOut_serving (hop : Blocking config op input keep compute next) {all : List Row}
    (h : Serving keep op.types s all) (hp : op.Pulls sees s chunks s') : HandsOut op config.capacity all chunks s' := by
  obtain ⟨hlast, hlisted, hcounts⟩ := hop.serving h hp
  have hceil (i : Nat) : all.length ⌈/⌉ max config.capacity 1 ≤ i ↔ all.length ≤ i * max config.capacity 1 := by
    rw [ceilDiv_le_iff_le_mul (by omega), Nat.mul_comm]
  refine ⟨hlisted, fun i c hc hi => ?_, fun i c hc => ?_, fun session out => ?_⟩
  · have hmore := (hceil (i + 1)).not.mp (Nat.not_le_of_lt hi)
    rw [Nat.succ_mul] at hmore
    rw [hcounts i c hc]
    omega
  · rw [hceil, Chunk.isEmpty, decide_eq_true_eq, hcounts i c hc]
    omega
  · obtain ⟨g, hg, _⟩ := hop.pull_serving hlast session out
    exact ⟨g, hg⟩

/-! ### The first pull -/

/-- Behind a first pull that succeeds an output has been computed, and its first rows are handed
out from the cell. -/
theorem Blocking.first_run (hop : Blocking config op input keep compute next) (hp : s.cell.progress = keep none)
    (hf : s.cell.finished = false) {session : Session} {out : Chunk} {g : Frame}
    (hg : op.pull ⟨s.cell, s.below, session, out⟩ = .ok () g) :
    ∃ o k k', Pull.buffering compute ⟨s.cell, s.below, session, Chunk.blank op.types config.capacity⟩ = .ok o k ∧
      handOut keep o { k with cell := { k.cell with progress := keep (some o) } } = .ok () k' ∧ g = k'.ended := by
  let fresh : Frame := ⟨s.cell, s.below, session, Chunk.blank op.types config.capacity⟩
  obtain ⟨k', hwork, rfl⟩ := answer_ok (f := ⟨s.cell, s.below, session, out⟩) hf (hop.pull ▸ hg)
  have hwork : (do handOut keep (← firstOutput keep compute) : Pull Unit) fresh = .ok () k' := by
    rw [← hop.fresh, ← hp]
    exact hwork
  obtain ⟨o, g', hfirst, hhand⟩ := run_bind_eq_ok.mp hwork
  obtain ⟨o', k, hbuffered, hkeep⟩ := run_bind_eq_ok.mp hfirst
  cases hkeep
  exact ⟨o, k, k', hbuffered, hhand, rfl⟩

/-- What computing an output leaves: rows that `R` tells of those of the input. -/
structure Made (sees : List (Nat × Mask) → Prop) (types : List SqlType) (R : List Row → List Row → Prop)
    (given : List Row) (f : Frame) (o : Output) (g : Frame) : Prop where
  sees : sees g.session.masks
  out : g.out = f.out
  unfinished : g.cell.finished = f.cell.finished
  position : o.position = 0
  holds : ∃ all, o.Holds types all ∧ R given all

variable {R : List Row → List Row → Prop} {rows : List Row}

/-- The operator has not begun; its input still gives the rows. -/
structure Unstarted (keep : Option Output → Progress) (input : Operator) (sees : List (Nat × Mask) → Prop)
    (rows : List Row) (s : State) : Prop where
  progress : s.cell.progress = keep none
  unfinished : s.cell.finished = false
  below : Gives ⟨0, False, True, sees⟩ input input rows s.below

theorem Blocking.unstarted (hop : Blocking config op input keep compute next) (h : input.Streams sees rows) :
    Unstarted keep input sees rows op.start := by
  rw [hop.start]
  exact ⟨rfl, rfl, h⟩

/-- What a first pull computes can be handed out. -/
theorem Unstarted.computed (h : Unstarted keep input sees rows s)
    (hcompute : ∀ f given, Gives ⟨0, False, True, sees⟩ input input given f.below → sees f.session.masks →
      Pull.Agree compute compute f (Made sees types R given f))
    {session : Session} {out : Chunk} {g : Frame} {o : Output} (hs : sees session.masks)
    (ho : Pull.buffering compute ⟨s.cell, s.below, session, out⟩ = .ok o g) :
    g.cell.finished = false ∧ g.out = out ∧ Made sees types R rows ⟨s.cell, s.below, session, out⟩ o g := by
  have hmade : Made sees types R rows ⟨s.cell, s.below, session, out⟩ o g :=
    (Pull.Agree.buffering ((hcompute _ rows h.below hs).mono fun o g hg =>
      ⟨hg.sees, hg.out, hg.unfinished, hg.position, hg.holds⟩)).2 o g ho
  exact ⟨hmade.unfinished.trans h.unfinished, hmade.out, hmade⟩

section
variable (hop : Blocking config op input keep compute next) (h : Unstarted keep input sees rows s)
  (hcompute : ∀ f given, Gives ⟨0, False, True, sees⟩ input input given f.below → sees f.session.masks →
    Pull.Agree compute compute f (Made sees op.types R given f))
  {session : Session} {out : Chunk} {g : Frame}
include hop h hcompute

/-- A first pull that succeeds answers as if the output had been in the cell before. -/
theorem Blocking.first (hs : sees session.masks) (hg : op.pull ⟨s.cell, s.below, session, out⟩ = .ok () g) :
    ∃ all t later, R rows all ∧ Serving keep op.types t all ∧ sees later.masks ∧
      op.pull ⟨t.cell, t.below, later, out⟩ = .ok () g := by
  obtain ⟨o, g', k, hbuffered, hhand, rfl⟩ := hop.first_run h.progress h.unfinished hg
  obtain ⟨hunfinished, hblank, hmade⟩ := h.computed hcompute hs hbuffered
  obtain ⟨all, ho, hR⟩ := hmade.holds
  obtain ⟨k', hhand', hsound, -⟩ := handOut_serving
    (f := { g' with cell := { g'.cell with progress := keep (some o) } }) rfl hblank ho
  cases hhand'.symm.trans hhand
  refine ⟨all, ⟨{ g'.cell with progress := keep (some o) }, g'.below⟩, g'.session, hR,
    ⟨⟨o, all, rfl, ho, by rw [hmade.position, List.drop_zero]⟩, fun hf => ?_⟩, hmade.sees, ?_⟩
  · cases hunfinished.symm.trans hf
  · have hkept : (do next (← Pull.progress) : Pull Unit) ⟨{ g'.cell with progress := keep (some o) }, g'.below, g'.session,
        Chunk.blank op.types config.capacity⟩ = .ok () k := by
      rw [← hhand, ← hop.kept, ← hblank]
      rfl
    rw [hop.pull]
    exact answer_of_work (f := ⟨{ g'.cell with progress := keep (some o) }, g'.below, g'.session, out⟩) hunfinished hkept
      hsound

/-- A first pull fails only in computing the output. -/
theorem Blocking.first_error (hs : sees session.masks) {e : Failure}
    (hg : op.pull ⟨s.cell, s.below, session, out⟩ = .error e g) :
    Pull.buffering compute ⟨s.cell, s.below, session, Chunk.blank op.types config.capacity⟩ = .error e g := by
  let fresh : Frame := ⟨s.cell, s.below, session, Chunk.blank op.types config.capacity⟩
  have hbegun : (do next (← Pull.progress) : Pull Unit) fresh =
      (do handOut keep (← firstOutput keep compute) : Pull Unit) fresh := by
    rw [← hop.fresh, ← h.progress]
    rfl
  cases hbuffered : Pull.buffering compute fresh with
  | error e' g' =>
    have hwork : (do next (← Pull.progress) : Pull Unit) fresh = .error e' g' := by
      rw [hbegun, firstOutput, run_bind, run_bind, hbuffered]
    rw [hop.pull, answer_eq config op.types _ h.unfinished, run_bind, hwork] at hg
    cases hg
    rfl
  | ok o g' =>
    obtain ⟨hunfinished, hblank, hmade⟩ := h.computed hcompute hs hbuffered
    obtain ⟨all, ho, _⟩ := hmade.holds
    obtain ⟨k, hhand, hsound, -⟩ := handOut_serving
      (f := { g' with cell := { g'.cell with progress := keep (some o) } }) rfl hblank ho
    have hwork : (do next (← Pull.progress) : Pull Unit) fresh = .ok () k := by
      rw [hbegun, firstOutput, run_bind, run_bind, hbuffered]
      exact hhand
    rw [hop.pull, answer_of_work (f := ⟨s.cell, s.below, session, out⟩) h.unfinished hwork hsound] at hg
    cases hg

/-- A first pull fails as computing the output does. -/
theorem Blocking.first_fails {P : Failure → Prop} (hs : sees session.masks)
    (hfails : Pull.Fails compute ⟨s.cell, s.below, session, Chunk.blank op.types config.capacity⟩ fun e _ => P e)
    {e : Failure} (hg : op.pull ⟨s.cell, s.below, session, out⟩ = .error e g) : P e :=
  Pull.Fails.buffering (E := fun e _ => P e) hfails e g (hop.first_error h hcompute hs hg)

/-- A run that begins with an operator that has not begun hands out what is computed from
the rows of the input. -/
theorem Blocking.handsOut_unstarted (hp : op.Pulls sees s chunks s') (hne : chunks ≠ []) :
    ∃ all, R rows all ∧ HandsOut op config.capacity all chunks s' := by
  cases hp with
  | none => exact absurd rfl hne
  | next hs hfirst hrest =>
    obtain ⟨all, t, later, hR, hserving, hlater, hg⟩ := hop.first h hcompute hs hfirst
    exact ⟨all, hR, hop.handsOut_serving hserving (Pulls.next hlater hg hrest)⟩

end

/-- A run from the start hands out what was computed from the rows of the input. -/
theorem Blocking.handsOut (hop : Blocking config op input keep compute next) (h : input.Streams sees rows)
    (hcompute : ∀ f given, Gives ⟨0, False, True, sees⟩ input input given f.below → sees f.session.masks →
      Pull.Agree compute compute f (Made sees op.types R given f))
    (hp : op.Pulls sees op.start chunks s') (hne : chunks ≠ []) :
    ∃ all, R rows all ∧ HandsOut op config.capacity all chunks s' :=
  hop.handsOut_unstarted (hop.unstarted h) hcompute hp hne

end Operator
end QueryEngine
