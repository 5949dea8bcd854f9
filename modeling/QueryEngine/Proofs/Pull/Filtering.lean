import QueryEngine.Proofs.Expr.Narrowed
import QueryEngine.Proofs.Join.Hash
import QueryEngine.Proofs.Pull.Reads
import QueryEngine.Proofs.Pull.Seeking

/-! Filters as filters of rows.

A filter hands out, one for each chunk of its input that has such rows, the rows on which all
its predicates are TRUE. A later predicate sees only what the earlier ones have kept; as an
expression can be evaluated on fewer rows wherever it can be on more, predicates one after
another do whatever their conjunction does. -/
namespace QueryEngine.Operator
open Pull
variable {config : Config} {input : Operator} {sees : List (Nat × Mask) → Prop} {ps qs : List Expr} {c d : Chunk}
  {fed outs chunks : List Chunk} {f : Frame} {given : List Row}

/-! ### Rows that are kept -/

/-- Whether a chunk has a row on which all predicates are TRUE. -/
def hasRow (ps : List Expr) (c : Chunk) : Bool := c.rows.any fun row => ps.all (Expr.holdsOn row)

/-- The chunks `fed` to a filter, and those that it has handed out: one for each that has a
row to be kept, in their order. -/
def Filtered (ps : List Expr) (fed outs : List Chunk) : Prop := List.Forall₂ (Sifted ps) (fed.filter (hasRow ps)) outs

theorem Sifted.isEmpty_eq (h : Sifted ps c d) : d.isEmpty = !hasRow ps c := by
  rw [Bool.eq_iff_iff, ← h.sound.rows_eq_nil_iff, h.rows, hasRow, Bool.not_eq_true', List.any_eq_false, List.filter_eq_nil_iff]

namespace Filtered

theorem rows (h : Filtered ps fed outs) :
    outs.flatMap Chunk.rows = (fed.flatMap Chunk.rows).filter fun row => ps.all (Expr.holdsOn row) := by
  have houts {kept outs : List Chunk} (h : List.Forall₂ (Sifted ps) kept outs) :
      outs.flatMap Chunk.rows = (kept.flatMap Chunk.rows).filter fun row => ps.all (Expr.holdsOn row) := by
    induction h with
    | nil => rfl
    | cons hd _ ih => rw [List.flatMap_cons, List.flatMap_cons, List.filter_append, hd.rows, ih]
  rw [houts h]
  clear h
  induction fed with
  | nil => rfl
  | cons c fed ih =>
    cases hc : hasRow ps c with
    | true =>
      rw [List.filter_cons_of_pos hc, List.flatMap_cons, List.flatMap_cons, List.filter_append, List.filter_append, ih]
    | false =>
      have hnone : c.rows.filter (fun row => ps.all (Expr.holdsOn row)) = [] :=
        List.filter_eq_nil_iff.mpr (List.any_eq_false.mp hc)
      rw [List.filter_cons_of_neg (by simp [hc]), ih, List.flatMap_cons, List.filter_append, hnone, List.nil_append]

/-- A chunk without a row to be kept is passed over. -/
theorem skip (h : Filtered ps fed outs) (hc : hasRow ps c = false) : Filtered ps (fed ++ [c]) outs := by
  rw [Filtered, List.filter_append, List.filter_cons_of_neg (by simp [hc]), List.filter_nil, List.append_nil]
  exact h

theorem answer (h : Filtered ps fed outs) (hc : hasRow ps c = true) (hd : Sifted ps c d) :
    Filtered ps (fed ++ [c]) (outs ++ [d]) := by
  rw [Filtered, List.filter_append, List.filter_cons_of_pos hc, List.filter_nil]
  exact List.rel_append h (.cons hd .nil)

end Filtered

/-- A filter's own work. -/
theorem logs_filterChunks (rounds : Nat) (hin : input.Proper sees f.below) (hs : sees f.session.masks)
    (hf : f.cell.finished = false) (he : f.out.isEmpty = true) (hout : f.out.Sound) (h : Filtered ps fed outs) :
    Pull.Agree (filterChunks input ps rounds) (filterChunks input ps rounds) f
      fun _ g => Logs input sees (fun fed outs _ => Filtered ps fed outs)
        (fun fed outs => Filtered ps fed outs ∧ ∃ c ∈ fed, c.isEmpty = true) fed outs f g := by
  induction rounds generalizing f fed with
  | zero => exact Pull.Agree.throw
  | succ rounds ih =>
    rw [filterChunks]
    refine (hin.fetch hs).bind fun chunk g hg => ?_
    have hfg : g.cell.finished = false := by rw [hg.cell]; exact hf
    refine Pull.Agree.ite (fun hlast => Pull.Agree.pure ⟨hg.out.symm ▸ hout, hfg, [chunk], hg.reads, fun _ => ?_, fun hfull => ?_⟩)
      fun _ => ?_
    · have hnone : hasRow ps chunk = false := by rw [hasRow, hg.sound.rows_eq_nil_iff.mpr hlast]; rfl
      exact ⟨h.skip hnone, chunk, List.mem_append_right _ (List.mem_singleton_self _), hlast⟩
    · rw [hg.out, he] at hfull
      cases hfull
    refine (Pull.Agree.filling (Q := fun _ g' => ∃ d, g' = { g with out := d } ∧ Sifted ps (g.out.reference chunk) d)
      fun _ d hd => ⟨d, rfl, keepTrue_sifted (hg.sound.reference _) hd⟩).bind fun _ g' hkept => ?_
    obtain ⟨d, rfl, hd⟩ := hkept
    have hempty : d.isEmpty = !hasRow ps chunk := hd.isEmpty_eq
    refine Pull.Agree.step rfl (Pull.Agree.ite (fun hkept => ?_) fun hnone => ?_)
    · have hkept : d.isEmpty = false := by simpa using hkept
      have hrow : hasRow ps chunk = true := by simpa [hkept] using hempty
      refine Pull.Agree.pure ⟨hd.sound, hfg, [chunk], hg.reads, fun hlast => ?_, fun _ => ?_⟩
      · cases hkept.symm.trans hlast
      · exact h.answer hrow ⟨hd.sound, hd.columns, hd.active⟩
    · have hnone : d.isEmpty = true := by simpa using hnone
      have hrow : hasRow ps chunk = false := by simpa [hnone] using hempty
      refine Pull.Agree.step (a := ()) (g := { g with out := d.reset }) rfl ?_
      exact (ih (f := { g with out := d.reset }) hg.proper hg.masks hfg rfl d.sound_reset (h.skip hrow)).mono
        fun _ k hk => hk.after hg.reads

/-! ### Conjunctions -/

/-- Predicates one after another keep what their conjunction keeps. -/
theorem keepTrue_conjunction {e : Expr} (h : Expr.Conjunction ps e) (hc : c.Sound) (hfull : c.isEmpty = false)
    {rows : Selection} (hrows : e.selectRows c = .ok rows) : keepTrue ps c = .ok () (c.select rows) := by
  induction h generalizing c rows with
  | single p =>
    rw [keepTrue_cons, hrows]
    simp only [keepTrue]
    split <;> rfl
  | @and ps qs p q _ _ ihp ihq =>
    obtain ⟨⟨left, hleft⟩, ⟨right, hright⟩, hboth⟩ := Expr.selectRows_and hc hrows
    have hl := Expr.selectRows_ok hc hleft
    have hand : rows = left.filter fun r => q.holdsOn (c.row r) := by
      rw [Expr.selectRows_ok hc hrows, hl, List.filter_filter]
      exact List.filter_congr fun r hr => by rw [hboth r hr, Bool.and_comm]
    rw [keepTrue_append hfull, ihp hc hfull hleft]
    simp only
    cases he : (c.select left).isEmpty with
    | true =>
      have hnone : left = [] := List.length_eq_zero_iff.mp (of_decide_eq_true he)
      rw [hand, hnone]
      rfl
    | false =>
      -- the right side is evaluated on the rows that the left side has kept
      have hfewer : Chunk.Fewer c (c.select left) := hc.fewer_select fun r hr => List.mem_of_mem_filter (hl ▸ hr)
      obtain ⟨rows', hrows'⟩ := Expr.selectRows_fewer hfewer hright
      have hsame : rows' = rows := by
        rw [Expr.selectRows_ok hfewer.soundFewer hrows', hand]
        rfl
      simp only [Bool.false_eq_true, if_false]
      rw [ihq hfewer.soundFewer he hrows', hsame]
      rfl

theorem kept_conjunction {e : Expr} {capacity : Nat} (h : Expr.Conjunction ps e) (hc : c.Sound) (hfull : c.isEmpty = false)
    {left : Option Chunk} (hkept : kept capacity [e] c = .ok left) : kept capacity ps c = .ok left := by
  unfold kept at hkept ⊢
  have hsound : ({ c with capacity := capacity } : Chunk).Sound := hc.reference ⟨[], none, 0, capacity⟩
  rw [keepTrue_cons] at hkept
  cases hrows : e.selectRows { c with capacity := capacity } with
  | error x =>
    rw [hrows] at hkept
    cases hkept
  | ok rows =>
    have hone := keepTrue_conjunction (.single e) hsound hfull hrows
    rw [← keepTrue_cons, hone] at hkept
    rw [keepTrue_conjunction h hsound hfull hrows]
    exact hkept

/-- A search that succeeds does so with every step that keeps as much. -/
theorem Seeks.keeping {first second : Chunk → Except Failure (Option Chunk)} {i : Frame}
    {r : EStateM.Result Failure Frame (Option Chunk)} (h : Seeks input first i r) (hin : input.Proper sees i.cells)
    (hs : sees i.session.masks) (hr : ∃ found, outcomeOf r = .ok found)
    (hkeep : ∀ c : Chunk, c.Sound → c.isEmpty = false → ∀ left, first c = .ok left → second c = .ok left) :
    Seeks input second i r ∧ input.Proper sees (resultFrame r).cells := by
  induction h with
  | failed | refused =>
    obtain ⟨_, hr⟩ := hr
    cases hr
  | ended hpull he => exact ⟨.ended hpull he, (hin.step hs hpull).2.2⟩
  | found hpull he hfound =>
    obtain ⟨⟨hsound, _⟩, _, hproper⟩ := hin.step hs hpull
    exact ⟨.found hpull he (hkeep _ hsound he _ hfound), hproper⟩
  | passed hpull he hnone _ ih =>
    obtain ⟨⟨hsound, _⟩, hsees, hproper⟩ := hin.step hs hpull
    obtain ⟨hrest, hleft⟩ := ih hproper hsees hr
    exact ⟨.passed hpull he (hkeep _ hsound he _ hnone) hrest, hleft⟩

/-- Two filters over an input that have come as far. -/
structure Abreast (input : Operator) (sees : List (Nat × Mask) → Prop) (s t : State) : Prop where
  below : t.below = s.below
  buffer : t.cell.buffer = s.cell.buffer
  finished : t.cell.finished = s.cell.finished
  counted : ∀ cell ∈ s.below, cell.Counted
  proper : input.Proper sees s.below

section
variable (h : input.Halting) (hv : input.Verifies config)
include h hv

/-- Where the conjunction can be told, predicates one after another do the same. -/
theorem abreast_pull {e : Expr} (hconj : Expr.Conjunction ps e) {s t : State} (hst : Abreast input sees s t)
    {session : Session} (out : Chunk) (hs : sees session.masks)
    (hok : ∃ found, handedOf ((filter config [e] input).pull ⟨s.cell, s.below, session, out⟩) = .ok found) :
    Matched (Abreast input sees) ((filter config [e] input).pull ⟨s.cell, s.below, session, out⟩)
      ((filter config ps input).pull ⟨t.cell, t.below, session, out⟩) := by
  obtain ⟨hbelow, hbuffer, hfinished, hcounted, hproper⟩ := hst
  cases hf : s.cell.finished with
  | true =>
    rw [filter_finished config [e] input hf, filter_finished config ps input (hfinished.trans hf)]
    exact ⟨rfl, rfl, ⟨hbelow, hbuffer, hfinished, hcounted, hproper⟩⟩
  | false =>
    obtain ⟨cell, cells, hcells⟩ := List.exists_cons_of_ne_nil hproper.started
    let i : Frame := ⟨cell, cells, session, s.cell.buffer⟩
    have his : Over i ⟨s.cell, s.below, session, out⟩ := ⟨hcells, rfl, rfl⟩
    have hit : Over i ⟨t.cell, t.below, session, out⟩ := ⟨hbelow.trans hcells, rfl, hbuffer⟩
    obtain ⟨r, hseeks, hshows⟩ := filter_shows h hv [e] his hf hcounted
    obtain ⟨r', hseeks', hshows'⟩ := filter_shows h hv ps hit (hfinished.trans hf) (by rw [hbelow]; exact hcounted)
    rw [hshows.seen] at hok
    obtain ⟨hsame, hleft⟩ := hseeks.keeping (i := i) (show input.Proper sees (cell :: cells) from hcells ▸ hproper) hs hok
      fun c hc hfull left hkept => kept_conjunction hconj hc hfull hkept
    obtain rfl := hsame.unique hseeks'
    rw [hcells] at hcounted
    obtain ⟨hcell, hrest⟩ := List.forall_mem_cons.mp hcounted
    have hafter := hseeks.counted h hcell hrest
    refine ⟨hshows.seen.trans hshows'.seen.symm, hshows.above.session.trans hshows'.above.session.symm, ?_, ?_, ?_, ?_, ?_⟩
    · exact hshows'.above.below.trans hshows.above.below.symm
    · exact hshows'.above.buffer.trans hshows.above.buffer.symm
    · exact Bool.eq_iff_iff.mpr (hshows'.finished.trans hshows.finished.symm)
    · show ∀ cell ∈ (resultFrame _).below, cell.Counted
      rw [hshows.above.below]
      exact List.forall_mem_cons.mpr ⟨hafter.cell, hafter.below⟩
    · show input.Proper sees (resultFrame _).below
      rw [hshows.above.below]
      exact hleft

end

/-! ### Runs -/

/-- What a run of a filter has done over an input that gives some rows, of which it has read
the chunks `fed`. -/
structure HandsKept (ps : List Expr) (input : Operator) (sees : List (Nat × Mask) → Prop) (given : List Row)
    (fed chunks : List Chunk) (s : State) : Prop where
  read : input.Reads sees input.start.cells fed s.below
  /-- The chunks with rows are those of the input, each without the rows that are not kept. -/
  filtered : Filtered ps fed (withRows chunks)
  rows : chunks.flatMap Chunk.rows = (fed.flatMap Chunk.rows).filter fun row => ps.all (Expr.holdsOn row)
  /-- Empty chunks come last. -/
  unbroken : chunks.Pairwise fun c d => c.isEmpty = true → d.isEmpty = true
  complete : (∃ c ∈ chunks, c.isEmpty = true) →
    chunks.flatMap Chunk.rows = given.filter fun row => ps.all (Expr.holdsOn row)

theorem Proper.filter (h : input.Proper sees input.start.cells) (config : Config) (ps : List Expr) :
    (filter config ps input).Proper sees (filter config ps input).start.cells := by
  obtain ⟨rows, hrows⟩ := h.gives_untold config.capacity
  exact .of_gives (gives_filter rfl rfl ps hrows)

theorem filter_handsKept (config : Config) (ps : List Expr) (hin : input.Streams sees given) {s : State}
    (hp : (filter config ps input).Pulls sees (filter config ps input).start chunks s) :
    ∃ fed, HandsKept ps input sees given fed chunks s := by
  have hwork (f : Frame) (fed outs : List Chunk) (hf : f.cell.finished = false)
      (hout : f.out = Chunk.blank input.types config.capacity) (hK : Filtered ps fed outs)
      (hin : input.Proper sees f.below) (hs : sees f.session.masks) :=
    Pull.Agree.step (f := f) (m := input.rounds) (a := input.rowsBelow f.below + 1) (g := f) rfl
      (logs_filterChunks (input.rowsBelow f.below + 1) hin hs hf (hout ▸ rfl) (hout ▸ Chunk.sound_blank _ _) hK)
  have hpull : (filter config ps input).pull = answer config input.types (input.rounds >>= filterChunks input ps) := rfl
  obtain ⟨fed, hread, hlog⟩ := pulls_logged (K := fun fed outs _ => Filtered ps fed outs) hpull hwork rfl hin.proper .nil hp
  have hfiltered : Filtered ps fed (withRows chunks) := by
    by_cases hall : ∀ c ∈ chunks, c.isEmpty = false
    · rw [withRows_of_full hall]
      exact (hlog.ongoing hall).2
    · exact (hlog.ended (by simpa using hall)).2.1
  have hrows : chunks.flatMap Chunk.rows = (fed.flatMap Chunk.rows).filter fun row => ps.all (Expr.holdsOn row) := by
    rw [← flatMap_withRows fun c hc => (((Reads.of_pulls hp).proper (hin.proper.filter config ps)).2 c hc).1,
      hfiltered.rows]
  refine ⟨fed, hread, hfiltered, hrows, hlog.unbroken, fun hend => ?_⟩
  obtain ⟨t, _, hrun⟩ := hread.pulls
  obtain ⟨_, rest, _, hgiven⟩ := Gives.pulls hin hrun
  obtain ⟨hgiven, hnone⟩ := hgiven trivial
  rw [hrows, hgiven, hnone (hlog.ended hend).2.2, List.append_nil]

/-- What a filter is, to which others may be added. -/
structure FiltersRows (config : Config) (input : Operator) (sees : List (Nat × Mask) → Prop) (given : List Row)
    (ps : List Expr) : Prop where
  /-- It hands out the rows on which all its predicates are TRUE. -/
  keeps : ∀ chunks s, (filter config ps input).Pulls sees (filter config ps input).start chunks s →
    ∃ fed, HandsKept ps input sees given fed chunks s
  /-- Another filter over it is one filter with the predicates of both, whichever pulls fail. -/
  composes : ∀ qs asks, (filter config (ps ++ qs) input).outcomes asks (filter config (ps ++ qs) input).start =
    (filter config qs (filter config ps input)).outcomes asks (filter config qs (filter config ps input)).start
  /-- As long as a filter by the conjunction of its predicates succeeds, it does the same. -/
  conjoins : ∀ e, Expr.Conjunction ps e → ∀ asks : List (Session × Chunk), (∀ ask ∈ asks, sees ask.1.masks) →
    (∀ outcome ∈ (filter config [e] input).outcomes asks (filter config [e] input).start, ∃ found, outcome.1 = .ok found) →
    (filter config [e] input).outcomes asks (filter config [e] input).start =
      (filter config ps input).outcomes asks (filter config ps input).start

end QueryEngine.Operator
