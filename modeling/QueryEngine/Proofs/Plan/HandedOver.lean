import QueryEngine.Proofs.Plan.Termination
import QueryEngine.Proofs.Plan.WellFormed

/-! What a run hands over.

The pulls of a plan follow one another whoever takes their chunks (`Plan.nth`). A run
hands the chunks of a front of them to its consumer, in order and each of them once, and
the pull after that front is its last (`Plan.Ending`): the pull is empty or fails, the
consumer refuses its chunk, or there are more rows than can be counted. Executing a query
collects these chunks without their selections. -/
namespace QueryEngine

namespace Plan
variable {σ : Type}

/-- The next pull, into the chunk that the last one left. -/
def next (config : Config) (p : Plan) (last : Pulled) : Pulled := p.pull config last.chunk last.state last.session

/-- As before the first pull. -/
def first (config : Config) (p : Plan) (session : Session) : Pulled := ⟨.ok (), Chunk.fresh, p.start config, session⟩

/-- The pull number `k` after `last`, the next being number 1. -/
def nth (config : Config) (p : Plan) (last : Pulled) (k : Nat) : Pulled := (p.next config)^[k] last

/-- The chunks of the `k` pulls after `last`. -/
def chunks (config : Config) (p : Plan) (last : Pulled) (k : Nat) : List Chunk :=
  (List.range k).map fun i => (p.nth config last (i + 1)).chunk

/-- Hands chunks to a consumer, one after another, until it refuses one. -/
def feed (consume : Consumer σ) : σ → List Chunk → Except Failure Unit × σ
  | consumer, [] => (.ok (), consumer)
  | consumer, chunk :: rest =>
    match consume consumer chunk with
    | (.ok (), consumer) => feed consume consumer rest
    | (.error e, consumer) => (.error e, consumer)

/-- How a run ends with the pull `last`, where `stats` count the chunks before it and
`seen` is what these have made of the consumer. There is no further pull, so the session
is as this one left it, its state closed. -/
inductive Ending (consume : Consumer σ) (stats : Stats) (seen : σ) (last : Pulled) (ran : Ran σ Stats) : Prop
  | ended (hresult : last.result = .ok ()) (hempty : last.chunk.isEmpty = true)
    (hran : ran = ⟨.ok stats, seen, last.session.close last.state⟩)
  | failed (e : Failure) (hresult : last.result = .error e)
    (hran : ran = ⟨.error e, seen, last.session.close last.state⟩)
  | refused (e : Failure) (hresult : last.result = .ok ()) (hrows : last.chunk.isEmpty = false)
    (hsum : stats.rows + last.chunk.count ≤ maxCount) (htaken : (consume seen last.chunk).1 = .error e)
    (hran : ran = ⟨.error e, (consume seen last.chunk).2, last.session.close last.state⟩)
  | uncounted (hresult : last.result = .ok ()) (hrows : last.chunk.isEmpty = false)
    (hsum : maxCount < stats.rows + last.chunk.count)
    (hran : ran = ⟨.error .crash, seen, last.session.close last.state⟩)

/-- The course of a run that begins after the pull `last`: the `k` pulls from there on
succeed with rows, the consumer takes their chunks, which makes it `seen`, and the run ends
with the pull after them. -/
structure Course (config : Config) (p : Plan) (consume : Consumer σ) (stats : Stats) (last : Pulled) (consumer : σ)
    (ran : Ran σ Stats) (k : Nat) (seen : σ) : Prop where
  front : ∀ i, 1 ≤ i → i ≤ k → (p.nth config last i).result = .ok () ∧ (p.nth config last i).chunk.isEmpty = false
  fed : feed consume consumer (p.chunks config last k) = (.ok (), seen)
  halts : (p.nth config last (k + 1)).result ≠ .error .stalled
  ending : Ending consume ⟨stats.chunks + k, stats.rows + total ((p.chunks config last k).map Chunk.count)⟩ seen
    (p.nth config last (k + 1)) ran

/-! ### The course of a run -/

variable {config : Config} {p : Plan}

theorem nth_succ (last : Pulled) (k : Nat) : p.nth config last (k + 1) = p.nth config (p.next config last) k := rfl

theorem chunks_succ (last : Pulled) (k : Nat) :
    p.chunks config last (k + 1) = (p.next config last).chunk :: p.chunks config (p.next config last) k := by
  rw [chunks, List.range_succ_eq_map, List.map_cons, List.map_map]
  rfl

theorem mem_chunks {last : Pulled} {k : Nat} {chunk : Chunk} :
    chunk ∈ p.chunks config last k ↔ ∃ i, 1 ≤ i ∧ i ≤ k ∧ (p.nth config last i).chunk = chunk := by
  refine List.mem_map.trans ⟨fun ⟨i, hi, hchunk⟩ => ⟨i + 1, Nat.succ_pos i, List.mem_range.mp hi, hchunk⟩, ?_⟩
  rintro ⟨_ | i, hpos, hle, hchunk⟩
  · cases hpos
  · exact ⟨i, List.mem_range.mpr hle, hchunk⟩

section
variable {consume : Consumer σ} {stats : Stats} {last : Pulled} {consumer : σ} {ran : Ran σ Stats}

/-- A run may end with the next pull. -/
theorem Course.of_ending (hhalts : (p.next config last).result ≠ .error .stalled)
    (h : Ending consume stats consumer (p.next config last) ran) :
    Course config p consume stats last consumer ran 0 consumer where
  front i hpos hle := by omega
  fed := rfl
  halts := hhalts
  ending := h

/-- It may go on when the consumer takes the chunk of the next pull. -/
theorem Course.of_taken (hresult : (p.next config last).result = .ok ()) (hrows : (p.next config last).chunk.isEmpty = false)
    (htaken : (consume consumer (p.next config last).chunk).1 = .ok ()) {k : Nat} {seen : σ}
    (h : Course config p consume ⟨stats.chunks + 1, stats.rows + (p.next config last).chunk.count⟩ (p.next config last)
      (consume consumer (p.next config last).chunk).2 ran k seen) :
    Course config p consume stats last consumer ran (k + 1) seen where
  front i hpos hle := by
    cases i with
    | zero => cases hpos
    | succ i =>
      cases i with
      | zero => exact ⟨hresult, hrows⟩
      | succ i => exact h.front (i + 1) (Nat.succ_pos i) (Nat.le_of_succ_le_succ hle)
  fed := by
    have htook : consume consumer (p.next config last).chunk =
      (.ok (), (consume consumer (p.next config last).chunk).2) := Prod.ext htaken rfl
    rw [chunks_succ, feed, htook]
    exact h.fed
  halts := h.halts
  ending := by
    have hlater : stats.chunks + (k + 1) = stats.chunks + 1 + k := by omega
    rw [hlater, chunks_succ, List.map_cons, total_cons, ← Nat.add_assoc]
    exact h.ending

end

theorem pullAll_course (h : p.Counted) (consume : Consumer σ) (rounds : Nat) {last : Pulled} {stats : Stats} {consumer : σ}
    (hs : CountedState last.state) (hrounds : (p.operator config).rowsLeft last.state < rounds) :
    ∃ k seen, Course config p consume stats last consumer
      (p.pullAll config consume rounds stats last.chunk last.state consumer last.session) k seen := by
  induction rounds generalizing last stats consumer with
  | zero => cases hrounds
  | succ rounds ih =>
    obtain ⟨hstate, _, hhalts, hfewer⟩ := pull_halts config h hs last.chunk last.session
    cases round config p consume stats last.chunk last.state consumer last.session with
    | fails e he hran => exact ⟨0, _, .of_ending hhalts (.failed e he (hran rounds))⟩
    | empty hok hempty hran => exact ⟨0, _, .of_ending hhalts (.ended hok hempty (hran rounds))⟩
    | uncounted hok hrows hsum hran => exact ⟨0, _, .of_ending hhalts (.uncounted hok hrows hsum (hran rounds))⟩
    | refused e hok hrows hsum htaken hran =>
      exact ⟨0, _, .of_ending hhalts (.refused e hok hrows hsum htaken (hran rounds))⟩
    | taken hok hrows hsum htaken hran =>
      have hrow := Chunk.count_pos (Bool.eq_false_iff.mp hrows)
      have hfewer := hfewer hok
      have hnext : CountedState (p.next config last).state := hstate
      obtain ⟨k, seen, hcourse⟩ := ih hnext (by unfold next; omega)
      refine ⟨k + 1, seen, .of_taken hok hrows htaken ?_⟩
      rw [hran rounds]
      exact hcourse

theorem run_course (config : Config) (h : p.Counted) (consume : Consumer σ) (consumer : σ) (session : Session) :
    ∃ k seen, Course config p consume ⟨0, 0⟩ (p.first config session) consumer
      (p.run config consume consumer session) k seen := by
  have hstart : CountedState (p.first config session).state := countedState_start config h
  rw [run_eq]
  refine pullAll_course h consume _ hstart ?_
  rw [← rowsLeft_start config p]
  exact Nat.lt_succ_self _

/-- Pulls that succeed are a run of pulls. -/
theorem pulls_chunks {k : Nat} {last : Pulled} (h : ∀ i, 1 ≤ i → i ≤ k → (p.nth config last i).result = .ok ()) :
    (p.operator config).Pulls (fun _ => True) last.state (p.chunks config last k) (p.nth config last k).state := by
  induction k generalizing last with
  | zero => exact .none _
  | succ k ih =>
    have hlater (i : Nat) (hpos : 1 ≤ i) (hi : i ≤ k) : (p.nth config (p.next config last) i).result = .ok () :=
      h (i + 1) (Nat.succ_pos i) (Nat.succ_le_succ hi)
    have hrest := ih hlater
    have hok : (p.next config last).result = .ok () := h 1 (Nat.le_refl 1) (Nat.succ_pos k)
    rw [chunks_succ, nth_succ]
    generalize hnext : p.next config last = pulled at hrest hok
    rw [next, pull] at hnext
    cases hpull : (p.operator config).pull ⟨last.state.cell, last.state.below, last.session, last.chunk⟩ with
    | error e f =>
      rw [hpull] at hnext
      rw [← hnext] at hok
      cases hok
    | ok a f =>
      rw [hpull] at hnext
      subst hnext
      exact .next trivial hpull hrest

end Plan

/-! ### Collecting -/

namespace Collection

/-- A chunk with rows is kept without its selection. -/
theorem append_flattens {c d : Collection} {chunk : Chunk} {bytes : Nat} (hs : chunk.Sound) (ht : chunk.types = c.types)
    (he : chunk.isEmpty = false) (h : c.append chunk = .ok (d, bytes)) :
    ∃ flat, chunk.Flattens flat ∧ d = ⟨c.types, c.chunks ++ [flat], c.count + chunk.count⟩ := by
  unfold append at h
  simp only [he, ht, ite_self, ne_eq, not_true_eq_false, if_false, Bool.false_eq_true] at h
  obtain ⟨flat, hflat, h⟩ := bind_eq_ok.mp h
  obtain ⟨n, hn, h⟩ := bind_eq_ok.mp h
  have hf := Chunk.flattens_of_flatten hs hflat
  cases h
  exact ⟨flat, hf, by rw [Chunk.addCounts_ok hn, hf.count]⟩

/-- What a collection has made of chunks that it was handed. -/
theorem of_feed {chunks : List Chunk} {c d : Collection}
    (h : ∀ chunk ∈ chunks, chunk.Sound ∧ chunk.types = c.types ∧ chunk.isEmpty = false)
    (hfed : Plan.feed consume c chunks = (.ok (), d)) :
    ∃ flats, List.Forall₂ Chunk.Flattens chunks flats ∧
      d = ⟨c.types, c.chunks ++ flats, c.count + total (chunks.map Chunk.count)⟩ := by
  induction chunks generalizing c with
  | nil =>
    cases hfed
    exact ⟨[], .nil, by simp [total]⟩
  | cons chunk chunks ih =>
    obtain ⟨⟨hs, ht, he⟩, hrest⟩ := List.forall_mem_cons.mp h
    rw [Plan.feed, consume] at hfed
    cases happend : c.append chunk with
    | error e =>
      rw [happend] at hfed
      cases hfed
    | ok appended =>
      rw [happend] at hfed
      obtain ⟨flat, hflat, hmore⟩ := append_flattens hs ht he happend
      obtain ⟨flats, hflats, hd⟩ := ih (c := appended.1) (fun chunk hchunk => by rw [hmore]; exact hrest chunk hchunk) hfed
      refine ⟨flat :: flats, .cons hflat hflats, ?_⟩
      rw [hd, hmore, List.map_cons, total_cons, List.append_assoc, Nat.add_assoc]
      rfl

end Collection

/-- Chunks without their selections have the rows that were selected. -/
theorem Chunk.of_flattens {chunks flats : List Chunk} (h : List.Forall₂ Flattens chunks flats) :
    (∀ flat ∈ flats, flat.selection = none) ∧ flats.map count = chunks.map count ∧
      flats.flatMap rows = chunks.flatMap rows := by
  induction h with
  | nil => exact ⟨nofun, rfl, rfl⟩
  | cons hflat _ ih =>
    obtain ⟨hnone, hcounts, hrows⟩ := ih
    refine ⟨List.forall_mem_cons.mpr ⟨hflat.flat, hnone⟩, ?_, ?_⟩
    · rw [List.map_cons, List.map_cons, hflat.count, hcounts]
    · rw [List.flatMap_cons, List.flatMap_cons, hflat.rows, hrows]

/-! ### Runs and results -/

/-- A plan that is run, whoever takes its chunks, and a query that it is compiled from. -/
theorem Plan.run_handsOver {p : Plan} (h : p.Counted) (config : Config) (session : Session) :
    (∀ (σ : Type) (consume : Consumer σ) (consumer : σ), ∃ k seen,
      Course config p consume ⟨0, 0⟩ (p.first config session) consumer (p.run config consume consumer session) k seen) ∧
    ∀ q tables r, q.compile = .ok p → (Context.execute ⟨config, tables⟩ q session).1 = .ok r →
      ∃ k, (∀ i, 1 ≤ i → i ≤ k → (p.nth config (p.first config session) i).result = .ok () ∧
          (p.nth config (p.first config session) i).chunk.isEmpty = false) ∧
        (p.nth config (p.first config session) (k + 1)).result = .ok () ∧
        (p.nth config (p.first config session) (k + 1)).chunk.isEmpty = true ∧
        (∀ chunk ∈ r.chunks, chunk.selection = none) ∧ r.chunkCount = k ∧ r.chunks.length = k ∧
        r.rows = total (r.chunks.map Chunk.count) ∧
        r.chunks.flatMap Chunk.rows = (p.chunks config (p.first config session) k).flatMap Chunk.rows := by
  refine ⟨fun σ consume consumer => run_course config h consume consumer session, fun q tables r hcompile hexecute => ?_⟩
  obtain ⟨k, seen, hcourse⟩ := run_course config h Collection.consume (Collection.ofTypes p.types) session
  rw [Context.execute_of_compile hcompile] at hexecute
  obtain ⟨stats, hstats, rfl⟩ := map_eq_ok.mp hexecute
  have hchunks (chunk : Chunk) (hchunk : chunk ∈ p.chunks config (p.first config session) k) :
      chunk.Sound ∧ chunk.types = p.types ∧ chunk.isEmpty = false := by
    have hbuilt : Built (Admits (untold config) session) p := built_of_compile q (fun n _ => admits_untold config _ n) hcompile
    have hgives : Gives (untold config) (p.operator config) (p.operator config) (p.rows session)
        (p.operator config).start.cells := hbuilt.gives rfl rfl
    have hhanded := (hgives.pulls (pulls_chunks fun i hpos hle => (hcourse.front i hpos hle).1)).1 chunk hchunk
    obtain ⟨i, hpos, hle, rfl⟩ := mem_chunks.mp hchunk
    exact ⟨hhanded.sound, hhanded.typed.trans (operator_types config p), (hcourse.front i hpos hle).2⟩
  obtain ⟨flats, hflats, hseen⟩ := Collection.of_feed hchunks hcourse.fed
  obtain ⟨hflat, hcounts, hrows⟩ := Chunk.of_flattens hflats
  have hlength : flats.length = k := by rw [← hflats.length_eq, chunks, List.length_map, List.length_range]
  cases hcourse.ending with
  | ended hresult hempty hran =>
    rw [hran] at hstats ⊢
    cases hstats
    refine ⟨k, hcourse.front, hresult, hempty, ?_⟩
    rw [hseen, ← hrows, ← hcounts]
    exact ⟨hflat, Nat.zero_add k, hlength, Nat.zero_add _, rfl⟩
  | failed e _ hran | refused e _ _ _ _ hran | uncounted _ _ _ hran =>
    rw [hran] at hstats
    cases hstats

/-- Three rows, two at a time, for a consumer that refuses the second chunk: it has seen
both, and its failure is that of the run. Collecting takes both. -/
theorem Plan.run_handsOver_refused :
    let table : Provider := ⟨0, ⟨"t", [.ofInts [3, 1, 2]], 3, by decide⟩, 0⟩
    let q : LogicalPlan := .node (.get table [.column 0]) [] [.bigInt]
    let p : Plan := .scan table [.column 0] [.bigInt]
    let config : Config := ⟨2, none, true⟩
    let session := Session.ofLimit? none
    let consume : Consumer (List Nat) := fun seen chunk =>
      (if seen = [] then .ok () else .error (.error (.execution (.sink "full"))), seen ++ [chunk.count])
    q.compile = .ok p ∧
      (∃ k seen, Course config p consume ⟨0, 0⟩ (p.first config session) [] (p.run config consume [] session) k seen) ∧
      (p.run config consume [] session).result = .error (.error (.execution (.sink "full"))) ∧
      (p.run config consume [] session).consumer = [2, 1] ∧
      ∃ r, (Context.execute ⟨config, [table]⟩ q session).1 = .ok r ∧ r.chunkCount = 2 ∧ r.rows = 3 ∧
        r.chunks.flatMap Chunk.rows = (p.chunks config (p.first config session) 2).flatMap Chunk.rows := by
  intro table q p config session consume
  have hcompile : q.compile = .ok p := rfl
  obtain ⟨hruns, hqueries⟩ := run_handsOver (counted_of_compile hcompile) config session
  have hcounts : (Context.execute ⟨config, [table]⟩ q session).1.toOption.map (fun r => (r.chunkCount, r.rows)) =
      some (2, 3) := by
    decide +kernel
  obtain ⟨r, hr, hcounts⟩ := Option.map_eq_some_iff.mp hcounts
  obtain ⟨hchunks, hrows⟩ := Prod.mk.inj hcounts
  have hr := toOption_eq_some.mp hr
  obtain ⟨k, -, -, -, -, hk, -, -, hall⟩ := hqueries q [table] r hcompile hr
  cases hchunks.symm.trans hk
  exact ⟨hcompile, hruns _ consume [], rfl, by decide +kernel, r, hr, hchunks, hrows, hall⟩

instance {α : Type} (result : Except Failure α) : Decidable (result = .error .crash) :=
  match result with
  | .error .crash => .isTrue rfl
  | .error (.error _) | .error .stalled | .ok _ => .isFalse fun h => by cases h

/-- Two chunks without columns whose rows together are one more than can be counted. Both
pulls succeed and the consumer takes whatever it is handed, yet it is not handed the second
chunk: the run adds up the rows first. -/
theorem Plan.run_uncounted :
    let half : Chunk := ⟨[], none, 9223372036854775808, 2⟩
    let p : Plan := .source [] [half, half]
    let config : Config := ⟨2, none, true⟩
    let session := Session.ofLimit? none
    let first := p.first config session
    let consume : Consumer (List Nat) := fun seen chunk => (.ok (), seen ++ [chunk.count])
    p.Counted ∧ (p.nth config first 1).result = .ok () ∧ (p.nth config first 2).result = .ok () ∧
      (p.nth config first 2).chunk.isEmpty = false ∧
      (p.run config consume [] session).result = .error .crash ∧
      (p.run config consume [] session).consumer = [9223372036854775808] := by
  intro half p config session first consume
  have hcounted : p.Counted := fun types chunks hsource chunk hchunk => by
    cases List.mem_singleton.mp hsource
    have hhalf : chunk = half := by simpa using hchunk
    exact hhalf ▸ Chunk.counted_of_flat rfl
  exact ⟨hcounted, rfl, rfl, by decide +kernel, by decide +kernel, by decide +kernel⟩

end QueryEngine
