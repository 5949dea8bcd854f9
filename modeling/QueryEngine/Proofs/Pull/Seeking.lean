import QueryEngine.Proofs.Pull.HaltingChunks
import QueryEngine.Proofs.Pull.Outcomes

/-! How a filter seeks its next chunk, and filters one over another.

A filter pulls its input on and on, until a chunk is left with rows. That is told without
the rounds of its loop (`Seeks`); where the input halts the loop comes to just that
(`filter_sought`). A search with two steps for each chunk is then a search with the second
step among what searches with the first have found, and two filters, one over the other,
look from outside like the one that has the predicates of both, pull for pull and failure
for failure (`filter_append_outcomes`). -/
namespace QueryEngine.Operator
open Pull
variable {config : Config} {input : Operator} {capacity : Nat} {ps qs : List Expr} {c d : Chunk} {e : Failure}

/-! ### One chunk -/

/-- What a filter makes of a chunk: its rows on which all predicates are TRUE, or nothing if
there are none. -/
def kept (capacity : Nat) (ps : List Expr) (c : Chunk) : Except Failure (Option Chunk) :=
  match keepTrue ps { c with capacity := capacity } with
  | .ok () d => .ok (if d.isEmpty then none else some d)
  | .error e _ => .error e

/-- The first predicates are tried first, and the others on what they leave. -/
theorem keepTrue_append (hc : c.isEmpty = false) (ps qs : List Expr) :
    keepTrue (ps ++ qs) c = match keepTrue ps c with
      | .ok () d => if d.isEmpty then .ok () d else keepTrue qs d
      | .error e d => .error e d := by
  induction ps generalizing c with
  | nil =>
    show _ = if c.isEmpty then _ else _
    rw [hc]
    rfl
  | cons p ps ih =>
    rw [List.cons_append, keepTrue_cons, keepTrue_cons]
    cases p.selectRows c with
    | error e => rfl
    | ok rows =>
      simp only
      cases he : (c.select rows).isEmpty with
      | true => simp only [if_true, he]
      | false => exact ih he

theorem kept_append (hc : c.isEmpty = false) (ps qs : List Expr) :
    kept capacity (ps ++ qs) c = (kept capacity ps c).bind fun left => left.elim (.ok none) (kept capacity qs) := by
  unfold kept
  rw [keepTrue_append (c := { c with capacity := capacity }) hc]
  cases hps : keepTrue ps { c with capacity := capacity } with
  | error e d => rfl
  | ok _ d =>
    have hd : { d with capacity := capacity } = d := by
      obtain rfl : d.capacity = capacity := keepTrue_capacity hps
      rfl
    cases he : d.isEmpty with
    | true =>
      simp only [he, if_true]
      rfl
    | false =>
      simp only [he, Bool.false_eq_true, if_false]
      show _ = kept capacity qs d
      rw [kept, hd]

/-! ### Searches -/

/-- The input is pulled from a frame on, until `keep` leaves something of a chunk. -/
inductive Seeks (input : Operator) (keep : Chunk → Except Failure (Option Chunk)) :
    Frame → EStateM.Result Failure Frame (Option Chunk) → Prop
  | failed {i j : Frame} {e : Failure} (hpull : input.pull i = .error e j) : Seeks input keep i (.error e j)
  | ended {i j : Frame} (hpull : input.pull i = .ok () j) (he : j.out.isEmpty = true) : Seeks input keep i (.ok none j)
  | refused {i j : Frame} {e : Failure} (hpull : input.pull i = .ok () j) (he : j.out.isEmpty = false)
    (hkeep : keep j.out = .error e) : Seeks input keep i (.error e j)
  | found {i j : Frame} {d : Chunk} (hpull : input.pull i = .ok () j) (he : j.out.isEmpty = false)
    (hkeep : keep j.out = .ok (some d)) : Seeks input keep i (.ok (some d) j)
  | passed {i j : Frame} {r : EStateM.Result Failure Frame (Option Chunk)} (hpull : input.pull i = .ok () j)
    (he : j.out.isEmpty = false) (hkeep : keep j.out = .ok none) (hrest : Seeks input keep j r) : Seeks input keep i r

namespace Seeks
variable {keep first second both : Chunk → Except Failure (Option Chunk)} {i j : Frame}
  {r r' : EStateM.Result Failure Frame (Option Chunk)}

/-- A search comes to one end. -/
theorem unique (h : Seeks input keep i r) (h' : Seeks input keep i r') : r = r' := by
  induction h with
  | failed hpull => cases h' <;> simp_all
  | ended hpull he => cases h' <;> simp_all
  | refused hpull he hkeep => cases h' <;> simp_all
  | found hpull he hkeep => cases h' <;> simp_all
  | passed hpull he hkeep _ ih =>
    cases h' with
    | passed hpull' _ _ hrest' =>
      cases hpull.symm.trans hpull'
      exact ih hrest'
    | _ => simp_all


/-- A chunk is found in the last one pulled. -/
theorem found_in (h : Seeks input keep i (.ok (some d) j)) : ∃ i, input.pull i = .ok () j ∧ keep j.out = .ok (some d) := by
  generalize hr : EStateM.Result.ok (some d) j = r at h
  induction h with
  | found hpull _ hkeep =>
    cases hr
    exact ⟨_, hpull, hkeep⟩
  | passed _ _ _ _ ih => exact ih hr
  | failed | refused | ended => cases hr

/-- However a search ends, the counts in the cells stay right. -/
theorem counted (h : Seeks input keep i r) (hin : input.Halting) (hcell : i.cell.Counted)
    (hbelow : ∀ cell ∈ i.below, cell.Counted) : (resultFrame r).Counted := by
  induction h with
  | failed hpull => exact ((hin.step _ hcell hbelow).error hpull).1
  | ended hpull | refused hpull | found hpull => exact ((hin.step _ hcell hbelow).ok hpull).1
  | passed hpull _ _ _ ih =>
    have hj := ((hin.step _ hcell hbelow).ok hpull).1
    exact ih hj.cell hj.below

/-! A search with two steps for each chunk. -/

section
variable (hboth : ∀ c, c.isEmpty = false → both c = (first c).bind fun left => left.elim (.ok none) second)
include hboth

theorem of_error {e : Failure} (h : Seeks input first i (.error e j)) : Seeks input both i (.error e j) := by
  generalize hr : EStateM.Result.error e j = r at h
  induction h with
  | failed hpull =>
    cases hr
    exact .failed hpull
  | refused hpull he hkeep =>
    cases hr
    exact .refused hpull he (by rw [hboth _ he, hkeep]; rfl)
  | passed hpull he hkeep _ ih => exact .passed hpull he (by rw [hboth _ he, hkeep]; rfl) (ih hr)
  | ended | found => cases hr

theorem of_ended (h : Seeks input first i (.ok none j)) : Seeks input both i (.ok none j) := by
  generalize hr : EStateM.Result.ok none j = r at h
  induction h with
  | ended hpull he =>
    cases hr
    exact .ended hpull he
  | passed hpull he hkeep _ ih => exact .passed hpull he (by rw [hboth _ he, hkeep]; rfl) (ih hr)
  | failed | refused | found => cases hr

/-- Where the first step has found something the second decides. -/
theorem of_found (h : Seeks input first i (.ok (some d) j))
    (hlast : ∀ i, input.pull i = .ok () j → j.out.isEmpty = false → both j.out = second d → Seeks input both i r) :
    Seeks input both i r := by
  generalize hr : EStateM.Result.ok (some d) j = found at h
  induction h with
  | found hpull he hkeep =>
    cases hr
    exact hlast _ hpull he (by rw [hboth _ he, hkeep]; rfl)
  | passed hpull he hkeep _ ih => exact .passed hpull he (by rw [hboth _ he, hkeep]; rfl) (ih hr)
  | failed | refused | ended => cases hr

end
end Seeks

/-! ### The work of a filter -/

/-- How a filter's own work ends from `f` when the search of its input has ended. -/
inductive Sought (f : Frame) : EStateM.Result Failure Frame (Option Chunk) → EStateM.Result Failure Frame Unit → Prop
  | failed (e : Failure) (j : Frame) (o : Chunk) : Sought f (.error e j) (.error e { f.afterFetch j with out := o })
  | ended (j : Frame) {o : Chunk} (he : o.isEmpty = true) (ho : o.Sound) :
    Sought f (.ok none j) (.ok () { f.afterFetch j with out := o })
  | found (j : Frame) {d : Chunk} (he : d.isEmpty = false) : Sought f (.ok (some d) j) (.ok () { f.afterFetch j with out := d })

/-- One round of a filter's loop. -/
theorem filterChunks_succ {rounds : Nat} {f i : Frame} (hi : f.input? f.cell.buffer = some i) :
    filterChunks input ps (rounds + 1) f = match input.pull i with
      | .error e j => .error e (f.afterFetch j)
      | .ok _ j => if j.out.isEmpty then .ok () (f.afterFetch j) else
        match keepTrue ps (f.out.reference j.out) with
        | .error e d => .error e { f.afterFetch j with out := d }
        | .ok _ d => if d.isEmpty then filterChunks input ps rounds { f.afterFetch j with out := d.reset }
          else .ok () { f.afterFetch j with out := d } := by
  rw [filterChunks, run_bind, fetch_eq hi]
  cases input.pull i with
  | error e j => rfl
  | ok _ j =>
    simp only
    cases j.out.isEmpty with
    | true => rfl
    | false =>
      simp only [Bool.false_eq_true, if_false]
      have hreference : (do
          modify fun c => c.reference j.out
          keepTrue ps : Filling Unit) (f.afterFetch j).out = keepTrue ps (f.out.reference j.out) := rfl
      rw [run_bind, filling, hreference]
      cases keepTrue ps (f.out.reference j.out) with
      | error e d => rfl
      | ok _ d =>
        simp only
        show (if (!d.isEmpty) = true then (Pure.pure () : Pull Unit) else _) _ = _
        cases d.isEmpty with
        | true => rfl
        | false => rfl

/-- With rounds enough a filter's work is a search of its input. -/
theorem filterChunks_sought (h : input.Halting) (ps : List Expr) (rounds : Nat) {f i : Frame} (hi : f.input? f.cell.buffer = some i)
    (hcell : i.cell.Counted) (hbelow : ∀ cell ∈ i.below, cell.Counted) (hrounds : input.rowsBelow i.cells < rounds)
    (hcap : f.out.capacity = capacity) (he : f.out.isEmpty = true) (hout : f.out.Sound) :
    ∃ r, Seeks input (kept capacity ps) i r ∧ Sought f r (filterChunks input ps rounds f) := by
  induction rounds generalizing f i with
  | zero => cases hrounds
  | succ rounds ih =>
    rw [filterChunks_succ hi]
    cases hpull : input.pull i with
    | error e j => exact ⟨_, .failed hpull, .failed e j f.out⟩
    | ok _ j =>
      obtain ⟨hj, hfewer⟩ := (h.step i hcell hbelow).ok hpull
      simp only
      cases hfull : j.out.isEmpty with
      | true => exact ⟨_, .ended hpull hfull, .ended j he hout⟩
      | false =>
        have hkeep : kept capacity ps j.out = match keepTrue ps (f.out.reference j.out) with
            | .ok () d => .ok (if d.isEmpty then none else some d)
            | .error e _ => .error e := by rw [← hcap]; rfl
        cases hps : keepTrue ps (f.out.reference j.out) with
        | error e d =>
          rw [hps] at hkeep
          exact ⟨_, .refused hpull hfull hkeep, .failed e j d⟩
        | ok _ d =>
          rw [hps] at hkeep
          simp only [Bool.false_eq_true, if_false] at hkeep ⊢
          cases hd : d.isEmpty with
          | false =>
            rw [hd] at hkeep
            exact ⟨_, .found hpull hfull hkeep, .found j hd⟩
          | true =>
            -- nothing is left of the chunk, whose rows are no more to come
            rw [hd] at hkeep
            have hrow := Chunk.count_pos (Bool.eq_false_iff.mp hfull)
            obtain ⟨r, hseeks, hsought⟩ := ih (f := { f.afterFetch j with out := d.reset }) (i := j) rfl hj.cell hj.below
              (by omega) ((keepTrue_capacity hps).trans hcap) rfl d.sound_reset
            refine ⟨r, .passed hpull hfull hkeep hseeks, ?_⟩
            simp only [if_true]
            generalize filterChunks input ps rounds { f.afterFetch j with out := d.reset } = result at hsought ⊢
            cases hsought with
            | failed e k o => exact .failed e k o
            | ended k he ho => exact .ended k he ho
            | found k he => exact .found k he

/-! ### Pulls of a filter -/

/-- How a search has ended. -/
def outcomeOf : EStateM.Result Failure Frame (Option Chunk) → Except Failure (Option Chunk)
  | .ok found _ => .ok found
  | .error e _ => .error e

theorem outcomeOf_eq_ok {r : EStateM.Result Failure Frame (Option Chunk)} {found : Option Chunk} :
    outcomeOf r = .ok found ↔ ∃ j, r = .ok found j := by
  cases r <;> simp [outcomeOf]

theorem outcomeOf_eq_error {r : EStateM.Result Failure Frame (Option Chunk)} :
    outcomeOf r = .error e ↔ ∃ j, r = .error e j := by
  cases r <;> simp [outcomeOf]

/-- A filter's frame, and that of its input in it. -/
structure Over (i f : Frame) : Prop where
  below : f.below = i.cells
  session : f.session = i.session
  buffer : f.cell.buffer = i.out

/-- What can be seen of a filter, and the frame that it leaves, when its search has ended
with `r`. -/
structure Exhibits (r : EStateM.Result Failure Frame (Option Chunk)) (seen : Except Failure (Option Chunk)) (f : Frame) :
    Prop where
  seen : seen = outcomeOf r
  above : Over (resultFrame r) f
  finished : f.cell.finished = true ↔ outcomeOf r = .ok none

theorem Sought.shows {f : Frame} {r : EStateM.Result Failure Frame (Option Chunk)} {result : EStateM.Result Failure Frame Unit}
    (h : Sought f r result) (hf : f.cell.finished = false) :
    Exhibits r (handedOf (answered result)) (resultFrame (answered result)) := by
  cases h with
  | failed e j o => exact ⟨rfl, ⟨rfl, rfl, rfl⟩, fun h => (by cases hf.symm.trans h), nofun⟩
  | @ended j o he ho =>
    refine ⟨?_, ⟨Frame.below_ended _, Frame.session_ended _, Frame.buffer_ended _⟩, fun _ => rfl, fun _ => ?_⟩
    · show Except.ok (if (Frame.ended _).out.isEmpty = true then none else some (Frame.ended _).out) = _
      rw [Frame.out_ended, if_pos he]
      rfl
    · show (Frame.ended _).cell.finished = true
      rw [Frame.finished_ended, he, Bool.or_true]
  | @found j d he =>
    have hended : Frame.ended { f.afterFetch j with out := d } = { f.afterFetch j with out := d } := by
      rw [Frame.ended, he, if_neg Bool.false_ne_true]
    simp only [answered, hended]
    refine ⟨?_, ⟨rfl, rfl, rfl⟩, fun h => (by cases hf.symm.trans h), nofun⟩
    show Except.ok (if d.isEmpty = true then none else some d) = _
    rw [he]
    rfl

theorem kept_sound (hc : c.Sound) (h : kept capacity ps c = .ok (some d)) : d.Sound := by
  unfold kept at h
  split at h
  · rename_i left hleft
    have hsound := (keepTrue_ok (c := { c with capacity := capacity }) (hc.reference ⟨[], none, 0, capacity⟩) hleft).sound
    split at h
    · cases h
    · cases h
      exact hsound
  · cases h

/-- A filter that is not finished shows what a search of its input comes to. -/
theorem filter_shows (h : input.Halting) (hv : input.Verifies config) (ps : List Expr) {i f : Frame} (hi : Over i f)
    (hf : f.cell.finished = false) (hcounted : ∀ cell ∈ f.below, cell.Counted) :
    ∃ r, Seeks input (kept (max config.capacity 1) ps) i r ∧
      Exhibits r (handedOf ((filter config ps input).pull f)) (resultFrame ((filter config ps input).pull f)) := by
  let blank : Frame := { f with out := Chunk.blank input.types config.capacity }
  have hinput : blank.input? blank.cell.buffer = some i := by
    show f.input? f.cell.buffer = some i
    rw [Frame.input?, hi.below, hi.session, hi.buffer]
    rfl
  rw [hi.below] at hcounted
  obtain ⟨hcell, hbelow⟩ := List.forall_mem_cons.mp hcounted
  obtain ⟨r, hseeks, hsought⟩ := filterChunks_sought h ps (input.rowsBelow f.below + 1) hinput hcell hbelow
    (by rw [hi.below]; exact Nat.lt_succ_self _) (Chunk.capacity_blank input.types config.capacity) rfl
    (Chunk.sound_blank _ _)
  refine ⟨r, hseeks, ?_⟩
  have hpull : (filter config ps input).pull f = answered (filterChunks input ps (input.rowsBelow f.below + 1) blank) := by
    refine answer_eq_answered hf fun hverify k hk => ?_
    change filterChunks input ps (input.rowsBelow f.below + 1) blank = .ok () k at hk
    rw [hk] at hsought
    cases hsought with
    | ended _ _ ho => exact ho
    | found j _ =>
      obtain ⟨i, hi, hkeep⟩ := hseeks.found_in
      exact kept_sound (hv hverify i j hi) hkeep
  rw [hpull]
  exact hsought.shows hf

/-- A finished filter shows nothing more. -/
theorem filter_finished (config : Config) (ps : List Expr) (input : Operator) {f : Frame} (hf : f.cell.finished = true) :
    (filter config ps input).pull f = .ok () { f with out := Chunk.blank input.types config.capacity } :=
  answer_of_finished hf

/-! ### One filter over another -/

/-- The cells of a filter, and those of two filters, one over the other, that have come as far. -/
structure Stacked (s t : State) : Prop where
  above : ∃ cell, t.below = cell :: s.below ∧ cell.buffer = s.cell.buffer ∧ cell.finished = s.cell.finished
  finished : t.cell.finished = s.cell.finished
  started : s.below ≠ []
  counted : ∀ cell ∈ t.below, cell.Counted

theorem stacked_start (config : Config) (h : input.Halting) (ps qs : List Expr) :
    Stacked (filter config (ps ++ qs) input).start (filter config qs (filter config ps input)).start :=
  ⟨⟨Cell.start .none, rfl, rfl, rfl⟩, rfl, List.cons_ne_nil _ _, (halting_filter h ps : (filter config ps input).Halting).start⟩

section
variable (h : input.Halting) (hv : input.Verifies config) (ps qs : List Expr)
include h hv

/-- The search behind a chunk that a filter hands out. -/
theorem filter_found {i f g : Frame} (hi : Over i f) (hf : f.cell.finished = false)
    (hcounted : ∀ cell ∈ f.below, cell.Counted) (hpull : (filter config ps input).pull f = .ok () g)
    (he : g.out.isEmpty = false) :
    ∃ j, Seeks input (kept (max config.capacity 1) ps) i (.ok (some g.out) j) ∧ Over j g ∧ g.cell.finished = false := by
  obtain ⟨r, hr, hshows⟩ := filter_shows h hv ps hi hf hcounted
  rw [hpull] at hshows
  have hhanded : handedOf (.ok () g) = .ok (some g.out) := by rw [handedOf, he, if_neg Bool.false_ne_true]
  obtain ⟨j, rfl⟩ := outcomeOf_eq_ok.mp (hshows.seen.symm.trans hhanded)
  refine ⟨j, hr, hshows.above, Bool.eq_false_iff.mpr fun hfinished => ?_⟩
  cases hshows.finished.mp hfinished

/-- A search among what another filter finds is one search with the predicates of both. -/
theorem seeks_stacked {i f : Frame} (hi : Over i f) (hf : f.cell.finished = false) (hcell : f.cell.Counted)
    (hcounted : ∀ cell ∈ f.below, cell.Counted) {r : EStateM.Result Failure Frame (Option Chunk)}
    (hr : Seeks (filter config ps input) (kept (max config.capacity 1) qs) f r) :
    ∃ r', Seeks input (kept (max config.capacity 1) (ps ++ qs)) i r' ∧ Exhibits r' (outcomeOf r) (resultFrame r) := by
  have hboth : ∀ c : Chunk, c.isEmpty = false → kept (max config.capacity 1) (ps ++ qs) c =
      (kept (max config.capacity 1) ps c).bind fun left => left.elim (.ok none) (kept (max config.capacity 1) qs) :=
    fun c hc => kept_append hc ps qs
  -- what the filter below shows is how its own search has ended
  induction hr generalizing i with
  | @failed f g e hpull =>
    obtain ⟨r, hr, hshows⟩ := filter_shows h hv ps hi hf hcounted
    rw [hpull] at hshows
    obtain ⟨j, rfl⟩ := outcomeOf_eq_error.mp hshows.seen.symm
    exact ⟨_, hr.of_error hboth, hshows⟩
  | @ended f g hpull he =>
    obtain ⟨r, hr, hshows⟩ := filter_shows h hv ps hi hf hcounted
    rw [hpull] at hshows
    have hhanded : handedOf (.ok () g) = .ok none := by rw [handedOf, he, if_pos rfl]
    rw [hhanded] at hshows
    obtain ⟨j, rfl⟩ := outcomeOf_eq_ok.mp hshows.seen.symm
    exact ⟨_, hr.of_ended hboth, hshows⟩
  | @refused f g e hpull he hkeep =>
    obtain ⟨j, hr, hover, hunfinished⟩ := filter_found h hv ps hi hf hcounted hpull he
    refine ⟨.error e j, hr.of_found hboth fun i hi hj hlast => .refused hi hj (hlast.trans hkeep), rfl, hover, ?_⟩
    exact ⟨fun hfinished => (by cases hunfinished.symm.trans hfinished), nofun⟩
  | @found f g d hpull he hkeep =>
    obtain ⟨j, hr, hover, hunfinished⟩ := filter_found h hv ps hi hf hcounted hpull he
    refine ⟨.ok (some d) j, hr.of_found hboth fun i hi hj hlast => .found hi hj (hlast.trans hkeep), rfl, hover, ?_⟩
    exact ⟨fun hfinished => (by cases hunfinished.symm.trans hfinished), nofun⟩
  | @passed f g r hpull he hkeep hrest ih =>
    obtain ⟨j, hr, hover, hunfinished⟩ := filter_found h hv ps hi hf hcounted hpull he
    have hg := (((halting_filter h ps).step f hcell hcounted).ok hpull).1
    obtain ⟨r', hr', hshows⟩ := ih hover hunfinished hg.cell hg.below
    exact ⟨r', hr.of_found hboth fun i hi hj hlast => .passed hi hj (hlast.trans hkeep) hr', hshows⟩

/-- Pulls of the two look the same. -/
theorem stacked_pull {s t : State} (hst : Stacked s t) (session : Session) (out : Chunk) :
    Matched Stacked ((filter config (ps ++ qs) input).pull ⟨s.cell, s.below, session, out⟩)
      ((filter config qs (filter config ps input)).pull ⟨t.cell, t.below, session, out⟩) := by
  obtain ⟨inner, hbelow, hbuffer, hfinished⟩ := hst.above
  have hcounted := hst.counted
  rw [hbelow] at hcounted
  obtain ⟨hinner, hcells⟩ := List.forall_mem_cons.mp hcounted
  cases hf : s.cell.finished with
  | true =>
    rw [filter_finished config (ps ++ qs) input hf,
      filter_finished config qs (filter config ps input) (hst.finished.trans hf)]
    exact ⟨rfl, rfl, hst⟩
  | false =>
    obtain ⟨cell, cells, hs⟩ := List.exists_cons_of_ne_nil hst.started
    -- the frames of the input and of the filter in the middle
    let i : Frame := ⟨cell, cells, session, s.cell.buffer⟩
    let f : Frame := ⟨inner, s.below, session, t.cell.buffer⟩
    have hif : Over i f := ⟨hs, rfl, hbuffer⟩
    have his : Over i ⟨s.cell, s.below, session, out⟩ := ⟨hs, rfl, rfl⟩
    have hft : Over f ⟨t.cell, t.below, session, out⟩ := ⟨hbelow, rfl, rfl⟩
    have hmiddle : (filter config ps input).Halting := halting_filter h ps
    obtain ⟨r₂, hseeks₂, hshows₂⟩ := filter_shows hmiddle (verifies_of_answer rfl) qs hft (hst.finished.trans hf) hst.counted
    obtain ⟨r, hseeks, hshows⟩ := seeks_stacked h hv ps qs hif (hfinished.trans hf) hinner hcells hseeks₂
    obtain ⟨r₁, hseeks₁, hshows₁⟩ := filter_shows h hv (ps ++ qs) his hf hcells
    obtain rfl := hseeks.unique hseeks₁
    have houtcome : outcomeOf r = outcomeOf r₂ := hshows.seen.symm
    refine ⟨hshows₁.seen.trans (houtcome.trans hshows₂.seen.symm), ?_, ?_, ?_, ?_, ?_⟩
    · rw [hshows₁.above.session, ← hshows.above.session, hshows₂.above.session]
    · refine ⟨(resultFrame r₂).cell, ?_, ?_, ?_⟩
      · show (resultFrame _).below = _ :: (resultFrame _).below
        rw [hshows₂.above.below, hshows₁.above.below, ← hshows.above.below]
        rfl
      · exact hshows.above.buffer.trans hshows₁.above.buffer.symm
      · exact Bool.eq_iff_iff.mpr (hshows.finished.trans hshows₁.finished.symm)
    · exact Bool.eq_iff_iff.mpr (hshows₂.finished.trans (houtcome ▸ hshows₁.finished.symm))
    · show (resultFrame _).below ≠ []
      rw [hshows₁.above.below]
      exact List.cons_ne_nil _ _
    · have hleft := hseeks₂.counted hmiddle hinner hcells
      show ∀ cell ∈ (resultFrame _).below, cell.Counted
      rw [hshows₂.above.below]
      exact List.forall_mem_cons.mpr ⟨hleft.cell, hleft.below⟩

/-- Filtering by all predicates at once, and by the last of them what the first ones have kept,
is the same, pull for pull. -/
theorem filter_append_outcomes (asks : List (Session × Chunk)) :
    (filter config (ps ++ qs) input).outcomes asks (filter config (ps ++ qs) input).start =
      (filter config qs (filter config ps input)).outcomes asks (filter config qs (filter config ps input)).start :=
  outcomes_eq (P := fun _ => True) (fun _ _ ask hst _ _ => stacked_pull h hv ps qs hst ask.1 ask.2)
    (stacked_start config h ps qs) fun _ _ => trivial

end

end QueryEngine.Operator
