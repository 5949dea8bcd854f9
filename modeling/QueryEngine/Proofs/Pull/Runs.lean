import QueryEngine.Proofs.Pull.Gives

/-! Runs: pulls of one operator, one after another.

Between two pulls the session may change, within what is known of it, and the chunk to
fill may hold anything. A run of pulls that all succeed hands out a front of the rows
that the operator gives, and all of them once a chunk was empty. -/
namespace QueryEngine

namespace Operator

/-- Pulls that all succeed, from a state to another, and the chunks they hand out. -/
inductive Pulls (op : Operator) (sees : List (Nat × Mask) → Prop) : State → List Chunk → State → Prop
  | none (s : State) : Pulls op sees s [] s
  | next {s s' : State} {session : Session} {out : Chunk} {f : Frame} {chunks : List Chunk} (hs : sees session.masks)
    (hpull : op.pull ⟨s.cell, s.below, session, out⟩ = .ok () f) (hrest : Pulls op sees ⟨f.cell, f.below⟩ chunks s') :
    Pulls op sees s (f.out :: chunks) s'

/-- The chunks of `n` pulls in one session, if all succeed. -/
def pullTimes (op : Operator) : Nat → State → Session → Option (List Chunk)
  | 0, _, _ => some []
  | n + 1, s, session =>
    match op.pull ⟨s.cell, s.below, session, Chunk.fresh⟩ with
    | .ok () f => (op.pullTimes n ⟨f.cell, f.below⟩ f.session).map (f.out :: ·)
    | .error _ _ => none

theorem pulls_of_pullTimes {op : Operator} {sees : List (Nat × Mask) → Prop} (hsees : ∀ masks, sees masks) {n : Nat}
    {s : State} {session : Session} {chunks : List Chunk} (h : op.pullTimes n s session = some chunks) :
    ∃ s', op.Pulls sees s chunks s' := by
  induction n generalizing s session chunks with
  | zero =>
    cases h
    exact ⟨s, .none s⟩
  | succ n ih =>
    rw [pullTimes] at h
    cases hpull : op.pull ⟨s.cell, s.below, session, Chunk.fresh⟩ with
    | error e f =>
      rw [hpull] at h
      cases h
    | ok a f =>
      rw [hpull] at h
      obtain ⟨rest, hrest, rfl⟩ := Option.map_eq_some_iff.mp h
      obtain ⟨s', hs'⟩ := ih hrest
      exact ⟨s', .next (hsees session.masks) hpull hs'⟩

/-- A run of which something is known that can be computed from its chunks. -/
theorem pulls_of_map {op : Operator} {sees : List (Nat × Mask) → Prop} (hsees : ∀ masks, sees masks) {n : Nat} {s : State}
    {session : Session} {α : Type} {told : List Chunk → α} {a : α} (h : (op.pullTimes n s session).map told = some a) :
    ∃ chunks s', op.Pulls sees s chunks s' ∧ told chunks = a := by
  obtain ⟨chunks, hchunks, htold⟩ := Option.map_eq_some_iff.mp h
  obtain ⟨s', hrun⟩ := pulls_of_pullTimes hsees hchunks
  exact ⟨chunks, s', hrun, htold⟩

section
variable {op op' : Operator} {sees : List (Nat × Mask) → Prop} {s t u : State} {before chunks more : List Chunk}

theorem Pulls.append (h : op.Pulls sees s chunks t) (h' : op.Pulls sees t more u) : op.Pulls sees s (chunks ++ more) u := by
  induction h with
  | none s => exact h'
  | next hs hpull _ ih => exact .next hs hpull (ih h')

/-- The end of a run is one of another operator that pulls alike from the states of the run. -/
theorem Pulls.switch {start : State} (hbefore : op.Pulls sees start before s) (hp : op.Pulls sees s chunks t)
    (h : ∀ more u, op.Pulls sees start (before ++ more) u → ∀ session out, sees session.masks →
      op'.pull ⟨u.cell, u.below, session, out⟩ = op.pull ⟨u.cell, u.below, session, out⟩) : op'.Pulls sees s chunks t := by
  induction hp generalizing before with
  | none s => exact .none s
  | @next s t session out f chunks hs hpull _ ih =>
    have hsame := h [] s ((List.append_nil before).symm ▸ hbefore) session out hs
    refine .next hs (hsame.trans hpull) (ih (hbefore.append (.next hs hpull (.none _))) fun more u hu => ?_)
    rw [List.append_assoc] at hu
    exact h _ u hu

end

/-- From its start the operator hands out these rows, in sound chunks of its types,
until an empty chunk; from then on all are empty. -/
def Streams (op : Operator) (sees : List (Nat × Mask) → Prop) (rows : List Row) : Prop :=
  Gives ⟨0, False, True, sees⟩ op op rows op.start.cells

end Operator

/-- Where chunks need not be tidy, no capacity is asked of them. -/
theorem Gives.of_untidy {T T' : Terms} {op₁ op₂ : Operator} {rows : List Row} {cells : List Cell}
    (h : Gives T op₁ op₂ rows cells) (htidy : ¬T'.tidy) (htold : T'.told → T.told) (hsees : T'.sees = T.sees) :
    Gives T' op₁ op₂ rows cells := by
  obtain ⟨J, hJ, hrows⟩ := h
  refine ⟨J, ⟨hJ.alike, fun f rows hf hs => ?_⟩, hrows⟩
  rw [hsees] at hs
  refine (hJ.step f rows hf hs).mono fun _ g hg => ?_
  obtain ⟨rest, hrest, hrows⟩ := hg.left
  exact ⟨⟨hg.handed.sound, hg.handed.typed, fun ht => absurd ht htidy⟩, hsees ▸ hg.sees, fun ht => absurd ht htidy,
    rest, hrest, fun ht => hrows (htold ht)⟩

section
variable {T : Terms} {op₁ op₂ : Operator} {rows : List Row} {s s' : State} {chunks : List Chunk}

theorem Gives.pulls (h : Gives T op₁ op₂ rows s.cells) (hp : op₁.Pulls T.sees s chunks s') :
    (∀ c ∈ chunks, T.Handed op₁.types c) ∧
      ∃ rest, Gives T op₁ op₂ rest s'.cells ∧
        (T.told → rows = chunks.flatMap Chunk.rows ++ rest ∧ ((∃ c ∈ chunks, c.isEmpty = true) → rest = [])) := by
  induction hp generalizing rows with
  | none s => exact ⟨fun _ hc => (by cases hc), rows, h, fun _ => ⟨rfl, fun ⟨_, hc, _⟩ => (by cases hc)⟩⟩
  | @next s s' session out f chunks hs hpull _ ih =>
    have hf := (h.step hs out).2 () f hpull
    obtain ⟨rest, hrest, htold⟩ := hf.left
    obtain ⟨hhanded, rest', hrest', htold'⟩ := ih hrest
    refine ⟨fun c hc => ?_, rest', hrest', fun ht => ⟨?_, fun ⟨c, hc, he⟩ => ?_⟩⟩
    · rcases List.mem_cons.mp hc with hc | hc
      · exact hc ▸ hf.handed
      · exact hhanded c hc
    · rw [(htold ht).1, (htold' ht).1, List.flatMap_cons, List.append_assoc]
    · rcases List.mem_cons.mp hc with hc | hc
      · have hnone : chunks.flatMap Chunk.rows ++ rest' = [] := by
          rw [← (htold' ht).1]
          exact (htold ht).2 (hc ▸ he)
        exact (List.append_eq_nil_iff.mp hnone).2
      · exact (htold' ht).2 ⟨c, hc, he⟩

/-- A state is finished when its last chunk was empty. -/
theorem Gives.finished (h : Gives T op₁ op₂ rows s.cells) (ht : T.tidy) (hp : op₁.Pulls T.sees s chunks s') {c : Chunk}
    (hc : chunks.getLast? = some c) : s'.cell.finished = c.isEmpty := by
  induction hp generalizing rows with
  | none s => cases hc
  | @next s s' session out f chunks hs hpull hrest ih =>
    have hf := (h.step hs out).2 () f hpull
    obtain ⟨rest, hgives, _⟩ := hf.left
    cases hrest with
    | none =>
      cases hc
      exact hf.finished ht
    | next => exact ih hgives (by rw [List.getLast?_cons_cons] at hc; exact hc)

end

/-! ### What stands behind an answer -/

/-- The frame after an operator's own work, an empty chunk being the end. -/
def Frame.ended (f : Frame) : Frame :=
  if f.out.isEmpty then { f with cell := { f.cell with finished := true } } else f

@[simp] theorem Frame.out_ended (f : Frame) : f.ended.out = f.out := by
  unfold ended
  split <;> rfl

@[simp] theorem Frame.below_ended (f : Frame) : f.ended.below = f.below := by
  unfold ended
  split <;> rfl

@[simp] theorem Frame.session_ended (f : Frame) : f.ended.session = f.session := by
  unfold ended
  split <;> rfl

@[simp] theorem Frame.progress_ended (f : Frame) : f.ended.cell.progress = f.cell.progress := by
  unfold ended
  split <;> rfl

@[simp] theorem Frame.buffer_ended (f : Frame) : f.ended.cell.buffer = f.cell.buffer := by
  unfold ended
  split <;> rfl

@[simp] theorem Frame.finished_ended (f : Frame) : f.ended.cell.finished = (f.cell.finished || f.out.isEmpty) := by
  unfold ended
  split
  · rename_i he
    rw [he, Bool.or_true]
  · rename_i he
    rw [Bool.eq_false_iff.mpr he, Bool.or_false]

namespace Operator
variable {config : Config} {types : List SqlType} {work : Pull Unit} {f g k : Frame}

/-- While the state is not finished, a pull is the operator's own work on a blank chunk. -/
theorem answer_eq (config : Config) (types : List SqlType) (work : Pull Unit) (hf : f.cell.finished = false) :
    answer config types work f = (do
      work
      let chunk ← Pull.out
      if chunk.isEmpty then Pull.finish
      if config.verify then chunk.verify) { f with out := Chunk.blank types config.capacity } := by
  show (if f.cell.finished = true then (pure () : Pull Unit) else _) _ = _
  rw [hf, if_neg Bool.false_ne_true]
  rfl

theorem answer_of_finished (hf : f.cell.finished = true) :
    answer config types work f = .ok () { f with out := Chunk.blank types config.capacity } := by
  rw [answer, run_bind]
  show (if f.cell.finished = true then _ else _ : Pull Unit) _ = _
  rw [if_pos hf]
  rfl

/-- Answers are alike where the work is. -/
theorem answer_congr {work' : Pull Unit} (h : f.cell.finished = false →
      work' { f with out := Chunk.blank types config.capacity } = work { f with out := Chunk.blank types config.capacity }) :
    answer config types work' f = answer config types work f := by
  cases hf : f.cell.finished with
  | true => rw [answer_of_finished hf, answer_of_finished hf]
  | false => rw [answer_eq config types work hf, answer_eq config types work' hf, run_bind, run_bind, h hf]

/-- The work behind an answer that succeeds. -/
theorem answer_ok (hf : f.cell.finished = false) (h : answer config types work f = .ok () g) :
    ∃ k, work { f with out := Chunk.blank types config.capacity } = .ok () k ∧ g = k.ended := by
  rw [answer_eq config types work hf] at h
  obtain ⟨_, k, hwork, h⟩ := run_bind_eq_ok.mp h
  refine ⟨k, hwork, ?_⟩
  have hverify {k g : Frame} (h : (if config.verify = true then (liftM k.out.verify : Pull Unit) else pure ()) k = .ok () g) :
      g = k := by
    split at h
    · exact (run_liftQuery_eq_ok.mp h).2
    · cases h
      rfl
  obtain ⟨chunk, k', hread, h⟩ := run_bind_eq_ok.mp h
  cases hread
  simp only [] at h
  unfold Frame.ended
  split at h
  · rename_i he
    obtain ⟨_, k', hfinish, h⟩ := run_bind_eq_ok.mp h
    cases hfinish
    rw [if_pos he]
    exact hverify (k := { k with cell := { k.cell with finished := true } }) h
  · rename_i he
    rw [if_neg he]
    exact hverify h

/-- Work that fills a sound chunk is answered. -/
theorem answer_of_work (hf : f.cell.finished = false)
    (hwork : work { f with out := Chunk.blank types config.capacity } = .ok () k) (hk : k.out.Sound) :
    answer config types work f = .ok () k.ended := by
  rw [answer_eq config types work hf, run_bind, hwork]
  show (do
    if k.out.isEmpty then Pull.finish
    if config.verify then k.out.verify : Pull Unit) k = _
  simp only [Pull.verify_of_sound config hk]
  unfold Frame.ended
  split <;> rfl

/-- A chunk is fetched as the input is pulled. -/
theorem fetch_eq {input : Operator} {i : Frame} (hi : f.input? f.cell.buffer = some i) :
    input.fetch f = match input.pull i with
      | .ok _ j => .ok j.out (f.afterFetch j)
      | .error e j => .error e (f.afterFetch j) := by
  show Pull.inInput input.name f.cell.buffer Frame.afterFetch input.pull f = _
  rw [Pull.inInput, hi]
  simp only
  cases input.pull i <;> rfl

end Operator

section
variable {T : Terms} {op₁ op₂ : Operator} {rows : List Row} {s s' : State} {chunks : List Chunk}

/-- A finished state answers every pull with an empty chunk. -/
theorem Operator.pull_of_finished {config : Config} {types : List SqlType} {work : Pull Unit}
    (hop : op₁.pull = Operator.answer config types work) (hf : s.cell.finished = true) (session : Session) (out : Chunk) :
    op₁.pull ⟨s.cell, s.below, session, out⟩ = .ok () ⟨s.cell, s.below, session, Chunk.blank types config.capacity⟩ := by
  rw [hop]
  exact answer_of_finished hf

theorem Operator.Pulls.of_finished {config : Config} {types : List SqlType} {work : Pull Unit}
    {sees : List (Nat × Mask) → Prop} (hop : op₁.pull = Operator.answer config types work)
    (hf : s.cell.finished = true) (hp : op₁.Pulls sees s chunks s') : (∀ c ∈ chunks, c.isEmpty = true) ∧ s' = s := by
  induction hp with
  | none s => exact ⟨fun _ hc => (by cases hc), rfl⟩
  | @next s s' session out f chunks _ hpull _ ih =>
    cases (Operator.pull_of_finished hop hf session out).symm.trans hpull
    obtain ⟨hempty, hs'⟩ := ih hf
    exact ⟨List.forall_mem_cons.mpr ⟨rfl, hempty⟩, hs'⟩

/-- An empty chunk has finished the state for good. -/
theorem Gives.finished_of_empty {config : Config} {types : List SqlType} {work : Pull Unit}
    (hop : op₁.pull = Operator.answer config types work) (h : Gives T op₁ op₂ rows s.cells) (ht : T.tidy)
    (hp : op₁.Pulls T.sees s chunks s') {c : Chunk} (hc : c ∈ chunks) (he : c.isEmpty = true) :
    s'.cell.finished = true := by
  induction hp generalizing rows with
  | none s => cases hc
  | @next s s' session out f chunks hs hpull hrest ih =>
    have hf := (h.step hs out).2 () f hpull
    obtain ⟨rest, hgives, _⟩ := hf.left
    rcases List.mem_cons.mp hc with rfl | hc
    · have hfinished : f.cell.finished = true := (hf.finished ht).trans he
      rw [(hrest.of_finished hop hfinished).2]
      exact hfinished
    · exact ih hgives hc

/-- After an empty chunk there are only empty chunks. -/
theorem Gives.ended {config : Config} {types : List SqlType} {work : Pull Unit}
    (hop : op₁.pull = Operator.answer config types work) (h : Gives T op₁ op₂ rows s.cells) (ht : T.tidy)
    (hp : op₁.Pulls T.sees s chunks s') : chunks.Pairwise fun c d => c.isEmpty = true → d.isEmpty = true := by
  induction hp generalizing rows with
  | none s => exact List.Pairwise.nil
  | @next s s' session out f chunks hs hpull hrest ih =>
    have hf := (h.step hs out).2 () f hpull
    obtain ⟨rest, hgives, _⟩ := hf.left
    refine List.Pairwise.cons (fun d hd he => ?_) (ih hgives)
    exact (hrest.of_finished hop ((hf.finished ht).trans he)).1 d hd

end

end QueryEngine
