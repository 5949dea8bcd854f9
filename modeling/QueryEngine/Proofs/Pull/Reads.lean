import QueryEngine.Proofs.Pull.Fails
import QueryEngine.Proofs.Pull.Halts
import QueryEngine.Proofs.Pull.Runs

/-! What an operator has read of its input.

For one pull of its own an operator pulls its input some times, perhaps not at all. A run
of an operator is told beside the run of its input that goes on below it: which chunks the
input has handed out so far, and what the operator has made of them (`Log`). Whoever knows
what the operator's own work does with the chunks that it fetches knows this of every run
(`pulls_logged`), however the input comes by them. -/
namespace QueryEngine

/-! ### Chunks in a row -/

/-- The rows of some chunks, counted. -/
def rowCount (chunks : List Chunk) : Nat := total (chunks.map Chunk.count)

@[simp] theorem rowCount_nil : rowCount [] = 0 := rfl

@[simp] theorem rowCount_cons (c : Chunk) (chunks : List Chunk) : rowCount (c :: chunks) = c.count + rowCount chunks := rfl

@[simp] theorem rowCount_append (chunks more : List Chunk) : rowCount (chunks ++ more) = rowCount chunks + rowCount more := by
  rw [rowCount, List.map_append, total_append, rowCount, rowCount]

/-- The chunks that have rows. -/
def withRows (chunks : List Chunk) : List Chunk := chunks.filter fun c => !c.isEmpty

theorem withRows_append (chunks more : List Chunk) : withRows (chunks ++ more) = withRows chunks ++ withRows more :=
  List.filter_append ..

theorem withRows_of_full {chunks : List Chunk} (h : ∀ c ∈ chunks, c.isEmpty = false) : withRows chunks = chunks :=
  List.filter_eq_self.mpr fun c hc => by
    rw [h c hc]
    rfl

theorem withRows_of_empty {chunks : List Chunk} (h : ∀ c ∈ chunks, c.isEmpty = true) : withRows chunks = [] :=
  List.filter_eq_nil_iff.mpr fun c hc => by
    rw [h c hc]
    exact Bool.false_ne_true

theorem flatMap_withRows {chunks : List Chunk} (h : ∀ c ∈ chunks, c.Sound) :
    (withRows chunks).flatMap Chunk.rows = chunks.flatMap Chunk.rows := by
  induction chunks with
  | nil => rfl
  | cons c chunks ih =>
    obtain ⟨hc, hchunks⟩ := List.forall_mem_cons.mp h
    rw [List.flatMap_cons, ← ih hchunks, withRows, withRows]
    cases he : c.isEmpty with
    | true => rw [List.filter_cons_of_neg (by simp [he]), hc.rows_eq_nil_iff.mpr he, List.nil_append]
    | false => rw [List.filter_cons_of_pos (by simp [he]), List.flatMap_cons]

theorem length_flatMap_rows {chunks : List Chunk} (h : ∀ c ∈ chunks, c.Sound) :
    (chunks.flatMap Chunk.rows).length = rowCount chunks := by
  induction chunks with
  | nil => rfl
  | cons c chunks ih =>
    obtain ⟨hc, hchunks⟩ := List.forall_mem_cons.mp h
    rw [List.flatMap_cons, List.length_append, hc.length_rows, ih hchunks, rowCount_cons]

namespace Operator
variable {op input : Operator} {sees : List (Nat × Mask) → Prop} {cells cells' cells'' : List Cell} {fed more : List Chunk}

/-! ### An input and its chunks -/

/-- From the cells the operator hands out sound chunks of its types, of whatever rows, as
long as its pulls succeed. -/
structure Proper (op : Operator) (sees : List (Nat × Mask) → Prop) (cells : List Cell) : Prop where
  started : cells ≠ []
  gives : ∃ rows, Gives ⟨0, False, False, sees⟩ op op rows cells

theorem Proper.of_gives {T : Terms} {rows : List Row} (h : Gives T op op rows op.start.cells) :
    op.Proper T.sees op.start.cells :=
  ⟨List.cons_ne_nil _ _, rows, h.of_untidy id False.elim rfl⟩

theorem Streams.proper {rows : List Row} (h : op.Streams sees rows) : op.Proper sees op.start.cells := .of_gives h

/-- A pull that succeeds hands out such a chunk, and there may be another. -/
theorem Proper.step {f g : Frame} (h : op.Proper sees f.cells) (hs : sees f.session.masks) (hpull : op.pull f = .ok () g) :
    (g.out.Sound ∧ g.out.types = op.types) ∧ sees g.session.masks ∧ op.Proper sees g.cells := by
  obtain ⟨rows, hgives⟩ := h.gives
  have hg := (hgives.step hs f.out).2 () g hpull
  obtain ⟨rest, hrest, _⟩ := hg.left
  exact ⟨⟨hg.handed.sound, hg.handed.typed⟩, hg.sees, List.cons_ne_nil _ _, rest, hrest⟩

/-- Of chunks that need not be tidy no capacity is asked. -/
theorem Proper.gives_untold (h : op.Proper sees cells) (capacity : Nat) :
    ∃ rows, Gives ⟨capacity, False, False, sees⟩ op op rows cells := by
  obtain ⟨rows, hgives⟩ := h.gives
  exact ⟨rows, hgives.of_untidy id id rfl⟩

/-- Pulls that all succeed, from some cells to others, and the chunks they hand out. -/
inductive Reads (op : Operator) (sees : List (Nat × Mask) → Prop) : List Cell → List Chunk → List Cell → Prop
  | none (cells : List Cell) : Reads op sees cells [] cells
  | next {cell : Cell} {below cells : List Cell} {session : Session} {out : Chunk} {f : Frame} {chunks : List Chunk}
    (hs : sees session.masks) (hpull : op.pull ⟨cell, below, session, out⟩ = .ok () f)
    (hrest : Reads op sees f.cells chunks cells) : Reads op sees (cell :: below) (f.out :: chunks) cells

namespace Reads

theorem append (h : op.Reads sees cells fed cells') (h' : op.Reads sees cells' more cells'') :
    op.Reads sees cells (fed ++ more) cells'' := by
  induction h with
  | none cells => exact h'
  | next hs hpull _ ih => exact .next hs hpull (ih h')

/-- They are a run of the operator. -/
theorem pulls {s : State} (h : op.Reads sees s.cells fed cells) : ∃ t : State, t.cells = cells ∧ op.Pulls sees s fed t := by
  generalize hcells : s.cells = before at h
  induction h generalizing s with
  | none cells => exact ⟨s, hcells, .none s⟩
  | @next cell below cells session out f chunks hs hpull _ ih =>
    obtain ⟨first, rest⟩ := s
    cases hcells
    obtain ⟨t, ht, hrun⟩ := ih (s := ⟨f.cell, f.below⟩) rfl
    exact ⟨t, ht, .next hs hpull hrun⟩

theorem of_pulls {s t : State} (h : op.Pulls sees s fed t) : op.Reads sees s.cells fed t.cells := by
  induction h with
  | none s => exact .none _
  | next hs hpull _ ih => exact .next hs hpull ih

/-- An input that hands out sound chunks goes on to do so. -/
theorem proper (h : op.Reads sees cells fed cells') (hop : op.Proper sees cells) :
    op.Proper sees cells' ∧ ∀ c ∈ fed, c.Sound ∧ c.types = op.types := by
  induction h with
  | none cells => exact ⟨hop, List.forall_mem_nil _⟩
  | @next cell below cells session out f chunks hs hpull _ ih =>
    obtain ⟨hout, _, hleft⟩ := Proper.step (f := ⟨cell, below, session, out⟩) hop hs hpull
    obtain ⟨hproper, hchunks⟩ := ih hleft
    exact ⟨hproper, List.forall_mem_cons.mpr ⟨hout, hchunks⟩⟩

/-- The counts in its cells stay right. -/
theorem counted (h : op.Reads sees cells fed cells') (hop : op.Halting) (hcells : ∀ cell ∈ cells, cell.Counted) :
    ∀ cell ∈ cells', cell.Counted := by
  induction h with
  | none cells => exact hcells
  | @next cell below cells session out f chunks _ hpull _ ih =>
    obtain ⟨hcell, hbelow⟩ := List.forall_mem_cons.mp hcells
    obtain ⟨hf, _⟩ := (hop.step ⟨cell, below, session, out⟩ hcell hbelow).ok hpull
    exact ih (List.forall_mem_cons.mpr ⟨hf.cell, hf.below⟩)

end Reads

/-- After a run the next pull fails only in time. -/
theorem Halting.fails {s t : State} {chunks : List Chunk} (h : op.Halting) (hs : ∀ cell ∈ s.cells, cell.Counted)
    (hp : op.Pulls sees s chunks t) (session : Session) (out : Chunk) :
    Pull.Fails op.pull ⟨t.cell, t.below, session, out⟩ fun e _ => e ≠ .stalled := by
  intro e g hpull
  obtain ⟨hcell, hbelow⟩ := List.forall_mem_cons.mp ((Reads.of_pulls hp).counted h hs)
  exact ((h.step ⟨t.cell, t.below, session, out⟩ hcell hbelow).error hpull).2.ne

/-- After some pulls from the cells that succeed, a pull fails. -/
def FailsAfter (op : Operator) (sees : List (Nat × Mask) → Prop) (cells : List Cell) (e : Failure) : Prop :=
  ∃ more cell below session out g, op.Reads sees cells more (cell :: below) ∧ sees session.masks ∧
    op.pull ⟨cell, below, session, out⟩ = .error e g

theorem Reads.failsAfter {e : Failure} (h : op.Reads sees cells fed cells') (h' : op.FailsAfter sees cells' e) :
    op.FailsAfter sees cells e := by
  obtain ⟨more, cell, below, session, out, g, hmore, hs, hpull⟩ := h'
  exact ⟨fed ++ more, cell, below, session, out, g, h.append hmore, hs, hpull⟩

/-! ### One chunk -/

/-- What a chunk read from the first input leaves. -/
structure Read (input : Operator) (sees : List (Nat × Mask) → Prop) (f : Frame) (chunk : Chunk) (g : Frame) : Prop where
  sound : chunk.Sound
  typed : chunk.types = input.types
  masks : sees g.session.masks
  out : g.out = f.out
  cell : g.cell = { f.cell with buffer := chunk }
  proper : input.Proper sees g.below
  reads : input.Reads sees f.below [chunk] g.below

/-- A pull of the first input, whatever chunk it fills and however it goes on. -/
theorem Proper.read {f : Frame} {after : Frame → Frame → Frame} {Q : Chunk → Frame → Prop} (h : input.Proper sees f.below)
    (hs : sees f.session.masks) (name : String) (out : Chunk)
    (hQ : ∀ g : Frame, g.out.Sound → g.out.types = input.types → sees g.session.masks → input.Proper sees g.cells →
      input.Reads sees f.below [g.out] g.cells → Q g.out (after f g)) :
    Pull.Agree (Pull.inInput name out after input.pull) (Pull.inInput name out after input.pull) f Q := by
  refine Pull.Agree.inInput fun k hk => Pull.Agree.of_ok fun _ g hpull => ?_
  unfold Frame.input? at hk
  split at hk
  · cases hk
  · rename_i cell below hbelow
    cases hk
    rw [hbelow] at h
    obtain ⟨⟨hsound, htyped⟩, hsees, hproper⟩ := Proper.step (f := ⟨cell, below, f.session, out⟩) h hs hpull
    refine hQ g hsound htyped hsees hproper ?_
    rw [hbelow]
    exact .next hs hpull (.none _)

theorem Proper.fetch {f : Frame} (h : input.Proper sees f.below) (hs : sees f.session.masks) :
    Pull.Agree input.fetch input.fetch f (Read input sees f) := by
  unfold Operator.fetch
  exact Pull.Agree.step rfl (h.read hs _ _ fun _ hsound htyped hsees hproper hread =>
    ⟨hsound, htyped, hsees, rfl, rfl, hproper, hread⟩)

/-- Reading a chunk fails only as the input does. -/
theorem Proper.fetch_fails {f : Frame} (h : input.Proper sees f.below) (hs : sees f.session.masks) :
    Pull.Fails input.fetch f fun e _ => input.FailsAfter sees f.below e := by
  obtain ⟨cell, below, hbelow⟩ := List.exists_cons_of_ne_nil h.started
  refine Pull.Fails.step rfl (Pull.Fails.inInput hbelow fun e g hpull => ?_)
  rw [hbelow]
  exact ⟨[], cell, below, _, _, g, .none _, hs, hpull⟩

/-! ### An input read to its end -/

/-- Chunks with rows, and behind them an empty one: all that an input hands out from the
cells. -/
def ReadsOut (input : Operator) (sees : List (Nat × Mask) → Prop) (cells : List Cell) (fed : List Chunk) : Prop :=
  ∃ chunks last cells', fed = chunks ++ [last] ∧ (∀ c ∈ chunks, c.isEmpty = false) ∧ last.isEmpty = true ∧
    input.Reads sees cells fed cells'

/-- Nothing of what the input gives is left out. -/
theorem ReadsOut.rows {given : List Row} (h : input.ReadsOut sees input.start.cells fed) (hin : input.Streams sees given) :
    fed.flatMap Chunk.rows = given := by
  obtain ⟨chunks, last, cells', rfl, _, hlast, hread⟩ := h
  obtain ⟨t, _, hrun⟩ := hread.pulls
  obtain ⟨_, rest, _, hrows⟩ := Gives.pulls hin hrun
  obtain ⟨hrows, hnone⟩ := hrows trivial
  rw [hrows, hnone ⟨last, List.mem_append_right _ (List.mem_singleton_self _), hlast⟩, List.append_nil]

theorem Proper.drainInto {f : Frame} (rounds : Nat) (collected : Collection) (h : input.Proper sees f.below)
    (hs : sees f.session.masks) :
    Pull.Agree (input.drainInto rounds collected) (input.drainInto rounds collected) f
      fun _ _ => ∃ fed, input.ReadsOut sees f.below fed := by
  induction rounds generalizing f collected with
  | zero => exact .throw
  | succ rounds ih =>
    rw [Operator.drainInto]
    have hread : Pull.Agree (Pull.inInput input.name Chunk.fresh Frame.afterInput input.pull)
        (Pull.inInput input.name Chunk.fresh Frame.afterInput input.pull) f fun chunk g =>
          sees g.session.masks ∧ input.Proper sees g.below ∧ input.Reads sees f.below [chunk] g.below :=
      h.read hs _ _ fun _ _ _ hsees hproper hread => ⟨hsees, hproper, hread⟩
    refine hread.bind fun chunk g hg => ?_
    obtain ⟨hsees, hproper, hfirst⟩ := hg
    refine .ite (fun he => .pure ?_) fun he => ?_
    · exact ⟨[chunk], [], chunk, g.below, rfl, List.forall_mem_nil _, he, hfirst⟩
    refine .lift_bind fun next _ => (Pull.Agree.reserve next.2).bind fun _ k hk => ?_
    obtain ⟨held, pool, rfl⟩ := hk
    have hagree := ih (f := { g with cell := { g.cell with reserved := held }, session := { g.session with pool := pool } })
      next.1 hproper hsees
    refine hagree.mono fun _ _ hread' => ?_
    obtain ⟨fed, chunks, last, cells', hfed, hfull, hlast, hrest⟩ := hread'
    refine ⟨chunk :: fed, chunk :: chunks, last, cells', congrArg (chunk :: ·) hfed, ?_, hlast, hfirst.append hrest⟩
    exact List.forall_mem_cons.mpr ⟨Bool.eq_false_iff.mpr he, hfull⟩

/-! ### Runs -/

/-- What an operator's own work makes of what it reads, having been fed some chunks and
having handed out some of its own: `K` holds of them and of the cell while it goes on,
`E` when it has ended. -/
structure Logs (input : Operator) (sees : List (Nat × Mask) → Prop) (K : List Chunk → List Chunk → Cell → Prop)
    (E : List Chunk → List Chunk → Prop) (fed outs : List Chunk) (f g : Frame) : Prop where
  sound : g.out.Sound
  unfinished : g.cell.finished = false
  left : ∃ more, input.Reads sees f.below more g.below ∧
    (g.out.isEmpty = true → E (fed ++ more) outs) ∧
    (g.out.isEmpty = false → K (fed ++ more) (outs ++ [g.out]) g.cell)

section
variable {K : List Chunk → List Chunk → Cell → Prop} {E : List Chunk → List Chunk → Prop} {outs chunks : List Chunk}

/-- What comes after some chunks were read. -/
theorem Logs.after {f g k : Frame} (h : Logs input sees K E (fed ++ more) outs g k)
    (hread : input.Reads sees f.below more g.below) : Logs input sees K E fed outs f k := by
  obtain ⟨later, hlater, hend, hleft⟩ := h.left
  refine ⟨h.sound, h.unfinished, more ++ later, hread.append hlater, ?_, ?_⟩
  · rwa [← List.append_assoc]
  · rwa [← List.append_assoc]

/-- What a run of an operator has made of the chunks it was fed. -/
structure Log (K : List Chunk → List Chunk → Cell → Prop) (E : List Chunk → List Chunk → Prop) (fed chunks : List Chunk)
    (cell : Cell) : Prop where
  /-- Empty chunks come last. -/
  unbroken : chunks.Pairwise fun c d => c.isEmpty = true → d.isEmpty = true
  ended : (∃ c ∈ chunks, c.isEmpty = true) → cell.finished = true ∧ E fed (withRows chunks)
  ongoing : (∀ c ∈ chunks, c.isEmpty = false) → cell.finished = false ∧ K fed chunks cell

section
variable {config : Config} {types : List SqlType} {work : Pull Unit} {s s' : State}
  (hpull : op.pull = answer config types work)
  (hwork : ∀ f fed outs, f.cell.finished = false → f.out = Chunk.blank types config.capacity → K fed outs f.cell →
    input.Proper sees f.below → sees f.session.masks →
    Pull.Agree work work f fun _ g => Logs input sees K E fed outs f g)
include hpull hwork

/-- A run from a state where some chunks have been fed and some were handed out. -/
theorem pulls_logged_from (hin : input.Proper sees s.below) (hf : s.cell.finished = false) (hK : K fed outs s.cell)
    (houts : ∀ c ∈ outs, c.isEmpty = false) (hp : op.Pulls sees s chunks s') :
    ∃ more, input.Reads sees s.below more s'.below ∧ Log K E (fed ++ more) (outs ++ chunks) s'.cell := by
  induction hp generalizing fed outs with
  | none s =>
    refine ⟨[], .none _, ?_⟩
    rw [List.append_nil, List.append_nil]
    refine ⟨List.pairwise_of_forall_mem_list fun c hc d _ he => ?_, fun ⟨c, hc, he⟩ => ?_, fun _ => ⟨hf, hK⟩⟩
    · cases (houts c hc).symm.trans he
    · cases (houts c hc).symm.trans he
  | @next s s' session out f chunks hs hpulled hrest ih =>
    rw [hpull] at hpulled
    obtain ⟨k, hdone, rfl⟩ := answer_ok (f := ⟨s.cell, s.below, session, out⟩) hf hpulled
    have hlogs := (hwork _ fed outs hf rfl hK hin hs).2 () k hdone
    obtain ⟨more, hread, hend, hleft⟩ := hlogs.left
    rw [Frame.out_ended]
    cases he : k.out.isEmpty with
    | true =>
      obtain ⟨hempty, rfl⟩ := Pulls.of_finished (s := ⟨k.ended.cell, k.ended.below⟩) hpull
        (by rw [Frame.finished_ended, he, Bool.or_true]) hrest
      refine ⟨more, ?_, ?_⟩
      · rw [Frame.below_ended]
        exact hread
      have hlast : ∀ c ∈ k.out :: chunks, c.isEmpty = true := List.forall_mem_cons.mpr ⟨he, hempty⟩
      refine ⟨?_, fun _ => ⟨?_, ?_⟩, fun hall => ?_⟩
      · refine List.pairwise_append.mpr ⟨?_, ?_, fun c hc d hd _ => hlast d hd⟩
        · refine List.pairwise_of_forall_mem_list fun c hc d _ he => ?_
          cases (houts c hc).symm.trans he
        · exact List.pairwise_of_forall_mem_list fun c _ d hd _ => hlast d hd
      · rw [Frame.finished_ended, he, Bool.or_true]
      · rw [withRows_append, withRows_of_full houts, withRows_of_empty hlast, List.append_nil]
        exact hend he
      · cases (hall k.out (List.mem_append_right _ (List.mem_cons_self ..))).symm.trans he
    | false =>
      have hended : k.ended = k := by rw [Frame.ended, he, if_neg Bool.false_ne_true]
      rw [hended] at hrest ih
      have houts' : ∀ c ∈ outs ++ [k.out], c.isEmpty = false :=
        List.forall_mem_append.mpr ⟨houts, List.forall_mem_singleton.mpr he⟩
      obtain ⟨later, hlater, hlog⟩ := ih (hread.proper hin).1 hlogs.unfinished (hleft he) houts'
      rw [List.append_assoc, List.append_assoc, List.singleton_append] at hlog
      exact ⟨more ++ later, hread.append hlater, hlog⟩

/-- Every run of an operator over an input, beside the run of the input below it. -/
theorem pulls_logged {p : Progress} (hstart : op.start = State.above p input.start)
    (hin : input.Proper sees input.start.cells) (hK : K [] [] (Cell.start p)) (hp : op.Pulls sees op.start chunks s') :
    ∃ fed, input.Reads sees input.start.cells fed s'.below ∧ Log K E fed chunks s'.cell := by
  rw [hstart] at hp
  exact pulls_logged_from hpull hwork hin rfl hK (List.forall_mem_nil _) hp

/-- After a run the next pull fails only as the operator's own work does. -/
theorem Log.fails {F : Failure → Prop} (hlog : Log K E fed chunks s.cell) (hin : input.Proper sees s.below)
    {session : Session} (hs : sees session.masks) (out : Chunk)
    (hfails : ∀ f : Frame, f.cell = s.cell → f.below = s.below → f.session = session → K fed chunks f.cell →
      Pull.Fails work f fun e _ => F e) :
    Pull.Fails op.pull ⟨s.cell, s.below, session, out⟩ fun e _ => F e := by
  by_cases hall : ∀ c ∈ chunks, c.isEmpty = false
  · obtain ⟨hf, hK⟩ := hlog.ongoing hall
    intro e g hg
    rw [hpull] at hg
    cases hdone : work ⟨s.cell, s.below, session, Chunk.blank types config.capacity⟩ with
    | ok a k =>
      have hlogs := (hwork ⟨s.cell, s.below, session, Chunk.blank types config.capacity⟩ fed chunks hf rfl hK hin hs).2 a k hdone
      cases (answer_of_work (f := ⟨s.cell, s.below, session, out⟩) hf hdone hlogs.sound).symm.trans hg
    | error e' k =>
      rw [answer_eq config types work hf, run_bind, hdone] at hg
      cases hg
      exact hfails _ rfl rfl rfl hK _ _ hdone
  · have hempty : ∃ c ∈ chunks, c.isEmpty = true := by simpa using hall
    exact .of_ok (pull_of_finished hpull (hlog.ended hempty).1 session out)

end

end

end Operator
end QueryEngine
