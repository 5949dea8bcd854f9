import QueryEngine.Proofs.Plan.Sequences
import QueryEngine.Proofs.Pull.Deletion

/-! What a deletion leaves that fails.

A deletion deletes the rows of one chunk before it fetches the next, and of a chunk the
rows before an id that is no row of the table. What was deleted up to a failure stays
deleted, and no count tells how much that is. So a deletion that fails has changed nothing
just where no live row was named before. -/
namespace QueryEngine

theorem Chunk.lastIds_append (chunks more : List Chunk) : lastIds (chunks ++ more) = lastIds chunks ++ lastIds more := by
  rw [lastIds, List.flatMap_append, List.filterMap_append, lastIds, lastIds]

theorem Chunk.lastIds_singleton (c : Chunk) : lastIds [c] = c.rows.filterMap lastId := by
  rw [lastIds_cons, lastIds, List.flatMap_nil, List.filterMap_nil, List.append_nil]

/-- `after` is without the rows of `t` that ids name, and otherwise as `before`. -/
structure Session.Without (t : Provider) (before : Session) (ids : List Int64) (after : Session) : Prop where
  length : (after.mask t).length = (before.mask t).length
  gone : ∀ i, (after.mask t).isLive i = ((before.mask t).isLive i && !namedBy ids i)
  others : ∀ u : Provider, u.id ≠ t.id → after.mask u = before.mask u

namespace Session.Without
variable {t : Provider} {s s' s'' : Session} {ids more : List Int64} {n : Nat}

theorem none (h : s'.masks = s.masks) : Without t s [] s' := by
  have hmask (u : Provider) : s'.mask u = s.mask u := by rw [mask, mask, h]
  exact ⟨by rw [hmask], fun i => by rw [hmask]; exact (Bool.and_true _).symm, fun u _ => hmask u⟩

theorem trans (h : Without t s ids s') (h' : Without t s' more s'') : Without t s (ids ++ more) s'' := by
  refine ⟨h'.length.trans h.length, fun i => ?_, fun u hu => (h'.others u hu).trans (h.others u hu)⟩
  rw [h'.gone, h.gone, namedBy_append, Bool.not_or, Bool.and_assoc]

theorem delete (h : (s.delete t ids).1 = .ok n) : Without t s ids (s.delete t ids).2 := by
  obtain ⟨-, -, hlive, -⟩ := Table.delete_ok (t := t.table) (Prod.ext h rfl)
  have hmask : (s.delete t ids).2.mask t = (t.table.delete (s.mask t) ids).2 := mask_setMask_self rfl _
  exact ⟨by rw [hmask, Table.length_delete], fun i => by rw [hmask]; exact hlive i, fun u hu => mask_setMask_of_ne hu _⟩

end Session.Without

/-- What `Table.delete_error` tells, in a session. -/
theorem Session.delete_error {t : Provider} {s s' : Session} {ids : List Int64} {e : QueryError}
    (h : s.delete t ids = (.error e, s')) : ∃ named bad later n, ids = named ++ bad :: later ∧
      (bad.toInt < 0 ∨ (s.mask t).length ≤ bad.toInt.toNat) ∧ e = .storage (.rowId bad.toInt t.name) ∧
        s.delete t named = (.ok n, s') := by
  unfold Session.delete at h
  cases hdelete : t.table.delete (s.mask t) ids with
  | mk count mask =>
  rw [hdelete] at h
  obtain ⟨rfl, rfl⟩ := Prod.mk.inj h
  obtain ⟨named, bad, later, n, hids, hbad, he, hnamed⟩ := Table.delete_error hdelete
  exact ⟨named, bad, later, n, hids, hbad, he, by rw [Session.delete, hnamed]⟩

namespace Plan
open Pull
variable {config : Config} {t : Provider} {p : Plan} {before session : Session} {chunks : List Chunk} {s : State}
  {f g : Frame} {e : Failure} {σ : Type}

/-- A pull of a plan that deletes nothing leaves the masks as they are, however it ends. -/
theorem leaves_pull (config : Config) (hfree : p.deletes = false) (h : s.reserved ≤ session.pool.used) (out : Chunk) :
    Leaves (p.operator config).pull ⟨s.cell, s.below, session, out⟩
      (fun g => g.session.masks = session.masks ∧ State.reservedBy g.cells ≤ g.session.pool.used)
      fun _ g => g.session.masks = session.masks := by
  have hpull := (p.accounts (M := (· = session.masks)) config (.inl hfree)).pull session.pool.limit (session.pool.used - s.reserved)
    s.cells ⟨s.cell, s.below, session, out⟩
    ⟨⟨rfl, (Nat.sub_add_cancel h).symm, rfl⟩, List.forall₂_same.mpr fun c _ => .refl c⟩
  refine hpull.mono (fun g ⟨hbooks, _⟩ => ⟨hbooks.masks, ?_⟩) fun _ g hg => hg.1.masks
  rw [hbooks.used_eq]
  exact Nat.le_add_left ..

/-- What a pull leaves that hands out a chunk. -/
theorem pulled_masks {s' : State} {session' : Session} {out chunk : Chunk} (hfree : p.deletes = false)
    (h : s.reserved ≤ session.pool.used) (hpull : p.pull config out s session = ⟨.ok (), chunk, s', session'⟩) :
    session'.masks = session.masks ∧ s'.reserved ≤ session'.pool.used := by
  have hleft := leaves_pull config hfree h out
  unfold pull at hpull
  cases hm : (p.operator config).pull ⟨s.cell, s.below, session, out⟩ with
  | error e g =>
    rw [hm] at hpull
    cases hpull
  | ok a g =>
    rw [hm] at hpull
    cases hpull
    exact hleft.1 a g hm

/-- The chunks that a plan hands out while the rows that they name are deleted from `t`. -/
inductive Deleting (config : Config) (t : Provider) (p : Plan) (before : Session) : List Chunk → State → Session → Prop
  | start : Deleting config t p before [] (p.start config) before
  | next {chunks : List Chunk} {s s' : State} {session session' : Session} {out chunk : Chunk} {n : Nat}
    (h : Deleting config t p before chunks s session) (hpull : p.pull config out s session = ⟨.ok (), chunk, s', session'⟩)
    (hmore : chunk.isEmpty = false) (hdelete : (session'.delete t (Chunk.lastIds [chunk])).1 = .ok n) :
    Deleting config t p before (chunks ++ [chunk]) s' (session'.delete t (Chunk.lastIds [chunk])).2

/-- The rows of the chunks are deleted, but for those of a chunk that names a row that `t`
does not have: of that only the rows before are, and then the failure tells of the id. -/
inductive Stops (config : Config) (t : Provider) (p : Plan) (before : Session) :
    Failure → List Int64 → List (Nat × Mask) → Prop
  | between {e : Failure} {chunks : List Chunk} {s : State} {session : Session} (h : Deleting config t p before chunks s session) :
    Stops config t p before e (Chunk.lastIds chunks) session.masks
  | within {chunks : List Chunk} {s s' : State} {session session' : Session} {out chunk : Chunk} {named later : List Int64}
    {bad : Int64} {n : Nat} (h : Deleting config t p before chunks s session)
    (hpull : p.pull config out s session = ⟨.ok (), chunk, s', session'⟩) (hids : Chunk.lastIds [chunk] = named ++ bad :: later)
    (hbad : bad.toInt < 0 ∨ (before.mask t).length ≤ bad.toInt.toNat) (hdelete : (session'.delete t named).1 = .ok n) :
    Stops config t p before (.error (.storage (.rowId bad.toInt t.name))) (Chunk.lastIds chunks ++ named)
      (session'.delete t named).2.masks

theorem Deleting.stops {masks : List (Nat × Mask)} (h : Deleting config t p before chunks s session)
    (hmasks : masks = session.masks) (e : Failure) : ∃ ids, Stops config t p before e ids masks :=
  ⟨_, hmasks ▸ Stops.between h⟩

theorem Deleting.reserved_le (hfree : p.deletes = false) (h : Deleting config t p before chunks s session) :
    s.reserved ≤ session.pool.used := by
  induction h with
  | start => exact p.reserved_start config ▸ Nat.zero_le _
  | next h hpull hmore hdelete ih => exact (pulled_masks hfree ih hpull).2

theorem Deleting.pulled {out chunk : Chunk} {s' : State} {session' : Session} (hfree : p.deletes = false)
    (h : Deleting config t p before chunks s session) (hpull : p.pull config out s session = ⟨.ok (), chunk, s', session'⟩) :
    session'.masks = session.masks :=
  (pulled_masks hfree (h.reserved_le hfree) hpull).1

theorem Deleting.without (hfree : p.deletes = false) (h : Deleting config t p before chunks s session) :
    before.Without t (Chunk.lastIds chunks) session := by
  induction h with
  | start => exact .none rfl
  | next h hpull hmore hdelete ih =>
    rw [Chunk.lastIds_append, ← List.nil_append (Chunk.lastIds [_])]
    exact ih.trans ((Session.Without.none (h.pulled hfree hpull)).trans (.delete hdelete))

theorem Stops.without {ids : List Int64} (hfree : p.deletes = false) (h : Stops config t p before e ids session.masks) :
    before.Without t ids session := by
  generalize hmasks : session.masks = masks at h
  cases h with
  | between h =>
    rw [← List.append_nil (Chunk.lastIds _)]
    exact (h.without hfree).trans (.none hmasks)
  | within h hpull hids hbad hdelete =>
    have hall := (h.without hfree).trans ((Session.Without.none (h.pulled hfree hpull)).trans (.delete hdelete))
    rw [List.nil_append] at hall
    rw [← List.append_nil (_ ++ _)]
    exact hall.trans (.none hmasks)

/-! ### The loop -/

theorem pull_ok {cell : Cell} {below : List Cell} {out : Chunk}
    (h : (p.operator config).pull ⟨cell, below, session, out⟩ = .ok () g) :
    p.pull config out ⟨cell, below⟩ session = ⟨.ok (), g.out, ⟨g.cell, g.below⟩, g.session⟩ := by
  unfold pull
  rw [h]

theorem fails_deleteChunks (hfree : p.deletes = false) (h : Deleting config t p before chunks s f.session)
    (hbelow : f.below = s.cells) (rounds deleted : Nat) :
    Fails (Operator.deleteChunks t (p.operator config) rounds deleted) f
      fun e g => ∃ ids, Stops config t p before e ids g.session.masks := by
  induction rounds generalizing f chunks s deleted with
  | zero => exact .throw ⟨_, .between h⟩
  | succ rounds ih =>
    rw [Operator.deleteChunks]
    have hleft := leaves_pull config hfree (h.reserved_le hfree) f.cell.buffer
    refine Fails.bind (.step rfl (.inInput hbelow (hleft.2.mono fun e g hmasks => ?_))) fun chunk g hfetch => ?_
    · exact h.stops hmasks e
    obtain ⟨cell, below, k, hcells, hpull, rfl, rfl⟩ := Operator.fetch_ok hfetch
    cases hbelow.symm.trans hcells
    have hmasks : k.session.masks = f.session.masks := (hleft.1 () k hpull).1
    refine .ite (fun _ => .pure) fun he => .lift_bind (fun e _ => h.stops hmasks e) fun ids hids => ?_
    obtain rfl := Operator.idsOf_ok hids
    rw [← Chunk.lastIds_singleton]
    cases hdelete : k.session.delete t (Chunk.lastIds [k.out]) with
    | mk result session' =>
    have hrun := Operator.run_deleteIds (t := t) (Chunk.lastIds [k.out]) (f.afterFetch k)
    have hsession : (f.afterFetch k).session = k.session := rfl
    rw [hsession, hdelete] at hrun
    cases result with
    | ok n =>
      have hnext := h.next (pull_ok hpull) (Bool.eq_false_iff.mpr he) (congrArg Prod.fst hdelete)
      rw [hdelete] at hnext
      exact .step hrun (ih hnext rfl (deleted + n))
    | error e' =>
      refine Fails.bind (fun e g hg => ?_) fun n g hg => ?_
      · cases hrun.symm.trans hg
        obtain ⟨named, bad, later, n, hids, hbad, rfl, hnamed⟩ := Session.delete_error hdelete
        have hlength : (k.session.mask t).length = (before.mask t).length :=
          ((h.without hfree).trans (Session.Without.none hmasks)).length
        have hstops := Stops.within h (pull_ok hpull) hids (hlength ▸ hbad) (congrArg Prod.fst hnamed)
        rw [hnamed] at hstops
        exact ⟨_, hstops⟩
      · cases hrun.symm.trans hg

/-- A deletion that has come to the end of its input. -/
def Ended (config : Config) (t : Provider) (p : Plan) (before : Session) (f : Frame) : Prop :=
  f.cell.progress = .delete true ∧ ∃ chunks s session, Deleting config t p before chunks s session ∧ f.session.masks = session.masks

theorem deleting_deleteChunks {rounds deleted total : Nat} (hfree : p.deletes = false)
    (h : Deleting config t p before chunks s f.session) (hbelow : f.below = s.cells)
    (hok : Operator.deleteChunks t (p.operator config) rounds deleted f = .ok total g) :
    ∃ chunks s session, Deleting config t p before chunks s session ∧ g.session.masks = session.masks := by
  induction rounds generalizing f chunks s deleted with
  | zero => cases hok
  | succ rounds ih =>
    obtain ⟨cell, below, k, hcells, hpull, hround⟩ := Operator.deleteChunks_succ_ok hok
    cases hbelow.symm.trans hcells
    rcases hround with ⟨he, rfl, rfl⟩ | ⟨he, n, hn, hrest⟩
    · exact ⟨chunks, s, f.session, h, ((leaves_pull config hfree (h.reserved_le hfree) f.cell.buffer).1 () k hpull).1⟩
    · rw [← Chunk.lastIds_singleton] at hn hrest
      exact ih (h.next (pull_ok hpull) he hn) rfl hrest

/-! ### The run -/

/-- Once the input has been read to its end the masks stay as they are. -/
def afterwards (config : Config) (t : Provider) (p : Plan) (before : Session) : Promise where
  holds := Ended config t p before
  left e f := ∃ ids, Stops config t p before e ids f.session.masks
  le e _ := fun ⟨_, _, _, _, h, hmasks⟩ => h.stops hmasks e

theorem preserves_rest : Preserves (do
      let chunk ← Pull.out
      if chunk.isEmpty then finish
      if config.verify then chunk.verify) (afterwards config t p before) := by
  have hverify (chunk : Chunk) : Preserves (if config.verify then liftM chunk.verify else pure ()) (afterwards config t p before) :=
    .ite (.liftQuery _) (.pure ())
  have hfinish : Preserves finish (afterwards config t p before) := .modify fun _ hf => hf
  exact Preserves.out.bind fun chunk => .ite (hfinish.bind fun _ => hverify chunk) (hverify chunk)

theorem leaves_delete (hfree : p.deletes = false) (out : Chunk) :
    Leaves ((Plan.delete t p).operator config).pull ⟨Cell.start (.delete false), (p.start config).cells, before, out⟩
      (Ended config t p before) fun e g => ∃ ids, Stops config t p before e ids g.session.masks := by
  refine Leaves.step rfl (Leaves.step rfl (Leaves.bind (Leaves.step rfl (Leaves.step rfl ?_)) fun _ g hg => preserves_rest g hg))
  let f : Frame := ⟨Cell.start (.delete false), (p.start config).cells, before, out.prepare [.bigInt] config.capacity⟩
  have hstart : Deleting config t p before [] (p.start config) f.session := .start
  have hchunks : Leaves (Operator.deleteChunks t (p.operator config) ((p.operator config).rowsLeft (p.start config) + 1) 0) f
      (fun g => ∃ chunks s session, Deleting config t p before chunks s session ∧ g.session.masks = session.masks)
      fun e g => ∃ ids, Stops config t p before e ids g.session.masks :=
    ⟨fun total g hok => deleting_deleteChunks hfree hstart rfl hok, fails_deleteChunks hfree hstart rfl _ _⟩
  refine hchunks.bind fun total g hg => Leaves.step rfl (Preserves.filling (fun _ _ hf => hf) _ ?_)
  exact ⟨rfl, hg⟩

/-- A deletion at its end gives nothing more, and deletes nothing. -/
theorem leaves_deleted (hf : Ended config t p before f) :
    Leaves ((Plan.delete t p).operator config).pull f (Ended config t p before)
      fun e g => ∃ ids, Stops config t p before e ids g.session.masks := by
  refine Leaves.step rfl (Leaves.step rfl ?_)
  have hnothing : Preserves (pure ()) (afterwards config t p before) := .pure ()
  split
  · exact hnothing _ hf
  · refine Leaves.bind (Leaves.step rfl ?_) fun _ g hg => preserves_rest g hg
    simp only [hf.1]
    exact hnothing _ hf

/-- From such a state and session a pull of the deletion leaves what it may. -/
def Ready (config : Config) (t : Provider) (p : Plan) (before : Session) (s : State) (session : Session) : Prop :=
  (∀ e, ∃ ids, Stops config t p before e ids session.masks) ∧
    ∀ out, Leaves ((Plan.delete t p).operator config).pull ⟨s.cell, s.below, session, out⟩ (Ended config t p before)
      fun e g => ∃ ids, Stops config t p before e ids g.session.masks

theorem Ended.ready (h : Ended config t p before f) : Ready config t p before ⟨f.cell, f.below⟩ f.session := by
  obtain ⟨hprogress, chunks, s, session, hdeleting, hmasks⟩ := h
  exact ⟨fun e => hdeleting.stops hmasks e, fun out => leaves_deleted ⟨hprogress, chunks, s, session, hdeleting, hmasks⟩⟩

theorem pullAll_stops (consume : Consumer σ) {rounds : Nat} {stats : Stats} {out : Chunk} {s : State} {consumer : σ}
    {session : Session} (h : Ready config t p before s session)
    (he : ((Plan.delete t p).pullAll config consume rounds stats out s consumer session).result = .error e) :
    ∃ ids, Stops config t p before e ids
      ((Plan.delete t p).pullAll config consume rounds stats out s consumer session).session.masks := by
  induction rounds generalizing stats out s consumer session with
  | zero => exact h.1 e
  | succ rounds ih =>
    obtain ⟨hok, hfails⟩ := h.2 out
    rw [pullAll] at he ⊢
    unfold pull at he ⊢
    cases hm : ((Plan.delete t p).operator config).pull ⟨s.cell, s.below, session, out⟩ with
    | error e' g =>
      simp only [hm] at he ⊢
      cases he
      exact hfails _ g hm
    | ok a g =>
      have hready := (hok a g hm).ready
      simp only [hm] at he ⊢
      by_cases hempty : g.out.isEmpty = true
      · rw [if_pos hempty] at he
        cases he
      · rw [if_neg hempty] at he ⊢
        cases hcount : addCounts stats.rows g.out.count with
        | error e' =>
          simp only [hcount] at he ⊢
          exact hready.1 e
        | ok rows =>
          simp only [hcount] at he ⊢
          generalize consume consumer g.out = consumed at he ⊢
          obtain ⟨_ | _, consumer'⟩ := consumed
          · exact hready.1 e
          · exact ih hready he

theorem run_stops (hfree : p.deletes = false) (consume : Consumer σ) (consumer : σ)
    (he : ((Plan.delete t p).run config consume consumer before).result = .error e) :
    ∃ ids, Stops config t p before e ids ((Plan.delete t p).run config consume consumer before).session.masks :=
  pullAll_stops consume ⟨fun e => Deleting.start.stops rfl e, fun out => leaves_delete hfree out⟩ he

/-- A deletion that fails leaves deleted what it has deleted. By ids, that is the rows before
the first id that is no row of the table. As a plan over an input that deletes nothing, it
is what the input has handed out while it was deleted, and of the last chunk the rows before
such an id. All other tables are as they were; and the table itself is just where no live
row was named up to there. -/
theorem delete_failed (t : Provider) :
    (∀ mask ids e mask', t.table.delete mask ids = (.error e, mask') →
      ∃ named bad later, ids = named ++ bad :: later ∧ (bad.toInt < 0 ∨ mask.length ≤ bad.toInt.toNat) ∧
        e = .storage (.rowId bad.toInt t.name) ∧ (∀ i, mask'.isLive i = (mask.isLive i && !namedBy named i)) ∧
        (mask' = mask ↔ ∀ i, mask.isLive i = true → namedBy named i = false)) ∧
    ∀ (config : Config) (p : Plan), p.deletes = false →
      ∀ (σ : Type) (consume : Consumer σ) (consumer : σ) (s : Session) (e : Failure),
        let ran := (Plan.delete t p).run config consume consumer s
        ran.result = .error e → ∃ named, Stops config t p s e named ran.session.masks ∧
          (∀ i, (ran.session.mask t).isLive i = ((s.mask t).isLive i && !namedBy named i)) ∧
          (∀ u : Provider, u.id ≠ t.id → ran.session.mask u = s.mask u) ∧
          (ran.session.mask t = s.mask t ↔ ∀ i, (s.mask t).isLive i = true → namedBy named i = false) := by
  constructor
  · intro mask ids e mask' h
    obtain ⟨named, bad, later, n, hids, hbad, he, hnamed⟩ := Table.delete_error h
    obtain ⟨-, -, hlive, -⟩ := Table.delete_ok hnamed
    have hlength : mask'.length = mask.length := by
      have hkept := Table.length_delete t.table named mask
      rwa [hnamed] at hkept
    exact ⟨named, bad, later, hids, hbad, he, hlive, Mask.eq_iff_of_named hlength hlive⟩
  · intro config p hfree σ consume consumer s e ran he
    obtain ⟨named, hstops⟩ := run_stops hfree consume consumer he
    obtain ⟨hlength, hgone, hothers⟩ := hstops.without hfree
    exact ⟨named, hstops, hgone, hothers, Mask.eq_iff_of_named hlength hgone⟩

/-- The first id is deleted before the second is found to be no row, and so is the row of
the first chunk before the second chunk is fetched. -/
theorem delete_failed_partly :
    let t : Provider := ⟨0, ⟨"t", [.ofInts [0, 5]], 2, by decide⟩, 0⟩
    let q : LogicalPlan := .node (.get t [.column 0]) [] [.bigInt]
    let c : Context := ⟨⟨1, none, true⟩, [t]⟩
    t.table.delete [false, false] [0, 5] = (.error (.storage (.rowId 5 "t")), [true, false]) ∧
      (c.execute (.node (.delete t) [q] [.bigInt]) c.session).1.toOption.isNone = true ∧
      c.session.mask t = [false, false] ∧
      (c.execute (.node (.delete t) [q] [.bigInt]) c.session).2.mask t = [true, false] := by
  intro t q c
  refine ⟨rfl, ?_, rfl, ?_⟩
  · decide +kernel
  · decide +kernel

/-- The ids of a table's one column, a row at a time: of the second chunk nothing was
deleted. -/
theorem delete_failed_within :
    let t : Provider := ⟨0, ⟨"t", [.ofInts [0, 5]], 2, by decide⟩, 0⟩
    let p : Plan := .scan t [.column 0] [.bigInt]
    let config : Config := ⟨1, none, true⟩
    let s := Session.ofLimit? none
    let count : Consumer Nat := fun n _ => (.ok (), n + 1)
    t.table.delete [false, false] [0, 5] = (.error (.storage (.rowId 5 "t")), [true, false]) ∧ p.deletes = false ∧
      (∃ named bad later, ([0, 5] : List Int64) = named ++ bad :: later ∧ (bad.toInt < 0 ∨ 2 ≤ bad.toInt.toNat)) ∧
      ∃ e named, ((Plan.delete t p).run config count 0 s).result = .error e ∧
        Stops config t p s e named ((Plan.delete t p).run config count 0 s).session.masks ∧
        namedBy named 0 = true ∧ namedBy named 1 = false := by
  intro t p config s count
  obtain ⟨hids, hplans⟩ := delete_failed t
  have hdelete : t.table.delete [false, false] [0, 5] = (.error (.storage (.rowId 5 "t")), [true, false]) := rfl
  obtain ⟨named, bad, later, hsplit, hbad, -⟩ := hids [false, false] [0, 5] _ _ hdelete
  have hfree : p.deletes = false := rfl
  have hfailed : ((Plan.delete t p).run config count 0 s).result.toOption.isNone = true := by decide +kernel
  have hmask : ((Plan.delete t p).run config count 0 s).session.mask t = [true, false] := by decide +kernel
  obtain ⟨e, he⟩ : ∃ e, ((Plan.delete t p).run config count 0 s).result = .error e := by
    generalize ((Plan.delete t p).run config count 0 s).result = result at hfailed
    cases result with
    | ok stats => cases hfailed
    | error e => exact ⟨e, rfl⟩
  obtain ⟨gone, hstops, hgone, -, -⟩ := hplans config p hfree Nat count 0 s e he
  have hfirst : false = !namedBy gone 0 := (congrArg (Mask.isLive · 0) hmask).symm.trans (hgone 0)
  have hsecond : true = !namedBy gone 1 := (congrArg (Mask.isLive · 1) hmask).symm.trans (hgone 1)
  refine ⟨hdelete, hfree, ⟨named, bad, later, hsplit, hbad⟩, e, gone, he, hstops, ?_, ?_⟩
  · rwa [eq_comm, Bool.not_eq_false'] at hfirst
  · rwa [eq_comm, Bool.not_eq_true'] at hsecond

end Plan
end QueryEngine
