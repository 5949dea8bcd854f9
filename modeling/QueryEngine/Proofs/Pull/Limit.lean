import QueryEngine.Plan.Run
import QueryEngine.Proofs.Result

/-! Steps with less room for bytes and with more.

A pool is asked for bytes in one place (`Pull.reserve`), and no other step sees how much
room it has. So a step that is run from two frames which differ only in the pool, the
second having no less room, either is refused bytes in the first or ends in the same way
from both, with frames that again differ only in the pool (`Elastic`). Sequences of elastic
steps are elastic, and so are the pulls of an operator whose inputs' pulls are: a plan is
elastic by induction on it. What it is to have no less room may be a larger limit, or fewer
bytes in use (`Pool.Ease`). -/
namespace QueryEngine

/-- A way to have no less room, which lasts whatever is reserved and given back. -/
structure Pool.Ease where
  rel : Pool → Pool → Prop
  /-- What is known of the requests that are refused for want of room. -/
  short : ReservationError → Prop
  grants {p q p' : Pool} {bytes : Nat} (h : rel p q) (hp : p.reserve bytes = .ok p') :
    ∃ q', q.reserve bytes = .ok q' ∧ rel p' q'
  refuses {p q : Pool} {bytes : Nat} {want : ReservationError} (h : rel p q)
    (hp : p.reserve bytes = .error (.resourceExhausted want)) : short want
  release {p q : Pool} (h : rel p q) (bytes : Nat) : rel (p.release bytes) (q.release bytes)

/-- `t` is `s` with no less room in the pool. -/
def Session.Roomier (R : Pool.Ease) (s t : Session) : Prop := ∃ pool, R.rel s.pool pool ∧ t = { s with pool := pool }

theorem Session.Roomier.close {R : Pool.Ease} {s t : Session} (h : s.Roomier R t) (state : State) :
    (s.close state).Roomier R (t.close state) := by
  obtain ⟨pool, hrel, rfl⟩ := h
  exact ⟨_, R.release hrel _, rfl⟩

/-- `g` is `f` with no less room in the pool. -/
def Frame.Roomier (R : Pool.Ease) (f g : Frame) : Prop :=
  ∃ pool, R.rel f.session.pool pool ∧ g = { f with session := { f.session with pool := pool } }

namespace Frame.Roomier
variable {R : Pool.Ease} {f g : Frame}

theorem cell (h : f.Roomier R g) : g.cell = f.cell := by
  obtain ⟨pool, -, rfl⟩ := h
  rfl

theorem below (h : f.Roomier R g) : g.below = f.below := by
  obtain ⟨pool, -, rfl⟩ := h
  rfl

theorem out (h : f.Roomier R g) : g.out = f.out := by
  obtain ⟨pool, -, rfl⟩ := h
  rfl

theorem giveBack (h : f.Roomier R g) (bytes : Nat) : (f.giveBack bytes).Roomier R (g.giveBack bytes) := by
  obtain ⟨pool, hrel, rfl⟩ := h
  exact ⟨_, R.release hrel bytes, rfl⟩

theorem enter (h : f.Roomier R g) (below : List Cell) : Roomier R { f with below := below } { g with below := below } := by
  obtain ⟨pool, hrel, rfl⟩ := h
  exact ⟨pool, hrel, rfl⟩

theorem replaceBelow (h : f.Roomier R g) (below : List Cell) : (f.replaceBelow below).Roomier R (g.replaceBelow below) := by
  obtain ⟨pool, hrel, rfl⟩ := h
  exact ⟨_, R.release hrel _, rfl⟩

theorem forgetSide (h : f.Roomier R g) : f.forgetSide.Roomier R g.forgetSide := by
  obtain ⟨pool, hrel, rfl⟩ := h
  obtain ⟨⟨buffer, finished, progress, reserved⟩, below, session, out⟩ := f
  cases progress <;> exact ⟨pool, hrel, rfl⟩

theorem session (h : f.Roomier R g) : f.session.Roomier R g.session := by
  obtain ⟨pool, hrel, rfl⟩ := h
  exact ⟨pool, hrel, rfl⟩

/-- The frames of the first inputs, if there are cells for them. -/
theorem input? (h : f.Roomier R g) (out : Chunk) :
    (f.input? out = none ∧ g.input? out = none) ∨
      ∃ i j, f.input? out = some i ∧ g.input? out = some j ∧ i.Roomier R j := by
  obtain ⟨pool, hrel, rfl⟩ := h
  obtain ⟨cell, below, session, filled⟩ := f
  cases below with
  | nil => exact .inl ⟨rfl, rfl⟩
  | cons first rest => exact .inr ⟨_, _, rfl, rfl, pool, hrel, rfl⟩

end Frame.Roomier

theorem Session.Roomier.frame {R : Pool.Ease} {s t : Session} (h : s.Roomier R t) (cell : Cell) (below : List Cell) (out : Chunk) :
    Frame.Roomier R ⟨cell, below, s, out⟩ ⟨cell, below, t, out⟩ := by
  obtain ⟨pool, hrel, rfl⟩ := h
  exact ⟨pool, hrel, rfl⟩

namespace Pull
variable {R : Pool.Ease} {α β : Type}

/-- Two ends of a step, the second with no less room: it ends as it did, if it was not
refused bytes. -/
inductive Keeps (R : Pool.Ease) : EStateM.Result Failure Frame α → EStateM.Result Failure Frame α → Prop
  | refused {want : ReservationError} {f : Frame} {r : EStateM.Result Failure Frame α} (h : R.short want) :
    Keeps R (.error (.error (.resourceExhausted want)) f) r
  | ok {a : α} {f g : Frame} (h : f.Roomier R g) : Keeps R (.ok a f) (.ok a g)
  | error {e : Failure} {f g : Frame} (h : f.Roomier R g) : Keeps R (.error e f) (.error e g)

/-- More room does not change how the step ends, unless it was refused bytes. -/
def Elastic (R : Pool.Ease) (m : Pull α) : Prop := ∀ f g, f.Roomier R g → Keeps R (m f) (m g)

namespace Elastic

theorem pure (a : α) : Elastic R (pure a) := fun _ _ h => .ok h

theorem throw (e : Failure) : Elastic R (throw e : Pull α) := fun _ _ h => .error h

theorem fail (e : QueryError) : Elastic R (Pull.fail e : Pull α) := throw _

theorem lift (x : Except Failure α) : Elastic R (liftM x) := by
  cases x with
  | ok a => exact pure a
  | error e => exact throw e

theorem liftQuery (x : Except QueryError α) : Elastic R (liftM x) := by
  cases x with
  | ok a => exact pure a
  | error e => exact throw (.error e)

theorem bind {m : Pull α} {k : α → Pull β} (hm : Elastic R m) (hk : ∀ a, Elastic R (k a)) : Elastic R (m >>= k) := by
  intro f g h
  rw [run_bind, run_bind]
  have hkeeps := hm f g h
  generalize m f = r, m g = r' at hkeeps ⊢
  cases hkeeps with
  | refused hshort => exact .refused hshort
  | ok h' => exact hk _ _ _ h'
  | error h' => exact .error h'

theorem ite {c : Prop} [Decidable c] {m k : Pull α} (hm : Elastic R m) (hk : Elastic R k) : Elastic R (if c then m else k) := by
  split
  · exact hm
  · exact hk

/-- Reading a part of the frame that is not the pool. -/
theorem reading {k : Frame → Pull β} (hsame : ∀ f g : Frame, f.Roomier R g → k g = k f) (hk : ∀ f, Elastic R (k f)) :
    Elastic R (get >>= k) := by
  intro f g h
  have hf : (get >>= k) f = k f f := rfl
  have hg : (get >>= k) g = k g g := rfl
  rw [hf, hg, hsame f g h]
  exact hk f f g h

/-- Changing a part of the frame that is not the pool. -/
theorem changing {change : Frame → Frame} (hsame : ∀ f g : Frame, f.Roomier R g → (change f).Roomier R (change g)) :
    Elastic R (modify change) := fun f g h => .ok (hsame f g h)

theorem progress : Elastic R progress :=
  reading (by rintro f _ ⟨pool, -, rfl⟩; rfl) fun f => pure f.cell.progress

theorem out : Elastic R out :=
  reading (by rintro f _ ⟨pool, -, rfl⟩; rfl) fun f => pure f.out

theorem setProgress (p : Progress) : Elastic R (setProgress p) :=
  changing (by rintro f _ ⟨pool, hrel, rfl⟩; exact ⟨pool, hrel, rfl⟩)

theorem setBuffer (c : Chunk) : Elastic R (setBuffer c) :=
  changing (by rintro f _ ⟨pool, hrel, rfl⟩; exact ⟨pool, hrel, rfl⟩)

theorem finish : Elastic R finish :=
  changing (by rintro f _ ⟨pool, hrel, rfl⟩; exact ⟨pool, hrel, rfl⟩)

theorem changeOut (change : Chunk → Chunk) : Elastic R (changeOut change) :=
  changing (by rintro f _ ⟨pool, hrel, rfl⟩; exact ⟨pool, hrel, rfl⟩)

theorem filling (step : Filling α) : Elastic R (filling step) := by
  rintro f _ ⟨pool, hrel, rfl⟩
  unfold Pull.filling
  cases step f.out with
  | ok a filled => exact .ok ⟨pool, hrel, rfl⟩
  | error e filled => exact .error ⟨pool, hrel, rfl⟩

theorem run_reserve (bytes : Nat) (f : Frame) : Pull.reserve bytes f = match f.session.pool.reserve bytes with
      | .ok pool => .ok () { f with
          cell := { f.cell with reserved := f.cell.reserved + bytes }
          session := { f.session with pool := pool } }
      | .error e => .error (.error e) f := by
  have hget : (get : Pull Frame) f = .ok f f := rfl
  rw [Pull.reserve, run_bind, hget]
  simp only []
  rw [run_bind, run_liftQuery]
  cases f.session.pool.reserve bytes <;> rfl

/-- The one step that sees how much room there is. -/
theorem reserve (bytes : Nat) : Elastic R (reserve bytes) := by
  rintro f _ ⟨pool, hrel, rfl⟩
  rw [run_reserve, run_reserve]
  cases hp : f.session.pool.reserve bytes with
  | ok p' =>
    obtain ⟨q', hq, hrel'⟩ := R.grants hrel hp
    simp only [hq]
    exact .ok ⟨q', hrel', rfl⟩
  | error e =>
    obtain ⟨want, rfl⟩ := Pool.reserve_error hp
    exact .refused (R.refuses hrel hp)

theorem buffering {step : Pull α} (h : Elastic R step) : Elastic R (buffering step) := by
  intro f g hframes
  unfold Pull.buffering
  have hkeeps := h f g hframes
  rw [hframes.cell]
  generalize step f = r, step g = r' at hkeeps ⊢
  cases hkeeps with
  | refused hshort => exact .refused hshort
  | ok h' => exact .ok (h'.giveBack _)
  | error h' =>
    simp only [h'.cell]
    exact .error (h'.giveBack _)

theorem onFresh (s : State) {step : Pull α} (h : Elastic R step) : Elastic R (onFresh s step) := by
  intro f g hframes
  unfold Pull.onFresh
  have hkeeps := h _ _ (hframes.enter s.cells)
  rw [hframes.below]
  generalize step { f with below := s.cells } = r, step { g with below := s.cells } = r' at hkeeps ⊢
  cases hkeeps with
  | refused hshort => exact .refused hshort
  | ok h' => exact .ok (h'.replaceBelow _)
  | error h' => exact .error (h'.replaceBelow _)

theorem inInput (name : String) (out : Chunk) {after : Frame → Frame → Frame} {step : Pull Unit}
    (hafter : ∀ f f' g g' : Frame, f.Roomier R f' → g.Roomier R g' → (after f g).Roomier R (after f' g')) (h : Elastic R step) :
    Elastic R (inInput name out after step) := by
  intro f f' hframes
  unfold Pull.inInput
  rcases hframes.input? out with ⟨hnone, hnone'⟩ | ⟨input, input', hinput, hinput', hinputs⟩
  · rw [hnone, hnone']
    exact .error hframes
  · rw [hinput, hinput']
    have hkeeps := h input input' hinputs
    simp only []
    generalize step input = r, step input' = r' at hkeeps ⊢
    cases hkeeps with
    | refused hshort => exact .refused hshort
    | @ok _ g g' h' =>
      have hends := Keeps.ok (a := g.out) (hafter f f' g g' hframes h')
      simp only [h'.out]
      exact hends
    | error h' => exact .error (hafter _ _ _ _ hframes h')

theorem lendingSide {step : Pull Unit} (h : Elastic R step) : Elastic R (Operator.lendingSide step) := by
  intro f g hframes
  unfold Operator.lendingSide
  have hkeeps := h f g hframes
  generalize step f = r, step g = r' at hkeeps ⊢
  cases hkeeps with
  | refused hshort => exact .refused hshort
  | ok h' => exact .ok h'
  | @error e f' g' h' =>
    cases e with
    | crash => exact .error h'.forgetSide
    | _ => exact .error h'

end Elastic
end Pull

namespace Operator
open Pull
variable {R : Pool.Ease} {α : Type} {config : Config} {input left right : Operator}

theorem elastic_rounds : Elastic R input.rounds :=
  .reading (fun f g h => by rw [h.below]) fun f => .pure _

theorem elastic_fetch (h : Elastic R input.pull) : Elastic R input.fetch := by
  refine .reading (fun f g hframes => by rw [hframes.cell]) fun f => .inInput _ _ ?_ h
  rintro f _ g _ ⟨pool, hrel, rfl⟩ ⟨pool', hrel', rfl⟩
  exact ⟨pool', hrel', rfl⟩

theorem elastic_answer {types : List SqlType} {work : Pull Unit} (h : Elastic R work) :
    Elastic R (answer config types work) := by
  refine (Elastic.changeOut _).bind fun _ => .reading (fun f g hframes => by rw [hframes.cell]) fun f =>
    .ite (.pure ()) (h.bind fun _ => Elastic.out.bind fun chunk => ?_)
  have hverify : Elastic R (if config.verify then chunk.verify else Pure.pure ()) := .ite (.liftQuery _) (.pure ())
  exact .ite (Elastic.finish.bind fun _ => hverify) hverify

theorem elastic_drainInto (h : Elastic R input.pull) (rounds : Nat) (collection : Collection) :
    Elastic R (input.drainInto rounds collection) := by
  induction rounds generalizing collection with
  | zero => exact .throw _
  | succ rounds ih =>
    refine (Elastic.inInput _ _ ?_ h).bind fun chunk => .ite (.pure _) ?_
    · rintro f _ g _ ⟨pool, hrel, rfl⟩ ⟨pool', hrel', rfl⟩
      exact ⟨pool', hrel', rfl⟩
    · exact (Elastic.lift _).bind fun appended => (Elastic.reserve _).bind fun _ => ih _

theorem elastic_drain (h : Elastic R input.pull) : Elastic R input.drain :=
  elastic_rounds.bind fun _ => elastic_drainInto h _ _

theorem elastic_handOut (keep : Option Output → Progress) (o : Output) : Elastic R (handOut keep o) :=
  .ite (.pure ()) (Elastic.out.bind fun _ => (Elastic.filling _).bind fun _ => .setProgress _)

/-! ### Operators -/

theorem elastic_source (types : List SqlType) (chunks : List Chunk) : Elastic R (source config types chunks).pull := by
  refine elastic_answer (.reading (fun f g h => by rw [h.cell]) fun f => ?_)
  cases hchunk : chunks[f.cell.buffer.count]? with
  | none =>
    simp only [hchunk]
    exact .pure ()
  | some chunk =>
    simp only [hchunk]
    exact (Elastic.setBuffer _).bind fun _ => .changeOut _

theorem elastic_empty (types : List SqlType) : Elastic R (empty config types).pull := elastic_answer (.pure ())

theorem elastic_scan (table : Provider) (refs : List ColumnRef) (types : List SqlType) :
    Elastic R (scan config table refs types).pull := by
  refine elastic_answer (Elastic.progress.bind fun p => ?_)
  cases p with
  | scan offset =>
    refine .reading (fun f g h => ?_) fun f => Elastic.out.bind fun chunk => (Elastic.setProgress _).bind fun _ =>
      (Elastic.liftQuery _).bind fun found => ?_
    · obtain ⟨pool, -, rfl⟩ := h
      rfl
    · cases found with
      | some w => exact .filling _
      | none => exact .pure ()
  | _ => exact .fail _

theorem elastic_filterChunks (h : Elastic R input.pull) (predicates : List Expr) (rounds : Nat) :
    Elastic R (filterChunks input predicates rounds) := by
  induction rounds with
  | zero => exact .throw _
  | succ rounds ih =>
    exact (elastic_fetch h).bind fun chunk => .ite (.pure ()) ((Elastic.filling _).bind fun _ =>
      Elastic.out.bind fun _ => .ite (.pure ()) ((Elastic.changeOut _).bind fun _ => ih))

theorem elastic_filter (h : Elastic R input.pull) (predicates : List Expr) :
    Elastic R (filter config predicates input).pull :=
  elastic_answer (elastic_rounds.bind fun _ => elastic_filterChunks h predicates _)

theorem elastic_project (h : Elastic R input.pull) (exprs : List Expr) (types : List SqlType) :
    Elastic R (project config exprs types input).pull :=
  elastic_answer ((elastic_fetch h).bind fun _ => .ite (.pure ()) (.filling _))

theorem elastic_prune (h : Elastic R input.pull) (limit : Nat) : Elastic R (prune config limit input).pull :=
  elastic_answer ((elastic_fetch h).bind fun _ => .ite (.pure ()) (.filling _))

theorem elastic_limitChunks (h : Elastic R input.pull) (stop : Option Nat) (offset rounds seen : Nat) :
    Elastic R (limitChunks input stop offset rounds seen) := by
  induction rounds generalizing seen with
  | zero => exact .throw _
  | succ rounds ih =>
    exact .ite (.pure ()) ((elastic_fetch h).bind fun chunk => .ite (.pure ()) ((Elastic.lift _).bind fun next =>
      (Elastic.setProgress _).bind fun _ => .ite (ih next) ((Elastic.lift _).bind fun _ => .changeOut _)))

theorem elastic_limit (h : Elastic R input.pull) (n : Option Nat) (offset : Nat) :
    Elastic R (limit config n offset input).pull := by
  refine elastic_answer (Elastic.progress.bind fun p => ?_)
  cases p with
  | limit seen => exact elastic_rounds.bind fun _ => elastic_limitChunks h _ _ _ _
  | _ => exact .fail _

theorem elastic_firstOutput (keep : Option Output → Progress) {compute : Pull Output} (h : Elastic R compute) :
    Elastic R (firstOutput keep compute) :=
  h.buffering.bind fun o => (Elastic.setProgress _).bind fun _ => .pure o

theorem elastic_drainOwn (name : String) (h : Elastic R input.pull) : Elastic R (drainOwn name input) :=
  .reading (fun f g hframes => by rw [hframes.below]) fun f =>
    .ite ((Elastic.fail _).bind fun _ => elastic_drain h) (elastic_drain h)

theorem elastic_order (h : Elastic R input.pull) (keys : List SortKey) : Elastic R (order config keys input).pull := by
  have hsorted : Elastic R (sortInput keys input) :=
    (elastic_drainOwn _ h).bind fun _ => (Elastic.lift _).bind fun _ => (Elastic.lift _).bind fun _ => .pure _
  refine elastic_answer (Elastic.progress.bind fun p => ?_)
  cases p with
  | order output =>
    cases output with
    | some o => exact elastic_handOut _ o
    | none => exact (elastic_firstOutput _ hsorted).bind fun o => elastic_handOut _ o
  | _ => exact .fail _

theorem elastic_windowColumns (chunk : Chunk) (calls : List WindowCall) : Elastic R (windowColumns chunk calls) := by
  induction calls with
  | nil => exact .pure _
  | cons call calls ih =>
    exact (Elastic.lift _).bind fun _ => (Elastic.reserve _).bind fun _ => ih.bind fun _ => .pure _

theorem elastic_window (h : Elastic R input.pull) (calls : List WindowCall) : Elastic R (window config calls input).pull := by
  have hcomputed : Elastic R (windowInput calls input) :=
    (elastic_drainOwn _ h).bind fun _ => (Elastic.lift _).bind fun _ => .ite (.pure _) ((Elastic.lift _).bind fun _ =>
      (Elastic.lift _).bind fun _ => (elastic_windowColumns _ _).bind fun _ => .pure _)
  refine elastic_answer (Elastic.progress.bind fun p => ?_)
  cases p with
  | window output =>
    cases output with
    | some o => exact elastic_handOut _ o
    | none => exact (elastic_firstOutput _ hcomputed).bind fun o => elastic_handOut _ o
  | _ => exact .fail _

theorem elastic_groupRow (calls : List AggregateCall) (keys : List Column) (arguments : List (Option Column))
    (groups : KeyMap Group) (row : Nat) : Elastic R (groupRow calls keys arguments groups row) := by
  refine (Elastic.liftQuery _).bind fun key => ?_
  have hput (group : Group) : Elastic R (do return groups.put key (← group.addRow arguments row)) :=
    (Elastic.liftQuery _).bind fun _ => .pure _
  cases groups.get? key with
  | some group => exact (Elastic.pure group).bind hput
  | none => exact (Elastic.reserve _).bind fun _ => (Elastic.pure _).bind hput

theorem elastic_groupRows (calls : List AggregateCall) (keys : List Column) (arguments : List (Option Column))
    (groups : KeyMap Group) (rows : List Nat) : Elastic R (groupRows calls keys arguments groups rows) := by
  induction rows generalizing groups with
  | nil => exact .pure groups
  | cons row rows ih => exact (elastic_groupRow _ _ _ _ _).bind ih

theorem elastic_groupChunks (h : Elastic R input.pull) (keys : List Expr) (calls : List AggregateCall) (rounds : Nat)
    (groups : KeyMap Group) : Elastic R (groupChunks keys calls input rounds groups) := by
  induction rounds generalizing groups with
  | zero => exact .throw _
  | succ rounds ih =>
    refine (elastic_fetch h).bind fun chunk => .ite (.pure _) (Elastic.bind ?_ ih)
    unfold groupChunk
    simp only [mapM_lift]
    exact (Elastic.lift _).bind fun _ => (Elastic.lift _).bind fun _ => elastic_groupRows _ _ _ _ _

theorem elastic_aggregate (h : Elastic R input.pull) (keys : List Expr) (keyTypes : List SqlType)
    (calls : List AggregateCall) : Elastic R (aggregate config keys keyTypes calls input).pull := by
  have hgrouped : Elastic R (groupInput keys keyTypes calls input) :=
    elastic_rounds.bind fun _ => (elastic_groupChunks h _ _ _ _).bind fun _ => (Elastic.liftQuery _).bind fun _ => .pure _
  refine elastic_answer (Elastic.progress.bind fun p => ?_)
  cases p with
  | aggregate output =>
    cases output with
    | some o => exact elastic_handOut _ o
    | none => exact (elastic_firstOutput _ hgrouped).bind fun o => elastic_handOut _ o
  | _ => exact .fail _

theorem elastic_drainRight {finish : Collection → Pull α} (h : Elastic R right.pull)
    (hfinish : ∀ buffered, Elastic R (finish buffered)) : Elastic R (drainRight right finish) :=
  ((elastic_drain h).bind hfinish).onFresh _ |>.buffering

theorem elastic_crossLeft (h : Elastic R left.pull) (side : Output) : Elastic R (crossLeft left side) := by
  refine .ite (.reading (fun f g hframes => by rw [hframes.cell]) fun f => .pure _) ?_
  exact (elastic_fetch h).bind fun _ => .pure _

theorem elastic_crossPair (hleft : Elastic R left.pull) (side : Output) :
    Elastic R (do
      if side.rows = 0 then return
      let some (chunk, side) ← crossLeft left side | return
      Pull.setProgress (.cross (some { side with position := side.position + 1 }))
      Pull.filling (pairRow (left.types ++ right.types) side chunk)) := by
  refine .ite (.pure ()) ((elastic_crossLeft hleft side).bind fun found => ?_)
  cases found with
  | none => exact .pure ()
  | some pair => exact (Elastic.setProgress _).bind fun _ => .filling _

theorem elastic_cross (hleft : Elastic R left.pull) (hright : Elastic R right.pull) :
    Elastic R (cross config left right).pull := by
  have hright : Elastic R (crossRight right) := by
    refine (elastic_drainRight hright fun buffered => ?_).bind fun _ => (Elastic.setProgress _).bind fun _ => .pure _
    exact (Elastic.lift _).bind fun _ => .pure _
  refine elastic_answer (Elastic.progress.bind fun p => ?_)
  cases p with
  | cross side =>
    cases side with
    | some side => exact (Elastic.pure side).bind (elastic_crossPair hleft)
    | none => exact hright.bind (elastic_crossPair hleft)
  | _ => exact (Elastic.fail _).bind (elastic_crossPair hleft)

theorem elastic_handOutPairs (side : JoinSide) (p : JoinProgress) : Elastic R (handOutPairs side p) :=
  Elastic.out.bind fun _ => (Elastic.lift _).bind fun _ => (Elastic.setProgress _).bind fun _ =>
    .reading (fun f g hframes => by rw [hframes.cell]) fun _ => .filling _

theorem elastic_probe (h : Elastic R left.pull) (kind : JoinKind) (keys : List Expr) (right : Operator)
    (side : JoinSide) (rounds : Nat) (p : JoinProgress) : Elastic R (probe kind keys left right side rounds p) := by
  induction rounds generalizing p with
  | zero => exact .throw _
  | succ rounds ih =>
    refine .ite (elastic_handOutPairs _ _) ((Elastic.setProgress _).bind fun _ =>
      .ite (.pure ()) ((elastic_fetch h).bind fun chunk => .ite (.pure ()) (.ite (.filling _)
        ((Elastic.lift _).bind fun keyColumns => (Elastic.setProgress _).bind fun _ =>
          (Elastic.liftQuery _).bind fun flags => ?_))))
    cases kind with
    | inner | left => exact ih _
    | semi | anti =>
      refine (Elastic.filling _).bind fun _ => Elastic.out.bind fun _ => .ite (.pure ()) ?_
      exact (Elastic.changeOut _).bind fun _ => ih _
    | mark => exact .filling _

theorem elastic_join (hleft : Elastic R left.pull) (hright : Elastic R right.pull) (kind : JoinKind)
    (on : List (Expr × Expr)) : Elastic R (join config kind on left right).pull := by
  have hside (p : JoinProgress) : Elastic R (joinRight (on.map Prod.snd) right p) := by
    refine (elastic_drainRight hright fun buffered => ?_).bind fun _ => (Elastic.setProgress _).bind fun _ => .pure _
    exact (Elastic.lift _).bind fun _ => (Elastic.lift _).bind fun _ => (Elastic.reserve _).bind fun _ => .pure _
  refine elastic_answer (Elastic.progress.bind fun p => ?_)
  cases p with
  | join p =>
    have hprobe (side : JoinSide) : Elastic R (do
        let rounds := (← left.rounds) + 1
        lendingSide (probe kind (on.map Prod.fst) left right side rounds { p with side := some side })) :=
      elastic_rounds.bind fun _ => (elastic_probe hleft _ _ _ _ _ _).lendingSide
    cases hp : p.side with
    | some side =>
      simp only [hp]
      exact (Elastic.pure side).bind hprobe
    | none =>
      simp only [hp]
      exact (hside p).bind hprobe
  | _ => exact .fail _

theorem elastic_deleteIds (table : Provider) (ids : List Int64) : Elastic R (deleteIds table ids) := by
  rintro f _ ⟨pool, hrel, rfl⟩
  exact Elastic.liftQuery (f.session.delete table ids).1 _ _ ⟨pool, hrel, rfl⟩

theorem elastic_deleteChunks (h : Elastic R input.pull) (table : Provider) (rounds deleted : Nat) :
    Elastic R (deleteChunks table input rounds deleted) := by
  induction rounds generalizing deleted with
  | zero => exact .throw _
  | succ rounds ih =>
    exact (elastic_fetch h).bind fun _ => .ite (.pure _) ((Elastic.lift _).bind fun _ =>
      (elastic_deleteIds _ _).bind fun _ => ih _)

theorem elastic_delete (h : Elastic R input.pull) (table : Provider) : Elastic R (delete config table input).pull := by
  refine elastic_answer (Elastic.progress.bind fun p => ?_)
  cases p with
  | delete done =>
    cases done with
    | true => exact .pure ()
    | false =>
      exact elastic_rounds.bind fun _ => (elastic_deleteChunks h _ _ _).bind fun _ => (Elastic.setProgress _).bind fun _ =>
        .filling _
  | _ => exact .fail _

end Operator

namespace Plan
variable {R : Pool.Ease}

/-- Every plan asks for bytes in such a way. -/
theorem elastic (R : Pool.Ease) (config : Config) (p : Plan) : Pull.Elastic R (p.operator config).pull := by
  induction p with
  | source types chunks => exact Operator.elastic_source types chunks
  | scan table columns types => exact Operator.elastic_scan table columns types
  | filter predicates input ih => exact Operator.elastic_filter ih predicates
  | project exprs types input ih => exact Operator.elastic_project ih exprs types
  | prune k input ih => exact Operator.elastic_prune ih k
  | order keys input ih => exact Operator.elastic_order ih keys
  | limit n offset input ih => exact Operator.elastic_limit ih n offset
  | aggregate keys keyTypes calls input ih => exact Operator.elastic_aggregate ih keys keyTypes calls
  | window calls input ih => exact Operator.elastic_window ih calls
  | cross l r hl hr => exact Operator.elastic_cross hl hr
  | join kind on l r hl hr => exact Operator.elastic_join hl hr kind on
  | delete table input ih => exact Operator.elastic_delete ih table
  | empty types => exact Operator.elastic_empty types

/-- Two pulls, the second with no less room: it ends as the first, if that was not
refused bytes. -/
inductive Pulled.Keeps (R : Pool.Ease) : Pulled → Pulled → Prop
  | refused {want : ReservationError} {chunk : Chunk} {state : State} {session : Session} {pulled : Pulled} (h : R.short want) :
    Keeps R ⟨.error (.error (.resourceExhausted want)), chunk, state, session⟩ pulled
  | same {result : Except Failure Unit} {chunk : Chunk} {state : State} {s t : Session} (h : s.Roomier R t) :
    Keeps R ⟨result, chunk, state, s⟩ ⟨result, chunk, state, t⟩

theorem pull_keeps (config : Config) (p : Plan) (out : Chunk) (s : State) {session session' : Session}
    (h : session.Roomier R session') : Pulled.Keeps R (p.pull config out s session) (p.pull config out s session') := by
  have hkeeps := p.elastic R config _ _ (h.frame s.cell s.below out)
  unfold pull
  generalize (p.operator config).pull ⟨s.cell, s.below, session, out⟩ = r,
    (p.operator config).pull ⟨s.cell, s.below, session', out⟩ = r' at hkeeps ⊢
  cases hkeeps with
  | refused hshort => exact .refused hshort
  | ok h' =>
    simp only [h'.cell, h'.below, h'.out]
    exact .same h'.session
  | error h' =>
    simp only [h'.cell, h'.below, h'.out]
    exact .same h'.session

end Plan
end QueryEngine
