import QueryEngine.Plan.Run
import QueryEngine.Proofs.Quiet

/-! Operators whose expressions have no calls.

A step is quiet if whatever it fails with, it is not that the evaluator came upon a
call. Steps put together of quiet ones are quiet, and so are the pulls of an operator
whose inputs' pulls are and whose own expressions have no calls in them. Nothing is
asked of the state, of the session or of the chunks of the inputs. -/
namespace QueryEngine
variable {α β σ : Type}

/-- From no state the step fails with an error about a call. -/
def Quiet (m : EStateM Failure σ α) : Prop := ∀ s e t, m s = .error e t → e.Quiet

namespace Quiet
variable {m : EStateM Failure σ α}

theorem of_ok (h : ∀ s, ∃ a t, m s = .ok a t) : Quiet m := by
  intro s e t he
  obtain ⟨a, t', ht⟩ := h s
  cases ht.symm.trans he

theorem pure {a : α} : Quiet (pure a : EStateM Failure σ α) := of_ok fun s => ⟨a, s, rfl⟩

theorem throw {e : Failure} (h : e.Quiet) : Quiet (throw e : EStateM Failure σ α) := by
  intro s e' t he
  cases he
  exact h

theorem bind {k : α → EStateM Failure σ β} (h : Quiet m) (hk : ∀ a, Quiet (k a)) : Quiet (m >>= k) := by
  intro s e t he
  rw [run_bind] at he
  cases hm : m s with
  | ok a s' =>
    rw [hm] at he
    exact hk a s' e t he
  | error e' s' =>
    rw [hm] at he
    cases he
    exact h s e t hm

theorem ite {c : Prop} [Decidable c] {k : EStateM Failure σ α} (ht : Quiet m) (he : Quiet k) : Quiet (if c then m else k) := by
  split
  · exact ht
  · exact he

theorem lift {x : Except Failure α} (h : Yields Failure.Quiet x fun _ => True) : Quiet (liftM x : EStateM Failure σ α) := by
  intro s e t he
  rw [run_lift] at he
  cases x with
  | ok a => cases he
  | error e' =>
    cases he
    exact h

theorem liftQuery {x : Except QueryError α} (h : Yields QueryError.Quiet x fun _ => True) :
    Quiet (liftM x : EStateM Failure σ α) := by
  intro s e t he
  rw [run_liftQuery] at he
  cases x with
  | ok a => cases he
  | error e' =>
    cases he
    exact h

/-- A step that depends on what a result has. -/
theorem lift_bind {x : Except Failure α} {Q : α → Prop} {k : α → EStateM Failure σ β} (h : Yields Failure.Quiet x Q)
    (hk : ∀ a, Q a → Quiet (k a)) : Quiet (liftM x >>= k) := by
  intro s e t he
  rw [run_bind, run_lift] at he
  cases x with
  | ok a => exact hk a h s e t he
  | error e' =>
    cases he
    exact h

theorem reading {k : σ → EStateM Failure σ β} (h : ∀ s, Quiet (k s)) : Quiet (get >>= k) :=
  bind (of_ok fun s => ⟨s, s, rfl⟩) h

theorem changing {change : σ → σ} : Quiet (modify change : EStateM Failure σ Unit) := of_ok fun s => ⟨(), change s, rfl⟩

end Quiet

/-! ### Filling a chunk -/

namespace Filling

theorem quiet_put (i : Nat) (c : Column) : Quiet (put i c) := by
  refine .reading fun chunk => .bind (.liftQuery ?_) fun d => .of_ok fun s => ⟨(), d, rfl⟩
  unfold Chunk.setColumn Chunk.setArray
  split
  · trivial
  · trivial
  · exact .ite (fun _ => trivial) fun _ => trivial

theorem quiet_putComputed (i : Nat) {rs : List (Except Failure Column)} (h : ∀ r ∈ rs, Yields Failure.Quiet r fun _ => True) :
    Quiet (putComputed i rs) := by
  induction rs generalizing i with
  | nil => exact .pure
  | cons r rs ih =>
    obtain ⟨hr, hrs⟩ := List.forall_mem_cons.mp h
    exact (Quiet.lift hr).bind fun c => (quiet_put i c).bind fun _ => ih _ hrs

theorem quiet_putAll (i : Nat) (cs : List Column) : Quiet (putAll i cs) := by
  induction cs generalizing i with
  | nil => exact .pure
  | cons c cs ih => exact (quiet_put i c).bind fun _ => ih _

/-- Columns made of others one by one. -/
theorem quiet_putEach {γ : Type} (i : Nat) {f : γ → Except Failure Column} {xs : List γ}
    (h : ∀ x ∈ xs, Yields Failure.Quiet (f x) fun _ => True) : Quiet (putComputed i (xs.map f)) :=
  quiet_putComputed i (List.forall_mem_map.mpr h)

end Filling

namespace JoinResult

theorem checkFlags_quiet (child : Chunk) (found : List Bool) :
    Yields QueryError.Quiet (checkFlags child found) fun _ => True :=
  .ite (fun _ => trivial) fun _ => trivial

theorem quiet_semiOrAnti (child : Chunk) (found : List Bool) (anti : Bool) : Quiet (semiOrAnti child found anti) :=
  (Quiet.liftQuery (checkFlags_quiet child found)).bind fun _ => (Filling.quiet_putAll _ _).bind fun _ => .changing

theorem quiet_padded (child : Chunk) (types : List SqlType) : Quiet (padded child types) :=
  (Filling.quiet_putAll _ _).bind fun _ => (Filling.quiet_putAll _ _).bind fun _ => .changing

theorem quiet_marked (keys : List HostArray) (child : Chunk) (found : List Bool) (hasNull : Bool) :
    Quiet (marked keys child found hasNull) := by
  have hput : Quiet (do
      Filling.putAll 0 child.columns
      if !child.activeWithin child.physicalRows then throw .crash
      let ms := marks keys hasNull child.physicalRows (child.activeRows.zip found)
      Filling.put child.columns.length (Column.ofBooleans ms)
      modify fun result => result.setCountFrom child : Filling Unit) := by
    have hmarks : Quiet (do
        let ms := marks keys hasNull child.physicalRows (child.activeRows.zip found)
        Filling.put child.columns.length (Column.ofBooleans ms)
        modify fun result => result.setCountFrom child : Filling Unit) := (Filling.quiet_put _ _).bind fun _ => .changing
    exact (Filling.quiet_putAll _ _).bind fun _ => .ite ((Quiet.throw (e := .crash) trivial).bind fun _ => hmarks) hmarks
  refine (Quiet.liftQuery (checkFlags_quiet child found)).bind fun _ => ?_
  dsimp only
  split
  · refine (Quiet.throw ?_).bind fun _ => hput
    trivial
  · exact hput

end JoinResult

/-! ### Steps of a pull -/

namespace Quiet
variable {m : Pull α}

/-- A state of some other operator is refused. -/
theorem otherState (name : String) : Quiet (Pull.fail (.internal (.otherState name)) : Pull α) := throw trivial

theorem progress : Quiet Pull.progress := of_ok fun f => ⟨f.cell.progress, f, rfl⟩

theorem setProgress (p : Progress) : Quiet (Pull.setProgress p) := changing

theorem out : Quiet Pull.out := of_ok fun f => ⟨f.out, f, rfl⟩

theorem changeOut (change : Chunk → Chunk) : Quiet (Pull.changeOut change) := changing

theorem reserve (bytes : Nat) : Quiet (Pull.reserve bytes) := by
  refine .reading fun f => .bind (.liftQuery ?_) fun pool => .of_ok fun s => ⟨(), _, rfl⟩
  unfold Pool.reserve
  exact .ite (fun _ => trivial) fun _ => trivial

theorem filling {step : Filling α} (h : Quiet step) : Quiet (Pull.filling step) := by
  intro f e g he
  unfold Pull.filling at he
  split at he
  · cases he
  · rename_i hstep
    cases he
    exact h _ _ _ hstep

theorem buffering (h : Quiet m) : Quiet (Pull.buffering m) := by
  intro f e g he
  unfold Pull.buffering at he
  split at he
  · cases he
  · rename_i hstep
    cases he
    exact h _ _ _ hstep

theorem onFresh (s : State) (h : Quiet m) : Quiet (Pull.onFresh s m) := by
  intro f e g he
  unfold Pull.onFresh at he
  split at he
  · cases he
  · rename_i hstep
    cases he
    exact h _ _ _ hstep

theorem inInput (name : String) (out : Chunk) (after : Frame → Frame → Frame) {m : Pull Unit} (h : Quiet m) :
    Quiet (Pull.inInput name out after m) := by
  intro f e g he
  unfold Pull.inInput at he
  split at he
  · cases he
    trivial
  · split at he
    · cases he
    · rename_i hstep
      cases he
      exact h _ _ _ hstep

theorem lendingSide {m : Pull Unit} (h : Quiet m) : Quiet (Operator.lendingSide m) := by
  intro f e g he
  unfold Operator.lendingSide at he
  split at he
  · cases he
    trivial
  · exact h f e g he

end Quiet

/-! ### Operators -/

namespace Operator
open Pull
variable {config : Config} {input left right : Operator}

theorem quiet_rounds : Quiet input.rounds := .reading fun _ => .pure

theorem quiet_fetch (h : Quiet input.pull) : Quiet input.fetch := .reading fun _ => .inInput _ _ _ h

theorem quiet_answer {types : List SqlType} {work : Pull Unit} (h : Quiet work) : Quiet (answer config types work) := by
  refine (Quiet.changeOut _).bind fun _ => .reading fun f => .ite .pure (h.bind fun _ => Quiet.out.bind fun chunk => ?_)
  have hverify : Quiet (if config.verify then chunk.verify else Pure.pure () : Pull Unit) :=
    .ite (.liftQuery chunk.verify_quiet) .pure
  exact .ite (Quiet.changing.bind fun _ => hverify) hverify

theorem quiet_drainInto (h : Quiet input.pull) (rounds : Nat) (collection : Collection) :
    Quiet (input.drainInto rounds collection) := by
  induction rounds generalizing collection with
  | zero => exact .throw trivial
  | succ rounds ih =>
    exact (Quiet.inInput _ _ _ h).bind fun chunk => .ite .pure ((Quiet.lift (collection.append_quiet chunk)).bind
      fun appended => (Quiet.reserve _).bind fun _ => ih _)

theorem quiet_drain (h : Quiet input.pull) : Quiet input.drain := quiet_rounds.bind fun _ => quiet_drainInto h _ _

theorem quiet_handOut (keep : Option Output → Progress) (o : Output) : Quiet (handOut keep o) := by
  refine .ite .pure (Quiet.out.bind fun chunk => (Quiet.filling ?_).bind fun _ => .setProgress _)
  exact (Filling.quiet_putEach 0 fun c _ => c.slice_quiet _ _).bind fun _ => .changing

theorem quiet_empty (types : List SqlType) : Quiet (empty config types).pull := quiet_answer .pure

theorem readColumns_quiet (table : Provider) (w : ScannedWindow) (refs : List ColumnRef) (columns : List Column) :
    ∀ r ∈ readColumns table w refs columns, Yields Failure.Quiet r fun _ => True := by
  fun_induction readColumns table w refs columns with
  | case1 => exact fun _ h => absurd h List.not_mem_nil
  | case2 refs columns ih => exact List.forall_mem_cons.mpr ⟨trivial, ih⟩
  | case3 i refs c cs ih => exact List.forall_mem_cons.mpr ⟨trivial, ih⟩
  | case4 => exact List.forall_mem_singleton.mpr trivial

theorem quiet_scan (table : Provider) (refs : List ColumnRef) (types : List SqlType) :
    Quiet (scan config table refs types).pull := by
  refine quiet_answer (Quiet.progress.bind fun p => ?_)
  cases p with
  | scan offset =>
    refine .reading fun f => Quiet.out.bind fun chunk => (Quiet.setProgress _).bind fun _ =>
      (Quiet.liftQuery (nextWindow_quiet _ _ _ _ _ _)).bind fun found => ?_
    cases found with
    | none => exact .pure
    | some w =>
      refine .filling ((Filling.quiet_putComputed 0 (readColumns_quiet table w refs _)).bind fun _ => ?_)
      split <;> exact .changing
  | _ => exact .otherState _

theorem quiet_keepTrue {predicates : List Expr} (hplain : ∀ e ∈ predicates, e.isPlain = true) :
    Quiet (keepTrue predicates) := by
  induction predicates with
  | nil => exact .pure
  | cons p ps ih =>
    obtain ⟨hp, hps⟩ := List.forall_mem_cons.mp hplain
    exact .reading fun chunk => (Quiet.lift (Expr.selectRows_quiet hp)).bind fun rows => Quiet.changing.bind fun _ =>
      .reading fun _ => .ite .pure (ih hps)

theorem quiet_filterChunks (h : Quiet input.pull) {predicates : List Expr} (hplain : ∀ e ∈ predicates, e.isPlain = true)
    (rounds : Nat) : Quiet (filterChunks input predicates rounds) := by
  induction rounds with
  | zero => exact .throw trivial
  | succ rounds ih =>
    exact (quiet_fetch h).bind fun chunk => .ite .pure ((Quiet.filling (Quiet.changing.bind fun _ =>
      quiet_keepTrue hplain)).bind fun _ => Quiet.out.bind fun _ => .ite .pure ((Quiet.changeOut _).bind fun _ => ih))

theorem quiet_filter (h : Quiet input.pull) {predicates : List Expr} (hplain : ∀ e ∈ predicates, e.isPlain = true) :
    Quiet (filter config predicates input).pull :=
  quiet_answer (quiet_rounds.bind fun _ => quiet_filterChunks h hplain _)

theorem quiet_project (h : Quiet input.pull) {exprs : List Expr} (hplain : ∀ e ∈ exprs, e.isPlain = true)
    (types : List SqlType) : Quiet (project config exprs types input).pull := by
  refine quiet_answer ((quiet_fetch h).bind fun chunk => .ite .pure (.filling ?_))
  exact (Filling.quiet_putEach 0 fun e he => Expr.evaluate_quiet chunk (hplain e he)).bind fun _ => .changing

theorem quiet_prune (h : Quiet input.pull) (limit : Nat) : Quiet (prune config limit input).pull := by
  refine quiet_answer ((quiet_fetch h).bind fun chunk => .ite .pure (.filling ?_))
  have hput : Quiet (do
      Filling.putAll 0 (chunk.columns.take limit)
      modify fun c => c.setCountFrom chunk : Filling Unit) := (Filling.quiet_putAll _ _).bind fun _ => .changing
  refine .ite ((Quiet.throw ?_).bind fun _ => hput) hput
  trivial

theorem quiet_limitChunks (h : Quiet input.pull) (stop : Option Nat) (offset rounds seen : Nat) :
    Quiet (limitChunks input stop offset rounds seen) := by
  induction rounds generalizing seen with
  | zero => exact .throw trivial
  | succ rounds ih =>
    refine .ite .pure ((quiet_fetch h).bind fun chunk => .ite .pure ((Quiet.lift (addCounts_quiet _ _)).bind fun next =>
      (Quiet.setProgress _).bind fun _ => .ite (ih next) (.bind (.lift ?_) fun _ => .changeOut _)))
    unfold limitChunk
    exact .ite (fun _ => trivial) fun _ => chunk.slice_quiet _ _

theorem quiet_limit (h : Quiet input.pull) (n : Option Nat) (offset : Nat) : Quiet (limit config n offset input).pull := by
  refine quiet_answer (Quiet.progress.bind fun p => ?_)
  cases p with
  | limit seen => exact quiet_rounds.bind fun _ => quiet_limitChunks h _ _ _ _
  | _ => exact .otherState _

theorem quiet_firstOutput (keep : Option Output → Progress) {compute : Pull Output} (h : Quiet compute) :
    Quiet (firstOutput keep compute) :=
  h.buffering.bind fun _ => (Quiet.setProgress _).bind fun _ => .pure

theorem quiet_drainOwn (name : String) (h : Quiet input.pull) : Quiet (drainOwn name input) :=
  .reading fun _ => .ite ((Quiet.otherState _).bind fun _ => quiet_drain h) (quiet_drain h)

theorem quiet_order (h : Quiet input.pull) {keys : List SortKey} (hplain : ∀ k ∈ keys, k.expr.isPlain = true) :
    Quiet (order config keys input).pull := by
  have hsorted : Quiet (sortInput keys input) :=
    (quiet_drainOwn _ h).bind fun c => (Quiet.lift c.materialize_quiet).bind fun _ =>
      (Quiet.lift (Rows.sortColumns_quiet hplain)).bind fun _ => .pure
  refine quiet_answer (Quiet.progress.bind fun p => ?_)
  cases p with
  | order output =>
    cases output with
    | some o => exact quiet_handOut _ o
    | none => exact (quiet_firstOutput _ hsorted).bind fun o => quiet_handOut _ o
  | _ => exact .otherState _

/-- Calls in their places evaluate what they did before. -/
theorem placedCalls_quiet {calls : List WindowCall} (hflat : ∀ w ∈ calls, w.Flat) (columns : Nat) :
    Yields Failure.Quiet (placedCalls calls input columns) fun placed => ∀ w ∈ placed, w.Flat := by
  refine .ite (fun _ => trivial) fun _ w hw => ?_
  obtain ⟨⟨call, type⟩, hcall, rfl⟩ := List.mem_map.mp hw
  have hcall := hflat call (List.of_mem_zip hcall).1
  exact ⟨hcall.args, hcall.partitions, hcall.orders⟩

theorem quiet_windowColumns (chunk : Chunk) {calls : List WindowCall} (hflat : ∀ w ∈ calls, w.Flat) :
    Quiet (windowColumns chunk calls) := by
  induction calls with
  | nil => exact .pure
  | cons call calls ih =>
    obtain ⟨hcall, hcalls⟩ := List.forall_mem_cons.mp hflat
    exact (Quiet.lift (WindowCall.evaluate_quiet hcall)).bind fun _ => (Quiet.reserve _).bind fun _ => (ih hcalls).bind fun _ =>
      .pure

theorem quiet_window (h : Quiet input.pull) {calls : List WindowCall} (hflat : ∀ w ∈ calls, w.Flat) :
    Quiet (window config calls input).pull := by
  have hcomputed : Quiet (windowInput calls input) :=
    (quiet_drainOwn _ h).bind fun c => (Quiet.lift c.materialize_quiet).bind fun columns => .ite .pure
      ((Quiet.liftQuery (Chunk.ofColumns_quiet columns)).bind fun _ => .lift_bind (placedCalls_quiet hflat _) fun _ hplaced =>
        (quiet_windowColumns _ hplaced).bind fun _ => .pure)
  refine quiet_answer (Quiet.progress.bind fun p => ?_)
  cases p with
  | window output =>
    cases output with
    | some o => exact quiet_handOut _ o
    | none => exact (quiet_firstOutput _ hcomputed).bind fun o => quiet_handOut _ o
  | _ => exact .otherState _

theorem quiet_groupRow (calls : List AggregateCall) (keys : List Column) (arguments : List (Option Column))
    (groups : KeyMap Group) (row : Nat) : Quiet (groupRow calls keys arguments groups row) := by
  refine (Quiet.liftQuery (Key.ofRow_quiet keys row)).bind fun key => ?_
  have hput (group : Group) : Quiet (do return groups.put key (← group.addRow arguments row) : Pull (KeyMap Group)) :=
    (Quiet.liftQuery (group.addRow_quiet arguments row)).bind fun _ => .pure
  cases groups.get? key with
  | some group => exact Quiet.pure.bind hput
  | none => exact (Quiet.reserve _).bind fun _ => Quiet.pure.bind hput

theorem quiet_groupRows (calls : List AggregateCall) (keys : List Column) (arguments : List (Option Column))
    (groups : KeyMap Group) (rows : List Nat) : Quiet (groupRows calls keys arguments groups rows) := by
  induction rows generalizing groups with
  | nil => exact .pure
  | cons row rows ih => exact (quiet_groupRow _ _ _ _ _).bind ih

/-- What an aggregation evaluates of its calls. -/
def CallsPlain (calls : List AggregateCall) : Prop := ∀ c ∈ calls, ∀ e ∈ c.argument, e.isPlain = true

theorem quiet_groupChunks (h : Quiet input.pull) {keys : List Expr} {calls : List AggregateCall}
    (hkeys : ∀ e ∈ keys, e.isPlain = true) (hcalls : CallsPlain calls) (rounds : Nat) (groups : KeyMap Group) :
    Quiet (groupChunks keys calls input rounds groups) := by
  induction rounds generalizing groups with
  | zero => exact .throw trivial
  | succ rounds ih =>
    refine (quiet_fetch h).bind fun chunk => .ite .pure (.bind ?_ ih)
    unfold groupChunk
    simp only [mapM_lift]
    refine (Quiet.lift (Expr.evaluateAll_quiet hkeys)).bind fun _ => .bind (.lift (.mapM_true fun c hc => ?_)) fun _ =>
      quiet_groupRows _ _ _ _ _
    cases hargument : c.argument with
    | none => trivial
    | some e => exact Yields.map ((Expr.evaluate_quiet chunk (hcalls c hc e hargument)).mono fun _ _ => trivial)

theorem quiet_aggregate (h : Quiet input.pull) {keys : List Expr} {calls : List AggregateCall}
    (hkeys : ∀ e ∈ keys, e.isPlain = true) (hcalls : CallsPlain calls) (keyTypes : List SqlType) :
    Quiet (aggregate config keys keyTypes calls input).pull := by
  have hgrouped : Quiet (groupInput keys keyTypes calls input) :=
    quiet_rounds.bind fun _ => (quiet_groupChunks h hkeys hcalls _ _).bind fun _ =>
      (Quiet.liftQuery (groupColumns_quiet keyTypes calls _)).bind fun _ => .pure
  refine quiet_answer (Quiet.progress.bind fun p => ?_)
  cases p with
  | aggregate output =>
    cases output with
    | some o => exact quiet_handOut _ o
    | none => exact (quiet_firstOutput _ hgrouped).bind fun o => quiet_handOut _ o
  | _ => exact .otherState _

theorem quiet_drainRight {finish : Collection → Pull α} (h : Quiet right.pull) (hfinish : ∀ buffered, Quiet (finish buffered)) :
    Quiet (drainRight right finish) :=
  ((quiet_drain h).bind hfinish).onFresh _ |>.buffering

theorem quiet_crossLeft (h : Quiet left.pull) (side : Output) : Quiet (crossLeft left side) :=
  .ite (.reading fun _ => .pure) ((quiet_fetch h).bind fun _ => .pure)

theorem quiet_pairRow (types : List SqlType) (side : Output) (chunk : Chunk) : Quiet (pairRow types side chunk) := by
  refine (Filling.quiet_putAll _ _).bind fun _ => (Filling.quiet_putEach _ fun c _ => ?_).bind fun _ => .changing
  exact (Yields.lift (c.1.get_quiet _)).bind fun _ _ => trivial

theorem quiet_crossPair (h : Quiet left.pull) (side : Output) :
    Quiet (do
      if side.rows = 0 then return
      let some (chunk, side) ← crossLeft left side | return
      Pull.setProgress (.cross (some { side with position := side.position + 1 }))
      Pull.filling (pairRow (left.types ++ right.types) side chunk)) := by
  refine .ite .pure ((quiet_crossLeft h side).bind fun found => ?_)
  cases found with
  | none => exact .pure
  | some pair => exact (Quiet.setProgress _).bind fun _ => .filling (quiet_pairRow _ _ _)

theorem quiet_cross (hleft : Quiet left.pull) (hright : Quiet right.pull) : Quiet (cross config left right).pull := by
  have hright : Quiet (crossRight right) :=
    (quiet_drainRight hright fun c => (Quiet.lift c.materialize_quiet).bind fun _ => .pure).bind fun _ =>
      (Quiet.setProgress _).bind fun _ => .pure
  refine quiet_answer (Quiet.progress.bind fun p => ?_)
  cases p with
  | cross side =>
    cases side with
    | some side => exact Quiet.pure.bind (quiet_crossPair hleft)
    | none => exact hright.bind (quiet_crossPair hleft)
  | _ => exact (Quiet.otherState _).bind (quiet_crossPair hleft)

theorem quiet_handOutPairs (side : JoinSide) (p : JoinProgress) : Quiet (handOutPairs side p) := by
  refine Quiet.out.bind fun chunk => (Quiet.lift (addCounts_quiet _ _)).bind fun _ => (Quiet.setProgress _).bind fun _ =>
    .reading fun _ => .filling ((Filling.quiet_putComputed 0 fun r hr => ?_).bind fun _ => .changing)
  rcases List.mem_append.mp hr with hr | hr
  · obtain ⟨c, -, rfl⟩ := List.mem_map.mp hr
    exact c.gather_quiet _
  · obtain ⟨c, -, rfl⟩ := List.mem_map.mp hr
    exact c.gatherPadded_quiet _

theorem quiet_joinWithNothing (kind : JoinKind) (types : List SqlType) (chunk : Chunk) :
    Quiet (joinWithNothing kind types chunk) := by
  unfold joinWithNothing
  split
  · exact JoinResult.quiet_padded chunk types
  · exact .changing
  · exact JoinResult.quiet_marked _ _ _ _

theorem quiet_probe (h : Quiet left.pull) (kind : JoinKind) {keys : List Expr} (hkeys : ∀ e ∈ keys, e.isPlain = true)
    (right : Operator) (side : JoinSide) (rounds : Nat) (p : JoinProgress) :
    Quiet (probe kind keys left right side rounds p) := by
  induction rounds generalizing p with
  | zero => exact .throw trivial
  | succ rounds ih =>
    refine .ite (quiet_handOutPairs _ _) ((Quiet.setProgress _).bind fun _ => .ite .pure ((quiet_fetch h).bind fun chunk =>
      .ite .pure (.ite (.filling (quiet_joinWithNothing _ _ _)) ((Quiet.lift (Expr.evaluateAll_quiet hkeys)).bind
        fun keyColumns => (Quiet.setProgress _).bind fun _ =>
          (Quiet.liftQuery (probeRows_quiet kind side keyColumns _)).bind fun flags => ?_))))
    cases kind with
    | inner | left => exact ih _
    | semi | anti =>
      refine (Quiet.filling (JoinResult.quiet_semiOrAnti _ _ _)).bind fun _ => Quiet.out.bind fun _ => .ite .pure ?_
      exact (Quiet.changeOut _).bind fun _ => ih _
    | mark => exact .filling (JoinResult.quiet_marked _ _ _ _)

theorem quiet_join (hleft : Quiet left.pull) (hright : Quiet right.pull) (kind : JoinKind) {on : List (Expr × Expr)}
    (hon : ∀ pair ∈ on, pair.1.isPlain = true ∧ pair.2.isPlain = true) : Quiet (join config kind on left right).pull := by
  have hleftKeys : ∀ e ∈ on.map Prod.fst, e.isPlain = true := List.forall_mem_map.mpr fun pair hpair => (hon pair hpair).1
  have hrightKeys : ∀ e ∈ on.map Prod.snd, e.isPlain = true := List.forall_mem_map.mpr fun pair hpair => (hon pair hpair).2
  have hside (p : JoinProgress) : Quiet (joinRight (on.map Prod.snd) right p) := by
    refine (quiet_drainRight hright fun c => ?_).bind fun _ => (Quiet.setProgress _).bind fun _ => .pure
    exact (Quiet.lift c.materialize_quiet).bind fun _ => (Quiet.lift (JoinSide.ofColumns_quiet hrightKeys)).bind fun _ =>
      (Quiet.reserve _).bind fun _ => .pure
  refine quiet_answer (Quiet.progress.bind fun p => ?_)
  cases p with
  | join p =>
    have hprobe (side : JoinSide) : Quiet (do
        let rounds := (← left.rounds) + 1
        lendingSide (probe kind (on.map Prod.fst) left right side rounds { p with side := some side })) :=
      quiet_rounds.bind fun _ => (quiet_probe hleft kind hleftKeys _ _ _ _).lendingSide
    cases hp : p.side with
    | some side =>
      simp only [hp]
      exact Quiet.pure.bind hprobe
    | none =>
      simp only [hp]
      exact (hside p).bind hprobe
  | _ => exact .otherState _

theorem quiet_deleteIds (table : Provider) (ids : List Int64) : Quiet (deleteIds table ids) := by
  refine .reading fun f => .bind (.of_ok fun s => ⟨(), _, rfl⟩) fun _ => .liftQuery ?_
  exact (Table.delete_quiet _ _ ids)

theorem quiet_deleteChunks (h : Quiet input.pull) (table : Provider) (rounds deleted : Nat) :
    Quiet (deleteChunks table input rounds deleted) := by
  induction rounds generalizing deleted with
  | zero => exact .throw trivial
  | succ rounds ih =>
    exact (quiet_fetch h).bind fun chunk => .ite .pure ((Quiet.lift (idsOf_quiet chunk)).bind fun _ =>
      (quiet_deleteIds _ _).bind fun _ => ih _)

theorem quiet_delete (h : Quiet input.pull) (table : Provider) : Quiet (delete config table input).pull := by
  refine quiet_answer (Quiet.progress.bind fun p => ?_)
  cases p with
  | delete done =>
    cases done with
    | true => exact .pure
    | false =>
      exact quiet_rounds.bind fun _ => (quiet_deleteChunks h _ _ _).bind fun _ => (Quiet.setProgress _).bind fun _ =>
        .filling ((Filling.quiet_put _ _).bind fun _ => .changing)
  | _ => exact .otherState _

end Operator
end QueryEngine
