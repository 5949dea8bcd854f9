import QueryEngine.Plan.Run
import QueryEngine.Proofs.Pull.Gives
import QueryEngine.Proofs.Pull.Preserves

/-! Pulls and the books.

Before a pull the pool counts what the cells hold and what is in use elsewhere; so it does
after the pull, however that ends. A cell keeps the bytes that it holds for what it has
buffered, and takes bytes only for what is buffered in the pull: where reading an input
into the cell fails, the cell holds what it held before. Only a crash may lose what a cell
has buffered, and then nothing is said of the cells. -/
namespace QueryEngine

/-- Whether rows are buffered in the cell. -/
def Progress.buffers : Progress → Bool
  | .order output | .cross output | .aggregate output | .window output => output.isSome
  | .join p => p.side.isSome
  | .none | .scan _ | .limit _ | .delete _ => false

/-- What may become of a cell. -/
structure Cell.Kept (c c' : Cell) : Prop where
  buffered : c.progress.buffers = true → c'.progress.buffers = true ∧ c'.reserved = c.reserved
  unbuffered : c'.progress.buffers = false → c'.reserved = c.reserved

namespace Cell.Kept
variable {c c' c'' : Cell}

theorem refl (c : Cell) : c.Kept c := ⟨fun h => ⟨h, rfl⟩, fun _ => rfl⟩

/-- No more is looked at than whether the cell buffers rows, and its bytes. -/
theorem congr (h : c.Kept c') (hbuffers : c''.progress.buffers = c'.progress.buffers) (hreserved : c''.reserved = c'.reserved) :
    c.Kept c'' :=
  ⟨fun hc => hbuffers ▸ hreserved ▸ h.buffered hc, fun hc => hreserved.trans (h.unbuffered (hbuffers ▸ hc))⟩

/-- A cell without rows may buffer some, for any bytes. -/
theorem newly (h : c.Kept c') (hnone : c'.progress.buffers = false) (hsome : c''.progress.buffers = true) : c.Kept c'' := by
  refine ⟨fun hc => ?_, fun hc => ?_⟩
  · cases hnone.symm.trans (h.buffered hc).1
  · cases hsome.symm.trans hc

end Cell.Kept

/-- The pool counts `held` bytes besides those that are in use elsewhere. -/
structure Session.Accounted (M : List (Nat × Mask) → Prop) (limit base held : Nat) (s : Session) : Prop where
  limit_eq : s.pool.limit = limit
  used_eq : s.pool.used = base + held
  masks : M s.masks

theorem Session.Accounted.release {M : List (Nat × Mask) → Prop} {limit base held bytes rest : Nat} {s : Session}
    (h : s.Accounted M limit base held) (hrest : held = rest + bytes) : (s.release bytes).Accounted M limit base rest := by
  refine ⟨h.limit_eq, ?_, h.masks⟩
  have hused := h.used_eq
  show s.pool.used - bytes = base + rest
  omega

/-- What is held in one place is in use elsewhere for another. -/
theorem Session.Accounted.shift {M : List (Nat × Mask) → Prop} {limit base held base' held' : Nat} {s : Session}
    (h : s.Accounted M limit base held) (heq : base + held = base' + held') : s.Accounted M limit base' held' :=
  ⟨h.limit_eq, h.used_eq.trans heq, h.masks⟩

namespace Pull
variable {α : Type} {M : List (Nat × Mask) → Prop} {limit base n : Nat} {below : List Cell} {own : Bool → Nat → Prop} {f g : Frame}

/-- The books while an operator works. `own` tells whether its cell buffers rows, and how
many bytes it holds. -/
def during (M : List (Nat × Mask) → Prop) (limit base : Nat) (below : List Cell) (own : Bool → Nat → Prop) : Promise where
  holds f := f.session.Accounted M limit base (State.reservedBy f.cells) ∧ own f.cell.progress.buffers f.cell.reserved ∧
    List.Forall₂ Cell.Kept below f.below
  left e f := f.session.Accounted M limit base (State.reservedBy f.cells) ∧ own f.cell.progress.buffers f.cell.reserved ∧
    (e ≠ .crash → List.Forall₂ Cell.Kept below f.below)
  le _ _ := fun ⟨hbooks, hown, hbelow⟩ => ⟨hbooks, hown, fun _ => hbelow⟩

/-- The books around a pull. -/
def around (M : List (Nat × Mask) → Prop) (limit base : Nat) (cells : List Cell) : Promise where
  holds f := f.session.Accounted M limit base (State.reservedBy f.cells) ∧ List.Forall₂ Cell.Kept cells f.cells
  left e f := f.session.Accounted M limit base (State.reservedBy f.cells) ∧
    (e ≠ .crash → List.Forall₂ Cell.Kept cells f.cells)
  le _ _ := fun ⟨hbooks, hcells⟩ => ⟨hbooks, fun _ => hcells⟩

/-- The cell is as it is told. -/
def Standing (buffers : Bool) (n : Nat) : Bool → Nat → Prop := fun b r => b = buffers ∧ r = n

/-- What is reserved adds to what nothing is buffered for yet. -/
def Gathering (n : Nat) : Bool → Nat → Prop := fun b r => b = false ∧ n ≤ r

theorem preserves_setProgress {p : Progress} (h : ∀ b r, own b r → own p.buffers r) :
    Preserves (setProgress p) (during M limit base below own) :=
  .modify fun _ ⟨hbooks, hown, hbelow⟩ => ⟨hbooks, h _ _ hown, hbelow⟩

theorem preserves_setStanding {b : Bool} {p : Progress} (h : p.buffers = b) :
    Preserves (setProgress p) (during M limit base below (Standing b n)) :=
  preserves_setProgress fun _ _ hown => ⟨h, hown.2⟩

theorem preserves_setBuffer (c : Chunk) : Preserves (setBuffer c) (during M limit base below own) := .modify fun _ hf => hf

theorem preserves_changeOut (change : Chunk → Chunk) : Preserves (changeOut change) (during M limit base below own) :=
  .modify fun _ hf => hf

theorem preserves_filling (step : Filling α) : Preserves (filling step) (during M limit base below own) :=
  .filling fun _ _ hf => hf

theorem preserves_reserve (bytes : Nat) : Preserves (reserve bytes) (during M limit base below (Gathering n)) := by
  intro f hf
  refine ⟨fun a g hm => ?_, .reserve bytes fun e _ => Promise.le _ e f hf⟩
  obtain ⟨hbooks, ⟨hnone, hle⟩, hbelow⟩ := hf
  unfold Pull.reserve at hm
  obtain ⟨_, k, hget, hm⟩ := run_bind_eq_ok.mp hm
  cases hget
  obtain ⟨pool, k, hpool, hm⟩ := run_bind_eq_ok.mp hm
  obtain ⟨hpool, rfl⟩ := run_liftQuery_eq_ok.mp hpool
  cases hm
  refine ⟨⟨?_, ?_, hbooks.masks⟩, ⟨hnone, Nat.le_add_right_of_le hle⟩, hbelow⟩
  · exact (Pool.reserve_limit hpool).trans hbooks.limit_eq
  · have hused := hbooks.used_eq
    refine (Pool.reserve_used hpool).trans ?_
    rw [hused]
    show base + (k.cell.reserved + State.reservedBy k.below) + bytes =
      base + (k.cell.reserved + bytes + State.reservedBy k.below)
    omega

theorem accounted_giveBack {bytes : Nat} (h : g.session.Accounted M limit base (State.reservedBy g.cells))
    (hle : bytes ≤ g.cell.reserved) :
    (g.giveBack bytes).session.Accounted M limit base (State.reservedBy (g.giveBack bytes).cells) := by
  refine h.release ?_
  show g.cell.reserved + State.reservedBy g.below = g.cell.reserved - bytes + State.reservedBy g.below + bytes
  omega

/-- Where the step fails that makes what is to be buffered, the cell holds what it held. -/
theorem leaves_buffering {compute : Pull α} (h : Preserves compute (during M limit base below (Gathering n)))
    (hf : (during M limit base below (Standing false n)).holds f) :
    Leaves (buffering compute) f (during M limit base below fun b _ => b = false).holds
      (during M limit base below (Standing false n)).left := by
  obtain ⟨hbooks, ⟨hnone, rfl⟩, hbelow⟩ := hf
  obtain ⟨hok, hfails⟩ := h f ⟨hbooks, ⟨hnone, Nat.le_refl _⟩, hbelow⟩
  refine ⟨fun a g hm => ?_, Fails.buffering (hfails.mono fun e g hg => ?_)⟩
  · unfold Pull.buffering at hm
    split at hm
    · rename_i hstep
      cases hm
      obtain ⟨hbooks, ⟨hnone, hle⟩, hbelow⟩ := hok _ _ hstep
      exact ⟨accounted_giveBack hbooks hle, hnone, hbelow⟩
    · cases hm
  · obtain ⟨hbooks, ⟨hnone, hle⟩, hbelow⟩ := hg
    exact ⟨accounted_giveBack hbooks (Nat.sub_le _ _), ⟨hnone, Nat.sub_sub_self hle⟩, hbelow⟩

/-- The bytes of a state of its own go back with the state. -/
theorem preserves_onFresh {s : State} (hs : State.reservedBy s.cells = 0) {m : Pull α}
    (h : ∀ base below, Preserves m (during M limit base below own)) :
    Preserves (onFresh s m) (during M limit base below own) := by
  intro f ⟨hbooks, hown, hbelow⟩
  have hinner : (during M limit (base + State.reservedBy f.below) s.cells own).holds { f with below := s.cells } := by
    refine ⟨hbooks.shift ?_, hown, List.forall₂_same.mpr fun c _ => .refl c⟩
    show base + (f.cell.reserved + State.reservedBy f.below) =
      base + State.reservedBy f.below + (f.cell.reserved + State.reservedBy s.cells)
    omega
  have hclosed (g : Frame)
      (hg : g.session.Accounted M limit (base + State.reservedBy f.below) (State.reservedBy g.cells)) :
      (g.replaceBelow f.below).session.Accounted M limit base (State.reservedBy (g.replaceBelow f.below).cells) := by
    refine (hg.shift ?_).release rfl
    show base + State.reservedBy f.below + (g.cell.reserved + State.reservedBy g.below) =
      base + (g.cell.reserved + State.reservedBy f.below + State.reservedBy g.below)
    omega
  obtain ⟨hok, hfails⟩ := h _ _ _ hinner
  refine ⟨fun a g hm => ?_, Fails.onFresh (hfails.mono fun e g hg => ?_)⟩
  · unfold Pull.onFresh at hm
    split at hm
    · rename_i hstep
      cases hm
      obtain ⟨hbooks, hown, -⟩ := hok _ _ hstep
      exact ⟨hclosed _ hbooks, hown, hbelow⟩
    · cases hm
  · exact ⟨hclosed _ hg.1, hg.2.1, fun _ => hbelow⟩

end Pull

namespace Operator
open Pull
variable {M : List (Nat × Mask) → Prop} {limit base n : Nat} {below : List Cell} {own : Bool → Nat → Prop} {f g : Frame}
  {config : Config} {op input left right : Operator} {work : Pull Unit}

/-- The operator's pulls keep the books, and what is told of the masks. -/
structure Accounts (M : List (Nat × Mask) → Prop) (op : Operator) : Prop where
  start : State.reservedBy op.start.cells = 0
  pull (limit base : Nat) (cells : List Cell) : Preserves op.pull (around M limit base cells)

/-- The input's bytes are in use elsewhere for the operator, and the operator's for the
input. -/
theorem during_read (h : input.Accounts M) {name : String} {out : Chunk} {after : Frame → Frame → Frame}
    (hafter : ∀ f g, (after f g).cell.progress = f.cell.progress ∧ (after f g).cell.reserved = f.cell.reserved ∧
      (after f g).session = g.session ∧ (after f g).below = g.cells) :
    Preserves (inInput name out after input.pull) (during M limit base below own) := by
  refine .inInput fun f cell rest ⟨hbooks, hown, hbelow⟩ hf => ?_
  have hinner : (around M limit (base + f.cell.reserved) below).holds ⟨cell, rest, f.session, out⟩ := by
    have hcells : List.Forall₂ Cell.Kept below (cell :: rest) := hf ▸ hbelow
    refine ⟨hbooks.shift ?_, hcells⟩
    show base + (f.cell.reserved + State.reservedBy f.below) = base + f.cell.reserved + State.reservedBy (cell :: rest)
    rw [hf, Nat.add_assoc]
  have houter (g : Frame) (hg : g.session.Accounted M limit (base + f.cell.reserved) (State.reservedBy g.cells)) :
      (after f g).session.Accounted M limit base (State.reservedBy (after f g).cells) ∧
        own (after f g).cell.progress.buffers (after f g).cell.reserved := by
    obtain ⟨hprogress, hreserved, hsession, hcells⟩ := hafter f g
    rw [hprogress, hreserved, hsession]
    refine ⟨hg.shift ?_, hown⟩
    show _ = base + ((after f g).cell.reserved + State.reservedBy (after f g).below)
    rw [hreserved, hcells, Nat.add_assoc]
  obtain ⟨hok, hfails⟩ := h.pull limit (base + f.cell.reserved) below _ hinner
  refine ⟨fun _ g hg => ?_, hfails.mono fun e g hg => ?_⟩
  · obtain ⟨hbooks, hcells⟩ := hok _ g hg
    exact ⟨(houter g hbooks).1, (houter g hbooks).2, (hafter f g).2.2.2 ▸ hcells⟩
  · exact ⟨(houter g hg.1).1, (houter g hg.1).2, fun he => (hafter f g).2.2.2 ▸ hg.2 he⟩

theorem during_readInto (h : input.Accounts M) :
    Preserves (inInput input.name Chunk.fresh Frame.afterInput input.pull) (during M limit base below own) :=
  during_read h fun _ _ => ⟨rfl, rfl, rfl, rfl⟩

theorem during_fetch (h : input.Accounts M) : Preserves input.fetch (during M limit base below own) :=
  Preserves.get.bind fun _ => during_read h fun _ _ => ⟨rfl, rfl, rfl, rfl⟩

/-! ### What a pull is made of -/

/-- From a cell that buffers rows, or does not, the step leaves what a pull may leave. -/
def Settles (M : List (Nat × Mask) → Prop) (m : Pull Unit) (b : Bool) : Prop :=
  ∀ (limit base : Nat) (below : List Cell) (n : Nat) (c : Cell) (f : Frame), c.Kept f.cell →
    (during M limit base below (Standing b n)).holds f →
      Leaves m f (around M limit base (c :: below)).holds (around M limit base (c :: below)).left

theorem Settles.of_preserves {m : Pull Unit} {b : Bool}
    (h : ∀ limit base below n, Preserves m (during M limit base below (Standing b n))) : Settles M m b := by
  intro limit base below n c f hc hf
  have hstands := hf.2.1
  have hkept (g : Frame) (hg : Standing b n g.cell.progress.buffers g.cell.reserved) : c.Kept g.cell :=
    hc.congr (hg.1.trans hstands.1.symm) (hg.2.trans hstands.2.symm)
  refine (h limit base below n f hf).mono (fun g ⟨hbooks, hown, hbelow⟩ => ?_) fun e g ⟨hbooks, hown, hbelow⟩ => ?_
  · exact ⟨hbooks, .cons (hkept g hown) hbelow⟩
  · exact ⟨hbooks, fun he => .cons (hkept g hown) (hbelow he)⟩

/-- What is computed is buffered from then on, with the bytes that were reserved for it. -/
theorem Settles.newly {α : Type} {compute : Pull α} {keep : α → Progress} {k : α → Pull Unit}
    (hcompute : ∀ limit base below n, Preserves compute (during M limit base below (Gathering n)))
    (hkeep : ∀ a, (keep a).buffers = true) (hk : ∀ a, Settles M (k a) true) :
    Settles M ((do let a ← buffering compute; setProgress (keep a); return a) >>= k) false := by
  intro limit base below n c f hc hf
  have hkept (g : Frame) (hg : Standing false n g.cell.progress.buffers g.cell.reserved) : c.Kept g.cell :=
    hc.congr (hg.1.trans hf.2.1.1.symm) (hg.2.trans hf.2.1.2.symm)
  have hfirst := (leaves_buffering (hcompute limit base below n) hf).mono (fun _ hg => hg)
    fun e g (hg : (during M limit base below (Standing false n)).left e g) =>
      (⟨hg.1, fun he => .cons (hkept g hg.2.1) (hg.2.2 he)⟩ : (around M limit base (c :: below)).left e g)
  rw [bind_assoc]
  refine hfirst.bind fun a g ⟨hbooks, hnone, hbelow⟩ => ?_
  exact Leaves.step rfl (hk a limit base below g.cell.reserved c _ (hc.newly hf.2.1.1 (hkeep a)) ⟨hbooks, ⟨hkeep a, rfl⟩, hbelow⟩)

theorem accounted_forgetSide {g : Frame} (h : g.session.Accounted M limit base (State.reservedBy g.cells)) :
    g.forgetSide.session.Accounted M limit base (State.reservedBy g.forgetSide.cells) := by
  obtain ⟨⟨buffer, finished, progress, reserved⟩, below, session, out⟩ := g
  cases progress <;> exact h

/-- Only a crash loses the right side. -/
theorem Settles.lendingSide {m : Pull Unit} {b : Bool} (h : Settles M m b) : Settles M (lendingSide m) b := by
  intro limit base below n c f hc hf
  obtain ⟨hok, hfails⟩ := h limit base below n c f hc hf
  unfold Leaves Fails Operator.lendingSide
  cases hm : m f with
  | ok a g =>
    refine ⟨fun _ _ hg => ?_, fun _ _ hg => ?_⟩
    · cases hg
      exact hok _ _ hm
    · cases hg
  | error e g =>
    have hleft := hfails _ _ hm
    cases e with
    | crash =>
      refine ⟨fun _ _ hg => ?_, fun _ _ hg => ?_⟩
      · cases hg
      · cases hg
        exact ⟨accounted_forgetSide hleft.1, fun he => absurd rfl he⟩
    | _ =>
      refine ⟨fun _ _ hg => ?_, fun _ _ hg => ?_⟩
      · cases hg
      · cases hg
        exact hleft

/-- Around the work the chunk is made ready and looked at. -/
theorem preserves_answer {types : List SqlType} {next : Progress → Pull Unit}
    (hnext : ∀ p, Settles M (next p) p.buffers) (cells : List Cell) :
    Preserves (answer config types (do next (← progress))) (around M limit base cells) := by
  intro f ⟨hbooks, hcells⟩
  obtain ⟨c, below, hc, hbelow, rfl⟩ := List.forall₂_cons_right_iff.mp hcells
  refine Leaves.step rfl (Leaves.step rfl ?_)
  have hfinish : Preserves finish (around M limit base (c :: below)) := .modify fun g ⟨hbooks, hcells⟩ => by
    obtain ⟨hc, hbelow⟩ := List.forall₂_cons.mp hcells
    exact ⟨hbooks, .cons (hc.congr rfl rfl) hbelow⟩
  have hverify (chunk : Chunk) :
      Preserves (if config.verify then liftM chunk.verify else pure ()) (around M limit base (c :: below)) :=
    .ite (.liftQuery _) (.pure ())
  have hrest : Preserves (do
      let chunk ← out
      if chunk.isEmpty then finish
      if config.verify then chunk.verify) (around M limit base (c :: below)) :=
    Preserves.out.bind fun chunk => .ite (hfinish.bind fun _ => hverify chunk) (hverify chunk)
  have hkept : c.Kept f.cell := hc
  split
  · exact Preserves.pure () _ ⟨hbooks, hcells⟩
  · refine Leaves.bind (Leaves.step rfl ?_) fun _ g hg => hrest g hg
    exact hnext f.cell.progress limit base below f.cell.reserved c _ hkept ⟨hbooks, ⟨rfl, rfl⟩, hbelow⟩

theorem Accounts.of_answer {types : List SqlType} (next : Progress → Pull Unit) (hstart : State.reservedBy op.start.cells = 0)
    (hpull : op.pull = answer config types (do next (← progress))) (hnext : ∀ p, Settles M (next p) p.buffers) :
    op.Accounts M :=
  ⟨hstart, fun _ _ cells => hpull ▸ preserves_answer hnext cells⟩

/-- An operator whose work does not look at its progress. -/
theorem Accounts.of_work {types : List SqlType} (hstart : State.reservedBy op.start.cells = 0)
    (hpull : op.pull = answer config types work)
    (hwork : ∀ limit base below b n, Preserves work (during M limit base below (Standing b n))) : op.Accounts M :=
  .of_answer (fun _ => work) hstart hpull fun p => .of_preserves fun limit base below n => hwork limit base below p.buffers n

/-! ### Operators -/

theorem reserved_above (p : Progress) (s : State) : State.reservedBy (State.above p s).cells = State.reservedBy s.cells :=
  Nat.zero_add _

theorem Accounts.above (h : input.Accounts M) (p : Progress) : State.reservedBy (State.above p input.start).cells = 0 :=
  (reserved_above p _).trans h.start

theorem accounts_source (types : List SqlType) (chunks : List Chunk) : (source config types chunks).Accounts M := by
  refine .of_work rfl rfl fun limit base below b n => Preserves.get.bind fun f => ?_
  cases hchunk : chunks[f.cell.buffer.count]? with
  | none =>
    simp only [hchunk]
    exact .pure ()
  | some chunk =>
    simp only [hchunk]
    exact (preserves_setBuffer _).bind fun _ => preserves_changeOut _

theorem accounts_empty (types : List SqlType) : (empty config types).Accounts M :=
  .of_work rfl rfl fun _ _ _ _ _ => .pure ()

theorem accounts_scan (table : Provider) (refs : List ColumnRef) (types : List SqlType) :
    (scan config table refs types).Accounts M := by
  refine .of_answer _ rfl rfl fun p => .of_preserves fun limit base below n => ?_
  cases p with
  | scan offset =>
    refine Preserves.get.bind fun f => Preserves.out.bind fun chunk => (preserves_setStanding rfl).bind fun _ =>
      (Preserves.liftQuery _).bind fun found => ?_
    cases found with
    | some w => exact preserves_filling _
    | none => exact .pure ()
  | _ => exact .fail _

theorem during_rounds : Preserves input.rounds (during M limit base below own) := Preserves.get.bind fun _ => .pure _

theorem accounts_filter (h : input.Accounts M) (predicates : List Expr) : (filter config predicates input).Accounts M := by
  have hchunks (limit base : Nat) (below : List Cell) (b : Bool) (n rounds : Nat) :
      Preserves (filterChunks input predicates rounds) (during M limit base below (Standing b n)) := by
    induction rounds with
    | zero => exact .throw _
    | succ rounds ih =>
      exact (during_fetch h).bind fun chunk => .ite (.pure ()) ((preserves_filling _).bind fun _ =>
        Preserves.out.bind fun _ => .ite (.pure ()) ((preserves_changeOut _).bind fun _ => ih))
  exact .of_work (h.above _) rfl fun limit base below b n => during_rounds.bind fun _ => hchunks _ _ _ _ _ _

theorem accounts_project (h : input.Accounts M) (exprs : List Expr) (types : List SqlType) :
    (project config exprs types input).Accounts M :=
  .of_work (h.above _) rfl fun _ _ _ _ _ => (during_fetch h).bind fun _ => .ite (.pure ()) (preserves_filling _)

theorem accounts_prune (h : input.Accounts M) (k : Nat) : (prune config k input).Accounts M :=
  .of_work (h.above _) rfl fun _ _ _ _ _ => (during_fetch h).bind fun _ => .ite (.pure ()) (preserves_filling _)

theorem accounts_limit (h : input.Accounts M) (count : Option Nat) (offset : Nat) :
    (Operator.limit config count offset input).Accounts M := by
  have hchunks (limit base : Nat) (below : List Cell) (n : Nat) (stop : Option Nat) (rounds seen : Nat) :
      Preserves (limitChunks input stop offset rounds seen) (during M limit base below (Standing false n)) := by
    induction rounds generalizing seen with
    | zero => exact .throw _
    | succ rounds ih =>
      exact .ite (.pure ()) ((during_fetch h).bind fun chunk => .ite (.pure ()) ((Preserves.lift _).bind fun next =>
        (preserves_setStanding rfl).bind fun _ => .ite (ih next) ((Preserves.lift _).bind fun _ => preserves_changeOut _)))
  refine .of_answer _ (h.above _) rfl fun p => .of_preserves fun limit base below n => ?_
  cases p with
  | limit seen => exact during_rounds.bind fun _ => hchunks _ _ _ _ _ _ _
  | _ => exact .fail _

theorem settles_handOut {keep : Option Output → Progress} (hkeep : ∀ o, (keep (some o)).buffers = true) (o : Output) :
    Settles M (handOut keep o) true :=
  .of_preserves fun _ _ _ _ => .ite (.pure ()) (Preserves.out.bind fun _ => (preserves_filling _).bind fun _ =>
    preserves_setStanding (hkeep _))

theorem settles_firstOutput {keep : Option Output → Progress} {compute : Pull Output}
    (hkeep : ∀ o, (keep (some o)).buffers = true)
    (hcompute : ∀ limit base below n, Preserves compute (during M limit base below (Gathering n))) :
    Settles M (do handOut keep (← firstOutput keep compute)) false :=
  .newly hcompute (fun o => hkeep o) fun o => settles_handOut hkeep o

theorem accounts_order (h : input.Accounts M) (keys : List SortKey) : (order config keys input).Accounts M := by
  refine .of_answer _ (h.above _) rfl fun p => ?_
  cases p with
  | order output =>
    cases output with
    | some o => exact settles_handOut (fun _ => rfl) o
    | none => exact settles_firstOutput (fun _ => rfl) fun _ _ _ _ => preserves_sortInput preserves_reserve (during_readInto h) keys
  | _ => exact .of_preserves fun _ _ _ _ => .fail _

theorem accounts_window (h : input.Accounts M) (calls : List WindowCall) : (window config calls input).Accounts M := by
  refine .of_answer _ (h.above _) rfl fun p => ?_
  cases p with
  | window output =>
    cases output with
    | some o => exact settles_handOut (fun _ => rfl) o
    | none =>
      exact settles_firstOutput (fun _ => rfl) fun _ _ _ _ => preserves_windowInput preserves_reserve (during_readInto h) calls
  | _ => exact .of_preserves fun _ _ _ _ => .fail _

theorem accounts_aggregate (h : input.Accounts M) (keys : List Expr) (keyTypes : List SqlType) (calls : List AggregateCall) :
    (aggregate config keys keyTypes calls input).Accounts M := by
  refine .of_answer _ (h.above _) rfl fun p => ?_
  cases p with
  | aggregate output =>
    cases output with
    | some o => exact settles_handOut (fun _ => rfl) o
    | none =>
      exact settles_firstOutput (fun _ => rfl) fun _ _ _ _ =>
        preserves_groupInput preserves_reserve (during_fetch h) keys keyTypes calls
  | _ => exact .of_preserves fun _ _ _ _ => .fail _

theorem during_drainRight {α : Type} (h : right.Accounts M) {finish : Collection → Pull α}
    (hfinish : ∀ limit base below n buffered, Preserves (finish buffered) (during M limit base below (Gathering n))) :
    Preserves (onFresh right.start do finish (← right.drain)) (during M limit base below (Gathering n)) :=
  preserves_onFresh h.start fun base below =>
    (preserves_drain preserves_reserve (during_readInto h)).bind fun buffered => hfinish limit base below n buffered

theorem settles_crossPair (h : left.Accounts M) (side : Output) : Settles M (do
      if side.rows = 0 then return
      let some (chunk, side) ← crossLeft left side | return
      Pull.setProgress (.cross (some { side with position := side.position + 1 }))
      Pull.filling (pairRow (left.types ++ right.types) side chunk)) true := by
  refine .of_preserves fun limit base below n => .ite (.pure ()) (Preserves.bind ?_ fun found => ?_)
  · exact .ite (Preserves.get.bind fun _ => .pure _) ((during_fetch h).bind fun _ => .pure _)
  · cases found with
    | none => exact .pure ()
    | some pair => exact (preserves_setStanding rfl).bind fun _ => preserves_filling _

theorem accounts_cross (hleft : left.Accounts M) (hright : right.Accounts M) : (cross config left right).Accounts M := by
  refine .of_answer _ (hleft.above _) rfl fun p => ?_
  cases p with
  | cross side =>
    cases side with
    | some side =>
      intro limit base below n c f hc hf
      exact Leaves.step rfl (settles_crossPair hleft side limit base below n c f hc hf)
    | none =>
      refine .newly (fun _ _ _ _ => during_drainRight hright fun _ _ _ _ _ => ?_) (fun _ => rfl) fun side =>
        settles_crossPair hleft side
      exact (Preserves.lift _).bind fun _ => .pure _
  | _ => exact .of_preserves fun _ _ _ _ => Preserves.fail_bind _ _

/-- A join that has its right side keeps it. -/
theorem during_setJoin {side : Option JoinSide} (hside : side.isSome = true) (pending : List (Nat × Option Nat)) (emitted : Nat) :
    Preserves (setProgress (.join ⟨side, pending, emitted⟩)) (during M limit base below (Standing true n)) :=
  preserves_setStanding hside

theorem during_handOutPairs (side : JoinSide) (p : JoinProgress) (hp : p.side.isSome = true) :
    Preserves (handOutPairs side p) (during M limit base below (Standing true n)) :=
  Preserves.out.bind fun _ => (Preserves.lift _).bind fun _ => (during_setJoin hp _ _).bind fun _ =>
    Preserves.get.bind fun _ => preserves_filling _

theorem during_probe (h : left.Accounts M) (kind : JoinKind) (keys : List Expr) (right : Operator) (side : JoinSide)
    (rounds : Nat) (p : JoinProgress) (hp : p.side.isSome = true) :
    Preserves (probe kind keys left right side rounds p) (during M limit base below (Standing true n)) := by
  induction rounds generalizing p with
  | zero => exact .throw _
  | succ rounds ih =>
    refine .ite (during_handOutPairs _ _ hp) ((during_setJoin hp _ _).bind fun _ =>
      .ite (.pure ()) ((during_fetch h).bind fun chunk => .ite (.pure ()) (.ite (preserves_filling _)
        ((Preserves.lift _).bind fun keyColumns => (during_setJoin hp _ _).bind fun _ =>
          (Preserves.liftQuery _).bind fun flags => ?_))))
    cases kind with
    | inner | left => exact ih _ hp
    | semi | anti =>
      refine (preserves_filling _).bind fun _ => Preserves.out.bind fun _ => .ite (.pure ()) ?_
      exact (preserves_changeOut _).bind fun _ => ih _ hp
    | mark => exact preserves_filling _

theorem accounts_join (hleft : left.Accounts M) (hright : right.Accounts M) (kind : JoinKind) (on : List (Expr × Expr)) :
    (join config kind on left right).Accounts M := by
  refine .of_answer _ (hleft.above _) rfl fun p => ?_
  cases p with
  | join p =>
    have hprobe (side : JoinSide) : Settles M (do
        let rounds := (← left.rounds) + 1
        lendingSide (probe kind (on.map Prod.fst) left right side rounds { p with side := some side })) true := by
      intro limit base below n c f hc hf
      have hlent : Settles M _ true := .lendingSide (.of_preserves fun _ _ _ _ =>
        during_probe hleft kind (on.map Prod.fst) right side (left.rowsBelow f.below + 1 + 1) { p with side := some side } rfl)
      exact Leaves.step rfl (hlent limit base below n c f hc hf)
    cases hp : p.side with
    | some side =>
      intro limit base below n c f hc hf
      simp only [hp]
      refine Leaves.step rfl (hprobe side limit base below n c f hc ?_)
      simpa [Progress.buffers, hp] using hf
    | none =>
      have hbuffers : (Progress.join p).buffers = false := by simp [Progress.buffers, hp]
      rw [hbuffers]
      simp only [hp]
      refine .newly (fun _ _ _ _ => during_drainRight hright fun _ _ _ _ _ => ?_) (fun _ => rfl) hprobe
      exact (Preserves.lift _).bind fun _ => (Preserves.lift _).bind fun _ => (preserves_reserve _).bind fun _ => .pure _
  | _ => exact .of_preserves fun _ _ _ _ => .fail _

/-- A deletion changes the masks as it deletes. -/
theorem accounts_delete (h : input.Accounts M) (hM : ∀ masks, M masks) (table : Provider) :
    (delete config table input).Accounts M := by
  have hids (limit base : Nat) (below : List Cell) (n : Nat) (ids : List Int64) :
      Preserves (deleteIds table ids) (during M limit base below (Standing false n)) := by
    intro f ⟨hbooks, hown, hbelow⟩
    refine Leaves.step rfl (Leaves.step rfl (Preserves.liftQuery _ _ ⟨?_, hown, hbelow⟩))
    exact ⟨hbooks.limit_eq, hbooks.used_eq, hM _⟩
  have hchunks (limit base : Nat) (below : List Cell) (n rounds deleted : Nat) :
      Preserves (deleteChunks table input rounds deleted) (during M limit base below (Standing false n)) := by
    induction rounds generalizing deleted with
    | zero => exact .throw _
    | succ rounds ih =>
      exact (during_fetch h).bind fun _ => .ite (.pure _) ((Preserves.lift _).bind fun _ =>
        (hids _ _ _ _ _).bind fun _ => ih _)
  refine .of_answer _ (h.above _) rfl fun p => .of_preserves fun limit base below n => ?_
  cases p with
  | delete done =>
    cases done with
    | true => exact .pure ()
    | false =>
      exact during_rounds.bind fun _ => (hchunks _ _ _ _ _ _).bind fun _ => (preserves_setStanding rfl).bind fun _ =>
        preserves_filling _
  | _ => exact .fail _

end Operator

namespace Plan

/-- A plan that deletes rows. -/
def deletes : Plan → Bool
  | source _ _ | scan _ _ _ | empty _ => false
  | filter _ input | project _ _ input | prune _ input | order _ input | limit _ _ input | aggregate _ _ _ input
  | window _ input => input.deletes
  | cross l r | join _ _ l r => l.deletes || r.deletes
  | delete _ _ => true

/-- Every plan keeps the books; and if it deletes nothing, what is told of the masks. -/
theorem accounts {M : List (Nat × Mask) → Prop} (config : Config) (p : Plan) (h : p.deletes = false ∨ ∀ masks, M masks) :
    (p.operator config).Accounts M := by
  induction p with
  | source types chunks => exact Operator.accounts_source types chunks
  | scan table columns types => exact Operator.accounts_scan table columns types
  | empty types => exact Operator.accounts_empty types
  | filter predicates input ih => exact Operator.accounts_filter (ih h) predicates
  | project exprs types input ih => exact Operator.accounts_project (ih h) exprs types
  | prune k input ih => exact Operator.accounts_prune (ih h) k
  | order keys input ih => exact Operator.accounts_order (ih h) keys
  | limit n offset input ih => exact Operator.accounts_limit (ih h) n offset
  | aggregate keys keyTypes calls input ih => exact Operator.accounts_aggregate (ih h) keys keyTypes calls
  | window calls input ih => exact Operator.accounts_window (ih h) calls
  | cross l r hl hr =>
    exact Operator.accounts_cross (hl (h.imp_left fun hd => (Bool.or_eq_false_iff.mp hd).1))
      (hr (h.imp_left fun hd => (Bool.or_eq_false_iff.mp hd).2))
  | join kind on l r hl hr =>
    exact Operator.accounts_join (hl (h.imp_left fun hd => (Bool.or_eq_false_iff.mp hd).1))
      (hr (h.imp_left fun hd => (Bool.or_eq_false_iff.mp hd).2)) kind on
  | delete table input ih =>
    have hM := h.resolve_left nofun
    exact Operator.accounts_delete (ih (.inr hM)) hM table

end Plan
end QueryEngine
