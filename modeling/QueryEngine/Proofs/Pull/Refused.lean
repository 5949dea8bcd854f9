import QueryEngine.Proofs.Pull.Grouping
import QueryEngine.Proofs.Pull.Preserves
import QueryEngine.Proofs.Pull.Served

/-! Operators that were refused bytes while they read an input.

Such an operator has not begun: its cell is as at the start. A cross product or a join has
read its right input from a state of its own, so all of its state is as at the start. A sort,
a window or a grouping has read its first input from the cells below, and what was read is
gone with the pull: it goes on as one whose input gives the rows that are left. -/
namespace QueryEngine

theorem Pull.Booked.giveBack (f : Frame) (bytes : Nat) : Pull.Booked f (f.giveBack bytes) := ⟨_, _, rfl⟩

namespace Operator
open Pull
variable {op input left right : Operator} {sees : List (Nat × Mask) → Prop} {rows : List Row} {s s' : State}
  {config : Config} {f : Frame}

/-! ### Inputs that last -/

/-- From the cells the operator gives the rows. After a pull that fails it gives those that
are left, which are all but some first ones. -/
def Lasts (op : Operator) (sees : List (Nat × Mask) → Prop) (rows : List Row) (cells : List Cell) : Prop :=
  ∃ J : List Row → List Cell → Prop, Meets ⟨0, False, True, sees⟩ op op J ∧
    (∀ f rows, J rows f.cells → sees f.session.masks →
      Fails op.pull f fun _ g => (∃ lost rest, rows = lost ++ rest ∧ J rest g.cells) ∧ sees g.session.masks) ∧ J rows cells

theorem Lasts.gives {cells : List Cell} (h : op.Lasts sees rows cells) : Gives ⟨0, False, True, sees⟩ op op rows cells := by
  obtain ⟨J, hJ, _, hrows⟩ := h
  exact ⟨J, hJ, hrows⟩

/-- Where no pull fails nothing is lost. -/
theorem Lasts.of_streams (h : op.Streams sees rows) (hok : ∀ f, ∃ g, op.pull f = .ok () g) :
    op.Lasts sees rows op.start.cells := by
  obtain ⟨J, hJ, hrows⟩ := h
  refine ⟨J, hJ, fun f rows _ _ => ?_, hrows⟩
  obtain ⟨g, hg⟩ := hok f
  exact .of_ok hg

/-- The operator has not begun. Of the rows of its input the first may have been read. -/
structure Unbegun (keep : Option Output → Progress) (input : Operator) (sees : List (Nat × Mask) → Prop)
    (rows : List Row) (s : State) : Prop where
  progress : s.cell.progress = keep none
  unfinished : s.cell.finished = false
  below : ∃ read rest, rows = read ++ rest ∧ input.Lasts sees rest s.below

/-- So it is while it reads its input. -/
def Reading (keep : Option Output → Progress) (input : Operator) (sees : List (Nat × Mask) → Prop)
    (rows : List Row) (f : Frame) : Prop :=
  sees f.session.masks ∧ Unbegun keep input sees rows ⟨f.cell, f.below⟩

section
variable {keep : Option Output → Progress}

theorem Reading.booked (f g : Frame) (hg : Booked f g) (h : Reading keep input sees rows f) :
    Reading keep input sees rows g := by
  obtain ⟨held, pool, rfl⟩ := hg
  exact ⟨h.1, h.2.progress, h.2.unfinished, h.2.below⟩

/-- The rows of a chunk that is read are gone, and those that a failing pull loses. -/
theorem preserves_read {name : String} {out : Chunk} {after : Frame → Frame → Frame}
    (hafter : ∀ f g, (after f g).cell.progress = f.cell.progress ∧ (after f g).cell.finished = f.cell.finished ∧
      (after f g).session = g.session ∧ (after f g).below = g.cells) :
    Preserves (inInput name out after input.pull) (Reading keep input sees rows) := by
  refine .inInput fun f cell below ⟨hs, hf⟩ hbelow => ?_
  obtain ⟨read, rest, hrows, J, hJ, hfails, hrest⟩ := hf.below
  rw [hbelow] at hrest
  have hkept (g : Frame) (hsees : sees g.session.masks)
      (hleft : ∃ read rest, rows = read ++ rest ∧ input.Lasts sees rest g.cells) :
      Reading keep input sees rows (after f g) := by
    obtain ⟨hprogress, hfinished, hsession, hcells⟩ := hafter f g
    exact ⟨hsession ▸ hsees, hprogress.trans hf.progress, hfinished.trans hf.unfinished, hcells ▸ hleft⟩
  refine ⟨fun _ g hg => ?_, fun e g hg => ?_⟩
  · have hanswer := (hJ.step ⟨cell, below, f.session, out⟩ rest hrest hs).2 _ g hg
    obtain ⟨rest', hrest', htold⟩ := hanswer.left
    refine hkept g hanswer.sees ⟨read ++ g.out.rows, rest', ?_, J, hJ, hfails, hrest'⟩
    rw [hrows, (htold trivial).1, List.append_assoc]
  · obtain ⟨⟨lost, rest', rfl, hleft⟩, hsees⟩ := hfails ⟨cell, below, f.session, out⟩ rest hrest hs e g hg
    exact hkept g hsees ⟨read ++ lost, rest', by rw [hrows, List.append_assoc], J, hJ, hfails, hleft⟩

theorem preserves_readInto :
    Preserves (inInput input.name Chunk.fresh Frame.afterInput input.pull) (Reading keep input sees rows) :=
  preserves_read fun _ _ => ⟨rfl, rfl, rfl, rfl⟩

theorem preserves_fetch : Preserves input.fetch (Reading keep input sees rows) :=
  Preserves.get.bind fun _ => preserves_read fun _ _ => ⟨rfl, rfl, rfl, rfl⟩

end

/-! ### Sequences of refused pulls -/

/-- Pulls that were refused bytes and left nothing in the cell, from a state to another. -/
inductive Tries (op : Operator) (sees : List (Nat × Mask) → Prop) : State → State → Prop
  | none (s : State) : Tries op sees s s
  | next {s s' : State} {session : Session} {out : Chunk} {e : Failure} {f : Frame} (hs : sees session.masks)
    (hpull : op.pull ⟨s.cell, s.below, session, out⟩ = .error e f) (he : e.Refused)
    (hnone : f.cell.progress = op.start.cell.progress) (hrest : Tries op sees ⟨f.cell, f.below⟩ s') : Tries op sees s s'

section
variable {keep : Option Output → Progress} {compute : Pull Output} {next : Progress → Pull Unit} {F : List Row → List Row}

/-- Refused pulls leave an operator that has not begun, over what is left of the input. -/
theorem Blocking.tries (hop : Blocking config op input keep compute next)
    (hcompute : ∀ f given, Gives ⟨0, False, True, sees⟩ input input given f.below → sees f.session.masks →
      Agree compute compute f (Made sees op.types (fun given all => all = F given) given f))
    (hpreserves : Preserves compute (Reading keep input sees rows)) (h : Unbegun keep input sees rows s)
    (htries : op.Tries sees s s') : Unbegun keep input sees rows s' := by
  induction htries with
  | none s => exact h
  | @next s s' session out e f hs hpull he hnone hrest ih =>
    obtain ⟨read, rest, hrows, hbelow⟩ := h.below
    have hbuffered := hop.first_error ⟨h.progress, h.unfinished, hbelow.gives⟩ hcompute hs hpull
    have hreading : Reading keep input sees rows ⟨s.cell, s.below, session, Chunk.blank op.types config.capacity⟩ := ⟨hs, h⟩
    have hleft : Reading keep input sees rows f := Fails.buffering (E := fun _ g => Reading keep input sees rows g)
      ((hpreserves _ hreading).2.mono fun _ g hg => hg.booked g _ (.giveBack g _)) e f hbuffered
    exact ih hleft.2

end

/-! ### Right inputs -/

section
variable {α : Type} {finish : Collection → Pull α}
  (hfinish : ∀ (I : Frame → Prop), (∀ f g, Booked f g → I f → I g) → ∀ collection, Preserves (finish collection) I)
include hfinish

/-- Reading the right input, however it ends, changes nothing of the cell but the bytes it
holds, and nothing of the cells below. -/
theorem fails_drainRight_held : Fails (drainRight right finish) f fun _ g =>
    (∃ held, g.cell = { f.cell with reserved := held - (held - f.cell.reserved) }) ∧ g.below = f.below := by
  let Kept (g : Frame) : Prop := ∃ held, g.cell = { f.cell with reserved := held }
  have hbooks (g k : Frame) (hk : Booked g k) (hg : Kept g) : Kept k := by
    obtain ⟨held, pool, rfl⟩ := hk
    obtain ⟨held', hcell⟩ := hg
    exact ⟨held, by simp only [hcell]⟩
  have hread : Preserves (inInput right.name Chunk.fresh Frame.afterInput right.pull) Kept :=
    .inInput fun g cell below hg _ => ⟨fun _ _ _ => hg, fun _ _ _ => hg⟩
  have hinner : Preserves (do finish (← right.drain)) Kept :=
    (preserves_drain (.reserve hbooks) hread).bind fun collection => hfinish Kept hbooks collection
  refine Fails.buffering (Fails.onFresh ((hinner { f with below := right.start.cells } ⟨_, rfl⟩).2.mono fun _ g hg => ?_))
  obtain ⟨held, hcell⟩ := hg
  refine ⟨⟨held, ?_⟩, rfl⟩
  show ({ g.cell with reserved := g.cell.reserved - (g.cell.reserved - f.cell.reserved) } : Cell) = _
  rw [hcell]

/-- A cell that held nothing stays as it is. -/
theorem fails_drainRight (hf : f.cell.reserved = 0) :
    Fails (drainRight right finish) f fun _ g => g.cell = f.cell ∧ g.below = f.below := by
  refine (fails_drainRight_held hfinish).mono fun _ g ⟨⟨held, hcell⟩, hbelow⟩ => ⟨?_, hbelow⟩
  rw [hcell, hf, Nat.sub_zero, Nat.sub_self, ← hf]

end

/-- The cell tells that the operator has begun. -/
def Begun (op : Operator) (f : Frame) : Prop := f.cell.progress ≠ op.start.cell.progress

/-- The operator begins by reading its right input. Where that is refused bytes its state is
as before. -/
def Begins (m : Pull α) (op : Operator) (f : Frame) : Prop :=
  Leaves m f op.Begun fun e g => e.Refused → op.Begun g ∨ g.cell = f.cell ∧ g.below = f.below

section
variable {α : Type} {m : Pull α} 

theorem preserves_begun_fetch : Preserves left.fetch op.Begun :=
  Preserves.get.bind fun _ => .inInput fun _ _ _ hf _ => ⟨fun _ _ _ => hf, fun _ _ _ => hf⟩

theorem Begins.bind {β : Type} {k : α → Pull β} (hm : Begins m op f) (hk : ∀ a, Preserves (k a) op.Begun) :
    Begins (m >>= k) op f :=
  Leaves.bind hm fun a _ hg => (hk a).leaves hg fun _ _ hk _ => .inl hk

theorem Begins.answer {types : List SqlType} {work : Pull Unit} (hf : f.cell.finished = false)
    (h : Begins work op { f with out := Chunk.blank types config.capacity }) : Begins (answer config types work) op f := by
  have hverify (chunk : Chunk) : Preserves (if config.verify then liftM chunk.verify else pure ()) op.Begun :=
    .ite (.liftQuery _) (.pure _)
  have hrest : Preserves (do
      let chunk ← Pull.out
      if chunk.isEmpty then Pull.finish
      if config.verify then chunk.verify : Pull Unit) op.Begun :=
    Preserves.out.bind fun chunk => .ite (.bind (.modify fun _ hg => hg) fun _ => hverify chunk) (hverify chunk)
  have hall := Begins.bind h fun _ => hrest
  unfold Begins Leaves Fails at hall ⊢
  simp only [answer_eq config types work hf]
  exact hall

end

theorem Begins.tries (h : ∀ session out, Begins op.pull op ⟨op.start.cell, op.start.below, session, out⟩)
    (htries : op.Tries sees op.start s) : s = op.start := by
  generalize hstart : op.start = s₀ at htries
  induction htries with
  | none s => rfl
  | @next s s' session out e f hs hpull he hnone hrest ih =>
    subst hstart
    rcases (h session out).2 e f hpull he with hbegun | ⟨hcell, hbelow⟩
    · exact absurd hnone hbegun
    · have hsame : op.start = ⟨f.cell, f.below⟩ := by rw [hcell, hbelow]
      exact (ih hsame).trans hsame.symm

/-- What was read of the right input goes into the cell at once. -/
theorem begins_drainRight {α : Type} {finish : Collection → Pull α} {keep : α → Progress}
    (hfinish : ∀ (I : Frame → Prop), (∀ f g, Booked f g → I f → I g) → ∀ collection, Preserves (finish collection) I)
    (hkeep : ∀ side, keep side ≠ op.start.cell.progress) (hf : f.cell.reserved = 0) :
    Begins (do
      let side ← drainRight right finish
      Pull.setProgress (keep side)
      return side) op f := by
  refine ⟨fun side g hg => ?_, ?_⟩
  · obtain ⟨side', g', -, hrest⟩ := run_bind_eq_ok.mp hg
    cases hrest
    exact hkeep side
  · exact ((fails_drainRight hfinish hf).bind fun _ _ _ => .step rfl .pure).mono fun _ _ hsame _ => .inr hsame

/-! ### Cross products -/

theorem begins_crossRight (hop : op.start.cell.progress = .cross none) (hf : f.cell.reserved = 0) :
    Begins (crossRight right) op f :=
  begins_drainRight (fun _ _ _ => .bind (.lift _) fun _ => .pure _) (fun _ hnone => by cases hnone.trans hop) hf

theorem preserves_begun_crossLeft (side : Output) : Preserves (crossLeft left side) op.Begun :=
  .ite (Preserves.get.bind fun _ => .pure _) (preserves_begun_fetch.bind fun _ => .pure _)

theorem begins_cross (session : Session) (out : Chunk) :
    Begins (cross config left right).pull (cross config left right) 
      ⟨(cross config left right).start.cell, (cross config left right).start.below, session, out⟩ := by
  refine Begins.answer rfl (Leaves.step rfl ?_)
  refine Begins.bind (begins_crossRight rfl rfl) fun side =>
    .ite (.pure _) ((preserves_begun_crossLeft side).bind fun found => ?_)
  match found with
  | none => exact .pure _
  | some (chunk, side) =>
    exact .bind (.modify fun _ _ hnone => by cases hnone) fun _ => .filling fun _ _ hf => hf

/-! ### Joins -/

variable {kind : JoinKind} {on : List (Expr × Expr)}

theorem begins_joinRight {keys : List Expr} (hop : op.start.cell.progress = .join ⟨none, [], 0⟩)
    (hf : f.cell.reserved = 0) (p : JoinProgress) : Begins (joinRight keys right p) op f := by
  refine begins_drainRight (fun _ hbooks _ => ?_) (fun _ hnone => by cases hnone.trans hop) hf
  exact .bind (.lift _) fun _ => .bind (.lift _) fun _ => .bind (.reserve hbooks _) fun _ => .pure _

section
variable (hop : op.start.cell.progress = .join ⟨none, [], 0⟩) {p : JoinProgress} (hp : p.side ≠ none)
include hop hp

/-- Once there is a right side in the cell, no pairs make it what it was at the start. -/
theorem preserves_begun_setPairs (pairs : List (Nat × Option Nat)) (emitted : Nat) :
    Preserves (Pull.setProgress (.join { p with pending := pairs, emitted := emitted })) op.Begun := by
  refine .modify fun _ _ hnone => hp ?_
  rw [hop] at hnone
  exact (JoinProgress.mk.inj (Progress.join.inj hnone)).1

theorem preserves_begun_handOutPairs (side : JoinSide) : Preserves (handOutPairs side p) op.Begun :=
  Preserves.out.bind fun _ => .bind (.lift _) fun _ => (preserves_begun_setPairs hop hp _ _).bind fun _ =>
    Preserves.get.bind fun _ => .filling fun _ _ hf => hf

theorem preserves_begun_probe (keys : List Expr) (side : JoinSide) (rounds : Nat) :
    Preserves (probe kind keys left right side rounds p) op.Begun := by
  induction rounds generalizing p with
  | zero => exact .throw _
  | succ rounds ih =>
    have hanswer {step : Filling Unit} : Preserves (Pull.filling step) op.Begun := .filling fun _ _ hf => hf
    have hselect (chunk : Chunk) (flags : List Bool) (anti : Bool) (pairs : List (Nat × Option Nat)) : Preserves (do
        Pull.filling (JoinResult.semiOrAnti chunk flags anti)
        if !(← Pull.out).isEmpty then return
        Pull.changeOut Chunk.reset
        probe kind keys left right side rounds ⟨p.side, pairs, 0⟩) op.Begun :=
      hanswer.bind fun _ => Preserves.out.bind fun _ => .ite (.pure _) (.bind (.modify fun _ hf => hf) fun _ => ih hp)
    rw [probe]
    refine .ite (preserves_begun_handOutPairs hop hp side) ((preserves_begun_setPairs hop hp _ _).bind fun _ => ?_)
    refine .ite (.pure _) (preserves_begun_fetch.bind fun chunk => .ite (.pure _) (.ite hanswer ?_))
    refine .bind (.lift _) fun keyColumns => (preserves_begun_setPairs hop hp _ _).bind fun _ => ?_
    refine .bind (.liftQuery _) fun flags => ?_
    cases kind with
    | inner => exact ih hp
    | left => exact ih hp
    | semi => exact hselect _ _ _ _
    | anti => exact hselect _ _ _ _
    | mark => exact hanswer

end

/-- Only a crash takes the right side out of the cell. -/
theorem leaves_lent {m : Pull Unit} {I : Frame → Prop} {E E' : Failure → Frame → Prop} (h : Leaves m f I E')
    (hE : ∀ e g, E' e g → e ≠ .crash → E e g) (hcrash : ∀ g, E' .crash g → E .crash g.forgetSide) :
    Leaves (lendingSide m) f I E := by
  obtain ⟨hok, hfails⟩ := h
  unfold Leaves Fails lendingSide
  cases hm : m f with
  | ok a g =>
    refine ⟨fun b k hk => ?_, fun e k hk => (by cases hk)⟩
    cases hk
    exact hok a g hm
  | error e g =>
    refine ⟨fun b k hk => (by cases e <;> cases hk), fun e' k hk => ?_⟩
    cases e with
    | error e =>
      cases hk
      exact hE _ g (hfails _ g hm) nofun
    | crash =>
      cases hk
      exact hcrash g (hfails _ g hm)
    | stalled =>
      cases hk
      exact hE _ g (hfails _ g hm) nofun

theorem leaves_lendingSide {m : Pull Unit} {E : Failure → Frame → Prop} (h : Preserves m op.Begun) (hf : op.Begun f)
    (hE : ∀ e g, op.Begun g → E e g) : Leaves (lendingSide m) f op.Begun fun e g => e.Refused → E e g :=
  leaves_lent (h f hf) (fun e g hg _ _ => hE e g hg) fun _ _ he => he.elim

theorem begins_join (session : Session) (out : Chunk) :
    Begins (join config kind on left right).pull (join config kind on left right)
      ⟨(join config kind on left right).start.cell, (join config kind on left right).start.below, session, out⟩ := by
  refine Begins.answer rfl (Leaves.step rfl ?_)
  refine Leaves.bind (begins_joinRight rfl rfl _) fun side g hg => Leaves.step rfl ?_
  exact leaves_lendingSide (preserves_begun_probe rfl (Option.some_ne_none side) _ _ _) hg fun _ _ hk => .inl hk

end Operator
end QueryEngine
