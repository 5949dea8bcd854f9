import QueryEngine.Proofs.InTime
import QueryEngine.Proofs.Pull.Sure

/-! Pulls that come to their end.

A loop over an input gets a round for each row that the input may still give and one for
the end, so it ends in time if the input keeps to what it may give. Of the cells that
takes only the counts to be right: a selection is as long as its chunk has rows, and no
key of a join's right side has more rows than the side (`Frame.Counted`). Steps keep this
whether they succeed or fail and whatever else the cells hold, and a step that keeps it
and does not run out of rounds halts (`Halts`). -/
namespace QueryEngine

/-! ### Counts that are right -/

/-- A selection has as many rows as the chunk. -/
def Chunk.Counted (c : Chunk) : Prop := ∀ s, c.selection = some s → s.length = c.count

namespace Chunk
variable {c d : Chunk}

theorem Counted.length_activeRows (h : c.Counted) : c.activeRows.length = c.count := by
  unfold activeRows
  cases hs : c.selection with
  | none => rw [Option.getD_none, List.length_range]
  | some s => rw [Option.getD_some, h s hs]

theorem counted_of_flat (h : c.selection = none) : c.Counted := fun s hs => by
  rw [h] at hs
  cases hs

theorem counted_select (c : Chunk) (s : Selection) : (c.select s).Counted := fun t ht => by
  cases ht
  rfl

theorem Counted.setCountFrom (h : d.Counted) (c : Chunk) : (c.setCountFrom d).Counted := h

theorem Counted.reference (h : d.Counted) (c : Chunk) : (c.reference d).Counted := h

theorem slice_inTime (c : Chunk) (offset len : Nat) :
    Yields Failure.InTime (c.slice offset len) fun piece => piece.Counted ∧ piece.count ≤ len := by
  refine (addCounts_inTime _ _).bind fun stop hstop => .ite (fun _ => trivial) fun _ => ?_
  split
  · rename_i s _
    refine .bind (Q := fun piece : Selection => piece.length ≤ len) (.ite (fun _ => ?_) fun _ => trivial)
      fun piece hpiece => ⟨counted_select c piece, hpiece⟩
    show ((s.drop offset).take (stop - offset)).length ≤ len
    rw [List.length_take, hstop]
    omega
  · rename_i hs
    exact .bind (.mapM_inTime _ fun column => column.slice_inTime _ _) fun _ _ => ⟨counted_of_flat hs, Nat.le_refl _⟩

end Chunk

/-- No key has more rows than the side. -/
def JoinSide.Counted (s : JoinSide) : Prop := ∀ k rows, s.index.get? k = some rows → rows.length ≤ s.rows

def Progress.Counted : Progress → Prop
  | .join p => ∀ side, p.side = some side → side.Counted
  | _ => True

structure Cell.Counted (c : Cell) : Prop where
  buffer : c.buffer.Counted
  progress : c.progress.Counted

structure Frame.Counted (f : Frame) : Prop where
  out : f.out.Counted
  cell : f.cell.Counted
  below : ∀ cell ∈ f.below, cell.Counted

/-- A fresh cell, but for one that begins with a join's right side. -/
theorem Cell.counted_start {p : Progress} (h : p.Counted) : (Cell.start p).Counted :=
  ⟨Chunk.counted_of_flat rfl, h⟩

/-! ### Steps that halt -/

section
variable {α β σ : Type} {I : σ → Prop} {m : EStateM Failure σ α} {s : σ} {Q R : α → σ → Prop}

/-- From `s` the step ends in time, as `Q` tells where it succeeds; either way it keeps `I`. -/
def Halts (I : σ → Prop) (m : EStateM Failure σ α) (s : σ) (Q : α → σ → Prop) : Prop :=
  match m s with
  | .ok a t => I t ∧ Q a t
  | .error e t => I t ∧ e.InTime

namespace Halts

theorem ok (h : Halts I m s Q) {a : α} {t : σ} (hm : m s = .ok a t) : I t ∧ Q a t := by
  rw [Halts, hm] at h
  exact h

theorem error (h : Halts I m s Q) {e : Failure} {t : σ} (hm : m s = .error e t) : I t ∧ e.InTime := by
  rw [Halts, hm] at h
  exact h

theorem of_ok {a : α} {t : σ} (hm : m s = .ok a t) (hI : I t) (hQ : Q a t) : Halts I m s Q := by
  rw [Halts, hm]
  exact ⟨hI, hQ⟩

theorem of_error {e : Failure} {t : σ} (hm : m s = .error e t) (hI : I t) (he : e.InTime) : Halts I m s Q := by
  rw [Halts, hm]
  exact ⟨hI, he⟩

theorem mono (h : Halts I m s Q) (hQR : ∀ a t, I t → Q a t → R a t) : Halts I m s R := by
  cases hm : m s with
  | ok a t => exact .of_ok hm (h.ok hm).1 (hQR a t (h.ok hm).1 (h.ok hm).2)
  | error e t => exact .of_error hm (h.error hm).1 (h.error hm).2

theorem pure {a : α} (hI : I s) (hQ : Q a s) : Halts I (pure a) s Q := .of_ok rfl hI hQ

theorem throw {e : Failure} (hI : I s) (he : e.InTime) : Halts I (throw e : EStateM Failure σ α) s Q := .of_error rfl hI he

theorem bind {k : α → EStateM Failure σ β} {R : β → σ → Prop} (h : Halts I m s Q)
    (hk : ∀ a t, I t → Q a t → Halts I (k a) t R) : Halts I (m >>= k) s R := by
  rw [Halts, run_bind]
  cases hm : m s with
  | ok a t => exact hk a t (h.ok hm).1 (h.ok hm).2
  | error e t => exact h.error hm

/-- A first step whose outcome is known. -/
theorem step {k : α → EStateM Failure σ β} {R : β → σ → Prop} {a : α} {t : σ} (hm : m s = .ok a t)
    (h : Halts I (k a) t R) : Halts I (m >>= k) s R := by
  rw [Halts, run_bind, hm]
  exact h

theorem ite {c : Prop} [Decidable c] {k : EStateM Failure σ α} (ht : c → Halts I m s Q) (he : ¬c → Halts I k s Q) :
    Halts I (if c then m else k) s Q := by
  split
  · exact ht ‹_›
  · exact he ‹_›

theorem lift_bind {x : Except Failure α} {k : α → EStateM Failure σ β} {P : α → Prop} {R : β → σ → Prop} (hI : I s)
    (hx : Yields Failure.InTime x P) (h : ∀ a, P a → Halts I (k a) s R) : Halts I (liftM x >>= k) s R := by
  rw [Halts, run_bind, run_lift]
  cases x with
  | ok a => exact h a hx
  | error e => exact ⟨hI, hx⟩

/-- A query error is always in time. -/
theorem liftQuery {x : Except QueryError α} (hI : I s) (h : ∀ a, x = .ok a → Q a s) : Halts I (liftM x) s Q := by
  rw [Halts, run_liftQuery]
  cases x with
  | ok a => exact ⟨hI, h a rfl⟩
  | error e => exact ⟨hI, trivial⟩

theorem liftQuery_bind {x : Except QueryError α} {k : α → EStateM Failure σ β} {R : β → σ → Prop} (hI : I s)
    (h : ∀ a, x = .ok a → Halts I (k a) s R) : Halts I (liftM x >>= k) s R := by
  rw [Halts, run_bind, run_liftQuery]
  cases x with
  | ok a => exact h a rfl
  | error e => exact ⟨hI, trivial⟩

end Halts
end

/-! ### Filling a chunk -/

namespace Filling
variable {c : Chunk}

/-- Filling in columns changes neither count nor selection. -/
theorem put_halts (index : Nat) (column : Column) (hc : c.Counted) :
    Halts Chunk.Counted (put index column) c fun _ _ => True := by
  refine .step rfl (.liftQuery_bind hc fun d hd => ?_)
  unfold Chunk.setColumn Chunk.setArray at hd
  split at hd
  · cases hd
  · cases hd
  · split at hd
    · cases hd
      exact .of_ok rfl hc trivial
    · cases hd

theorem putAll_halts (index : Nat) (columns : List Column) (hc : c.Counted) :
    Halts Chunk.Counted (putAll index columns) c fun _ _ => True := by
  induction columns generalizing index c with
  | nil => exact .pure hc trivial
  | cons column rest ih => exact (put_halts index column hc).bind fun _ d hd _ => ih (index + 1) hd

theorem putComputed_halts (index : Nat) {columns : List (Except Failure Column)} (hc : c.Counted)
    (h : ∀ r ∈ columns, Yields Failure.InTime r fun _ => True) :
    Halts Chunk.Counted (putComputed index columns) c fun _ _ => True := by
  induction columns generalizing index c with
  | nil => exact .pure hc trivial
  | cons r rest ih =>
    obtain ⟨hr, hrest⟩ := List.forall_mem_cons.mp h
    exact .lift_bind hc hr fun column _ => (put_halts index column hc).bind fun _ d hd _ => ih (index + 1) hd hrest

end Filling

/-! ### Steps of a pull -/

namespace Halts
open Pull
variable {α β : Type} {f : Frame} {Q : α → Frame → Prop}

theorem fail {e : QueryError} (hf : f.Counted) : Halts Frame.Counted (Pull.fail e : Pull α) f Q := .throw hf trivial

theorem fail_bind {e : QueryError} {k : α → Pull β} {R : β → Frame → Prop} (hf : f.Counted) :
    Halts Frame.Counted (Pull.fail e >>= k) f R := .of_error rfl hf trivial

theorem filling {step : Filling α} {P : α → Chunk → Prop} (hf : f.Counted) (h : Halts Chunk.Counted step f.out P)
    (hQ : ∀ a d, d.Counted → P a d → Q a { f with out := d }) : Halts Frame.Counted (Pull.filling step) f Q := by
  rw [Halts, Pull.filling]
  cases hstep : step f.out with
  | ok a d =>
    obtain ⟨hd, hP⟩ := h.ok hstep
    exact ⟨⟨hd, hf.cell, hf.below⟩, hQ a d hd hP⟩
  | error e d =>
    obtain ⟨hd, he⟩ := h.error hstep
    exact ⟨⟨hd, hf.cell, hf.below⟩, he⟩

/-- The chunk is filled, and from there the work goes on. -/
theorem filling_bind {step : Filling α} {next : α → Pull β} {P : α → Chunk → Prop} {R : β → Frame → Prop}
    (hf : f.Counted) (h : Halts Chunk.Counted step f.out P)
    (hnext : ∀ a d, d.Counted → P a d → Halts Frame.Counted (next a) { f with out := d } R) :
    Halts Frame.Counted (Pull.filling step >>= next) f R := by
  refine (filling (Q := fun a g => ∃ d : Chunk, d.Counted ∧ g = { f with out := d } ∧ P a d) hf h
    fun a d hd hP => ⟨d, hd, rfl, hP⟩).bind fun a g _ ⟨d, hd, hg, hP⟩ => ?_
  subst hg
  exact hnext a d hd hP

/-- Other books. -/
theorem counted_booked {g : Frame} (hf : f.Counted) (h : Booked f g) : g.Counted := by
  obtain ⟨held, pool, rfl⟩ := h
  exact ⟨hf.out, ⟨hf.cell.buffer, hf.cell.progress⟩, hf.below⟩

theorem reserve (bytes : Nat) (hf : f.Counted) : Halts Frame.Counted (reserve bytes) f fun _ g => Booked f g := by
  unfold Pull.reserve
  refine .step rfl (.liftQuery_bind hf fun pool _ => ?_)
  have hbooked : Booked f { f with
      cell := { f.cell with reserved := f.cell.reserved + bytes }
      session := { f.session with pool := pool } } := ⟨_, pool, rfl⟩
  exact .of_ok rfl (counted_booked hf hbooked) hbooked

theorem counted_giveBack (hf : f.Counted) (bytes : Nat) : (f.giveBack bytes).Counted :=
  ⟨hf.out, ⟨hf.cell.buffer, hf.cell.progress⟩, hf.below⟩

theorem buffering {step : Pull α} (h : Halts Frame.Counted step f fun a g => Q a (g.giveBack f.cell.reserved)) :
    Halts Frame.Counted (buffering step) f Q := by
  rw [Halts, Pull.buffering]
  cases hstep : step f with
  | ok a g => exact ⟨counted_giveBack (h.ok hstep).1 _, (h.ok hstep).2⟩
  | error e g => exact ⟨counted_giveBack (h.error hstep).1 _, (h.error hstep).2⟩

/-- The cells below are those from before, whatever becomes of the fresh ones. -/
theorem onFresh {s : State} {step : Pull α} (hf : f.Counted)
    (h : Halts Frame.Counted step { f with below := s.cells } fun a g => Q a (g.replaceBelow f.below)) :
    Halts Frame.Counted (onFresh s step) f Q := by
  rw [Halts, Pull.onFresh]
  cases hstep : step { f with below := s.cells } with
  | ok a g =>
    obtain ⟨hg, hQ⟩ := h.ok hstep
    exact ⟨⟨hg.out, hg.cell, hf.below⟩, hQ⟩
  | error e g =>
    obtain ⟨hg, he⟩ := h.error hstep
    exact ⟨⟨hg.out, hg.cell, hf.below⟩, he⟩

end Halts

/-! ### Operators -/

/-- Whatever the cells hold, if their counts are right, a pull ends in time, and what it
hands out and what is then left are no more rows than were left before. -/
structure Operator.Halting (op : Operator) : Prop where
  start : ∀ cell ∈ op.start.cells, cell.Counted
  step : ∀ f : Frame, f.cell.Counted → (∀ cell ∈ f.below, cell.Counted) →
    Halts Frame.Counted op.pull f fun _ g => g.out.count + op.rowsBelow g.cells ≤ op.rowsBelow f.cells

namespace Operator
open Pull
variable {op input : Operator} {f : Frame} {config : Config}

/-- What is asked of an operator's own work within an answer. -/
theorem halting_of_work {work : Pull Unit} (types : List SqlType) (hpull : op.pull = answer config types work)
    (hstart : ∀ cell ∈ op.start.cells, cell.Counted)
    (hfinish : ∀ cell below, op.rowsLeft ⟨{ cell with finished := true }, below⟩ = op.rowsLeft ⟨cell, below⟩)
    (hwork : ∀ f : Frame, f.Counted → f.out.count = 0 → 0 < f.out.capacity →
      Halts Frame.Counted work f fun _ g => g.out.count + op.rowsBelow g.cells ≤ op.rowsBelow f.cells) : op.Halting := by
  refine ⟨hstart, fun f hcell hbelow => ?_⟩
  let ready : Frame := { f with out := f.out.prepare types config.capacity }
  have hready : ready.Counted := ⟨Chunk.counted_of_flat rfl, hcell, hbelow⟩
  rw [hpull, answer]
  refine .step (a := ()) (t := ready) rfl (.step rfl (.ite (fun _ => .pure hready ?_) fun _ => ?_))
  · exact Nat.le_of_eq (Nat.zero_add _)
  refine (hwork ready hready rfl (Nat.lt_of_lt_of_le Nat.one_pos (Nat.le_max_right ..))).bind fun _ g hg hfewer => ?_
  have hverify {k : Frame} (hk : k.Counted) (hk' : k.out.count + op.rowsBelow k.cells ≤ op.rowsBelow f.cells) :
      Halts Frame.Counted (if config.verify then g.out.verify else Pure.pure ()) k
        fun _ g => g.out.count + op.rowsBelow g.cells ≤ op.rowsBelow f.cells :=
    .ite (fun _ => .liftQuery hk fun _ _ => hk') fun _ => .pure hk hk'
  refine .step rfl (.ite (fun _ => ?_) fun _ => hverify hg hfewer)
  refine .step (a := ()) (t := { g with cell := { g.cell with finished := true } }) rfl (hverify ?_ ?_)
  · exact ⟨hg.out, ⟨hg.cell.buffer, hg.cell.progress⟩, hg.below⟩
  · show g.out.count + op.rowsLeft _ ≤ _
    rw [hfinish]
    exact hfewer

/-- What a chunk fetched from an input leaves. -/
structure Fetched (input : Operator) (f : Frame) (chunk : Chunk) (g : Frame) : Prop where
  counted : chunk.Counted
  out : g.out = f.out
  cell : g.cell = { f.cell with buffer := chunk }
  fewer : chunk.count + input.rowsBelow g.below ≤ input.rowsBelow f.below

theorem Halting.inInput {name : String} {out : Chunk} {after : Frame → Frame → Frame} {Q : Chunk → Frame → Prop}
    (h : input.Halting) (hf : f.Counted) (hafter : ∀ g : Frame, g.Counted → (after f g).Counted)
    (hQ : ∀ g : Frame, g.Counted → g.out.count + input.rowsBelow g.cells ≤ input.rowsBelow f.below → Q g.out (after f g)) :
    Halts Frame.Counted (inInput name out after input.pull) f Q := by
  rw [Halts, Pull.inInput, Frame.input?]
  cases hbelow : f.below with
  | nil => exact ⟨hf, trivial⟩
  | cons cell below =>
    obtain ⟨hcell, hcells⟩ := List.forall_mem_cons.mp (hbelow ▸ hf.below)
    have hstep := h.step ⟨cell, below, f.session, out⟩ hcell hcells
    rw [hbelow] at hQ
    simp only
    cases hpull : input.pull ⟨cell, below, f.session, out⟩ with
    | ok a g => exact ⟨hafter g (hstep.ok hpull).1, hQ g (hstep.ok hpull).1 (hstep.ok hpull).2⟩
    | error e g => exact ⟨hafter g (hstep.error hpull).1, (hstep.error hpull).2⟩

theorem Halting.fetch (h : input.Halting) (hf : f.Counted) : Halts Frame.Counted input.fetch f (Fetched input f) := by
  refine .step rfl (h.inInput hf (fun g hg => ?_) fun g hg hfewer => ⟨hg.out, rfl, rfl, hfewer⟩)
  exact ⟨hf.out, ⟨hg.out, hf.cell.progress⟩, List.forall_mem_cons.mpr ⟨hg.cell, hg.below⟩⟩

/-- What reading an input to its end leaves. -/
structure Drained (input : Operator) (before : Nat) (f : Frame) (collected : Collection) (g : Frame) : Prop where
  out : g.out = f.out
  cell : ∃ held, g.cell = { f.cell with reserved := held }
  bounded : collected.count ≤ before + input.rowsBelow f.below

theorem Halting.drainInto (h : input.Halting) (rounds : Nat) {collected : Collection} (hf : f.Counted)
    (hrounds : input.rowsBelow f.below < rounds) :
    Halts Frame.Counted (input.drainInto rounds collected) f (Drained input collected.count f) := by
  -- a chunk that is appended has a row, so the input may then give fewer than there are rounds
  induction rounds generalizing f collected with
  | zero => cases hrounds
  | succ rounds ih =>
    rw [Operator.drainInto]
    have hread : Halts Frame.Counted (Pull.inInput input.name Chunk.fresh Frame.afterInput input.pull) f fun chunk g =>
        g.out = f.out ∧ g.cell = f.cell ∧ chunk.count + input.rowsBelow g.below ≤ input.rowsBelow f.below := by
      refine h.inInput hf (fun g hg => ?_) fun g _ hfewer => ⟨rfl, rfl, hfewer⟩
      exact ⟨hf.out, hf.cell, List.forall_mem_cons.mpr ⟨hg.cell, hg.below⟩⟩
    refine hread.bind fun chunk g hg hafter => ?_
    obtain ⟨hout, hcell, hfewer⟩ := hafter
    refine .ite (fun _ => .pure hg ⟨hout, ⟨f.cell.reserved, hcell⟩, Nat.le_add_right _ _⟩) fun he => ?_
    have hrow := Chunk.count_pos he
    refine .lift_bind hg (collected.append_inTime chunk) fun appended hcount => ?_
    refine (Halts.reserve appended.2 hg).bind fun _ k hk hreserved => ?_
    obtain ⟨held, pool, hbooks⟩ := hreserved
    have hkbelow : k.below = g.below := by rw [hbooks]
    have hkout : k.out = f.out := by rw [hbooks]; exact hout
    have hkcell : k.cell = { f.cell with reserved := held } := by rw [hbooks, hcell]
    refine (ih hk (by rw [hkbelow]; omega)).mono fun coll k' _ hk' => ?_
    obtain ⟨held', hheld⟩ := hk'.cell
    have hbounded := hk'.bounded
    rw [hkbelow] at hbounded
    exact ⟨hk'.out.trans hkout, ⟨held', by rw [hheld, hkcell]⟩, by omega⟩

theorem Halting.drain (h : input.Halting) (hf : f.Counted) : Halts Frame.Counted input.drain f (Drained input 0 f) :=
  .step rfl (h.drainInto _ hf (Nat.lt_succ_self _))

end Operator
end QueryEngine
