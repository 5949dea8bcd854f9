import QueryEngine.Proofs.Pull.Gives
import QueryEngine.Proofs.Yields

/-! Pulls that fail on data alone.

An operator is sure from its cells when every pull from there ends or fails on data, and
hands out, with what is then left, no more rows than were left before (`Sure.step`). As
every chunk that is not the last takes away a row, loops over a sure input come to their
end within their rounds, and as long as the rows of the input can be counted, so can
those that were read of it (`Sure.drain`). What the chunks hold is known from `Gives`. -/
namespace QueryEngine

namespace Chunk

/-- A chunk that is not empty has a row. -/
theorem count_pos {c : Chunk} (h : ¬c.isEmpty = true) : 0 < c.count := by
  simp only [isEmpty, decide_eq_true_eq] at h
  omega

end Chunk

/-- A chunk of the collection's types is appended while rows can be counted. -/
theorem Collection.Holds.append_ok {c : Collection} {types : List SqlType} {rows : List Row} {chunk : Chunk}
    (h : c.Holds types rows) (hc : chunk.Sound) (ht : chunk.types = types) (hle : c.count + chunk.count ≤ maxCount) :
    ∃ d bytes, c.append chunk = .ok (d, bytes) ∧ d.count ≤ c.count + chunk.count := by
  unfold Collection.append
  by_cases he : chunk.isEmpty = true
  · rw [if_pos he]
    exact ⟨c, 0, rfl, Nat.le_add_right _ _⟩
  · obtain ⟨flat, hflat, hf⟩ := Chunk.flatten_ok hc
    simp only [he, ht, h.typed, ite_self, ne_eq, not_true_eq_false, if_false, Bool.false_eq_true]
    rw [hflat, ok_bind, hf.count, Chunk.addCounts_of_le hle]
    exact ⟨_, _, rfl, Nat.le_refl _⟩

/-! ### Steps of a pull -/

theorem Pool.reserve_yields (p : Pool) (bytes : Nat) : Yields QueryError.OfData (p.reserve bytes) fun _ => True := by
  unfold reserve
  exact .ite (fun _ => trivial) fun _ => trivial

namespace Ends
open Pull
variable {α β : Type} {f : Frame}

theorem filling {step : Filling α} {Q : α → Frame → Prop} (h : Ends step f.out fun a d => Q a { f with out := d }) :
    Ends (filling step) f Q := by
  unfold Ends Pull.filling at *
  cases hstep : step f.out with
  | ok a d =>
    rw [hstep] at h
    exact h
  | error e d =>
    rw [hstep] at h
    exact h

/-- The chunk is filled, and from there the work goes on. -/
theorem filling_bind {step : Filling α} {next : α → Pull β} {P : α → Chunk → Prop} {Q : β → Frame → Prop}
    (h : Ends step f.out P) (hnext : ∀ a d, P a d → Ends (next a) { f with out := d } Q) :
    Ends (Pull.filling step >>= next) f Q := by
  refine (filling (Q := fun a g => ∃ d : Chunk, g = { f with out := d } ∧ P a d)
    (h.mono fun a d hd => ⟨d, rfl, hd⟩)).bind fun a g hg => ?_
  obtain ⟨d, rfl, hd⟩ := hg
  exact hnext a d hd

theorem reserve (bytes : Nat) : Ends (reserve bytes) f fun _ g => Booked f g := by
  unfold Pull.reserve
  refine .step rfl (.liftQuery_bind (f.session.pool.reserve_yields bytes) fun pool _ => ?_)
  exact .of_ok rfl ⟨_, pool, rfl⟩

theorem buffering {step : Pull α} {Q : α → Frame → Prop}
    (h : Ends step f fun a g => Q a (g.giveBack f.cell.reserved)) : Ends (buffering step) f Q := by
  unfold Ends Pull.buffering at *
  cases hstep : step f with
  | ok a g =>
    rw [hstep] at h
    exact h
  | error e g =>
    rw [hstep] at h
    exact h

theorem onFresh {s : State} {step : Pull α} {Q : α → Frame → Prop}
    (h : Ends step { f with below := s.cells } fun a g => Q a (g.replaceBelow f.below)) : Ends (onFresh s step) f Q := by
  unfold Ends Pull.onFresh at *
  cases hstep : step { f with below := s.cells } with
  | ok a g =>
    rw [hstep] at h
    exact h
  | error e g =>
    rw [hstep] at h
    exact h

theorem inInput {name : String} {out : Chunk} {after : Frame → Frame → Frame} {step : Pull Unit}
    {Q : Chunk → Frame → Prop} {cell : Cell} {below : List Cell} (hbelow : f.below = cell :: below)
    (h : Ends step ⟨cell, below, f.session, out⟩ fun _ g => Q g.out (after f g)) :
    Ends (inInput name out after step) f Q := by
  have hinput : f.input? out = some ⟨cell, below, f.session, out⟩ := by rw [Frame.input?, hbelow]
  unfold Ends Pull.inInput at *
  rw [hinput]
  simp only
  cases hstep : step ⟨cell, below, f.session, out⟩ with
  | ok a g =>
    rw [hstep] at h
    exact h
  | error e g =>
    rw [hstep] at h
    exact h

end Ends

/-! ### Operators -/

/-- From the cells, and from those that pulls leave, pulls fail on data alone and bring
the end nearer by every row that they hand out. -/
structure Sure (T : Terms) (op : Operator) (cells : List Cell) : Prop where
  sees : ∀ masks, T.sees masks
  started : ∃ cell below, cells = cell :: below
  gives : ∃ rows, Gives T op op rows cells
  ends : ∃ J : List Cell → Prop, J cells ∧ ∀ f, J f.cells →
    Ends op.pull f fun _ g => J g.cells ∧ g.out.count + op.rowsBelow g.cells ≤ op.rowsBelow f.cells

/-- What a chunk fetched from an input leaves. -/
structure Sure.Fetched (T : Terms) (op : Operator) (f : Frame) (chunk : Chunk) (g : Frame) : Prop where
  handed : T.Handed op.types chunk
  out : g.out = f.out
  cell : g.cell = { f.cell with buffer := chunk }
  left : Sure T op g.below
  fewer : chunk.count + op.rowsBelow g.below ≤ op.rowsBelow f.below

/-- What reading an input to its end leaves. -/
structure Sure.Drained (op : Operator) (before : Nat) (f : Frame) (collected : Collection) (g : Frame) : Prop where
  out : g.out = f.out
  cell : ∃ held, g.cell = { f.cell with reserved := held }
  holds : ∃ rows, collected.Holds op.types rows
  bounded : collected.count ≤ before + op.rowsBelow f.below

namespace Sure
variable {T : Terms} {op : Operator} {f : Frame} {config : Config}

theorem step {cell : Cell} {below : List Cell} {session : Session} (h : Sure T op (cell :: below)) (out : Chunk) :
    Ends op.pull ⟨cell, below, session, out⟩ fun _ g =>
      T.Handed op.types g.out ∧ Sure T op g.cells ∧ g.out.count + op.rowsBelow g.cells ≤ op.rowsBelow (cell :: below) := by
  obtain ⟨rows, hgives⟩ := h.gives
  obtain ⟨J, hJ, hends⟩ := h.ends
  have hstep := hgives.step (h.sees session.masks) out
  refine (hends ⟨cell, below, session, out⟩ hJ).and_ok.mono fun _ g ⟨⟨hg, hfewer⟩, hok⟩ => ?_
  have hanswer := hstep.2 _ g hok
  obtain ⟨rest, hrest, _⟩ := hanswer.left
  exact ⟨hanswer.handed, ⟨h.sees, ⟨_, _, rfl⟩, ⟨rest, hrest⟩, J, hg, hends⟩, hfewer⟩

theorem fetch (h : Sure T op f.below) : Ends op.fetch f (Fetched T op f) := by
  obtain ⟨cell, below, hbelow⟩ := h.started
  unfold Operator.fetch
  refine .step rfl (.inInput hbelow ?_)
  refine (Sure.step (hbelow ▸ h) f.cell.buffer).mono fun _ g ⟨hhanded, hleft, hfewer⟩ => ?_
  exact ⟨hhanded, rfl, rfl, hleft, hbelow ▸ hfewer⟩

theorem append_yields {collected : Collection} {types : List SqlType} {rows : List Row} {chunk : Chunk}
    (hc : collected.Holds types rows) (hs : chunk.Sound) (ht : chunk.types = types)
    (hle : collected.count + chunk.count ≤ maxCount) :
    Yields Failure.OfData (collected.append chunk) fun appended =>
      (∃ more, appended.1.Holds types more) ∧ appended.1.count ≤ collected.count + chunk.count := by
  obtain ⟨more, bytes, happend, hcount⟩ := hc.append_ok hs ht hle
  exact .of_ok happend ⟨⟨_, hc.append hs ht happend⟩, hcount⟩

theorem drainInto (rounds : Nat) {before : List Row} {collected : Collection} (h : Sure T op f.below)
    (hrounds : op.rowsBelow f.below < rounds) (hc : collected.Holds op.types before)
    (hle : collected.count + op.rowsBelow f.below ≤ maxCount) :
    Ends (op.drainInto rounds collected) f (Drained op collected.count f) := by
  induction rounds generalizing f collected before with
  | zero => cases hrounds
  | succ rounds ih =>
    obtain ⟨cell, below, hbelow⟩ := h.started
    rw [Operator.drainInto]
    have hread : Ends (Pull.inInput op.name Chunk.fresh Frame.afterInput op.pull) f fun chunk g =>
        T.Handed op.types chunk ∧ g.out = f.out ∧ g.cell = f.cell ∧ Sure T op g.below ∧
          chunk.count + op.rowsBelow g.below ≤ op.rowsBelow f.below := by
      refine .inInput hbelow ((Sure.step (hbelow ▸ h) Chunk.fresh).mono fun _ g hstep => ?_)
      exact ⟨hstep.1, rfl, rfl, hstep.2.1, hbelow ▸ hstep.2.2⟩
    refine hread.bind fun chunk g hg => ?_
    obtain ⟨hchunk, hout, hcell, hleft, hfewer⟩ := hg
    refine .ite (fun _ => .pure ⟨hout, ⟨f.cell.reserved, hcell⟩, ⟨before, hc⟩, Nat.le_add_right _ _⟩) fun he => ?_
    have hrow := Chunk.count_pos he
    refine .lift_bind (append_yields hc hchunk.sound hchunk.typed (by omega)) fun appended happended => ?_
    obtain ⟨⟨more, hmore⟩, hcount⟩ := happended
    refine (Ends.reserve appended.2).bind fun _ k hreserved => ?_
    obtain ⟨held, pool, hk⟩ := hreserved
    have hbooks : k.below = g.below ∧ k.out = f.out ∧ k.cell = { f.cell with reserved := held } := by
      rw [hk, hcell]
      exact ⟨rfl, hout, rfl⟩
    obtain ⟨hkbelow, hkout, hkcell⟩ := hbooks
    refine (ih (hkbelow ▸ hleft) (by rw [hkbelow]; omega) hmore (by rw [hkbelow]; omega)).mono fun coll k' hk' => ?_
    obtain ⟨held', hheld⟩ := hk'.cell
    have hbounded := hk'.bounded
    rw [hkbelow] at hbounded
    exact ⟨hk'.out.trans hkout, ⟨held', by rw [hheld, hkcell]⟩, hk'.holds, by omega⟩

/-- All rows of an input that can be counted are read. -/
theorem drain (h : Sure T op f.below) (hle : op.rowsBelow f.below ≤ maxCount) : Ends op.drain f (Drained op 0 f) := by
  have hbound : (Collection.ofTypes op.types).count + op.rowsBelow f.below ≤ maxCount := by
    rw [Collection.ofTypes, Nat.zero_add]
    exact hle
  exact .step rfl (h.drainInto _ (Nat.lt_succ_self _) (Collection.holds_ofTypes _) hbound)

/-- An operator whose pull is its own work around which an answer is made that is not
verified. `K` holds of the cells between pulls while there may be more to come. -/
theorem of_work {K : Cell → List Cell → Prop} {work : Pull Unit} {rows : List Row} (hsees : ∀ masks, T.sees masks)
    (hverify : config.verify = false) (hpull : op.pull = Operator.answer config op.types work)
    (hgives : Gives T op op rows op.start.cells) (hK : K op.start.cell op.start.below)
    (hfinish : ∀ cell below, op.rowsLeft ⟨{ cell with finished := true }, below⟩ = op.rowsLeft ⟨cell, below⟩)
    (hwork : ∀ f, f.out = Chunk.blank op.types config.capacity → K f.cell f.below → Ends work f fun _ g =>
      (g.out.isEmpty = false → K g.cell g.below) ∧ g.out.count + op.rowsBelow g.cells ≤ op.rowsBelow f.cells) :
    Sure T op op.start.cells := by
  refine ⟨hsees, ⟨_, _, rfl⟩, ⟨rows, hgives⟩, UnlessFinished K, .inr hK, fun f hJ => ?_⟩
  have hJ : f.cell.finished = true ∨ K f.cell f.below := hJ
  rw [hpull, Operator.answer, hverify]
  refine .step (a := ()) (t := { f with out := Chunk.blank op.types config.capacity }) rfl (.step rfl (.ite (fun hf => ?_)
    fun hf => ?_))
  · refine .pure ⟨.inl hf, ?_⟩
    exact Nat.le_of_eq (Nat.zero_add _)
  have hcells : op.rowsBelow (Frame.cells { f with out := Chunk.blank op.types config.capacity }) = op.rowsBelow f.cells :=
    rfl
  refine (hwork { f with out := Chunk.blank op.types config.capacity } rfl (hJ.resolve_left hf)).bind
    fun _ g hdone => ?_
  obtain ⟨hg, hfewer⟩ := hdone
  rw [hcells] at hfewer
  refine .step rfl (.ite (fun he => ?_) fun he => ?_)
  · refine .of_ok (t := { g with cell := { g.cell with finished := true } }) rfl ⟨.inl rfl, ?_⟩
    show g.out.count + op.rowsLeft _ ≤ _
    rw [hfinish]
    exact hfewer
  · exact .of_ok rfl ⟨.inr (hg (Bool.eq_false_iff.mpr he)), hfewer⟩

end Sure
end QueryEngine
