import QueryEngine.Proofs.Pull.EnduringChunks
import QueryEngine.Proofs.Pull.Join

/-! Operators with two inputs that outlast failures.

The right input is read from a state of its own, so a failure leaves none of it in the cell.
What was found in the left chunk of the buffer is either handed out before the next one is
fetched or forgotten with it. -/
namespace QueryEngine.Operator
open Pull
variable {left right : Operator} {sees : List (Nat × Mask) → Prop} {config : Config} {f : Frame}

/-! ### Cross products -/

/-- The right side in the cell, and the left chunk that its rows are paired with. -/
structure CrossSide (left right : Operator) (cell : Cell) (side : Output) : Prop where
  progress : cell.progress = .cross (some side)
  lists : ∃ rows, Lists side.columns right.types rows
  buffer : side.position < side.rows → (cell.buffer.Sound ∧ cell.buffer.types = left.types) ∧ cell.buffer.isEmpty = false

/-- What holds of a cross product between pulls, whether they succeed or fail. -/
def Crossed (sees : List (Nat × Mask) → Prop) (left right : Operator) (cell : Cell) (below : List Cell) : Prop :=
  left.Enduring sees below ∧ (cell.progress = .cross none ∨ ∃ side, CrossSide left right cell side)

def crossing (sees : List (Nat × Mask) → Prop) (left right : Operator) : Promise := keeping sees (Crossed sees left right)

section
variable {side : Output}

/-- A chunk is fetched when the one in the buffer has met every right row. -/
theorem leaves_crossLeft (hs : sees f.session.masks) (hleft : left.Enduring sees f.below)
    (h : CrossSide left right f.cell side) :
    Leaves (crossLeft left side) f (crossing sees left right).holds (crossing sees left right).left := by
  refine .ite (fun _ => .step rfl (.pure ⟨hs, hleft, .inr ⟨side, h⟩⟩)) fun hmet => ?_
  have hkept (g : Frame) (hg : Refreshed left sees f g) : Crossed sees left right g.cell g.below := by
    refine ⟨hg.enduring, .inr ⟨side, ?_, h.lists, fun hmore => absurd hmore hmet⟩⟩
    rw [hg.cell]
    exact h.progress
  exact ((Enduring.fetch hleft hs).mono (fun g hg => ⟨hg.2.2.1, hkept g hg.1⟩) fun _ g hg => hkept g hg.1).bind
    fun _ _ hg => .pure hg

theorem leaves_crossPair (hs : sees f.session.masks) (hleft : left.Enduring sees f.below)
    (h : CrossSide left right f.cell side) (hf : f.cell.finished = false) (hout : f.out = Chunk.blank (left.types ++ right.types) config.capacity) :
    Leaves (do
      if side.rows = 0 then return
      let some (chunk, side) ← crossLeft left side | return
      setProgress (.cross (some { side with position := side.position + 1 }))
      filling (pairRow (left.types ++ right.types) side chunk)) f
      (fun g => (g.out.Sound ∧ g.out.types = left.types ++ right.types) ∧ (crossing sees left right).holds g)
      (crossing sees left right).left := by
  obtain ⟨rest, hgives⟩ := hleft.gives config
  obtain ⟨rows, hrows⟩ := h.lists
  have hbuffer (hmore : side.position < side.rows) :
      (anyRows config sees).Handed left.types f.cell.buffer ∧ f.cell.buffer.isEmpty = false :=
    ⟨⟨(h.buffer hmore).1.1, (h.buffer hmore).1.2, False.elim⟩, (h.buffer hmore).2⟩
  refine .with_ok ?_ fun _ g hg => ?_
  · refine .ite (fun _ => .pure ⟨hs, hleft, .inr ⟨side, h⟩⟩) fun _ => ?_
    refine (leaves_crossLeft hs hleft h).bind_run fun found g hrun hg => ?_
    obtain ⟨-, -, -, -, hfound⟩ := (agree_crossLeft hgives hs hbuffer).2 found g hrun
    cases found with
    | none => exact .pure hg
    | some pair =>
      obtain ⟨hchunk, hhanded, hfull, hcolumns⟩ := hfound pair.1 pair.2 rfl
      refine .step rfl (keeping_filling _ ⟨hg.1, hg.2.1, .inr ⟨_, rfl, ⟨rows, hcolumns ▸ hrows⟩, fun _ => ?_⟩⟩)
      rw [← hchunk] at hhanded hfull
      exact ⟨⟨hhanded.sound, hhanded.typed⟩, hfull⟩
  · have hwork : Worked (anyRows config sees) (left.types ++ right.types)
        (Crossing (anyRows config sees) left left right.types) [] g :=
      (agree_crossPair id hgives hrows hf hout hs hbuffer).2 () g hg
    exact ⟨hwork.handed.sound, hwork.handed.typed⟩

theorem crossRight_run {g : Frame} (hright : right.Proper sees right.start.cells) (hs : sees f.session.masks)
    (h : crossRight right f = .ok side g) : CrossSide left right g.cell side ∧ sees g.session.masks ∧ g.out = f.out ∧
      g.below = f.below ∧ g.cell.finished = f.cell.finished := by
  obtain ⟨⟨hrows, hmet⟩, hsees, hout, hbelow, held, hcell⟩ := keepRight_run
    (Q := fun side => (∃ rows, Lists side.columns right.types rows) ∧ side.position = side.rows)
    (k := fun side => .cross (some side)) hright hs
    (fun buffered all g hall => .lift_bind fun columns hcolumns => .pure ⟨⟨⟨all, hall.materialize hcolumns⟩, rfl⟩, .self g⟩) h
  exact ⟨⟨by rw [hcell], hrows, fun hmore => by omega⟩, hsees, hout, hbelow, by rw [hcell]⟩

theorem enduring_cross (hleft : left.Enduring sees left.start.cells) (hright : right.Proper sees right.start.cells) :
    (cross config left right).Enduring sees (cross config left right).start.cells := by
  refine .of_work (K := Crossed sees left right) rfl
    (fun _ _ h => ⟨h.1, h.2.imp_right fun ⟨side, h⟩ => ⟨side, h.progress, h.lists, h.buffer⟩⟩)
    (fun f hf hout ⟨hs, hleft, hp⟩ => .step rfl ?_) ⟨hleft, .inl rfl⟩
  rcases hp with hp | ⟨side, h⟩
  · simp only [hp]
    have hfails : Fails (crossRight right) f fun _ g => Crossed sees left right g.cell g.below :=
      (fails_keepRight fun _ _ _ => .bind (.lift _) fun _ => .pure _).mono fun _ g ⟨⟨held, hcell⟩, hbelow⟩ =>
        ⟨hbelow ▸ hleft, .inl (by rw [hcell]; exact hp)⟩
    have hright' : Leaves (crossRight right) f (fun _ => True) (crossing sees left right).left :=
      ⟨fun _ _ _ => trivial, hfails⟩
    refine hright'.bind_run fun side g hrun _ => ?_
    obtain ⟨hside, hsees, hg, hbelow, hfinished⟩ := crossRight_run hright hs hrun
    exact leaves_crossPair hsees (hbelow ▸ hleft) hside (hfinished.trans hf) (hg.trans hout)
  · simp only [h.progress]
    exact leaves_crossPair hs hleft h hf hout

end

/-! ### Joins -/

/-- What holds of a join between pulls, whether they succeed or fail. A crash takes the right side out of the cell. -/
structure Joined (sees : List (Nat × Mask) → Prop) (left : Operator) (J : JoinTerms) (cell : Cell) (below : List Cell)
    (p : JoinProgress) : Prop where
  progress : cell.progress = .join p
  left : left.Enduring sees below
  indexed : ∀ side, p.side = some side → ∃ rows, side.Indexes J.rightTypes J.common J.keys.right rows
  pending : p.emitted < p.pending.length → (J.kind = .inner ∨ J.kind = .left) ∧ cell.buffer.types = J.leftTypes

def joining (sees : List (Nat × Mask) → Prop) (left : Operator) (J : JoinTerms) : Promise :=
  keeping sees fun cell below => ∃ p, Joined sees left J cell below p

section
variable {J : JoinTerms} {p : JoinProgress} {side : JoinSide} {keys : List Expr}

theorem leaves_handOutPairs_joined (hs : sees f.session.masks) (h : Joined sees left J f.cell f.below p)
    (howed : p.emitted < p.pending.length) :
    Leaves (handOutPairs side p) f (joining sees left J).holds (joining sees left J).left := by
  refine .step rfl (.lift_bind (fun e _ => ⟨p, h⟩) fun stop _ => .step rfl (.step rfl (keeping_filling _ ⟨hs, ?_⟩)))
  exact ⟨_, rfl, h.left, h.indexed, fun _ => h.pending howed⟩

theorem leaves_probe_joined (hl : left.types = J.leftTypes) (rounds : Nat) (hs : sees f.session.masks)
    (h : Joined sees left J f.cell f.below p) :
    Leaves (probe J.kind keys left right side rounds p) f (joining sees left J).holds (joining sees left J).left := by
  induction rounds generalizing f p with
  | zero => exact .throw ⟨p, h⟩
  | succ rounds ih =>
    rw [probe]
    refine .ite (leaves_handOutPairs_joined hs h) fun _ => ?_
    -- nothing is owed while a chunk is fetched
    have hidle {g : Frame} (hp : g.cell.progress = .join { p with pending := [], emitted := 0 })
        (hleft : left.Enduring sees g.below) : Joined sees left J g.cell g.below { p with pending := [], emitted := 0 } :=
      ⟨hp, hleft, h.indexed, fun hmore => absurd hmore (Nat.lt_irrefl 0)⟩
    let idle : Frame := { f with cell := { f.cell with progress := .join { p with pending := [], emitted := 0 } } }
    refine .step (g := idle) rfl (.ite (fun _ => .pure ⟨hs, _, hidle rfl h.left⟩) fun _ => ?_)
    refine Leaves.bind_run ((Enduring.fetch (f := idle) h.left hs).mono (fun _ hg => hg) fun e g hg => ?_)
      fun chunk g hrun hg => ?_
    · exact ⟨_, hidle (by rw [hg.1.cell]) hg.1.enduring⟩
    obtain ⟨hg, hbuffer, hsees, -⟩ := hg
    have hkept : (joining sees left J).holds g := ⟨hsees, _, hidle (by rw [hg.cell]) hg.enduring⟩
    refine .ite (fun _ => .pure hkept) fun _ => .ite (fun _ => keeping_filling _ hkept) fun _ => ?_
    refine .lift_bind (fun _ _ => hkept.2) fun keyColumns _ => ?_
    generalize hprobe : probeRows J.kind side keyColumns chunk.activeRows = answer
    obtain ⟨flags, pairs⟩ := answer
    have hnone (hkind : ¬(J.kind = .inner ∨ J.kind = .left)) : pairs = [] := by
      have hnopairs := probeRows_nil hkind side keyColumns chunk.activeRows
      rw [hprobe] at hnopairs
      exact hnopairs
    let owing : Frame := { g with cell := { g.cell with progress := .join { p with pending := pairs, emitted := 0 } } }
    have howing : Joined sees left J owing.cell owing.below { p with pending := pairs, emitted := 0 } :=
      ⟨rfl, hg.enduring, h.indexed, fun hmore =>
        ⟨not_not.mp fun hkind => List.ne_nil_of_length_pos hmore (hnone hkind), hbuffer.2.trans hl⟩⟩
    have hgo (kind : JoinKind) (hk : J.kind = kind) (d : Chunk) :
        Leaves (probe kind keys left right side rounds { p with pending := pairs, emitted := 0 }) { owing with out := d }
          (joining sees left J).holds (joining sees left J).left := by
      subst hk
      exact ih (f := { owing with out := d }) hsees howing
    refine .step (g := owing) rfl (.liftQuery_bind (fun _ _ => ⟨_, howing⟩) fun flags _ => ?_)
    cases hk : J.kind with
    | inner => exact hgo .inner hk g.out
    | left => exact hgo .left hk g.out
    | semi => exact .filling_or (fun _ => ⟨hsees, _, howing⟩) (fun _ _ => ⟨_, howing⟩) (hgo .semi hk)
    | anti => exact .filling_or (fun _ => ⟨hsees, _, howing⟩) (fun _ _ => ⟨_, howing⟩) (hgo .anti hk)
    | mark => exact keeping_filling _ ⟨hsees, _, howing⟩

theorem Joined.forgetSide (h : Joined sees left J f.cell f.below p) :
    Joined sees left J f.forgetSide.cell f.forgetSide.below { p with side := none } := by
  rw [Frame.forgetSide, h.progress]
  exact ⟨rfl, h.left, fun _ hside => (by cases hside), h.pending⟩

theorem leaves_probeLent (hkey : KeyOn keys J.leftTypes J.common J.keys.left) (hl : left.types = J.leftTypes)
    (hr : right.types = J.rightTypes) (hs : sees f.session.masks)
    (h : Joined sees left J f.cell f.below { p with side := some side }) (hf : f.cell.finished = false) (hout : f.out = Chunk.blank J.types config.capacity) :
    Leaves (do
      let rounds := (← left.rounds) + 1
      lendingSide (probe J.kind keys left right side rounds { p with side := some side })) f
      (fun g => (g.out.Sound ∧ g.out.types = J.types) ∧ (joining sees left J).holds g) (joining sees left J).left := by
  refine .with_ok (.step rfl (leaves_lent (leaves_probe_joined hl _ hs h) (fun _ _ hg _ => hg) fun g ⟨q, hq⟩ =>
    ⟨_, hq.forgetSide⟩)) fun _ g hg => ?_
  obtain ⟨given, hgives⟩ := h.left.gives config
  obtain ⟨rows, hindexed⟩ := h.indexed side rfl
  have howing : Owing (anyRows config sees) J given [] f.cell.buffer { p with side := some side } side :=
    ⟨rfl, ⟨rows, hindexed, False.elim⟩, h.pending, False.elim⟩
  have hhanded := ((agree_probeLent hkey hl hr hr hgives howing hf hout hs).2 () g hg).handed
  exact ⟨hhanded.sound, hhanded.typed⟩

theorem enduring_join {on : List (Expr × Expr)} (hl : left.types = J.leftTypes) (hr : right.types = J.rightTypes)
    (hleftKey : KeyOn (on.map Prod.fst) J.leftTypes J.common J.keys.left)
    (hrightKey : KeyOn (on.map Prod.snd) J.rightTypes J.common J.keys.right)
    (hleft : left.Enduring sees left.start.cells) (hright : right.Proper sees right.start.cells) :
    (join config J.kind on left right).Enduring sees (join config J.kind on left right).start.cells := by
  have htypes : (join config J.kind on left right).types = J.types := by
    show J.kind.outputTypes left.types right.types = _
    rw [hl, hr, JoinTerms.types]
  have hstart : Joined sees left J (join config J.kind on left right).start.cell left.start.cells ⟨none, [], 0⟩ :=
    ⟨rfl, hleft, fun _ hside => (by cases hside), fun hmore => absurd hmore (Nat.lt_irrefl 0)⟩
  refine .of_work (K := fun cell below => ∃ p, Joined sees left J cell below p) rfl
    (fun cell below h => ?_) (fun f hf hout hkept => ?_) ⟨_, hstart⟩
  · obtain ⟨p, h⟩ := h
    exact ⟨p, h.progress, h.left, h.indexed, h.pending⟩
  obtain ⟨hs, p, h⟩ := hkept
  rw [htypes] at hout ⊢
  refine .step rfl ?_
  simp only [h.progress]
  cases hside : p.side with
  | some side =>
    have hsame : ({ p with side := some side } : JoinProgress) = p := by rw [← hside]
    exact leaves_probeLent hleftKey hl hr hs (hsame.symm ▸ h) hf hout
  | none =>
    have hkept (g : Frame) (held : Nat) (hcell : g.cell = { f.cell with reserved := held }) (hbelow : g.below = f.below) :
        Joined sees left J g.cell g.below p :=
      ⟨by rw [hcell]; exact h.progress, hbelow ▸ h.left, h.indexed, by rw [hcell]; exact h.pending⟩
    have hfails : Fails (joinRight (on.map Prod.snd) right p) f (joining sees left J).left := by
      refine (fails_keepRight fun _ hbooks => preserves_finishJoin hbooks _).mono fun _ g hg => ?_
      obtain ⟨⟨held, hcell⟩, hbelow⟩ := hg
      exact ⟨p, hkept g held hcell hbelow⟩
    have hright' : Leaves (joinRight (on.map Prod.snd) right p) f (fun _ => True) (joining sees left J).left :=
      ⟨fun _ _ _ => trivial, hfails⟩
    refine hright'.bind_run fun side g hrun _ => ?_
    obtain ⟨⟨rows, hindexed⟩, hsees, hg, hbelow, held, hcell⟩ := keepRight_run
      (Q := fun side => ∃ rows, side.Indexes J.rightTypes J.common J.keys.right rows)
      (k := fun side => .join { p with side := some side }) hright hs (fun buffered all g hall =>
        .lift_bind fun columns hcolumns => .lift_bind fun side hside => (Pull.Agree.reserve _).bind fun _ g' hg' =>
          .pure ⟨⟨all, JoinSide.ofColumns_ok (hr ▸ hall.materialize hcolumns) hrightKey (hall.counted ▸ hside)⟩, hg'⟩) hrun
    have hjoined : Joined sees left J g.cell g.below { p with side := some side } :=
      ⟨by rw [hcell], hbelow ▸ h.left, fun _ hside => Option.some.inj hside ▸ ⟨rows, hindexed⟩,
        by rw [hcell]; exact h.pending⟩
    exact leaves_probeLent hleftKey hl hr hsees hjoined (by rw [hcell]; exact hf) (hg.trans hout)

end

end QueryEngine.Operator
