import QueryEngine.Proofs.Group.HandedOut
import QueryEngine.Proofs.Pull.Delete
import QueryEngine.Proofs.Pull.Enduring
import QueryEngine.Proofs.Pull.Leaf
import QueryEngine.Proofs.Pull.Streaming
import QueryEngine.Proofs.Sort.Ordered
import QueryEngine.Proofs.Window.Extended

/-! Operators that outlast failures: without inputs, and with one.

What such an operator has in its cell is changed by the steps of a pull one at a time, so each of
them keeps to what the next pull needs, whether the pull goes on or fails behind it (`onInput`).
That the chunk is sound where a pull succeeds is what the operators give (`Enduring.of_input`). -/
namespace QueryEngine.Operator
open Pull
variable {op input left right : Operator} {sees : List (Nat × Mask) → Prop} {config : Config} {K : Cell → List Cell → Prop}
  {P : Progress → Prop} {f : Frame}

/-- The input goes on to endure, and the progress is as `P` tells. -/
def onInput (input : Operator) (sees : List (Nat × Mask) → Prop) (P : Progress → Prop) : Promise :=
  keeping sees fun cell below => P cell.progress ∧ input.Enduring sees below

/-- Nothing is asked of the rows. -/
def anyRows (config : Config) (sees : List (Nat × Mask) → Prop) : Terms := ⟨config.capacity, False, False, sees⟩

theorem Enduring.gives {cells : List Cell} (h : input.Enduring sees cells) (config : Config) :
    ∃ rows, Gives (anyRows config sees) input input rows cells := h.proper.gives_untold config.capacity

/-! ### Steps -/

theorem keeping_filling {α : Type} {step : Filling α} : Preserves (Pull.filling step) (keeping sees K) :=
  .filling fun _ _ h => h

theorem keeping_changeOut (change : Chunk → Chunk) : Preserves (changeOut change) (keeping sees K) := .modify fun _ h => h

theorem keeping_rounds : Preserves input.rounds (keeping sees K) := Preserves.get.bind fun _ => .pure _

theorem onInput_reserve (bytes : Nat) : Preserves (reserve bytes) (onInput input sees P) :=
  .reserve (fun _ _ ⟨_, _, hg⟩ h => hg ▸ h) bytes

theorem onInput_setProgress {p : Progress} (hp : P p) : Preserves (setProgress p) (onInput input sees P) :=
  .modify fun _ h => ⟨h.1, hp, h.2.2⟩

theorem onInput_progress {next : Progress → Pull Unit} (h : ∀ p, P p → Preserves (next p) (onInput input sees P)) :
    Preserves (do next (← progress)) (onInput input sees P) := fun f hf => .step rfl (h _ hf.2.1 f hf)

/-- Reading a chunk changes the cells below, and the buffer of the cell. -/
theorem onInput_read {name : String} {out : Chunk} {after : Frame → Frame → Frame}
    (hafter : ∀ f g, (after f g).cell.progress = f.cell.progress ∧ (after f g).session = g.session ∧
      (after f g).below = g.cells) :
    Preserves (inInput name out after input.pull) (onInput input sees P) := by
  refine .inInput fun f cell below hf hbelow => ?_
  obtain ⟨hs, hp, hleft⟩ := hf
  rw [hbelow] at hleft
  have hkept (g : Frame) (hg : input.Enduring sees g.cells) :
      P (after f g).cell.progress ∧ input.Enduring sees (after f g).below := by
    obtain ⟨hprogress, -, hcells⟩ := hafter f g
    rw [hprogress, hcells]
    exact ⟨hp, hg⟩
  obtain ⟨hok, hfails⟩ := Enduring.step (f := ⟨cell, below, f.session, out⟩) hleft hs
  refine ⟨fun a g hg => ?_, fun e g hg => hkept g (hfails e g hg)⟩
  obtain ⟨-, hsees, hg⟩ := hok a g hg
  refine ⟨?_, hkept g hg⟩
  rw [(hafter f g).2.1]
  exact hsees

theorem onInput_readInto : Preserves (inInput input.name Chunk.fresh Frame.afterInput input.pull) (onInput input sees P) :=
  onInput_read fun _ _ => ⟨rfl, rfl, rfl⟩

theorem onInput_fetch : Preserves input.fetch (onInput input sees P) :=
  Preserves.get.bind fun _ => onInput_read fun _ _ => ⟨rfl, rfl, rfl⟩

/-! ### Without inputs -/

theorem enduring_empty (types : List SqlType) : (empty config types).Enduring sees (empty config types).start.cells := by
  refine .of_work (K := fun _ _ => True) rfl (fun _ _ h => h) (fun f _ hout hf => .pure ⟨?_, hf⟩) trivial
  rw [hout]
  exact ⟨Chunk.sound_blank _ _, Chunk.types_blank _ _⟩

theorem enduring_source {types : List SqlType} {chunks : List Chunk}
    (hchunks : ∀ chunk ∈ chunks, chunk.Sound ∧ chunk.types = types) :
    (source config types chunks).Enduring sees (source config types chunks).start.cells := by
  refine .of_work (K := fun _ _ => True) rfl (fun _ _ h => h) (fun f _ hout hf => .step rfl ?_) trivial
  cases hget : chunks[f.cell.buffer.count]? with
  | none =>
    simp only [hget]
    refine .pure ⟨?_, hf⟩
    rw [hout]
    exact ⟨Chunk.sound_blank _ _, Chunk.types_blank _ _⟩
  | some chunk =>
    simp only [hget]
    obtain ⟨hsound, htyped⟩ := hchunks chunk (List.mem_of_getElem? hget)
    exact .step rfl (.of_ok rfl ⟨⟨hsound.reference _, htyped⟩, hf⟩)

theorem enduring_scan {table : Provider} {refs : List ColumnRef} {types : List SqlType} (htypes : refs.length = types.length) :
    (scan config table refs types).Enduring sees (scan config table refs types).start.cells := by
  let K (cell : Cell) (_ : List Cell) : Prop := ∃ offset, cell.progress = .scan offset
  refine .of_work (K := K) rfl (fun _ _ h => h) (fun f hf hout ⟨hs, offset, hp⟩ => .step rfl ?_) ⟨0, rfl⟩
  simp only [hp]
  refine .with_ok ?_ fun _ g hg => ?_
  · have hset (offset : Nat) : Preserves (setProgress (.scan offset)) (keeping sees K) :=
      .modify fun _ h => ⟨h.1, offset, rfl⟩
    refine (Preserves.get.bind fun f => Preserves.out.bind fun chunk => (hset _).bind fun _ =>
      (Preserves.liftQuery _).bind fun found => ?_ : Preserves _ _) f ⟨hs, offset, hp⟩
    cases found with
    | some w => exact keeping_filling
    | none => exact .pure ()
  · have hmask : False → ([] : Mask).length = table.table.rows ∧
        ∀ session : Session, sees session.masks → session.mask table = [] := False.elim
    have hhanded := ((agree_scanWindow (T := anyRows config sees) htypes hmask hf hout hs
      fun _ => Eq.refl (table.liveFrom [] refs offset)).2 () g hg).handed
    exact ⟨hhanded.sound, hhanded.typed⟩

/-! ### One input -/

/-- An operator whose work keeps its progress to `P`, and fills a sound chunk over an input that hands out such chunks. -/
theorem Enduring.of_input {work : Pull Unit} (hpull : op.pull = answer config op.types work)
    (hkept : Preserves work (onInput input sees P))
    (hagree : ∀ (f : Frame) rows, f.cell.finished = false → f.out = Chunk.blank op.types config.capacity → P f.cell.progress →
      sees f.session.masks → Gives (anyRows config sees) input input rows f.below →
      Pull.Agree work work f fun _ g => (anyRows config sees).Handed op.types g.out)
    (hp : P op.start.cell.progress) (hinput : input.Enduring sees op.start.below) : op.Enduring sees op.start.cells := by
  refine .of_work (K := fun cell below => P cell.progress ∧ input.Enduring sees below) hpull (fun _ _ h => h)
    (fun f hf hout hK => .with_ok (hkept f hK) fun _ g hg => ?_) ⟨hp, hinput⟩
  obtain ⟨hs, hp, hinput⟩ := hK
  obtain ⟨rows, hgives⟩ := hinput.gives config
  have hhanded := (hagree f rows hf hout hp hs hgives).2 () g hg
  exact ⟨hhanded.sound, hhanded.typed⟩

section
variable (h : input.Enduring sees input.start.cells)
include h

theorem enduring_filter (ps : List Expr) : (filter config ps input).Enduring sees (filter config ps input).start.cells := by
  have hchunks (rounds : Nat) : Preserves (filterChunks input ps rounds) (onInput input sees fun _ => True) := by
    induction rounds with
    | zero => exact .throw _
    | succ rounds ih =>
      exact onInput_fetch.bind fun chunk => .ite (.pure ()) (keeping_filling.bind fun _ =>
        Preserves.out.bind fun _ => .ite (.pure ()) ((keeping_changeOut _).bind fun _ => ih))
  refine .of_input (P := fun _ => True) rfl (keeping_rounds.bind fun _ => hchunks _) (fun f rows hf hout _ hs hgives => ?_) trivial h
  exact .step rfl ((agree_filterChunks _ hgives hf hout hs fun _ => rfl).mono fun _ _ hg => hg.handed)

theorem enduring_project {exprs : List Expr} {types : List SqlType} (hlen : exprs.length = types.length) :
    (project config exprs types input).Enduring sees (project config exprs types input).start.cells := by
  refine .of_input (P := fun _ => True) rfl (onInput_fetch.bind fun _ => .ite (.pure ()) keeping_filling)
    (fun f rows hf hout _ hs hgives => ?_) trivial h
  exact (agree_mapChunk (fun c d hc _ hd => projectChunk_ok hc hlen hd) ⟨rows, hgives, fun _ => rfl⟩ hf hout hs).mono
    fun _ _ hg => hg.handed

theorem enduring_prune (limit : Nat) : (prune config limit input).Enduring sees (prune config limit input).start.cells := by
  refine .of_input (P := fun _ => True) rfl (onInput_fetch.bind fun _ => .ite (.pure ()) keeping_filling)
    (fun f rows hf hout _ hs hgives => ?_) trivial h
  exact (agree_mapChunk (fun c d hc ht hd => pruneChunk_ok hc ht hd) ⟨rows, hgives, fun _ => rfl⟩ hf hout hs).mono
    fun _ _ hg => hg.handed

theorem enduring_limit (n : Option Nat) (offset : Nat) :
    (limit config n offset input).Enduring sees (limit config n offset input).start.cells := by
  let P (p : Progress) : Prop := ∃ seen, p = .limit seen
  have hchunks (stop : Option Nat) (rounds seen : Nat) :
      Preserves (limitChunks input stop offset rounds seen) (onInput input sees P) := by
    induction rounds generalizing seen with
    | zero => exact .throw _
    | succ rounds ih =>
      exact .ite (.pure ()) (onInput_fetch.bind fun chunk => .ite (.pure ()) ((Preserves.lift _).bind fun next =>
        (onInput_setProgress ⟨next, rfl⟩).bind fun _ => .ite (ih next) ((Preserves.lift _).bind fun _ => keeping_changeOut _)))
  refine .of_input (P := P) rfl (onInput_progress fun p hp => ?_)
    (fun f rows hf hout hp hs hgives => ?_) ⟨0, rfl⟩ h
  · obtain ⟨seen, rfl⟩ := hp
    exact keeping_rounds.bind fun _ => hchunks _ _ _
  · obtain ⟨seen, hp⟩ := hp
    refine .step rfl ?_
    simp only [hp]
    exact .step rfl ((agree_limitChunks _ hgives hf hout hs fun _ => rfl).mono fun _ _ hg => hg.handed)

end

/-! ### Buffered outputs -/

/-- There is no output yet, or a sound one. -/
def Keeping (keep : Option Output → Progress) (types : List SqlType) (p : Progress) : Prop :=
  p = keep none ∨ ∃ o all, p = keep (some o) ∧ o.Holds types all

section
variable {keep : Option Output → Progress} {types : List SqlType} {compute : Pull Output} {next : Progress → Pull Unit}
  {F : List Row → List Row}

theorem onInput_handOut {o : Output} {all : List Row} (ho : o.Holds types all) :
    Preserves (handOut keep o) (onInput input sees (Keeping keep types)) :=
  .ite (.pure ()) (Preserves.out.bind fun _ => keeping_filling.bind fun _ =>
    onInput_setProgress (.inr ⟨_, all, rfl, ho.lists, ho.counted⟩))

theorem onInput_buffering {α : Type} {m : Pull α} (h : Preserves m (onInput input sees P)) :
    Preserves (buffering m) (onInput input sees P) := by
  intro f hf
  obtain ⟨hok, hfails⟩ := h f hf
  refine ⟨fun a g hg => ?_, .buffering (hfails.mono fun _ _ hg => hg)⟩
  unfold buffering at hg
  split at hg
  · rename_i hm
    cases hg
    have hk := hok _ _ hm
    exact hk
  · cases hg

/-- Whether or not there is an output, it is sound where there is one; it is computed before it is kept. -/
theorem Blocking.enduring (hop : Blocking config op input keep compute next)
    (hcompute : ∀ (f : Frame) given, Gives (anyRows config sees) input input given f.below → sees f.session.masks →
      Pull.Agree compute compute f (Computed (anyRows config sees) op.types F given f))
    (hkept : Preserves compute (onInput input sees (Keeping keep op.types))) (h : input.Enduring sees input.start.cells) :
    op.Enduring sees op.start.cells := by
  refine .of_input (P := Keeping keep op.types) hop.pull (onInput_progress fun p hp => ?_)
    (fun f given hf hout hp hs hgives => .step rfl ?_) (by rw [hop.start]; exact .inl rfl) (by rw [hop.start]; exact h)
  · rcases hp with rfl | ⟨o, all, rfl, ho⟩
    · rw [hop.fresh]
      simp only [firstOutput, bind_assoc, pure_bind]
      intro f hf
      obtain ⟨given, hgives⟩ := hf.2.2.gives config
      refine (onInput_buffering hkept f hf).bind_run fun o g hrun hg => .step rfl ?_
      have hcomputed : Computed (anyRows config sees) op.types F given f o g :=
        (Pull.Agree.buffering ((hcompute f given hgives hf.1).mono fun o g hg =>
          ⟨hg.sees, hg.out, hg.unfinished, hg.position, hg.holds⟩)).2 o g hrun
      obtain ⟨all, hall, -⟩ := hcomputed.holds
      exact onInput_handOut hall _ ⟨hg.1, .inr ⟨o, all, rfl, hall⟩, hg.2.2⟩
    · rw [hop.kept]
      exact onInput_handOut ho
  · rcases hp with hp | ⟨o, all, hp, ho⟩
    · rw [hp, hop.fresh]
      exact (agree_firstOutput hcompute hf hout hs ⟨given, hgives, fun _ => rfl⟩).mono fun _ _ hg => hg.handed
    · rw [hp, hop.kept]
      have hwork : Pull.Agree (handOut keep o) (handOut keep o) f fun _ g => Worked (anyRows config sees) op.types
          (Buffered (anyRows config sees) input input keep op.types F) (all.drop o.position) g :=
        agree_handOut hf hout hs ho fun _ => rfl
      exact hwork.mono fun _ _ hg => hg.handed

end

section
variable (h : input.Enduring sees input.start.cells)
include h

theorem enduring_order (keys : List SortKey) : (order config keys input).Enduring sees (order config keys input).start.cells :=
  (blocking_order config keys input).enduring (fun _ _ hgives hs => agree_sortInput keys hgives hs)
    (preserves_sortInput onInput_reserve onInput_readInto keys) h

theorem enduring_window (calls : List WindowCall) :
    (window config calls input).Enduring sees (window config calls input).start.cells :=
  (blocking_window config calls input).enduring (fun _ _ hgives hs => agree_windowInput calls hgives hs)
    (preserves_windowInput onInput_reserve onInput_readInto calls) h

theorem enduring_aggregate (keys : List Expr) (keyTypes : List SqlType) (calls : List AggregateCall) :
    (aggregate config keys keyTypes calls input).Enduring sees (aggregate config keys keyTypes calls input).start.cells :=
  (blocking_aggregate config keys keyTypes calls input).enduring (fun _ _ hgives hs => agree_groupInput keyTypes hgives hs)
    (preserves_groupInput onInput_reserve onInput_fetch keys keyTypes calls) h

/-- What is known of the masks has to hold whatever is deleted. -/
theorem enduring_delete (hfree : ∀ masks, sees masks) (table : Provider) :
    (delete config table input).Enduring sees (delete config table input).start.cells := by
  let P (p : Progress) : Prop := ∃ deleted, p = .delete deleted
  have hset (deleted : Bool) : Preserves (setProgress (.delete deleted)) (onInput input sees P) :=
    onInput_setProgress ⟨deleted, rfl⟩
  have hids (ids : List Int64) : Preserves (deleteIds table ids) (onInput input sees P) :=
    fun f hf => .step rfl (.step rfl (Preserves.lift _ _ ⟨hfree _, hf.2⟩))
  have hchunks (rounds deleted : Nat) : Preserves (deleteChunks table input rounds deleted) (onInput input sees P) := by
    induction rounds generalizing deleted with
    | zero => exact .throw _
    | succ rounds ih =>
      exact onInput_fetch.bind fun chunk => .ite (.pure _) (.bind (.lift _) fun _ => (hids _).bind fun _ => ih _)
  refine .of_input (P := P) rfl (onInput_progress fun p hp => ?_)
    (fun f given hf hout hp hs hgives => .step rfl ?_) ⟨false, rfl⟩ h
  · obtain ⟨deleted, rfl⟩ := hp
    cases deleted with
    | true => exact .pure ()
    | false => exact keeping_rounds.bind fun _ => (hchunks _ _).bind fun _ => (hset _).bind fun _ => keeping_filling
  · obtain ⟨deleted, hp⟩ := hp
    cases deleted with
    | true =>
      simp only [hp]
      exact .pure (hout ▸ (anyRows config sees).handed_blank _)
    | false =>
      simp only [hp]
      refine .step rfl ((agree_deleteChunks table _ 0 hfree hgives).bind fun deleted g ⟨hg, _⟩ => .step rfl ?_)
      refine .filling fun _ d hd => ?_
      obtain ⟨hsound, htyped, htidy, -⟩ := handed_answer config.capacity ((hg.trans hout) ▸ hd)
      exact ⟨hsound, htyped, fun _ => htidy⟩

end

end QueryEngine.Operator
