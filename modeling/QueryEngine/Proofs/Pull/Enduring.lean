import QueryEngine.Proofs.Pull.Pairing
import QueryEngine.Proofs.Pull.Reads
import QueryEngine.Proofs.Pull.Refused

/-! Inputs that outlast failures.

Whoever has pulled an operator and was refused may pull it again. An input is `Enduring` if it
hands out sound chunks of its types whenever a pull succeeds, and still does so when pulls
between them have failed. A sequence of pulls of which any may fail is told with what each of
them answered (`Goes`). -/
namespace QueryEngine

namespace Pull.Leaves
variable {α β : Type} {f : Frame} {I I' : Frame → Prop} {E : Failure → Frame → Prop} {m : Pull α} {k : α → Pull β}

theorem pure {a : α} (h : I f) : Leaves (pure a) f I E := ⟨fun _ _ hm => (by cases hm; exact h), .pure⟩

theorem throw {e : Failure} (h : E e f) : Leaves (throw e : Pull α) f I E := ⟨fun _ _ hm => (by cases hm), .throw h⟩

theorem of_ok {a : α} {g : Frame} (hm : m f = .ok a g) (h : I g) : Leaves m f I E :=
  ⟨fun _ _ hrun => (by cases hm.symm.trans hrun; exact h), .of_ok hm⟩

theorem ite {c : Prop} [Decidable c] {m' : Pull α} (ht : c → Leaves m f I E) (he : ¬c → Leaves m' f I E) :
    Leaves (if c then m else m') f I E := by
  split
  · exact ht ‹_›
  · exact he ‹_›

theorem lift_bind {x : Except Failure α} (hx : ∀ e, x = .error e → E e f) (h : ∀ a, x = .ok a → Leaves (k a) f I E) :
    Leaves (liftM x >>= k) f I E := by
  refine ⟨fun b g hrun => ?_, .lift_bind hx fun a ha => (h a ha).2⟩
  obtain ⟨a, g', hfirst, hrest⟩ := run_bind_eq_ok.mp hrun
  obtain ⟨ha, rfl⟩ := run_lift_eq_ok.mp hfirst
  exact (h a ha).1 b g hrest

theorem liftQuery_bind {x : Except QueryError α} (hx : ∀ e, x = .error e → E (.error e) f)
    (h : ∀ a, x = .ok a → Leaves (k a) f I E) : Leaves (liftM x >>= k) f I E := by
  refine ⟨fun b g hrun => ?_, .liftQuery_bind hx fun a ha => (h a ha).2⟩
  obtain ⟨a, g', hfirst, hrest⟩ := run_bind_eq_ok.mp hrun
  obtain ⟨ha, rfl⟩ := run_liftQuery_eq_ok.mp hfirst
  exact (h a ha).1 b g hrest

/-- What is known of the step's success in another way. -/
theorem with_ok {Q : Frame → Prop} (h : Leaves m f I E) (hQ : ∀ a g, m f = .ok a g → Q g) : Leaves m f (fun g => Q g ∧ I g) E :=
  ⟨fun a g hm => ⟨hQ a g hm, h.1 a g hm⟩, h.2⟩

/-- Filling changes the chunk, whether it succeeds or fails. -/
theorem filling {step : Filling α} (h : ∀ d, I { f with out := d }) (hE : ∀ e d, E e { f with out := d }) :
    Leaves (Pull.filling step) f I E :=
  ⟨(Agree.filling fun _ d _ => h d).2, .filling fun e d _ => hE e d⟩

/-- A filled chunk is an answer where it has rows. -/
theorem filling_or {step : Filling Unit} {next : Pull Unit} (h : ∀ d, I { f with out := d })
    (hE : ∀ e d, E e { f with out := d }) (hnext : ∀ d, Leaves next { f with out := d } I E) :
    Leaves (do
      Pull.filling step
      if !(← Pull.out).isEmpty then return
      changeOut Chunk.reset
      next) f I E := by
  have hfilled : Leaves (Pull.filling step) f (fun k => ∃ d, k = { f with out := d }) E := .filling (fun d => ⟨d, rfl⟩) hE
  refine hfilled.bind fun _ k ⟨d, hd⟩ => ?_
  subst hd
  exact .step rfl (.ite (fun _ => .pure (h d)) fun _ => .step rfl (hnext d.reset))

end Pull.Leaves

namespace Operator
open Pull
variable {op input : Operator} {sees : List (Nat × Mask) → Prop} {cells cells' cells'' : List Cell}
  {fed more : List Chunk} {f g : Frame}

/-! ### Inputs -/

/-- From the cells every pull that succeeds hands out a sound chunk of the operator's types,
those after failing pulls too. -/
def Enduring (op : Operator) (sees : List (Nat × Mask) → Prop) (cells : List Cell) : Prop :=
  cells ≠ [] ∧ ∃ J : List Cell → Prop, J cells ∧ ∀ f, J f.cells → sees f.session.masks →
    Leaves op.pull f (fun g => (g.out.Sound ∧ g.out.types = op.types) ∧ sees g.session.masks ∧ J g.cells)
      fun _ g => J g.cells

theorem Enduring.step (h : op.Enduring sees f.cells) (hs : sees f.session.masks) :
    Leaves op.pull f
      (fun g => (g.out.Sound ∧ g.out.types = op.types) ∧ sees g.session.masks ∧ op.Enduring sees g.cells)
      fun _ g => op.Enduring sees g.cells := by
  obtain ⟨-, J, hJ, hstep⟩ := h
  have hleft (g : Frame) (hg : J g.cells) : op.Enduring sees g.cells := ⟨List.cons_ne_nil _ _, J, hg, hstep⟩
  exact (hstep f hJ hs).mono (fun g ⟨hout, hsees, hg⟩ => ⟨hout, hsees, hleft g hg⟩) fun _ g hg => hleft g hg

/-- Pulls from the cells, of which only one behind the others may fail, and the chunks they
hand out. -/
inductive Fetches (op : Operator) (sees : List (Nat × Mask) → Prop) (cells : List Cell) : List Chunk → List Cell → Prop
  | all {fed : List Chunk} {cells' : List Cell} (h : op.Reads sees cells fed cells') : Fetches op sees cells fed cells'
  | failed {fed : List Chunk} {cell : Cell} {below : List Cell} {session : Session} {out : Chunk} {e : Failure}
    {g : Frame} (h : op.Reads sees cells fed (cell :: below)) (hs : sees session.masks)
    (hpull : op.pull ⟨cell, below, session, out⟩ = .error e g) : Fetches op sees cells fed g.cells

theorem Reads.fetches (h : op.Reads sees cells fed cells') (h' : op.Fetches sees cells' more cells'') :
    op.Fetches sees cells (fed ++ more) cells'' := by
  cases h' with
  | all hmore => exact .all (h.append hmore)
  | failed hmore hs hpull => exact .failed (h.append hmore) hs hpull

/-! ### One chunk -/

/-- What fetching a chunk changes: the cell has it in the buffer. -/
structure Refreshed (input : Operator) (sees : List (Nat × Mask) → Prop) (f g : Frame) : Prop where
  out : g.out = f.out
  cell : g.cell = { f.cell with buffer := g.cell.buffer }
  enduring : input.Enduring sees g.below

theorem buffer_of_fetch {chunk : Chunk} (h : input.fetch f = .ok chunk g) : g.cell.buffer = chunk := by
  cases hi : f.input? f.cell.buffer with
  | none =>
    have hnone : input.fetch f = .error (.error (.internal (.noChildState input.name))) f := by
      show inInput input.name f.cell.buffer Frame.afterFetch input.pull f = _
      rw [inInput, hi]
    cases hnone.symm.trans h
  | some i =>
    rw [fetch_eq hi] at h
    split at h
    · cases h
      rfl
    · cases h

theorem Enduring.fetch (h : input.Enduring sees f.below) (hs : sees f.session.masks) :
    Leaves input.fetch f
      (fun g => Refreshed input sees f g ∧ (g.cell.buffer.Sound ∧ g.cell.buffer.types = input.types) ∧
        sees g.session.masks ∧ input.Reads sees f.below [g.cell.buffer] g.below)
      fun _ g => Refreshed input sees f g ∧ input.Fetches sees f.below [] g.below := by
  obtain ⟨cell, below, hbelow⟩ := List.exists_cons_of_ne_nil h.1
  have hi : f.input? f.cell.buffer = some ⟨cell, below, f.session, f.cell.buffer⟩ := by rw [Frame.input?, hbelow]
  rw [hbelow] at h
  obtain ⟨hok, hfails⟩ := Enduring.step (f := ⟨cell, below, f.session, f.cell.buffer⟩) h hs
  unfold Leaves Fails
  rw [fetch_eq hi]
  cases hpull : input.pull ⟨cell, below, f.session, f.cell.buffer⟩ with
  | ok a g =>
    obtain ⟨hout, hsees, henduring⟩ := hok a g hpull
    refine ⟨fun _ k hk => ?_, fun _ k hk => (by cases hk)⟩
    cases hk
    exact ⟨⟨rfl, rfl, henduring⟩, hout, hsees, hbelow ▸ .next hs hpull (.none _)⟩
  | error e g =>
    refine ⟨fun _ k hk => (by cases hk), fun _ k hk => ?_⟩
    cases hk
    exact ⟨⟨rfl, rfl, hfails e g hpull⟩, hbelow ▸ .failed (.none _) hs hpull⟩

/-! ### One pull -/

/-- Behind its work an answer marks the end, where the chunk is empty, and checks the chunk. -/
theorem leaves_answer {config : Config} {types : List SqlType} {work : Pull Unit} {I I' : Frame → Prop}
    {E : Failure → Frame → Prop} (hf : f.cell.finished = false)
    (hwork : Leaves work { f with out := Chunk.blank types config.capacity } I E) (hok : ∀ g, I g → I' g.ended)
    (hunsound : ∀ e g, I g → ¬g.out.Sound → E e g.ended) : Leaves (answer config types work) f I' E := by
  have hverify (c : Chunk) (k : Frame) : Leaves (if config.verify = true then (liftM c.verify : Pull Unit) else pure ()) k
      (· = k) fun _ k' => k' = k ∧ ¬c.Sound := by
    by_cases hc : c.Sound
    · rw [Pull.verify_of_sound config hc]
      exact .pure rfl
    · have hkept : Preserves (if config.verify = true then (liftM c.verify : Pull Unit) else pure ()) (· = k) :=
        .ite (.liftQuery _) (.pure _)
      exact (hkept k rfl).mono (fun _ hk => hk) fun _ _ hk => ⟨hk, hc⟩
  have hall := hwork.bind (k := fun _ => do
      let chunk ← Pull.out
      if chunk.isEmpty then Pull.finish
      if config.verify then chunk.verify) (I := I') fun _ g hg => by
    have hended (k : Frame) (hk : k = g.ended) : Leaves (if config.verify = true then (liftM g.out.verify : Pull Unit) else pure ())
        k I' E := (hverify g.out k).mono (fun k' hk' => hk' ▸ hk ▸ hok g hg) fun e k' ⟨hk', hc⟩ => hk' ▸ hk ▸ hunsound e g hg hc
    refine .step rfl (.ite (fun he => .step rfl (hended _ ?_)) fun he => hended g ?_)
    · rw [Frame.ended, if_pos he]
    · rw [Frame.ended, if_neg he]
  unfold Leaves Fails at hall ⊢
  simp only [answer_eq config types work hf]
  exact hall

/-- As long as no pull fails there is nothing to endure. -/
theorem Enduring.proper (h : op.Enduring sees cells) : op.Proper sees cells where
  started := h.1
  gives := by
    refine ⟨[], fun _ cells => op.Enduring sees cells, ⟨⟨rfl, rfl, rfl, rfl⟩, fun f _ hf hs => .of_ok fun a g hg => ?_⟩, h⟩
    obtain ⟨hout, hsees, hleft⟩ := (Enduring.step hf hs).1 a g hg
    exact ⟨⟨hout.1, hout.2, False.elim⟩, hsees, False.elim, [], hleft, False.elim⟩

/-- `K` holds of the cells, however a step ends, and of the masks all is known where it succeeds. -/
def keeping (sees : List (Nat × Mask) → Prop) (K : Cell → List Cell → Prop) : Promise where
  holds f := sees f.session.masks ∧ K f.cell f.below
  left _ f := K f.cell f.below
  le _ _ h := h.2

/-- An operator whose work keeps to `K`, however it ends, and fills a sound chunk where it succeeds. -/
theorem Enduring.of_work {K : Cell → List Cell → Prop} {config : Config} {work : Pull Unit}
    (hpull : op.pull = answer config op.types work)
    (hended : ∀ cell below, K cell below → K { cell with finished := true } below)
    (hwork : ∀ f : Frame, f.cell.finished = false → f.out = Chunk.blank op.types config.capacity → (keeping sees K).holds f →
      Leaves work f (fun g => (g.out.Sound ∧ g.out.types = op.types) ∧ (keeping sees K).holds g) (keeping sees K).left)
    (hstart : K op.start.cell op.start.below) : op.Enduring sees op.start.cells := by
  have hend (g : Frame) (hg : K g.cell g.below) : K g.ended.cell g.ended.below := by
    unfold Frame.ended
    split
    · exact hended _ _ hg
    · exact hg
  let J (cells : List Cell) : Prop := ∃ cell below, cells = cell :: below ∧ K cell below
  refine ⟨List.cons_ne_nil _ _, J, ⟨_, _, rfl, hstart⟩, fun f hf hs => ?_⟩
  obtain ⟨_, _, hcells, hf⟩ := hf
  cases hcells
  rw [hpull]
  cases hfinished : f.cell.finished with
  | true => exact .of_ok (answer_of_finished hfinished) ⟨⟨Chunk.sound_blank _ _, Chunk.types_blank _ _⟩, hs, _, _, rfl, hf⟩
  | false =>
    have hblank := hwork { f with out := Chunk.blank op.types config.capacity } hfinished rfl ⟨hs, hf⟩
    refine leaves_answer (I := fun g => (g.out.Sound ∧ g.out.types = op.types) ∧ (keeping sees K).holds g) hfinished
      (hblank.mono (fun _ hg => hg) fun _ g hg => ⟨_, _, rfl, hg⟩) (fun g hg => ?_) fun e g hg hunsound => absurd hg.1.1 hunsound
    obtain ⟨hout, hsees, hg⟩ := hg
    refine ⟨?_, ?_, _, _, rfl, hend g hg⟩
    · rw [Frame.out_ended]
      exact hout
    · rw [Frame.session_ended]
      exact hsees

/-! ### Right inputs -/

section
variable {α : Type} {right : Operator} {finish : Collection → Pull α} {k : α → Progress} {Q : α → Prop} {side : α}

/-- What is made of the right input goes into the cell. -/
theorem keepRight_run (hright : right.Proper sees right.start.cells) (hs : sees f.session.masks)
    (hfinish : ∀ buffered all g, buffered.Holds right.types all →
      Pull.Agree (finish buffered) (finish buffered) g fun a g' => Q a ∧ Booked g g')
    (h : (do
      let side ← drainRight right finish
      setProgress (k side)
      return side) f = .ok side g) :
    Q side ∧ sees g.session.masks ∧ g.out = f.out ∧ g.below = f.below ∧
      ∃ held, g.cell = { f.cell with progress := k side, reserved := held } := by
  obtain ⟨rows, hgives⟩ := hright.gives
  obtain ⟨side', g', hdrain, hrest⟩ := run_bind_eq_ok.mp h
  cases hrest
  obtain ⟨hside, haside⟩ :=
    (agree_drainRight hgives hs fun buffered all g hall _ => hfinish buffered all g hall).2 side g' hdrain
  obtain ⟨held, hcell⟩ := haside.cell
  refine ⟨hside, haside.sees, haside.out, haside.below, held, ?_⟩
  show ({ g'.cell with progress := k side } : Cell) = _
  rw [hcell]

/-- Where nothing can be made of it, the cell is as it was but for the bytes that it holds. -/
theorem fails_keepRight
    (hfinish : ∀ (I : Frame → Prop), (∀ f g, Booked f g → I f → I g) → ∀ collection, Preserves (finish collection) I) :
    Fails (do
      let side ← drainRight right finish
      setProgress (k side)
      return side) f fun _ g => (∃ held, g.cell = { f.cell with reserved := held }) ∧ g.below = f.below :=
  ((fails_drainRight_held hfinish).mono fun _ _ ⟨⟨_, hcell⟩, hbelow⟩ => ⟨⟨_, hcell⟩, hbelow⟩).bind fun _ _ _ => .step rfl .pure

theorem preserves_finishJoin {I : Frame → Prop} (hbooks : ∀ f g, Booked f g → I f → I g) (keys : List Expr)
    (buffered : Collection) : Preserves (do
      let side ← JoinSide.ofColumns keys (← buffered.materialize) buffered.count
      reserve (side.bytes keys.length)
      return side) I :=
  .bind (.lift _) fun _ => .bind (.lift _) fun _ => .bind (.reserve hbooks _) fun _ => .pure _

end

/-! ### Sequences -/

/-- Pulls from a state to another, any of which may fail, and what each answered; all states
between them are within `P`. -/
inductive Goes (op : Operator) (sees : List (Nat × Mask) → Prop) (P : State → Prop) (s : State) :
    List (Except Failure Chunk) → State → Prop
  | start (h : P s) : Goes op sees P s [] s
  | pulled {answers : List (Except Failure Chunk)} {t : State} {session : Session} {out : Chunk} {f : Frame}
    (h : Goes op sees P s answers t) (hs : sees session.masks) (hpull : op.pull ⟨t.cell, t.below, session, out⟩ = .ok () f)
    (hP : P ⟨f.cell, f.below⟩) : Goes op sees P s (answers ++ [.ok f.out]) ⟨f.cell, f.below⟩
  | failed {answers : List (Except Failure Chunk)} {t : State} {session : Session} {out : Chunk} {f : Frame} {e : Failure}
    (h : Goes op sees P s answers t) (hs : sees session.masks)
    (hpull : op.pull ⟨t.cell, t.below, session, out⟩ = .error e f) (hP : P ⟨f.cell, f.below⟩) :
    Goes op sees P s (answers ++ [.error e]) ⟨f.cell, f.below⟩

theorem Goes.within {P : State → Prop} {s t : State} {answers : List (Except Failure Chunk)}
    (h : op.Goes sees P s answers t) : P t := by
  cases h <;> assumption

/-- What a pull answers and the state it leaves. -/
def pullOnce (op : Operator) (session : Session) (s : State) : Except Failure Chunk × State :=
  match op.pull ⟨s.cell, s.below, session, Chunk.fresh⟩ with
  | .ok () f => (.ok f.out, ⟨f.cell, f.below⟩)
  | .error e f => (.error e, ⟨f.cell, f.below⟩)

theorem Goes.once {P : State → Prop} {s t : State} {answers : List (Except Failure Chunk)} {session : Session}
    (h : op.Goes sees P s answers t) (hs : sees session.masks) (hP : P (op.pullOnce session t).2) :
    op.Goes sees P s (answers ++ [(op.pullOnce session t).1]) (op.pullOnce session t).2 := by
  unfold pullOnce at hP ⊢
  cases hpull : op.pull ⟨t.cell, t.below, session, Chunk.fresh⟩ with
  | ok a f =>
    rw [hpull] at hP
    exact .pulled h hs hpull hP
  | error e f =>
    rw [hpull] at hP
    exact .failed h hs hpull hP

end Operator
end QueryEngine
