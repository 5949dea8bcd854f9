import QueryEngine.Proofs.Pull.Gives
import QueryEngine.Proofs.Table.Deleted

/-! Pulls that do not see what is deleted behind them.

A scan reads the rows of its table in their order and never comes back to one. So two
pulls that differ only in which rows are deleted, and only in rows that all scans have
passed, do the same (`Passed.step`). How far the scans have come is told by a row of one
table, `t`; what is handed out may tell about the rows before it (`W`).

At the start nothing has been passed and the masks are the same. An operator that
reads an input to its end does so in its first pull, and sees no mask later. -/
namespace QueryEngine

/-- The frame with other rows deleted. -/
def Frame.withMasks (f : Frame) (masks : List (Nat × Mask)) : Frame :=
  { f with session := { f.session with masks := masks } }

namespace Pull
variable {α β : Type} {others : List (Nat × Mask)} {f : Frame}

/-- If the step succeeds from `f`, it does the same with the other masks, leaves masks as
they are and keeps what is promised. -/
def Overlooks (others : List (Nat × Mask)) (m : Pull α) (f : Frame) (Q : α → Frame → Prop) : Prop :=
  ∀ a g, m f = .ok a g → m (f.withMasks others) = .ok a (g.withMasks others) ∧ g.session.masks = f.session.masks ∧ Q a g

namespace Overlooks

/-- Of masks that are the same only the promise is left to show. -/
theorem of_same {m : Pull α} {Q : α → Frame → Prop} (h : others = f.session.masks)
    (hm : ∀ a g, m f = .ok a g → g.session.masks = f.session.masks ∧ Q a g) : Overlooks others m f Q := by
  intro a g hok
  obtain ⟨hmasks, hQ⟩ := hm a g hok
  have hf : f.withMasks others = f := by rw [h]; rfl
  have hg : g.withMasks others = g := by rw [h, ← hmasks]; rfl
  rw [hf, hg]
  exact ⟨hok, hmasks, hQ⟩

theorem mono {m : Pull α} {Q R : α → Frame → Prop} (h : Overlooks others m f Q) (hQR : ∀ a g, Q a g → R a g) :
    Overlooks others m f R := by
  intro a g hok
  obtain ⟨hother, hmasks, hQ⟩ := h a g hok
  exact ⟨hother, hmasks, hQR a g hQ⟩

theorem pure {a : α} {Q : α → Frame → Prop} (h : Q a f) : Overlooks others (pure a) f Q := by
  intro b g hok
  cases hok
  exact ⟨rfl, rfl, h⟩

theorem throw {e : Failure} {Q : α → Frame → Prop} : Overlooks others (throw e) f Q := fun _ _ hok => by cases hok

theorem bind {m : Pull α} {k : α → Pull β} {Q : α → Frame → Prop} {R : β → Frame → Prop} (h : Overlooks others m f Q)
    (hk : ∀ a g, g.session.masks = f.session.masks → Q a g → Overlooks others (k a) g R) :
    Overlooks others (m >>= k) f R := by
  intro b g' hok
  obtain ⟨a, g, hm, hrest⟩ := run_bind_eq_ok.mp hok
  obtain ⟨hother, hmasks, hQ⟩ := h a g hm
  obtain ⟨hother', hmasks', hR⟩ := hk a g hmasks hQ b g' hrest
  exact ⟨run_bind_eq_ok.mpr ⟨a, _, hother, hother'⟩, hmasks'.trans hmasks, hR⟩

/-- A first step whose outcome is known and has nothing of the masks in it. -/
theorem step {m : Pull α} {k : α → Pull β} {R : β → Frame → Prop} {a : α} {g : Frame} (hm : m f = .ok a g)
    (hother : m (f.withMasks others) = .ok a (g.withMasks others)) (hmasks : g.session.masks = f.session.masks)
    (h : Overlooks others (k a) g R) : Overlooks others (m >>= k) f R := by
  refine bind (Q := fun b g' => b = a ∧ g' = g) (fun b g' hb => ?_) fun b g' _ ⟨hb, hg⟩ => ?_
  · cases hm.symm.trans hb
    exact ⟨hother, hmasks, rfl, rfl⟩
  · rw [hb, hg]
    exact h

theorem last {m : Pull α} {Q : α → Frame → Prop} {a : α} {g : Frame} (hm : m f = .ok a g)
    (hother : m (f.withMasks others) = .ok a (g.withMasks others)) (hmasks : g.session.masks = f.session.masks)
    (h : Q a g) : Overlooks others m f Q := by
  intro b g' hb
  cases hm.symm.trans hb
  exact ⟨hother, hmasks, h⟩

/-- Reading the frame, where what follows does not depend on the masks in it. -/
theorem reading {k : Frame → Pull β} {R : β → Frame → Prop} (hsame : k (f.withMasks others) = k f)
    (h : Overlooks others (k f) f R) : Overlooks others (get >>= k) f R := by
  intro b g hok
  obtain ⟨hother, hmasks, hR⟩ := h b g hok
  refine ⟨?_, hmasks, hR⟩
  show k (f.withMasks others) (f.withMasks others) = _
  rw [hsame]
  exact hother

theorem ite {c : Prop} [Decidable c] {m k : Pull α} {Q : α → Frame → Prop} (ht : c → Overlooks others m f Q)
    (he : ¬c → Overlooks others k f Q) : Overlooks others (if c then m else k) f Q := by
  split
  · exact ht ‹_›
  · exact he ‹_›

theorem lift_bind {x : Except Failure α} {k : α → Pull β} {R : β → Frame → Prop}
    (h : ∀ a, x = .ok a → Overlooks others (k a) f R) : Overlooks others (liftM x >>= k) f R := by
  cases x with
  | ok a => exact step rfl rfl rfl (h a rfl)
  | error e => exact fun _ _ hok => by cases hok

theorem liftQuery_bind {x : Except QueryError α} {k : α → Pull β} {R : β → Frame → Prop}
    (h : ∀ a, x = .ok a → Overlooks others (k a) f R) : Overlooks others (liftM x >>= k) f R := by
  cases x with
  | ok a => exact step rfl rfl rfl (h a rfl)
  | error e => exact fun _ _ hok => by cases hok

theorem filling {step : Filling α} {Q : α → Frame → Prop}
    (h : ∀ a filled, step f.out = .ok a filled → Q a { f with out := filled }) : Overlooks others (filling step) f Q := by
  intro a g hok
  unfold Pull.filling at hok ⊢
  cases hstep : step f.out with
  | error e filled =>
    rw [hstep] at hok
    cases hok
  | ok b filled =>
    have hmasked : step (f.withMasks others).out = .ok b filled := hstep
    rw [hmasked]
    rw [hstep] at hok
    cases hok
    exact ⟨rfl, rfl, h a filled hstep⟩

theorem inInput {name : String} {out : Chunk} {after : Frame → Frame → Frame} {step : Pull Unit} {Q : Chunk → Frame → Prop}
    (hafter : ∀ g : Frame, after (f.withMasks others) (g.withMasks others) = (after f g).withMasks others ∧
      (after f g).session = g.session)
    (h : ∀ input, f.input? out = some input → Overlooks others step input fun _ g => Q g.out (after f g)) :
    Overlooks others (inInput name out after step) f Q := by
  intro a g hok
  unfold Pull.inInput at hok ⊢
  obtain ⟨cell, below, session, filled⟩ := f
  cases below with
  | nil => cases hok
  | cons first rest =>
    simp only [Frame.input?, Frame.withMasks] at hok hafter ⊢
    cases hstep : step ⟨first, rest, session, out⟩ with
    | error e g' =>
      rw [hstep] at hok
      cases hok
    | ok u g' =>
      rw [hstep] at hok
      cases hok
      obtain ⟨hother, hmasks, hQ⟩ := h _ rfl u g' hstep
      simp only [Frame.withMasks] at hother
      rw [hother]
      exact ⟨congrArg _ (hafter g').1, (congrArg Session.masks (hafter g').2).trans hmasks, hQ⟩

end Overlooks
end Pull

/-! ### Operators -/

/-- What a pull that succeeds leaves: a sound chunk, and cells that have come to a row. -/
structure Reached (W : Nat → Row → Prop) (types : List SqlType) (J : Nat → List Cell → Prop) (k : Nat) (g : Frame) :
    Prop where
  sound : g.out.Sound
  typed : g.out.types = types
  left : ∃ k', k ≤ k' ∧ J k' g.cells ∧ (g.out.isEmpty = false → 0 < k') ∧ ∀ row ∈ g.out.rows, W k' row

/-- The cells have passed all rows of `t` before row `k`: what is deleted there is not
seen, and what pulls hand out is as `W` tells of the row that the cells have come to. -/
def Passed (t : Provider) (W : Nat → Row → Prop) (op : Operator) (k : Nat) (cells : List Cell) : Prop :=
  ∃ J : Nat → List Cell → Prop, (∀ f k others, J k f.cells → SameFrom t k f.session.masks others →
    Pull.Overlooks others op.pull f fun _ g => Reached W op.types J k g) ∧ J k cells

/-- What a chunk fetched from an input leaves. -/
structure FetchedPast (t : Provider) (W : Nat → Row → Prop) (op : Operator) (k : Nat) (f : Frame) (chunk : Chunk)
    (g : Frame) : Prop where
  sound : chunk.Sound
  typed : chunk.types = op.types
  out : g.out = f.out
  cell : g.cell = { f.cell with buffer := chunk }
  left : ∃ k', k ≤ k' ∧ Passed t W op k' g.below ∧ (chunk.isEmpty = false → 0 < k') ∧ ∀ row ∈ chunk.rows, W k' row

namespace Passed
variable {t : Provider} {W : Nat → Row → Prop} {op : Operator} {k : Nat} {others : List (Nat × Mask)}

theorem step {cell : Cell} {below : List Cell} {session : Session} (h : Passed t W op k (cell :: below))
    (hs : SameFrom t k session.masks others) (out : Chunk) :
    Pull.Overlooks others op.pull ⟨cell, below, session, out⟩ fun _ g => Reached W op.types (Passed t W op) k g := by
  obtain ⟨J, hJ, hk⟩ := h
  refine (hJ ⟨cell, below, session, out⟩ k others hk hs).mono fun _ g hg => ?_
  obtain ⟨k', hle, hk', hpos, hrows⟩ := hg.left
  exact ⟨hg.sound, hg.typed, k', hle, ⟨J, hJ, hk'⟩, hpos, hrows⟩

theorem fetch {f : Frame} (h : Passed t W op k f.below) (hs : SameFrom t k f.session.masks others) :
    Pull.Overlooks others op.fetch f (FetchedPast t W op k f) := by
  unfold Operator.fetch
  refine Pull.Overlooks.reading rfl (Pull.Overlooks.inInput (fun _ => ⟨rfl, rfl⟩) fun input hin => ?_)
  unfold Frame.input? at hin
  split at hin
  · cases hin
  · rename_i cell below hbelow
    cases hin
    rw [hbelow] at h
    exact (h.step hs _).mono fun _ g hg => ⟨hg.sound, hg.typed, rfl, rfl, hg.left⟩

/-- What the operator's own work leaves, of a pull that has made the chunk ready. -/
structure Worked (W : Nat → Row → Prop) (types : List SqlType) (K : Nat → Cell → List Cell → Prop) (k : Nat)
    (g : Frame) : Prop where
  sound : g.out.Sound
  typed : g.out.types = types
  left : g.out.isEmpty = false →
    ∃ k', k ≤ k' ∧ 0 < k' ∧ K k' g.cell g.below ∧ ∀ row ∈ g.out.rows, W k' row

theorem Worked.none {types : List SqlType} {K : Nat → Cell → List Cell → Prop} {capacity : Nat} {f : Frame}
    (hout : f.out = Chunk.blank types capacity) : Worked W types K k f := by
  refine ⟨hout ▸ Chunk.sound_blank _ _, hout ▸ Chunk.types_blank _ _, fun he => ?_⟩
  rw [hout] at he
  cases he

/-- An operator whose pull is its own work around which an answer is made. -/
theorem of_work {config : Config} {K : Nat → Cell → List Cell → Prop} {work : Pull Unit} {cell : Cell} {below : List Cell}
    (hpull : op.pull = Operator.answer config op.types work)
    (hwork : ∀ f k others, f.out = Chunk.blank op.types config.capacity → K k f.cell f.below →
      SameFrom t k f.session.masks others → Pull.Overlooks others work f fun _ g => Worked W op.types K k g)
    (hK : K k cell below) : Passed t W op k (cell :: below) := by
  refine ⟨fun k => UnlessFinished (K k), fun f k others hJ hs => ?_, .inr hK⟩
  have hJ : f.cell.finished = true ∨ K k f.cell f.below := hJ
  rw [hpull, Operator.answer]
  refine .step (a := ()) (g := { f with out := Chunk.blank op.types config.capacity }) rfl rfl rfl ?_
  refine .reading rfl (.ite (fun hf => ?_) fun hf => ?_)
  · exact .pure ⟨Chunk.sound_blank _ _, Chunk.types_blank _ _, k, Nat.le_refl k, .inl hf, nofun, nofun⟩
  have hK := hJ.resolve_left hf
  refine (hwork { f with out := Chunk.blank op.types config.capacity } k others rfl hK hs).bind fun _ g _ hg => ?_
  refine .reading rfl ?_
  simp only [Pull.verify_of_sound _ hg.sound]
  refine .ite (fun he => ?_) fun he => ?_
  · refine .last (a := ()) (g := { g with cell := { g.cell with finished := true } }) rfl rfl rfl
      ⟨hg.sound, hg.typed, k, Nat.le_refl k, .inl rfl, fun he' => ?_, ?_⟩
    · cases he.symm.trans he'
    · rw [hg.sound.rows_eq_nil_iff.mpr he]
      nofun
  · obtain ⟨k', hle, hpos, hK', hrows⟩ := hg.left (Bool.eq_false_iff.mpr he)
    exact .pure ⟨hg.sound, hg.typed, k', hle, .inr hK', fun _ => hpos, hrows⟩

/-- A chunk with rows, fetched to be answered. -/
structure Taken (t : Provider) (W : Nat → Row → Prop) (input : Operator) (k : Nat) (f : Frame) (chunk : Chunk) (g : Frame) :
    Prop where
  sound : chunk.Sound
  typed : chunk.types = input.types
  full : chunk.isEmpty = false
  out : g.out = f.out
  cell : g.cell = { f.cell with buffer := chunk }
  positive : 0 < k
  left : Passed t W input k g.below
  rows : ∀ row ∈ chunk.rows, W k row

/-- Work that ends where the first input does and answers its next chunk elsewhere. -/
theorem taken {V : Nat → Row → Prop} {types : List SqlType} {K : Nat → Cell → List Cell → Prop} {capacity : Nat}
    {f : Frame} {next : Chunk → Pull Unit} (h : Passed t V op k f.below) (hout : f.out = Chunk.blank types capacity)
    (hs : SameFrom t k f.session.masks others)
    (hnext : ∀ chunk k' g, k ≤ k' → SameFrom t k' g.session.masks others → Taken t V op k' f chunk g →
      Pull.Overlooks others (next chunk) g fun _ g' => Worked W types K k' g') :
    Pull.Overlooks others
      (do
        let chunk ← op.fetch
        if chunk.isEmpty then return
        next chunk)
      f fun _ g => Worked W types K k g := by
  refine (h.fetch hs).bind fun chunk g hmasks hg => ?_
  obtain ⟨k', hle, hleft, hpos, hrows⟩ := hg.left
  refine .ite (fun _ => .pure (Worked.none (hg.out.trans hout))) fun he => ?_
  have he : chunk.isEmpty = false := Bool.eq_false_iff.mpr he
  have hs' : SameFrom t k' g.session.masks others := hmasks ▸ hs.mono hle
  refine (hnext chunk k' g hle hs' ⟨hg.sound, hg.typed, he, hg.out, hg.cell, hpos he, hleft, hrows⟩).mono fun _ g' hg' => ?_
  refine ⟨hg'.sound, hg'.typed, fun hne => ?_⟩
  obtain ⟨k'', hle', hrest⟩ := hg'.left hne
  exact ⟨k'', Nat.le_trans hle hle', hrest⟩

end Passed
end QueryEngine
