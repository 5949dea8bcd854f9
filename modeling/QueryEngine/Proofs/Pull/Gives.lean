import QueryEngine.Proofs.Chunk.Collected
import QueryEngine.Proofs.Pull.Agree

/-! What an operator gives to the one above it.

`Terms` fix what is asked of every pull: that the chunk is tidy, that its rows are
told beforehand, or neither. An operator gives some rows from its cells when a pull
that succeeds hands out the first of them in a sound chunk of its types and is left
with cells that give the rest (`Gives.step`). To show it, one names what holds of the
cells between pulls and shows that a pull keeps to it (`Meets`).

Two operators are compared throughout, for the same plan under two configurations.
From related cells they answer alike; an operator compared with itself has only its
own promise to keep. -/
namespace QueryEngine

/-- What is asked of the pulls of an operator and of all below it. -/
structure Terms where
  capacity : Nat
  /-- Chunks hold no more rows than the capacity, in the order they stand in. -/
  tidy : Prop
  /-- The rows are known beforehand. -/
  told : Prop
  /-- What is known, all the while, of the rows deleted from tables. -/
  sees : List (Nat × Mask) → Prop

/-- The cells of an operator and of its inputs. -/
def Frame.cells (f : Frame) : List Cell := f.cell :: f.below

namespace Terms

structure Handed (T : Terms) (types : List SqlType) (c : Chunk) : Prop where
  sound : c.Sound
  typed : c.types = types
  tidy : T.tidy → c.Tidy T.capacity

/-- What a pull that succeeds leaves, `J` telling which rows cells still give. -/
structure Answers (T : Terms) (types : List SqlType) (J : List Row → List Cell → Prop) (rows : List Row)
    (g : Frame) : Prop where
  handed : T.Handed types g.out
  sees : T.sees g.session.masks
  finished : T.tidy → g.cell.finished = g.out.isEmpty
  left : ∃ rest, J rest g.cells ∧ (T.told → rows = g.out.rows ++ rest ∧ (g.out.isEmpty = true → rest = []))

variable {T : Terms} {types : List SqlType} {J J' : List Row → List Cell → Prop} {rows : List Row} {g : Frame}

theorem Answers.mono (h : T.Answers types J rows g) (hJ : ∀ rows cells, J rows cells → J' rows cells) :
    T.Answers types J' rows g := by
  obtain ⟨rest, hrest, htold⟩ := h.left
  exact ⟨h.handed, h.sees, h.finished, rest, hJ _ _ hrest, htold⟩

theorem handed_blank (T : Terms) (types : List SqlType) : T.Handed types (Chunk.blank types T.capacity) :=
  ⟨Chunk.sound_blank _ _, Chunk.types_blank _ _, fun _ => Chunk.tidy_blank _ _⟩

end Terms

/-- The same operator but for its pull. -/
structure Alike (op₁ op₂ : Operator) : Prop where
  name : op₂.name = op₁.name
  types : op₂.types = op₁.types
  start : op₂.start = op₁.start
  rowsLeft : op₂.rowsLeft = op₁.rowsLeft

/-- Pulls keep to `J`. -/
structure Meets (T : Terms) (op₁ op₂ : Operator) (J : List Row → List Cell → Prop) : Prop where
  alike : Alike op₁ op₂
  step : ∀ f rows, J rows f.cells → T.sees f.session.masks →
    Pull.Agree op₁.pull op₂.pull f fun _ g => T.Answers op₁.types J rows g

/-- From the cells the operators give the rows. -/
def Gives (T : Terms) (op₁ op₂ : Operator) (rows : List Row) (cells : List Cell) : Prop :=
  ∃ J, Meets T op₁ op₂ J ∧ J rows cells

namespace Gives
variable {T : Terms} {op₁ op₂ : Operator} {rows : List Row} {cells : List Cell}

theorem alike (h : Gives T op₁ op₂ rows cells) : Alike op₁ op₂ := by
  obtain ⟨_, hJ, _⟩ := h
  exact hJ.alike

theorem step {cell : Cell} {below : List Cell} {session : Session} (h : Gives T op₁ op₂ rows (cell :: below))
    (hs : T.sees session.masks) (out : Chunk) :
    Pull.Agree op₁.pull op₂.pull ⟨cell, below, session, out⟩ fun _ g =>
      T.Answers op₁.types (Gives T op₁ op₂) rows g := by
  obtain ⟨J, hJ, hrows⟩ := h
  exact (hJ.step ⟨cell, below, session, out⟩ rows hrows hs).mono fun _ g hg => hg.mono fun _ _ h => ⟨J, hJ, h⟩

end Gives

namespace Alike
variable {op₁ op₂ : Operator}

theorem rowsBelow (h : Alike op₁ op₂) : op₂.rowsBelow = op₁.rowsBelow := by
  funext cells
  cases cells with
  | nil => rfl
  | cons cell below => rw [Operator.rowsBelow, Operator.rowsBelow, h.rowsLeft]

theorem rounds (h : Alike op₁ op₂) : op₂.rounds = op₁.rounds := by
  unfold Operator.rounds
  rw [h.rowsBelow]

theorem outputLeft (h : Alike op₁ op₂) : Operator.outputLeft op₂ = Operator.outputLeft op₁ := by
  funext least below output
  cases output with
  | none => rw [Operator.outputLeft, Operator.outputLeft, h.rowsBelow]
  | some o => rfl

end Alike

/-! ### Reading the first input -/

/-- What a chunk fetched from the first input leaves. -/
structure Fetched (T : Terms) (op₁ op₂ : Operator) (rows : List Row) (f : Frame) (chunk : Chunk) (g : Frame) :
    Prop where
  handed : T.Handed op₁.types chunk
  sees : T.sees g.session.masks
  out : g.out = f.out
  cell : g.cell = { f.cell with buffer := chunk }
  left : ∃ rest, Gives T op₁ op₂ rest g.below ∧ (T.told → rows = chunk.rows ++ rest ∧ (chunk.isEmpty = true → rest = []))

namespace Gives
variable {T : Terms} {op₁ op₂ : Operator} {rows : List Row} {f : Frame}

/-- A pull of the first input, whatever chunk it fills and however it goes on. -/
theorem read {after : Frame → Frame → Frame} {Q : Chunk → Frame → Prop} (h : Gives T op₁ op₂ rows f.below)
    (hs : T.sees f.session.masks) (name : String) (out : Chunk)
    (hQ : ∀ g, T.Answers op₁.types (Gives T op₁ op₂) rows g → Q g.out (after f g)) :
    Pull.Agree (Pull.inInput name out after op₁.pull) (Pull.inInput name out after op₂.pull) f Q := by
  refine Pull.Agree.inInput fun input hin => ?_
  unfold Frame.input? at hin
  split at hin
  · cases hin
  · rename_i cell below hbelow
    cases hin
    rw [hbelow] at h
    exact (h.step hs _).mono fun _ g hg => hQ g hg

theorem fetch (h : Gives T op₁ op₂ rows f.below) (hs : T.sees f.session.masks) :
    Pull.Agree op₁.fetch op₂.fetch f (Fetched T op₁ op₂ rows f) := by
  unfold Operator.fetch
  rw [h.alike.name]
  exact Pull.Agree.step rfl (h.read hs _ _ fun _ hg => ⟨hg.handed, hg.sees, rfl, rfl, hg.left⟩)

/-- What reading the first input to its end leaves. -/
structure Drained (T : Terms) (types : List SqlType) (before rows : List Row) (f : Frame) (collected : Collection)
    (g : Frame) : Prop where
  sees : T.sees g.session.masks
  out : g.out = f.out
  cell : ∃ held, g.cell = { f.cell with reserved := held }
  holds : ∃ all, collected.Holds types all ∧ (T.told → all = before ++ rows)

theorem drainInto (rounds : Nat) {before : List Row} {collected : Collection} (h : Gives T op₁ op₂ rows f.below)
    (hs : T.sees f.session.masks) (hc : collected.Holds op₁.types before) :
    Pull.Agree (op₁.drainInto rounds collected) (op₂.drainInto rounds collected) f
      (Drained T op₁.types before rows f) := by
  induction rounds generalizing f collected before rows with
  | zero => exact Pull.Agree.throw
  | succ rounds ih =>
    rw [Operator.drainInto, Operator.drainInto, h.alike.name]
    have hread : Pull.Agree (Pull.inInput op₁.name Chunk.fresh Frame.afterInput op₁.pull)
        (Pull.inInput op₁.name Chunk.fresh Frame.afterInput op₂.pull) f fun chunk g =>
          T.Handed op₁.types chunk ∧ T.sees g.session.masks ∧ g.out = f.out ∧ g.cell = f.cell ∧
            ∃ rest, Gives T op₁ op₂ rest g.below ∧
              (T.told → rows = chunk.rows ++ rest ∧ (chunk.isEmpty = true → rest = [])) :=
      h.read hs _ _ fun _ hg => ⟨hg.handed, hg.sees, rfl, rfl, hg.left⟩
    refine hread.bind fun chunk g ⟨hchunk, hsees, hout, hcell, rest, hrest, htold⟩ => ?_
    refine Pull.Agree.ite (fun he => ?_) fun he => ?_
    · refine Pull.Agree.pure ⟨hsees, hout, ⟨f.cell.reserved, hcell⟩, before, hc, fun ht => ?_⟩
      rw [(htold ht).1, (htold ht).2 he, hchunk.sound.rows_eq_nil_iff.mpr he, List.append_nil, List.append_nil]
    · refine Pull.Agree.lift_bind fun next hnext => ?_
      obtain ⟨collected', bytes⟩ := next
      have hc' := hc.append hchunk.sound hchunk.typed hnext
      refine (Pull.Agree.reserve bytes).bind fun _ g' ⟨held, pool, hg'⟩ => ?_
      have hrest' : Gives T op₁ op₂ rest g'.below := by rw [hg']; exact hrest
      have hsees' : T.sees g'.session.masks := by rw [hg']; exact hsees
      refine (ih hrest' hsees' hc').mono fun coll k hk => ?_
      obtain ⟨held', hheld⟩ := hk.cell
      obtain ⟨all, hall, hrows⟩ := hk.holds
      refine ⟨hk.sees, ?_, ⟨held', by rw [hheld, hg', hcell]⟩, all, hall, fun ht => ?_⟩
      · rw [hk.out, hg', hout]
      rw [hrows ht, (htold ht).1, List.append_assoc]

theorem drain (h : Gives T op₁ op₂ rows f.below) (hs : T.sees f.session.masks) :
    Pull.Agree op₁.drain op₂.drain f (Drained T op₁.types [] rows f) := by
  unfold Operator.drain
  rw [h.alike.rounds, h.alike.types]
  exact Pull.Agree.step rfl (h.drainInto _ hs (Collection.holds_ofTypes _))

end Gives

/-! ### Answering -/

/-- What holds between pulls: `K` of the cells, or that there is nothing more to come. -/
def Ongoing (T : Terms) (K : List Row → Cell → List Cell → Prop) : List Row → List Cell → Prop
  | _, [] => False
  | rows, cell :: below => if cell.finished = true then T.told → rows = [] else K rows cell below

/-- What holds between pulls of which no rows are told: `K` of the cells, or that they are
finished. -/
def UnlessFinished (K : Cell → List Cell → Prop) : List Cell → Prop
  | [] => False
  | cell :: below => cell.finished = true ∨ K cell below

/-- Verifying a sound chunk does nothing. -/
theorem Pull.verify_of_sound (config : Config) {c : Chunk} (hc : c.Sound) :
    (if config.verify = true then (liftM c.verify : Pull Unit) else pure ()) = pure () := by
  rw [(Chunk.verify_eq_ok_iff c).mpr hc]
  cases config.verify <;> rfl

/-- What the operator's own work leaves, of a pull that has made the chunk ready. -/
structure Worked (T : Terms) (types : List SqlType) (K : List Row → Cell → List Cell → Prop) (rows : List Row)
    (g : Frame) : Prop where
  handed : T.Handed types g.out
  sees : T.sees g.session.masks
  unfinished : g.cell.finished = false
  ended : g.out.isEmpty = true → T.told → rows = []
  left : g.out.isEmpty = false → ∃ rest, K rest g.cell g.below ∧ (T.told → rows = g.out.rows ++ rest)

/-- Work that does nothing ends an operator that has no more rows. -/
theorem Worked.none {T : Terms} {types : List SqlType} {K : List Row → Cell → List Cell → Prop} {rows : List Row}
    {f : Frame} (hout : f.out = Chunk.blank types T.capacity) (hf : f.cell.finished = false)
    (hs : T.sees f.session.masks) (hrows : T.told → rows = []) : Worked T types K rows f := by
  refine ⟨hout ▸ T.handed_blank types, hs, hf, fun _ => hrows, fun he => ?_⟩
  rw [hout] at he
  cases he

/-- A chunk with rows, fetched to be answered. -/
structure Taken (T : Terms) (in₁ in₂ : Operator) (types : List SqlType) (given : List Row) (f : Frame) (chunk : Chunk)
    (rest : List Row) (g : Frame) : Prop where
  handed : T.Handed in₁.types chunk
  full : chunk.isEmpty = false
  sees : T.sees g.session.masks
  unfinished : g.cell.finished = false
  out : g.out = Chunk.blank types T.capacity
  cell : g.cell = { f.cell with buffer := chunk }
  left : Gives T in₁ in₂ rest g.below
  rows : T.told → given = chunk.rows ++ rest

/-- Work that ends where the first input does and answers its next chunk elsewhere. -/
theorem agree_taken {T : Terms} {in₁ in₂ : Operator} {types : List SqlType} {K : List Row → Cell → List Cell → Prop}
    {given rows : List Row} {f : Frame} {next₁ next₂ : Chunk → Pull Unit} (h : Gives T in₁ in₂ given f.below)
    (hf : f.cell.finished = false) (hout : f.out = Chunk.blank types T.capacity) (hs : T.sees f.session.masks)
    (hend : given = [] → T.told → rows = [])
    (hnext : ∀ chunk rest g, Taken T in₁ in₂ types given f chunk rest g →
      Pull.Agree (next₁ chunk) (next₂ chunk) g fun _ k => Worked T types K rows k) :
    Pull.Agree
      (do
        let chunk ← in₁.fetch
        if chunk.isEmpty then return
        next₁ chunk)
      (do
        let chunk ← in₂.fetch
        if chunk.isEmpty then return
        next₂ chunk)
      f fun _ k => Worked T types K rows k := by
  refine (h.fetch hs).bind fun chunk g hg => ?_
  have hfg : g.cell.finished = false := by rw [hg.cell]; exact hf
  have hog : g.out = Chunk.blank types T.capacity := hg.out.trans hout
  obtain ⟨rest, hrest, htold⟩ := hg.left
  refine Pull.Agree.ite (fun he => ?_) fun he => ?_
  · refine Pull.Agree.pure (Worked.none hog hfg hg.sees fun ht => hend ?_ ht)
    rw [(htold ht).1, (htold ht).2 he, hg.handed.sound.rows_eq_nil_iff.mpr he]
    rfl
  · exact hnext chunk rest g ⟨hg.handed, Bool.eq_false_iff.mpr he, hg.sees, hfg, hog, hg.cell, hrest, fun ht => (htold ht).1⟩

/-- What the first input still gives is what is to come, changed by `F`. -/
def Through (T : Terms) (in₁ in₂ : Operator) (F : List Row → List Row) (rows : List Row) (_ : Cell)
    (below : List Cell) : Prop :=
  ∃ given, Gives T in₁ in₂ given below ∧ (T.told → rows = F given)

section Answer
variable {T : Terms} {c₁ c₂ : Config} {types : List SqlType} {K : List Row → Cell → List Cell → Prop}
  {work₁ work₂ : Pull Unit}

theorem Agree.answer (h₁ : c₁.capacity = T.capacity) (h₂ : c₂.capacity = T.capacity)
    (hwork : ∀ f rows, f.cell.finished = false → f.out = Chunk.blank types T.capacity → K rows f.cell f.below →
      T.sees f.session.masks → Pull.Agree work₁ work₂ f fun _ g => Worked T types K rows g)
    {f : Frame} {rows : List Row} (hJ : Ongoing T K rows f.cells) (hs : T.sees f.session.masks) :
    Pull.Agree (Operator.answer c₁ types work₁) (Operator.answer c₂ types work₂) f fun _ g =>
      T.Answers types (Ongoing T K) rows g := by
  unfold Operator.answer
  rw [h₁, h₂]
  refine Pull.Agree.step (a := ()) (g := { f with out := Chunk.blank types T.capacity }) rfl ?_
  refine Pull.Agree.step rfl ?_
  have hJ : if f.cell.finished = true then T.told → rows = [] else K rows f.cell f.below := hJ
  refine Pull.Agree.ite (fun hf => ?_) fun hf => ?_
  · rw [if_pos hf] at hJ
    refine Pull.Agree.pure ⟨T.handed_blank types, hs, fun _ => hf, [], ?_, fun ht => ⟨hJ ht, fun _ => rfl⟩⟩
    show if f.cell.finished = true then _ else _
    rw [if_pos hf]
    exact fun _ => rfl
  · rw [if_neg hf] at hJ
    have hf : f.cell.finished = false := by simpa using hf
    refine (hwork { f with out := Chunk.blank types T.capacity } rows hf rfl hJ hs).bind fun _ g hg => ?_
    refine Pull.Agree.step rfl ?_
    simp only [Pull.verify_of_sound _ hg.handed.sound]
    refine Pull.Agree.ite (fun he => ?_) fun he => ?_
    · refine Pull.Agree.step (a := ()) (g := { g with cell := { g.cell with finished := true } }) rfl
        (Pull.Agree.pure ⟨hg.handed, hg.sees, fun _ => he.symm, [], fun _ => rfl, fun ht => ?_⟩)
      refine ⟨?_, fun _ => rfl⟩
      rw [hg.ended he ht, hg.handed.sound.rows_eq_nil_iff.mpr he]
      rfl
    · have he : g.out.isEmpty = false := by simpa using he
      obtain ⟨rest, hrest, htold⟩ := hg.left he
      refine Pull.Agree.pure ⟨hg.handed, hg.sees, fun _ => hg.unfinished.trans he.symm, rest, ?_, fun ht => ?_⟩
      · show if g.cell.finished = true then _ else _
        rw [hg.unfinished]
        exact hrest
      · refine ⟨htold ht, fun h => ?_⟩
        rw [he] at h
        cases h

/-- An operator whose pull is its own work around which an answer is made. -/
theorem Gives.of_work {op₁ op₂ : Operator} (halike : Alike op₁ op₂) (h₁ : c₁.capacity = T.capacity)
    (h₂ : c₂.capacity = T.capacity) (hp₁ : op₁.pull = Operator.answer c₁ op₁.types work₁)
    (hp₂ : op₂.pull = Operator.answer c₂ op₂.types work₂)
    (hwork : ∀ f rows, f.cell.finished = false → f.out = Chunk.blank op₁.types T.capacity → K rows f.cell f.below →
      T.sees f.session.masks → Pull.Agree work₁ work₂ f fun _ g => Worked T op₁.types K rows g)
    {rows : List Row} (hstart : op₁.start.cell.finished = false) (hK : K rows op₁.start.cell op₁.start.below) :
    Gives T op₁ op₂ rows op₁.start.cells := by
  refine ⟨Ongoing T K, ⟨halike, fun f rows hJ hs => ?_⟩, ?_⟩
  · rw [hp₁, hp₂, halike.types]
    exact Agree.answer h₁ h₂ hwork hJ hs
  · show if op₁.start.cell.finished = true then _ else _
    rw [hstart]
    exact hK

end Answer

end QueryEngine
