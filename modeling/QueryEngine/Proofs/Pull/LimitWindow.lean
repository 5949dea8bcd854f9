import QueryEngine.Proofs.Join.Hash
import QueryEngine.Proofs.Pull.HaltingChunks
import QueryEngine.Proofs.Pull.Reads
import QueryEngine.Proofs.Pull.SureChunks

/-! Limits as windows.

A limit counts the rows of the chunks that it reads. A chunk with rows in the window is
answered by these rows, a chunk without is passed over, and once the last row of the window
was seen the input is left alone. What the window ends with is computed up to the largest
count; as no more rows than that can be seen, the rows that are handed out are those of the
window as it was asked for. -/
namespace QueryEngine

/-! ### The window -/

/-- The rows numbered from `offset` on, and before `offset + n` where there is a limit, of
rows that are numbered from `first` on. -/
def inWindow (n : Option Nat) (offset first : Nat) (rows : List Row) : List Row :=
  (n.elim rows fun n => rows.take (offset + n - first)).drop (offset - first)

theorem inWindow_eq (n : Option Nat) (offset first : Nat) (rows : List Row) :
    inWindow n offset first rows = Operator.limitRows (n.map (offset + ·)) offset first rows := by
  cases n <;> rfl

theorem inWindow_append (n : Option Nat) (offset first : Nat) (rows rest : List Row) :
    inWindow n offset first (rows ++ rest) =
      inWindow n offset first rows ++ inWindow n offset (first + rows.length) rest := by
  simp only [inWindow_eq, Operator.limitRows_append]

@[simp] theorem inWindow_nil (n : Option Nat) (offset first : Nat) : inWindow n offset first [] = [] := by
  cases n <;> simp [inWindow]

/-- No rows are wanted behind the window. -/
theorem inWindow_past {n offset first : Nat} (h : offset + n ≤ first) (rows : List Row) :
    inWindow (some n) offset first rows = [] := by
  rw [inWindow_eq, Operator.limitRows_past (by simpa using h)]

/-- Up to the largest count the window ends where it was asked to. -/
theorem limitRows_limitEnd {n : Option Nat} {offset first : Nat} {rows : List Row} (h : first + rows.length ≤ maxCount) :
    Operator.limitRows (Operator.limitEnd n offset) offset first rows = inWindow n offset first rows := by
  cases n with
  | none => rfl
  | some n =>
    unfold inWindow Operator.limitRows Operator.limitEnd
    simp only [Option.map_some, Option.elim_some]
    rw [List.take_eq_take_iff.mpr]
    omega

/-- Chunks, each with the number of its first row. -/
def numbered (first : Nat) : List Chunk → List (Nat × Chunk)
  | [] => []
  | c :: rest => (first, c) :: numbered (first + c.count) rest

theorem numbered_concat (first : Nat) (chunks : List Chunk) (c : Chunk) :
    numbered first (chunks ++ [c]) = numbered first chunks ++ [(first + rowCount chunks, c)] := by
  induction chunks generalizing first with
  | nil => rfl
  | cons d chunks ih => rw [List.cons_append, numbered, numbered, ih, List.cons_append, rowCount_cons, Nat.add_assoc]

/-- The rows of a chunk that are in the window. -/
def wantedRows (n : Option Nat) (offset : Nat) (c : Nat × Chunk) : List Row := inWindow n offset c.1 c.2.rows

/-- The window, chunk by chunk. -/
theorem inWindow_flatMap (n : Option Nat) (offset first : Nat) {chunks : List Chunk} (h : ∀ c ∈ chunks, c.Sound) :
    inWindow n offset first (chunks.flatMap Chunk.rows) = (numbered first chunks).flatMap (wantedRows n offset) := by
  induction chunks generalizing first with
  | nil => exact inWindow_nil ..
  | cons c chunks ih =>
    obtain ⟨hc, hchunks⟩ := List.forall_mem_cons.mp h
    rw [List.flatMap_cons, inWindow_append, hc.length_rows, ih _ hchunks, numbered, List.flatMap_cons]
    rfl

/-- What a chunk with rows in the window is answered with. -/
structure Piece (n : Option Nat) (offset : Nat) (c : Nat × Chunk) (d : Chunk) : Prop where
  sound : d.Sound
  typed : d.types = c.2.types
  rows : d.rows = wantedRows n offset c
  /-- A chunk that lies within the window is handed on as it is. -/
  whole : offset ≤ c.1 → (∀ limit, n = some limit → c.1 + c.2.count ≤ offset + limit) →
    d.columns = c.2.columns ∧ d.selection = c.2.selection

/-- The chunks `fed` to a limit, and those that it has handed out. -/
structure Windowed (n : Option Nat) (offset : Nat) (fed outs : List Chunk) : Prop where
  /-- There is one for each chunk with rows in the window, in their order. -/
  pieces : List.Forall₂ (Piece n offset) ((numbered 0 fed).filter fun c => !(wantedRows n offset c).isEmpty) outs
  counted : rowCount fed ≤ maxCount
  /-- Each chunk was read before the end of the window. -/
  needed : ∀ k < fed.length, ∀ limit, n = some limit → rowCount (fed.take k) < min (offset + limit) maxCount

namespace Windowed
variable {n : Option Nat} {offset : Nat} {fed outs : List Chunk} {c d : Chunk}

theorem nil (n : Option Nat) (offset : Nat) : Windowed n offset [] [] :=
  ⟨.nil, Nat.zero_le _, fun k hk => by cases hk⟩

/-- The rows that were handed out are those of the window. -/
theorem rows (h : Windowed n offset fed outs) (hfed : ∀ c ∈ fed, c.Sound) :
    outs.flatMap Chunk.rows = inWindow n offset 0 (fed.flatMap Chunk.rows) := by
  have hpieces {placed : List (Nat × Chunk)} {outs : List Chunk} (h : List.Forall₂ (Piece n offset) placed outs) :
      outs.flatMap Chunk.rows = placed.flatMap (wantedRows n offset) := by
    induction h with
    | nil => rfl
    | cons hd _ ih => rw [List.flatMap_cons, List.flatMap_cons, hd.rows, ih]
  rw [hpieces h.pieces, inWindow_flatMap n offset 0 hfed]
  generalize numbered 0 fed = placed
  induction placed with
  | nil => rfl
  | cons c placed ih =>
    by_cases hc : wantedRows n offset c = []
    · rw [List.filter_cons_of_neg (by simp [hc]), ih, List.flatMap_cons, hc, List.nil_append]
    · rw [List.filter_cons_of_pos (by simp [hc]), List.flatMap_cons, List.flatMap_cons, ih]

section
variable (h : Windowed n offset fed outs) (hmore : ¬(Operator.limitEnd n offset).any (· ≤ rowCount fed) = true)
include h hmore

theorem needed_concat : ∀ k < (fed ++ [c]).length, ∀ limit, n = some limit →
    rowCount ((fed ++ [c]).take k) < min (offset + limit) maxCount := by
  intro k hk limit hlimit
  rw [List.length_append, List.length_singleton] at hk
  rw [List.take_append_of_le_length (by omega)]
  rcases Nat.lt_or_ge k fed.length with hlt | hge
  · exact h.needed k hlt limit hlimit
  · rw [List.take_of_length_le hge]
    subst hlimit
    simpa [Operator.limitEnd] using hmore

variable (hcount : rowCount fed + c.count ≤ maxCount)
include hcount

/-- A chunk without rows in the window is passed over. -/
theorem skip (hnone : wantedRows n offset (rowCount fed, c) = []) : Windowed n offset (fed ++ [c]) outs := by
  refine ⟨?_, by rw [rowCount_append, rowCount_cons, rowCount_nil, Nat.add_zero]; exact hcount, needed_concat h hmore⟩
  rw [numbered_concat, Nat.zero_add, List.filter_append, List.filter_cons_of_neg (by simp [hnone]), List.filter_nil,
    List.append_nil]
  exact h.pieces

theorem answer (hsome : wantedRows n offset (rowCount fed, c) ≠ []) (hd : Piece n offset (rowCount fed, c) d) :
    Windowed n offset (fed ++ [c]) (outs ++ [d]) := by
  refine ⟨?_, by rw [rowCount_append, rowCount_cons, rowCount_nil, Nat.add_zero]; exact hcount, needed_concat h hmore⟩
  rw [numbered_concat, Nat.zero_add, List.filter_append, List.filter_cons_of_pos (by simp [hsome]), List.filter_nil]
  exact List.rel_append h.pieces (.cons hd .nil)

end

end Windowed

namespace Operator
variable {input : Operator} {sees : List (Nat × Mask) → Prop} {n : Option Nat} {offset : Nat} {fed outs chunks : List Chunk}
  {f : Frame} {config : Config}

/-! ### Pulls -/

theorem le_of_addCounts {a b sum : Nat} (h : addCounts a b = .ok sum) : a + b ≤ maxCount := by
  by_contra hle
  rw [addCounts, if_neg hle] at h
  cases h

/-- The rows of a chunk that a limit works out are those in the window. -/
theorem piece_of_limitWindow {c d : Chunk} {low high : Nat} (hc : c.Sound) (hcount : rowCount fed + c.count ≤ maxCount)
    (hwindow : limitWindow (limitEnd n offset) offset (rowCount fed) c.count = (low, high)) :
    wantedRows n offset (rowCount fed, c) = (c.rows.take high).drop low ∧ high ≤ c.count ∧
      (low < high → limitChunk c low high = .ok d → Piece n offset (rowCount fed, c) d) := by
  have hlen := hc.length_rows
  have hrows : wantedRows n offset (rowCount fed, c) = (c.rows.take high).drop low ∧ high ≤ c.count := by
    rw [← hlen] at hwindow
    obtain ⟨hwanted, _, hhigh⟩ := limitRows_eq_window hwindow
    rw [limitRows_limitEnd (by rw [hlen]; exact hcount)] at hwanted
    exact ⟨hwanted, hlen ▸ hhigh⟩
  refine ⟨hrows.1, hrows.2, fun hlow hlimit => ?_⟩
  obtain ⟨hsound, htypes, hdrows, _⟩ := limitChunk_ok hc hlow hlimit
  refine ⟨hsound, htypes, hdrows.trans hrows.1.symm, fun hoffset hend => ?_⟩
  have hall : low = 0 ∧ high = c.count := by
    unfold limitWindow limitEnd at hwindow
    cases n with
    | none =>
      cases hwindow
      exact ⟨by omega, rfl⟩
    | some limit =>
      have hend := hend limit rfl
      cases hwindow
      simp only [Option.map_some, Option.getD_some] at hoffset hend ⊢
      omega
  unfold limitChunk at hlimit
  rw [if_pos hall] at hlimit
  cases hlimit
  exact ⟨rfl, rfl⟩

/-- A limit that goes on has counted what it was fed. -/
def Limiting (n : Option Nat) (offset : Nat) (fed outs : List Chunk) (cell : Cell) : Prop :=
  cell.progress = .limit (rowCount fed) ∧ Windowed n offset fed outs

/-- A limit ends with its input, or with its window. -/
def Exhausts (n : Option Nat) (offset : Nat) (fed outs : List Chunk) : Prop :=
  Windowed n offset fed outs ∧ ((∃ c ∈ fed, c.isEmpty = true) ∨ (limitEnd n offset).any (· ≤ rowCount fed) = true)

theorem logs_limitChunks (rounds : Nat) (hin : input.Proper sees f.below) (hs : sees f.session.masks)
    (hf : f.cell.finished = false) (hout : f.out = Chunk.blank input.types config.capacity)
    (h : Windowed n offset fed outs) :
    Pull.Agree (limitChunks input (limitEnd n offset) offset rounds (rowCount fed))
      (limitChunks input (limitEnd n offset) offset rounds (rowCount fed)) f
      fun _ g => Logs input sees (Limiting n offset) (Exhausts n offset) fed outs f g := by
  induction rounds generalizing f fed with
  | zero => exact Pull.Agree.throw
  | succ rounds ih =>
    rw [limitChunks]
    have hblank : f.out.isEmpty = true := by rw [hout]; rfl
    have hsound : f.out.Sound := hout ▸ Chunk.sound_blank _ _
    refine Pull.Agree.ite (fun hpast => Pull.Agree.pure ⟨hsound, hf, [], .none _, fun _ => ?_, fun he => ?_⟩) fun hmore => ?_
    · rw [List.append_nil]
      exact ⟨h, .inr hpast⟩
    · cases hblank.symm.trans he
    refine (hin.fetch hs).bind fun chunk g hg => ?_
    have hfg : g.cell.finished = false := by rw [hg.cell]; exact hf
    have hog : g.out = Chunk.blank input.types config.capacity := hg.out.trans hout
    refine Pull.Agree.ite (fun he => Pull.Agree.pure ⟨hg.out.symm ▸ hsound, hfg, [chunk], hg.reads, fun _ => ?_, fun he' => ?_⟩)
      fun he => ?_
    · have hnone : wantedRows n offset (rowCount fed, chunk) = [] := by
        rw [wantedRows, hg.sound.rows_eq_nil_iff.mpr he, inWindow_nil]
      have hcount : rowCount fed + chunk.count ≤ maxCount := by
        have hzero : chunk.count = 0 := by simpa [Chunk.isEmpty] using he
        rw [hzero]
        exact h.counted
      exact ⟨h.skip hmore hcount hnone, .inl ⟨chunk, List.mem_append_right _ (List.mem_singleton_self _), he⟩⟩
    · rw [hog] at he'
      cases he'
    refine Pull.Agree.lift_bind fun next hnext => Pull.Agree.step rfl ?_
    have hcount := le_of_addCounts hnext
    obtain rfl := Chunk.addCounts_ok hnext
    have hnext : rowCount fed + chunk.count = rowCount (fed ++ [chunk]) := by
      rw [rowCount_append, rowCount_cons, rowCount_nil, Nat.add_zero]
    cases hwindow : limitWindow (limitEnd n offset) offset (rowCount fed) chunk.count with
    | mk low high =>
    simp only
    have hpiece {d : Chunk} := piece_of_limitWindow (d := d) hg.sound hcount hwindow
    refine Pull.Agree.ite (fun hle => ?_) fun hlt => Pull.Agree.lift_bind fun wanted hlimit => ?_
    · have hnone : wantedRows n offset (rowCount fed, chunk) = [] := by
        rw [(hpiece (d := chunk)).1, List.drop_of_length_le (by rw [List.length_take]; omega)]
      rw [hnext]
      have hrest := ih (f := { g with cell := { g.cell with progress := .limit (rowCount (fed ++ [chunk])) } }) hg.proper
        hg.masks hfg hog (h.skip hmore hcount hnone)
      exact hrest.mono fun _ k hk => hk.after hg.reads
    · have hlt := Nat.lt_of_not_le hlt
      obtain ⟨hrows, hhigh, hd⟩ := hpiece (d := wanted)
      have hsome : wantedRows n offset (rowCount fed, chunk) ≠ [] := by
        rw [hrows, ← List.length_pos_iff, List.length_drop, List.length_take, hg.sound.length_rows]
        omega
      have hd := hd hlt hlimit
      refine Pull.Agree.last rfl ⟨hd.sound.reference _, hfg, [chunk], hg.reads, fun he' => ?_, fun _ => ⟨?_, ?_⟩⟩
      · exact absurd (hd.rows.symm.trans (hd.sound.rows_eq_nil_iff.mpr he')) hsome
      · exact congrArg Progress.limit hnext
      · refine h.answer hmore hcount hsome ⟨hd.sound.reference _, hd.typed, hd.rows, hd.whole⟩

/-- How a limit fails: as its input does, or by counting too many rows. -/
def LimitFails (input : Operator) (sees : List (Nat × Mask) → Prop) (fed : List Chunk) (cells : List Cell)
    (e : Failure) : Prop :=
  input.FailsAfter sees cells e ∨
    e = .crash ∧ ∃ more cells', input.Reads sees cells more cells' ∧ maxCount < rowCount (fed ++ more)

theorem LimitFails.after {more : List Chunk} {cells cells' : List Cell} {e : Failure}
    (h : LimitFails input sees (fed ++ more) cells' e) (hread : input.Reads sees cells more cells') :
    LimitFails input sees fed cells e := by
  rcases h with h | ⟨he, later, last, hlater, hcount⟩
  · exact .inl (hread.failsAfter h)
  · refine .inr ⟨he, more ++ later, last, hread.append hlater, ?_⟩
    rwa [← List.append_assoc]

theorem fails_limitChunks (rounds : Nat) (hin : input.Proper sees f.below) (hs : sees f.session.masks) :
    Pull.Fails (limitChunks input (limitEnd n offset) offset rounds (rowCount fed)) f
      fun e _ => e = .stalled ∨ LimitFails input sees fed f.below e := by
  induction rounds generalizing f fed with
  | zero => exact .throw (.inl rfl)
  | succ rounds ih =>
    rw [limitChunks]
    refine .ite (fun _ => .pure) fun _ => ?_
    refine ((hin.fetch_fails hs).mono fun e _ he => .inr (.inl he)).bind fun chunk g hfetch => ?_
    have hg := (hin.fetch hs).2 chunk g hfetch
    have hnext : rowCount fed + chunk.count = rowCount (fed ++ [chunk]) := by
      rw [rowCount_append, rowCount_cons, rowCount_nil, Nat.add_zero]
    refine .ite (fun _ => .pure) fun _ => .lift_bind (fun e he => .inr (.inr ⟨?_, [chunk], g.below, hg.reads, ?_⟩))
      fun next hadd => .step rfl ?_
    · unfold addCounts at he
      split at he
      · cases he
      · cases he
        rfl
    · rw [← hnext]
      by_contra hle
      rw [Chunk.addCounts_of_le (Nat.le_of_not_lt hle)] at he
      cases he
    have hcount := le_of_addCounts hadd
    obtain rfl := Chunk.addCounts_ok hadd
    cases hwindow : limitWindow (limitEnd n offset) offset (rowCount fed) chunk.count with
    | mk low high =>
    simp only
    refine .ite (fun _ => ?_) fun hlt => .lift_bind (fun e he => ?_) fun wanted _ => .of_ok rfl
    · rw [hnext]
      have hrest := @ih (fed ++ [chunk]) { g with cell := { g.cell with progress := .limit (rowCount (fed ++ [chunk])) } }
        hg.proper hg.masks
      exact hrest.mono fun e _ he => he.imp_right fun he => he.after hg.reads
    · obtain ⟨_, hhigh, _⟩ := piece_of_limitWindow (d := chunk) hg.sound hcount hwindow
      obtain ⟨wanted, hwanted⟩ := limitChunk_of_le hg.sound (Nat.lt_of_not_le hlt) hhigh (by omega)
      cases hwanted.symm.trans he

/-- A limit's own work, from a cell that has counted what it was fed. -/
theorem limit_work (config : Config) (input : Operator) (sees : List (Nat × Mask) → Prop) (n : Option Nat) (offset : Nat) :
    ∃ work, (limit config n offset input).pull = answer config input.types work ∧
      (∀ f fed outs, f.cell.finished = false → f.out = Chunk.blank input.types config.capacity →
        Limiting n offset fed outs f.cell → input.Proper sees f.below → sees f.session.masks →
        Pull.Agree work work f fun _ g => Logs input sees (Limiting n offset) (Exhausts n offset) fed outs f g) ∧
      (∀ f fed outs, Limiting n offset fed outs f.cell → input.Proper sees f.below → sees f.session.masks →
        Pull.Fails work f fun e _ => e = .stalled ∨ LimitFails input sees fed f.below e) ∧
      ∀ f fed outs, Limiting n offset fed outs f.cell → (limitEnd n offset).any (· ≤ rowCount fed) = true →
        work f = .ok () f := by
  refine ⟨_, rfl, fun f fed outs hf hout hK hin hs => ?_, fun f fed outs hK hin hs => ?_, fun f fed outs hK hpast => ?_⟩
  · refine Pull.Agree.step rfl ?_
    simp only [hK.1]
    exact Pull.Agree.step rfl (logs_limitChunks _ hin hs hf hout hK.2)
  · refine .step rfl ?_
    simp only [hK.1]
    exact .step rfl (fails_limitChunks _ hin hs)
  · refine run_bind_eq_ok.mpr ⟨f.cell.progress, f, rfl, ?_⟩
    simp only [hK.1]
    show limitChunks input (limitEnd n offset) offset (input.rowsBelow f.below + 1) (rowCount fed) f = _
    rw [limitChunks, if_pos hpast]
    rfl

/-! ### Runs -/

/-- What a run of a limit does over an input that gives some rows, of which it has read the
chunks `fed`. -/
structure HandsWindow (op : Operator) (n : Option Nat) (offset : Nat) (input : Operator) (sees : List (Nat × Mask) → Prop)
    (given : List Row) (fed chunks : List Chunk) (s : State) : Prop where
  read : input.Reads sees input.start.cells fed s.below
  /-- The chunks with rows are those of the window, one after another. -/
  windowed : Windowed n offset fed (withRows chunks)
  rows : chunks.flatMap Chunk.rows = inWindow n offset 0 (fed.flatMap Chunk.rows)
  /-- Empty chunks come last. -/
  unbroken : chunks.Pairwise fun c d => c.isEmpty = true → d.isEmpty = true
  /-- At the end the rows of the window were handed out, of those that can be counted. -/
  complete : (∃ c ∈ chunks, c.isEmpty = true) → chunks.flatMap Chunk.rows = inWindow n offset 0 (given.take maxCount)
  /-- Behind the window the input is left alone. -/
  leaves : ∀ limit, n = some limit → min (offset + limit) maxCount ≤ rowCount fed → ∀ session out,
    ∃ g, op.pull ⟨s.cell, s.below, session, out⟩ = .ok () g ∧ g.out.isEmpty = true ∧ g.below = s.below ∧ g.session = session
  /-- A pull fails only as the input does or where more rows come than can be counted. -/
  fails : ∀ session out, sees session.masks →
    Pull.Fails op.pull ⟨s.cell, s.below, session, out⟩ fun e _ => LimitFails input sees fed s.below e

section
variable {given : List Row}

/-- A limit that is spent has handed out the whole window. -/
theorem Exhausts.complete {cells : List Cell} (h : Exhausts n offset fed outs) (hin : input.Streams sees given)
    (hread : input.Reads sees input.start.cells fed cells) :
    outs.flatMap Chunk.rows = inWindow n offset 0 (given.take maxCount) := by
  obtain ⟨hwindowed, hend⟩ := h
  have hsound : ∀ c ∈ fed, c.Sound := fun c hc => ((hread.proper hin.proper).2 c hc).1
  have hlen := length_flatMap_rows hsound
  obtain ⟨t, _, hrun⟩ := hread.pulls
  obtain ⟨_, rest, _, hrows⟩ := Gives.pulls hin hrun
  obtain ⟨hrows, hnone⟩ := hrows trivial
  rw [hwindowed.rows hsound, hrows, List.take_append, hlen, inWindow_append, List.take_of_length_le (hlen ▸ hwindowed.counted),
    hlen, Nat.zero_add]
  have hbehind : inWindow n offset (rowCount fed) (rest.take (maxCount - rowCount fed)) = [] := by
    rcases hend with hend | hend
    · rw [hnone hend, List.take_nil, inWindow_nil]
    · cases n with
      | none => cases hend
      | some limit =>
        have hend : min (offset + limit) maxCount ≤ rowCount fed := by simpa [limitEnd] using hend
        rcases Nat.le_total (offset + limit) maxCount with hle | hle
        · exact inWindow_past (by omega) _
        · rw [show maxCount - rowCount fed = 0 by omega, List.take_zero, inWindow_nil]
  rw [hbehind, List.append_nil]

theorem Proper.limit (h : input.Proper sees input.start.cells) (config : Config) (n : Option Nat) (offset : Nat) :
    (limit config n offset input).Proper sees (limit config n offset input).start.cells := by
  obtain ⟨rows, hrows⟩ := h.gives_untold config.capacity
  exact .of_gives (gives_limit rfl rfl n offset hrows)

/-- A limit hands out the window that it was asked for, and no more than that is read. -/
theorem limit_handsWindow (config : Config) (n : Option Nat) (offset : Nat) (hin : input.Streams sees given)
    (hhalts : input.Halting) {s : State}
    (hp : (limit config n offset input).Pulls sees (limit config n offset input).start chunks s) :
    ∃ fed, HandsWindow (limit config n offset input) n offset input sees given fed chunks s := by
  obtain ⟨work, hpull, hwork, hfails, hpast⟩ := limit_work config input sees n offset
  obtain ⟨fed, hread, hlog⟩ := pulls_logged hpull hwork rfl hin.proper ⟨rfl, .nil n offset⟩ hp
  obtain ⟨hproper, hsound⟩ := hread.proper hin.proper
  have hwindowed : Windowed n offset fed (withRows chunks) := by
    by_cases hall : ∀ c ∈ chunks, c.isEmpty = false
    · rw [withRows_of_full hall]
      exact (hlog.ongoing hall).2.2
    · exact (hlog.ended (by simpa using hall)).2.1
  have hrows : (withRows chunks).flatMap Chunk.rows = chunks.flatMap Chunk.rows :=
    flatMap_withRows fun c hc => (((Reads.of_pulls hp).proper (hin.proper.limit config n offset)).2 c hc).1
  refine ⟨fed, hread, hwindowed, ?_, hlog.unbroken, fun hend => ?_, fun limit hlimit hend session out => ?_,
    fun session out hs e g hg => ?_⟩
  · rw [← hrows, hwindowed.rows fun c hc => (hsound c hc).1]
  · rw [← hrows]
    exact (hlog.ended hend).2.complete hin hread
  · have hend : (limitEnd n offset).any (· ≤ rowCount fed) = true := by
      rw [hlimit]
      simpa [limitEnd] using hend
    by_cases hall : ∀ c ∈ chunks, c.isEmpty = false
    · obtain ⟨hf, hK⟩ := hlog.ongoing hall
      refine ⟨_, hpull ▸ answer_of_work hf (hpast _ fed chunks hK hend) (Chunk.sound_blank _ _), ?_, ?_, ?_⟩
      · rw [Frame.out_ended]
        rfl
      · exact Frame.below_ended _
      · exact Frame.session_ended _
    · have hf := (hlog.ended (by simpa using hall)).1
      exact ⟨_, pull_of_finished hpull hf session out, rfl, rfl, rfl⟩
  · have hhalting : (limit config n offset input).Halting := halting_limit hhalts n offset
    have hintime := hhalting.fails hhalting.start hp session out e g hg
    have hfailed := hlog.fails hpull hwork hproper hs out (F := fun e => e = .stalled ∨ LimitFails input sees fed s.below e)
      (fun f hcell hbelow hsession hK => hbelow ▸ hfails f fed chunks hK (hbelow ▸ hproper) (hsession ▸ hs)) e g hg
    exact hfailed.resolve_left hintime

end

/-- A window of four rows behind the first: of the first chunk it takes the active rows from
the second on, the second chunk lies within it, and the third is never read. -/
theorem limit_handsWindow_selected :
    let config : Config := ⟨2, none, true⟩
    let first : Chunk := ⟨[.ofInts [10, 11, 12, 13]], some [0, 2, 3], 3, 4⟩
    let second : Chunk := ⟨[.ofInts [20, 21]], none, 2, 2⟩
    let third : Chunk := ⟨[.ofInts [30, 31]], none, 2, 2⟩
    let input := source config [.bigInt] [first, second, third]
    let op := limit config (some 4) 1 input
    ∃ chunks s fed, op.Pulls (fun _ => True) op.start chunks s ∧ chunks.map Chunk.activeRows = [[2, 3], [0, 1], []] ∧
      HandsWindow op (some 4) 1 input (fun _ => True) ([first, second, third].flatMap Chunk.rows) fed chunks s := by
  intro config first second third input op
  have hpulled : (op.pullTimes 3 op.start (Session.ofLimit? none)).map (List.map Chunk.activeRows) =
      some [[2, 3], [0, 1], []] := by decide +kernel
  obtain ⟨chunks, s, hrun, hactive⟩ := pulls_of_map (fun _ => trivial) hpulled
  have hsound : ∀ c ∈ [first, second, third], c.Sound ∧ c.types = [.bigInt] ∧ c.isEmpty = false := by decide
  have hcounted : ∀ c ∈ [first, second, third], c.Counted := fun c hc s hs => ((hsound c hc).1.selected s hs).1
  obtain ⟨fed, hwindow⟩ := limit_handsWindow config (some 4) 1 (source_streams config (fun _ => True) hsound)
    (halting_source hcounted) hrun
  exact ⟨chunks, s, fed, hrun, hactive, hwindow⟩

/-- A window of one row behind all rows that can be counted: its end is the largest count,
so the limit ends without a row, although the input has the row that was asked for. -/
theorem limit_uncounted :
    let config : Config := ⟨2, none, true⟩
    let most : Chunk := ⟨[], none, 18446744073709551615, 2⟩
    let one : Chunk := ⟨[], none, 1, 2⟩
    let input := source config [] [most, one]
    let op := limit config (some 1) 18446744073709551615 input
    input.Streams (fun _ => True) ([most, one].flatMap Chunk.rows) ∧
      ∃ chunks s, op.Pulls (fun _ => True) op.start chunks s ∧ (∃ c ∈ chunks, c.isEmpty = true) ∧
        chunks.flatMap Chunk.rows ≠ inWindow (some 1) 18446744073709551615 0 ([most, one].flatMap Chunk.rows) := by
  intro config most one input op
  have hsound : ∀ c ∈ [most, one], c.Sound ∧ c.types = [] ∧ c.isEmpty = false := by decide
  have hpulled : op.pullTimes 1 op.start (Session.ofLimit? none) = some [Chunk.blank [] 2] := by decide +kernel
  obtain ⟨s, hrun⟩ : ∃ s, op.Pulls (fun _ => True) op.start [Chunk.blank [] 2] s :=
    pulls_of_pullTimes (fun _ => trivial) hpulled
  refine ⟨source_streams config (fun _ => True) hsound, _, s, hrun, ⟨_, List.mem_singleton_self _, rfl⟩, fun heq => ?_⟩
  have hrows : ([most, one].flatMap Chunk.rows).length = 18446744073709551616 :=
    length_flatMap_rows fun c hc => (hsound c hc).1
  have hlength := congrArg List.length heq
  rw [inWindow, List.length_drop, Option.elim_some, List.length_take, hrows] at hlength
  cases hlength

end Operator
end QueryEngine
