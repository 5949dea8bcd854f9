import QueryEngine.Proofs.Pull.Join
import QueryEngine.Proofs.Pull.Passing

/-! How operators with two inputs pass the rows of a table.

The right input is read to its end in the first pull, when nothing has been passed;
what the left input has passed, the operator has. Every row begins with a left row. -/
namespace QueryEngine

/-- A join answers each left row with rows that begin with it. -/
theorem JoinKeys.nestedLoop_begins {k : JoinKeys} {kind : JoinKind} {rightTypes : List SqlType} {left right : List Row}
    {row : Row} (h : row ∈ k.nestedLoop kind rightTypes left right) : ∃ l ∈ left, ∃ r, row = l ++ r := by
  obtain ⟨l, hl, hrow⟩ := List.mem_flatMap.mp h
  refine ⟨l, hl, ?_⟩
  cases kind with
  | inner =>
    obtain ⟨r, _, rfl⟩ := List.mem_map.mp hrow
    exact ⟨r, rfl⟩
  | left =>
    simp only [joinRow] at hrow
    split at hrow
    · obtain ⟨r, _, rfl⟩ := List.mem_map.mp hrow
      exact ⟨r, rfl⟩
    · exact ⟨_, List.mem_singleton.mp hrow⟩
  | semi =>
    simp only [joinRow] at hrow
    split at hrow
    · exact ⟨[], by rw [List.mem_singleton.mp hrow, List.append_nil]⟩
    · cases hrow
  | anti =>
    simp only [joinRow] at hrow
    split at hrow
    · cases hrow
    · exact ⟨[], by rw [List.mem_singleton.mp hrow, List.append_nil]⟩
  | mark => exact ⟨_, List.mem_singleton.mp hrow⟩

namespace Operator
variable {t : Provider} {V W : Nat → Row → Prop} {k : Nat} {others : List (Nat × Mask)} {f : Frame} {config : Config}
  {left right : Operator}

/-! ### Cross products -/

/-- What holds of a cross product between pulls: the left chunk in the buffer is paired
with right rows that are left, or the right input has not been read. -/
def CrossPassed (t : Provider) (V : Nat → Row → Prop) (left : Operator) (rightTypes : List SqlType) (k : Nat) (cell : Cell)
    (below : List Cell) : Prop :=
  Passed t V left k below ∧ ((cell.progress = .cross none ∧ k = 0) ∨
    ∃ side rows, cell.progress = .cross (some side) ∧ Lists side.columns rightTypes rows ∧
      (side.position < side.rows → cell.buffer.Sound ∧ cell.buffer.types = left.types ∧ cell.buffer.isEmpty = false ∧
        0 < k ∧ ∀ row ∈ cell.buffer.rows, V k row))

theorem passed_pairRow {side : Output} {rightRows : List Row} {chunk : Chunk}
    (hV : ∀ k l r, l.length = left.types.length → V k l → W k (l ++ r)) (hleft : Passed t V left k f.below)
    (hside : Lists side.columns right.types rightRows)
    (hout : f.out = Chunk.blank (left.types ++ right.types) config.capacity) (hbuffer : f.cell.buffer = chunk)
    (hsound : chunk.Sound) (htyped : chunk.types = left.types) (hfull : chunk.isEmpty = false) (hpos : 0 < k)
    (hrows : ∀ row ∈ chunk.rows, V k row) :
    Pull.Overlooks others
      (do
        Pull.setProgress (.cross (some { side with position := side.position + 1 }))
        Pull.filling (pairRow (left.types ++ right.types) side chunk))
      f fun _ g => Passed.Worked W (left.types ++ right.types) (CrossPassed t V left right.types) k g := by
  refine .step rfl rfl rfl (.filling fun _ d hd => ?_)
  have hd : pairRow (left.types ++ right.types) side chunk
      (Chunk.blank (left.types ++ right.types) config.capacity) = .ok () d := hout ▸ hd
  have hmap := pairRow_ok hsound htyped hside hd
  refine ⟨hmap.sound, hmap.typed, fun _ => ⟨k, Nat.le_refl k, hpos, ⟨hleft, .inr ⟨_, rightRows, rfl, hside, fun _ => ?_⟩⟩,
    fun row hrow => ?_⟩⟩
  · show f.cell.buffer.Sound ∧ f.cell.buffer.types = left.types ∧ f.cell.buffer.isEmpty = false ∧ 0 < k ∧
      ∀ row ∈ f.cell.buffer.rows, V k row
    rw [hbuffer]
    exact ⟨hsound, htyped, hfull, hpos, hrows⟩
  · have hrow : row ∈ d.rows := hrow
    rw [hmap.rows] at hrow
    obtain ⟨l, hl, rfl⟩ := List.mem_map.mp hrow
    exact hV k l _ (htyped ▸ Chunk.length_of_mem_rows hl) (hrows l hl)

theorem passed_crossPair {side : Output} {rightRows : List Row}
    (hV : ∀ k l r, l.length = left.types.length → V k l → W k (l ++ r)) (hleft : Passed t V left k f.below)
    (hside : Lists side.columns right.types rightRows)
    (hout : f.out = Chunk.blank (left.types ++ right.types) config.capacity) (hs : SameFrom t k f.session.masks others)
    (hbuffer : side.position < side.rows → f.cell.buffer.Sound ∧ f.cell.buffer.types = left.types ∧
      f.cell.buffer.isEmpty = false ∧ 0 < k ∧ ∀ row ∈ f.cell.buffer.rows, V k row) :
    Pull.Overlooks others
      (do
        if side.rows = 0 then return
        let some (chunk, side) ← crossLeft left side | return
        Pull.setProgress (.cross (some { side with position := side.position + 1 }))
        Pull.filling (pairRow (left.types ++ right.types) side chunk))
      f fun _ g => Passed.Worked W (left.types ++ right.types) (CrossPassed t V left right.types) k g := by
  refine .ite (fun _ => .pure (Passed.Worked.none hout)) fun _ => ?_
  unfold crossLeft
  by_cases hmore : side.position < side.rows
  · rw [if_pos hmore]
    obtain ⟨hsound, htyped, hfull, hpos, hrows⟩ := hbuffer hmore
    rw [bind_assoc]
    refine .reading rfl ?_
    rw [pure_bind]
    exact passed_pairRow hV hleft hside hout rfl hsound htyped hfull hpos hrows
  · rw [if_neg hmore, bind_assoc]
    refine (hleft.fetch hs).bind fun chunk g _ hg => ?_
    rw [pure_bind]
    obtain ⟨k', hle, hleft', hpos, hrows⟩ := hg.left
    by_cases he : chunk.isEmpty = true
    · rw [if_pos he]
      exact .pure (Passed.Worked.none (hg.out.trans hout))
    · rw [if_neg he]
      have he : chunk.isEmpty = false := Bool.eq_false_iff.mpr he
      have hside' : Lists ({ side with position := 0 } : Output).columns right.types rightRows := hside
      have hbuffer' : g.cell.buffer = chunk := by rw [hg.cell]
      refine (passed_pairRow hV hleft' hside' (hg.out.trans hout) hbuffer' hg.sound hg.typed he (hpos he) hrows).mono
        fun _ g' hg' => ⟨hg'.sound, hg'.typed, fun hne => ?_⟩
      obtain ⟨k'', hle', hrest⟩ := hg'.left hne
      exact ⟨k'', Nat.le_trans hle hle', hrest⟩

theorem passed_cross (hV : ∀ k l r, l.length = left.types.length → V k l → W k (l ++ r))
    (hleft : Passed t V left 0 left.start.cells) (hright : right.Steady config.capacity right.start.cells) :
    Passed t W (cross config left right) 0 (cross config left right).start.cells := by
  refine Passed.of_work (K := CrossPassed t V left right.types) rfl (fun f k others hout ⟨hleft, hK⟩ hs => ?_)
    ⟨hleft, .inl ⟨rfl, rfl⟩⟩
  refine .step rfl rfl rfl ?_
  rcases hK with ⟨hp, rfl⟩ | ⟨side, rightRows, hp, hside, hbuffer⟩
  · simp only [hp]
    obtain ⟨given, hgiven⟩ := hright f.session.masks
    refine Pull.Overlooks.bind (Q := fun side g => (∃ rows, Lists side.columns right.types rows) ∧ side.position = side.rows ∧
      g.out = f.out ∧ g.below = f.below) (.of_same (hs.whole rfl) fun side g hok => ?_) fun side g hmasks ⟨⟨rows, hside⟩, hend,
      hg, hbelow⟩ => ?_
    · obtain ⟨⟨⟨rows, hside, -⟩, hend⟩, hmasks, hg, hbelow, -⟩ := (agree_crossRight hgiven rfl).2 side g hok
      exact ⟨hmasks, ⟨rows, hside⟩, hend, hg, hbelow⟩
    · exact passed_crossPair hV (hbelow ▸ hleft) hside (hg.trans hout) (hmasks ▸ hs) fun hmore => by omega
  · simp only [hp]
    rw [pure_bind]
    exact passed_crossPair hV hleft hside hout hs hbuffer

/-! ### Joins -/

/-- A cell that owes pairs owes rows that begin with left rows. -/
structure OwingPast (V : Nat → Row → Prop) (J : JoinTerms) (k : Nat) (buffer : Chunk) (p : JoinProgress) (side : JoinSide) :
    Prop where
  taken : p.side = some side
  indexed : ∃ right, side.Indexes J.rightTypes J.common J.keys.right right
  pending : p.emitted < p.pending.length → (J.kind = .inner ∨ J.kind = .left) ∧ buffer.types = J.leftTypes ∧ 0 < k ∧
    ∀ pair ∈ p.pending, V k (buffer.row pair.1)

/-- What holds of a join between pulls. -/
def JoinPassed (t : Provider) (V : Nat → Row → Prop) (left : Operator) (J : JoinTerms) (k : Nat) (cell : Cell)
    (below : List Cell) : Prop :=
  ∃ p, cell.progress = .join p ∧ Passed t V left k below ∧
    ((p.side = none ∧ p.pending = [] ∧ p.emitted = 0 ∧ k = 0) ∨ ∃ side, OwingPast V J k cell.buffer p side)

section
variable {J : JoinTerms} {p : JoinProgress} {side : JoinSide}

theorem passed_handOutPairs (hV : ∀ k l r, l.length = J.leftTypes.length → V k l → W k (l ++ r))
    (hleft : Passed t V left k f.below) (h : OwingPast V J k f.cell.buffer p side) (hmore : p.emitted < p.pending.length)
    (hout : f.out = Chunk.blank J.types config.capacity) :
    Pull.Overlooks others (handOutPairs side p) f fun _ g => Passed.Worked W J.types (JoinPassed t V left J) k g := by
  refine .step rfl rfl rfl (.lift_bind fun stop _ => .step rfl rfl rfl ?_)
  generalize min stop p.pending.length = stop'
  refine .reading rfl (.filling fun _ d hd => ?_)
  obtain ⟨hkind, hbuffer, hpos, hrows⟩ := h.pending hmore
  obtain ⟨right, hright⟩ := h.indexed
  have hwidth : f.cell.buffer.columns.length + side.columns.length = J.types.length := by
    have htypes : J.types = J.leftTypes ++ J.rightTypes := by
      rw [JoinTerms.types]
      rcases hkind with hkind | hkind <;> rw [hkind, JoinKind.outputTypes]
    rw [htypes, List.length_append, ← hbuffer, Chunk.types, List.length_map, hright.lists.length]
  have hd : takePairs side f.cell.buffer ((p.pending.take stop').drop p.emitted) (Chunk.blank J.types config.capacity) =
      .ok () d := hout ▸ hd
  obtain ⟨hsound, htyped, -, -, hdrows⟩ := takePairs_ok hwidth hd
  refine ⟨hsound, htyped, fun _ => ⟨k, Nat.le_refl k, hpos, ⟨_, rfl, hleft, .inr ⟨side, ?_⟩⟩, fun row hrow => ?_⟩⟩
  · exact ⟨h.taken, ⟨right, hright⟩, fun _ => ⟨hkind, hbuffer, hpos, hrows⟩⟩
  · have hrow : row ∈ d.rows := hrow
    rw [hdrows] at hrow
    obtain ⟨pair, hpair, rfl⟩ := List.mem_map.mp hrow
    exact hV k _ _ (hbuffer ▸ Chunk.length_row_eq _ _) (hrows pair (List.mem_of_mem_take (List.mem_of_mem_drop hpair)))

/-- A chunk of the left input that is answered at once. -/
theorem passed_answered {right : List Row} {c d : Chunk}
    (hV : ∀ k l r, l.length = J.leftTypes.length → V k l → W k (l ++ r)) (hp : f.cell.progress = .join p)
    (htaken : p.side = some side) (hnone : p.pending = []) (hindexed : side.Indexes J.rightTypes J.common J.keys.right right)
    (hleft : Passed t V left k f.below) (hpos : 0 < k) (htyped : c.types = J.leftTypes) (hrows : ∀ row ∈ c.rows, V k row)
    (hd : Answered J right c d) : Passed.Worked W J.types (JoinPassed t V left J) k { f with out := d } := by
  refine ⟨hd.sound, hd.typed, fun _ => ⟨k, Nat.le_refl k, hpos, ⟨p, hp, hleft, .inr ⟨side, htaken, ⟨right, hindexed⟩,
    fun hmore => ?_⟩⟩, fun row hrow => ?_⟩⟩
  · rw [hnone] at hmore
    cases hmore
  · have hrow : row ∈ d.rows := hrow
    rw [hd.rows] at hrow
    obtain ⟨l, hl, r, rfl⟩ := JoinKeys.nestedLoop_begins hrow
    exact hV k l r (htyped ▸ Chunk.length_of_mem_rows hl) (hrows l hl)

/-- Pairs are found for the rows that are looked up. -/
theorem mem_of_probeRows {kind : JoinKind} {keys : List Column} {rows : List Nat} {pair : Nat × Option Nat}
    (h : pair ∈ (probeRows kind side keys rows).2) : pair.1 ∈ rows := by
  induction rows with
  | nil => cases h
  | cons row rows ih =>
    rw [probeRows] at h
    split at h
    · cases h
    · rename_i found _
      rcases List.mem_append.mp h with h | h
      · have hrow : pair.1 = row := by
          unfold pairsOf at h
          split at h
          · split at h
            · obtain ⟨_, _, rfl⟩ := List.mem_map.mp h
              rfl
            · cases h
          · split at h
            · rw [List.mem_singleton.mp h]
            · cases h
        exact hrow ▸ List.mem_cons_self ..
      · exact List.mem_cons_of_mem _ (ih h)

/-- A semi or anti join goes on where it has no row to hand out. -/
theorem passed_semiOrAnti {rightRows : List Row} {c : Chunk} {next : Pull Unit} (anti : Bool)
    (hk : J.kind = if anti then .anti else .semi) (hsound : c.Sound) (htyped : c.types = J.leftTypes)
    (hout : f.out = Chunk.blank J.types config.capacity)
    (hanswered : ∀ d, Answered J rightRows c d →
      Passed.Worked W J.types (JoinPassed t V left J) k { f with out := d })
    (hnext : Pull.Overlooks others next f fun _ g => Passed.Worked W J.types (JoinPassed t V left J) k g) :
    Pull.Overlooks others
      (do
        Pull.filling (JoinResult.semiOrAnti c (c.rows.map (J.keys.hasPartner rightRows)) anti)
        if !(← Pull.out).isEmpty then return
        Pull.changeOut Chunk.reset
        next)
      f fun _ g => Passed.Worked W J.types (JoinPassed t V left J) k g := by
  refine (Pull.Overlooks.filling (Q := fun _ g => ∃ d, g = { f with out := d } ∧ Answered J rightRows c d ∧
    d.capacity = max config.capacity 1) fun _ d hd => ⟨d, rfl, ?_⟩).bind fun _ g _ ⟨d, hg, hd, hcapacity⟩ => ?_
  · exact semiOrAnti_ok (T := ⟨config.capacity, False, False, fun _ => True⟩) hk hsound htyped (hout ▸ hd)
  subst hg
  refine .step rfl rfl rfl (.ite (fun _ => .pure (hanswered d hd)) fun _ => ?_)
  have hreset : d.reset = f.out := by rw [Chunk.reset_eq_blank hd.typed hcapacity, hout]
  have hstep (masks : List (Nat × Mask)) :
      Pull.changeOut Chunk.reset (Frame.withMasks { f with out := d } masks) = .ok () (f.withMasks masks) := by
    show EStateM.Result.ok () (Frame.withMasks { f with out := d.reset } masks) = _
    rw [hreset]
  exact .step (hstep f.session.masks) (hstep others) rfl hnext

theorem passed_probe {keys : List Expr} (hkey : KeyOn keys J.leftTypes J.common J.keys.left)
    (hV : ∀ k l r, l.length = J.leftTypes.length → V k l → W k (l ++ r)) (hl : left.types = J.leftTypes)
    (hr : right.types = J.rightTypes) (rounds : Nat) (hleft : Passed t V left k f.below)
    (h : OwingPast V J k f.cell.buffer p side) (hout : f.out = Chunk.blank J.types config.capacity)
    (hs : SameFrom t k f.session.masks others) :
    Pull.Overlooks others (probe J.kind keys left right side rounds p) f fun _ g =>
      Passed.Worked W J.types (JoinPassed t V left J) k g := by
  induction rounds generalizing f k p with
  | zero => exact .throw
  | succ rounds ih =>
    rw [probe, hr]
    refine .ite (fun hmore => passed_handOutPairs hV hleft h hmore hout) fun _ => ?_
    refine .step rfl rfl rfl (.ite (fun _ => .pure (Passed.Worked.none hout)) fun hkind => ?_)
    obtain ⟨rightRows, hindexed⟩ := h.indexed
    let fresh : Frame := { f with cell := { f.cell with progress := .join { p with pending := [], emitted := 0 } } }
    refine hleft.taken (f := fresh) hout hs fun chunk k' g hle hs' hg => ?_
    have htyped : chunk.types = J.leftTypes := hg.typed.trans hl
    have hog : g.out = Chunk.blank J.types config.capacity := hg.out.trans hout
    have hanswered (p' : JoinProgress) {g' : Frame} {d : Chunk} (hp : g'.cell.progress = .join p')
        (htaken : p'.side = some side) (hnone : p'.pending = []) (hbelow : g'.below = g.below)
        (hd : Answered J rightRows chunk d) : Passed.Worked W J.types (JoinPassed t V left J) k' { g' with out := d } :=
      passed_answered hV hp htaken hnone hindexed (hbelow ▸ hg.left) hg.positive htyped hg.rows hd
    refine .ite (fun hzero => ?_) fun hzero => ?_
    · refine .filling fun _ d hd => ?_
      obtain rfl := hindexed.rows_eq_zero_iff.mp hzero
      have hd := joinWithNothing_ok (T := ⟨config.capacity, False, False, fun _ => True⟩) hg.sound htyped
        (fun hk => hkind ⟨hzero, hk⟩) (hog ▸ hd)
      exact hanswered { p with pending := [], emitted := 0 } (by rw [hg.cell]) h.taken rfl rfl hd.1
    refine .lift_bind fun keyColumns hcolumns => ?_
    generalize hprobe : probeRows J.kind side keyColumns chunk.activeRows = answer
    obtain ⟨found, pairs⟩ := answer
    refine .step rfl rfl rfl (.liftQuery_bind fun flags hflags => ?_)
    rw [hflags] at hprobe
    obtain ⟨rfl, hpairs, hnopairs⟩ := probeChunk_ok hindexed hkey hg.sound htyped hcolumns hprobe
    have hgo (kind : JoinKind) (hk : J.kind = kind)
        (hpending : 0 < pairs.length → (J.kind = .inner ∨ J.kind = .left) ∧ ∀ pair ∈ pairs, V k' (chunk.row pair.1)) :
        Pull.Overlooks others (probe kind keys left right side rounds ⟨p.side, pairs, 0⟩)
          { g with cell := { g.cell with progress := .join ⟨p.side, pairs, 0⟩ } } fun _ g' =>
            Passed.Worked W J.types (JoinPassed t V left J) k' g' := by
      subst hk
      refine ih hg.left ⟨h.taken, ⟨rightRows, hindexed⟩, fun hmore => ?_⟩ hog hs'
      have hbuffer : g.cell.buffer = chunk := by rw [hg.cell]
      show _ ∧ g.cell.buffer.types = _ ∧ _ ∧ ∀ pair ∈ pairs, V k' (g.cell.buffer.row pair.1)
      rw [hbuffer]
      exact ⟨(hpending hmore).1, htyped, hg.positive, (hpending hmore).2⟩
    let looked : Frame := { g with cell := { g.cell with progress := .join ⟨p.side, pairs, 0⟩ } }
    have hasked (hkind : ¬(J.kind = .inner ∨ J.kind = .left)) {d : Chunk} (hd : Answered J rightRows chunk d) :
        Passed.Worked W J.types (JoinPassed t V left J) k' { looked with out := d } :=
      hanswered ⟨p.side, pairs, 0⟩ rfl h.taken (hnopairs hkind) rfl hd
    have hmoved (hkind : J.kind = .inner ∨ J.kind = .left) : 0 < pairs.length →
        (J.kind = .inner ∨ J.kind = .left) ∧ ∀ pair ∈ pairs, V k' (chunk.row pair.1) := by
      refine fun _ => ⟨hkind, fun pair hpair => hg.rows _ (List.mem_map_of_mem ?_)⟩
      have hpair : pair ∈ (probeRows J.kind side keyColumns chunk.activeRows).2 := by rw [hprobe]; exact hpair
      exact mem_of_probeRows hpair
    have hended (hkind : ¬(J.kind = .inner ∨ J.kind = .left)) : 0 < pairs.length →
        (J.kind = .inner ∨ J.kind = .left) ∧ ∀ pair ∈ pairs, V k' (chunk.row pair.1) := by
      rw [hnopairs hkind]
      exact fun hmore => absurd hmore (Nat.lt_irrefl 0)
    cases hk : J.kind with
    | inner => exact hgo .inner hk (hmoved (.inl hk))
    | left => exact hgo .left hk (hmoved (.inr hk))
    | semi =>
      have hkind : ¬(J.kind = .inner ∨ J.kind = .left) := by rw [hk]; decide
      exact passed_semiOrAnti false hk hg.sound htyped hog (fun d hd => hasked hkind hd) (hgo .semi hk (hended hkind))
    | anti =>
      have hkind : ¬(J.kind = .inner ∨ J.kind = .left) := by rw [hk]; decide
      exact passed_semiOrAnti true hk hg.sound htyped hog (fun d hd => hasked hkind hd) (hgo .anti hk (hended hkind))
    | mark =>
      have hkind : ¬(J.kind = .inner ∨ J.kind = .left) := by rw [hk]; decide
      have hne : rightRows ≠ [] := mt hindexed.rows_eq_zero_iff.mpr hzero
      refine .filling fun _ d hd => hasked hkind ?_
      exact (marked_ok (T := ⟨config.capacity, False, False, fun _ => True⟩) hkey hk hindexed hne hg.sound htyped hcolumns
        (hog ▸ hd)).1

theorem overlooks_lendingSide {step : Pull Unit} {Q : Unit → Frame → Prop} (h : Pull.Overlooks others step f Q) :
    Pull.Overlooks others (lendingSide step) f Q := by
  intro a g hok
  unfold lendingSide at hok ⊢
  cases hstep : step f with
  | error e g' =>
    rw [hstep] at hok
    cases e <;> cases hok
  | ok b g' =>
    rw [hstep] at hok
    cases hok
    obtain ⟨hother, hrest⟩ := h a g hstep
    rw [hother]
    exact ⟨rfl, hrest⟩

theorem passed_join {on : List (Expr × Expr)} (hl : left.types = J.leftTypes) (hr : right.types = J.rightTypes)
    (hleftKey : KeyOn (on.map Prod.fst) J.leftTypes J.common J.keys.left)
    (hrightKey : KeyOn (on.map Prod.snd) J.rightTypes J.common J.keys.right)
    (hV : ∀ k l r, l.length = J.leftTypes.length → V k l → W k (l ++ r))
    (hleft : Passed t V left 0 left.start.cells) (hright : right.Steady config.capacity right.start.cells) :
    Passed t W (join config J.kind on left right) 0 (join config J.kind on left right).start.cells := by
  have htypes : J.kind.outputTypes left.types right.types = J.types := by rw [hl, hr, JoinTerms.types]
  refine Passed.of_work (K := JoinPassed t V left J) rfl (fun f k others hout hheld hs => ?_)
    ⟨⟨none, [], 0⟩, rfl, hleft, .inl ⟨rfl, rfl, rfl, rfl⟩⟩
  obtain ⟨p, hp, hleft, hK⟩ := hheld
  have hout : f.out = Chunk.blank J.types config.capacity := htypes ▸ hout
  show Pull.Overlooks others _ f fun _ g => Passed.Worked W (J.kind.outputTypes left.types right.types) _ k g
  rw [htypes]
  refine .step rfl rfl rfl ?_
  simp only [hp]
  have hprobe {g : Frame} {side : JoinSide} (hleft : Passed t V left k g.below)
      (howing : OwingPast V J k g.cell.buffer { p with side := some side } side) (hg : g.out = f.out)
      (hs : SameFrom t k g.session.masks others) :
      Pull.Overlooks others
        (do
          let rounds := (← left.rounds) + 1
          lendingSide (probe J.kind (on.map Prod.fst) left right side rounds { p with side := some side }))
        g fun _ g' => Passed.Worked W J.types (JoinPassed t V left J) k g' :=
    .step rfl rfl rfl (overlooks_lendingSide (passed_probe hleftKey hV hl hr _ hleft howing (hg.trans hout) hs))
  rcases hK with ⟨htaken, howed, hemitted, rfl⟩ | ⟨side, howing⟩
  · simp only [htaken]
    obtain ⟨given, hgiven⟩ := hright f.session.masks
    refine Pull.Overlooks.bind (Q := fun side g => (∃ rows, side.Indexes J.rightTypes J.common J.keys.right rows) ∧
      g.out = f.out ∧ g.below = f.below) (.of_same (hs.whole rfl) fun side g hok => ?_) fun side g hmasks hdone => ?_
    · obtain ⟨⟨rows, hside, -⟩, hmasks, hg, hbelow, -⟩ :=
        (agree_joinRight (J := { J with right := given }) (p := p) hgiven hr hrightKey rfl).2 side g hok
      exact ⟨hmasks, ⟨rows, hside⟩, hg, hbelow⟩
    · obtain ⟨⟨rows, hside⟩, hg, hbelow⟩ := hdone
      refine hprobe (hbelow ▸ hleft) ⟨rfl, ⟨rows, hside⟩, fun hmore => ?_⟩ hg (hmasks ▸ hs)
      have hmore : p.emitted < p.pending.length := hmore
      rw [howed] at hmore
      cases hmore
  · have htaken := howing.taken
    simp only [htaken]
    rw [pure_bind]
    exact hprobe hleft { howing with taken := rfl } rfl hs

end
end Operator
end QueryEngine
