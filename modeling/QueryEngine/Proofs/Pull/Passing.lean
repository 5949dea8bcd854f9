import QueryEngine.Proofs.Pull.Grouping
import QueryEngine.Proofs.Pull.Leaf
import QueryEngine.Proofs.Pull.Passed
import QueryEngine.Proofs.Pull.Streaming

/-! How operators pass the rows of a table.

A scan has passed the rows it has read. An operator that answers chunk by chunk has
passed what its input has, and one that reads its whole input first has passed
everything once it has answered. -/
namespace QueryEngine

/-- Pulls never change which rows are deleted. -/
def Operator.Steady (op : Operator) (capacity : Nat) (cells : List Cell) : Prop :=
  ∀ masks, ∃ rows, Gives ⟨capacity, False, False, (· = masks)⟩ op op rows cells

namespace Operator
variable {t : Provider} {W : Nat → Row → Prop} {k : Nat} {others : List (Nat × Mask)} {f : Frame} {config : Config}

theorem passed_empty (types : List SqlType) : Passed t W (empty config types) k (empty config types).start.cells :=
  Passed.of_work (K := fun _ _ _ => True) rfl (fun _ _ _ hout _ _ => .pure (Passed.Worked.none hout)) trivial

/-! ### Scans -/

theorem Mask.visible_congr {m m' : Mask} {offset : Nat} (h : ∀ i, offset ≤ i → m[i]? = m'[i]?) (len : Nat) :
    m.visible offset len = m'.visible offset len := by
  have hdrop : m.drop offset = m'.drop offset := by
    apply List.ext_getElem?
    intro i
    rw [List.getElem?_drop, List.getElem?_drop, h _ (Nat.le_add_right offset i)]
  simp only [Mask.visible, hdrop]

/-- A window shows the same where the same rows are deleted from its offset on. -/
theorem window_congr (p : Provider) {m m' : Mask} {offset : Nat} (h : ∀ i, offset ≤ i → m[i]? = m'[i]?) (ids : List Nat)
    (len : Nat) (hle : offset ≤ p.table.rows) : p.window m ids offset len = p.window m' ids offset len := by
  simp only [Provider.window, Table.window, Nat.min_eq_left hle, Mask.visible_congr h]

theorem nextWindow_congr (p : Provider) {m m' : Mask} (ids : List Nat) (capacity rounds : Nat) {offset : Nat}
    (h : ∀ i, offset ≤ i → m[i]? = m'[i]?) :
    nextWindow p m ids capacity rounds offset = nextWindow p m' ids capacity rounds offset := by
  induction rounds generalizing offset with
  | zero => rfl
  | succ rounds ih =>
    rw [nextWindow, nextWindow]
    by_cases hend : p.table.rows ≤ offset
    · rw [if_pos hend, if_pos hend]
    · have hrest (len : Nat) : nextWindow p m ids capacity rounds (offset + len) =
          nextWindow p m' ids capacity rounds (offset + len) := ih fun i hi => h i (by omega)
      have hwindow (len : Nat) := window_congr p h ids len (by omega)
      rw [if_neg hend, if_neg hend]
      simp only [hwindow, hrest]

/-- Where a scan of `t` goes on is what it has passed; scans of other tables do not see
`t`. -/
theorem passed_scan {p : Provider} {refs : List ColumnRef} {types : List SqlType} (hlen : refs.length = types.length)
    (hbeside : p.Beside t) (hread : p.id = t.id → ∀ k i, i < k → W k (p.rowOf refs i))
    (hother : p.id ≠ t.id → ∀ k row, t.table.rows < k → W k row) :
    Passed t W (scan config p refs types) 0 (scan config p refs types).start.cells := by
  refine Passed.of_work (K := fun k cell _ => ∃ offset, cell.progress = .scan offset ∧ (p.id = t.id → k ≤ offset)) rfl
    (fun f k others hout ⟨offset, hoffset, hle⟩ hs => ?_) ⟨0, rfl, fun _ => Nat.le_refl 0⟩
  refine .step rfl rfl rfl ?_
  simp only [hoffset]
  have hmask : ∀ i, offset ≤ i → (p.maskIn others)[i]? = (p.maskIn f.session.masks)[i]? := fun i hi =>
    hs.rows p hbeside i fun hid => Nat.le_trans (hle hid) hi
  have hnext (capacity : Nat) : nextWindow p ((f.withMasks others).session.mask p) (tableIds refs) capacity _ offset =
      nextWindow p (f.session.mask p) (tableIds refs) capacity _ offset :=
    nextWindow_congr p (tableIds refs) capacity (p.table.rows - offset) hmask
  refine .reading (by simp only [hnext]) (.step rfl rfl rfl ?_)
  cases hfound : nextWindow p (f.session.mask p) (tableIds refs) f.out.capacity (p.table.rows - offset) offset with
  | mk found next =>
  refine .step rfl rfl rfl (.liftQuery_bind fun found' hfound' => ?_)
  subst hfound'
  obtain ⟨hmore, hwindow⟩ := nextWindow_offset hfound
  rw [hout, Chunk.capacity_blank] at hfound
  have hspec := nextWindow_ok (Nat.lt_of_lt_of_le Nat.one_pos (Nat.le_max_right _ _)) hfound
  cases found' with
  | none => exact .pure (Passed.Worked.none hout)
  | some w =>
    obtain ⟨hend, hw⟩ := hspec
    refine .filling fun _ d hd => ?_
    rw [show _ = Chunk.blank types config.capacity from hout] at hd
    obtain ⟨hsound, htyped, hactive, hdrows⟩ := fillFromWindow_ok hlen hw hd
    have hpositive : 0 < next := by
      have := hw.positive
      omega
    refine ⟨hsound, htyped, fun _ => ?_⟩
    by_cases hid : p.id = t.id
    · refine ⟨next, Nat.le_trans (hle hid) hmore, hpositive, ⟨next, rfl, fun _ => Nat.le_refl _⟩, fun row hrow => ?_⟩
      have hrow : row ∈ d.rows := hrow
      rw [hdrows] at hrow
      obtain ⟨i, hi, rfl⟩ := List.mem_map.mp hrow
      rw [hactive] at hi
      have hi : i < w.len := List.mem_range.mp ((activeRows_window hw).1.subset hi)
      exact hread hid next _ (by omega)
    · exact ⟨max k (t.table.rows + 1), Nat.le_max_left _ _, by omega, ⟨next, rfl, fun h => absurd h hid⟩, fun row _ =>
        hother hid _ row (by omega)⟩

/-! ### Chunk by chunk -/

section
variable {input : Operator}

theorem passed_filterChunks {ps : List Expr} (rounds : Nat) (h : Passed t W input k f.below)
    (hout : f.out = Chunk.blank input.types config.capacity) (hs : SameFrom t k f.session.masks others) :
    Pull.Overlooks others (filterChunks input ps rounds) f fun _ g =>
      Passed.Worked W input.types (fun k _ below => Passed t W input k below) k g := by
  induction rounds generalizing f k with
  | zero => exact .throw
  | succ rounds ih =>
    refine h.taken hout hs fun chunk k' g hle hs' hg => ?_
    refine (Pull.Overlooks.filling (Q := fun _ g' => ∃ d, g' = { g with out := d } ∧
      Chunk.Narrowed (fun row => ps.all (Expr.holdsOn row)) (g.out.reference chunk) d) fun _ d hd => ⟨d, rfl, ?_⟩).bind
      fun _ g' _ ⟨d, hg', hd⟩ => ?_
    · exact keepTrue_ok (hg.sound.reference _) hd
    have htyped : d.types = input.types := hd.typed.trans hg.typed
    subst hg'
    refine .step rfl rfl rfl (.ite (fun hne => ?_) fun he => ?_)
    · refine .pure ⟨hd.sound, htyped, fun _ => ⟨k', Nat.le_refl _, hg.positive, hg.left, fun row hrow => ?_⟩⟩
      have hrow : row ∈ d.rows := hrow
      rw [hd.rows] at hrow
      exact hg.rows row (List.mem_of_mem_filter hrow)
    · have hcapacity : d.capacity = max config.capacity 1 := by
        rw [hd.capacity, Chunk.reference, hg.out, hout, Chunk.capacity_blank]
      have hreset : d.reset = Chunk.blank input.types config.capacity := Chunk.reset_eq_blank htyped hcapacity
      have hstep (masks : List (Nat × Mask)) : Pull.changeOut Chunk.reset (Frame.withMasks { g with out := d } masks) =
          .ok () (Frame.withMasks { g with out := Chunk.blank input.types config.capacity } masks) := by
        rw [← hreset]
        rfl
      exact .step (hstep g.session.masks) (hstep others) rfl (ih hg.left rfl hs')

theorem passed_filter (ps : List Expr) (h : Passed t W input 0 input.start.cells) :
    Passed t W (filter config ps input) 0 (filter config ps input).start.cells :=
  Passed.of_work (K := fun k _ below => Passed t W input k below) rfl
    (fun _ _ _ hout hK hs => .step rfl rfl rfl (passed_filterChunks _ hK hout hs)) h

/-- A chunk of the input answered by one that is mapped from it. -/
theorem passed_mapChunk {V : Nat → Row → Prop} {types : List SqlType} {F : Row → Row} {fill : Chunk → Filling Unit}
    (hfill : ∀ c d, c.Sound → c.types = input.types → fill c (Chunk.blank types config.capacity) = .ok () d →
      Chunk.Mapped types F c d)
    (hF : ∀ k row, V k row → W k (F row)) (h : Passed t V input k f.below)
    (hout : f.out = Chunk.blank types config.capacity) (hs : SameFrom t k f.session.masks others) :
    Pull.Overlooks others
      (do
        let chunk ← input.fetch
        if chunk.isEmpty then return
        Pull.filling (fill chunk))
      f fun _ g => Passed.Worked W types (fun k _ below => Passed t V input k below) k g := by
  refine h.taken hout hs fun chunk k' g _ _ hg => .filling fun _ d hd => ?_
  rw [hg.out, hout] at hd
  have hmap := hfill chunk d hg.sound hg.typed hd
  refine ⟨hmap.sound, hmap.typed, fun _ => ⟨k', Nat.le_refl _, hg.positive, hg.left, fun row hrow => ?_⟩⟩
  have hrow : row ∈ d.rows := hrow
  rw [hmap.rows] at hrow
  obtain ⟨row, hmem, rfl⟩ := List.mem_map.mp hrow
  exact hF k' row (hg.rows row hmem)

theorem passed_project {V : Nat → Row → Prop} {exprs : List Expr} {types : List SqlType}
    (hlen : exprs.length = types.length) (hV : ∀ k row, V k row → W k (exprs.map (Expr.valueOn row)))
    (h : Passed t V input 0 input.start.cells) :
    Passed t W (project config exprs types input) 0 (project config exprs types input).start.cells :=
  Passed.of_work (K := fun k _ below => Passed t V input k below) rfl
    (fun _ _ _ hout hK hs => passed_mapChunk (fun _ _ hc _ hd => projectChunk_ok hc hlen hd) hV hK hout hs) h

theorem passed_prune {V : Nat → Row → Prop} (limit : Nat) (hV : ∀ k row, V k row → W k (row.take limit))
    (h : Passed t V input 0 input.start.cells) :
    Passed t W (prune config limit input) 0 (prune config limit input).start.cells :=
  Passed.of_work (K := fun k _ below => Passed t V input k below) rfl
    (fun _ _ _ hout hK hs => passed_mapChunk (fun _ _ hc ht hd => pruneChunk_ok hc ht hd) hV hK hout hs) h

theorem passed_limitChunks {stop : Option Nat} {offset seen : Nat} (rounds : Nat) (h : Passed t W input k f.below)
    (hout : f.out = Chunk.blank input.types config.capacity) (hs : SameFrom t k f.session.masks others) :
    Pull.Overlooks others (limitChunks input stop offset rounds seen) f fun _ g =>
      Passed.Worked W input.types (fun k cell below => (∃ seen, cell.progress = .limit seen) ∧ Passed t W input k below)
        k g := by
  induction rounds generalizing f k seen with
  | zero => exact .throw
  | succ rounds ih =>
    refine .ite (fun _ => .pure (Passed.Worked.none hout)) fun _ => h.taken hout hs fun chunk k' g hle hs' hg => ?_
    refine .lift_bind fun next _ => .step rfl rfl rfl ?_
    refine .ite (fun _ => ih hg.left (hg.out.trans hout) hs') fun hlt => .lift_bind fun wanted hwanted => ?_
    obtain ⟨hsound, htyped, hrows, -⟩ := limitChunk_ok hg.sound (Nat.lt_of_not_le hlt) hwanted
    refine .last rfl rfl rfl ⟨hsound.reference _, htyped.trans hg.typed, fun _ =>
      ⟨k', Nat.le_refl _, hg.positive, ⟨⟨next, rfl⟩, hg.left⟩, fun row hrow => ?_⟩⟩
    have hrow : row ∈ wanted.rows := hrow
    rw [hrows] at hrow
    exact hg.rows row (List.mem_of_mem_take (List.mem_of_mem_drop hrow))

theorem passed_limit (n : Option Nat) (offset : Nat) (h : Passed t W input 0 input.start.cells) :
    Passed t W (limit config n offset input) 0 (limit config n offset input).start.cells := by
  refine Passed.of_work (K := fun k cell below => (∃ seen, cell.progress = .limit seen) ∧ Passed t W input k below) rfl
    (fun f k others hout ⟨⟨seen, hseen⟩, hK⟩ hs => ?_) ⟨⟨0, rfl⟩, h⟩
  refine .step rfl rfl rfl ?_
  simp only [hseen]
  exact .step rfl rfl rfl (passed_limitChunks _ hK hout hs)

/-! ### The whole input first -/

/-- The input has not been read and nothing been passed, or there is an output. -/
def Kept (input : Operator) (capacity : Nat) (keep : Option Output → Progress) (types : List SqlType) (k : Nat) (cell : Cell)
    (below : List Cell) : Prop :=
  (cell.progress = keep none ∧ k = 0 ∧ input.Steady capacity below) ∨
    ∃ o all, cell.progress = keep (some o) ∧ o.Holds types all

variable {keep : Option Output → Progress} {types : List SqlType}

theorem passed_handOut {o : Output} {all : List Row} (hend : ∀ k row, t.table.rows < k → W k row)
    (hout : f.out = Chunk.blank types config.capacity) (ho : o.Holds types all) :
    Pull.Overlooks others (handOut keep o) f fun _ g =>
      Passed.Worked W types (Kept input config.capacity keep types) k g := by
  refine .ite (fun _ => .pure (Passed.Worked.none hout)) fun hmore => .step rfl rfl rfl ?_
  refine (Pull.Overlooks.filling (Q := fun _ g => ∃ d, g = { f with out := d } ∧ d.Sound ∧ d.types = types) fun _ d hd => ?_).bind
    fun _ g _ ⟨d, hg, hsound, htyped⟩ => ?_
  · rw [hout] at hd
    obtain ⟨hsound, htyped, -⟩ := fillPiece_ok (ho.lists (by omega)) hd
    exact ⟨d, rfl, hsound, htyped⟩
  · subst hg
    exact .last rfl rfl rfl ⟨hsound, htyped, fun _ => ⟨max k (t.table.rows + 1), Nat.le_max_left _ _, by omega,
      .inr ⟨_, all, rfl, ⟨ho.lists, ho.counted⟩⟩, fun row _ => hend _ row (by omega)⟩⟩

/-- The first pull computes the output; then the masks are those of the start. -/
theorem passed_firstOutput {compute : Pull Output} {F : List Row → List Row}
    (hcompute : ∀ {T : Terms} {f : Frame} {given : List Row}, Gives T input input given f.below → T.sees f.session.masks →
      Pull.Agree compute compute f (Computed T types F given f))
    (hend : ∀ k row, t.table.rows < k → W k row) (hout : f.out = Chunk.blank types config.capacity)
    (hs : SameFrom t 0 f.session.masks others) (h : input.Steady config.capacity f.below) :
    Pull.Overlooks others (do handOut keep (← firstOutput keep compute)) f fun _ g =>
      Passed.Worked W types (Kept input config.capacity keep types) 0 g := by
  obtain ⟨given, hgiven⟩ := h f.session.masks
  have hbuffered : Pull.Overlooks others (Pull.buffering compute) f fun o g => g.out = f.out ∧ ∃ all, o.Holds types all := by
    refine .of_same (hs.whole rfl) fun o g hok => ?_
    have hagree := Pull.Agree.buffering (Q := fun o g => g.session.masks = f.session.masks ∧ g.out = f.out ∧
      ∃ all, o.Holds types all) ((hcompute hgiven rfl).mono fun o g hg => ?_)
    · exact hagree.2 o g hok
    · obtain ⟨all, hall, -⟩ := hg.holds
      exact ⟨hg.sees, hg.out, all, hall⟩
  unfold firstOutput
  rw [bind_assoc]
  refine hbuffered.bind fun o g _ ⟨hg, all, ho⟩ => ?_
  rw [bind_assoc]
  refine .step rfl rfl rfl ?_
  rw [pure_bind]
  exact passed_handOut hend (hg.trans hout) ho

theorem passed_order (keys : List SortKey) (hend : ∀ k row, t.table.rows < k → W k row)
    (h : input.Steady config.capacity input.start.cells) :
    Passed t W (order config keys input) 0 (order config keys input).start.cells := by
  refine Passed.of_work (K := Kept input config.capacity .order input.types) rfl (fun f k others hout hK hs => ?_)
    (.inl ⟨rfl, rfl, h⟩)
  refine .step rfl rfl rfl ?_
  rcases hK with ⟨hp, rfl, hinput⟩ | ⟨o, all, hp, ho⟩
  · simp only [hp]
    exact passed_firstOutput (agree_sortInput keys) hend hout hs hinput
  · simp only [hp]
    exact passed_handOut hend hout ho

theorem passed_window (calls : List WindowCall) (hend : ∀ k row, t.table.rows < k → W k row)
    (h : input.Steady config.capacity input.start.cells) :
    Passed t W (window config calls input) 0 (window config calls input).start.cells := by
  refine Passed.of_work (K := Kept input config.capacity .window (input.types ++ calls.map WindowCall.type)) rfl
    (fun f k others hout hK hs => ?_) (.inl ⟨rfl, rfl, h⟩)
  refine .step rfl rfl rfl ?_
  rcases hK with ⟨hp, rfl, hinput⟩ | ⟨o, all, hp, ho⟩
  · simp only [hp]
    exact passed_firstOutput (agree_windowInput calls) hend hout hs hinput
  · simp only [hp]
    exact passed_handOut hend hout ho

theorem passed_aggregate (keys : List Expr) (keyTypes : List SqlType) (calls : List AggregateCall)
    (hend : ∀ k row, t.table.rows < k → W k row) (h : input.Steady config.capacity input.start.cells) :
    Passed t W (aggregate config keys keyTypes calls input) 0 (aggregate config keys keyTypes calls input).start.cells := by
  refine Passed.of_work (K := Kept input config.capacity .aggregate (keyTypes ++ calls.map AggregateCall.type)) rfl
    (fun f k others hout hK hs => ?_) (.inl ⟨rfl, rfl, h⟩)
  refine .step rfl rfl rfl ?_
  rcases hK with ⟨hp, rfl, hinput⟩ | ⟨o, all, hp, ho⟩
  · simp only [hp]
    exact passed_firstOutput (agree_groupInput keyTypes) hend hout hs hinput
  · simp only [hp]
    exact passed_handOut hend hout ho

end
end Operator
end QueryEngine
