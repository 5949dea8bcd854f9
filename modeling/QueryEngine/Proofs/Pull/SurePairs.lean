import QueryEngine.Proofs.Expr.Failing
import QueryEngine.Proofs.Pull.Join
import QueryEngine.Proofs.Pull.SureBuffered

/-! Operators with two inputs are sure.

The right input is sure from its fresh state, so it is read to its end once and what is
kept of it has its rows. What is left of a cross product are the pairs of the chunk in the
buffer and of the left rows to come; what is left of a join are the pairs that are owed
and, for every left row to come, a pair with each right row or one row without. -/
namespace QueryEngine.Operator
variable {T : Terms} {config : Config} {left right : Operator} {f : Frame} {rows : List Row}

theorem ends_drainRight {α : Type} {finish : Collection → Pull α} {Q : α → Prop} (h : Sure T right right.start.cells)
    (hle : right.rowsBelow right.start.cells ≤ maxCount)
    (hfinish : ∀ buffered rows g, buffered.Holds right.types rows → buffered.count ≤ right.rowsLeft right.start →
      Ends (finish buffered) g fun a k => Q a ∧ Pull.Booked g k) :
    Ends (drainRight right finish) f fun a g => Q a ∧ Aside T f g := by
  refine .buffering (.onFresh ((h.drain hle (f := { f with below := right.start.cells })).bind fun buffered g hg => ?_))
  obtain ⟨rows, hrows⟩ := hg.holds
  have hbounded : buffered.count ≤ 0 + right.rowsLeft right.start := hg.bounded
  refine (hfinish buffered rows g hrows (by omega)).mono fun a k ⟨ha, held, pool, hk⟩ => ⟨ha, ?_⟩
  obtain ⟨held', hcell⟩ := hg.cell
  refine ⟨h.sees _, ?_, rfl, held - f.cell.reserved, ?_⟩
  · rw [hk]
    exact hg.out
  · rw [hk]
    simp only [Frame.giveBack, Frame.replaceBelow, hcell]

/-! ### Cross products -/

/-- Every column of the right side has a value for the row that is repeated. -/
theorem broadcast_yields {columns : List Column} {types : List SqlType} {rows : List Row} {n position : Nat}
    (h : Lists columns types rows) (hrow : position < rows.length) :
    Filling.Computes ((columns.zip types).map fun c => (do
        let v ← c.1.get position
        return Column.fill n (Slot.ofScalar (if v.isNull then c.2 else v.type) v) : Except Failure Column)) types := by
  rw [← h.typed, ← List.map_prod_left_eq_zip, List.map_map]
  refine .of_columns fun c hc => ?_
  have hlt : position < c.size := by
    rw [h.size hc]
    exact hrow
  have hget := c.get_eq_ok position hlt
  show Yields _ (liftM (c.get position) >>= _) _
  rw [hget]
  show (if _ then c.type else _) = c.type
  rcases c.typed _ (List.getElem_mem hlt) with hnull | htype
  · rw [hnull]
    rfl
  · rw [htype, ite_self]

theorem pairRow_ends {side : Output} {chunk : Chunk} {types : List SqlType} {capacity : Nat}
    (ht : chunk.types = types) (hside : Lists side.columns right.types rows) (hrow : side.position < rows.length) :
    Ends (pairRow (types ++ right.types) side chunk) (Chunk.blank (types ++ right.types) capacity) fun _ d =>
      d.count = chunk.count := by
  have hwidth : chunk.columns.length = types.length := by rw [← ht, Chunk.types, List.length_map]
  refine (Filling.putAll_ends ?_).bind fun _ d hd => ?_
  · rw [Chunk.types_blank, List.drop_zero, ← ht]
    exact List.prefix_append _ _
  have hright : (types ++ right.types).drop chunk.columns.length = right.types := by rw [hwidth, List.drop_left]
  rw [hright]
  have hrest : d.types.drop chunk.columns.length = right.types := by rw [hd.types, Chunk.types_blank, hright]
  exact (Filling.putComputed_ends (broadcast_yields hside hrow) (hrest.symm ▸ List.prefix_refl _)).bind fun _ d _ =>
    .of_ok rfl rfl

/-- A right side to pair rows with, and the left chunk to pair it with. -/
structure SideBeside (T : Terms) (left right : Operator) (side : Output) (buffer : Chunk) : Prop where
  lists : ∃ rows, Lists side.columns right.types rows ∧ side.rows = rows.length
  handed : side.position < side.rows → T.Handed left.types buffer

/-- What holds of a cross product between pulls. -/
def Paired (T : Terms) (left right : Operator) (cell : Cell) (below : List Cell) : Prop :=
  Sure T left below ∧ (cell.progress = .cross none ∨
    ∃ side, cell.progress = .cross (some side) ∧ SideBeside T left right side cell.buffer)

/-- The rows left of a cross product with a right side in the cell. -/
def pairsLeft (left : Operator) (side : Output) (buffer : Chunk) (below : List Cell) : Nat :=
  (side.rows - side.position) * buffer.count + side.rows * left.rowsBelow below

theorem pairsLeft_next {side : Output} {buffer : Chunk} {below : List Cell} (h : side.position < side.rows) :
    buffer.count + pairsLeft left { side with position := side.position + 1 } buffer below =
      pairsLeft left side buffer below := by
  obtain ⟨n, hn⟩ : ∃ n, side.rows = side.position + 1 + n := Nat.exists_eq_add_of_le h
  have hnext : side.rows - (side.position + 1) = n := by omega
  have hnow : side.rows - side.position = n + 1 := by omega
  show buffer.count + ((side.rows - (side.position + 1)) * buffer.count + side.rows * left.rowsBelow below) = _
  rw [pairsLeft, hnext, hnow, Nat.succ_mul]
  omega

/-- Another left chunk, with every row of the right, is taken from what the left input has left. -/
theorem pairsLeft_fetched (side : Output) (buffer : Chunk) {chunk : Chunk} {below before : List Cell}
    (h : chunk.count + left.rowsBelow below ≤ left.rowsBelow before) :
    pairsLeft left { side with position := 0 } chunk below ≤ pairsLeft left side buffer before := by
  have hfewer := Nat.mul_le_mul_left side.rows h
  rw [Nat.mul_add] at hfewer
  exact hfewer.trans (Nat.le_add_left ..)

theorem pairsLeft_exhausted {side : Output} (h : ¬side.position < side.rows) (buffer chunk : Chunk) (below : List Cell) :
    pairsLeft left side buffer below ≤ pairsLeft left { side with position := 0 } chunk below := by
  rw [pairsLeft, Nat.sub_eq_zero_of_le (Nat.le_of_not_lt h), Nat.zero_mul, Nat.zero_add]
  exact Nat.le_add_left ..

theorem cross_left {cell : Cell} {below : List Cell} {side : Output} (hp : cell.progress = .cross (some side)) :
    (cross config left right).rowsBelow (cell :: below) = pairsLeft left side cell.buffer below := by
  simp only [rowsBelow, cross, hp, pairsLeft]

theorem ends_crossLeft {side : Output} (h : Sure T left f.below) (hrows : side.rows ≠ 0)
    (hside : SideBeside T left right side f.cell.buffer) :
    Ends (crossLeft left side) f fun found g => g.out = f.out ∧ Sure T left g.below ∧
      match found with
      | none => g.cell.progress = f.cell.progress ∧
        pairsLeft left side g.cell.buffer g.below ≤ pairsLeft left side f.cell.buffer f.below
      | some (chunk, side') => g.cell.buffer = chunk ∧ side'.position < side'.rows ∧
        SideBeside T left right side' chunk ∧
          pairsLeft left side' chunk g.below ≤ pairsLeft left side f.cell.buffer f.below := by
  unfold crossLeft
  refine .ite (fun hmore => ?_) fun hend => h.fetch.bind fun chunk g hg => .pure ⟨hg.out, hg.left, ?_⟩
  · exact .step rfl (.pure ⟨rfl, h, rfl, hmore, hside, Nat.le_refl _⟩)
  have hfewer := pairsLeft_fetched side f.cell.buffer hg.fewer
  by_cases he : chunk.isEmpty = true
  · rw [if_pos he]
    exact ⟨by rw [hg.cell], (pairsLeft_exhausted hend _ chunk _).trans hfewer⟩
  · rw [if_neg he]
    exact ⟨by rw [hg.cell], Nat.pos_of_ne_zero hrows, ⟨hside.lists, fun _ => hg.handed⟩, hfewer⟩

theorem ends_crossPair {side : Output} (h : Sure T left f.below) (hp : f.cell.progress = .cross (some side))
    (hside : SideBeside T left right side f.cell.buffer)
    (hout : f.out = Chunk.blank (left.types ++ right.types) config.capacity) :
    Ends
      (do
        if side.rows = 0 then return
        let some (chunk, side) ← crossLeft left side | return
        Pull.setProgress (.cross (some { side with position := side.position + 1 }))
        Pull.filling (pairRow (left.types ++ right.types) side chunk))
      f fun _ g => (g.out.isEmpty = false → Paired T left right g.cell g.below) ∧
        g.out.count + (cross config left right).rowsBelow g.cells ≤ pairsLeft left side f.cell.buffer f.below := by
  refine .ite (fun _ => .pure ⟨fun _ => ⟨h, .inr ⟨side, hp, hside⟩⟩, ?_⟩) fun hrows => ?_
  · rw [hout, Chunk.count_blank, Nat.zero_add, Frame.cells, cross_left hp]
  refine (ends_crossLeft h hrows hside).bind fun found g hdone => ?_
  obtain ⟨hg, hleft, hfound⟩ := hdone
  cases found with
  | none =>
    obtain ⟨hprogress, hfewer⟩ := hfound
    refine .pure ⟨fun he => ?_, ?_⟩
    · rw [hg, hout] at he
      cases he
    · rw [hg, hout, Chunk.count_blank, Nat.zero_add, Frame.cells, cross_left (hprogress.trans hp)]
      exact hfewer
  | some pair =>
    obtain ⟨chunk, side'⟩ := pair
    obtain ⟨hbuffer, hmore, hbeside, hfewer⟩ := hfound
    obtain ⟨rows, hlists, hcount⟩ := hbeside.lists
    refine .step rfl (.filling ?_)
    show Ends _ g.out _
    rw [hg, hout]
    refine (pairRow_ends (hbeside.handed hmore).typed hlists (hcount ▸ hmore)).mono fun _ d hd =>
      ⟨fun _ => ⟨hleft, .inr ⟨_, rfl, ⟨rows, hlists, hcount⟩, fun _ => ?_⟩⟩, ?_⟩
    · show T.Handed left.types g.cell.buffer
      exact hbuffer ▸ hbeside.handed hmore
    · rw [Frame.cells, cross_left rfl]
      show d.count + pairsLeft left { side' with position := side'.position + 1 } g.cell.buffer g.below ≤ _
      rw [hd, hbuffer, pairsLeft_next hmore]
      exact hfewer

theorem ends_crossRight (hright : Sure T right right.start.cells)
    (hle : right.rowsBelow right.start.cells ≤ maxCount) :
    Ends (crossRight right) f fun side g =>
      ((∃ rows, Lists side.columns right.types rows ∧ side.rows = rows.length) ∧ side.position = side.rows ∧
        side.rows ≤ right.rowsLeft right.start) ∧
          g.cell.progress = .cross (some side) ∧ g.out = f.out ∧ g.below = f.below := by
  unfold crossRight
  refine (ends_drainRight (Q := fun side : Output => (∃ rows, Lists side.columns right.types rows ∧
    side.rows = rows.length) ∧ side.position = side.rows ∧ side.rows ≤ right.rowsLeft right.start) hright hle
    fun buffered rows g hrows hbounded => ?_).bind fun side g ⟨hside, hg⟩ => .step rfl (.pure ⟨hside, rfl, hg.out, hg.below⟩)
  obtain ⟨columns, hcolumns, hlists⟩ := hrows.materialize_ok
  rw [hcolumns]
  exact .step (a := columns) rfl (.pure ⟨⟨⟨rows, hlists, hrows.counted⟩, rfl, hbounded⟩, .self g⟩)

theorem sure_cross (hsees : ∀ masks, T.sees masks) (hverify : config.verify = false)
    (hleft : Sure T left left.start.cells) (hright : Sure T right right.start.cells)
    (hle : right.rowsBelow right.start.cells ≤ maxCount)
    (hgives : Gives T (cross config left right) (cross config left right) rows (cross config left right).start.cells) :
    Sure T (cross config left right) (cross config left right).start.cells := by
  refine Sure.of_work (K := Paired T left right) hsees hverify rfl hgives ⟨hleft, .inl rfl⟩ (fun _ _ => rfl)
    fun f hout hK => .step rfl ?_
  obtain ⟨hinput, hp⟩ := hK
  rcases hp with hp | ⟨side, hp, hside⟩
  · simp only [hp]
    refine (ends_crossRight hright hle).bind fun side g hside => ?_
    obtain ⟨⟨hlists, hend, hfew⟩, hprogress, hg, hbelow⟩ := hside
    have hnone : side.rows - side.position = 0 := by omega
    refine (ends_crossPair (hbelow ▸ hinput) hprogress ⟨hlists, fun hmore => by omega⟩ (hg.trans hout)).mono
      fun _ k hk => ⟨hk.1, hk.2.trans ?_⟩
    have hbefore : (cross config left right).rowsBelow f.cells = right.rowsLeft right.start * left.rowsBelow f.below := by
      simp only [Frame.cells, rowsBelow, cross, hp]
    rw [pairsLeft, hnone, Nat.zero_mul, Nat.zero_add, hbelow, hbefore]
    exact Nat.mul_le_mul_right _ hfew
  · simp only [hp]
    have hleft : (cross config left right).rowsBelow f.cells = pairsLeft left side f.cell.buffer f.below := cross_left hp
    rw [hleft]
    exact ends_crossPair hinput hp hside hout

end QueryEngine.Operator
