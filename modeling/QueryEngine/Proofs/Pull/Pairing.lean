import QueryEngine.Proofs.Chunk.Filled
import QueryEngine.Proofs.Join.Build
import QueryEngine.Proofs.Join.Result
import QueryEngine.Proofs.Pull.Gives
import QueryEngine.Pull.Pairing

/-! What operators give that have two inputs.

The right input is read to its end from a fresh state, so the cells below stay those
of the left input. In which order a cross product pairs its rows depends on the chunks
of the left input; a join gives what the nested-loop join gives. -/
namespace QueryEngine

/-- What reading the right input leaves as it was. -/
structure Aside (T : Terms) (f g : Frame) : Prop where
  sees : T.sees g.session.masks
  out : g.out = f.out
  below : g.below = f.below
  cell : ∃ held, g.cell = { f.cell with reserved := held }

namespace Operator
variable {T : Terms} {left₁ left₂ right₁ right₂ : Operator} {f : Frame}

theorem agree_drainRight {α : Type} {given : List Row} {finish₁ finish₂ : Collection → Pull α} {Q : α → Prop}
    (h : Gives T right₁ right₂ given right₁.start.cells) (hs : T.sees f.session.masks)
    (hfinish : ∀ buffered all g, buffered.Holds right₁.types all → (T.told → all = given) →
      Pull.Agree (finish₁ buffered) (finish₂ buffered) g fun a g' => Q a ∧ Pull.Booked g g') :
    Pull.Agree (drainRight right₁ finish₁) (drainRight right₂ finish₂) f fun a g => Q a ∧ Aside T f g := by
  unfold drainRight
  rw [h.alike.start]
  refine Pull.Agree.buffering (Pull.Agree.onFresh ?_)
  have hdrain := Gives.drain (f := { f with below := right₁.start.cells }) h hs
  refine hdrain.bind fun buffered g hg => ?_
  obtain ⟨all, hall, htold⟩ := hg.holds
  refine (hfinish buffered all g hall fun ht => ?_).mono fun a g' ⟨ha, hg'⟩ => ⟨ha, ?_⟩
  · rw [htold ht, List.nil_append]
  · obtain ⟨held, pool, rfl⟩ := hg'
    obtain ⟨held', hcell⟩ := hg.cell
    refine ⟨hg.sees, hg.out, rfl, held - f.cell.reserved, ?_⟩
    simp only [Frame.giveBack, Frame.replaceBelow, hcell]

/-! ### Cross products -/

/-- A right row repeated below itself: every row shows it. -/
theorem broadcast_ok {side : Output} {n : Nat} {extra : List Column}
    (h : (side.columns.zip (side.columns.map Column.type)).mapM (fun c => do
      let v ← c.1.get side.position
      return Column.fill n (Slot.ofScalar (if v.isNull then c.2 else v.type) v) : Column × SqlType → Except Failure Column) =
        .ok extra) :
    (∀ column ∈ extra, column.size = n) ∧
      ∀ r < n, (extra.map fun column => column.datum r) = side.columns.map fun column => column.datum side.position := by
  rw [← List.map_prod_left_eq_zip, mapM_eq_ok_iff, List.forall₂_map_left_iff] at h
  have hfill (column : Column) (filled : Column) (hcolumn : (do
      let v ← (liftM (column.get side.position) : Except Failure Scalar)
      return Column.fill n (Slot.ofScalar (if v.isNull then column.type else v.type) v)) = .ok filled) :
      filled.size = n ∧ ∀ r < n, filled.datum r = column.datum side.position := by
    obtain ⟨v, hv, hcolumn⟩ := bind_eq_ok.mp hcolumn
    have hv : v = (column.datum side.position).value := Column.get_ok (lift_eq_ok.mp hv)
    cases hcolumn
    refine ⟨Column.size_fill _ _, fun r hr => ?_⟩
    have htype : (if v.isNull then column.type else v.type) = column.type := by
      rcases column.value_fits side.position with hnull | htype
      · rw [hv, hnull]
        rfl
      · rw [hv, htype, ite_self]
    have hfits : v.Fits (if v.isNull then column.type else v.type) := by
      rw [htype, hv]
      exact column.value_fits side.position
    rw [Column.datum_fill _ hr, Datum.ofSlot, Slot.ofScalar_val hfits, htype, hv]
    rfl
  generalize side.columns = columns at h ⊢
  induction h with
  | nil => exact ⟨List.forall_mem_nil _, fun _ _ => rfl⟩
  | @cons column filled columns extra hcolumn _ ih =>
    obtain ⟨hsize, hdatum⟩ := hfill column filled hcolumn
    refine ⟨List.forall_mem_cons.mpr ⟨hsize, ih.1⟩, fun r hr => ?_⟩
    rw [List.map_cons, List.map_cons, hdatum r hr, ih.2 r hr]

/-- The left columns, and beside them one right row as columns of their length. -/
theorem pairRow_columns {types rightTypes : List SqlType} {side : Output} {rows : List Row} {capacity : Nat} {c d : Chunk}
    (ht : c.types = types) (hside : Lists side.columns rightTypes rows)
    (h : pairRow (types ++ rightTypes) side c (Chunk.blank (types ++ rightTypes) capacity) = .ok () d) :
    ∃ extra : List Column, d = Chunk.setCountFrom ⟨c.columns ++ extra, none, 0, max capacity 1⟩ c ∧
      extra.map Column.type = rightTypes ∧ (∀ column ∈ extra, column.size = c.physicalRows) ∧
      ∀ r < c.physicalRows, (extra.map fun column => column.datum r) =
        side.columns.map fun column => column.datum side.position := by
  obtain ⟨_, filled, hleft, hrest⟩ := run_bind_eq_ok.mp h
  obtain ⟨_, filled', hright, hrest⟩ := run_bind_eq_ok.mp hrest
  cases hrest
  obtain ⟨extra, hextra, hright⟩ := Filling.putComputed_ok hright
  have hwidth : c.columns.length = types.length := by rw [← ht, Chunk.types, List.length_map]
  have hbroadcast := mapM_eq_ok_iff_map.mpr hextra
  rw [hwidth, List.drop_left, ← hside.typed] at hbroadcast
  have hlen : (c.columns ++ extra).length = (types ++ rightTypes).length := by
    rw [List.length_append, List.length_append, length_of_mapM hbroadcast, List.length_zip, hwidth, List.length_map,
      Nat.min_self, hside.length]
  obtain ⟨rfl, htyped⟩ := Filling.putAll_blank hlen (Filling.putAll_beside hleft hright)
  rw [List.map_append] at htyped
  exact ⟨extra, rfl, (List.append_inj htyped (congrArg List.length ht)).2, broadcast_ok hbroadcast⟩

/-- The left columns with one right row beside every row. -/
theorem pairRow_ok {types rightTypes : List SqlType} {side : Output} {rows : List Row} {capacity : Nat} {c d : Chunk}
    (hc : c.Sound) (ht : c.types = types) (hside : Lists side.columns rightTypes rows)
    (h : pairRow (types ++ rightTypes) side c (Chunk.blank (types ++ rightTypes) capacity) = .ok () d) :
    Chunk.Mapped (types ++ rightTypes) (· ++ side.columns.map fun column => column.datum side.position) c d := by
  obtain ⟨extra, rfl, htyped, hsize, hdatum⟩ := pairRow_columns ht hside h
  refine Chunk.mapped_setCountFrom capacity hc ?_ (fun column hcol => ?_) fun r hr => ?_
  · rw [List.map_append, htyped, ← ht, Chunk.types]
  · rcases List.mem_append.mp hcol with hcol | hcol
    · exact hc.even column hcol
    · exact hsize column hcol
  · rw [List.map_append, hdatum r (hc.active_lt hr)]
    rfl

/-- What holds of a cross product between pulls: while there are right rows to pair
it with, the left chunk in the buffer has rows. -/
def Crossing (T : Terms) (left₁ left₂ : Operator) (rightTypes : List SqlType) (_ : List Row) (cell : Cell)
    (below : List Cell) : Prop :=
  (∃ given, Gives T left₁ left₂ given below) ∧
    (cell.progress = .cross none ∨ ∃ side rows, cell.progress = .cross (some side) ∧
      Lists side.columns rightTypes rows ∧
      (side.position < side.rows → T.Handed left₁.types cell.buffer ∧ cell.buffer.isEmpty = false))

section
variable {rows given rightRows : List Row}

theorem agree_crossLeft {side : Output} (hleft : Gives T left₁ left₂ given f.below) (hs : T.sees f.session.masks)
    (hbuffer : side.position < side.rows → T.Handed left₁.types f.cell.buffer ∧ f.cell.buffer.isEmpty = false) :
    Pull.Agree (crossLeft left₁ side) (crossLeft left₂ side) f fun found g =>
      T.sees g.session.masks ∧ g.out = f.out ∧ g.cell.finished = f.cell.finished ∧
        (∃ given, Gives T left₁ left₂ given g.below) ∧
        ∀ chunk side', found = some (chunk, side') → g.cell.buffer = chunk ∧ T.Handed left₁.types chunk ∧
          chunk.isEmpty = false ∧ side'.columns = side.columns := by
  unfold crossLeft
  refine Pull.Agree.ite (fun hmore => ?_) fun _ => ?_
  · obtain ⟨hhanded, hrows⟩ := hbuffer hmore
    refine Pull.Agree.step rfl (Pull.Agree.pure ⟨hs, rfl, rfl, ⟨given, hleft⟩, fun chunk side' hfound => ?_⟩)
    cases hfound
    exact ⟨rfl, hhanded, hrows, rfl⟩
  · refine (hleft.fetch hs).bind fun chunk g hg => Pull.Agree.pure ?_
    obtain ⟨rest, hrest, _⟩ := hg.left
    refine ⟨hg.sees, hg.out, by rw [hg.cell], ⟨rest, hrest⟩, fun chunk' side' hfound => ?_⟩
    by_cases he : chunk.isEmpty = true
    · rw [if_pos he] at hfound
      cases hfound
    · rw [if_neg he] at hfound
      cases hfound
      exact ⟨by rw [hg.cell], hg.handed, Bool.eq_false_iff.mpr he, rfl⟩

theorem agree_crossPair {side : Output} (htold : ¬T.told) (hleft : Gives T left₁ left₂ given f.below)
    (hside : Lists side.columns right₁.types rightRows) (hf : f.cell.finished = false)
    (hout : f.out = Chunk.blank (left₁.types ++ right₁.types) T.capacity) (hs : T.sees f.session.masks)
    (hbuffer : side.position < side.rows → T.Handed left₁.types f.cell.buffer ∧ f.cell.buffer.isEmpty = false) :
    Pull.Agree
      (do
        if side.rows = 0 then return
        let some (chunk, side) ← crossLeft left₁ side | return
        Pull.setProgress (.cross (some { side with position := side.position + 1 }))
        Pull.filling (pairRow (left₁.types ++ right₁.types) side chunk))
      (do
        if side.rows = 0 then return
        let some (chunk, side) ← crossLeft left₂ side | return
        Pull.setProgress (.cross (some { side with position := side.position + 1 }))
        Pull.filling (pairRow (left₁.types ++ right₁.types) side chunk))
      f fun _ g => Worked T (left₁.types ++ right₁.types) (Crossing T left₁ left₂ right₁.types) rows g := by
  refine Pull.Agree.ite (fun _ => Pull.Agree.pure (Worked.none hout hf hs fun ht => absurd ht htold)) fun _ => ?_
  refine (agree_crossLeft hleft hs hbuffer).bind fun found g ⟨hsees, hg, hfinished, hgiven, hfound⟩ => ?_
  cases found with
  | none => exact Pull.Agree.pure (Worked.none (hg.trans hout) (hfinished.trans hf) hsees fun ht => absurd ht htold)
  | some pair =>
    obtain ⟨chunk, side'⟩ := pair
    obtain ⟨hbuffer', hhanded, hrows, hcolumns⟩ := hfound chunk side' rfl
    refine Pull.Agree.step rfl (Pull.Agree.filling fun _ d hd => ?_)
    have hd : pairRow (left₁.types ++ right₁.types) side' chunk
        (Chunk.blank (left₁.types ++ right₁.types) T.capacity) = .ok () d := by
      rw [← hout, ← hg]
      exact hd
    have hside' : Lists side'.columns right₁.types rightRows := hcolumns ▸ hside
    have hmap := pairRow_ok hhanded.sound hhanded.typed hside' hd
    refine ⟨⟨hmap.sound, hmap.typed, fun ht => ?_⟩, hsees, hfinished.trans hf, fun _ ht => absurd ht htold, fun _ =>
      ⟨[], ⟨hgiven, .inr ⟨_, rightRows, rfl, hside', fun _ => ?_⟩⟩, fun ht => absurd ht htold⟩⟩
    · have htidy := hhanded.tidy ht
      exact ⟨hmap.count ▸ htidy.bounded, hmap.active ▸ htidy.increasing⟩
    · show T.Handed left₁.types g.cell.buffer ∧ g.cell.buffer.isEmpty = false
      rw [hbuffer']
      exact ⟨hhanded, hrows⟩

/-- What reading the right side leaves. -/
theorem agree_crossRight (hright : Gives T right₁ right₂ rightRows right₁.start.cells) (hs : T.sees f.session.masks) :
    Pull.Agree (crossRight right₁) (crossRight right₂) f fun side g =>
      ((∃ rows, Lists side.columns right₁.types rows ∧ side.rows = rows.length ∧ (T.told → rows = rightRows)) ∧
          side.position = side.rows) ∧
        T.sees g.session.masks ∧ g.out = f.out ∧ g.below = f.below ∧ g.cell.finished = f.cell.finished := by
  unfold crossRight
  refine (agree_drainRight (Q := fun side => (∃ rows, Lists side.columns right₁.types rows ∧ side.rows = rows.length ∧
    (T.told → rows = rightRows)) ∧ side.position = side.rows) hright hs fun buffered all g hall htold => ?_).bind
    fun side g ⟨hside, hg⟩ => ?_
  · refine Pull.Agree.lift_bind fun columns hcolumns => Pull.Agree.pure ⟨⟨⟨all, ?_, ?_, htold⟩, rfl⟩, Pull.Booked.self g⟩
    · exact hall.materialize hcolumns
    · exact hall.counted
  · obtain ⟨held, hcell⟩ := hg.cell
    refine Pull.Agree.step rfl (Pull.Agree.pure ⟨hside, hg.sees, hg.out, hg.below, ?_⟩)
    show g.cell.finished = f.cell.finished
    rw [hcell]

/-- What a cross product gives is not told beforehand: it depends on the chunks of its
left input. -/
theorem gives_cross {c₁ c₂ : Config} (htold : ¬T.told) (h₁ : c₁.capacity = T.capacity) (h₂ : c₂.capacity = T.capacity)
    (hleft : Gives T left₁ left₂ given left₁.start.cells) (hright : Gives T right₁ right₂ rightRows right₁.start.cells) :
    Gives T (cross c₁ left₁ right₁) (cross c₂ left₂ right₂) rows (cross c₁ left₁ right₁).start.cells := by
  have htypes : left₂.types ++ right₂.types = left₁.types ++ right₁.types := by
    rw [hleft.alike.types, hright.alike.types]
  have halike : Alike (cross c₁ left₁ right₁) (cross c₂ left₂ right₂) := by
    refine ⟨rfl, htypes, congrArg (State.above (.cross none)) hleft.alike.start, ?_⟩
    simp only [cross, hleft.alike.rowsBelow, hright.alike.rowsLeft, hright.alike.start]
  refine Gives.of_work (K := Crossing T left₁ left₂ right₁.types) halike h₁ h₂ rfl rfl
    (fun f rows hf hout ⟨⟨given, hgiven⟩, hp⟩ hs => ?_) rfl ⟨⟨given, hleft⟩, .inl rfl⟩
  rw [htypes]
  refine Pull.Agree.step rfl ?_
  rcases hp with hp | ⟨side, rightRows', hp, hside, hbuffer⟩
  · simp only [hp]
    refine (agree_crossRight hright hs).bind fun side g ⟨⟨⟨rightRows', hside, _⟩, hend⟩, hsees, hg, hbelow, hfinished⟩ => ?_
    refine agree_crossPair htold (hbelow ▸ hgiven) hside (hfinished.trans hf) (hg.trans hout) hsees fun hmore => ?_
    omega
  · simp only [hp]
    exact agree_crossPair htold hgiven hside hf hout hs hbuffer

end

end Operator
end QueryEngine
