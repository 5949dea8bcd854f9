import Mathlib.Data.Multiset.Bind
import QueryEngine.Proofs.Pull.Pairing
import QueryEngine.Proofs.Pull.Runs
import QueryEngine.Proofs.Pull.Streaming

/-! Rows in an order of their own.

A cross product pairs every right row with every row of a left chunk before it looks at
the next left chunk, so the order of its rows shows how its left input comes in chunks.
Which rows there are, and how often, does not: an operator deals some rows when its
pulls hand them out in whatever order. A filter deals the rows it keeps of those it is
dealt. -/
namespace QueryEngine

/-- What a pull that succeeds leaves, `J` telling which rows cells still deal. -/
structure Dealt (T : Terms) (types : List SqlType) (J : List Row → List Cell → Prop) (rows : List Row) (g : Frame) :
    Prop where
  handed : T.Handed types g.out
  sees : T.sees g.session.masks
  left : ∃ rest, J rest g.cells ∧ rows.Perm (g.out.rows ++ rest) ∧ (g.out.isEmpty = true → rest = [])

/-- From the cells the operator hands out the rows, in some order. -/
def Deals (T : Terms) (op : Operator) (rows : List Row) (cells : List Cell) : Prop :=
  ∃ J, (∀ f rows, J rows f.cells → T.sees f.session.masks →
    Pull.Agree op.pull op.pull f fun _ g => Dealt T op.types J rows g) ∧ J rows cells

namespace Deals
variable {T : Terms} {op : Operator} {rows : List Row}

theorem step {cell : Cell} {below : List Cell} {session : Session} (h : Deals T op rows (cell :: below))
    (hs : T.sees session.masks) (out : Chunk) :
    Pull.Agree op.pull op.pull ⟨cell, below, session, out⟩ fun _ g => Dealt T op.types (Deals T op) rows g := by
  obtain ⟨J, hJ, hrows⟩ := h
  refine (hJ ⟨cell, below, session, out⟩ rows hrows hs).mono fun _ g hg => ?_
  obtain ⟨rest, hrest, hperm, hend⟩ := hg.left
  exact ⟨hg.handed, hg.sees, rest, ⟨J, hJ, hrest⟩, hperm, hend⟩

/-- A run of pulls hands out some of the rows, and all once a chunk was empty. -/
theorem pulls {s s' : State} {chunks : List Chunk} (h : Deals T op rows s.cells) (hp : op.Pulls T.sees s chunks s') :
    ∃ rest, rows.Perm (chunks.flatMap Chunk.rows ++ rest) ∧ ((∃ c ∈ chunks, c.isEmpty = true) → rest = []) := by
  induction hp generalizing rows with
  | none s => exact ⟨rows, .refl _, fun ⟨_, hc, _⟩ => (by cases hc)⟩
  | @next s s' session out f chunks hs hpull _ ih =>
    obtain ⟨rest, hrest, hperm, hend⟩ := ((h.step hs out).2 () f hpull).left
    obtain ⟨rest', hperm', hend'⟩ := ih hrest
    refine ⟨rest', ?_, fun ⟨c, hc, he⟩ => ?_⟩
    · rw [List.flatMap_cons, List.append_assoc]
      exact hperm.trans (hperm'.append_left _)
    · rcases List.mem_cons.mp hc with hc | hc
      · have hnone := hperm'
        rw [hend (hc ▸ he), List.nil_perm] at hnone
        exact (List.append_eq_nil_iff.mp hnone).2
      · exact hend' ⟨c, hc, he⟩

/-- What a chunk fetched from an input that deals leaves. -/
structure Fetched (T : Terms) (op : Operator) (rows : List Row) (f : Frame) (chunk : Chunk) (g : Frame) : Prop where
  handed : T.Handed op.types chunk
  sees : T.sees g.session.masks
  out : g.out = f.out
  cell : g.cell = { f.cell with buffer := chunk }
  left : ∃ rest, Deals T op rest g.below ∧ rows.Perm (chunk.rows ++ rest) ∧ (chunk.isEmpty = true → rest = [])

theorem fetch {f : Frame} (h : Deals T op rows f.below) (hs : T.sees f.session.masks) :
    Pull.Agree op.fetch op.fetch f (Fetched T op rows f) := by
  unfold Operator.fetch
  refine Pull.Agree.step rfl (Pull.Agree.inInput fun input hin => ?_)
  unfold Frame.input? at hin
  split at hin
  · cases hin
  · rename_i cell below hbelow
    cases hin
    rw [hbelow] at h
    exact (h.step hs _).mono fun _ g hg => ⟨hg.handed, hg.sees, rfl, rfl, hg.left⟩

/-- What the operator's own work leaves, of a pull that has made the chunk ready. -/
structure Worked (T : Terms) (types : List SqlType) (K : List Row → Cell → List Cell → Prop) (rows : List Row)
    (g : Frame) : Prop where
  handed : T.Handed types g.out
  sees : T.sees g.session.masks
  unfinished : g.cell.finished = false
  ended : g.out.isEmpty = true → rows = []
  left : g.out.isEmpty = false → ∃ rest, K rest g.cell g.below ∧ rows.Perm (g.out.rows ++ rest)

theorem Worked.none {types : List SqlType} {K : List Row → Cell → List Cell → Prop} {f : Frame}
    (hout : f.out = Chunk.blank types T.capacity) (hf : f.cell.finished = false) (hs : T.sees f.session.masks)
    (hrows : rows = []) : Worked T types K rows f := by
  refine ⟨hout ▸ T.handed_blank types, hs, hf, fun _ => hrows, fun he => ?_⟩
  rw [hout] at he
  cases he

/-- What holds between pulls: `K` of the cells, or that there are no more rows. -/
def Ongoing (K : List Row → Cell → List Cell → Prop) : List Row → List Cell → Prop
  | _, [] => False
  | rows, cell :: below => if cell.finished = true then rows = [] else K rows cell below

/-- An operator whose pull is its own work around which an answer is made. -/
theorem of_work {config : Config} {K : List Row → Cell → List Cell → Prop} {work : Pull Unit}
    (hcapacity : config.capacity = T.capacity) (hpull : op.pull = Operator.answer config op.types work)
    (hwork : ∀ f rows, f.cell.finished = false → f.out = Chunk.blank op.types T.capacity → K rows f.cell f.below →
      T.sees f.session.masks → Pull.Agree work work f fun _ g => Worked T op.types K rows g)
    (hstart : op.start.cell.finished = false) (hK : K rows op.start.cell op.start.below) :
    Deals T op rows op.start.cells := by
  refine ⟨Ongoing K, fun f rows hJ hs => ?_, ?_⟩
  · have hJ : if f.cell.finished = true then rows = [] else K rows f.cell f.below := hJ
    rw [hpull, Operator.answer, hcapacity]
    refine Pull.Agree.step (a := ()) (g := { f with out := Chunk.blank op.types T.capacity }) rfl ?_
    refine Pull.Agree.step rfl (Pull.Agree.ite (fun hf => ?_) fun hf => ?_)
    · rw [if_pos hf] at hJ
      refine Pull.Agree.pure ⟨T.handed_blank op.types, hs, [], ?_, ?_, fun _ => rfl⟩
      · show if f.cell.finished = true then _ else _
        rw [if_pos hf]
      · rw [hJ]
        rfl
    · rw [if_neg hf] at hJ
      have hf : f.cell.finished = false := by simpa using hf
      refine (hwork { f with out := Chunk.blank op.types T.capacity } rows hf rfl hJ hs).bind fun _ g hg => ?_
      refine Pull.Agree.step rfl ?_
      simp only [Pull.verify_of_sound _ hg.handed.sound]
      refine Pull.Agree.ite (fun he => ?_) fun he => ?_
      · refine Pull.Agree.step (a := ()) (g := { g with cell := { g.cell with finished := true } }) rfl
          (Pull.Agree.pure ⟨hg.handed, hg.sees, [], rfl, ?_, fun _ => rfl⟩)
        rw [hg.ended he, hg.handed.sound.rows_eq_nil_iff.mpr he]
        rfl
      · obtain ⟨rest, hrest, hperm⟩ := hg.left (Bool.eq_false_iff.mpr he)
        refine Pull.Agree.pure ⟨hg.handed, hg.sees, rest, ?_, hperm, fun he' => absurd he' he⟩
        show if g.cell.finished = true then _ else _
        rw [hg.unfinished]
        exact hrest
  · show if op.start.cell.finished = true then _ else _
    rw [hstart]
    exact hK

end Deals

namespace Operator
variable {T : Terms}

/-! ### Filters -/

theorem deals_filterChunks {input : Operator} {ps : List Expr} {given rows : List Row} {f : Frame} (htidy : ¬T.tidy)
    (rounds : Nat) (h : Deals T input given f.below) (hf : f.cell.finished = false)
    (hout : f.out = Chunk.blank input.types T.capacity) (hs : T.sees f.session.masks)
    (hrows : rows.Perm (given.filter fun row => ps.all (Expr.holdsOn row))) :
    Pull.Agree (filterChunks input ps rounds) (filterChunks input ps rounds) f fun _ g =>
      Deals.Worked T input.types (fun rows _ below => ∃ given, Deals T input given below ∧
        rows.Perm (given.filter fun row => ps.all (Expr.holdsOn row))) rows g := by
  induction rounds generalizing f given with
  | zero => exact Pull.Agree.throw
  | succ rounds ih =>
    refine (h.fetch hs).bind fun chunk g hg => ?_
    obtain ⟨rest, hrest, hperm, hend⟩ := hg.left
    have hfg : g.cell.finished = false := by rw [hg.cell]; exact hf
    have hog : g.out = Chunk.blank input.types T.capacity := hg.out.trans hout
    refine Pull.Agree.ite (fun he => ?_) fun _ => ?_
    · rw [hend he, hg.handed.sound.rows_eq_nil_iff.mpr he, List.append_nil, List.perm_nil] at hperm
      rw [hperm, List.filter_nil, List.perm_nil] at hrows
      exact Pull.Agree.pure (Deals.Worked.none hog hfg hg.sees hrows)
    refine (Pull.Agree.filling (Q := fun _ g' => ∃ d, g' = { g with out := d } ∧
      Chunk.Narrowed (fun row => ps.all (Expr.holdsOn row)) (g.out.reference chunk) d) fun _ d hd => ⟨d, rfl, ?_⟩).bind
      fun _ g' ⟨d, hg', hd⟩ => ?_
    · exact keepTrue_ok (hg.handed.sound.reference _) hd
    have htyped : d.types = input.types := hd.typed.trans hg.handed.typed
    have hkept : d.rows = chunk.rows.filter fun row => ps.all (Expr.holdsOn row) := hd.rows
    have hleft : rows.Perm (d.rows ++ rest.filter fun row => ps.all (Expr.holdsOn row)) := by
      rw [hkept, ← List.filter_append]
      exact hrows.trans (hperm.filter _)
    subst hg'
    refine Pull.Agree.step rfl (Pull.Agree.ite (fun hne => ?_) fun he => ?_)
    · refine Pull.Agree.pure ⟨⟨hd.sound, htyped, fun ht => absurd ht htidy⟩, hg.sees, hfg, fun he => ?_, fun _ =>
        ⟨_, ⟨rest, hrest, .refl _⟩, hleft⟩⟩
      have he : d.isEmpty = true := he
      simp [he] at hne
    · have he : d.isEmpty = true := by simpa using he
      have hcap : d.capacity = max T.capacity 1 := by
        rw [hd.capacity]
        exact congrArg Chunk.capacity hog
      refine Pull.Agree.step (a := ()) (g := { g with out := Chunk.blank input.types T.capacity }) ?_ ?_
      · show EStateM.Result.ok () { g with out := d.reset } = _
        rw [Chunk.reset_eq_blank htyped hcap]
      · rw [hd.sound.rows_eq_nil_iff.mpr he, List.nil_append] at hleft
        exact ih hrest hfg rfl hg.sees hleft

theorem deals_filter {config : Config} {input : Operator} {given : List Row} (htidy : ¬T.tidy)
    (hcapacity : config.capacity = T.capacity) (ps : List Expr) (h : Deals T input given input.start.cells) :
    Deals T (filter config ps input) (given.filter fun row => ps.all (Expr.holdsOn row))
      (filter config ps input).start.cells := by
  refine Deals.of_work (K := fun rows _ below => ∃ given, Deals T input given below ∧
    rows.Perm (given.filter fun row => ps.all (Expr.holdsOn row))) hcapacity rfl
    (fun f rows hf hout ⟨given, hgiven, hrows⟩ hs => ?_) rfl ⟨given, h, .refl _⟩
  exact Pull.Agree.step rfl (deals_filterChunks htidy _ hgiven hf hout hs hrows)

/-! ### Cross products -/

/-- Every left row beside every right row. -/
def pairs (left right : List Row) : List Row := left.flatMap fun l => right.map (l ++ ·)

theorem pairs_append (left left' right : List Row) : pairs (left ++ left') right = pairs left right ++ pairs left' right :=
  List.flatMap_append

/-- The rows of a left chunk are taken once for every right row. -/
theorem pairs_perm (left right : List Row) : (pairs left right).Perm (right.flatMap fun r => left.map (· ++ r)) := by
  rw [← Multiset.coe_eq_coe]
  have hswap := Multiset.bind_map_comm (f := fun l r : Row => l ++ r) (left : Multiset Row) (right : Multiset Row)
  simpa only [pairs, Multiset.coe_bind, Multiset.map_coe] using hswap

/-- What a cross product owes: the left chunk in the buffer beside the right rows from
`position` on, and what the left input still gives beside all. -/
def owed (buffer : Chunk) (position : Nat) (given right : List Row) : List Row :=
  ((right.drop position).flatMap fun r => buffer.rows.map (· ++ r)) ++ pairs given right

theorem owed_full (buffer : Chunk) (given right : List Row) : owed buffer right.length given right = pairs given right := by
  rw [owed, List.drop_length]
  rfl

theorem owed_fresh (buffer : Chunk) (given right : List Row) :
    (pairs (buffer.rows ++ given) right).Perm (owed buffer 0 given right) := by
  rw [pairs_append]
  exact (pairs_perm _ _).append_right _

theorem owed_next {buffer : Chunk} {position : Nat} {given right : List Row} {r : Row} (hr : right[position]? = some r) :
    owed buffer position given right = buffer.rows.map (· ++ r) ++ owed buffer (position + 1) given right := by
  obtain ⟨hlt, rfl⟩ := List.getElem?_eq_some_iff.mp hr
  rw [owed, List.drop_eq_getElem_cons hlt, List.flatMap_cons, List.append_assoc, owed]

theorem owed_nothing (buffer : Chunk) (position : Nat) (given : List Row) : owed buffer position given [] = [] := by
  rw [owed, List.drop_nil, pairs]
  simp

section Cross
variable {left right : Operator} {rightRows rows : List Row} {f : Frame}

/-- The right side, kept as columns. -/
structure HoldsSide (side : Output) (types : List SqlType) (rows : List Row) : Prop where
  lists : Lists side.columns types rows
  rows : side.rows = rows.length

theorem HoldsSide.moved {side : Output} {types : List SqlType} (h : HoldsSide side types rows) (position : Nat) :
    HoldsSide { side with position := position } types rows := ⟨h.lists, h.rows⟩

/-- A left chunk that has been fetched, and what is owed of it and behind it. -/
structure CrossOwing (T : Terms) (left right : Operator) (rightRows rows : List Row) (side : Output) (buffer : Chunk)
    (below : List Cell) : Prop where
  holds : HoldsSide side right.types rightRows
  handed : side.position < side.rows → T.Handed left.types buffer ∧ buffer.isEmpty = false
  within : side.position ≤ side.rows
  left : ∃ given, Gives T left left given below ∧ rows.Perm (owed buffer side.position given rightRows)

/-- What holds of a cross product between pulls. -/
def CrossOwes (T : Terms) (left right : Operator) (rightRows rows : List Row) (cell : Cell) (below : List Cell) : Prop :=
  (cell.progress = .cross none ∧ ∃ given, Gives T left left given below ∧ rows.Perm (pairs given rightRows)) ∨
    ∃ side, cell.progress = .cross (some side) ∧ CrossOwing T left right rightRows rows side cell.buffer below

theorem deals_crossLeft {side : Output} (htold : T.told) (hs : T.sees f.session.masks) (hrows : side.rows ≠ 0)
    (h : CrossOwing T left right rightRows rows side f.cell.buffer f.below) :
    Pull.Agree (crossLeft left side) (crossLeft left side) f fun found g =>
      T.sees g.session.masks ∧ g.out = f.out ∧ g.cell.finished = f.cell.finished ∧
        match found with
        | none => rows = []
        | some (chunk, side') => g.cell.buffer = chunk ∧ side'.position < side'.rows ∧
          CrossOwing T left right rightRows rows side' chunk g.below := by
  obtain ⟨given, hgiven, hperm⟩ := h.left
  unfold crossLeft
  refine Pull.Agree.ite (fun hmore => ?_) fun hend => ?_
  · exact Pull.Agree.step rfl (Pull.Agree.pure ⟨hs, rfl, rfl, rfl, hmore, h⟩)
  · have hposition : side.position = rightRows.length := by
      rw [← h.holds.rows]
      exact Nat.le_antisymm h.within (Nat.le_of_not_lt hend)
    rw [hposition, owed_full] at hperm
    refine (hgiven.fetch hs).bind fun chunk g hg => Pull.Agree.pure ⟨hg.sees, hg.out, by rw [hg.cell], ?_⟩
    obtain ⟨rest, hrest, hgives⟩ := hg.left
    obtain ⟨hgives, hlast⟩ := hgives htold
    by_cases he : chunk.isEmpty = true
    · rw [if_pos he]
      rw [hgives, hlast he, hg.handed.sound.rows_eq_nil_iff.mpr he] at hperm
      exact List.perm_nil.mp hperm
    · rw [if_neg he]
      refine ⟨by rw [hg.cell], Nat.pos_of_ne_zero hrows, h.holds.moved 0, fun _ => ⟨hg.handed, Bool.eq_false_iff.mpr he⟩,
        Nat.zero_le _, rest, hrest, ?_⟩
      rw [hgives] at hperm
      exact hperm.trans (owed_fresh chunk rest rightRows)

theorem deals_crossPair {side : Output} (htold : T.told) (htidy : ¬T.tidy) (hf : f.cell.finished = false)
    (hout : f.out = Chunk.blank (left.types ++ right.types) T.capacity) (hs : T.sees f.session.masks)
    (h : CrossOwing T left right rightRows rows side f.cell.buffer f.below) :
    let step : Pull Unit := do
      if side.rows = 0 then return
      let some (chunk, side) ← crossLeft left side | return
      Pull.setProgress (.cross (some { side with position := side.position + 1 }))
      Pull.filling (pairRow (left.types ++ right.types) side chunk)
    Pull.Agree step step f fun _ g =>
      Deals.Worked T (left.types ++ right.types) (CrossOwes T left right rightRows) rows g := by
  intro step
  refine Pull.Agree.ite (fun hzero => ?_) fun hrows => ?_
  · have hnone : rightRows = [] := List.length_eq_zero_iff.mp (h.holds.rows ▸ hzero)
    obtain ⟨given, _, hperm⟩ := h.left
    rw [hnone, owed_nothing, List.perm_nil] at hperm
    exact Pull.Agree.pure (Deals.Worked.none hout hf hs hperm)
  refine (deals_crossLeft htold hs hrows h).bind fun found g ⟨hsees, hg, hfinished, hfound⟩ => ?_
  cases found with
  | none => exact Pull.Agree.pure (Deals.Worked.none (hg.trans hout) (hfinished.trans hf) hsees hfound)
  | some found =>
    obtain ⟨chunk, side'⟩ := found
    obtain ⟨hbuffer, hmore, howing⟩ := hfound
    obtain ⟨hhanded, hfull⟩ := howing.handed hmore
    obtain ⟨given, hgiven, hperm⟩ := howing.left
    refine Pull.Agree.step rfl (Pull.Agree.filling fun _ d hd => ?_)
    have hd : pairRow (left.types ++ right.types) side' chunk
        (Chunk.blank (left.types ++ right.types) T.capacity) = .ok () d := by
      rw [← hout, ← hg]
      exact hd
    have hmap := pairRow_ok hhanded.sound hhanded.typed howing.holds.lists hd
    have hright : rightRows[side'.position]? = some (side'.columns.map fun column => column.datum side'.position) := by
      have hlt : side'.position < rightRows.length := howing.holds.rows ▸ hmore
      rw [List.getElem?_eq_getElem hlt, howing.holds.lists.row (List.getElem?_eq_getElem hlt)]
    rw [owed_next hright, ← hmap.rows] at hperm
    refine ⟨⟨hmap.sound, hmap.typed, fun ht => absurd ht htidy⟩, hsees, hfinished.trans hf, fun he => ?_, fun _ =>
      ⟨_, .inr ⟨{ side' with position := side'.position + 1 }, rfl, howing.holds.moved _, fun _ => ?_, hmore, given,
        hgiven, .refl _⟩, ?_⟩⟩
    · have he : d.isEmpty = true := he
      rw [Chunk.isEmpty, hmap.count, ← Chunk.isEmpty, hfull] at he
      cases he
    · show T.Handed left.types g.cell.buffer ∧ g.cell.buffer.isEmpty = false
      rw [hbuffer]
      exact ⟨hhanded, hfull⟩
    · show rows.Perm (d.rows ++ owed g.cell.buffer (side'.position + 1) given rightRows)
      rw [hbuffer]
      exact hperm

theorem deals_cross {config : Config} {leftRows : List Row} (htold : T.told) (htidy : ¬T.tidy)
    (hcapacity : config.capacity = T.capacity) (hleft : Gives T left left leftRows left.start.cells)
    (hright : Gives T right right rightRows right.start.cells) :
    Deals T (cross config left right) (pairs leftRows rightRows) (cross config left right).start.cells := by
  refine Deals.of_work (K := CrossOwes T left right rightRows) hcapacity rfl
    (fun f rows hf hout hK hs => ?_) rfl (.inl ⟨rfl, leftRows, hleft, .refl _⟩)
  refine Pull.Agree.step rfl ?_
  rcases hK with ⟨hp, given, hgiven, hperm⟩ | ⟨side, hp, howing⟩
  · simp only [hp]
    refine (agree_crossRight hright hs).bind
      fun side g ⟨⟨⟨rightRows', hlists, hcount, hall⟩, hend⟩, hsees, hg, hbelow, hfinished⟩ => ?_
    cases hall htold
    refine deals_crossPair htold htidy (hfinished.trans hf) (hg.trans hout) hsees
      ⟨⟨hlists, hcount⟩, fun hmore => ?_, hend.le, given, hbelow ▸ hgiven, ?_⟩
    · omega
    · rw [hend, hcount, owed_full]
      exact hperm
  · simp only [hp]
    exact deals_crossPair htold htidy hf hout hs howing

end Cross
end Operator
end QueryEngine
