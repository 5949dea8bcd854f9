import QueryEngine.Proofs.Expr.Rowwise
import QueryEngine.Proofs.Pull.Pairing

/-! What a join gives.

A cell that owes pairs keeps them with the left chunk they were found in; the rows
that are still to come are those of the pairs, then what the nested-loop join makes of
the rest of the left input (`Owing`). -/
namespace QueryEngine

/-- A right row, or NULLs in its place. -/
def JoinSide.row (s : JoinSide) : Option Nat → Row
  | some i => s.columns.map fun c => c.datum i
  | none => s.columns.map fun c => Datum.null c.type

/-- The rows of some pairs of a left row and a right row. -/
def pairRows (c : Chunk) (s : JoinSide) (pairs : List (Nat × Option Nat)) : List Row :=
  pairs.map fun p => c.row p.1 ++ s.row p.2

namespace Operator

/-! ### Pairs -/

theorem row_of_padded {cs ds : List Column} {rows : List (Option Nat)} {i : Nat} {r : Option Nat}
    (h : cs.mapM (fun c => c.gatherPadded rows) = .ok ds) (hr : rows[i]? = some r) :
    (ds.map fun d => d.datum i) = cs.map fun c => r.elim (.null c.type) c.datum := by
  have hall := mapM_eq_ok_iff.mp h
  clear h
  induction hall with
  | nil => rfl
  | cons hc _ ih => rw [List.map_cons, List.map_cons, ih, Column.datum_gatherPadded hc hr]

theorem takePairs_ok {side : JoinSide} {c d : Chunk} {pairs : List (Nat × Option Nat)} {types : List SqlType}
    {capacity : Nat} (hlen : c.columns.length + side.columns.length = types.length)
    (h : takePairs side c pairs (Chunk.blank types capacity) = .ok () d) :
    d.Sound ∧ d.types = types ∧ d.count = pairs.length ∧ d.activeRows = List.range pairs.length ∧
      d.rows = pairRows c side pairs := by
  obtain ⟨_, filled, hput, hrest⟩ := run_bind_eq_ok.mp h
  cases hrest
  obtain ⟨cs, hcs, hput⟩ := Filling.putComputed_ok hput
  obtain ⟨as, bs, rfl, has, hbs⟩ := List.append_eq_map_iff.mp hcs
  have hleft := mapM_eq_ok_iff_map.mpr has.symm
  have hright := mapM_eq_ok_iff_map.mpr hbs.symm
  have hwidth : (as ++ bs).length = types.length := by
    rw [List.length_append, length_of_mapM hleft, length_of_mapM hright, hlen]
  obtain ⟨rfl, htyped⟩ := Filling.putAll_blank hwidth hput
  have hre := Rearranged.of_gather hleft
  have hsize (column : Column) (hcol : column ∈ as ++ bs) : column.size = pairs.length := by
    rcases List.mem_append.mp hcol with hcol | hcol
    · rw [hre.size column hcol, List.length_map]
    · obtain ⟨_, _, hb⟩ := mem_of_mapM hright hcol
      rw [Column.size_gatherPadded hb, List.length_map]
  have hrow (i : Nat) (p : Nat × Option Nat) (hp : pairs[i]? = some p) :
      ((as ++ bs).map fun column => column.datum i) = c.row p.1 ++ side.row p.2 := by
    have hi : i < pairs.length := (List.getElem?_eq_some_iff.mp hp).1
    rw [List.map_append, hre.datum i (by rw [List.length_map]; exact hi)]
    congr 1
    · have hfst : (pairs.map Prod.fst).getD i 0 = p.1 := by simp [List.getD_eq_getElem?_getD, hp]
      rw [hfst]
      rfl
    · rw [row_of_padded hright (r := p.2) (by rw [List.getElem?_map, hp]; rfl)]
      cases p.2 <;> rfl
  refine ⟨Chunk.sound_flat hsize, htyped, rfl, rfl, ?_⟩
  apply List.ext_getElem
  · show ((List.range pairs.length).map _).length = (pairs.map _).length
    rw [List.length_map, List.length_map, List.length_range]
  · intro i hi hi'
    have hlt : i < pairs.length := by
      rw [pairRows, List.length_map] at hi'
      exact hi'
    have hi := hrow i pairs[i] (List.getElem?_eq_getElem hlt)
    simp only [pairRows, List.getElem_map, ← hi]
    simp [Chunk.rows, Chunk.row, Chunk.setCount, Chunk.activeRows]

/-! ### Looking rows up -/

section
variable {k : JoinKeys} {kind : JoinKind} {side : JoinSide} {rightTypes common : List SqlType} {rightRows : List Row}

/-- The pairs of a left row are what the join makes of it. -/
theorem pairRows_pairsOf (hs : side.Indexes rightTypes common k.right rightRows) (hkind : kind = .inner ∨ kind = .left)
    {c : Chunk} {r : Nat} {found : Option (List Nat)}
    (hfound : found = if k.hasPartner rightRows (c.row r) then
      some ((List.range side.rows).filter fun i => (k.left (c.row r)).joins (k.right (side.row (some i)))) else none) :
    pairRows c side (pairsOf kind r found) = k.joinRow rightRows kind rightTypes (c.row r) := by
  have hrows : (List.range side.rows).map (fun i => side.row (some i)) = rightRows := by
    rw [hs.counted]
    exact hs.lists.toRows_eq
  cases hhas : k.hasPartner rightRows (c.row r) with
  | true =>
    have hpartners : k.partners rightRows (c.row r) = ((List.range side.rows).filter fun i =>
        (k.left (c.row r)).joins (k.right (side.row (some i)))).map fun i => side.row (some i) := by
      rw [JoinKeys.partners, ← hrows, List.filter_map]
      rfl
    rw [hhas, if_pos rfl] at hfound
    have hpairs : pairRows c side (pairsOf kind r found) = (k.partners rightRows (c.row r)).map (c.row r ++ ·) := by
      rw [hfound, hpartners, pairsOf, if_pos hkind, pairRows, List.map_map, List.map_map]
      rfl
    rcases hkind with hkind | hkind
    · rw [hpairs, hkind, JoinKeys.joinRow]
    · rw [hpairs, hkind, JoinKeys.joinRow, hhas, if_pos rfl]
  | false =>
    rw [hhas] at hfound
    rcases hkind with hkind | hkind
    · rw [hfound, hkind, JoinKeys.joinRow, JoinKeys.partners_eq_nil hhas]
      rfl
    · have hnulls : side.row none = rightTypes.map Datum.null := by
        rw [← hs.lists.typed, List.map_map]
        rfl
      rw [hfound, hkind, JoinKeys.joinRow, hhas]
      simp [pairsOf, pairRows, hnulls]

/-- Only inner and left joins hand out pairs. -/
theorem pairsOf_nil (hkind : ¬(kind = .inner ∨ kind = .left)) (row : Nat) (found : Option (List Nat)) :
    pairsOf kind row found = [] := by
  unfold pairsOf
  cases found with
  | none => exact if_neg fun hleft => hkind (.inr hleft)
  | some rows => exact if_neg hkind

theorem probeRows_nil (hkind : ¬(kind = .inner ∨ kind = .left)) (side : JoinSide) (keys : List Column) (rows : List Nat) :
    (probeRows kind side keys rows).2 = [] := by
  induction rows with
  | nil => rfl
  | cons row rows ih =>
    rw [probeRows]
    cases side.matches? keys row with
    | error e => rfl
    | ok found =>
      show pairsOf kind row found ++ (probeRows kind side keys rows).2 = []
      rw [pairsOf_nil hkind, ih, List.append_nil]

theorem probeRows_ok {keys : List Column} {F : Nat → Option (List Nat)} {rs : List Nat} {flags : List Bool}
    {pairs : List (Nat × Option Nat)} (hF : ∀ r ∈ rs, ∀ found, side.matches? keys r = .ok found → found = F r)
    (h : probeRows kind side keys rs = (.ok flags, pairs)) :
    flags = rs.map (fun r => (F r).isSome) ∧ pairs = rs.flatMap fun r => pairsOf kind r (F r) := by
  induction rs generalizing flags pairs with
  | nil =>
    cases h
    exact ⟨rfl, rfl⟩
  | cons r rs ih =>
    rw [probeRows] at h
    cases hr : side.matches? keys r with
    | error e =>
      rw [hr] at h
      cases h
    | ok found =>
      rw [hr] at h
      obtain ⟨hflags, rfl⟩ := Prod.mk.inj h
      obtain ⟨rest, hrest, rfl⟩ := map_eq_ok.mp hflags
      obtain ⟨hflags', hpairs'⟩ := ih (fun r' hr' => hF r' (List.mem_cons_of_mem _ hr')) (Prod.ext hrest rfl)
      have hfound : found = F r := hF r (List.mem_cons_self ..) found hr
      rw [List.map_cons, List.flatMap_cons, ← hfound, ← hflags', ← hpairs']
      exact ⟨rfl, rfl⟩

variable {keys : List Expr} {keyColumns : List Column} {c : Chunk}

/-- A chunk looked up: its flags, and the pairs of the joins that hand out pairs. -/
theorem probeChunk_ok (hs : side.Indexes rightTypes common k.right rightRows) {leftTypes : List SqlType}
    (hkey : KeyOn keys leftTypes common k.left) (hc : c.Sound) (ht : c.types = leftTypes)
    (hcolumns : keys.mapM (Expr.evaluate c) = .ok keyColumns) {flags : List Bool} {pairs : List (Nat × Option Nat)}
    (h : probeRows kind side keyColumns c.activeRows = (.ok flags, pairs)) :
    flags = c.rows.map (k.hasPartner rightRows) ∧
      (kind = .inner ∨ kind = .left → pairRows c side pairs = k.nestedLoop kind rightTypes c.rows rightRows) ∧
      (¬(kind = .inner ∨ kind = .left) → pairs = []) := by
  obtain ⟨hcommon, hvalues⟩ := hkey c keyColumns hc ht hcolumns
  let F (r : Nat) : Option (List Nat) :=
    if k.hasPartner rightRows (c.row r) then
      some ((List.range side.rows).filter fun i => (k.left (c.row r)).joins (k.right (side.row (some i))))
    else none
  have hF (r : Nat) (hr : r ∈ c.activeRows) (found : Option (List Nat))
      (hfound : side.matches? keyColumns r = .ok found) : found = F r := by
    have hlen : keyColumns.length = common.length := by rw [← hcommon, List.length_map]
    rw [JoinSide.matches?_ok hs hlen hfound, hvalues r hr]
    rfl
  obtain ⟨hflags, hpairs⟩ := probeRows_ok hF h
  refine ⟨?_, fun hkind => ?_, fun hkind => ?_⟩
  · rw [hflags, Chunk.rows, List.map_map]
    refine List.map_congr_left fun r _ => ?_
    show (F r).isSome = k.hasPartner rightRows (c.row r)
    unfold F
    cases k.hasPartner rightRows (c.row r) <;> rfl
  · rw [hpairs, pairRows, List.map_flatMap, JoinKeys.nestedLoop, Chunk.rows, List.flatMap_map]
    exact List.flatMap_congr fun r _ => pairRows_pairsOf hs hkind rfl
  · rw [hpairs, List.flatMap_eq_nil_iff]
    exact fun r _ => pairsOf_nil hkind r _

/-- NULL is marked in every column but one of type NULL. -/
theorem Column.isMarkedNull_eq {c : Column} {r : Nat} (ht : c.type ≠ .sqlNull) (hr : r < c.size) :
    (HostArray.column c).isMarkedNull r = (c.datum r).value.isNull := by
  have hs : c.slots[r]? = some c.slots[r] := List.getElem?_eq_getElem hr
  rw [HostArray.isMarkedNull, Column.datum, hs, Option.getD_some]
  cases hv : c.slots[r] <;> simp [ht, Scalar.isNull]

/-- The mark of a left row over right rows. -/
theorem mark_eq (hs : side.Indexes rightTypes common k.right rightRows) (hne : rightRows ≠ [])
    {leftTypes : List SqlType} (hkey : KeyOn keys leftTypes common k.left) (hc : c.Sound) (ht : c.types = leftTypes)
    (hcolumns : keys.mapM (Expr.evaluate c) = .ok keyColumns) {r : Nat} (hr : r ∈ c.activeRows) :
    JoinResult.mark (keyColumns.map HostArray.column) side.hasNull r (k.hasPartner rightRows (c.row r)) =
      k.mark rightRows (c.row r) := by
  obtain ⟨hcommon, hvalues⟩ := hkey c keyColumns hc ht hcolumns
  have hnull : (side.hasNull || (keyColumns.map HostArray.column).any fun a => a.isMarkedNull r) =
      ((k.left (c.row r)).hasNull || rightRows.any fun row => (k.right row).hasNull) := by
    rw [← hs.hasNull, Bool.or_comm (k.left (c.row r)).hasNull]
    cases hside : side.hasNull with
    | true => rfl
    | false =>
      have hmarked (column : Column) (hcol : column ∈ keyColumns) :
          (HostArray.column column).isMarkedNull r = (column.datum r).value.isNull := by
        refine Column.isMarkedNull_eq (fun huntyped => ?_) ((Expr.evaluateAll_ok hc hcolumns).1 column hcol ▸ hc.active_lt hr)
        have hmem : SqlType.sqlNull ∈ common := hcommon ▸ huntyped ▸ List.mem_map_of_mem hcol
        rw [hs.untyped hne hmem] at hside
        cases hside
      rw [← hvalues r hr, Key.hasNull, Key.valuesAt, List.any_map, List.any_map, Bool.false_or, Bool.false_or,
        Bool.eq_iff_iff, List.any_eq_true, List.any_eq_true]
      refine exists_congr fun column => and_congr_right fun hcol => ?_
      show (HostArray.column column).isMarkedNull r = true ↔ (column.datum r).value.isNull = true
      rw [hmarked column hcol]
  have hfull : rightRows.isEmpty = false := by simpa using hne
  rw [JoinResult.mark, JoinKeys.mark, hnull, hfull]
  rfl

end

/-! ### The pull -/

/-- What a join joins its left input with, and how. -/
structure JoinTerms where
  kind : JoinKind
  keys : JoinKeys
  leftTypes : List SqlType
  rightTypes : List SqlType
  common : List SqlType
  right : List Row

namespace JoinTerms

def types (J : JoinTerms) : List SqlType := J.kind.outputTypes J.leftTypes J.rightTypes

/-- What is to come of some left rows. -/
def rows (J : JoinTerms) (left : List Row) : List Row := J.keys.nestedLoop J.kind J.rightTypes left J.right

end JoinTerms

/-- What a cell owes: its pairs, and what becomes of the rest of the left input. -/
structure Owing (T : Terms) (J : JoinTerms) (given rows : List Row) (buffer : Chunk) (p : JoinProgress)
    (side : JoinSide) : Prop where
  taken : p.side = some side
  indexed : ∃ right, side.Indexes J.rightTypes J.common J.keys.right right ∧ (T.told → right = J.right)
  pending : p.emitted < p.pending.length → (J.kind = .inner ∨ J.kind = .left) ∧ buffer.types = J.leftTypes
  rows : T.told → rows = pairRows buffer side (p.pending.drop p.emitted) ++ J.rows given

/-- What holds of a join between pulls. -/
def Joining (T : Terms) (left₁ left₂ : Operator) (J : JoinTerms) (rows : List Row) (cell : Cell)
    (below : List Cell) : Prop :=
  ∃ p given, cell.progress = .join p ∧ Gives T left₁ left₂ given below ∧
    ((p.side = none ∧ p.pending = [] ∧ p.emitted = 0 ∧ (T.told → rows = J.rows given)) ∨
      ∃ side, Owing T J given rows cell.buffer p side)

section
variable {T : Terms} {left₁ left₂ right₁ right₂ : Operator} {J : JoinTerms} {given rows : List Row} {f : Frame}
  {p : JoinProgress} {side : JoinSide}

theorem agree_handOutPairs (hgiven : Gives T left₁ left₂ given f.below) (h : Owing T J given rows f.cell.buffer p side)
    (hmore : p.emitted < p.pending.length) (hf : f.cell.finished = false) (hout : f.out = Chunk.blank J.types T.capacity)
    (hs : T.sees f.session.masks) :
    Pull.Agree (handOutPairs side p) (handOutPairs side p) f fun _ g =>
      Worked T J.types (Joining T left₁ left₂ J) rows g := by
  unfold handOutPairs
  refine Pull.Agree.step rfl (Pull.Agree.lift_bind fun stop hstop => ?_)
  have hstop : p.emitted + max T.capacity 1 = stop := by
    rw [hout, Chunk.capacity_blank] at hstop
    exact (Chunk.addCounts_ok hstop).symm
  generalize hl : min stop p.pending.length = stop'
  refine Pull.Agree.step rfl (Pull.Agree.step rfl (Pull.Agree.filling fun _ d hd => ?_))
  obtain ⟨hkind, hbuffer⟩ := h.pending hmore
  obtain ⟨right, hright, htold⟩ := h.indexed
  have htypes : J.types = J.leftTypes ++ J.rightTypes := by
    rw [JoinTerms.types]
    rcases hkind with hkind | hkind <;> rw [hkind, JoinKind.outputTypes]
  have hwidth : f.cell.buffer.columns.length + side.columns.length = J.types.length := by
    rw [htypes, List.length_append, ← hbuffer, Chunk.types, List.length_map, hright.lists.length]
  have hd : takePairs side f.cell.buffer ((p.pending.take stop').drop p.emitted) (Chunk.blank J.types T.capacity) =
      .ok () d := hout ▸ hd
  obtain ⟨hsound, htyped, hcount, hactive, hrows⟩ := takePairs_ok hwidth hd
  have hlen : ((p.pending.take stop').drop p.emitted).length = stop' - p.emitted := by
    rw [List.length_drop, List.length_take]
    omega
  have hsplit : p.pending.drop p.emitted = (p.pending.take stop').drop p.emitted ++ p.pending.drop stop' := by
    rw [List.drop_take, show stop' = p.emitted + (stop' - p.emitted) by omega, ← List.drop_drop, Nat.add_sub_cancel_left,
      List.take_append_drop]
  have hcount : d.count = stop' - p.emitted := by rw [hcount, hlen]
  refine ⟨⟨hsound, htyped, fun _ => ⟨?_, ?_⟩⟩, hs, hf, fun he => ?_, fun _ =>
    ⟨pairRows f.cell.buffer side (p.pending.drop stop') ++ J.rows given, ⟨_, given, rfl, hgiven, .inr ⟨side, ?_⟩⟩,
      fun ht => ?_⟩⟩
  · rw [hcount]
    omega
  · rw [hactive]
    exact List.pairwise_lt_range
  · have he : d.count = 0 := by simpa [Chunk.isEmpty] using he
    omega
  · exact ⟨h.taken, ⟨right, hright, htold⟩, fun _ => ⟨hkind, hbuffer⟩, fun _ => rfl⟩
  · rw [h.rows ht, hsplit, pairRows, List.map_append]
    show _ = d.rows ++ _
    rw [hrows, pairRows, pairRows, List.append_assoc]

/-- A chunk of the left input that is answered at once. -/
structure Answered (J : JoinTerms) (right : List Row) (c d : Chunk) : Prop where
  sound : d.Sound
  typed : d.types = J.types
  count : d.count ≤ c.count
  active : d.activeRows.Sublist c.activeRows
  rows : d.rows = J.keys.nestedLoop J.kind J.rightTypes c.rows right

theorem Answered.of_mapped {right : List Row} {F : Row → Row} {c d : Chunk} (h : Chunk.Mapped J.types F c d)
    (hF : J.keys.nestedLoop J.kind J.rightTypes c.rows right = c.rows.map F) : Answered J right c d :=
  ⟨h.sound, h.typed, Nat.le_of_eq h.count, h.active ▸ List.Sublist.refl _, h.rows.trans hF.symm⟩

theorem joinWithNothing_ok {c d : Chunk} (hc : c.Sound) (ht : c.types = J.leftTypes)
    (hkind : ¬(J.kind = .inner ∨ J.kind = .semi))
    (h : joinWithNothing J.kind J.rightTypes c (Chunk.blank J.types T.capacity) = .ok () d) :
    Answered J [] c d ∧ d.count = c.count := by
  unfold joinWithNothing at h
  cases hk : J.kind with
  | inner => exact absurd (.inl hk) hkind
  | semi => exact absurd (.inr hk) hkind
  | left =>
    have htypes : J.types = J.leftTypes ++ J.rightTypes := by rw [JoinTerms.types, hk, JoinKind.outputTypes]
    rw [hk, htypes] at h
    have hmap := JoinResult.padded_ok hc ht h
    refine ⟨.of_mapped (htypes ▸ hmap) ?_, hmap.count⟩
    rw [hk, JoinKeys.nestedLoop_left_nothing]
  | anti =>
    have htypes : J.types = J.leftTypes := by rw [JoinTerms.types, hk, JoinKind.outputTypes]
    rw [hk] at h
    cases h
    refine ⟨⟨hc.reference _, ht.trans htypes.symm, Nat.le_refl _, List.Sublist.refl _, ?_⟩, rfl⟩
    rw [hk, JoinKeys.nestedLoop_anti]
    exact (List.filter_eq_self.mpr fun _ _ => rfl).symm
  | mark =>
    have htypes : J.types = J.leftTypes ++ [.boolean] := by rw [JoinTerms.types, hk, JoinKind.outputTypes]
    have hflags : List.replicate c.count false = c.rows.map fun _ => false := by
      rw [List.map_const', hc.length_rows]
    rw [hk, htypes, hflags] at h
    have hmap : Chunk.Mapped _ (fun row => row ++ [Datum.ofBoolean (some false)]) c d :=
      JoinResult.marked_ok hc ht (fun _ _ => rfl) h
    refine ⟨.of_mapped (htypes ▸ hmap) ?_, hmap.count⟩
    rw [hk, JoinKeys.nestedLoop_mark]
    rfl

/-- A left chunk with rows is to be answered, and nothing is owed. -/
structure Asked (T : Terms) (left₁ left₂ : Operator) (J : JoinTerms) (rest right rows : List Row) (side : JoinSide)
    (c : Chunk) (f : Frame) : Prop where
  progress : ∃ p, f.cell.progress = .join p ∧ p.side = some side ∧ p.pending = []
  indexed : side.Indexes J.rightTypes J.common J.keys.right right
  right : T.told → right = J.right
  left : Gives T left₁ left₂ rest f.below
  unfinished : f.cell.finished = false
  out : f.out = Chunk.blank J.types T.capacity
  sees : T.sees f.session.masks
  handed : T.Handed J.leftTypes c
  full : c.isEmpty = false
  rows : T.told → rows = J.rows (c.rows ++ rest)

theorem Asked.worked {rest right : List Row} {c d : Chunk} (h : Asked T left₁ left₂ J rest right rows side c f)
    (hd : Answered J right c d) (hend : d.isEmpty = true → T.told → rows = []) :
    Worked T J.types (Joining T left₁ left₂ J) rows { f with out := d } := by
  obtain ⟨p, hp, htaken, hnone⟩ := h.progress
  refine ⟨⟨hd.sound, hd.typed, fun ht => ?_⟩, h.sees, h.unfinished, hend, fun _ =>
    ⟨J.rows rest, ⟨p, rest, hp, h.left, .inr ⟨side, ?_⟩⟩, fun ht => ?_⟩⟩
  · have htidy := h.handed.tidy ht
    exact ⟨Nat.le_trans hd.count htidy.bounded, htidy.increasing.sublist hd.active⟩
  · refine ⟨htaken, ⟨right, h.indexed, h.right⟩, fun hmore => ?_, fun _ => ?_⟩
    · rw [hnone] at hmore
      cases hmore
    · rw [hnone, List.drop_nil]
      rfl
  · show rows = d.rows ++ _
    rw [h.rows ht, hd.rows, h.right ht, JoinTerms.rows, JoinTerms.rows, JoinKeys.nestedLoop_append]

/-- A chunk that is answered row for row. -/
theorem Asked.worked_all {rest right : List Row} {c d : Chunk} (h : Asked T left₁ left₂ J rest right rows side c f)
    (hd : Answered J right c d) (hcount : d.count = c.count) :
    Worked T J.types (Joining T left₁ left₂ J) rows { f with out := d } := by
  refine h.worked hd fun he => ?_
  have hfull := h.full
  rw [Chunk.isEmpty, ← hcount] at hfull
  exact absurd he (Bool.eq_false_iff.mp hfull)

/-- The chunk was looked up: the pairs that were found are owed now. -/
theorem Asked.owing_pairs {rest right : List Row} {c : Chunk} {pairs : List (Nat × Option Nat)}
    (h : Asked T left₁ left₂ J rest right rows side c f) (htaken : p.side = some side) (hbuffer : f.cell.buffer = c)
    (hkind : J.kind = .inner ∨ J.kind = .left)
    (hpairs : pairRows c side pairs = J.keys.nestedLoop J.kind J.rightTypes c.rows right) :
    Owing T J rest rows f.cell.buffer ⟨p.side, pairs, 0⟩ side where
  taken := htaken
  indexed := ⟨right, h.indexed, h.right⟩
  pending _ := ⟨hkind, hbuffer ▸ h.handed.typed⟩
  rows ht := by
    rw [h.rows ht, JoinTerms.rows, JoinKeys.nestedLoop_append, hbuffer, List.drop_zero, hpairs, h.right ht, JoinTerms.rows]

/-- The chunk was looked up and no row comes of it. -/
theorem Asked.owing_nothing {rest right : List Row} {c : Chunk} {pairs : List (Nat × Option Nat)}
    (h : Asked T left₁ left₂ J rest right rows side c f) (htaken : p.side = some side) (hnone : pairs = [])
    (hrows : T.told → rows = J.rows rest) : Owing T J rest rows f.cell.buffer ⟨p.side, pairs, 0⟩ side where
  taken := htaken
  indexed := ⟨right, h.indexed, h.right⟩
  pending hmore := by
    rw [hnone] at hmore
    cases hmore
  rows ht := by
    rw [hrows ht, hnone]
    rfl

theorem semiOrAnti_ok {right : List Row} {anti : Bool} {c d : Chunk} (hk : J.kind = if anti then .anti else .semi)
    (hc : c.Sound) (ht : c.types = J.leftTypes)
    (h : JoinResult.semiOrAnti c (c.rows.map (J.keys.hasPartner right)) anti (Chunk.blank J.types T.capacity) = .ok () d) :
    Answered J right c d ∧ d.capacity = max T.capacity 1 := by
  have htypes : J.types = J.leftTypes := by
    rw [JoinTerms.types, hk]
    cases anti <;> rfl
  rw [htypes] at h
  have hd := JoinResult.semiOrAnti_ok hc ht h
  have hcount : d.count ≤ c.count := by
    rw [← hd.sound.length_activeRows, ← hc.length_activeRows]
    exact hd.active.length_le
  refine ⟨⟨hd.sound, (hd.typed.trans ht).trans htypes.symm, hcount, hd.active, hd.rows.trans ?_⟩, hd.capacity⟩
  rw [Chunk.rows_reference, hk]
  cases anti with
  | false =>
    rw [if_neg Bool.false_ne_true, JoinKeys.nestedLoop_semi]
    exact List.filter_congr fun row _ => by cases J.keys.hasPartner right row <;> rfl
  | true =>
    rw [if_pos rfl, JoinKeys.nestedLoop_anti]
    exact List.filter_congr fun row _ => by cases J.keys.hasPartner right row <;> rfl

/-- A semi or anti join goes on where it has no row to hand out. -/
theorem agree_semiOrAnti {rest right : List Row} {c : Chunk} {next₁ next₂ : Pull Unit} (anti : Bool)
    (hk : J.kind = if anti then .anti else .semi) (h : Asked T left₁ left₂ J rest right rows side c f)
    (hnext : (T.told → rows = J.rows rest) →
      Pull.Agree next₁ next₂ f fun _ g => Worked T J.types (Joining T left₁ left₂ J) rows g) :
    Pull.Agree
      (do
        Pull.filling (JoinResult.semiOrAnti c (c.rows.map (J.keys.hasPartner right)) anti)
        if !(← Pull.out).isEmpty then return
        Pull.changeOut Chunk.reset
        next₁)
      (do
        Pull.filling (JoinResult.semiOrAnti c (c.rows.map (J.keys.hasPartner right)) anti)
        if !(← Pull.out).isEmpty then return
        Pull.changeOut Chunk.reset
        next₂)
      f fun _ g => Worked T J.types (Joining T left₁ left₂ J) rows g := by
  refine (Pull.Agree.filling (Q := fun _ g => ∃ d, g = { f with out := d } ∧ Answered J right c d ∧
    d.capacity = max T.capacity 1) fun _ d hd => ⟨d, rfl, ?_⟩).bind fun _ g ⟨d, hg, hd, hcapacity⟩ => ?_
  · exact semiOrAnti_ok hk h.handed.sound h.handed.typed (h.out ▸ hd)
  subst hg
  refine Pull.Agree.step rfl (Pull.Agree.ite (fun hne => ?_) fun he => ?_)
  · refine Pull.Agree.pure (h.worked hd fun he => ?_)
    have he : d.isEmpty = true := he
    simp [he] at hne
  · have he : d.isEmpty = true := by simpa using he
    have hreset : d.reset = f.out := by rw [Chunk.reset_eq_blank hd.typed hcapacity, h.out]
    refine Pull.Agree.step (a := ()) (g := f) ?_ (hnext fun ht => ?_)
    · show EStateM.Result.ok () { f with out := d.reset } = _
      rw [hreset]
    · have hnone : J.keys.nestedLoop J.kind J.rightTypes c.rows right = [] := by
        rw [← hd.rows]
        exact hd.sound.rows_eq_nil_iff.mpr he
      rw [h.rows ht, JoinTerms.rows, JoinKeys.nestedLoop_append, ← h.right ht, hnone, List.nil_append, JoinTerms.rows,
        h.right ht]

theorem marked_ok {keys : List Expr} {keyColumns : List Column} {right : List Row} {c d : Chunk}
    (hkey : KeyOn keys J.leftTypes J.common J.keys.left) (hk : J.kind = .mark)
    (hindexed : side.Indexes J.rightTypes J.common J.keys.right right) (hne : right ≠ []) (hc : c.Sound)
    (ht : c.types = J.leftTypes) (hcolumns : keys.mapM (Expr.evaluate c) = .ok keyColumns)
    (hd : JoinResult.marked (keyColumns.map HostArray.column) c (c.rows.map (J.keys.hasPartner right)) side.hasNull
      (Chunk.blank J.types T.capacity) = .ok () d) : Answered J right c d ∧ d.count = c.count := by
  have htypes : J.types = J.leftTypes ++ [.boolean] := by rw [JoinTerms.types, hk, JoinKind.outputTypes]
  rw [htypes] at hd
  have hmap := JoinResult.marked_ok hc ht (fun r hr => mark_eq hindexed hne hkey hc ht hcolumns hr) hd
  refine ⟨.of_mapped (htypes ▸ hmap) ?_, hmap.count⟩
  rw [hk, JoinKeys.nestedLoop_mark]

theorem agree_probe {keys : List Expr} (hkey : KeyOn keys J.leftTypes J.common J.keys.left)
    (hl : left₁.types = J.leftTypes) (hr₁ : right₁.types = J.rightTypes) (hr₂ : right₂.types = J.rightTypes) (rounds : Nat)
    (hgiven : Gives T left₁ left₂ given f.below) (h : Owing T J given rows f.cell.buffer p side)
    (hf : f.cell.finished = false) (hout : f.out = Chunk.blank J.types T.capacity) (hs : T.sees f.session.masks) :
    Pull.Agree (probe J.kind keys left₁ right₁ side rounds p) (probe J.kind keys left₂ right₂ side rounds p) f fun _ g =>
      Worked T J.types (Joining T left₁ left₂ J) rows g := by
  induction rounds generalizing f given rows p with
  | zero => exact Pull.Agree.throw
  | succ rounds ih =>
    rw [probe, probe, hr₁, hr₂]
    refine Pull.Agree.ite (fun hmore => agree_handOutPairs hgiven h hmore hf hout hs) fun hmore => ?_
    obtain ⟨right, hindexed, hright⟩ := h.indexed
    have hrows (ht : T.told) : rows = J.rows given := by
      rw [h.rows ht, List.drop_of_length_le (by omega)]
      rfl
    refine Pull.Agree.step rfl (Pull.Agree.ite (fun hnothing => ?_) fun hkind => ?_)
    · refine Pull.Agree.pure (Worked.none hout hf hs fun ht => ?_)
      have hnone : J.right = [] := by
        rw [← hright ht]
        exact hindexed.rows_eq_zero_iff.mp hnothing.1
      rw [hrows ht, JoinTerms.rows, hnone]
      exact JoinKeys.nestedLoop_nothing hnothing.2 _ _
    let fresh : Frame := { f with cell := { f.cell with progress := .join { p with pending := [], emitted := 0 } } }
    refine agree_taken (f := fresh) hgiven hf hout hs (fun hnone ht => ?_) fun chunk rest g hg => ?_
    · rw [hrows ht, hnone]
      rfl
    have hhanded : T.Handed J.leftTypes chunk := hl ▸ hg.handed
    have hrows' (ht : T.told) : rows = J.rows (chunk.rows ++ rest) := by rw [hrows ht, hg.rows ht]
    have hprogress : g.cell.progress = .join { p with pending := [], emitted := 0 } := by rw [hg.cell]
    have hasked : Asked T left₁ left₂ J rest right rows side chunk g :=
      ⟨⟨_, hprogress, h.taken, rfl⟩, hindexed, hright, hg.left, hg.unfinished, hg.out, hg.sees, hhanded, hg.full, hrows'⟩
    refine Pull.Agree.ite (fun hzero => ?_) fun hzero => ?_
    · refine Pull.Agree.filling fun _ d hd => ?_
      obtain rfl := hindexed.rows_eq_zero_iff.mp hzero
      obtain ⟨hd, hcount⟩ := joinWithNothing_ok hhanded.sound hhanded.typed (fun hk => hkind ⟨hzero, hk⟩) (hg.out ▸ hd)
      exact hasked.worked_all hd hcount
    refine Pull.Agree.lift_bind fun keyColumns hcolumns => ?_
    generalize hprobe : probeRows J.kind side keyColumns chunk.activeRows = answer
    obtain ⟨found, pairs⟩ := answer
    refine Pull.Agree.step rfl (Pull.Agree.liftQuery_bind fun flags hflags => ?_)
    rw [hflags] at hprobe
    obtain ⟨rfl, hpairs, hnopairs⟩ := probeChunk_ok hindexed hkey hhanded.sound hhanded.typed hcolumns hprobe
    have hbuffer : g.cell.buffer = chunk := by rw [hg.cell]
    have hgo (kind : JoinKind) (hk : J.kind = kind) (howing : Owing T J rest rows g.cell.buffer ⟨p.side, pairs, 0⟩ side) :
        Pull.Agree (probe kind keys left₁ right₁ side rounds ⟨p.side, pairs, 0⟩)
          (probe kind keys left₂ right₂ side rounds ⟨p.side, pairs, 0⟩)
          { g with cell := { g.cell with progress := .join ⟨p.side, pairs, 0⟩ } } fun _ k =>
            Worked T J.types (Joining T left₁ left₂ J) rows k := by
      subst hk
      exact ih hg.left howing hg.unfinished hg.out hg.sees
    have hasked' (hkind : ¬(J.kind = .inner ∨ J.kind = .left)) :
        Asked T left₁ left₂ J rest right rows side chunk
          { g with cell := { g.cell with progress := .join ⟨p.side, pairs, 0⟩ } } :=
      { hasked with progress := ⟨⟨p.side, pairs, 0⟩, rfl, h.taken, hnopairs hkind⟩ }
    cases hk : J.kind with
    | inner => exact hgo .inner hk (hasked.owing_pairs h.taken hbuffer (.inl hk) (hpairs (.inl hk)))
    | left => exact hgo .left hk (hasked.owing_pairs h.taken hbuffer (.inr hk) (hpairs (.inr hk)))
    | semi =>
      have hkind : ¬(J.kind = .inner ∨ J.kind = .left) := by rw [hk]; decide
      exact agree_semiOrAnti false hk (hasked' hkind) fun hrest' =>
        hgo .semi hk (hasked.owing_nothing h.taken (hnopairs hkind) hrest')
    | anti =>
      have hkind : ¬(J.kind = .inner ∨ J.kind = .left) := by rw [hk]; decide
      exact agree_semiOrAnti true hk (hasked' hkind) fun hrest' =>
        hgo .anti hk (hasked.owing_nothing h.taken (hnopairs hkind) hrest')
    | mark =>
      have hkind : ¬(J.kind = .inner ∨ J.kind = .left) := by rw [hk]; decide
      have hne : right ≠ [] := mt hindexed.rows_eq_zero_iff.mpr hzero
      refine Pull.Agree.filling fun _ d hd => ?_
      obtain ⟨hd, hcount⟩ := marked_ok hkey hk hindexed hne hhanded.sound hhanded.typed hcolumns (hg.out ▸ hd)
      exact (hasked' hkind).worked_all hd hcount

theorem agree_lendingSide {step₁ step₂ : Pull Unit} {Q : Unit → Frame → Prop} (h : Pull.Agree step₁ step₂ f Q) :
    Pull.Agree (lendingSide step₁) (lendingSide step₂) f Q := by
  unfold Pull.Agree lendingSide
  rw [← h.1]
  refine ⟨rfl, fun a g hok => ?_⟩
  cases hm : step₁ f with
  | ok b k =>
    rw [hm] at hok
    cases hok
    exact h.2 _ _ hm
  | error e k =>
    rw [hm] at hok
    cases e <;> cases hok

theorem agree_probeLent {keys : List Expr} (hkey : KeyOn keys J.leftTypes J.common J.keys.left)
    (hl : left₁.types = J.leftTypes) (hr₁ : right₁.types = J.rightTypes) (hr₂ : right₂.types = J.rightTypes)
    (hgiven : Gives T left₁ left₂ given f.below) (h : Owing T J given rows f.cell.buffer p side)
    (hf : f.cell.finished = false) (hout : f.out = Chunk.blank J.types T.capacity) (hs : T.sees f.session.masks) :
    Pull.Agree
      (do
        let rounds := (← left₁.rounds) + 1
        lendingSide (probe J.kind keys left₁ right₁ side rounds p))
      (do
        let rounds := (← left₂.rounds) + 1
        lendingSide (probe J.kind keys left₂ right₂ side rounds p))
      f fun _ g => Worked T J.types (Joining T left₁ left₂ J) rows g := by
  rw [hgiven.alike.rounds]
  exact .step rfl (agree_lendingSide (agree_probe hkey hl hr₁ hr₂ _ hgiven h hf hout hs))

theorem agree_joinRight {keys : List Expr} (hright : Gives T right₁ right₂ J.right right₁.start.cells)
    (hr : right₁.types = J.rightTypes) (hkey : KeyOn keys J.rightTypes J.common J.keys.right)
    (hs : T.sees f.session.masks) :
    Pull.Agree (joinRight keys right₁ p) (joinRight keys right₂ p) f fun side g =>
      (∃ right, side.Indexes J.rightTypes J.common J.keys.right right ∧ (T.told → right = J.right)) ∧
        T.sees g.session.masks ∧ g.out = f.out ∧ g.below = f.below ∧ g.cell.finished = f.cell.finished ∧
          g.cell.buffer = f.cell.buffer := by
  unfold joinRight
  refine (agree_drainRight (Q := fun side => ∃ right, side.Indexes J.rightTypes J.common J.keys.right right ∧
    (T.told → right = J.right)) hright hs fun buffered all g hall htold => ?_).bind fun side g ⟨hside, hg⟩ => ?_
  · refine Pull.Agree.lift_bind fun columns hcolumns => Pull.Agree.lift_bind fun side hside => ?_
    refine (Pull.Agree.reserve _).bind fun _ g' hg' => Pull.Agree.pure ⟨⟨all, ?_, htold⟩, hg'⟩
    rw [hall.counted] at hside
    exact JoinSide.ofColumns_ok (hr ▸ hall.materialize hcolumns) hkey hside
  · obtain ⟨held, hcell⟩ := hg.cell
    refine Pull.Agree.step rfl (Pull.Agree.pure ⟨hside, hg.sees, hg.out, hg.below, ?_, ?_⟩)
    · show g.cell.finished = f.cell.finished
      rw [hcell]
    · show g.cell.buffer = f.cell.buffer
      rw [hcell]

theorem gives_join {c₁ c₂ : Config} (h₁ : c₁.capacity = T.capacity) (h₂ : c₂.capacity = T.capacity)
    {on : List (Expr × Expr)} (hl : left₁.types = J.leftTypes) (hr : right₁.types = J.rightTypes)
    (hleftKey : KeyOn (on.map Prod.fst) J.leftTypes J.common J.keys.left)
    (hrightKey : KeyOn (on.map Prod.snd) J.rightTypes J.common J.keys.right)
    (hleft : Gives T left₁ left₂ given left₁.start.cells) (hright : Gives T right₁ right₂ J.right right₁.start.cells) :
    Gives T (join c₁ J.kind on left₁ right₁) (join c₂ J.kind on left₂ right₂) (J.rows given)
      (join c₁ J.kind on left₁ right₁).start.cells := by
  have hl₂ : left₂.types = J.leftTypes := hleft.alike.types.trans hl
  have hr₂ : right₂.types = J.rightTypes := hright.alike.types.trans hr
  have htypes₁ : J.kind.outputTypes left₁.types right₁.types = J.types := by rw [hl, hr, JoinTerms.types]
  have htypes₂ : J.kind.outputTypes left₂.types right₂.types = J.types := by rw [hl₂, hr₂, JoinTerms.types]
  have halike : Alike (join c₁ J.kind on left₁ right₁) (join c₂ J.kind on left₂ right₂) := by
    refine ⟨rfl, htypes₂.trans htypes₁.symm, congrArg (State.above (.join ⟨none, [], 0⟩)) hleft.alike.start, ?_⟩
    simp only [join, hleft.alike.rowsBelow, hright.alike.rowsLeft, hright.alike.start]
  refine Gives.of_work (K := Joining T left₁ left₂ J) halike h₁ h₂ rfl rfl (fun f rows hf hout hK hs => ?_) rfl
    ⟨⟨none, [], 0⟩, given, rfl, hleft, .inl ⟨rfl, rfl, rfl, fun _ => rfl⟩⟩
  obtain ⟨p, given, hp, hgiven, hK⟩ := hK
  have hout : f.out = Chunk.blank J.types T.capacity := htypes₁ ▸ hout
  show Pull.Agree _ _ f fun _ g => Worked T (J.kind.outputTypes left₁.types right₁.types) _ rows g
  rw [htypes₁]
  refine Pull.Agree.step rfl ?_
  simp only [hp]
  rcases hK with ⟨htaken, howed, hemitted, hrows⟩ | ⟨side, howing⟩
  · simp only [htaken]
    refine (agree_joinRight hright hr hrightKey hs).bind fun side g ⟨hside, hsees, hog, hbelow, hfg, hbuffer⟩ => ?_
    refine agree_probeLent hleftKey hl hr hr₂ (hbelow ▸ hgiven) ⟨rfl, hside, fun hmore => ?_, fun ht => ?_⟩ (hfg.trans hf)
      (hog.trans hout) hsees
    · have hmore : p.emitted < p.pending.length := hmore
      rw [howed] at hmore
      cases hmore
    · rw [hrows ht]
      show _ = pairRows g.cell.buffer side (p.pending.drop p.emitted) ++ J.rows given
      rw [howed, List.drop_nil]
      rfl
  · have htaken := howing.taken
    simp only [htaken]
    exact agree_probeLent hleftKey hl hr hr₂ hgiven { howing with taken := rfl } hf hout hs

end

end Operator
end QueryEngine
