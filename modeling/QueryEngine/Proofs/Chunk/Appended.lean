import QueryEngine.Proofs.Chunk.Collected

/-! What a sequence of chunks leaves in a collection.

A chunk without rows is skipped, whatever its types; one of other types than the
collection's is refused, and the collection stays as it was. The rest is kept, flat, in
the order of arrival, and the three ways to read a column all go through the rows kept
(`appendEach_concatenates`). Only the count sets an end to that: a chunk that takes it
beyond 64 bits crashes (`append_uncounted`). -/
namespace QueryEngine
namespace Collection

/-! ### Appending in place -/

/-- The types that the collection takes before it looks at those of a chunk. -/
def adopt (c : Collection) (chunk : Chunk) : Collection :=
  if c.chunks.isEmpty && c.types.isEmpty then { c with types := chunk.types } else c

/-- `append` as it changes the collection, step by step, with what is left of it on failure. -/
def appendInPlace (c : Collection) (chunk : Chunk) : Except Failure Nat × Collection :=
  if chunk.isEmpty then (.ok 0, c)
  else
    let c := c.adopt chunk
    if chunk.types ≠ c.types then (.error (.error (.internal (.appendedTypes chunk.types c.types))), c)
    else
      match chunk.flatten with
      | .error e => (.error e, c)
      | .ok flat =>
        match addCounts c.count flat.count with
        | .error e => (.error e, c)
        | .ok count => (.ok (chunkBytes flat), { c with chunks := c.chunks ++ [flat], count := count })

/-- The collection after some chunks, appended one after the other, those refused left out. -/
def appendEach (c : Collection) (chunks : List Chunk) : Collection :=
  chunks.foldl (fun c chunk => (c.appendInPlace chunk).2) c

@[simp] theorem chunks_adopt (c : Collection) (chunk : Chunk) : (c.adopt chunk).chunks = c.chunks := by
  unfold adopt
  split <;> rfl

@[simp] theorem count_adopt (c : Collection) (chunk : Chunk) : (c.adopt chunk).count = c.count := by
  unfold adopt
  split <;> rfl

theorem types_adopt (c : Collection) (chunk : Chunk) :
    (c.adopt chunk).types = if c.chunks.isEmpty && c.types.isEmpty then chunk.types else c.types := by
  unfold adopt
  split <;> rfl

/-- A collection that could take the types of a chunk does not refuse it. -/
theorem adopt_of_types_ne {c : Collection} {chunk : Chunk} (h : chunk.types ≠ (c.adopt chunk).types) : c.adopt chunk = c := by
  rw [types_adopt] at h
  unfold adopt
  split at h
  · exact absurd rfl h
  · rw [if_neg ‹_›]

/-- In place or not, appending is the same. -/
theorem append_eq_inPlace (c : Collection) (chunk : Chunk) :
    c.append chunk = (c.appendInPlace chunk).1.map fun bytes => ((c.appendInPlace chunk).2, bytes) := by
  unfold append appendInPlace
  by_cases he : chunk.isEmpty = true
  · simp only [he, if_true]
    rfl
  simp only [he, types_adopt, Bool.false_eq_true, if_false]
  generalize (if c.chunks.isEmpty && c.types.isEmpty then chunk.types else c.types) = types
  by_cases ht : chunk.types ≠ types
  · simp only [ht, ne_eq, not_false_eq_true, if_true]
    rfl
  simp only [ht, if_false, count_adopt, chunks_adopt]
  cases chunk.flatten with
  | error e => rfl
  | ok flat =>
    dsimp only [ok_bind]
    generalize addCounts c.count flat.count = counted
    cases counted <;> rfl

/-! ### One chunk -/

/-- The chunk is of other types than the collection, which has either chunks or types. -/
def Refuses (c : Collection) (chunk : Chunk) : Prop := chunk.types ≠ c.types ∧ ¬(c.chunks = [] ∧ c.types = [])

theorem types_ne_adopt_iff {c : Collection} {chunk : Chunk} : chunk.types ≠ (c.adopt chunk).types ↔ c.Refuses chunk := by
  have hfresh : (c.chunks.isEmpty && c.types.isEmpty) = true ↔ c.chunks = [] ∧ c.types = [] := by simp
  rw [types_adopt, Refuses, ← hfresh]
  split <;> simp [*]

/-- The four things that become of a chunk. -/
inductive Appends (c : Collection) (chunk : Chunk) : Except Failure Nat × Collection → Prop where
  | skipped (he : chunk.isEmpty = true) : Appends c chunk (.ok 0, c)
  | refused (he : chunk.isEmpty = false) (ht : c.Refuses chunk) :
    Appends c chunk (.error (.error (.internal (.appendedTypes chunk.types c.types))), c)
  | uncounted (he : chunk.isEmpty = false) (ht : ¬c.Refuses chunk) (hn : maxCount < c.count + chunk.count) :
    Appends c chunk (.error .crash, c.adopt chunk)
  | kept (he : chunk.isEmpty = false) (ht : ¬c.Refuses chunk) (hn : c.count + chunk.count ≤ maxCount)
    (flat : Chunk) (hflat : chunk.Flattens flat) :
    Appends c chunk (.ok (chunkBytes flat), ⟨chunk.types, c.chunks ++ [flat], c.count + chunk.count⟩)

theorem appends {chunk : Chunk} (hs : chunk.Sound) (c : Collection) : c.Appends chunk (c.appendInPlace chunk) := by
  unfold appendInPlace
  cases he : chunk.isEmpty with
  | true => exact .skipped he
  | false =>
    rw [if_neg Bool.false_ne_true]
    by_cases ht : chunk.types ≠ (c.adopt chunk).types
    · have hrefuses := types_ne_adopt_iff.mp ht
      dsimp only
      rw [if_pos ht, adopt_of_types_ne ht]
      exact .refused he hrefuses
    · have htaken := mt types_ne_adopt_iff.mpr ht
      obtain ⟨flat, hflat, hsame⟩ := Chunk.flatten_ok hs
      simp only [if_neg ht, hflat, count_adopt, chunks_adopt, hsame.count, addCounts]
      by_cases hn : c.count + chunk.count ≤ maxCount
      · rw [if_pos hn, ← not_ne_iff.mp ht]
        exact .kept he htaken hn flat hsame
      · rw [if_neg hn]
        exact .uncounted he htaken (Nat.lt_of_not_le hn)

/-! ### A sequence of chunks -/

/-- The types that chunks are held against: those of the first that has rows, if the
collection has neither chunks nor types. -/
def typesFor (c : Collection) (chunks : List Chunk) : List SqlType :=
  if c.chunks.isEmpty && c.types.isEmpty then (chunks.find? fun chunk => !chunk.isEmpty).elim [] Chunk.types else c.types

/-- The chunks that are kept of a sequence. -/
def kept (types : List SqlType) (chunks : List Chunk) : List Chunk :=
  chunks.filter fun chunk => !chunk.isEmpty && decide (chunk.types = types)

/-- The rows that it holds, in chunks that each have some. -/
structure Filled (c : Collection) (types : List SqlType) (rows : List Row) : Prop where
  holds : c.Holds types rows
  filled : ∀ chunk ∈ c.chunks, chunk.isEmpty = false

theorem filled_ofTypes (types : List SqlType) : (ofTypes types).Filled types [] := ⟨holds_ofTypes types, nofun⟩

theorem typesFor_nil (c : Collection) : c.typesFor [] = c.types := by
  unfold typesFor
  split
  · rename_i hfresh
    simp only [Bool.and_eq_true, List.isEmpty_iff] at hfresh
    rw [hfresh.2]
    rfl
  · rfl

theorem typesFor_cons_of_isEmpty {chunk : Chunk} (he : chunk.isEmpty = true) (c : Collection) (chunks : List Chunk) :
    c.typesFor (chunk :: chunks) = c.typesFor chunks := by
  rw [typesFor, List.find?_cons_of_neg (by simp [he]), typesFor]

theorem typesFor_cons {chunk : Chunk} (he : chunk.isEmpty = false) (c : Collection) (chunks : List Chunk) :
    c.typesFor (chunk :: chunks) = (c.adopt chunk).types := by
  rw [typesFor, List.find?_cons_of_pos (by simp [he]), types_adopt, Option.elim]

/-- A collection that has chunks takes no other types. -/
theorem typesFor_of_chunks {c : Collection} (h : c.chunks ≠ []) (chunks : List Chunk) : c.typesFor chunks = c.types := by
  simp [typesFor, h]

theorem kept_cons_of_isEmpty {types : List SqlType} {chunk : Chunk} (he : chunk.isEmpty = true) (chunks : List Chunk) :
    kept types (chunk :: chunks) = kept types chunks := List.filter_cons_of_neg (by simp [he])

theorem kept_cons_of_ne {types : List SqlType} {chunk : Chunk} (ht : chunk.types ≠ types) (chunks : List Chunk) :
    kept types (chunk :: chunks) = kept types chunks := List.filter_cons_of_neg (by simp [ht])

theorem kept_cons {chunk : Chunk} (he : chunk.isEmpty = false) (chunks : List Chunk) :
    kept chunk.types (chunk :: chunks) = chunk :: kept chunk.types chunks := List.filter_cons_of_pos (by simp [he])

/-- A chunk that is not refused adds its rows. -/
theorem Filled.kept {c : Collection} {rows : List Row} (hc : c.Filled c.types rows) {chunk flat : Chunk}
    (he : chunk.isEmpty = false) (ht : ¬c.Refuses chunk) (hflat : chunk.Flattens flat) :
    Filled ⟨chunk.types, c.chunks ++ [flat], c.count + chunk.count⟩ chunk.types (rows ++ chunk.rows) := by
  have htypes (one : Chunk) (hone : one ∈ c.chunks) : one.types = chunk.types := by
    rw [(hc.holds.flat one hone).2.2]
    by_contra hne
    exact ht ⟨Ne.symm hne, fun hfresh => by rw [hfresh.1] at hone; cases hone⟩
  have hcount : flat.rows.length = chunk.count := by rw [hflat.sound.length_rows, hflat.count]
  refine ⟨⟨rfl, fun one hone => ?_, ?_, ?_⟩, fun one hone => ?_⟩
  · rcases List.mem_append.mp hone with hone | hone
    · obtain ⟨hsound, hnone, _⟩ := hc.holds.flat one hone
      exact ⟨hsound, hnone, htypes one hone⟩
    · rw [List.mem_singleton.mp hone]
      exact ⟨hflat.sound, hflat.flat, hflat.types⟩
  · rw [List.flatMap_append, hc.holds.listed, List.flatMap_singleton, hflat.rows]
  · rw [List.length_append, ← hflat.rows, hcount, hc.holds.counted]
  · rcases List.mem_append.mp hone with hone | hone
    · exact hc.filled one hone
    · rw [List.mem_singleton.mp hone, Chunk.isEmpty, hflat.count]
      exact he

/-- As long as they can be counted, the rows kept are added in their order. -/
theorem Filled.appendEach {c : Collection} {rows : List Row} (hc : c.Filled c.types rows) {chunks : List Chunk}
    (h : ∀ chunk ∈ chunks, chunk.Sound)
    (hcount : c.count + total ((Collection.kept (c.typesFor chunks) chunks).map Chunk.count) ≤ maxCount) :
    (c.appendEach chunks).Filled (c.typesFor chunks) (rows ++ (Collection.kept (c.typesFor chunks) chunks).flatMap Chunk.rows) := by
  induction chunks generalizing c rows with
  | nil =>
    rw [typesFor_nil]
    simpa [Collection.kept, Collection.appendEach] using hc
  | cons chunk chunks ih =>
    obtain ⟨hs, hrest⟩ := List.forall_mem_cons.mp h
    have happends := appends hs c
    rw [Collection.appendEach, List.foldl_cons]
    change Filled (Collection.appendEach (c.appendInPlace chunk).2 chunks) _ _
    generalize c.appendInPlace chunk = outcome at happends
    cases happends with
    | skipped he =>
      rw [typesFor_cons_of_isEmpty he, kept_cons_of_isEmpty he] at hcount ⊢
      exact ih hc hrest hcount
    | refused he ht =>
      have hadopt : c.adopt chunk = c := adopt_of_types_ne (types_ne_adopt_iff.mpr ht)
      have hsame : c.typesFor chunks = c.types := by
        simp only [typesFor, ite_eq_right_iff, Bool.and_eq_true, List.isEmpty_iff]
        exact fun hfresh => absurd hfresh ht.2
      rw [typesFor_cons he, hadopt, kept_cons_of_ne ht.1, ← hsame] at hcount ⊢
      exact ih hc hrest hcount
    | uncounted he ht hn =>
      have htypes := not_ne_iff.mp (mt types_ne_adopt_iff.mp ht)
      rw [typesFor_cons he, ← htypes, kept_cons he, List.map_cons, total_cons] at hcount
      omega
    | kept he ht hn flat hflat =>
      have htypes := not_ne_iff.mp (mt types_ne_adopt_iff.mp ht)
      have hsome : c.chunks ++ [flat] ≠ [] := List.append_ne_nil_of_right_ne_nil _ (List.cons_ne_nil flat [])
      have hsame : typesFor ⟨chunk.types, c.chunks ++ [flat], c.count + chunk.count⟩ chunks = chunk.types :=
        typesFor_of_chunks hsome chunks
      rw [typesFor_cons he, ← htypes, kept_cons he, List.map_cons, total_cons, ← Nat.add_assoc] at hcount
      rw [typesFor_cons he, ← htypes, kept_cons he, List.flatMap_cons, ← List.append_assoc]
      have hall := ih (hc.kept he ht hflat) hrest (by rwa [hsame])
      rwa [hsame] at hall

/-! ### Reading a column -/

/-- What stands in one place of all rows. -/
def columnOf (col : Nat) (rows : List Row) : List Scalar := rows.map fun row => (row.getD col default).value

theorem columnOf_append (col : Nat) (rows more : List Row) : columnOf col (rows ++ more) = columnOf col rows ++ columnOf col more :=
  List.map_append

theorem slots_of_data {c : Column} {col : Nat} {rows : List Row} (h : c.data = rows.map fun row => row.getD col default) :
    c.slots = columnOf col rows := by
  have hslots : c.slots = c.data.map Datum.value := by simp [Column.data, Function.comp_def]
  rw [hslots, h, List.map_map]
  rfl

theorem read_slots (c : Column) :
    (List.range c.size).mapM (fun row => (liftM (c.get row) : Except Failure Scalar)) = .ok c.slots := by
  rw [mapM_eq_ok_iff, List.forall₂_iff_get]
  refine ⟨List.length_range, fun i hi hlt => ?_⟩
  rw [List.get_eq_getElem, List.getElem_range, c.get_eq_ok i hlt]
  rfl

/-- A column of a chunk without a selection has the rows' values. -/
theorem chunkColumn_of_flat {chunk : Chunk} (hs : chunk.Sound) (hnone : chunk.selection = none) {col : Nat}
    (hcol : col < chunk.types.length) :
    ∃ column, chunkColumn col chunk = .ok column ∧ chunk.types[col]? = some column.type ∧ column.size = chunk.count ∧
      column.slots = columnOf col chunk.rows := by
  have hin : col < chunk.columns.length := by simpa [Chunk.types] using hcol
  have hget : chunk.columns[col]? = some chunk.columns[col] := List.getElem?_eq_getElem hin
  have hsize : (chunk.columns[col]).size = chunk.count := (hs.even _ (List.getElem_mem hin)).trans (hs.flat hnone)
  exact ⟨chunk.columns[col], by rw [chunkColumn, hget], by rw [Chunk.types, List.getElem?_map, hget]; rfl, hsize,
    slots_of_data ((Chunk.lists_of_flat hs hnone).data col _ hget)⟩

section
variable {c : Collection} {types : List SqlType} {rows : List Row} {col : Nat}

/-- Every chunk has the column. -/
theorem Holds.chunkColumn (h : c.Holds types rows) (hcol : col < types.length) {chunk : Chunk} (hchunk : chunk ∈ c.chunks) :
    ∃ column, Collection.chunkColumn col chunk = .ok column ∧ types[col]? = some column.type ∧ column.size = chunk.count ∧
      column.slots = columnOf col chunk.rows := by
  obtain ⟨hs, hnone, ht⟩ := h.flat chunk hchunk
  rw [← ht] at hcol ⊢
  exact chunkColumn_of_flat hs hnone hcol

theorem Holds.values (h : c.Holds types rows) (hcol : col < types.length) : c.values col = .ok (columnOf col rows) := by
  have hparts : c.chunks.mapM (fun chunk => do
      let column ← Collection.chunkColumn col chunk
      (List.range chunk.count).mapM fun row => (liftM (column.get row) : Except Failure Scalar)) =
        .ok (c.chunks.map fun chunk => columnOf col chunk.rows) := mapM_eq_map fun chunk hchunk => by
    obtain ⟨column, hcolumn, _, hsize, hslots⟩ := h.chunkColumn hcol hchunk
    rw [hcolumn, ok_bind, ← hsize, read_slots, hslots]
  rw [Collection.values, hparts, ok_bind, ← h.listed, columnOf, List.map_flatMap, List.flatMap_def]
  rfl

/-- Looking a row up passes the chunks before its own. -/
theorem lookup_ok {n row : Nat} {chunks : List Chunk} {r : Nat} {v : Scalar}
    (h : ∀ chunk ∈ chunks, chunk.Sound ∧ chunk.selection = none ∧ col < chunk.types.length)
    (hv : (columnOf col (chunks.flatMap Chunk.rows))[r]? = some v) : lookup n col row chunks r = .ok v := by
  induction chunks generalizing r with
  | nil => cases hv
  | cons chunk chunks ih =>
    obtain ⟨⟨hs, hnone, hcol⟩, hrest⟩ := List.forall_mem_cons.mp h
    have hlen : (columnOf col chunk.rows).length = chunk.count := (List.length_map _).trans hs.length_rows
    rw [List.flatMap_cons, columnOf_append] at hv
    rw [lookup]
    by_cases hr : r < chunk.count
    · obtain ⟨column, hcolumn, _, _, hslots⟩ := chunkColumn_of_flat hs hnone hcol
      rw [List.getElem?_append_left (hlen.symm ▸ hr), ← hslots] at hv
      rw [if_pos hr, hcolumn, ok_bind, Column.get, hv]
      rfl
    · rw [List.getElem?_append_right (hlen ▸ Nat.le_of_not_lt hr), hlen] at hv
      rw [if_neg hr]
      exact ih hrest hv

theorem lookup_outside {n row : Nat} {chunks : List Chunk} {r : Nat} (h : ∀ chunk ∈ chunks, chunk.Sound)
    (hr : (chunks.flatMap Chunk.rows).length ≤ r) :
    lookup n col row chunks r = .error (.error (.internal (.rowOfCollection row n))) := by
  induction chunks generalizing r with
  | nil => rfl
  | cons chunk chunks ih =>
    obtain ⟨hs, hrest⟩ := List.forall_mem_cons.mp h
    rw [List.flatMap_cons, List.length_append, hs.length_rows] at hr
    rw [lookup, if_neg (by omega)]
    exact ih hrest (by omega)

theorem Holds.get (h : c.Holds types rows) (hcol : col < types.length) {row : Nat} {v : Scalar}
    (hv : (columnOf col rows)[row]? = some v) : c.get col row = .ok v := by
  refine lookup_ok (fun chunk hchunk => ?_) (h.listed.symm ▸ hv)
  obtain ⟨hs, hnone, ht⟩ := h.flat chunk hchunk
  exact ⟨hs, hnone, ht.symm ▸ hcol⟩

theorem Holds.get_outside (h : c.Holds types rows) {row : Nat} (hrow : c.count ≤ row) :
    c.get col row = .error (.error (.internal (.rowOfCollection row c.count))) := by
  refine lookup_outside (fun chunk hchunk => (h.flat chunk hchunk).1) ?_
  rw [h.listed, ← h.counted]
  exact hrow

end

/-! ### Both together -/

/-- What every reader of the collection finds: flat chunks that each have rows, and in
every column the values of the same rows. -/
structure Concatenates (c : Collection) (types : List SqlType) (rows : List Row) : Prop where
  typed : c.types = types
  counted : c.count = rows.length
  flat : ∀ chunk ∈ c.chunks, chunk.verify = .ok () ∧ chunk.selection = none ∧ chunk.isEmpty = false
  values : ∀ col < types.length, c.values col = .ok (columnOf col rows)
  materialized : ∃ cs, c.materialize = .ok cs ∧ cs.map Column.type = types ∧
    ∀ (col : Nat) (column : Column), cs[col]? = some column → column.slots = columnOf col rows
  get : ∀ col < types.length, ∀ (row : Nat) (v : Scalar), (columnOf col rows)[row]? = some v → c.get col row = .ok v
  outside : ∀ col row, c.count ≤ row → c.get col row = .error (.error (.internal (.rowOfCollection row c.count)))

theorem Filled.concatenates {c : Collection} {types : List SqlType} {rows : List Row} (h : c.Filled types rows) :
    c.Concatenates types rows where
  typed := h.holds.typed
  counted := h.holds.counted
  flat chunk hchunk := by
    obtain ⟨hs, hnone, _⟩ := h.holds.flat chunk hchunk
    exact ⟨(Chunk.verify_eq_ok_iff chunk).mpr hs, hnone, h.filled chunk hchunk⟩
  values _ hcol := h.holds.values hcol
  materialized := by
    obtain ⟨cs, hcs, hlists⟩ := h.holds.materialize_ok
    exact ⟨cs, hcs, hlists.typed, fun _ _ hcol => slots_of_data (hlists.data _ _ hcol)⟩
  get _ hcol _ _ hv := h.holds.get hcol hv
  outside _ _ hrow := h.holds.get_outside hrow

/-- What an append answers, and what it leaves when it fails. -/
structure Answers (c : Collection) (chunk : Chunk) (outcome : Except Failure Nat × Collection) : Prop where
  fails : (∃ e, outcome.1 = .error e) ↔ chunk.isEmpty = false ∧ (c.Refuses chunk ∨ maxCount < c.count + chunk.count)
  crashes : outcome.1 = .error .crash ↔ chunk.isEmpty = false ∧ ¬c.Refuses chunk ∧ maxCount < c.count + chunk.count
  refuses : ∀ e, outcome.1 = .error (.error e) → e = .internal (.appendedTypes chunk.types c.types)
  unchanged : ∀ e, outcome.1 = .error (.error e) → outcome.2 = c

theorem Appends.answers {c : Collection} {chunk : Chunk} {outcome : Except Failure Nat × Collection}
    (h : c.Appends chunk outcome) : c.Answers chunk outcome := by
  cases h with
  | skipped he => constructor <;> simp [he]
  | refused he ht => constructor <;> simp [he, ht]
  | uncounted he ht hn => constructor <;> simp [he, ht, hn]
  | kept he ht hn => constructor <;> simp [he, ht, Nat.not_lt_of_le hn]

/-- After any sequence of verified chunks that can be counted, the collection is the
concatenation of those with rows that are of its types, and this is what becomes of the next. -/
theorem appendEach_concatenates (types : List SqlType) {chunks : List Chunk} (h : ∀ chunk ∈ chunks, chunk.verify = .ok ())
    (hcount : total ((kept ((ofTypes types).typesFor chunks) chunks).map Chunk.count) ≤ maxCount) :
    let c := (ofTypes types).appendEach chunks
    c.Concatenates ((ofTypes types).typesFor chunks) ((kept ((ofTypes types).typesFor chunks) chunks).flatMap Chunk.rows) ∧
      ∀ next : Chunk, next.verify = .ok () → c.Answers next (c.appendInPlace next) ∧
        c.append next = (c.appendInPlace next).1.map fun bytes => ((c.appendInPlace next).2, bytes) := by
  intro c
  have hsound (chunk : Chunk) (hchunk : chunk ∈ chunks) : chunk.Sound := (Chunk.verify_eq_ok_iff chunk).mp (h chunk hchunk)
  have hfilled := (filled_ofTypes types).appendEach hsound (by rwa [show (ofTypes types).count = 0 from rfl, Nat.zero_add])
  refine ⟨hfilled.concatenates, fun next hnext => ⟨?_, append_eq_inPlace c next⟩⟩
  exact (appends ((Chunk.verify_eq_ok_iff next).mp hnext) c).answers

/-- Two of three rows selected, a chunk without rows, one of another type and one more row,
into a collection that takes its types from the first. -/
theorem appendEach_concatenates_mixed :
    let chunks : List Chunk := [⟨[.empty .varchar], none, 0, defaultCapacity⟩, ⟨[.ofInts [3, 1, 2]], some [2, 0], 2, defaultCapacity⟩,
      ⟨[.ofBooleans [some true]], none, 1, defaultCapacity⟩, ⟨[.ofInts [5]], none, 1, defaultCapacity⟩]
    let c := (ofTypes []).appendEach chunks
    (∀ chunk ∈ chunks, chunk.verify = .ok ()) ∧ c.types = [.bigInt] ∧ c.count = 3 ∧
      c.values 0 = .ok [.bigInt 2, .bigInt 3, .bigInt 5] ∧ c.get 0 1 = .ok (.bigInt 3) ∧ c.Refuses chunks[2] := by
  intro chunks c
  have hverified : ∀ chunk ∈ chunks, chunk.verify = .ok () := by
    simp only [chunks, List.forall_mem_cons]
    exact ⟨rfl, rfl, rfl, rfl, nofun⟩
  have htypes : (ofTypes []).typesFor chunks = [.bigInt] := rfl
  have hrows : (kept [.bigInt] chunks).flatMap Chunk.rows = [[⟨.bigInt, .bigInt 2⟩], [⟨.bigInt, .bigInt 3⟩], [⟨.bigInt, .bigInt 5⟩]] := by
    decide +kernel
  obtain ⟨hconcatenates, -⟩ := appendEach_concatenates [] hverified (by decide +kernel)
  rw [htypes, hrows] at hconcatenates
  exact ⟨hverified, hconcatenates.typed, hconcatenates.counted, hconcatenates.values 0 (by decide),
    hconcatenates.get 0 (by decide) 1 _ rfl, by rw [Refuses, hconcatenates.typed]; decide⟩

/-- As many rows without columns as can be counted, and one more. -/
theorem append_uncounted :
    let full : Chunk := ⟨[], none, maxCount, defaultCapacity⟩
    let one : Chunk := ⟨[], none, 1, defaultCapacity⟩
    let c := (ofTypes []).appendEach [full]
    full.verify = .ok () ∧ one.verify = .ok () ∧ one.isEmpty = false ∧ one.types = c.types ∧ c.append one = .error .crash :=
  ⟨rfl, rfl, rfl, rfl, rfl⟩

end Collection
end QueryEngine
