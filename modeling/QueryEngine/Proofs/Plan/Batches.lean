import QueryEngine.Chunk.Batch
import QueryEngine.Proofs.Plan.Capacity
import QueryEngine.Proofs.Plan.WellFormed

/-! Batches keep the active rows.

A verified chunk becomes a batch, in whose columns its active rows stand in their
order (`Chunk.toBatch_ok`). The one thing that gets lost is how many rows a chunk without
columns has: its batch has none. So the batches of a result have as many rows as the
result says, if it has columns. -/
namespace QueryEngine

theorem Column.get_eq_value {c : Column} {i : Nat} (h : i < c.size) : c.get i = .ok (c.datum i).value := by
  have hlt : i < c.slots.length := h
  rw [get_eq_ok c i h, datum, List.getElem?_eq_getElem hlt]
  rfl

namespace Chunk
variable {c : Chunk}

/-- What a batch shows of a chunk. -/
structure ShownBy (c : Chunk) (b : Batch) : Prop where
  rows : b.rows = if c.columns = [] then 0 else c.count
  width : b.columns.length = c.columns.length
  column : ∀ (j : Nat) (column : Column), c.columns[j]? = some column →
    ∃ shown : Column, b.columns[j]? = some (.column shown) ∧ shown.type = column.type ∧ shown.size = c.count ∧
      ∀ i < c.count, ∃ r v, c.rowAt i = .ok r ∧ column.get r = .ok v ∧ shown.get i = .ok v

theorem toBatch_ok (h : c.verify = .ok ()) : ∃ b, c.toBatch = .ok b ∧ c.ShownBy b := by
  have hc := (verify_eq_ok_iff c).mp h
  by_cases hnone : c.columns = []
  · refine ⟨⟨0, []⟩, by rw [toBatch, hnone]; rfl, by rw [if_pos hnone], by rw [hnone]; rfl, ?_⟩
    rw [hnone]
    nofun
  obtain ⟨ds, hds, hre⟩ := flatColumns_ok hc
  obtain ⟨d, rest, rfl⟩ : ∃ d rest, ds = d :: rest :=
    List.exists_cons_of_length_pos (by rw [hre.length]; exact List.length_pos_iff.mpr hnone)
  have hsize := List.forall_mem_cons.mp hre.size
  have hbatch : c.toBatch = .ok ⟨c.count, (d :: rest).map HostArray.column⟩ := by
    have hall : (rest.map HostArray.column).all (fun a => a.size = (HostArray.column d).size) = true := by
      simpa [HostArray.size, hsize.1] using hsize.2
    rw [toBatch, if_neg (by simpa using hnone), hds, ok_bind, List.map_cons, Batch.ofArrays, if_pos hall, HostArray.size, hsize.1]
    rfl
  refine ⟨_, hbatch, by rw [if_neg hnone], by rw [List.length_map, hre.length], fun j column hj => ?_⟩
  obtain ⟨shown, hshown, htype, hcount, hdatum⟩ := hre.column hj
  refine ⟨shown, by rw [List.getElem?_map, hshown]; rfl, htype, hcount, fun i hi => ?_⟩
  obtain ⟨r, hr, hactive, hlt⟩ := rowAt_of_lt hc hi
  have heven : column.size = c.physicalRows := hc.even column (List.mem_of_getElem? hj)
  refine ⟨r, _, hr, Column.get_eq_value (heven ▸ hlt), ?_⟩
  rw [Column.get_eq_value (hcount ▸ hi), hdatum i hi, List.getD_eq_getElem?_getD, hactive, Option.getD_some]

end Chunk

/-! ### Results -/

/-- A result of no columns has batches without rows. -/
theorem Batch.total_rows {chunks : List Chunk} {bs : List Batch} {types : List SqlType}
    (htypes : ∀ c ∈ chunks, c.types = types) (h : List.Forall₂ Chunk.ShownBy chunks bs) :
    total (bs.map Batch.rows) = if types = [] then 0 else total (chunks.map Chunk.count) := by
  induction h with
  | nil => simp
  | @cons c b chunks bs hb _ ih =>
    obtain ⟨ht, hrest⟩ := List.forall_mem_cons.mp htypes
    have hcolumns : c.columns = [] ↔ types = [] := by rw [← ht, Chunk.types, List.map_eq_nil_iff]
    rw [List.map_cons, total_cons, ih hrest, hb.rows]
    by_cases hnone : types = [] <;> simp [hcolumns, hnone]

/-- A result is a collection of its rows. -/
theorem Context.holds_of_execute {c : Context} {q : LogicalPlan} {session : Session} {r : QueryResult}
    (h : (c.execute q session).1 = .ok r) :
    ∃ rows, Collection.Holds ⟨r.types, r.chunks, r.rows⟩ r.types rows := by
  obtain ⟨p, hcompile⟩ := compiled_of_execute h
  rw [execute_of_compile hcompile] at h
  obtain ⟨stats, hstats, rfl⟩ := map_eq_ok.mp h
  have hbuilt : Plan.Built (Plan.Admits (Plan.untold c.config) session) p :=
    Plan.built_of_compile q (fun n _ => Plan.admits_untold c.config session n) hcompile
  have hgives : Gives (Plan.untold c.config) (p.operator c.config) (p.operator c.config) (p.rows session)
      (p.start c.config).cells := hbuilt.gives rfl rfl
  obtain ⟨rows, hrows, _⟩ := Plan.pullAll_holds _ hgives trivial (Collection.holds_ofTypes p.types) hstats
  exact ⟨rows, rfl, hrows.flat, hrows.listed, hrows.counted⟩

theorem Collection.Holds.total_count {c : Collection} {types : List SqlType} {rows : List Row} (h : c.Holds types rows) :
    c.count = total (c.chunks.map Chunk.count) := by
  have hsound (chunk : Chunk) (hchunk : chunk ∈ c.chunks) : chunk.Sound := (h.flat chunk hchunk).1
  rw [h.counted, ← h.listed]
  generalize c.chunks = chunks at hsound
  induction chunks with
  | nil => rfl
  | cons chunk rest ih =>
    obtain ⟨hchunk, hrest⟩ := List.forall_mem_cons.mp hsound
    rw [List.flatMap_cons, List.length_append, hchunk.length_rows, ih hrest, List.map_cons, total_cons]

/-- Every verified chunk has a batch that shows it, and so has every chunk of every result;
with columns these batches have the rows of the result between them, without none. -/
theorem Chunk.toBatch_keeps_rows (c : Context) (q : LogicalPlan) (session : Session) :
    (∀ chunk : Chunk, chunk.verify = .ok () → ∃ b, chunk.toBatch = .ok b ∧ chunk.ShownBy b) ∧
      ∀ r : QueryResult, (c.execute q session).1 = .ok r →
        ∃ bs, r.toBatches = .ok bs ∧ List.Forall₂ ShownBy r.chunks bs ∧
          total (bs.map Batch.rows) = if r.types = [] then 0 else r.rows := by
  refine ⟨fun chunk h => toBatch_ok h, fun r h => ?_⟩
  obtain ⟨rows, hholds⟩ := Context.holds_of_execute h
  have hverified (chunk : Chunk) (hchunk : chunk ∈ r.chunks) : chunk.verify = .ok () :=
    (verify_eq_ok_iff chunk).mpr (hholds.flat chunk hchunk).1
  obtain ⟨bs, hbs⟩ : ∃ bs, r.toBatches = .ok bs := mapM_of_forall fun chunk hchunk => by
    obtain ⟨b, hb, _⟩ := toBatch_ok (hverified chunk hchunk)
    exact ⟨b, hb⟩
  have hshown : List.Forall₂ ShownBy r.chunks bs :=
    (forall₂_mem (mapM_eq_ok_iff.mp hbs)).imp fun chunk b ⟨hchunk, hb⟩ => by
      obtain ⟨b', hb', hshows⟩ := toBatch_ok (hverified chunk hchunk)
      exact Except.ok.inj (hb'.symm.trans hb) ▸ hshows
  refine ⟨bs, hbs, hshown, ?_⟩
  rw [Batch.total_rows (fun chunk hchunk => (hholds.flat chunk hchunk).2.2) hshown, ← hholds.total_count]

/-- Rows 2 and 0 of a chunk of three, and a query for all three. -/
theorem Chunk.toBatch_keeps_rows_selected :
    let chunk : Chunk := ⟨[.ofInts [3, 1, 2]], some [2, 0], 2, defaultCapacity⟩
    let table : Provider := ⟨0, ⟨"t", [.ofInts [3, 1, 2]], 3, by decide⟩, 0⟩
    let q : LogicalPlan := .node (.get table [.column 0]) [] [.bigInt]
    let context : Context := ⟨⟨2, none, true⟩, [table]⟩
    chunk.verify = .ok () ∧ (∃ b, chunk.toBatch = .ok b ∧ chunk.ShownBy b) ∧
      ∃ r bs, (context.execute q context.session).1 = .ok r ∧ r.types ≠ [] ∧ r.rows = 3 ∧ r.toBatches = .ok bs ∧
        total (bs.map Batch.rows) = 3 := by
  intro chunk table q context
  have hresult : (context.execute q context.session).1.toOption.map (fun r => (r.types, r.rows)) = some ([.bigInt], 3) := by
    decide +kernel
  obtain ⟨r, hr, hresult⟩ := Option.map_eq_some_iff.mp hresult
  obtain ⟨htypes, hrows⟩ := Prod.mk.inj hresult
  have hr := toOption_eq_some.mp hr
  obtain ⟨hchunks, hresults⟩ := toBatch_keeps_rows context q context.session
  obtain ⟨bs, hbs, _, htotal⟩ := hresults r hr
  have hsome : r.types ≠ [] := by simp [htypes]
  rw [if_neg hsome, hrows] at htotal
  exact ⟨rfl, hchunks chunk rfl, r, bs, hr, hsome, hrows, hbs, htotal⟩

/-- Two rows without columns, as a chunk and as the result of a query: their batches have
none. -/
theorem Chunk.toBatch_columnless :
    let chunk : Chunk := ⟨[], none, 2, defaultCapacity⟩
    let table : Provider := ⟨0, ⟨"t", [.ofInts [1, 2]], 2, by decide⟩, 0⟩
    let q : LogicalPlan := .node (.prune 0) [.node (.get table [.column 0]) [] [.bigInt]] []
    let context : Context := ⟨⟨defaultCapacity, none, true⟩, [table]⟩
    chunk.verify = .ok () ∧ chunk.toBatch = .ok ⟨0, []⟩ ∧
      ∃ r bs, (context.execute q context.session).1 = .ok r ∧ r.rows = 2 ∧ r.toBatches = .ok bs ∧
        total (bs.map Batch.rows) = 0 := by
  intro chunk table q context
  have hresult : (context.execute q context.session).1.toOption.map (fun r =>
      (r.rows, r.toBatches.toOption.map fun bs => total (bs.map Batch.rows))) = some (2, some 0) := by
    decide +kernel
  obtain ⟨r, hr, hresult⟩ := Option.map_eq_some_iff.mp hresult
  obtain ⟨hrows, hbatches⟩ := Prod.mk.inj hresult
  obtain ⟨bs, hbs, htotal⟩ := Option.map_eq_some_iff.mp hbatches
  exact ⟨rfl, rfl, r, bs, toOption_eq_some.mp hr, hrows, toOption_eq_some.mp hbs, htotal⟩

end QueryEngine
