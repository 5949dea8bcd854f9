import QueryEngine.Proofs.Key.Grouped
import QueryEngine.Proofs.Sort.Ordered
import QueryEngine.Proofs.Window.Call
import QueryEngine.Proofs.Window.Declared

/-! Streams extended by window calls.

Sorting a partition, splitting it into runs, sharing one accumulator among them and
writing the results back to where the rows stood comes to just the values that the calls
have on the rows (`WindowCall.evaluate_declared`). So a window operator hands out the rows
of its input as they came, each with those values behind it, however the input was cut
into chunks. -/
namespace QueryEngine
namespace WindowCall

/-! ### Columns of the rows -/

/-- The columns that a call reads have the values that it has on the rows. -/
structure Reads (w : WindowCall) (rows : List Row) (keys : List SortColumn) (argument : Option Column) : Prop where
  unordered : keys.isEmpty = w.orders.isEmpty
  compare : ∀ i < rows.length, ∀ j < rows.length, Rows.compare keys i j = w.compareAt rows i j
  argument : ∀ i < rows.length, (argument.map fun c => (c.datum i).value) = w.argumentOn (rows.getD i [])

variable {w : WindowCall} {rows : List Row} {keys : List SortColumn} {argument : Option Column} {i : Nat}

theorem accumulate_ok {a b : Accumulator} {places : List Nat} (hreads : w.Reads rows keys argument)
    (hplaces : ∀ j ∈ places, j < rows.length) (h : accumulate argument a places = .ok b) :
    places.foldlM (fun a j => a.update (w.argumentOn (rows.getD j []))) a = .ok b := by
  induction places generalizing a with
  | nil => exact h
  | cons j places ih =>
    unfold accumulate at h
    rw [List.foldlM_cons] at h ⊢
    obtain ⟨c, hc, h⟩ := bind_eq_ok.mp h
    have hupdate : a.update (w.argumentOn (rows.getD j [])) = .ok c := by
      rw [← hreads.argument j (hplaces j (List.mem_cons_self ..))]
      cases argument with
      | none => exact hc
      | some column =>
        obtain ⟨v, hv, hc⟩ := bind_eq_ok.mp hc
        rw [Option.map_some, ← Column.get_ok hv]
        exact hc
    rw [hupdate, ok_bind]
    exact ih (fun j hj => hplaces j (List.mem_cons_of_mem _ hj)) h

/-! ### From the partitions to the rows -/

/-- A sorted partition is in order for each of its rows. -/
theorem inOrder_of_sort (hreads : w.Reads rows keys argument) {j : Nat} (hj : j ∈ w.partition rows i) {sorted : List Nat}
    (h : Rows.sort keys (w.partition rows i) = .ok sorted) : w.InOrder rows (Rows.compare keys) j sorted := by
  obtain ⟨hperm, hincreasing⟩ := Rows.sort_increasing (partition_increasing w rows i) h
  have hin (k : Nat) (hk : k ∈ sorted) : k < rows.length := mem_partition (hperm.mem_iff.mp hk)
  exact ⟨hperm.mem_iff.mpr hj, partition_eq_of_mem hj ▸ hperm, hincreasing,
    fun k hk l hl => (hreads.compare k (hin k hk) l (hin l hl)).symm⟩

/-- The frames of a sorted partition are, one after the other, the partition. -/
theorem flatten_frames (unordered : Bool) (same : Nat → Nat → Bool) (sorted : List Nat) :
    (if unordered then [sorted] else sorted.splitBy same).flatten = sorted := by
  split
  · exact List.flatten_singleton ..
  · exact List.flatten_splitBy ..

/-- The partition of the row at `i` has the values of that row. -/
theorem declared_of_partitionValues (hreads : w.Reads rows keys argument) (hi : i < rows.length)
    {values : List RowValue} (h : w.partitionValues keys argument (w.partition rows i) = .ok values) :
    (values.map Prod.fst).Perm (w.partition rows i) ∧ ∀ v, (i, v) ∈ values → w.declared rows i = .ok ⟨w.type, v⟩ := by
  obtain ⟨sorted, hsorted, h⟩ := bind_eq_ok.mp h
  have horder := inOrder_of_sort hreads (mem_partition_self hi) hsorted
  have hperm := horder.perm
  have hflat : (sorted.splitBy fun j k => (Rows.compare keys j k).isEq).flatten = sorted := List.flatten_splitBy ..
  unfold declared
  cases hf : w.function with
  | rowNumber =>
    rw [hf] at h
    cases h
    rw [map_fst_rowNumbers]
    refine ⟨hperm, fun v hv => ?_⟩
    obtain ⟨front, rest, hsplit, rfl⟩ := mem_rowNumbers hv
    exact congrArg (fun n => Except.ok (Datum.mk w.type (.bigInt (Int64.ofNat n)))) (horder.rowNumber_eq hsplit)
  | rank =>
    rw [hf] at h
    cases h
    rw [map_fst_ranks, hflat]
    refine ⟨hperm, fun v hv => ?_⟩
    obtain ⟨front, run, rest, hsplit, hrun, rfl⟩ := mem_ranks hv
    rw [Nat.zero_add]
    exact congrArg (fun n => Except.ok (Datum.mk w.type (.bigInt (Int64.ofNat n)))) (horder.rank_eq hsplit hrun)
  | denseRank =>
    rw [hf] at h
    cases h
    rw [map_fst_denseRanks, hflat]
    refine ⟨hperm, fun v hv => ?_⟩
    obtain ⟨front, run, rest, hsplit, hrun, rfl⟩ := mem_denseRanks hv
    exact congrArg (fun n => Except.ok (Datum.mk w.type (.bigInt (Int64.ofNat n)))) (horder.denseRank_eq hsplit hrun)
  | aggregate f =>
    rw [hf] at h
    have h := lift_eq_ok.mp h
    rw [hreads.unordered] at h
    have hframes := flatten_frames w.orders.isEmpty (fun j k => (Rows.compare keys j k).isEq) sorted
    rw [map_fst_runningAggregates h, hframes]
    refine ⟨hperm, fun v hv => ?_⟩
    obtain ⟨front, frame, rest, b, hsplit, hmem, hb, rfl⟩ := mem_runningAggregates h hv
    have hplaces (j : Nat) (hj : j ∈ front.flatten ++ frame) : j < rows.length := by
      have hsorted : j ∈ sorted := by
        rw [← hframes, hsplit, List.flatten_append, List.flatten_cons, ← List.append_assoc]
        exact List.mem_append_left _ hj
      exact mem_partition (hperm.mem_iff.mp hsorted)
    refine bind_eq_ok.mpr ⟨b, ?_, rfl⟩
    rw [← horder.upTo_eq_frame hmem hsplit]
    exact accumulate_ok hreads hplaces hb

/-- A value that every row has under its place is read there. -/
theorem getElem?_inRowOrder {count : Nat} {values : List RowValue} {value : Nat → Scalar}
    (h : ∀ v ∈ values, v.2 = value v.1) (hi : i < count) :
    (inRowOrder count values)[i]? = some (if i ∈ values.map Prod.fst then value i else .null) := by
  have hwrites (slots : Array Scalar) : values.foldl (fun slots v => slots.setIfInBounds v.1 v.2) slots =
      (values.map Prod.fst).foldl (fun slots p => slots.setIfInBounds p (value p)) slots := by
    induction values generalizing slots with
    | nil => rfl
    | cons v values ih =>
      rw [List.foldl_cons, List.map_cons, List.foldl_cons, h v (List.mem_cons_self ..),
        ih fun v hv => h v (List.mem_cons_of_mem _ hv)]
  rw [inRowOrder, Array.getElem?_toList, hwrites, getElem?_writes value _ (by simpa using hi), Array.getElem_replicate]

section
variable {chunk : Chunk} {partitionKeys args : List Column}

theorem getD_rows (hflat : chunk.selection = none) {j : Nat} (hj : j < chunk.count) : chunk.rows.getD j [] = chunk.row j := by
  have hactive : chunk.activeRows = List.range chunk.count := by rw [Chunk.activeRows, hflat, Option.getD_none]
  rw [Chunk.rows, hactive, List.getD_eq_getElem?_getD, List.getElem?_map, List.getElem?_range hj, Option.map_some,
    Option.getD_some]

theorem reads_of_evaluated (hc : chunk.Sound) (hflat : chunk.selection = none)
    (hkeys : SortColumn.ofKeys chunk w.orders = .ok keys) (hargs : w.args.mapM (Expr.evaluate chunk) = .ok args) :
    w.Reads chunk.rows keys args.head? := by
  have hcount : chunk.rows.length = chunk.count := hc.length_rows
  have hactive (j : Nat) (hj : j < chunk.rows.length) : j ∈ chunk.activeRows := by
    rw [Chunk.activeRows, hflat, Option.getD_none]
    exact List.mem_range.mpr (hcount ▸ hj)
  refine ⟨?_, fun j hj k hk => ?_, fun j hj => ?_⟩
  · rw [Bool.eq_iff_iff, List.isEmpty_iff_length_eq_zero, List.isEmpty_iff_length_eq_zero, (SortColumn.ofKeys_ok hc hkeys).1]
  · rw [SortColumn.compare_ofKeys hc hkeys (hactive j hj) (hactive k hk), compareAt, getD_rows hflat (hcount ▸ hj),
      getD_rows hflat (hcount ▸ hk)]
  · have hvalues := congrArg (fun ds => (ds.head?).map Datum.value) ((Expr.evaluateAll_ok hc hargs).2 j (hactive j hj))
    rw [argumentOn, getD_rows hflat (hcount ▸ hj)]
    simpa [List.head?_map, Option.map_map, Function.comp_def] using hvalues

/-- Rows under their partition keys are the partitions. -/
theorem partitions_of_evaluated (hc : chunk.Sound) (hflat : chunk.selection = none)
    (hkeys : w.partitions.mapM (Expr.evaluate chunk) = .ok partitionKeys) {m : KeyMap (List Nat)}
    (hm : KeyMap.ofRows partitionKeys (List.range chunk.count) = .ok m) :
    (∀ i < chunk.count, w.partition chunk.rows i ∈ m.values) ∧
      ∀ found ∈ m.values, ∃ i < chunk.count, found = w.partition chunk.rows i := by
  have hkey (j : Nat) (hj : j < chunk.count) :
      (Key.valuesAt partitionKeys j).canonical = w.keyOn (chunk.rows.getD j []) := by
    have hactive : j ∈ chunk.activeRows := by
      rw [Chunk.activeRows, hflat, Option.getD_none]
      exact List.mem_range.mpr hj
    have hvalues := congrArg (List.map Datum.value) ((Expr.evaluateAll_ok hc hkeys).2 j hactive)
    rw [List.map_map, List.map_map] at hvalues
    rw [keyOn, getD_rows hflat hj]
    exact congrArg Key.canonical hvalues
  obtain ⟨hkeys, hfound⟩ := KeyMap.ofRows_ok hm
  have hentry (e : Key × List Nat) (he : e ∈ m.entries) (i : Nat) (hi : i < chunk.count)
      (hik : (Key.valuesAt partitionKeys i).canonical = e.1) : e.2 = w.partition chunk.rows i := by
    rw [hfound e he, KeyMap.itemsOf, partition, hc.length_rows]
    refine List.filter_congr fun j hj => ?_
    rw [← hkey j (List.mem_range.mp hj), ← hkey i hi, hik]
  have hmem (e : Key × List Nat) (he : e ∈ m.entries) :
      ∃ i < chunk.count, (Key.valuesAt partitionKeys i).canonical = e.1 := by
    have hk : e.1 ∈ m.keys := List.mem_map_of_mem he
    rw [hkeys, List.mem_eraseDups] at hk
    obtain ⟨i, hi, hik⟩ := List.mem_map.mp hk
    exact ⟨i, List.mem_range.mp hi, hik⟩
  refine ⟨fun i hi => ?_, fun found hf => ?_⟩
  · have hk : (Key.valuesAt partitionKeys i).canonical ∈ m.keys := by
      rw [hkeys, List.mem_eraseDups]
      exact List.mem_map_of_mem (f := fun r => (Key.valuesAt partitionKeys r).canonical) (List.mem_range.mpr hi)
    obtain ⟨e, he, hik⟩ := List.mem_map.mp hk
    rw [← hentry e he i hi hik.symm]
    exact List.mem_map_of_mem he
  · obtain ⟨e, he, rfl⟩ := List.mem_map.mp hf
    obtain ⟨i, hi, hik⟩ := hmem e he
    exact ⟨i, hi, hentry e he i hi hik⟩

/-- What the partitions are given is written once for every row: the value that the call has
on the row, and of its type. -/
theorem written_declared (hc : chunk.Sound) (hflat : chunk.selection = none)
    (hresolved : Expr.windowType w.function (w.args.map (Expr.resolve chunk.types)) = .ok w.type)
    (hpartitionKeys : w.partitions.mapM (Expr.evaluate chunk) = .ok partitionKeys)
    (hkeys : SortColumn.ofKeys chunk w.orders = .ok keys) (hargs : w.args.mapM (Expr.evaluate chunk) = .ok args)
    {m : KeyMap (List Nat)} (hm : KeyMap.ofRows partitionKeys (List.range chunk.count) = .ok m)
    {values : List (List RowValue)} (hvalues : m.values.mapM (w.partitionValues keys args.head?) = .ok values) :
    (∀ v ∈ values.flatten, w.declared chunk.rows v.1 = .ok ⟨w.type, v.2⟩ ∧ v.2.Fits w.type) ∧
      ∀ i < chunk.count, i ∈ values.flatten.map Prod.fst := by
  have hcount : chunk.rows.length = chunk.count := hc.length_rows
  have hreads := reads_of_evaluated hc hflat hkeys hargs
  obtain ⟨hall, hfound⟩ := partitions_of_evaluated hc hflat hpartitionKeys hm
  obtain ⟨hargument, hreturns⟩ := arguments_ok hc hresolved hargs
  refine ⟨fun v hv => ?_, fun i hi => ?_⟩
  · obtain ⟨vs, hvs, hv⟩ := List.mem_flatten.mp hv
    obtain ⟨found, hmem, hpartition⟩ := exists_of_mem_right (mapM_eq_ok_iff.mp hvalues) hvs
    obtain ⟨k, hk, rfl⟩ := hfound found hmem
    have hplace : v.1 ∈ w.partition chunk.rows k :=
      (declared_of_partitionValues hreads (hcount ▸ hk) hpartition).1.mem_iff.mp (List.mem_map_of_mem hv)
    have hin (j : Nat) (hj : j ∈ w.partition chunk.rows k) : j < chunk.physicalRows := by
      rw [hc.flat hflat, ← hcount]
      exact mem_partition hj
    have htyped : Yields Failure.OfData (w.partitionValues keys args.head? (w.partition chunk.rows k)) (Typed w.type) :=
      partitionValues_yields (fun c hcol j hj => by
        rw [(SortColumn.ofKeys_ok hc hkeys).2 c hcol]
        exact hin j hj) ⟨rfl, fun c hcol j hj => by
        rw [hargument c hcol]
        exact hin j hj⟩ hreturns
    rw [hpartition] at htyped
    refine ⟨?_, htyped v hv⟩
    rw [← partition_eq_of_mem hplace] at hpartition
    exact (declared_of_partitionValues hreads (mem_partition hplace) hpartition).2 _ hv
  · obtain ⟨vs, hvs, hpartition⟩ := mapM_ok_of_mem hvalues (hall i hi)
    have hperm := (declared_of_partitionValues hreads (hcount ▸ hi) hpartition).1
    obtain ⟨v, hv, rfl⟩ := List.mem_map.mp (hperm.mem_iff.mpr (mem_partition_self (hcount ▸ hi)))
    exact List.mem_map_of_mem (List.mem_flatten.mpr ⟨vs, hvs, hv⟩)

/-- The column of a call has the value of each row. -/
theorem evaluate_declared {column : Column} (hc : chunk.Sound) (hflat : chunk.selection = none)
    (hresolved : Expr.windowType w.function (w.args.map (Expr.resolve chunk.types)) = .ok w.type)
    (h : w.evaluate chunk = .ok column) (hi : i < chunk.count) :
    w.declared chunk.rows i = .ok (column.datum i) := by
  obtain ⟨partitionKeys, hpartitionKeys, h⟩ := bind_eq_ok.mp h
  obtain ⟨sortKeys, hsortKeys, h⟩ := bind_eq_ok.mp h
  obtain ⟨args, hargs, h⟩ := bind_eq_ok.mp h
  obtain ⟨partitions, hpartitions, h⟩ := bind_eq_ok.mp h
  obtain ⟨values, hvalues, h⟩ := bind_eq_ok.mp h
  obtain ⟨hwritten, hall⟩ :=
    written_declared hc hflat hresolved hpartitionKeys hsortKeys hargs (lift_eq_ok.mp hpartitions) hvalues
  have hhere := hall i hi
  let value (j : Nat) : Scalar := (w.declared chunk.rows j).toOption.elim .null Datum.value
  have hvalue (v : RowValue) (hv : v ∈ values.flatten) : v.2 = value v.1 := by
    simp only [value, (hwritten v hv).1]
    rfl
  rw [Column.datum_ofScalars (lift_eq_ok.mp h) (fits_inRowOrder fun v hv => (hwritten v hv).2), getElem?_inRowOrder hvalue hi,
    if_pos hhere, Option.getD_some]
  obtain ⟨v, hv, rfl⟩ := List.mem_map.mp hhere
  rw [← hvalue v hv]
  exact (hwritten v hv).1

end

/-! ### All calls -/

/-- The columns that list some rows, as a chunk without selection. -/
theorem chunk_of_lists {types : List SqlType} {cs : List Column} (hcs : Lists cs types rows) :
    ∃ chunk, Chunk.ofColumns cs = .ok chunk ∧ (chunk.setCount rows.length).Sound ∧
      (chunk.setCount rows.length).types = types ∧ (chunk.setCount rows.length).rows = rows := by
  obtain ⟨chunk, hchunk, -, hcolumns, -⟩ := Chunk.ofColumns_ok fun c hc => hcs.size hc
  refine ⟨chunk, hchunk, Chunk.sound_flat fun c hc => hcs.size (hcolumns ▸ hc), ?_, ?_⟩
  · rw [← hcs.typed, ← hcolumns]
    rfl
  · conv_rhs => rw [← hcs.toRows_eq, ← hcolumns]
    rfl

/-- The columns of the calls, behind those of the rows, list the rows extended. -/
theorem extend_of_callColumns {calls : List WindowCall} {types : List SqlType} {cs results : List Column}
    (hcs : Lists cs types rows)
    (hresolved : ∀ w ∈ calls, Expr.windowType w.function (w.args.map (Expr.resolve types)) = .ok w.type)
    (h : Operator.callColumns calls cs rows.length = .ok results) :
    extend calls rows = .ok (Column.toRows (cs ++ results) rows.length) := by
  obtain ⟨chunk, hchunk, hresults⟩ := bind_eq_ok.mp h
  obtain ⟨chunk', hchunk', hsound, htypes, hrows⟩ := chunk_of_lists hcs
  cases hchunk'.symm.trans (lift_eq_ok.mp hchunk)
  have hselection : (chunk.setCount rows.length).selection = none := rfl
  have hvalues (i : Nat) (hi : i < rows.length) :
      (calls.mapM fun w => w.declared rows i) = .ok (results.map fun c => c.datum i) := by
    rw [mapM_eq_ok_iff, List.forall₂_map_right_iff]
    refine (forall₂_mem (mapM_eq_ok_iff.mp hresults)).imp fun w c hboth => ?_
    obtain ⟨hw, hc⟩ := hboth
    have hdeclared := evaluate_declared hsound hselection (htypes.symm ▸ hresolved w hw) hc hi
    rwa [hrows] at hdeclared
  have hplaces : rows.zipIdx = (List.range rows.length).map fun i => (rows.getD i [], i) := by
    refine List.ext_getElem (by simp) fun i hi _ => ?_
    rw [List.length_zipIdx] at hi
    simp [hi]
  rw [extend, hplaces, mapM_eq_ok_iff, Column.toRows, List.forall₂_map_left_iff, List.forall₂_map_right_iff,
    List.forall₂_same]
  intro i hi
  have hi : i < rows.length := List.mem_range.mp hi
  rw [hvalues i hi, ok_bind, List.map_append, hcs.row (List.getElem?_eq_getElem hi), List.getD_eq_getElem?_getD,
    List.getElem?_eq_getElem hi]
  rfl

/-- A call that was accepted has the type that its arguments give it. -/
theorem windowType_of_ofExpr {types : List SqlType} {e : Expr} (h : ofExpr types e = .ok w) :
    Expr.windowType w.function (w.args.map (Expr.resolve types)) = .ok w.type := by
  obtain ⟨t, ht, h⟩ := bind_eq_ok.mp h
  cases e with
  | window f args partitions orders =>
    cases h
    rw [Expr.resolve, Expr.resolveEach_eq_map] at ht
    obtain ⟨_, _, ht⟩ := bind_eq_ok.mp ht
    obtain ⟨_, _, ht⟩ := bind_eq_ok.mp ht
    rwa [Expr.resolveEach_eq_map] at ht
  | _ => cases h

end WindowCall

namespace Operator
variable {sees : List (Nat × Mask) → Prop} {input : Operator} {rows : List Row} {chunks : List Chunk} {s : State}

theorem blocking_window (config : Config) (calls : List WindowCall) (input : Operator) :
    Blocking config (window config calls input) input .window (windowInput calls input) fun
      | .window (some o) => handOut .window o
      | .window none => do handOut .window (← firstOutput .window (windowInput calls input))
      | _ => Pull.fail (.internal (.otherState "Window")) :=
  ⟨rfl, rfl, fun _ => rfl, rfl⟩

/-- A window hands out the rows of the input as they came, each with the values that the
calls have on it, in full chunks, and then nothing more. The row numbers of a partition
count it through. -/
theorem window_handsOut_extended (config : Config) {exprs : List Expr} {calls : List WindowCall}
    (hcalls : exprs.mapM (WindowCall.ofExpr input.types) = .ok calls) (h : input.Streams sees rows)
    (hrun : (window config calls input).Pulls sees (window config calls input).start chunks s) (hne : chunks ≠ []) :
    (∃ all, WindowCall.extend calls rows = .ok all ∧ all.length = rows.length ∧
      HandsOut (window config calls input) config.capacity all chunks s) ∧
      ∀ w ∈ calls, ∀ i < rows.length,
        ((w.partition rows i).map (w.rowNumber rows)).Perm (List.range' 1 (w.partition rows i).length) := by
  have hresolved (w : WindowCall) (hw : w ∈ calls) :
      Expr.windowType w.function (w.args.map (Expr.resolve input.types)) = .ok w.type := by
    obtain ⟨e, _, he⟩ := mem_of_mapM hcalls hw
    exact WindowCall.windowType_of_ofExpr he
  have hmade (f : Frame) (given : List Row) (hgiven : Gives ⟨0, False, True, sees⟩ input input given f.below)
      (hs : sees f.session.masks) :
      Pull.Agree (windowInput calls input) (windowInput calls input) f
        (Made sees (window config calls input).types (fun given all => WindowCall.extend calls given = .ok all) given f) := by
    refine (agree_windowInput_made calls hgiven hs).mono fun o g hg => ?_
    obtain ⟨all, cs, hcs, htold, hextended⟩ := hg.made
    have htold : all = given := htold trivial
    subst htold
    rcases hextended with ⟨rfl, rfl⟩ | ⟨results, hresults, rfl⟩
    · exact ⟨hg.sees, hg.out, hg.unfinished, rfl, [], ⟨fun h => (by cases h), rfl⟩, rfl⟩
    · obtain ⟨hlists, hlength⟩ := lists_window hcs hresults
      have hextend := WindowCall.extend_of_callColumns hcs hresolved hresults
      refine ⟨hg.sees, hg.out, hg.unfinished, rfl, _, ⟨fun _ => hlists, hlength.symm⟩, ?_⟩
      rw [hextend, windowRows, ← hcs.eq_ofRows, hresults]
  obtain ⟨all, hall, hout⟩ := (blocking_window config calls input).handsOut h hmade hrun hne
  exact ⟨⟨all, hall, (length_of_mapM hall).trans List.length_zipIdx, hout⟩, fun w _ i _ => w.rowNumbers_perm rows i⟩

/-- Peers in two chunks share a rank and the sum up to the last of them, and a row that
does not belong to their partition stands between them. -/
theorem window_handsOut_extended_peers :
    let config : Config := ⟨2, none, false⟩
    let call (f : WindowFunction) (args : List Expr) : Expr :=
      .window f args [.column 0 .bigInt] [⟨.column 1 .bigInt, true, false⟩]
    let exprs : List Expr := [call .rank [], call .denseRank [], call .rowNumber [],
      call (.aggregate .sum) [.column 1 .bigInt]]
    let first : Chunk := ⟨[.ofInts [1, 9, 1], .ofInts [5, 9, 7]], some [0, 2], 2, 3⟩
    let second : Chunk := ⟨[.ofInts [2, 1, 1], .ofInts [8, 5, 4]], none, 3, 3⟩
    let input := source config [.bigInt, .bigInt] [first, second]
    let rows := [first, second].flatMap Chunk.rows
    ∃ calls chunks s, exprs.mapM (WindowCall.ofExpr input.types) = .ok calls ∧
      (window config calls input).Pulls (fun _ => True) (window config calls input).start chunks s ∧
      chunks.map Chunk.count = [2, 2, 1, 0] ∧
      (∃ all, WindowCall.extend calls rows = .ok all ∧ all.length = rows.length ∧
        HandsOut (window config calls input) config.capacity all chunks s) ∧
      ∀ w ∈ calls, ∀ i < rows.length,
        ((w.partition rows i).map (w.rowNumber rows)).Perm (List.range' 1 (w.partition rows i).length) := by
  intro config call exprs first second input rows
  have hcalls : ∃ calls, exprs.mapM (WindowCall.ofExpr input.types) = .ok calls ∧
      ((window config calls input).pullTimes 4 (window config calls input).start (Session.ofLimit? none)).map
        (List.map Chunk.count) = some [2, 2, 1, 0] := ⟨_, rfl, by cbv⟩
  obtain ⟨calls, hcalls, hpulled⟩ := hcalls
  obtain ⟨chunks, s, hrun, hcounts⟩ := pulls_of_map (fun _ => trivial) hpulled
  have hsound : ∀ c ∈ [first, second], c.Sound ∧ c.types = [.bigInt, .bigInt] ∧ c.isEmpty = false := by decide
  have hne : chunks ≠ [] := by
    rintro rfl
    cases hcounts
  exact ⟨calls, chunks, s, hcalls, hrun, hcounts,
    window_handsOut_extended config hcalls (source_streams config _ hsound) hrun hne⟩

end Operator
end QueryEngine
