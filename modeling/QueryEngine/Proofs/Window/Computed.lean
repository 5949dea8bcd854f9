import QueryEngine.Proofs.Group.HandedOut
import QueryEngine.Proofs.Pull.Draining
import QueryEngine.Proofs.Pull.SureBuffered
import QueryEngine.Proofs.Window.Extended

/-! When windows succeed.

The column of a call can be computed where its keys and arguments have values on all rows
and the call has a value in each of them (`WindowCall.evaluate_of_declared`): a partition
fails only with the frame of one of its rows. So where no bytes are refused and the rows
can be counted, the first pull of a window succeeds just where all of its calls have values
(`first_window_ok_iff`). An input that breaks off gives no windows. -/
namespace QueryEngine

/-- Rows that all columns have can be put under their keys. -/
theorem KeyMap.ofRows_of_lt {columns : List Column} {rows : List Nat} (h : ∀ c ∈ columns, ∀ r ∈ rows, r < c.size) :
    ∃ m, ofRows columns rows = .ok m := by
  unfold ofRows
  generalize (empty : KeyMap (List Nat)) = m
  induction rows generalizing m with
  | nil => exact ⟨m, rfl⟩
  | cons r rows ih =>
    obtain ⟨key, hkey⟩ := Key.ofRow_of_lt fun c hc => h c hc r (List.mem_cons_self ..)
    rw [List.foldlM_cons, hkey]
    exact ih (fun c hc r' hr' => h c hc r' (List.mem_cons_of_mem _ hr')) _

namespace WindowCall
variable {w : WindowCall} {rows : List Row} {keys : List SortColumn} {argument : Option Column} {i : Nat}
  {a b : Accumulator}

/-! ### One partition -/

/-- The aggregate of every frame can be taken where that of all rows can. -/
theorem runningAggregates_of_accumulate {frames : List (List Nat)} (h : accumulate argument a frames.flatten = .ok b) :
    ∃ values, runningAggregates argument a frames = .ok values := by
  induction frames generalizing a with
  | nil => exact ⟨[], rfl⟩
  | cons frame frames ih =>
    rw [List.flatten_cons, accumulate_append] at h
    obtain ⟨c, hc, h⟩ := bind_eq_ok.mp h
    obtain ⟨rest, hrest⟩ := ih h
    exact ⟨_, by rw [runningAggregates, hc, ok_bind, hrest]; rfl⟩

/-- Where the column has the places, taking them is taking what the call takes on their rows. -/
theorem accumulate_eq {places : List Nat} (hreads : w.Reads rows keys argument)
    (hplaces : ∀ j ∈ places, j < rows.length ∧ ∀ c, argument = some c → j < c.size) :
    accumulate argument a places = places.foldlM (fun a j => a.update (w.argumentOn (rows.getD j []))) a := by
  induction places generalizing a with
  | nil => rfl
  | cons j places ih =>
    obtain ⟨hj, hsize⟩ := hplaces j (List.mem_cons_self ..)
    have hfirst : accumulate argument a [j] = a.update (w.argumentOn (rows.getD j [])) := by
      rw [← hreads.argument j hj]
      cases argument with
      | none => exact bind_pure _
      | some c =>
        have hget := c.get_eq_ok j (hsize c rfl)
        simp only [accumulate, List.foldlM_cons, List.foldlM_nil, bind_pure, hget, Option.map_some, ← Column.get_ok hget]
        rfl
    rw [← List.singleton_append, accumulate_append, hfirst, List.singleton_append, List.foldlM_cons]
    exact bind_congr fun c => ih fun k hk => hplaces k (List.mem_cons_of_mem _ hk)

/-- What is taken until the end of the last frame is taken of the whole partition. -/
theorem exists_last_frame (unordered : Bool) (same : Nat → Nat → Bool) {sorted : List Nat} (hsome : sorted ≠ []) :
    ∃ front last j, (if unordered then [sorted] else sorted.splitBy same) = front ++ [last] ∧ j ∈ last ∧
      front.flatten ++ last = sorted := by
  have hflat := flatten_frames unordered same sorted
  have hfull : ∀ frame ∈ (if unordered then [sorted] else sorted.splitBy same), frame ≠ [] := by
    split
    · exact List.forall_mem_singleton.mpr hsome
    · exact fun _ => List.ne_nil_of_mem_splitBy
  generalize (if unordered then [sorted] else sorted.splitBy same) = frames at hflat hfull
  obtain ⟨front, last, rfl⟩ := (List.eq_nil_or_concat' frames).resolve_left fun hnone => by
    rw [hnone] at hflat
    exact hsome hflat.symm
  obtain ⟨j, hj⟩ := List.exists_mem_of_ne_nil _ (hfull last (List.mem_append_right _ (List.mem_singleton_self last)))
  exact ⟨front, last, j, rfl, hj, by rw [← hflat, List.flatten_append, List.flatten_singleton]⟩

/-- A partition has its values where each of its rows has one: what fails in it is the frame of
its last row. -/
theorem partitionValues_of_declared (hreads : w.Reads rows keys argument) (hi : i < rows.length)
    (hkeys : ∀ c ∈ keys, ∀ j < rows.length, j < c.values.size)
    (hargument : ∀ c, argument = some c → ∀ j < rows.length, j < c.size)
    (hdeclared : ∀ j < rows.length, ∃ d, w.declared rows j = .ok d) :
    ∃ values, w.partitionValues keys argument (w.partition rows i) = .ok values := by
  obtain ⟨sorted, hsorted, -⟩ := Rows.sort_ok fun c hc j hj => hkeys c hc j (mem_partition hj)
  have hperm := (inOrder_of_sort hreads (mem_partition_self hi) hsorted).perm
  have hin (j : Nat) (hj : j ∈ sorted) : j < rows.length := mem_partition (hperm.mem_iff.mp hj)
  unfold partitionValues
  rw [hsorted, ok_bind]
  cases hf : w.function with
  | rowNumber => exact ⟨_, rfl⟩
  | rank => exact ⟨_, rfl⟩
  | denseRank => exact ⟨_, rfl⟩
  | aggregate f =>
    have hsome : sorted ≠ [] := List.ne_nil_of_mem (hperm.mem_iff.mpr (mem_partition_self hi))
    obtain ⟨front, last, j, hframes, hj, hwhole⟩ :=
      exists_last_frame keys.isEmpty (fun a b => (Rows.compare keys a b).isEq) hsome
    have hmem : j ∈ sorted := hwhole ▸ List.mem_append_right _ hj
    have hframe : sorted = w.frame rows j := by
      have horder := inOrder_of_sort hreads (hperm.mem_iff.mp hmem) hsorted
      rw [← horder.upTo_eq_frame hj (hreads.unordered ▸ hframes), hwhole]
    obtain ⟨d, hd⟩ := hdeclared j (hin j hmem)
    rw [declared, hf, ← hframe] at hd
    obtain ⟨b, hb, -⟩ := bind_eq_ok.mp hd
    have hall : accumulate argument (Accumulator.start f w.type) sorted = .ok b := by
      rw [accumulate_eq hreads fun k hk => ⟨hin k hk, fun c hc => hargument c hc k (hin k hk)⟩]
      exact hb
    rw [← flatten_frames keys.isEmpty (fun a b => (Rows.compare keys a b).isEq) sorted] at hall
    obtain ⟨values, hvalues⟩ := runningAggregates_of_accumulate hall
    exact ⟨values, lift_eq_ok.mpr hvalues⟩

/-! ### All rows -/

section
variable {chunk : Chunk} {partitionKeys args : List Column}

/-- The column of a call can be computed where what it reads is there and it has a value in
every row. -/
theorem evaluate_of_declared (hc : chunk.Sound) (hflat : chunk.selection = none)
    (hresolved : Expr.windowType w.function (w.args.map (Expr.resolve chunk.types)) = .ok w.type)
    (hpartitionKeys : w.partitions.mapM (Expr.evaluate chunk) = .ok partitionKeys)
    (hkeys : SortColumn.ofKeys chunk w.orders = .ok keys) (hargs : w.args.mapM (Expr.evaluate chunk) = .ok args)
    (hdeclared : ∀ i < chunk.count, ∃ d, w.declared chunk.rows i = .ok d) : ∃ column, w.evaluate chunk = .ok column := by
  have hcount : chunk.rows.length = chunk.count := hc.length_rows
  have hrows (j : Nat) (hj : j < chunk.rows.length) : j < chunk.physicalRows := by
    rw [hc.flat hflat, ← hcount]
    exact hj
  obtain ⟨hargument, -⟩ := arguments_ok hc hresolved hargs
  have hcovered : ∀ c ∈ partitionKeys, ∀ j ∈ List.range chunk.count, j < c.size := fun c hcol j hj => by
    rw [(Expr.evaluateAll_ok hc hpartitionKeys).1 c hcol]
    exact hrows j (hcount.symm ▸ List.mem_range.mp hj)
  obtain ⟨m, hm⟩ := KeyMap.ofRows_of_lt hcovered
  obtain ⟨-, hfound⟩ := partitions_of_evaluated hc hflat hpartitionKeys hm
  have hpartitions : ∀ found ∈ m.values, ∃ values, w.partitionValues keys args.head? found = .ok values := fun found hmem => by
    obtain ⟨i, hi, rfl⟩ := hfound found hmem
    refine partitionValues_of_declared (reads_of_evaluated hc hflat hkeys hargs) (hcount.symm ▸ hi) (fun c hcol j hj => ?_)
      (fun c hcol j hj => ?_) (hcount ▸ hdeclared)
    · rw [(SortColumn.ofKeys_ok hc hkeys).2 c hcol]
      exact hrows j hj
    · rw [hargument c hcol]
      exact hrows j hj
  obtain ⟨values, hvalues⟩ := mapM_of_forall hpartitions
  obtain ⟨hwritten, -⟩ := written_declared hc hflat hresolved hpartitionKeys hkeys hargs hm hvalues
  obtain ⟨column, hcolumn⟩ : ∃ column, Column.ofScalars w.type (inRowOrder chunk.count values.flatten) = .ok column :=
    Column.ofScalars_of_fits (fits_inRowOrder fun v hv => (hwritten v hv).2)
  refine ⟨column, ?_⟩
  unfold evaluate
  rw [hpartitionKeys, ok_bind, hkeys, ok_bind, hargs, ok_bind, hm, lift_ok, ok_bind, hvalues, ok_bind, hcolumn, lift_ok]

/-- All that a call reads of the rows has a value, and the call has one in every row. -/
structure Computes (w : WindowCall) (rows : List Row) : Prop where
  values : ∀ row ∈ rows, ∀ e ∈ w.partitions ++ w.args, ∃ d, e.onRow row = .ok d
  declared : ∀ i < rows.length, ∃ d, w.declared rows i = .ok d

/-- What was checked of a call that has no sort keys. -/
structure Unordered (w : WindowCall) (types : List SqlType) : Prop where
  orders : w.orders = []
  partitions : ∀ e ∈ w.partitions, ∃ t, e.resolve types = .ok t
  resolved : Expr.windowType w.function (w.args.map (Expr.resolve types)) = .ok w.type

theorem Unordered.arguments {types : List SqlType} (h : w.Unordered types) : ∀ e ∈ w.args, ∃ t, e.resolve types = .ok t := by
  intro e he
  rcases returns_of_windowType h.resolved with ⟨hargs, _⟩ | ⟨_, u, hargs, hu, _⟩ <;> rw [hargs] at he
  · cases he
  · exact ⟨u, List.mem_singleton.mp he ▸ hu⟩

theorem computes_of_evaluate {column : Column} (hc : chunk.Sound) (hflat : chunk.selection = none)
    (hresolved : Expr.windowType w.function (w.args.map (Expr.resolve chunk.types)) = .ok w.type)
    (h : w.evaluate chunk = .ok column) : w.Computes chunk.rows := by
  refine ⟨fun row hrow e he => ?_, fun i hi => ⟨_, evaluate_declared hc hflat hresolved h (hc.length_rows ▸ hi)⟩⟩
  obtain ⟨r, hr, rfl⟩ := List.mem_map.mp hrow
  obtain ⟨partitionKeys, hpartitionKeys, h⟩ := bind_eq_ok.mp h
  obtain ⟨_, _, h⟩ := bind_eq_ok.mp h
  obtain ⟨args, hargs, _⟩ := bind_eq_ok.mp h
  have hcolumn : ∃ c, e.evaluate chunk = .ok c := by
    rcases List.mem_append.mp he with he | he
    · exact (mapM_ok_of_mem hpartitionKeys he).imp fun _ hc => hc.2
    · exact (mapM_ok_of_mem hargs he).imp fun _ hc => hc.2
  obtain ⟨c, hcol⟩ := hcolumn
  exact ⟨_, (Expr.evaluate_rowwise hc hcol).value r hr⟩

theorem Computes.evaluate (hc : chunk.Sound) (hflat : chunk.selection = none) (hrows : chunk.isEmpty = false)
    (h : w.Unordered chunk.types) (hcomputes : w.Computes chunk.rows) : ∃ column, w.evaluate chunk = .ok column := by
  have hevaluate (es : List Expr) (hresolved : ∀ e ∈ es, ∃ t, e.resolve chunk.types = .ok t)
      (hes : ∀ e ∈ es, e ∈ w.partitions ++ w.args) : ∃ cs, es.mapM (Expr.evaluate chunk) = .ok cs :=
    mapM_of_forall fun e he => by
      obtain ⟨t, ht⟩ := hresolved e he
      exact Expr.evaluate_of_rows hc hrows ht fun row hrow => hcomputes.values row hrow e (hes e he)
  obtain ⟨partitionKeys, hpartitionKeys⟩ := hevaluate w.partitions h.partitions fun _ he => List.mem_append_left _ he
  obtain ⟨args, hargs⟩ := hevaluate w.args h.arguments fun _ he => List.mem_append_right _ he
  have hkeys : SortColumn.ofKeys chunk w.orders = .ok [] := by
    rw [h.orders]
    rfl
  exact evaluate_of_declared hc hflat h.resolved hpartitionKeys hkeys hargs (hc.length_rows ▸ hcomputes.declared)

end

end WindowCall

/-! ### The pull -/

namespace Operator
variable {sees : List (Nat × Mask) → Prop} {input : Operator} {calls : List WindowCall} {rows given : List Row}
  {f : Frame} {config : Config}

/-- What a window has made tells that its calls have values. -/
def Windowed (calls : List WindowCall) (given all : List Row) : Prop :=
  (∀ w ∈ calls, w.Computes given) ∧ WindowCall.extend calls given = .ok all

theorem made_window (hcalls : ∀ w ∈ calls, w.Unordered input.types) (f : Frame) (given : List Row)
    (h : Gives ⟨0, False, True, sees⟩ input input given f.below) (hs : sees f.session.masks) :
    Pull.Agree (windowInput calls input) (windowInput calls input) f
      (Made sees (window config calls input).types (Windowed calls) given f) := by
  refine (agree_windowInput_made calls h hs).mono fun o g hg => ?_
  obtain ⟨all, cs, hcs, htold, hextended⟩ := hg.made
  obtain rfl : all = given := htold trivial
  rcases hextended with ⟨rfl, rfl⟩ | ⟨results, hresults, rfl⟩
  · exact ⟨hg.sees, hg.out, hg.unfinished, rfl, [], ⟨fun h => (by cases h), rfl⟩, fun _ _ => ⟨nofun, nofun⟩, rfl⟩
  · obtain ⟨hlists, hlength⟩ := lists_window hcs hresults
    have hextend := WindowCall.extend_of_callColumns hcs (fun w hw => (hcalls w hw).resolved) hresults
    refine ⟨hg.sees, hg.out, hg.unfinished, rfl, _, ⟨fun _ => hlists, hlength.symm⟩, fun w hw => ?_, ?_⟩
    · obtain ⟨chunk, hchunk, hevaluated⟩ := bind_eq_ok.mp hresults
      obtain ⟨chunk', hchunk', hsound, htypes, hrows⟩ := WindowCall.chunk_of_lists hcs
      cases hchunk'.symm.trans (lift_eq_ok.mp hchunk)
      obtain ⟨column, _, hcolumn⟩ := mapM_ok_of_mem hevaluated hw
      exact hrows ▸ WindowCall.computes_of_evaluate hsound rfl (htypes.symm ▸ (hcalls w hw).resolved) hcolumn
    · rw [hextend, windowRows, ← hcs.eq_ofRows, hresults]

theorem fails_windowColumns {chunk : Chunk} (hc : chunk.Sound) (hflat : chunk.selection = none)
    (hrows : chunk.isEmpty = false) (hcalls : ∀ w ∈ calls, w.Unordered chunk.types ∧ w.Computes chunk.rows) :
    Pull.Fails (windowColumns chunk calls) f fun e _ => e.Refused := by
  induction calls generalizing f with
  | nil => exact .pure
  | cons w calls ih =>
    obtain ⟨hunordered, hcomputes⟩ := hcalls w (List.mem_cons_self ..)
    obtain ⟨column, hcolumn⟩ := hcomputes.evaluate hc hflat hrows hunordered
    rw [windowColumns, hcolumn]
    refine .step (a := column) rfl ((Pull.Fails.reserve _ fun e he => he).bind fun _ g _ => ?_)
    exact (ih fun w' hw' => hcalls w' (List.mem_cons_of_mem _ hw')).bind fun _ _ _ => .pure

section
variable (hcalls : ∀ w ∈ calls, w.Unordered input.types)
include hcalls

/-- The windows of all rows can be computed where their calls have values, but for want of bytes. -/
theorem fails_windowInput (h : Gives ⟨0, False, True, sees⟩ input input given f.below)
    (hfeeds : input.Feeds sees f.below) (hs : sees f.session.masks) (hle : given.length ≤ maxCount)
    (hcomputes : ∀ w ∈ calls, w.Computes given) : Pull.Fails (windowInput calls input) f fun e _ => e.Refused := by
  unfold windowInput
  refine (fails_drainOwn "Window" h hfeeds hs hle).bind fun buffered g hg => ?_
  obtain ⟨all, hall, htold⟩ := ((agree_drainOwn "Window" h hs).2 buffered g hg).holds
  obtain rfl : all = given := htold trivial
  obtain ⟨columns, hcolumns, hlists⟩ := hall.materialize_ok
  obtain ⟨chunk, hchunk, hsound, htypes, hrows⟩ := WindowCall.chunk_of_lists hlists
  have hcounted : buffered.count = all.length := hall.counted
  rw [hcolumns]
  refine .step (a := columns) rfl (.ite (fun _ => .pure) fun hsome => ?_)
  rw [hchunk, hlists.length, placedCalls_eq, hcounted]
  refine .step (a := chunk) rfl (.step (a := calls) rfl ?_)
  have hfull : (chunk.setCount all.length).isEmpty = false := by
    rw [← hcounted]
    exact Bool.eq_false_iff.mpr hsome
  refine (fails_windowColumns hsound rfl hfull fun w hw => ?_).bind fun _ _ _ => .pure
  exact ⟨htypes.symm ▸ hcalls w hw, hrows.symm ▸ hcomputes w hw⟩

/-- Where no bytes are refused and the rows can be counted, the first pull succeeds just where
all calls have values. -/
theorem first_window_ok_iff (h : input.Streams sees rows) (hfeeds : input.Feeds sees input.start.cells)
    (hle : rows.length ≤ maxCount) {session : Session} {out : Chunk} (hs : sees session.masks)
    (hroom : ∀ e g, (window config calls input).first session out = .error e g → ¬e.Refused) :
    (∃ g, (window config calls input).first session out = .ok () g) ↔ ∀ w ∈ calls, w.Computes rows := by
  have hop := blocking_window config calls input
  refine ⟨fun ⟨g, hg⟩ => ?_, fun hcomputes => ?_⟩
  · obtain ⟨all, _, _, hall, _⟩ := hop.first (hop.unstarted h) (made_window hcalls) hs hg
    exact hall.1
  cases hfirst : (window config calls input).first session out with
  | ok a g => exact ⟨g, rfl⟩
  | error e g =>
    have hrefused : e.Refused := hop.first_fails (hop.unstarted h) (made_window hcalls) hs
      (fails_windowInput hcalls h hfeeds hs hle hcomputes) hfirst
    exact absurd hrefused (hroom e g hfirst)

end

/-- An input that breaks off has no windows. -/
theorem Breaks.window_fails (h : input.Breaks sees input.start.cells) {session : Session} {out : Chunk}
    (hs : sees session.masks) : ¬∃ g, (window config calls input).first session out = .ok () g := by
  rintro ⟨g, hg⟩
  have hnever (f : Frame) (hf : input.Breaks sees f.below) (hs : sees f.session.masks) :
      Pull.Agree (windowInput calls input) (windowInput calls input) f fun _ _ => False := by
    unfold windowInput
    exact (hf.drainOwn "Window" hs).bind fun _ _ h => h.elim
  obtain ⟨_, _, hfalse⟩ := (blocking_window config calls input).computed_of_ok
    (s := (window config calls input).start) rfl rfl (hnever _ h hs) hg
  exact hfalse

end Operator
end QueryEngine
