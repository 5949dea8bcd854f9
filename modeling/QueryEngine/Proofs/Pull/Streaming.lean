import QueryEngine.Proofs.Chunk.Filled
import QueryEngine.Proofs.Expr.Rowwise
import QueryEngine.Proofs.Pull.Gives
import QueryEngine.Pull.Streaming

/-! What operators give that answer chunk by chunk.

A filter gives the rows on which all its predicates are TRUE, a projection a row of
values for every row, pruning the front of every row and a limit a window of the
rows. None of it depends on how the rows come in chunks. -/
namespace QueryEngine.Operator

/-! ### One chunk -/

theorem keepTrue_cons (p : Expr) (ps : List Expr) (c : Chunk) :
    keepTrue (p :: ps) c = match p.selectRows c with
      | .ok rows => if (c.select rows).isEmpty then .ok () (c.select rows) else keepTrue ps (c.select rows)
      | .error e => .error e c := by
  rw [keepTrue]
  show (liftM (p.selectRows c) >>= fun rows => do
    modify fun chunk => chunk.select rows
    if (← get).isEmpty then return
    keepTrue ps : Filling Unit) c = _
  rw [run_bind, run_lift]
  cases p.selectRows c with
  | error e => rfl
  | ok rows =>
    show (if (c.select rows).isEmpty = true then (pure () : Filling Unit) else keepTrue ps) (c.select rows) = _
    simp only
    split <;> rfl

theorem keepTrue_capacity {ps : List Expr} {c d : Chunk} (h : keepTrue ps c = .ok () d) : d.capacity = c.capacity := by
  induction ps generalizing c with
  | nil =>
    cases h
    rfl
  | cons p ps ih =>
    rw [keepTrue_cons] at h
    split at h
    · split at h
      · cases h
        rfl
      · exact (ih h).trans rfl
    · cases h

/-- The columns of a chunk, and of its active rows those on which all predicates are TRUE. -/
structure Sifted (ps : List Expr) (c d : Chunk) : Prop where
  sound : d.Sound
  columns : d.columns = c.columns
  active : d.activeRows = c.activeRows.filter fun r => ps.all (Expr.holdsOn (c.row r))

theorem Sifted.rows {ps : List Expr} {c d : Chunk} (h : Sifted ps c d) :
    d.rows = c.rows.filter fun row => ps.all (Expr.holdsOn row) := by
  have hrow : d.row = c.row := by
    funext r
    rw [Chunk.row, h.columns, Chunk.row]
  rw [Chunk.rows, hrow, h.active, Chunk.rows, List.filter_map]
  rfl

theorem keepTrue_sifted {ps : List Expr} {c d : Chunk} (hc : c.Sound) (h : keepTrue ps c = .ok () d) : Sifted ps c d := by
  induction ps generalizing c with
  | nil =>
    cases h
    exact ⟨hc, rfl, (List.filter_eq_self.mpr fun _ _ => rfl).symm⟩
  | cons p ps ih =>
    rw [keepTrue_cons] at h
    split at h
    · rename_i rows hrows
      have hselected := Expr.selectRows_ok hc hrows
      have hsub : rows.Sublist c.activeRows := hselected ▸ List.filter_sublist
      have hs : (c.select rows).Sound := hc.select fun r hr => hc.active_lt (hsub.subset hr)
      -- the other predicates see the rows that the first one has kept
      have hall : c.activeRows.filter (fun r => (p :: ps).all (Expr.holdsOn (c.row r))) =
          rows.filter fun r => ps.all (Expr.holdsOn (c.row r)) := by
        rw [hselected, List.filter_filter]
        exact List.filter_congr fun r _ => by rw [List.all_cons, Bool.and_comm]
      split at h
      · rename_i he
        cases h
        refine ⟨hs, rfl, ?_⟩
        have hnone : rows = [] := List.length_eq_zero_iff.mp (of_decide_eq_true he)
        rw [hall, hnone]
        rfl
      · have hd := ih hs h
        exact ⟨hd.sound, hd.columns, hd.active.trans hall.symm⟩
    · cases h

theorem keepTrue_ok {ps : List Expr} {c d : Chunk} (hc : c.Sound) (h : keepTrue ps c = .ok () d) :
    Chunk.Narrowed (fun row => ps.all (Expr.holdsOn row)) c d := by
  have hd := keepTrue_sifted hc h
  refine ⟨hd.sound, ?_, keepTrue_capacity h, hd.rows, hd.active ▸ List.filter_sublist⟩
  rw [Chunk.types, hd.columns, Chunk.types]

theorem projectChunk_ok {exprs : List Expr} {types : List SqlType} {capacity : Nat} {c d : Chunk} (hc : c.Sound)
    (hlen : exprs.length = types.length) (h : projectChunk exprs c (Chunk.blank types capacity) = .ok () d) :
    Chunk.Mapped types (fun row => exprs.map (Expr.valueOn row)) c d := by
  obtain ⟨_, filled, hput, hrest⟩ := run_bind_eq_ok.mp h
  cases hrest
  obtain ⟨cs, hcs, hput⟩ := Filling.putComputed_ok hput
  have hcomputed := mapM_eq_ok_iff_map.mpr hcs
  obtain ⟨hsize, hvalues⟩ := Expr.evaluateAll_ok hc hcomputed
  obtain ⟨rfl, htyped⟩ := Filling.putAll_blank (by rw [length_of_mapM hcomputed, hlen]) hput
  exact Chunk.mapped_setCountFrom capacity hc htyped hsize hvalues

theorem pruneChunk_ok {limit : Nat} {types : List SqlType} {capacity : Nat} {c d : Chunk} (hc : c.Sound)
    (ht : c.types = types) (h : pruneChunk limit c (Chunk.blank (types.take limit) capacity) = .ok () d) :
    Chunk.Mapped (types.take limit) (List.take limit) c d := by
  unfold pruneChunk at h
  by_cases hlimit : c.columns.length < limit
  · rw [if_pos hlimit] at h
    cases h
  rw [if_neg hlimit] at h
  obtain ⟨_, filled, hput, hrest⟩ := run_bind_eq_ok.mp h
  cases hrest
  have hlen : (c.columns.take limit).length = (types.take limit).length := by
    rw [← ht, Chunk.types, ← List.map_take, List.length_map]
  obtain ⟨rfl, htyped⟩ := Filling.putAll_blank hlen hput
  exact Chunk.mapped_setCountFrom capacity hc htyped (fun column hcol => hc.even column (List.mem_of_mem_take hcol))
    fun r _ => List.map_take ..

/-! ### What is given -/

section Gives
variable {T : Terms} {in₁ in₂ : Operator} {given : List Row}

theorem agree_filterChunks {ps : List Expr} {rows : List Row} {f : Frame} (rounds : Nat)
    (h : Gives T in₁ in₂ given f.below) (hf : f.cell.finished = false)
    (hout : f.out = Chunk.blank in₁.types T.capacity) (hs : T.sees f.session.masks)
    (hrows : T.told → rows = given.filter fun row => ps.all (Expr.holdsOn row)) :
    Pull.Agree (filterChunks in₁ ps rounds) (filterChunks in₂ ps rounds) f fun _ g =>
      Worked T in₁.types (Through T in₁ in₂ fun rows => rows.filter fun row => ps.all (Expr.holdsOn row)) rows g := by
  induction rounds generalizing f given rows with
  | zero => exact Pull.Agree.throw
  | succ rounds ih =>
    rw [filterChunks, filterChunks]
    refine agree_taken h hf hout hs (fun hnone ht => ?_) fun chunk rest g hg => ?_
    · rw [hrows ht, hnone, List.filter_nil]
    · refine (Pull.Agree.filling (Q := fun _ g' => ∃ d, g' = { g with out := d } ∧
        Chunk.Narrowed (fun row => ps.all (Expr.holdsOn row)) (g.out.reference chunk) d) fun _ d hd => ⟨d, rfl, ?_⟩).bind
        fun _ g' ⟨d, hg', hd⟩ => ?_
      · exact keepTrue_ok (hg.handed.sound.reference _) hd
      have htyped : d.types = in₁.types := hd.typed.trans hg.handed.typed
      have hcount : d.count ≤ chunk.count := by
        rw [← hd.sound.length_activeRows, ← hg.handed.sound.length_activeRows]
        exact hd.active.length_le
      subst hg'
      refine Pull.Agree.step rfl (Pull.Agree.ite (fun hne => ?_) fun he' => ?_)
      · refine Pull.Agree.pure ⟨⟨hd.sound, htyped, fun ht => ?_⟩, hg.sees, hg.unfinished, fun he' => ?_, fun _ =>
          ⟨_, ⟨rest, hg.left, fun _ => rfl⟩, fun ht => ?_⟩⟩
        · have htidy := hg.handed.tidy ht
          exact ⟨Nat.le_trans hcount htidy.bounded, htidy.increasing.sublist hd.active⟩
        · have he' : d.isEmpty = true := he'
          simp [he'] at hne
        · rw [hrows ht, hg.rows ht, List.filter_append]
          show _ = d.rows ++ _
          rw [hd.rows]
          rfl
      · have he' : d.isEmpty = true := by simpa using he'
        have hcap : d.capacity = max T.capacity 1 := by
          rw [hd.capacity]
          exact congrArg Chunk.capacity hg.out
        refine Pull.Agree.step (a := ()) (g := { g with out := Chunk.blank in₁.types T.capacity }) ?_ ?_
        · show EStateM.Result.ok () { g with out := d.reset } = _
          rw [Chunk.reset_eq_blank htyped hcap]
        · refine ih hg.left hg.unfinished rfl hg.sees fun ht => ?_
          have hnone : chunk.rows.filter (fun row => ps.all (Expr.holdsOn row)) = [] := by
            rw [← Chunk.rows_reference g.out chunk, ← hd.rows]
            exact hd.sound.rows_eq_nil_iff.mpr he'
          rw [hrows ht, hg.rows ht, List.filter_append, hnone, List.nil_append]

theorem gives_filter {c₁ c₂ : Config} (h₁ : c₁.capacity = T.capacity) (h₂ : c₂.capacity = T.capacity) (ps : List Expr)
    (h : Gives T in₁ in₂ given in₁.start.cells) :
    Gives T (filter c₁ ps in₁) (filter c₂ ps in₂) (given.filter fun row => ps.all (Expr.holdsOn row))
      (filter c₁ ps in₁).start.cells := by
  have halike : Alike (filter c₁ ps in₁) (filter c₂ ps in₂) :=
    ⟨rfl, h.alike.types, congrArg (State.above .none) h.alike.start,
      funext fun s => congrFun h.alike.rowsBelow s.below⟩
  refine Gives.of_work (K := Through T in₁ in₂ fun rows => rows.filter fun row => ps.all (Expr.holdsOn row)) halike h₁ h₂
    rfl rfl (fun f rows hf hout ⟨given, hgiven, hrows⟩ hs => ?_) rfl ⟨given, h, fun _ => rfl⟩
  rw [h.alike.rounds]
  exact Pull.Agree.step rfl (agree_filterChunks _ hgiven hf hout hs hrows)

/-- A chunk of the input answered by one that is mapped from it. -/
theorem agree_mapChunk {types : List SqlType} {F : Row → Row} {fill : Chunk → Filling Unit}
    (hfill : ∀ c d, c.Sound → c.types = in₁.types → fill c (Chunk.blank types T.capacity) = .ok () d →
      Chunk.Mapped types F c d) {rows : List Row} {f : Frame} (h : Through T in₁ in₂ (List.map F) rows f.cell f.below)
    (hf : f.cell.finished = false) (hout : f.out = Chunk.blank types T.capacity) (hs : T.sees f.session.masks) :
    Pull.Agree
      (do
        let chunk ← in₁.fetch
        if chunk.isEmpty then return
        Pull.filling (fill chunk))
      (do
        let chunk ← in₂.fetch
        if chunk.isEmpty then return
        Pull.filling (fill chunk))
      f fun _ g => Worked T types (Through T in₁ in₂ (List.map F)) rows g := by
  obtain ⟨given, hgiven, hrows⟩ := h
  refine agree_taken hgiven hf hout hs (fun hnone ht => ?_) fun chunk rest g hg => Pull.Agree.filling fun _ d hd => ?_
  · rw [hrows ht, hnone, List.map_nil]
  · rw [hg.out] at hd
    have hmap := hfill chunk d hg.handed.sound hg.handed.typed hd
    refine ⟨⟨hmap.sound, hmap.typed, fun ht => ?_⟩, hg.sees, hg.unfinished, fun he' => ?_, fun _ =>
      ⟨_, ⟨rest, hg.left, fun _ => rfl⟩, fun ht => ?_⟩⟩
    · have htidy := hg.handed.tidy ht
      exact ⟨hmap.count ▸ htidy.bounded, hmap.active ▸ htidy.increasing⟩
    · have hcount : chunk.isEmpty = d.isEmpty := by rw [Chunk.isEmpty, Chunk.isEmpty, hmap.count]
      cases hg.full.symm.trans (hcount.trans he')
    · rw [hrows ht, hg.rows ht, List.map_append]
      show _ = d.rows ++ _
      rw [hmap.rows]

section
variable {c₁ c₂ : Config} (h₁ : c₁.capacity = T.capacity) (h₂ : c₂.capacity = T.capacity)
include h₁ h₂

theorem gives_project {exprs : List Expr} {types : List SqlType} (hlen : exprs.length = types.length)
    (h : Gives T in₁ in₂ given in₁.start.cells) :
    Gives T (project c₁ exprs types in₁) (project c₂ exprs types in₂)
      (given.map fun row => exprs.map (Expr.valueOn row)) (project c₁ exprs types in₁).start.cells := by
  have halike : Alike (project c₁ exprs types in₁) (project c₂ exprs types in₂) :=
    ⟨rfl, rfl, congrArg (State.above .none) h.alike.start, funext fun s => congrFun h.alike.rowsBelow s.below⟩
  refine Gives.of_work (K := Through T in₁ in₂ (List.map fun row => exprs.map (Expr.valueOn row))) halike h₁ h₂ rfl rfl
    (fun f rows hf hout hK hs => ?_) rfl ⟨given, h, fun _ => rfl⟩
  exact agree_mapChunk (fun c d hc _ hd => projectChunk_ok hc hlen hd) hK hf hout hs

theorem gives_prune (limit : Nat) (h : Gives T in₁ in₂ given in₁.start.cells) :
    Gives T (prune c₁ limit in₁) (prune c₂ limit in₂) (given.map (List.take limit))
      (prune c₁ limit in₁).start.cells := by
  have halike : Alike (prune c₁ limit in₁) (prune c₂ limit in₂) :=
    ⟨rfl, congrArg (List.take limit) h.alike.types, congrArg (State.above .none) h.alike.start,
      funext fun s => congrFun h.alike.rowsBelow s.below⟩
  refine Gives.of_work (K := Through T in₁ in₂ (List.map (List.take limit))) halike h₁ h₂ rfl rfl
    (fun f rows hf hout hK hs => ?_) rfl ⟨given, h, fun _ => rfl⟩
  exact agree_mapChunk (fun c d hc ht hd => pruneChunk_ok hc ht hd) hK hf hout hs

end

/-! ### Limits -/

/-- The rows that a limit wants, `seen` rows having been before them. -/
def limitRows (stop : Option Nat) (offset seen : Nat) (rows : List Row) : List Row :=
  (stop.elim rows fun stop => rows.take (stop - seen)).drop (offset - seen)

theorem limitRows_append (stop : Option Nat) (offset seen : Nat) (rows rest : List Row) :
    limitRows stop offset seen (rows ++ rest) =
      limitRows stop offset seen rows ++ limitRows stop offset (seen + rows.length) rest := by
  unfold limitRows
  cases stop with
  | none =>
    rw [Option.elim_none, Option.elim_none, Option.elim_none, List.drop_append, Nat.sub_sub]
  | some stop =>
    rw [Option.elim_some, Option.elim_some, Option.elim_some, List.take_append, List.drop_append, Nat.sub_sub]
    by_cases hle : rows.length ≤ stop - seen
    · rw [List.length_take, Nat.min_eq_right hle, Nat.sub_sub]
    · rw [show stop - seen - rows.length = 0 by omega, show stop - (seen + rows.length) = 0 by omega, List.take_zero,
        List.drop_nil, List.drop_nil]

/-- No rows are wanted once the last wanted one was seen. -/
theorem limitRows_past {stop : Option Nat} {seen : Nat} (h : stop.any (· ≤ seen) = true) (offset : Nat)
    (rows : List Row) : limitRows stop offset seen rows = [] := by
  cases stop with
  | none => cases h
  | some stop =>
    have hle : stop ≤ seen := by simpa using h
    rw [limitRows, Option.elim_some, Nat.sub_eq_zero_of_le hle, List.take_zero, List.drop_nil]

theorem drop_min_length (n m : Nat) (rows : List Row) (h : rows.length ≤ m) : rows.drop (min n m) = rows.drop n := by
  by_cases hle : n ≤ m
  · rw [Nat.min_eq_left hle]
  · rw [Nat.min_eq_right (by omega), List.drop_of_length_le h, List.drop_of_length_le (by omega)]

/-- The window of positions in a chunk, as a window of its rows. -/
theorem limitRows_eq_window {stop : Option Nat} {offset seen low high : Nat} {rows : List Row}
    (h : limitWindow stop offset seen rows.length = (low, high)) :
    limitRows stop offset seen rows = (rows.take high).drop low ∧ low ≤ rows.length ∧ high ≤ rows.length := by
  unfold limitWindow at h
  cases h
  cases stop with
  | none =>
    refine ⟨?_, Nat.min_le_right _ _, Nat.le_refl _⟩
    rw [limitRows, Option.elim_none, Option.map_none, Option.getD_none, List.take_length,
      drop_min_length _ _ _ (Nat.le_refl _)]
  | some stop =>
    refine ⟨?_, Nat.min_le_right _ _, Nat.min_le_right _ _⟩
    rw [limitRows, Option.elim_some, Option.map_some, Option.getD_some, List.take_eq_take_min,
      drop_min_length _ _ _ (by rw [List.length_take]; omega)]

/-- How many rows of the input were seen, and which of the rest are wanted. -/
def Limited (T : Terms) (in₁ in₂ : Operator) (stop : Option Nat) (offset : Nat) (rows : List Row) (cell : Cell)
    (below : List Cell) : Prop :=
  ∃ seen given, cell.progress = .limit seen ∧ Gives T in₁ in₂ given below ∧
    (T.told → rows = limitRows stop offset seen given)

theorem limitChunk_ok {c d : Chunk} {low high : Nat} (hc : c.Sound) (hlow : low < high)
    (h : limitChunk c low high = .ok d) :
    d.Sound ∧ d.types = c.types ∧ d.rows = (c.rows.take high).drop low ∧ d.count ≤ c.count ∧ d.isEmpty = false ∧
      (c.activeRows.Pairwise (· < ·) → d.activeRows.Pairwise (· < ·)) := by
  unfold limitChunk at h
  by_cases hall : low = 0 ∧ high = c.count
  · rw [if_pos hall] at h
    cases h
    refine ⟨hc, rfl, ?_, Nat.le_refl _, ?_, id⟩
    · rw [hall.1, hall.2, ← hc.length_rows, List.take_length, List.drop_zero]
    · simp only [Chunk.isEmpty, decide_eq_false_iff_not]
      omega
  · rw [if_neg hall] at h
    obtain ⟨hle, hslice⟩ := Chunk.slice_ok hc h
    refine ⟨hslice.sound, hslice.types, ?_, ?_, ?_, hslice.increasing⟩
    · rw [hslice.rows, List.drop_take]
    · rw [hslice.count]
      omega
    · simp only [Chunk.isEmpty, hslice.count, decide_eq_false_iff_not]
      omega

theorem agree_limitChunks {stop : Option Nat} {offset seen : Nat} {rows : List Row} {f : Frame} (rounds : Nat)
    (h : Gives T in₁ in₂ given f.below) (hf : f.cell.finished = false)
    (hout : f.out = Chunk.blank in₁.types T.capacity) (hs : T.sees f.session.masks)
    (hrows : T.told → rows = limitRows stop offset seen given) :
    Pull.Agree (limitChunks in₁ stop offset rounds seen) (limitChunks in₂ stop offset rounds seen) f fun _ g =>
      Worked T in₁.types (Limited T in₁ in₂ stop offset) rows g := by
  induction rounds generalizing f given rows seen with
  | zero => exact Pull.Agree.throw
  | succ rounds ih =>
    rw [limitChunks, limitChunks]
    refine Pull.Agree.ite (fun hpast => ?_) fun _ => ?_
    · refine Pull.Agree.pure (Worked.none hout hf hs fun ht => ?_)
      rw [hrows ht, limitRows_past hpast]
    refine agree_taken h hf hout hs (fun hnone ht => ?_) fun chunk rest g hg => ?_
    · rw [hrows ht, hnone, limitRows]
      cases stop <;> simp
    have hsound := hg.handed.sound
    refine Pull.Agree.lift_bind fun next hnext => Pull.Agree.step rfl ?_
    obtain rfl := Chunk.addCounts_ok hnext
    cases hwindow : limitWindow stop offset seen chunk.count with
    | mk low high =>
    simp only
    rw [← hsound.length_rows] at hwindow
    obtain ⟨hwanted, _, _⟩ := limitRows_eq_window hwindow
    have hsplit (ht : T.told) : rows = (chunk.rows.take high).drop low ++
        limitRows stop offset (seen + chunk.count) rest := by
      rw [hrows ht, hg.rows ht, limitRows_append, hwanted, hsound.length_rows]
    refine Pull.Agree.ite (fun hle => ?_) fun hlt => Pull.Agree.lift_bind fun wanted hlimit => ?_
    · refine ih hg.left hg.unfinished hg.out hg.sees fun ht => ?_
      rw [hsplit ht, List.drop_of_length_le (by rw [List.length_take]; omega), List.nil_append]
    · obtain ⟨hws, hwt, hwr, hwc, hwe, hwi⟩ := limitChunk_ok hsound (Nat.lt_of_not_le hlt) hlimit
      refine Pull.Agree.last rfl ⟨⟨hws.reference _, hwt.trans hg.handed.typed, fun ht => ?_⟩, hg.sees, hg.unfinished,
        fun he => ?_, fun _ => ⟨_, ⟨_, rest, rfl, hg.left, fun _ => rfl⟩, fun ht => ?_⟩⟩
      · have htidy := hg.handed.tidy ht
        exact ⟨Nat.le_trans hwc htidy.bounded, hwi htidy.increasing⟩
      · cases hwe.symm.trans he
      · rw [hsplit ht, ← hwr]
        rfl

theorem gives_limit {c₁ c₂ : Config} (h₁ : c₁.capacity = T.capacity) (h₂ : c₂.capacity = T.capacity) (n : Option Nat)
    (offset : Nat) (h : Gives T in₁ in₂ given in₁.start.cells) :
    Gives T (limit c₁ n offset in₁) (limit c₂ n offset in₂) (limitRows (limitEnd n offset) offset 0 given)
      (limit c₁ n offset in₁).start.cells := by
  have halike : Alike (limit c₁ n offset in₁) (limit c₂ n offset in₂) :=
    ⟨rfl, h.alike.types, congrArg (State.above (.limit 0)) h.alike.start,
      funext fun s => congrFun h.alike.rowsBelow s.below⟩
  refine Gives.of_work (K := Limited T in₁ in₂ (limitEnd n offset) offset) halike h₁ h₂ rfl rfl
    (fun f rows hf hout ⟨seen, given, hseen, hgiven, hrows⟩ hs => ?_) rfl ⟨0, given, rfl, h, fun _ => rfl⟩
  refine Pull.Agree.step rfl ?_
  simp only [hseen, h.alike.rounds]
  exact Pull.Agree.step rfl (agree_limitChunks _ hgiven hf hout hs hrows)

end Gives

end QueryEngine.Operator
