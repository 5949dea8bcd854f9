import QueryEngine.Proofs.Pull.Halts
import QueryEngine.Proofs.Pull.Leaf
import QueryEngine.Proofs.Pull.Streaming

/-! Operators that answer chunk by chunk halt.

A chunk that is handed out has no more rows than the chunk or the window that it was made
of. A filter or a limit that skips a chunk, and a deletion that works one off, has taken a
row away from the input, so the rounds of their loops suffice. -/
namespace QueryEngine.Operator
open Pull
variable {config : Config} {input op : Operator} {f : Frame}

/-! ### Operators without inputs -/

theorem halting_empty (types : List SqlType) : (empty config types).Halting := by
  refine halting_of_work types rfl ?_ (fun _ _ => rfl) fun f hf hout _ => .pure hf ?_
  · exact List.forall_mem_singleton.mpr (Cell.counted_start trivial)
  · exact Nat.le_of_eq (hout ▸ Nat.zero_add _)

theorem halting_source {types : List SqlType} {chunks : List Chunk} (h : ∀ chunk ∈ chunks, chunk.Counted) :
    (source config types chunks).Halting := by
  refine halting_of_work types rfl ?_ (fun _ _ => rfl) fun f hf hout _ => .step rfl ?_
  · exact List.forall_mem_singleton.mpr (Cell.counted_start trivial)
  have hleft (g : Frame) : (source config types chunks).rowsBelow g.cells =
      total ((chunks.drop g.cell.buffer.count).map Chunk.count) := rfl
  rw [hleft f]
  cases hget : chunks[f.cell.buffer.count]? with
  | none =>
    simp only [hget]
    refine .pure hf (Nat.le_of_eq ?_)
    rw [hout, Nat.zero_add, hleft]
  | some chunk =>
    simp only [hget]
    refine .step rfl (.of_ok rfl ⟨(h chunk (List.mem_of_getElem? hget)).reference _, ⟨Chunk.counted_of_flat rfl,
      hf.cell.progress⟩, hf.below⟩ ?_)
    obtain ⟨hlt, hget⟩ := List.getElem?_eq_some_iff.mp hget
    rw [List.drop_eq_getElem_cons hlt, hget, List.map_cons, total_cons]
    exact Nat.le_refl _

theorem readColumns_inTime {table : Provider} {w : ScannedWindow} (refs : List ColumnRef) (columns : List Column) :
    ∀ r ∈ readColumns table w refs columns, Yields Failure.InTime r fun _ => True := by
  fun_induction readColumns table w refs columns with
  | case1 => exact List.forall_mem_nil _
  | case2 _ _ ih | case3 _ _ _ _ ih => exact List.forall_mem_cons.mpr ⟨trivial, ih⟩
  | case4 => exact List.forall_mem_singleton.mpr trivial

theorem fillFromWindow_halts {table : Provider} {refs : List ColumnRef} {w : ScannedWindow} {mask : Mask}
    {most offset : Nat} {c : Chunk} (hw : LiveWindow table mask refs most offset w) (hc : c.Counted) :
    Halts Chunk.Counted (fillFromWindow table refs w) c fun _ d => d.count ≤ w.len := by
  have hrows := (activeRows_window hw).1.length_le
  rw [List.length_range] at hrows
  refine (Filling.putComputed_halts 0 hc (readColumns_inTime refs _)).bind fun _ d hd _ => ?_
  cases hv : w.window.visible with
  | some rows =>
    rw [hv, Option.getD_some] at hrows
    exact .of_ok rfl (Chunk.counted_select _ rows) hrows
  | none => exact .of_ok rfl (Chunk.counted_of_flat rfl) (Nat.le_refl _)

theorem halting_scan (table : Provider) (refs : List ColumnRef) (types : List SqlType) :
    (scan config table refs types).Halting := by
  refine halting_of_work types rfl ?_ (fun _ _ => rfl) fun f hf hout hcapacity => .step rfl ?_
  · exact List.forall_mem_singleton.mpr (Cell.counted_start trivial)
  have hleft (g : Frame) (next : Nat) (hnext : g.cell.progress = .scan next) :
      (scan config table refs types).rowsBelow g.cells = table.table.rows - next := by
    simp only [Frame.cells, rowsBelow, scan, hnext]
  cases hp : f.cell.progress with
  | scan offset =>
    rw [hleft f offset hp]
    refine .step rfl (.step rfl ?_)
    cases hfound : nextWindow table (f.session.mask table) (tableIds refs) f.out.capacity (table.table.rows - offset)
      offset with
    | mk found next =>
    obtain ⟨hmore, hbehind⟩ := nextWindow_offset hfound
    have hset : Frame.Counted { f with cell := { f.cell with progress := .scan next } } :=
      ⟨hf.out, ⟨hf.cell.buffer, trivial⟩, hf.below⟩
    refine .step rfl (.liftQuery_bind hset fun found' hok => ?_)
    subst hok
    have hspec := nextWindow_ok hcapacity hfound
    cases found' with
    | none =>
      refine .pure hset ?_
      rw [hleft _ next rfl]
      show f.out.count + _ ≤ _
      omega
    | some w =>
      obtain ⟨hend, hw⟩ := hspec
      have hwithin := hw.within
      have hstart := hbehind w rfl
      refine .filling hset (fillFromWindow_halts hw hset.out) fun _ d _ hd => ?_
      rw [hleft _ next rfl]
      show d.count + _ ≤ _
      omega
  | _ => exact .fail hf

/-! ### Filters -/

theorem keepTrue_halts (ps : List Expr) {c : Chunk} (hc : c.Counted) :
    Halts Chunk.Counted (keepTrue ps) c fun _ d => d.count ≤ c.count := by
  induction ps generalizing c with
  | nil => exact .pure hc (Nat.le_refl _)
  | cons p ps ih =>
    rw [keepTrue]
    refine .step rfl (.lift_bind hc (p.selectRows_inTime c) fun kept hkept => ?_)
    have hcount : (c.select kept).count ≤ c.count := hc.length_activeRows ▸ hkept.length_le
    have hselected := Chunk.counted_select c kept
    refine .step (a := ()) (t := c.select kept) rfl (.step rfl (.ite (fun _ => .pure hselected hcount) fun _ => ?_))
    exact (ih hselected).mono fun _ d _ hd => Nat.le_trans hd hcount

/-- Work that ends where the input does and answers its next chunk elsewhere. -/
theorem Halting.taken {next : Chunk → Pull Unit} (h : input.Halting) (hf : f.Counted) (hout : f.out.count = 0)
    (hnext : ∀ chunk g, g.Counted → Fetched input f chunk g → 0 < chunk.count → Halts Frame.Counted (next chunk) g fun _ k =>
      k.out.count + input.rowsBelow k.below ≤ chunk.count + input.rowsBelow g.below) :
    Halts Frame.Counted
      (do
        let chunk ← input.fetch
        if chunk.isEmpty then return
        next chunk)
      f fun _ g => g.out.count + input.rowsBelow g.below ≤ input.rowsBelow f.below := by
  refine (h.fetch hf).bind fun chunk g hg hfetched => .ite (fun _ => .pure hg ?_) fun he => ?_
  · have hfewer := hfetched.fewer
    rw [hfetched.out, hout]
    omega
  · exact (hnext chunk g hg hfetched (Chunk.count_pos he)).mono fun _ k _ hk => Nat.le_trans hk hfetched.fewer

theorem Halting.filterChunks (h : input.Halting) (ps : List Expr) (rounds : Nat) (hf : f.Counted) (hout : f.out.count = 0)
    (hrounds : input.rowsBelow f.below < rounds) :
    Halts Frame.Counted (filterChunks input ps rounds) f
      fun _ g => g.out.count + input.rowsBelow g.below ≤ input.rowsBelow f.below := by
  induction rounds generalizing f with
  | zero => cases hrounds
  | succ rounds ih =>
    refine h.taken hf hout fun chunk g hg hfetched hrow => ?_
    have hkept : Halts Chunk.Counted (do
        modify fun c => c.reference chunk
        keepTrue ps : Filling Unit) g.out fun _ d => d.count ≤ chunk.count :=
      .step rfl ((keepTrue_halts ps (hfetched.counted.reference _)).mono fun _ d _ hd => hd)
    refine .filling_bind hg hkept fun _ d hd hle => .step rfl (.ite (fun _ => .pure ⟨hd, hg.cell, hg.below⟩ ?_) fun _ => ?_)
    · exact Nat.add_le_add_right hle _
    · -- no row is kept, and the chunk is used up
      have hfewer := hfetched.fewer
      have hreset : Frame.Counted { g with out := d.reset } := ⟨Chunk.counted_of_flat rfl, hg.cell, hg.below⟩
      have hrest := ih (f := { g with out := d.reset }) hreset rfl (by show input.rowsBelow g.below < rounds; omega)
      exact .step rfl (hrest.mono fun _ k _ hk => Nat.le_trans hk (Nat.le_add_left _ _))

/-- The cells of an operator with an input, fresh ones. -/
theorem counted_above {p : Progress} (hp : p.Counted) (h : input.Halting) :
    ∀ cell ∈ (State.above p input.start).cells, cell.Counted :=
  List.forall_mem_cons.mpr ⟨Cell.counted_start hp, h.start⟩

theorem halting_filter (h : input.Halting) (ps : List Expr) : (filter config ps input).Halting :=
  halting_of_work input.types rfl (counted_above trivial h) (fun _ _ => rfl) fun _ hf hout _ =>
    .step rfl (h.filterChunks ps _ hf hout (Nat.lt_succ_self _))

/-! ### Projections and pruning -/

/-- A chunk of the input answered by one with as many rows. -/
theorem halting_mapChunk {types : List SqlType} {fill : Chunk → Filling Unit} (h : input.Halting)
    (hpull : op.pull = answer config types do
      let chunk ← input.fetch
      if chunk.isEmpty then return
      Pull.filling (fill chunk))
    (hstart : op.start = State.above .none input.start) (hleft : op.rowsLeft = fun s => input.rowsBelow s.below)
    (hfill : ∀ chunk c : Chunk, chunk.Counted → c.Counted →
      Halts Chunk.Counted (fill chunk) c fun _ d => d.count = chunk.count) : op.Halting := by
  have hbelow (g : Frame) : op.rowsBelow g.cells = input.rowsBelow g.below := by rw [Frame.cells, rowsBelow, hleft]
  refine halting_of_work _ hpull ?_ (fun _ _ => ?_) fun f hf hout _ => ?_
  · rw [hstart]
    exact counted_above trivial h
  · rw [hleft]
  · rw [hbelow f]
    refine (h.taken hf hout fun chunk g hg hfetched _ => ?_).mono fun _ g _ hg => by rw [hbelow]; exact hg
    refine .filling hg (hfill chunk g.out hfetched.counted hg.out) fun _ d _ hd => ?_
    exact Nat.add_le_add_right (Nat.le_of_eq hd) _

theorem halting_project (h : input.Halting) (exprs : List Expr) (types : List SqlType) :
    (project config exprs types input).Halting := by
  refine halting_mapChunk h rfl rfl rfl fun chunk c hchunk hc => ?_
  refine (Filling.putComputed_halts 0 hc (List.forall_mem_map.mpr fun e _ => e.evaluate_inTime chunk)).bind fun _ d _ _ => ?_
  exact .of_ok rfl (hchunk.setCountFrom d) rfl

theorem halting_prune (h : input.Halting) (k : Nat) : (prune config k input).Halting := by
  refine halting_mapChunk h rfl rfl rfl fun chunk c hchunk hc => .ite (fun _ => ?_) fun _ => ?_
  · exact .throw hc trivial
  · exact (Filling.putAll_halts 0 _ hc).bind fun _ d _ _ => .of_ok rfl (hchunk.setCountFrom d) rfl

/-! ### Limits -/

/-- The wanted rows of a chunk are no more than it has. -/
theorem limitChunk_inTime {chunk : Chunk} (hc : chunk.Counted) {low high : Nat} (hle : high ≤ chunk.count) :
    Yields Failure.InTime (limitChunk chunk low high) fun wanted => wanted.Counted ∧ wanted.count ≤ chunk.count := by
  refine .ite (fun _ => ⟨hc, Nat.le_refl _⟩) fun _ => (chunk.slice_inTime _ _).mono fun wanted ⟨hcounted, hfew⟩ => ?_
  exact ⟨hcounted, by omega⟩

theorem limitWindow_le {stop : Option Nat} {offset seen count low high : Nat}
    (h : limitWindow stop offset seen count = (low, high)) : high ≤ count := by
  cases stop <;> cases h
  · exact Nat.le_refl _
  · exact Nat.min_le_right _ _

theorem Halting.limitChunks (h : input.Halting) (stop : Option Nat) (offset rounds seen : Nat) (hf : f.Counted)
    (hout : f.out.count = 0) (hrounds : input.rowsBelow f.below < rounds) :
    Halts Frame.Counted (limitChunks input stop offset rounds seen) f
      fun _ g => g.out.count + input.rowsBelow g.below ≤ input.rowsBelow f.below := by
  induction rounds generalizing f seen with
  | zero => cases hrounds
  | succ rounds ih =>
    rw [Operator.limitChunks]
    refine .ite (fun _ => .pure hf ?_) fun _ => h.taken hf hout fun chunk g hg hfetched hrow => ?_
    · rw [hout]
      omega
    refine .lift_bind hg (addCounts_inTime _ _) fun next _ => .step rfl ?_
    let seenNext : Frame := { g with cell := { g.cell with progress := .limit next } }
    have hset : seenNext.Counted := ⟨hg.out, ⟨hg.cell.buffer, trivial⟩, hg.below⟩
    cases hwindow : limitWindow stop offset seen chunk.count with
    | mk low high =>
    simp only
    refine .ite (fun _ => ?_) fun _ => ?_
    · have hfewer := hfetched.fewer
      have hcount : seenNext.out.count = 0 := by
        show g.out.count = 0
        rw [hfetched.out, hout]
      have hrest := ih (f := seenNext) next hset hcount (by show input.rowsBelow g.below < rounds; omega)
      exact hrest.mono fun _ k _ hk => Nat.le_trans hk (Nat.le_add_left _ _)
    · refine .lift_bind hset (limitChunk_inTime hfetched.counted (limitWindow_le hwindow)) fun wanted hwanted => ?_
      exact .of_ok rfl ⟨hwanted.1.reference _, hset.cell, hset.below⟩ (Nat.add_le_add_right hwanted.2 _)

theorem halting_limit (h : input.Halting) (n : Option Nat) (offset : Nat) : (limit config n offset input).Halting := by
  refine halting_of_work input.types rfl (counted_above trivial h) (fun _ _ => rfl) fun f hf hout _ =>
    .step rfl ?_
  cases f.cell.progress with
  | limit seen => exact .step rfl (h.limitChunks _ _ _ _ hf hout (Nat.lt_succ_self _))
  | _ => exact .fail hf

/-! ### Deletions -/

theorem deleteIds_halts (table : Provider) (ids : List Int64) (hf : f.Counted) :
    Halts Frame.Counted (deleteIds table ids) f fun _ g => g.out = f.out ∧ g.below = f.below := by
  unfold deleteIds
  exact .step rfl (.step rfl (.liftQuery ⟨hf.out, hf.cell, hf.below⟩ fun _ _ => ⟨rfl, rfl⟩))

theorem Halting.deleteChunks (h : input.Halting) (table : Provider) (rounds deleted : Nat) (hf : f.Counted)
    (hrounds : input.rowsBelow f.below < rounds) :
    Halts Frame.Counted (deleteChunks table input rounds deleted) f fun _ g => g.out = f.out := by
  induction rounds generalizing f deleted with
  | zero => cases hrounds
  | succ rounds ih =>
    rw [Operator.deleteChunks]
    refine (h.fetch hf).bind fun chunk g hg hfetched => .ite (fun _ => .pure hg hfetched.out) fun he => ?_
    have hrow := Chunk.count_pos he
    have hfewer := hfetched.fewer
    refine .lift_bind hg (idsOf_inTime chunk) fun ids _ => ?_
    refine (deleteIds_halts table ids hg).bind fun count k hk ⟨hout, hbelow⟩ => ?_
    refine (ih (deleted + count) hk (by rw [hbelow]; omega)).mono fun _ k' _ hk' => ?_
    exact hk'.trans (hout.trans hfetched.out)

theorem halting_delete (h : input.Halting) (table : Provider) : (delete config table input).Halting := by
  have hleft (g : Frame) (done : Bool) (hp : g.cell.progress = .delete done) :
      (delete config table input).rowsBelow g.cells = if done then 0 else 1 := by
    simp only [Frame.cells, rowsBelow, delete, hp]
  refine halting_of_work [.bigInt] rfl (counted_above trivial h) (fun _ _ => rfl) fun f hf hout _ => .step rfl ?_
  cases hp : f.cell.progress with
  | delete done =>
    rw [hleft f done hp]
    cases done with
    | true =>
      refine .pure hf ?_
      rw [hleft f true hp, hout]
      exact Nat.le_refl _
    | false =>
      refine .step rfl ((h.deleteChunks table _ 0 hf (Nat.lt_succ_self _)).bind fun deleted g hg _ => .step rfl ?_)
      have hset : Frame.Counted { g with cell := { g.cell with progress := .delete true } } :=
        ⟨hg.out, ⟨hg.cell.buffer, trivial⟩, hg.below⟩
      have hanswer : Halts Chunk.Counted (do
          Filling.put 0 (Column.ofInts [Int64.ofNat deleted])
          modify fun c => c.setCount 1 : Filling Unit) g.out fun _ d => d.count = 1 :=
        (Filling.put_halts 0 _ hg.out).bind fun _ d _ _ => .of_ok rfl (Chunk.counted_of_flat rfl) rfl
      refine .filling hset hanswer fun _ d _ hd => ?_
      rw [hleft _ true rfl]
      exact Nat.le_of_eq hd
  | _ => exact .fail hf

end QueryEngine.Operator
