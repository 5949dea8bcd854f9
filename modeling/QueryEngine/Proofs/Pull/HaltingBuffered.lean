import QueryEngine.Proofs.Pull.HaltingChunks
import QueryEngine.Proofs.Pull.SureGrouping

/-! Operators that read their whole input first halt.

The output that they make has no more rows than the input gave, or for groups one, and it
is handed out in pieces that its position moves past. -/
namespace QueryEngine.Operator
open Pull
variable {config : Config} {input op : Operator} {keep : Option Output → Progress} {least : Nat} {f : Frame}

/-! ### Outputs in the cell -/

theorem handOut_halts {o : Output} (hleft : LeavesOutput op input keep least) (hkeep : ∀ o, (keep o).Counted)
    (hp : f.cell.progress = keep (some o)) (hf : f.Counted) (hout : f.out.count = 0) :
    Halts Frame.Counted (handOut keep o) f fun _ g => g.out.count + op.rowsBelow g.cells ≤ op.rowsBelow f.cells := by
  have hbefore : op.rowsBelow f.cells = o.rows - o.position := hleft.left hp
  unfold handOut
  refine .ite (fun _ => .pure hf ?_) fun hmore => .step rfl ?_
  · rw [hout, Nat.zero_add]
  generalize hl : min f.out.capacity (o.rows - o.position) = len
  have hfill : Halts Chunk.Counted (do
      Filling.putComputed 0 (o.columns.map fun (c : Column) => c.slice o.position len)
      modify fun c => c.setCount len : Filling Unit) f.out fun _ d => d.count = len :=
    (Filling.putComputed_halts 0 hf.out (List.forall_mem_map.mpr fun c _ => c.slice_inTime _ _)).bind fun _ d _ _ =>
      .of_ok rfl (Chunk.counted_of_flat rfl) rfl
  refine .filling_bind hf hfill fun _ d hd hcount => ?_
  let next : Frame := { f with
    out := d, cell := { f.cell with progress := keep (some { o with position := o.position + len }) } }
  have hprogress : next.cell.progress = keep (some { o with position := o.position + len }) := rfl
  have hafter : op.rowsBelow next.cells = o.rows - (o.position + len) := hleft.left hprogress
  refine .of_ok (t := next) rfl ⟨hd, ⟨hf.cell.buffer, hkeep _⟩, hf.below⟩ ?_
  rw [hbefore, hafter]
  show d.count + _ ≤ _
  omega

variable {compute : Pull Output}

theorem firstOutput_halts {bound : Nat} (hkeep : ∀ o, (keep o).Counted)
    (h : Halts Frame.Counted compute f fun o g => g.out = f.out ∧ o.position = 0 ∧ o.rows ≤ bound) :
    Halts Frame.Counted (firstOutput keep compute) f fun o g =>
      g.cell.progress = keep (some o) ∧ g.out = f.out ∧ o.position = 0 ∧ o.rows ≤ bound := by
  unfold firstOutput
  refine (Halts.buffering (Q := fun o g => g.out = f.out ∧ o.position = 0 ∧ o.rows ≤ bound) h).bind
    fun o g hg ho => .step rfl (.pure ⟨hg.out, ⟨hg.cell.buffer, hkeep _⟩, hg.below⟩ ⟨rfl, ho⟩)

/-- All there is to show of an operator that hands out an output is how many rows it makes
of those of the input. -/
theorem halting_of_output (keep : Option Output → Progress) (least : Nat) {types : List SqlType}
    {next : Progress → Pull Unit} (h : input.Halting) (hpull : op.pull = answer config types (do next (← Pull.progress)))
    (hstart : op.start = State.above (keep none) input.start) (hkeep : ∀ o, (keep o).Counted)
    (hleft : LeavesOutput op input keep least)
    (hfinish : ∀ cell below, op.rowsLeft ⟨{ cell with finished := true }, below⟩ = op.rowsLeft ⟨cell, below⟩)
    (hkept : ∀ o, next (keep (some o)) = handOut keep o)
    (hfresh : next (keep none) = do handOut keep (← firstOutput keep compute))
    (hother : ∀ p, (∀ o, p ≠ keep o) → ∃ e, next p = Pull.fail e)
    (hcompute : ∀ f : Frame, f.Counted → Halts Frame.Counted compute f fun o g =>
      g.out = f.out ∧ o.position = 0 ∧ o.rows ≤ max least (input.rowsBelow f.below)) : op.Halting := by
  refine halting_of_work types hpull ?_ hfinish fun f hf hout _ => .step rfl ?_
  · rw [hstart]
    exact counted_above (hkeep none) h
  by_cases hp : ∃ o, f.cell.progress = keep o
  · obtain ⟨o, hp⟩ := hp
    rw [hp]
    cases o with
    | some o =>
      rw [hkept]
      exact handOut_halts hleft hkeep hp hf hout
    | none =>
      rw [hfresh]
      refine (firstOutput_halts hkeep (hcompute f hf)).bind fun o g hg ⟨hkeep', hgout, hposition, hrows⟩ => ?_
      refine (handOut_halts hleft hkeep hkeep' hg (hgout ▸ hout)).mono fun _ k _ hfewer => hfewer.trans ?_
      rw [Frame.cells, Frame.cells, hleft.left hkeep', hleft.left hp]
      show o.rows - o.position ≤ max least (input.rowsBelow f.below)
      rw [hposition]
      exact hrows
  · obtain ⟨e, he⟩ := hother f.cell.progress fun o ho => hp ⟨o, ho⟩
    rw [he]
    exact .fail hf

theorem Halting.drainOwn (h : input.Halting) (name : String) (hf : f.Counted) :
    Halts Frame.Counted (drainOwn name input) f (Drained input 0 f) := by
  unfold Operator.drainOwn
  exact .step rfl (.ite (fun _ => .fail_bind hf) fun _ => h.drain hf)

/-! ### Sorting and windows -/

theorem Halting.sortInput (h : input.Halting) (keys : List SortKey) (hf : f.Counted) :
    Halts Frame.Counted (sortInput keys input) f fun o g =>
      g.out = f.out ∧ o.position = 0 ∧ o.rows ≤ max 0 (input.rowsBelow f.below) := by
  refine (h.drainOwn "Order" hf).bind fun buffered g hg hdrained => ?_
  refine .lift_bind hg buffered.materialize_inTime fun columns _ => ?_
  refine .lift_bind hg (Rows.sortColumns_inTime keys columns) fun sorted _ => .pure hg ⟨hdrained.out, rfl, ?_⟩
  have hbounded := hdrained.bounded
  show buffered.count ≤ _
  omega

theorem windowColumns_halts (chunk : Chunk) (calls : List WindowCall) (hf : f.Counted) :
    Halts Frame.Counted (windowColumns chunk calls) f fun _ g => g.out = f.out := by
  induction calls generalizing f with
  | nil => exact .pure hf rfl
  | cons w calls ih =>
    rw [windowColumns]
    refine .lift_bind hf (w.evaluate_inTime chunk) fun column _ => ?_
    refine (Halts.reserve _ hf).bind fun _ g hg hbooked => (ih hg).bind fun _ k hk hout => .pure hk (hout.trans ?_)
    obtain ⟨held, pool, hbooks⟩ := hbooked
    rw [hbooks]

theorem Halting.windowInput (h : input.Halting) (calls : List WindowCall) (hf : f.Counted) :
    Halts Frame.Counted (windowInput calls input) f fun o g =>
      g.out = f.out ∧ o.position = 0 ∧ o.rows ≤ max 0 (input.rowsBelow f.below) := by
  refine (h.drainOwn "Window" hf).bind fun buffered g hg hdrained => ?_
  have hbounded := hdrained.bounded
  refine .lift_bind hg buffered.materialize_inTime fun columns _ => .ite (fun _ => ?_) fun _ => ?_
  · exact .pure hg ⟨hdrained.out, rfl, Nat.zero_le _⟩
  refine .liftQuery_bind hg fun chunk _ => .lift_bind hg (placedCalls_inTime _ _ _) fun placed _ => ?_
  refine (windowColumns_halts _ placed hg).bind fun results k hk hout => .pure hk ⟨hout.trans hdrained.out, rfl, ?_⟩
  show buffered.count ≤ _
  omega

theorem halting_order (h : input.Halting) (keys : List SortKey) : (order config keys input).Halting := by
  refine halting_of_output .order 0 h rfl rfl (fun _ => trivial) (fun _ _ _ => rfl) (fun _ _ => rfl)
    (fun _ => rfl) rfl (fun p hp => ?_) fun f hf => h.sortInput keys hf
  cases p with
  | order o => exact absurd rfl (hp o)
  | _ => exact ⟨_, rfl⟩

theorem halting_window (h : input.Halting) (calls : List WindowCall) : (window config calls input).Halting := by
  refine halting_of_output .window 0 h rfl rfl (fun _ => trivial) (fun _ _ _ => rfl) (fun _ _ => rfl)
    (fun _ => rfl) rfl (fun p hp => ?_) fun f hf => h.windowInput calls hf
  cases p with
  | window o => exact absurd rfl (hp o)
  | _ => exact ⟨_, rfl⟩

/-! ### Groups -/

section
variable {keys : List Expr} {keyColumns : List Column} {arguments : List (Option Column)} {calls : List AggregateCall}
  {groups : KeyMap Group}

/-- A row makes no more than one group. -/
theorem groupRow_halts (row : Nat) (hf : f.Counted) :
    Halts Frame.Counted (groupRow calls keyColumns arguments groups row) f fun groups' g =>
      groups'.size ≤ groups.size + 1 ∧ Booked f g := by
  unfold groupRow
  refine .liftQuery_bind hf fun key _ => ?_
  have hadd (group : Group) (g : Frame) (hg : g.Counted) (hbooked : Booked f g) :
      Halts Frame.Counted (do return groups.put key (← group.addRow arguments row)) g fun groups' k =>
        groups'.size ≤ groups.size + 1 ∧ Booked f k :=
    .liftQuery_bind hg fun group' _ => .pure hg ⟨KeyMap.size_put_le groups key group', hbooked⟩
  cases groups.get? key with
  | some group => exact hadd group f hf (.self f)
  | none => exact (Halts.reserve _ hf).bind fun _ g hg hbooked => hadd _ g hg hbooked

theorem groupRows_halts (rows : List Nat) (hf : f.Counted) :
    Halts Frame.Counted (groupRows calls keyColumns arguments groups rows) f fun groups' g =>
      groups'.size ≤ groups.size + rows.length ∧ Booked f g := by
  induction rows generalizing groups f with
  | nil => exact .pure hf ⟨Nat.le_refl _, .self f⟩
  | cons row rows ih =>
    rw [groupRows]
    refine (groupRow_halts row hf).bind fun groups' g hg hrow => (ih hg).mono fun all k _ hall => ?_
    obtain ⟨hone, hbooked⟩ := hrow
    obtain ⟨hfew, hbooked'⟩ := hall
    refine ⟨?_, hbooked.trans hbooked'⟩
    rw [List.length_cons]
    omega

theorem groupChunk_halts {chunk : Chunk} (hc : chunk.Counted) (hf : f.Counted) :
    Halts Frame.Counted (groupChunk keys calls groups chunk) f fun groups' g =>
      groups'.size ≤ groups.size + chunk.count ∧ Booked f g := by
  unfold groupChunk
  rw [mapM_lift, ← hc.length_activeRows]
  refine .lift_bind hf (.mapM_inTime keys fun e => e.evaluate_inTime chunk) fun keyColumns _ => ?_
  have hargument (c : AggregateCall) :
      Yields Failure.InTime (c.argument.mapM (Expr.evaluate chunk) : Except Failure (Option Column)) fun _ => True := by
    cases c.argument with
    | none => trivial
    | some e => exact (e.evaluate_inTime chunk).bind fun _ _ => trivial
  exact .lift_bind hf (.mapM_inTime calls hargument) fun arguments _ => groupRows_halts _ hf

theorem Halting.groupChunks (h : input.Halting) (rounds : Nat) (hf : f.Counted)
    (hrounds : input.rowsBelow f.below < rounds) :
    Halts Frame.Counted (groupChunks keys calls input rounds groups) f fun groups' g =>
      groups'.size ≤ groups.size + input.rowsBelow f.below ∧ g.out = f.out := by
  induction rounds generalizing f groups with
  | zero => cases hrounds
  | succ rounds ih =>
    rw [Operator.groupChunks]
    refine (h.fetch hf).bind fun chunk g hg hfetched => .ite (fun _ => .pure hg ⟨Nat.le_add_right _ _, hfetched.out⟩)
      fun he => ?_
    have hrow := Chunk.count_pos he
    have hfewer := hfetched.fewer
    refine (groupChunk_halts hfetched.counted hg).bind fun groups' k hk hchunk => ?_
    obtain ⟨hfew, held, pool, hbooks⟩ := hchunk
    have hbelow : k.below = g.below := by rw [hbooks]
    have hout : k.out = f.out := by rw [hbooks]; exact hfetched.out
    refine (ih hk (by rw [hbelow]; omega)).mono fun all k' _ hrest => ⟨?_, hrest.2.trans hout⟩
    have hall := hrest.1
    rw [hbelow] at hall
    omega

theorem Halting.groupInput (h : input.Halting) (keys : List Expr) (keyTypes : List SqlType) (calls : List AggregateCall)
    (hf : f.Counted) :
    Halts Frame.Counted (groupInput keys keyTypes calls input) f fun o g =>
      g.out = f.out ∧ o.position = 0 ∧ o.rows ≤ max 1 (input.rowsBelow f.below) := by
  unfold Operator.groupInput
  refine .step rfl ((h.groupChunks _ hf (Nat.lt_succ_self _)).bind fun groups g hg ⟨hfew, hout⟩ => ?_)
  refine .liftQuery_bind hg fun columns _ => .pure hg ⟨hout, rfl, ?_⟩
  have hsize : groups.values.length = groups.size := List.length_map _
  have hempty : (KeyMap.empty : KeyMap Group).size = 0 := rfl
  show (if _ then _ else _ : List Group).length ≤ _
  split
  · exact Nat.le_max_left ..
  · omega

end

theorem halting_aggregate (h : input.Halting) (keys : List Expr) (keyTypes : List SqlType) (calls : List AggregateCall) :
    (aggregate config keys keyTypes calls input).Halting := by
  refine halting_of_output .aggregate 1 h rfl rfl (fun _ => trivial) (fun _ _ _ => rfl)
    (fun _ _ => rfl) (fun _ => rfl) rfl (fun p hp => ?_) fun f hf => h.groupInput keys keyTypes calls hf
  cases p with
  | aggregate o => exact absurd rfl (hp o)
  | _ => exact ⟨_, rfl⟩

end QueryEngine.Operator
