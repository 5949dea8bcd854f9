import QueryEngine.Proofs.Pull.Grouping
import QueryEngine.Proofs.Pull.Sure
import QueryEngine.Proofs.Window.Call

/-! Operators that read their whole input first are sure.

They make an output of no more rows than there may be to come, and hand it out piece by
piece; what is in the cell tells what is left (`LeavesOutput`). To make it, the rows of
the input have to be counted, and what the compiler has checked of the keys and calls has
to do for columns of the input's types. -/
namespace QueryEngine

namespace Operator
variable {T : Terms} {config : Config} {input op : Operator} {keep : Option Output → Progress} {least : Nat}
  {types : List SqlType} {rows : List Row} {f : Frame}

/-! ### Outputs in the cell -/

/-- What is left is what the cell's output tells or, before there is one, the input. -/
def LeavesOutput (op input : Operator) (keep : Option Output → Progress) (least : Nat) : Prop :=
  ∀ (cell : Cell) (below : List Cell) (o : Option Output),
    op.rowsLeft ⟨{ cell with progress := keep o }, below⟩ = outputLeft input least below o

theorem LeavesOutput.left {cell : Cell} {below : List Cell} {o : Option Output}
    (h : LeavesOutput op input keep least) (hp : cell.progress = keep o) :
    op.rowsBelow (cell :: below) = outputLeft input least below o := by
  rw [← h cell below o, ← hp]
  rfl

/-- There is an output in the cell, or an input to make it from whose rows can be counted. -/
def Waiting (T : Terms) (input : Operator) (keep : Option Output → Progress) (types : List SqlType) (cell : Cell)
    (below : List Cell) : Prop :=
  (cell.progress = keep none ∧ Sure T input below ∧ input.rowsBelow below ≤ maxCount) ∨
    ∃ o rows, cell.progress = keep (some o) ∧ o.Holds types rows

theorem ends_handOut {o : Output} (hleft : LeavesOutput op input keep least) (hp : f.cell.progress = keep (some o))
    (hout : f.out = Chunk.blank types config.capacity) (ho : o.Holds types rows) :
    Ends (handOut keep o) f fun _ g => (g.out.isEmpty = false → Waiting T input keep types g.cell g.below) ∧
      g.out.count + op.rowsBelow g.cells ≤ op.rowsBelow f.cells := by
  have hbefore : op.rowsBelow f.cells = o.rows - o.position := hleft.left hp
  unfold handOut
  refine .ite (fun _ => .pure ⟨fun _ => .inr ⟨o, rows, hp, ho⟩, ?_⟩) fun hmore => .step rfl ?_
  · rw [hout, Chunk.count_blank, Nat.zero_add]
  generalize hl : min f.out.capacity (o.rows - o.position) = len
  have hwithin : o.position + len ≤ rows.length := by
    rw [← ho.counted]
    omega
  have hlists := ho.lists (by omega)
  have hpieces : Filling.Computes (o.columns.map fun c : Column => c.slice o.position len) f.out.types := by
    rw [hout, Chunk.types_blank, ← hlists.typed]
    exact .of_columns fun c hc => .of_ok (if_pos (hlists.size hc ▸ hwithin)) rfl
  have hfill : Ends (do
      Filling.putComputed 0 (o.columns.map fun (c : Column) => c.slice o.position len)
      modify fun c => c.setCount len : Filling Unit) f.out fun _ d => d.count = len :=
    (Filling.putComputed_whole hpieces).bind fun _ d _ => .of_ok rfl rfl
  refine .filling_bind hfill fun _ d hd => .of_ok rfl ⟨fun _ => .inr ⟨_, rows, rfl, ho.lists, ho.counted⟩, ?_⟩
  have hafter (g : Frame) (hg : g.cell.progress = keep (some { o with position := o.position + len })) :
      op.rowsBelow g.cells = o.rows - (o.position + len) := hleft.left hg
  rw [hbefore, hafter _ rfl]
  show d.count + _ ≤ _
  omega

variable {F : List Row → List Row} {given : List Row} {compute work : Pull Output}

theorem ends_firstOutput {bound : Nat}
    (h : Ends compute f fun o g => Computed T types F given f o g ∧ o.rows ≤ bound) :
    Ends (firstOutput keep compute) f fun o g =>
      g.cell.progress = keep (some o) ∧ Computed T types F given f o g ∧ o.rows ≤ bound := by
  unfold firstOutput
  refine (Ends.buffering (Q := fun o g => Computed T types F given f o g ∧ o.rows ≤ bound) ?_).bind
    fun o g ⟨hg, hbound⟩ => .step rfl (.pure ⟨rfl, ⟨hg.sees, hg.out, hg.unfinished, hg.position, hg.holds⟩, hbound⟩)
  exact h.mono fun o g ⟨hg, hbound⟩ => ⟨⟨hg.sees, hg.out, hg.unfinished, hg.position, hg.holds⟩, hbound⟩

/-- All there is to show of an operator that hands out an output is that it can be made
of the input, and of how many rows. -/
theorem sure_of_output {next : Progress → Pull Unit} (hsees : ∀ masks, T.sees masks) (hverify : config.verify = false)
    (h : Sure T input input.start.cells) (hcounted : input.rowsBelow input.start.cells ≤ maxCount)
    (hpull : op.pull = answer config op.types (do next (← Pull.progress)))
    (hstart : op.start = State.above (keep none) input.start) (hleft : LeavesOutput op input keep least)
    (hfinish : ∀ cell below, op.rowsLeft ⟨{ cell with finished := true }, below⟩ = op.rowsLeft ⟨cell, below⟩)
    (hkept : ∀ o, next (keep (some o)) = handOut keep o)
    (hfresh : next (keep none) = do handOut keep (← firstOutput keep compute))
    (hagree : ∀ f given, Gives T input input given f.below → T.sees f.session.masks →
      Pull.Agree compute compute f (Computed T op.types F given f))
    (hcompute : ∀ f, Sure T input f.below → input.rowsBelow f.below ≤ maxCount →
      Ends compute f fun o _ => o.rows ≤ max least (input.rowsBelow f.below))
    (hgives : Gives T op op rows op.start.cells) : Sure T op op.start.cells := by
  refine Sure.of_work (K := Waiting T input keep op.types) hsees hverify hpull hgives ?_ hfinish fun f hout hK =>
    .step rfl ?_
  · rw [hstart]
    exact .inl ⟨rfl, h, hcounted⟩
  rcases hK with ⟨hp, hinput, hle⟩ | ⟨o, all, hp, ho⟩
  · rw [hp, hfresh]
    obtain ⟨given, hgiven⟩ := hinput.gives
    have hcomputed : Ends compute f fun o g =>
        Computed T op.types F given f o g ∧ o.rows ≤ max least (input.rowsBelow f.below) :=
      (hcompute f hinput hle).and_ok.mono fun o g ⟨hrows, hok⟩ => ⟨(hagree f given hgiven (hsees _)).2 o g hok, hrows⟩
    refine (ends_firstOutput hcomputed).bind fun o g ⟨hkeep, hg, hrows⟩ => ?_
    obtain ⟨all, hall, _⟩ := hg.holds
    refine (ends_handOut hleft hkeep (hg.out.trans hout) hall).mono fun _ k ⟨hk, hfewer⟩ => ⟨hk, hfewer.trans ?_⟩
    rw [Frame.cells, Frame.cells, hleft.left hkeep, hleft.left hp]
    show o.rows - o.position ≤ _
    rw [hg.position]
    exact hrows
  · rw [hp, hkept]
    exact ends_handOut hleft hp hout ho

theorem ends_drainOwn (name : String) (h : Sure T input f.below) (hle : input.rowsBelow f.below ≤ maxCount) :
    Ends (drainOwn name input) f (Sure.Drained input 0 f) := by
  unfold drainOwn
  refine .step rfl (.ite (fun he => ?_) fun _ => h.drain hle)
  obtain ⟨cell, below, hbelow⟩ := h.started
  rw [hbelow] at he
  cases he

/-! ### Sorting -/

theorem ends_sortInput {keys : List SortKey} (hkeys : Sortable input.types keys) (hinput : Sure T input f.below)
    (hle : input.rowsBelow f.below ≤ maxCount) :
    Ends (sortInput keys input) f fun o _ => o.rows ≤ max 0 (input.rowsBelow f.below) := by
  refine (ends_drainOwn "Order" hinput hle).bind fun buffered g hg => ?_
  obtain ⟨rows, hrows⟩ := hg.holds
  obtain ⟨columns, hcolumns, hlists⟩ := hrows.materialize_ok
  have hbounded := hg.bounded
  have hsorted := Rows.sortColumns_yields (fun _ hc => hlists.size hc) (hlists.typed.symm ▸ hkeys)
  rw [hcolumns]
  refine .step (a := columns) rfl (.lift_bind hsorted fun _ _ => .pure ?_)
  show buffered.count ≤ _
  omega

/-! ### Windows -/

theorem ends_windowColumns {chunk : Chunk} {calls : List WindowCall} (hc : chunk.Sound)
    (hflat : chunk.selection = none) (hcalls : ∀ w ∈ calls, w.Fits chunk.types) :
    Ends (windowColumns chunk calls) f fun _ _ => True := by
  induction calls generalizing f with
  | nil => exact .pure trivial
  | cons w calls ih =>
    rw [windowColumns]
    refine .lift_bind (WindowCall.evaluate_yields hc hflat (hcalls w (List.mem_cons_self ..))) fun column _ => ?_
    refine (Ends.reserve _).bind fun _ g _ => ?_
    exact (ih fun w' hw' => hcalls w' (List.mem_cons_of_mem _ hw')).bind fun _ _ _ => .pure trivial

theorem ends_windowInput {calls : List WindowCall} (hcalls : ∀ w ∈ calls, w.Fits input.types)
    (hinput : Sure T input f.below) (hle : input.rowsBelow f.below ≤ maxCount) :
    Ends (windowInput calls input) f fun o _ => o.rows ≤ max 0 (input.rowsBelow f.below) := by
  refine (ends_drainOwn "Window" hinput hle).bind fun buffered g hg => ?_
  obtain ⟨rows, hrows⟩ := hg.holds
  obtain ⟨columns, hcolumns, hlists⟩ := hrows.materialize_ok
  have hbounded := hg.bounded
  rw [hcolumns]
  refine .step (a := columns) rfl (.ite (fun _ => .pure (Nat.zero_le _)) fun _ => ?_)
  have hsize (c : Column) (hc : c ∈ columns) : c.size = buffered.count := (hlists.size hc).trans hrows.counted.symm
  obtain ⟨chunk, hchunk, _, hcols, hflat, _⟩ := Chunk.ofColumns_ok hsize
  have hsound : (chunk.setCount buffered.count).Sound := Chunk.sound_flat fun c hc => hsize c (hcols ▸ hc)
  have htypes : (chunk.setCount buffered.count).types = input.types := by
    rw [← hlists.typed, ← hcols]
    rfl
  rw [hchunk, hlists.length, placedCalls_eq]
  refine .step (a := chunk) rfl (.step (a := calls) rfl ?_)
  refine (ends_windowColumns hsound rfl fun w hw => htypes ▸ hcalls w hw).bind fun _ _ _ => .pure ?_
  show buffered.count ≤ _
  omega

/-! ### Operators -/

section
variable (hsees : ∀ masks, T.sees masks) (hverify : config.verify = false) (h : Sure T input input.start.cells)
  (hcounted : input.rowsBelow input.start.cells ≤ maxCount)
include hsees hverify h hcounted

theorem sure_order {keys : List SortKey} (hkeys : Sortable input.types keys)
    (hgives : Gives T (order config keys input) (order config keys input) rows (order config keys input).start.cells) :
    Sure T (order config keys input) (order config keys input).start.cells :=
  sure_of_output hsees hverify h hcounted rfl rfl (fun _ _ _ => rfl) (fun _ _ => rfl) (fun _ => rfl) rfl
    (fun _ _ hgiven hs => agree_sortInput keys hgiven hs) (fun _ hinput hle => ends_sortInput hkeys hinput hle) hgives

theorem sure_window {calls : List WindowCall} (hcalls : ∀ w ∈ calls, w.Fits input.types)
    (hgives : Gives T (window config calls input) (window config calls input) rows
      (window config calls input).start.cells) :
    Sure T (window config calls input) (window config calls input).start.cells :=
  sure_of_output hsees hverify h hcounted rfl rfl (fun _ _ _ => rfl) (fun _ _ => rfl) (fun _ => rfl) rfl
    (fun _ _ hgiven hs => agree_windowInput calls hgiven hs) (fun _ hinput hle => ends_windowInput hcalls hinput hle) hgives

end

end Operator
end QueryEngine
