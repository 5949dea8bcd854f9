import QueryEngine.Proofs.Pull.SurePairs

/-! Joins are sure.

The index finds rows of the right side only, so the pairs that a left chunk is owed can
all be read, and there are no more of them than one for each right row and one besides.
A pull either hands out rows that were owed or takes a left chunk, so its rounds are
enough. -/
namespace QueryEngine

/-! ### Keys and sides -/

namespace JoinSide
variable {keys : List Expr} {columns : List Column} {types : List SqlType} {rows : List Row}

theorem ofColumns_yields (hc : Lists columns types rows) (hkeys : Expr.Resolved types keys) :
    Yields Failure.OfData (ofColumns keys columns rows.length) fun _ => True := by
  unfold ofColumns
  refine .ite (fun _ => trivial) fun _ => ?_
  obtain ⟨input, hinput, _, hcolumns, _⟩ := Chunk.ofColumns_ok fun _ hmem => hc.size hmem
  have hsound : (input.setCount rows.length).Sound := Chunk.sound_flat fun c hmem => hc.size (hcolumns ▸ hmem)
  have htypes : (input.setCount rows.length).types = types := by
    rw [← hc.typed, ← hcolumns]
    rfl
  rw [hinput, lift_ok, ok_bind]
  refine Yields.bind (Q := fun sized => ∀ c ∈ sized, c.size = (input.setCount rows.length).physicalRows)
    ((htypes.symm ▸ hkeys : Expr.Resolved (input.setCount rows.length).types keys).evaluate_yields hsound)
    fun keyColumns hsizes => ?_
  refine Yields.foldlM (I := fun _ => True) trivial fun side row hrow _ => ?_
  have hread (c : Column) (hmem : c ∈ keyColumns) : row < c.size := by
    rw [hsizes c hmem, hsound.flat rfl]
    exact List.mem_range.mp hrow
  obtain ⟨key, hkey⟩ := Key.joining?_of_lt hread
  rw [hkey]
  trivial

variable {s : JoinSide} {common : List SqlType} {key : Row → Key} {keyColumns : List Column}

/-- What a left row matches are rows of the side, each once. -/
theorem matches?_of_lt (hs : s.Indexes types common key rows) (hlen : keyColumns.length = common.length) {row : Nat}
    (h : ∀ c ∈ keyColumns, row < c.size) :
    ∃ found, s.matches? keyColumns row = .ok found ∧
      ∀ rows, found = some rows → rows.length ≤ s.rows ∧ ∀ r ∈ rows, r < s.rows := by
  obtain ⟨joining, hjoining⟩ := Key.joining?_of_lt h
  have hfound : s.matches? keyColumns row = .ok (joining.bind s.index.get?) := by rw [matches?, hjoining]; rfl
  refine ⟨_, hfound, fun found hsome => ?_⟩
  have hmatch := matches?_ok hs hlen hfound
  rw [hsome] at hmatch
  split at hmatch
  · cases hmatch
    refine ⟨?_, fun r hr => List.mem_range.mp (List.mem_of_mem_filter hr)⟩
    have hle := List.length_filter_le (fun i => (Key.valuesAt keyColumns row).joins (key (s.columns.map fun c => c.datum i)))
      (List.range s.rows)
    rwa [List.length_range] at hle
  · cases hmatch

end JoinSide

/-! ### Results -/

namespace JoinResult
variable {c d : Chunk}

theorem semiOrAnti_ends {found : List Bool} {anti : Bool} (hc : c.Sound) (hfound : found.length = c.count)
    (ht : d.types = c.types) :
    Ends (semiOrAnti c found anti) d fun _ e => Filling.Like d e ∧ e.count ≤ c.count := by
  have hflags : checkFlags c found = .ok () := if_pos hfound
  unfold semiOrAnti
  rw [hflags]
  refine .step (a := ()) rfl ((Filling.putAll_whole ht.symm).bind fun _ e he =>
    .of_ok rfl ⟨⟨he.types, he.capacity⟩, ?_⟩)
  calc (((c.activeRows.zip found).filter fun row => row.2 ≠ anti).map Prod.fst).length
      = ((c.activeRows.zip found).filter fun row => row.2 ≠ anti).length := List.length_map _
    _ ≤ (c.activeRows.zip found).length := List.length_filter_le _ _
    _ ≤ c.activeRows.length := by rw [List.length_zip]; exact Nat.min_le_left _ _
    _ = c.count := hc.length_activeRows

theorem padded_ends {rightTypes : List SqlType} (ht : d.types = c.types ++ rightTypes) :
    Ends (padded c rightTypes) d fun _ e => e.count = c.count := by
  have hwidth : (c.types ++ rightTypes).drop c.columns.length = rightTypes := by
    rw [show c.columns.length = c.types.length from (List.length_map _).symm, List.drop_left]
  refine (Filling.putAll_ends ?_).bind fun _ e he => (Filling.putAll_ends ?_).bind fun _ e _ => .of_ok rfl rfl
  · rw [ht]
    exact List.prefix_append _ _
  · rw [he.types, ht, hwidth, List.map_map]
    exact (List.map_id rightTypes).symm ▸ List.prefix_refl _

theorem marked_ends {keys : List HostArray} {found : List Bool} {rightHasNull : Bool} (hc : c.Sound)
    (hfound : found.length = c.count) (hkeys : ∀ k ∈ keys, k.size = c.physicalRows) (ht : d.types = c.types ++ [.boolean]) :
    Ends (marked keys c found rightHasNull) d fun _ e => e.count = c.count := by
  rw [marked_eq_putAll hc hfound hkeys]
  refine (Filling.putAll_whole ?_).bind fun _ e _ => .of_ok rfl rfl
  rw [ht, List.map_append]
  rfl

end JoinResult

namespace Operator

/-! ### Pairs -/

/-- Pairs of a left row among some and a row of a right side, or none. -/
def PairsWithin (lefts : List Nat) (rights : Nat) (pairs : List (Nat × Option Nat)) : Prop :=
  ∀ pair ∈ pairs, pair.1 ∈ lefts ∧ ∀ r, pair.2 = some r → r < rights

theorem pairsOf_within (kind : JoinKind) (row : Nat) {rights : Nat} {found : Option (List Nat)}
    (h : ∀ rows, found = some rows → rows.length ≤ rights ∧ ∀ r ∈ rows, r < rights) :
    PairsWithin [row] rights (pairsOf kind row found) ∧ (pairsOf kind row found).length ≤ rights + 1 := by
  cases found with
  | none =>
    rw [pairsOf]
    split
    · refine ⟨fun pair hpair => ?_, Nat.succ_le_succ (Nat.zero_le _)⟩
      rw [List.mem_singleton.mp hpair]
      exact ⟨List.mem_singleton_self _, fun r hr => (by cases hr)⟩
    · exact ⟨List.forall_mem_nil _, Nat.zero_le _⟩
  | some rows =>
    obtain ⟨hlength, hin⟩ := h rows rfl
    rw [pairsOf]
    split
    · refine ⟨fun pair hpair => ?_, by rw [List.length_map]; exact Nat.le_succ_of_le hlength⟩
      obtain ⟨r, hr, rfl⟩ := List.mem_map.mp hpair
      exact ⟨List.mem_singleton_self _, fun r' hr' => by cases hr'; exact hin r hr⟩
    · exact ⟨List.forall_mem_nil _, Nat.zero_le _⟩

section
variable {side : JoinSide} {types common : List SqlType} {key : Row → Key} {rightRows : List Row}
  {keyColumns : List Column}

/-- Rows whose keys can be read are looked up. -/
theorem probeRows_of_lt (kind : JoinKind) (hs : side.Indexes types common key rightRows)
    (hlen : keyColumns.length = common.length) {rs : List Nat} (h : ∀ c ∈ keyColumns, ∀ r ∈ rs, r < c.size) :
    ∃ flags pairs, probeRows kind side keyColumns rs = (.ok flags, pairs) ∧ flags.length = rs.length ∧
      PairsWithin rs side.rows pairs ∧ pairs.length ≤ (side.rows + 1) * rs.length := by
  induction rs with
  | nil => exact ⟨[], [], rfl, rfl, nofun, Nat.zero_le _⟩
  | cons r rs ih =>
    obtain ⟨flags, pairs, hprobe, hflags, hwithin, hfew⟩ := ih fun c hc r' hr' => h c hc r' (List.mem_cons_of_mem _ hr')
    obtain ⟨found, hfound, hmatch⟩ := JoinSide.matches?_of_lt hs hlen fun c hc => h c hc r (List.mem_cons_self ..)
    obtain ⟨hhead, hone⟩ := pairsOf_within kind r hmatch
    refine ⟨found.isSome :: flags, pairsOf kind r found ++ pairs, ?_, congrArg (· + 1) hflags, fun pair hpair => ?_, ?_⟩
    · simp only [probeRows, hfound, hprobe]
      rfl
    · rcases List.mem_append.mp hpair with hpair | hpair
      · obtain ⟨hleft, hright⟩ := hhead pair hpair
        exact ⟨List.mem_singleton.mp hleft ▸ List.mem_cons_self .., hright⟩
      · obtain ⟨hleft, hright⟩ := hwithin pair hpair
        exact ⟨List.mem_cons_of_mem _ hleft, hright⟩
    · rw [List.length_append, List.length_cons, Nat.mul_succ]
      omega

end

/-- Columns that can all be computed. -/
theorem exists_computed (compute : Column → Except Failure Column) {cs : List Column}
    (h : ∀ c ∈ cs, ∃ d, compute c = .ok d ∧ d.type = c.type) :
    ∃ ds : List Column, cs.map compute = ds.map Except.ok ∧ ds.map Column.type = cs.map Column.type := by
  induction cs with
  | nil => exact ⟨[], rfl, rfl⟩
  | cons c cs ih =>
    obtain ⟨⟨d, hd, ht⟩, hcs⟩ := List.forall_mem_cons.mp h
    obtain ⟨ds, hds, hts⟩ := ih hcs
    exact ⟨d :: ds, by rw [List.map_cons, List.map_cons, hd, hds], by rw [List.map_cons, List.map_cons, ht, hts]⟩

section
variable {c d : Chunk} {side : JoinSide} {pairs : List (Nat × Option Nat)} {rightTypes : List SqlType} {rows : List Row}
  (hc : c.Sound) (hside : Lists side.columns rightTypes rows) (ht : d.types = c.types ++ rightTypes)
  (h : PairsWithin (List.range c.physicalRows) rows.length pairs)
include hc hside ht h

/-- Pairs within range are taken. -/
theorem takePairs_of_within : ∃ e, takePairs side c pairs d = .ok () e ∧ e.count = pairs.length := by
  obtain ⟨lefts, hlefts, hleftTypes⟩ := exists_computed (fun column => column.gather (pairs.map Prod.fst))
    fun column (hcol : column ∈ c.columns) => by
      have hrows : ∀ r ∈ pairs.map Prod.fst, r < column.size := fun r hr => by
        obtain ⟨pair, hpair, rfl⟩ := List.mem_map.mp hr
        rw [hc.even column hcol]
        exact List.mem_range.mp (h pair hpair).1
      obtain ⟨g, hg⟩ := Column.gather_of_lt hrows
      exact ⟨g, hg, (Column.gather_ok hg).1⟩
  obtain ⟨rights, hrights, hrightTypes⟩ := exists_computed (fun column => column.gatherPadded (pairs.map Prod.snd))
    fun column (hcol : column ∈ side.columns) => by
      have hrows : ∀ r, some r ∈ pairs.map Prod.snd → r < column.size := fun r hr => by
        obtain ⟨pair, hpair, hr⟩ := List.mem_map.mp hr
        rw [hside.size hcol]
        exact (h pair hpair).2 r hr
      obtain ⟨g, hg⟩ := Column.gatherPadded_of_lt hrows
      exact ⟨g, hg, (Column.gatherPadded_ok hg).1⟩
  have htyped : (lefts ++ rights).map Column.type <+: d.types.drop 0 := by
    rw [List.map_append, hleftTypes, hrightTypes, List.drop_zero, ht, hside.typed]
    exact List.prefix_refl _
  obtain ⟨e, he, -⟩ := Filling.putAll_of_types htyped
  refine ⟨e.setCount pairs.length, ?_, rfl⟩
  show (Filling.putComputed 0 (c.columns.map (fun column => column.gather (pairs.map Prod.fst)) ++
    side.columns.map fun column => column.gatherPadded (pairs.map Prod.snd)) >>= fun _ => _) d = _
  rw [hlefts, hrights, ← List.map_append, ← Filling.putAll_eq_putComputed, run_bind, he]
  rfl

theorem takePairs_ends : Ends (takePairs side c pairs) d fun _ e => e.count = pairs.length := by
  obtain ⟨e, he, hcount⟩ := takePairs_of_within hc hside ht h
  exact .of_ok he hcount

end

/-! ### The pull -/

theorem lendingSide_ends {step : Pull Unit} {f : Frame} {Q : Unit → Frame → Prop} (h : Ends step f Q) :
    Ends (lendingSide step) f Q := by
  unfold Ends lendingSide at *
  cases hstep : step f with
  | ok a g =>
    rw [hstep] at h
    exact h
  | error e g =>
    rw [hstep] at h
    cases e with
    | crash => exact h.elim
    | _ => exact h

section
variable {T : Terms} {config : Config} {left right : Operator} {f : Frame} {rows : List Row} {J : JoinTerms}
  {on : List (Expr × Expr)} {most : Nat} {p : JoinProgress} {side : JoinSide}

/-- The pairs that are owed can be read, and they can be counted. -/
structure Pledged (config : Config) (J : JoinTerms) (right : Operator) (most : Nat) (buffer : Chunk) (p : JoinProgress)
    (side : JoinSide) : Prop where
  taken : p.side = some side
  indexed : ∃ rows, side.Indexes J.rightTypes J.common J.keys.right rows
  few : side.rows ≤ right.rowsLeft right.start
  pending : p.emitted < p.pending.length → (J.kind = .inner ∨ J.kind = .left) ∧ buffer.Sound ∧
    buffer.types = J.leftTypes ∧ PairsWithin (List.range buffer.physicalRows) side.rows p.pending
  /-- Only full chunks leave pairs behind. -/
  full : p.emitted < p.pending.length → p.emitted = 0 ∨ max config.capacity 1 ≤ p.emitted
  counted : p.pending.length ≤ most

/-- Where pairs were owed, none may be. -/
theorem Pledged.nothing {buffer : Chunk} (hp : Pledged config J right most buffer p side) (buffer' : Chunk) :
    Pledged config J right most buffer' ⟨p.side, [], 0⟩ side :=
  ⟨hp.taken, hp.indexed, hp.few, fun hmore => (by cases hmore), fun hmore => (by cases hmore), Nat.zero_le _⟩

/-- What holds of a join between pulls. -/
def Joinable (T : Terms) (config : Config) (left right : Operator) (J : JoinTerms) (most : Nat) (cell : Cell)
    (below : List Cell) : Prop :=
  ∃ p, cell.progress = .join p ∧ Sure T left below ∧
    (right.rowsLeft right.start + 1) * left.rowsBelow below ≤ most ∧
      ((p.side = none ∧ p.pending = [] ∧ p.emitted = 0) ∨ ∃ side, Pledged config J right most cell.buffer p side)

/-- The rows left of a join whose right side has been read. -/
def owedLeft (left : Operator) (p : JoinProgress) (side : JoinSide) (below : List Cell) : Nat :=
  (p.pending.length - p.emitted) + (side.rows + 1) * left.rowsBelow below

theorem join_left {cell : Cell} {below : List Cell} {kind : JoinKind} (hp : cell.progress = .join p)
    (hside : p.side = some side) :
    (join config kind on left right).rowsBelow (cell :: below) = owedLeft left p side below := by
  simp only [rowsBelow, join, hp, hside, Option.elim_some, owedLeft]

/-- What a join's work leaves of the rows there were before. -/
def Spent (T : Terms) (config : Config) (on : List (Expr × Expr)) (left right : Operator) (J : JoinTerms)
    (most before : Nat) (g : Frame) : Prop :=
  (g.out.isEmpty = false → Joinable T config left right J most g.cell g.below) ∧
    g.out.count + (join config J.kind on left right).rowsBelow g.cells ≤ before

/-- Nothing is handed out, and nothing is owed any more. -/
theorem Pledged.spent_idle {buffer : Chunk} {g : Frame} (hp : Pledged config J right most buffer p side)
    (hle : (right.rowsLeft right.start + 1) * left.rowsBelow f.below ≤ most) (hg : Sure T left g.below)
    (hcell : g.cell.progress = .join ⟨p.side, [], 0⟩) (hout : g.out = Chunk.blank J.types config.capacity)
    (hfewer : left.rowsBelow g.below ≤ left.rowsBelow f.below) :
    Spent T config on left right J most (owedLeft left p side f.below) g := by
  refine ⟨fun _ => ⟨_, hcell, hg, (Nat.mul_le_mul_left _ hfewer).trans hle, .inr ⟨side, hp.nothing _⟩⟩, ?_⟩
  rw [hout, Chunk.count_blank, Nat.zero_add, Frame.cells, join_left hcell hp.taken]
  exact Nat.add_le_add (Nat.zero_le _) (Nat.mul_le_mul_left _ hfewer)

theorem ends_handOutPairs (h : Sure T left f.below)
    (hle : (right.rowsLeft right.start + 1) * left.rowsBelow f.below ≤ most)
    (hp : Pledged config J right most f.cell.buffer p side) (hmore : p.emitted < p.pending.length)
    (hout : f.out = Chunk.blank J.types config.capacity) (hroom : config.capacity ≤ maxCount) (hmost : 2 * most ≤ maxCount) :
    Ends (handOutPairs side p) f fun _ g => Spent T config on left right J most (owedLeft left p side f.below) g := by
  obtain ⟨hkind, hsound, htypes, hwithin⟩ := hp.pending hmore
  obtain ⟨rows, hindexed⟩ := hp.indexed
  have hcounted := hp.counted
  have hnext : addCounts p.emitted f.out.capacity = .ok (p.emitted + f.out.capacity) := by
    refine Chunk.addCounts_of_le ?_
    have hfull := hp.full hmore
    rw [hout, Chunk.capacity_blank]
    omega
  unfold handOutPairs
  refine .step rfl (.lift_bind (Q := (· = p.emitted + f.out.capacity)) (.of_ok hnext rfl) fun stop hstop => ?_)
  rw [hout, Chunk.capacity_blank] at hstop
  generalize hl : min stop p.pending.length = stop'
  refine .step rfl (.step rfl (.filling ?_))
  have htaken : PairsWithin (List.range f.cell.buffer.physicalRows) rows.length
      ((p.pending.take stop').drop p.emitted) := fun pair hpair =>
    hindexed.counted ▸ hwithin pair (List.mem_of_mem_take (List.mem_of_mem_drop hpair))
  have hform : f.out.types = f.cell.buffer.types ++ J.rightTypes := by
    rw [hout, Chunk.types_blank, JoinTerms.types, htypes]
    rcases hkind with hkind | hkind <;> rw [hkind, JoinKind.outputTypes]
  refine (takePairs_ends hsound hindexed.lists hform htaken).mono fun _ d hd => ⟨fun _ => ?_, ?_⟩
  · refine ⟨_, rfl, h, hle, .inr ⟨side, hp.taken, hp.indexed, hp.few, fun _ => hp.pending hmore, fun hrest => .inr ?_,
      hp.counted⟩⟩
    have hrest : stop' < p.pending.length := hrest
    show max config.capacity 1 ≤ stop'
    omega
  · have hleft (g : Frame) (hg : g.cell.progress = .join { p with emitted := stop' }) :
        (join config J.kind on left right).rowsBelow g.cells = owedLeft left { p with emitted := stop' } side g.below :=
      join_left hg hp.taken
    rw [hleft _ rfl]
    show d.count + ((p.pending.length - stop') + (side.rows + 1) * left.rowsBelow f.below) ≤ _
    rw [hd, List.length_drop, List.length_take, owedLeft]
    omega

theorem joinWithNothing_ends {c d : Chunk} (hc : c.Sound) (hd : d.types = J.kind.outputTypes c.types right.types)
    (hkind : ¬(J.kind = .inner ∨ J.kind = .semi)) :
    Ends (joinWithNothing J.kind right.types c) d fun _ e => e.count = c.count := by
  unfold joinWithNothing
  cases hk : J.kind with
  | inner => exact absurd (.inl hk) hkind
  | semi => exact absurd (.inr hk) hkind
  | left =>
    rw [hk] at hd
    exact JoinResult.padded_ends hd
  | anti => exact .of_ok rfl rfl
  | mark =>
    rw [hk] at hd
    exact JoinResult.marked_ends hc List.length_replicate nofun hd

/-- A left chunk with rows is to be answered, `before` counting what it may be answered
with besides what is still to come. -/
structure Faced (T : Terms) (config : Config) (left right : Operator) (J : JoinTerms) (most before : Nat)
    (side : JoinSide) (chunk : Chunk) (f : Frame) : Prop where
  sure : Sure T left f.below
  counted : (right.rowsLeft right.start + 1) * left.rowsBelow f.below ≤ most
  sound : chunk.Sound
  typed : chunk.types = J.leftTypes
  buffer : f.cell.buffer = chunk
  out : f.out = Chunk.blank J.types config.capacity
  before : (side.rows + 1) * chunk.count + (side.rows + 1) * left.rowsBelow f.below ≤ before

theorem Faced.of_fetched {chunk : Chunk} {g : Frame} (hg : Sure.Fetched T left f chunk g) (hl : left.types = J.leftTypes)
    (hle : (right.rowsLeft right.start + 1) * left.rowsBelow f.below ≤ most)
    (hout : f.out = Chunk.blank J.types config.capacity) :
    Faced T config left right J most (owedLeft left p side f.below) side chunk g := by
  have hfewer := hg.fewer
  refine ⟨hg.left, (Nat.mul_le_mul_left _ (by omega)).trans hle, hg.handed.sound, hg.handed.typed.trans hl,
    by rw [hg.cell], hg.out.trans hout, ?_⟩
  rw [← Nat.mul_add]
  exact (Nat.mul_le_mul_left _ hfewer).trans (Nat.le_add_left _ _)

section
variable {before : Nat} {chunk d : Chunk}

/-- A chunk that is answered at once, with no more rows than it has. -/
theorem Faced.answered (h : Faced T config left right J most before side chunk f)
    (hp : Pledged config J right most f.cell.buffer ⟨p.side, [], 0⟩ side) (hcell : f.cell.progress = .join ⟨p.side, [], 0⟩)
    (hd : d.count ≤ chunk.count) : Spent T config on left right J most before { f with out := d } := by
  refine ⟨fun _ => ⟨_, hcell, h.sure, h.counted, .inr ⟨side, hp⟩⟩, ?_⟩
  have hleft : (join config J.kind on left right).rowsBelow (Frame.cells { f with out := d }) =
      owedLeft left ⟨p.side, [], 0⟩ side f.below := join_left hcell hp.taken
  rw [hleft]
  show d.count + (0 + (side.rows + 1) * left.rowsBelow f.below) ≤ _
  have hrows := Nat.le_mul_of_pos_left chunk.count (by omega : 0 < side.rows + 1)
  have hbefore := h.before
  omega

/-- A semi or anti join goes on where it has no row to hand out. -/
theorem Faced.select (h : Faced T config left right J most before side chunk f)
    (hp : Pledged config J right most f.cell.buffer ⟨p.side, [], 0⟩ side) (hcell : f.cell.progress = .join ⟨p.side, [], 0⟩)
    (anti : Bool) (hk : J.kind = if anti then .anti else .semi) {flags : List Bool} (hflags : flags.length = chunk.count)
    {next : Pull Unit} (hnext : Ends next f fun _ g => Spent T config on left right J most before g) :
    Ends
      (do
        Pull.filling (JoinResult.semiOrAnti chunk flags anti)
        if !(← Pull.out).isEmpty then return
        Pull.changeOut Chunk.reset
        next)
      f fun _ g => Spent T config on left right J most before g := by
  have hform : f.out.types = chunk.types := by
    rw [h.out, Chunk.types_blank, JoinTerms.types, hk, h.typed]
    cases anti <;> rfl
  have hselected : Ends (JoinResult.semiOrAnti chunk flags anti) f.out fun _ d =>
      Filling.Like f.out d ∧ d.count ≤ chunk.count := JoinResult.semiOrAnti_ends h.sound hflags hform
  refine .filling_bind hselected fun _ d hd => ?_
  obtain ⟨hlike, hcount⟩ := hd
  refine .step rfl (.ite (fun _ => .pure (h.answered hp hcell hcount)) fun _ => ?_)
  have hreset : d.reset = f.out := by
    rw [h.out] at hlike ⊢
    exact Chunk.reset_eq_blank (hlike.types.trans (Chunk.types_blank ..)) hlike.capacity
  refine .step (a := ()) (t := f) ?_ hnext
  show EStateM.Result.ok () { f with out := d.reset } = _
  rw [hreset]

end

/-- The pairs of a left chunk are owed. -/
theorem Faced.pledged {pairs : List (Nat × Option Nat)} {before : Nat} {chunk : Chunk}
    (h : Faced T config left right J most before side chunk f) {buffer : Chunk}
    (hp : Pledged config J right most buffer p side) (hwithin : PairsWithin chunk.activeRows side.rows pairs)
    (hnopairs : ¬(J.kind = .inner ∨ J.kind = .left) → pairs = []) (hfew : pairs.length ≤ most) :
    Pledged config J right most f.cell.buffer ⟨p.side, pairs, 0⟩ side := by
  rw [h.buffer]
  refine ⟨hp.taken, hp.indexed, hp.few, fun hmore => ⟨?_, h.sound, h.typed, fun pair hpair => ?_⟩, fun _ => .inl rfl, hfew⟩
  · by_contra hkind
    rw [hnopairs hkind] at hmore
    cases hmore
  · exact ⟨List.mem_range.mpr (h.sound.active_lt (hwithin pair hpair).1), (hwithin pair hpair).2⟩

/-- Left chunks are answered until there is a row to hand out. -/
theorem ends_probe {keys : List Expr} (hkey : KeyOn keys J.leftTypes J.common J.keys.left)
    (hkeys : Expr.Resolved J.leftTypes keys) (hl : left.types = J.leftTypes) (hr : right.types = J.rightTypes)
    (hroom : config.capacity ≤ maxCount) (hmost : 2 * most ≤ maxCount) (rounds : Nat) (h : Sure T left f.below)
    (hle : (right.rowsLeft right.start + 1) * left.rowsBelow f.below ≤ most)
    (hp : Pledged config J right most f.cell.buffer p side) (hrounds : left.rowsBelow f.below < rounds)
    (hout : f.out = Chunk.blank J.types config.capacity) :
    Ends (probe J.kind keys left right side rounds p) f fun _ g =>
      Spent T config on left right J most (owedLeft left p side f.below) g := by
  induction rounds generalizing f p with
  | zero => cases hrounds
  | succ rounds ih =>
    rw [probe]
    refine .ite (fun hmore => ends_handOutPairs h hle hp hmore hout hroom hmost) fun _ => .step rfl ?_
    obtain ⟨rightRows, hindexed⟩ := hp.indexed
    -- nothing is owed from here on
    refine .ite (fun _ => .pure (hp.spent_idle hle h rfl hout (Nat.le_refl _))) fun hkind => ?_
    let fresh : Frame := { f with cell := { f.cell with progress := .join ⟨p.side, [], 0⟩ } }
    refine (Sure.fetch (f := fresh) h).bind fun chunk g hg => ?_
    have hcell : g.cell.progress = .join ⟨p.side, [], 0⟩ := by rw [hg.cell]
    have hfewer : chunk.count + left.rowsBelow g.below ≤ left.rowsBelow f.below := hg.fewer
    refine .ite (fun _ => .pure (hp.spent_idle hle hg.left hcell (hg.out.trans hout) (by omega))) fun he => ?_
    have hrow := Chunk.count_pos he
    have hfaced : Faced T config left right J most (owedLeft left p side f.below) side chunk g :=
      .of_fetched (f := fresh) hg hl hle hout
    have hform : g.out.types = J.kind.outputTypes chunk.types right.types := by
      rw [hfaced.out, Chunk.types_blank, JoinTerms.types, hfaced.typed, hr]
    refine .ite (fun hzero => ?_) fun hsome => ?_
    · refine .filling ((joinWithNothing_ends hfaced.sound hform fun hk => hkind ⟨hzero, hk⟩).mono fun _ d hd => ?_)
      exact hfaced.answered (hp.nothing _) hcell (Nat.le_of_eq hd)
    refine .lift_bind (((hfaced.typed.symm ▸ hkeys : Expr.Resolved chunk.types keys).evaluate_yields hfaced.sound).and_ok)
      fun keyColumns hevaluated => ?_
    obtain ⟨hsizes, hcolumns⟩ := hevaluated
    have hlen : keyColumns.length = J.common.length := by
      rw [← (hkey chunk keyColumns hfaced.sound hfaced.typed hcolumns).1, List.length_map]
    have hread (c : Column) (hc : c ∈ keyColumns) (r : Nat) (hr : r ∈ chunk.activeRows) : r < c.size :=
      (hsizes c hc).symm ▸ hfaced.sound.active_lt hr
    obtain ⟨flags, pairs, hprobe, hflags, hwithin, hfew⟩ := probeRows_of_lt J.kind hindexed hlen hread
    rw [hfaced.sound.length_activeRows] at hflags hfew
    have hnopairs := (probeChunk_ok hindexed hkey hfaced.sound hfaced.typed hcolumns hprobe).2.2
    simp only [hprobe]
    refine .step rfl (.step (a := flags) rfl ?_)
    have hpledged : Pledged config J right most g.cell.buffer ⟨p.side, pairs, 0⟩ side :=
      hfaced.pledged hp hwithin hnopairs (hfew.trans ((Nat.mul_le_mul (Nat.succ_le_succ hp.few) (by omega)).trans hle))
    let owing : Frame := { g with cell := { g.cell with progress := .join ⟨p.side, pairs, 0⟩ } }
    have hgo (kind : JoinKind) (hk : J.kind = kind) :
        Ends (probe kind keys left right side rounds ⟨p.side, pairs, 0⟩) owing fun _ k =>
          Spent T config on left right J most (owedLeft left p side f.below) k := by
      subst hk
      have hlater : left.rowsBelow owing.below < rounds := by
        show left.rowsBelow g.below < rounds
        omega
      refine (ih (f := owing) hg.left hfaced.counted hpledged hlater hfaced.out).mono fun _ k hk =>
        ⟨hk.1, hk.2.trans ?_⟩
      exact (Nat.add_le_add_right hfew _).trans hfaced.before
    have hanswering (hk : ¬(J.kind = .inner ∨ J.kind = .left)) :
        Faced T config left right J most (owedLeft left p side f.below) side chunk owing ∧
          owing.cell.progress = .join ⟨p.side, [], 0⟩ :=
      ⟨{ hfaced with }, by rw [← hnopairs hk]⟩
    cases hk : J.kind with
    | inner => exact hgo .inner hk
    | left => exact hgo .left hk
    | semi =>
      obtain ⟨hface, hcell'⟩ := hanswering (by rw [hk]; decide)
      exact hface.select (hp.nothing _) hcell' false hk hflags (hgo .semi hk)
    | anti =>
      obtain ⟨hface, hcell'⟩ := hanswering (by rw [hk]; decide)
      exact hface.select (hp.nothing _) hcell' true hk hflags (hgo .anti hk)
    | mark =>
      obtain ⟨hface, hcell'⟩ := hanswering (by rw [hk]; decide)
      rw [hk] at hform
      refine .filling ((JoinResult.marked_ends hfaced.sound hflags (fun a ha => ?_) hform).mono fun _ d hd =>
        hface.answered (hp.nothing _) hcell' (Nat.le_of_eq hd))
      obtain ⟨column, hcol, rfl⟩ := List.mem_map.mp ha
      exact hsizes column hcol

theorem ends_joinRight {keys : List Expr} (hright : Sure T right right.start.cells)
    (hcounted : right.rowsBelow right.start.cells ≤ maxCount) (hr : right.types = J.rightTypes)
    (hkey : KeyOn keys J.rightTypes J.common J.keys.right) (hkeys : Expr.Resolved J.rightTypes keys) :
    Ends (joinRight keys right p) f fun side g =>
      ((∃ rows, side.Indexes J.rightTypes J.common J.keys.right rows) ∧ side.rows ≤ right.rowsLeft right.start) ∧
        g.out = f.out ∧ g.below = f.below := by
  unfold joinRight
  refine (ends_drainRight (Q := fun side => (∃ rows, side.Indexes J.rightTypes J.common J.keys.right rows) ∧
    side.rows ≤ right.rowsLeft right.start) hright hcounted fun buffered rows g hrows hbounded => ?_).bind
    fun side g ⟨hside, hg⟩ => .step rfl (.pure ⟨hside, hg.out, hg.below⟩)
  obtain ⟨columns, hcolumns, hlists⟩ := hrows.materialize_ok
  rw [hr] at hlists
  rw [hcolumns, hrows.counted]
  refine .step (a := columns) rfl (.lift_bind (JoinSide.ofColumns_yields hlists hkeys).and_ok fun side ⟨_, hside⟩ => ?_)
  have hindexes := JoinSide.ofColumns_ok hlists hkey hside
  refine (Ends.reserve _).bind fun _ k hk => .pure ⟨⟨⟨rows, hindexes⟩, ?_⟩, hk⟩
  rw [hindexes.counted, ← hrows.counted]
  exact hbounded

theorem sure_join (hsees : ∀ masks, T.sees masks) (hverify : config.verify = false)
    (hl : left.types = J.leftTypes) (hr : right.types = J.rightTypes)
    (hleftKey : KeyOn (on.map Prod.fst) J.leftTypes J.common J.keys.left)
    (hrightKey : KeyOn (on.map Prod.snd) J.rightTypes J.common J.keys.right)
    (hleftKeys : Expr.Resolved J.leftTypes (on.map Prod.fst)) (hrightKeys : Expr.Resolved J.rightTypes (on.map Prod.snd))
    (hleft : Sure T left left.start.cells) (hright : Sure T right right.start.cells)
    (hcounted : right.rowsBelow right.start.cells ≤ maxCount)
    (hroom : config.capacity ≤ maxCount)
    (hmost : 2 * (join config J.kind on left right).rowsBelow (join config J.kind on left right).start.cells ≤ maxCount)
    (hgives : Gives T (join config J.kind on left right) (join config J.kind on left right) rows
      (join config J.kind on left right).start.cells) :
    Sure T (join config J.kind on left right) (join config J.kind on left right).start.cells := by
  let most := (right.rowsLeft right.start + 1) * left.rowsBelow left.start.cells
  have hmost : 2 * most ≤ maxCount := by
    have hstart : (join config J.kind on left right).rowsBelow (join config J.kind on left right).start.cells = 0 + most := rfl
    rw [hstart, Nat.zero_add] at hmost
    exact hmost
  refine Sure.of_work (K := Joinable T config left right J most) hsees hverify rfl hgives
    ⟨⟨none, [], 0⟩, rfl, hleft, Nat.le_refl _, .inl ⟨rfl, rfl, rfl⟩⟩ (fun _ _ => rfl)
    fun f hout hK => ?_
  obtain ⟨p, hp, hinput, hle, hheld⟩ := hK
  have hout : f.out = Chunk.blank J.types config.capacity := by
    rw [hout, JoinTerms.types, ← hl, ← hr]
    rfl
  refine .step rfl ?_
  simp only [hp]
  have hprobe {g : Frame} {side : JoinSide} (hbelow : g.below = f.below) (hog : g.out = f.out)
      (hpledged : Pledged config J right most g.cell.buffer { p with side := some side } side) :
      Ends
        (do
          let rounds := (← left.rounds) + 1
          lendingSide (probe J.kind (on.map Prod.fst) left right side rounds { p with side := some side }))
        g fun _ k => Spent T config on left right J most (owedLeft left { p with side := some side } side f.below) k := by
    refine .step rfl (lendingSide_ends ?_)
    rw [← hbelow]
    exact ends_probe hleftKey hleftKeys hl hr hroom hmost _ (hbelow ▸ hinput) (hbelow ▸ hle) hpledged (by omega)
      (hog.trans hout)
  rcases hheld with ⟨htaken, howed, hemitted⟩ | ⟨side, hpledged⟩
  · have hbefore : (join config J.kind on left right).rowsBelow f.cells =
        (p.pending.length - p.emitted) + (right.rowsLeft right.start + 1) * left.rowsBelow f.below := by
      simp only [Frame.cells, rowsBelow, join, hp, htaken, Option.elim_none]
    simp only [htaken, hbefore]
    refine (ends_joinRight hright hcounted hr hrightKey hrightKeys).bind fun side g hg => ?_
    obtain ⟨⟨hindexed, hfew⟩, hog, hbelow⟩ := hg
    refine (hprobe hbelow hog ⟨rfl, hindexed, hfew, fun hmore => ?_, fun _ => .inl hemitted, ?_⟩).mono fun _ k hk =>
      ⟨hk.1, hk.2.trans (Nat.add_le_add_left (Nat.mul_le_mul_right _ (Nat.succ_le_succ hfew)) _)⟩
    · have hmore : p.emitted < p.pending.length := hmore
      rw [howed] at hmore
      cases hmore
    · show p.pending.length ≤ most
      rw [howed]
      exact Nat.zero_le _
  · have htaken := hpledged.taken
    have hbefore : (join config J.kind on left right).rowsBelow f.cells = owedLeft left p side f.below :=
      join_left hp htaken
    simp only [htaken, hbefore]
    exact hprobe rfl rfl { hpledged with taken := rfl }

end

end Operator
end QueryEngine
