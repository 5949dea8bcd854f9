import QueryEngine.Proofs.Group.Failing
import QueryEngine.Proofs.Join.Hash
import QueryEngine.Proofs.Pull.Served

/-! Streams in groups.

Grouping a stream hands out a row for each of its groups, in the order in which they are
first seen: the key of the group's first row, then what each call says of the group's rows.
Bytes apart it fails just where a running total of an integer sum does not fit in 64 bits,
and this it does before it has handed out a row. -/
namespace QueryEngine

/-- Columns of scalars show them. -/
theorem ofScalars_datum {α : Type} {items : List α} {type : α → SqlType} {values : α → List Scalar} {cs : List Column}
    (h : items.mapM (fun a => Column.ofScalars (type a) (values a)) = .ok cs)
    (hfits : ∀ a ∈ items, ∀ v ∈ values a, v.Fits (type a)) (i : Nat) :
    (cs.map fun c => c.datum i) = items.map fun a => ⟨type a, (values a)[i]?.getD .null⟩ := by
  have hall := (forall₂_mem (mapM_eq_ok_iff.mp h)).imp fun a c ⟨ha, hc⟩ => Column.datum_ofScalars hc (hfits a ha) i
  clear h hfits
  induction hall with
  | nil => rfl
  | cons hc _ ih => rw [List.map_cons, List.map_cons, hc, ih]

namespace Group
variable {keys : List Expr} {calls : List AggregateCall} {types keyTypes : List SqlType} {rows group : List Row}
  {groups : List Group} {g : Group}

/-- A row that shows a group: its key as its first row has it, and a value for each call. -/
def Shows (keys : List Expr) (calls : List AggregateCall) (group : List Row) (row : Row) : Prop :=
  ∃ results, row = (group.head?.elim [] fun first => keys.map fun e => e.valueOn first) ++ results ∧
    List.Forall₂ (fun c d => d.type = c.type ∧ c.Says group d.value) calls results

/-- The columns of the groups have a group's key and values in its row. -/
theorem groupColumns_row {cs : List Column} (hfits : ∀ g ∈ groups, g.Fits types keyTypes calls)
    (hcs : Operator.groupColumns keyTypes calls groups = .ok cs) {i : Nat} (hi : groups[i]? = some g) :
    (cs.map fun c => c.datum i) = (keyTypes.zipIdx.map fun field => ⟨field.1, g.key.getD field.2 .null⟩) ++
      calls.zipIdx.map fun call => ⟨call.1.type, (g.accumulators[call.2]?.map Accumulator.value).getD .null⟩ := by
  obtain ⟨keyColumns, hkeyColumns, hcs⟩ := bind_eq_ok.mp hcs
  obtain ⟨results, hresults, hcs⟩ := bind_eq_ok.mp hcs
  cases hcs
  have hkey := ofScalars_datum hkeyColumns
    (fun field hfield => List.forall_mem_map.mpr fun g hg => (hfits g hg).key_value hfield) i
  have hresult := ofScalars_datum hresults
    (fun call hcall => List.forall_mem_map.mpr fun g hg => (hfits g hg).result_value hcall) i
  rw [List.map_append, hkey, hresult]
  simp only [List.getElem?_map, hi, Option.map_some, Option.getD_some]

/-- The values of the keys under their types are what the first row has. -/
theorem key_datums (hkeys : keys.mapM (Expr.resolve types) = .ok keyTypes) (hof : Of keys calls group g)
    (hsome : keys = [] ∨ group ≠ []) (htyped : ∀ row ∈ group, Typed types row)
    (hvalues : ∀ row ∈ group, Evaluates keys calls row) :
    (keyTypes.zipIdx.map fun field => (⟨field.1, g.key.getD field.2 .null⟩ : Datum)) =
      group.head?.elim [] fun first => keys.map fun e => e.valueOn first := by
  cases group with
  | nil =>
    obtain rfl := hsome.resolve_right fun hne => hne rfl
    cases hkeys
    rfl
  | cons first rest =>
    have hfirst := List.mem_cons_self (a := first) (l := rest)
    have hall := keys_typed hkeys (htyped first hfirst) (hvalues first hfirst)
    have hkey : g.key = keys.map fun e => (e.valueOn first).value := hof.key
    refine List.ext_getElem ?_ fun i hi hi' => ?_
    · rw [List.length_map, List.length_zipIdx, ← hall.length_eq]
      exact (List.length_map _).symm
    · have hi' : i < keys.length := by simpa using hi'
      obtain ⟨_, ht, rfl, _⟩ := forall₂_getElem? hall (List.getElem?_eq_getElem hi')
      obtain ⟨_, ht⟩ := List.getElem?_eq_some_iff.mp ht
      simp [hkey, hi', ht]

/-- The row of a group: its key as its first row has it, and what each call comes to after
its rows. -/
def RowOf (keys : List Expr) (calls : List AggregateCall) (group : List Row) (row : Row) : Prop :=
  ∃ accumulators, calls.mapM (fun c => c.folded group) = .ok accumulators ∧
    row = (group.head?.elim [] fun first => keys.map fun e => e.valueOn first) ++
      (calls.zip accumulators).map fun p => ⟨p.1.type, p.2.value⟩

/-- The row of a group shows it. -/
theorem RowOf.shows {row : Row} (hcalls : ∀ c ∈ calls, c.Resolved types) (h : RowOf keys calls group row) :
    Shows keys calls group row := by
  obtain ⟨accumulators, hfolded, rfl⟩ := h
  have hlength := length_of_mapM hfolded
  refine ⟨_, rfl, List.forall₂_iff_get.mpr ⟨by simp [hlength], fun i hi _ => ?_⟩⟩
  have hcall : calls[i]? = some calls[i] := List.getElem?_eq_getElem hi
  obtain ⟨a, ha, hsaid⟩ := forall₂_getElem? (mapM_eq_ok_iff.mp hfolded) hcall
  obtain ⟨_, rfl⟩ := List.getElem?_eq_some_iff.mp ha
  rcases AggregateCall.folded_says (hcalls _ (List.getElem_mem hi)).argument_eq_none_iff group with
    ⟨a', ha', hsays, _⟩ | ⟨herror, _⟩
  · cases hsaid.symm.trans ha'
    simpa using hsays
  · cases hsaid.symm.trans herror

/-- What stands in the columns of the groups is the row of the group. -/
theorem Of.row (hkeys : keys.mapM (Expr.resolve types) = .ok keyTypes) (hof : Of keys calls group g)
    (hsome : keys = [] ∨ group ≠ []) (htyped : ∀ row ∈ group, Typed types row)
    (hvalues : ∀ row ∈ group, Evaluates keys calls row) :
    RowOf keys calls group ((keyTypes.zipIdx.map fun field => ⟨field.1, g.key.getD field.2 .null⟩) ++
      calls.zipIdx.map fun call => ⟨call.1.type, (g.accumulators[call.2]?.map Accumulator.value).getD .null⟩) := by
  refine ⟨g.accumulators, hof.folded, ?_⟩
  rw [key_datums hkeys hof hsome htyped hvalues]
  congr 1
  have hlength := length_of_mapM hof.folded
  refine List.ext_getElem (by simp [hlength]) fun i hi hi' => ?_
  have hi : i < g.accumulators.length := by simpa [hlength] using hi
  simp [List.getElem?_eq_getElem hi]

/-- The rows of the columns of the groups are those of the groups, one after the other. -/
theorem rowOf_toRows (hkeys : keys.mapM (Expr.resolve types) = .ok keyTypes) (hcalls : ∀ c ∈ calls, c.Resolved types)
    (htyped : ∀ row ∈ rows, Typed types row) (hvalues : ∀ row ∈ rows, Evaluates keys calls row)
    (hgroups : groupsOf keys calls rows = .ok groups) {cs : List Column}
    (hcs : Operator.groupColumns keyTypes calls groups = .ok cs) :
    ¬Overflowing keys calls rows ∧
      List.Forall₂ (RowOf keys calls) (split keys rows) (Column.toRows cs groups.length) := by
  rcases groupsOf_of_rows (fun c hc => (hcalls c hc).argument_eq_none_iff) rows with
    ⟨groups', hgroups', hof, hrange⟩ | ⟨herror, _⟩
  · cases hgroups.symm.trans hgroups'
    obtain ⟨hlength, hof⟩ := List.forall₂_iff_get.mp hof
    refine ⟨hrange, List.forall₂_iff_get.mpr ⟨by rw [Column.length_toRows, hlength], fun i hi hi' => ?_⟩⟩
    have hig : i < groups.length := hlength ▸ hi
    have hmem : (split keys rows).get ⟨i, hi⟩ ∈ split keys rows := List.get_mem ..
    obtain ⟨hsome, hrows⟩ := mem_split hmem
    have hrow : (Column.toRows cs groups.length).get ⟨i, hi'⟩ = cs.map fun c => c.datum i := by simp [Column.toRows]
    rw [hrow, groupColumns_row (columns_of_groups hkeys hcalls htyped hvalues hgroups).1 hcs (List.getElem?_eq_getElem hig)]
    exact (hof i hi hig).row hkeys hsome (fun row hr => htyped row (hrows row hr)) fun row hr => hvalues row (hrows row hr)
  · cases hgroups.symm.trans herror

/-- The rows of the columns of the groups show the groups, one after the other. -/
theorem shows_toRows (hkeys : keys.mapM (Expr.resolve types) = .ok keyTypes) (hcalls : ∀ c ∈ calls, c.Resolved types)
    (htyped : ∀ row ∈ rows, Typed types row) (hvalues : ∀ row ∈ rows, Evaluates keys calls row)
    (hgroups : groupsOf keys calls rows = .ok groups) {cs : List Column}
    (hcs : Operator.groupColumns keyTypes calls groups = .ok cs) :
    ¬Overflowing keys calls rows ∧
      List.Forall₂ (Shows keys calls) (split keys rows) (Column.toRows cs groups.length) :=
  (rowOf_toRows hkeys hcalls htyped hvalues hgroups hcs).imp_right fun hrows => hrows.imp fun _ _ hrow => hrow.shows hcalls

end Group

namespace Operator
open QueryEngine.Group (Evaluates Overflowing Shows split)
variable {sees : List (Nat × Mask) → Prop} {input : Operator} {rows : List Row}

/-- What the first pull of a fresh state comes to. -/
def first (op : Operator) (session : Session) (out : Chunk) : EStateM.Result Failure Frame Unit :=
  op.pull ⟨op.start.cell, op.start.below, session, out⟩

/-- A run that handed out a chunk began with a first pull that succeeded. -/
theorem Pulls.first_ok {op : Operator} {chunks : List Chunk} {s : State} (h : op.Pulls sees op.start chunks s)
    (hne : chunks ≠ []) : ∃ session out f, op.first session out = .ok () f := by
  cases h with
  | none => exact absurd rfl hne
  | next _ hpull _ => exact ⟨_, _, _, hpull⟩

/-- What the first pull leaves, where it is refused bytes. -/
def refused (op : Operator) (session : Session) : Option Frame :=
  match op.first session Chunk.fresh with
  | .error (.error (.resourceExhausted _)) f => some f
  | _ => none

/-- A sum left its range. -/
def overflowed : EStateM.Result Failure Frame Unit → Bool
  | .error (.error (.execution .sumOverflow)) _ => true
  | _ => false

theorem of_overflowed {r : EStateM.Result Failure Frame Unit} (h : overflowed r = true) :
    ∃ f, r = .error (.error (.execution .sumOverflow)) f := by
  unfold overflowed at h
  split at h
  · exact ⟨_, rfl⟩
  · cases h

theorem blocking_aggregate (config : Config) (keys : List Expr) (keyTypes : List SqlType) (calls : List AggregateCall)
    (input : Operator) :
    Blocking config (aggregate config keys keyTypes calls input) input .aggregate (groupInput keys keyTypes calls input) fun
      | .aggregate (some o) => handOut .aggregate o
      | .aggregate none => do handOut .aggregate (← firstOutput .aggregate (groupInput keys keyTypes calls input))
      | _ => Pull.fail (.internal (.otherState "HashAggregate")) :=
  ⟨rfl, rfl, fun _ => rfl, rfl⟩

/-- A first pull of a grouping that fails was refused bytes, or a sum left its range. -/
theorem first_aggregate_error {config : Config} {keys : List Expr} {keyTypes : List SqlType} {calls : List AggregateCall}
    {R : List Row → List Row → Prop} (hkeys : keys.mapM (Expr.resolve input.types) = .ok keyTypes)
    (hcalls : ∀ c ∈ calls, c.Resolved input.types) (h : input.Streams sees rows)
    (hfeeds : input.Feeds sees input.start.cells) (hvalues : ∀ row ∈ rows, Evaluates keys calls row)
    (hmade : ∀ f given, Gives ⟨0, False, True, sees⟩ input input given f.below → sees f.session.masks →
      Pull.Agree (groupInput keys keyTypes calls input) (groupInput keys keyTypes calls input) f
        (Made sees (aggregate config keys keyTypes calls input).types R given f))
    {session : Session} {out : Chunk} (hs : sees session.masks) {e : Failure} {g : Frame}
    (hg : (aggregate config keys keyTypes calls input).first session out = .error e g) (hroom : ¬e.Refused) :
    e = .error (.execution .sumOverflow) ∧ Overflowing keys calls rows := by
  have hop := blocking_aggregate config keys keyTypes calls input
  have hreason : e.RefusedOr (groupsOf keys calls rows) :=
    hop.first_fails (hop.unstarted h) hmade hs (fails_groupInput hkeys hcalls h hfeeds hs hvalues) hg
  obtain ⟨q, rfl, hq⟩ := hreason.resolve_left hroom
  rcases groupsOf_of_rows (fun c hc => (hcalls c hc).argument_eq_none_iff) rows with ⟨_, hok, _⟩ | ⟨herror, hover⟩
  · cases hq.symm.trans hok
  · cases hq.symm.trans herror
    exact ⟨rfl, hover⟩

/-- Where no bytes are refused, grouping fails just where a sum leaves its range. A grouping
that does not fail hands out a row for each group, in full chunks, and then nothing more. -/
theorem aggregate_handsOut_groups (config : Config) {keys exprs : List Expr} {keyTypes : List SqlType}
    {calls : List AggregateCall} (hkeys : keys.mapM (Expr.resolve input.types) = .ok keyTypes)
    (hcalls : exprs.mapM (AggregateCall.ofExpr input.types) = .ok calls) (h : input.Streams sees rows)
    (hfeeds : input.Feeds sees input.start.cells) (hvalues : ∀ row ∈ rows, Evaluates keys calls row) :
    (∀ session out, sees session.masks →
      (∀ e g, (aggregate config keys keyTypes calls input).first session out = .error e g → ¬e.Refused) →
        ((∃ e g, (aggregate config keys keyTypes calls input).first session out = .error e g) ↔
          Overflowing keys calls rows) ∧
        ∀ e g, (aggregate config keys keyTypes calls input).first session out = .error e g →
          e = .error (.execution .sumOverflow)) ∧
    ∀ chunks s, (aggregate config keys keyTypes calls input).Pulls sees
      (aggregate config keys keyTypes calls input).start chunks s → chunks ≠ [] →
        ∃ all, List.Forall₂ (Shows keys calls) (split keys rows) all ∧
          (rows = [] → all.length = if keys = [] then 1 else 0) ∧
          HandsOut (aggregate config keys keyTypes calls input) config.capacity all chunks s := by
  have hresolved := AggregateCall.resolved_of_mapM hcalls
  have hop := blocking_aggregate config keys keyTypes calls input
  have hmade (f : Frame) (given : List Row) (hgiven : Gives ⟨0, False, True, sees⟩ input input given f.below)
      (hs : sees f.session.masks) :
      Pull.Agree (groupInput keys keyTypes calls input) (groupInput keys keyTypes calls input) f
        (Made sees (aggregate config keys keyTypes calls input).types (fun given all =>
          (∀ row ∈ given, Evaluates keys calls row) →
            ¬Overflowing keys calls given ∧ List.Forall₂ (Shows keys calls) (split keys given) all) given f) := by
    refine (agree_groupInput_made keyTypes hgiven hs).mono fun o g hg => ?_
    obtain ⟨groups, cs, hcs, rfl, htold⟩ := hg.made
    obtain ⟨hgroups, htyped⟩ := htold trivial
    exact ⟨hg.sees, hg.out, hg.unfinished, rfl, _, ⟨fun _ => groupColumns_ok hcs, (Column.length_toRows _ _).symm⟩,
      fun hvalues => Group.shows_toRows hkeys hresolved htyped hvalues hgroups hcs⟩
  have hstart := hop.unstarted h
  refine ⟨fun session out hs hroom => ?_, fun chunks s hrun hne => ?_⟩
  · have hfails (e : Failure) (g : Frame) (hg : (aggregate config keys keyTypes calls input).first session out = .error e g) :=
      first_aggregate_error hkeys hresolved h hfeeds hvalues hmade hs hg (hroom e g hg)
    refine ⟨⟨?_, fun hover => ?_⟩, fun e g hg => (hfails e g hg).1⟩
    · rintro ⟨e, g, hg⟩
      exact (hfails e g hg).2
    cases hfirst : (aggregate config keys keyTypes calls input).first session out with
    | error e g => exact ⟨e, g, rfl⟩
    | ok a g =>
      obtain ⟨_, _, _, hR, _⟩ := hop.first hstart hmade hs hfirst
      exact absurd hover (hR hvalues).1
  · obtain ⟨all, hall, hout⟩ := hop.handsOut h hmade hrun hne
    refine ⟨all, (hall hvalues).2, fun hnone => ?_, hout⟩
    rw [← (hall hvalues).2.length_eq, hnone, split]
    cases keys <;> rfl

/-- NULL keys of two rows are one group, and a group has rows in two chunks, one of them
without an argument. A sum that leaves its range on the way fails although its total fits. -/
theorem aggregate_handsOut_groups_nulls :
    let config : Config := ⟨2, none, false⟩
    let keys : List Expr := [.column 0 .bigInt]
    let exprs : List Expr := [.aggregate .countStar [], .aggregate .count [.column 1 .bigInt],
      .aggregate .sum [.column 1 .bigInt], .aggregate .min [.column 1 .bigInt]]
    let first : Chunk := ⟨[.ofInts [2, 9, 1], .ofInts [5, 9, 7]], some [0, 2], 2, 3⟩
    let second : Chunk := ⟨[.nulls .bigInt 2, .ofInts [4, 6]], none, 2, 2⟩
    let third : Chunk := ⟨[.ofInts [2], .nulls .bigInt 1], none, 1, 1⟩
    let excess : Chunk := ⟨[.ofInts [1, 1, 1], .ofInts [0x7fffffffffffffff, 1, -1]], none, 3, 3⟩
    let input := source config [.bigInt, .bigInt] [first, second, third]
    let rows := [first, second, third].flatMap Chunk.rows
    let excessRows := [excess].flatMap Chunk.rows
    ∃ calls chunks s, exprs.mapM (AggregateCall.ofExpr input.types) = .ok calls ∧
      (aggregate config keys [.bigInt] calls input).Pulls (fun _ => True)
        (aggregate config keys [.bigInt] calls input).start chunks s ∧
      chunks.map Chunk.count = [2, 1, 0] ∧ ¬Overflowing keys calls rows ∧ Overflowing keys calls excessRows ∧
      ∃ all, List.Forall₂ (Shows keys calls) (split keys rows) all ∧
        HandsOut (aggregate config keys [.bigInt] calls input) config.capacity all chunks s := by
  intro config keys exprs first second third excess input rows excessRows
  let tight := source config [.bigInt, .bigInt] [excess]
  have hcalls : ∃ calls, exprs.mapM (AggregateCall.ofExpr input.types) = .ok calls ∧
      ((aggregate config keys [.bigInt] calls input).pullTimes 3 (aggregate config keys [.bigInt] calls input).start
        (Session.ofLimit? none)).map (List.map Chunk.count) = some [2, 1, 0] ∧
      overflowed ((aggregate config keys [.bigInt] calls tight).first (Session.ofLimit? none) Chunk.fresh) = true ∧
      ((rows ++ excessRows).all fun row => (keys ++ calls.filterMap AggregateCall.argument).all fun e =>
        (e.onRow row).toOption.isSome) = true := ⟨_, rfl, by decide +kernel, by decide +kernel, by decide +kernel⟩
  obtain ⟨calls, hcalls, hpulled, hover, hvalues⟩ := hcalls
  obtain ⟨chunks, s, hrun, hcounts⟩ := pulls_of_map (fun _ => trivial) hpulled
  have hsound : ∀ c ∈ [first, second, third, excess], c.Sound ∧ c.types = [.bigInt, .bigInt] ∧ c.isEmpty = false := by decide
  have hvalues (row : Row) (hrow : row ∈ rows ++ excessRows) : Evaluates keys calls row :=
    Group.evaluates_of_all (List.all_eq_true.mp hvalues row hrow)
  have hne : chunks ≠ [] := by
    rintro rfl
    cases hcounts
  have hkeys : keys.mapM (Expr.resolve input.types) = .ok [.bigInt] := rfl
  have htight : keys.mapM (Expr.resolve tight.types) = .ok [.bigInt] := rfl
  obtain ⟨hfits, hgroups⟩ := aggregate_handsOut_groups config hkeys hcalls
    (source_streams config (fun _ => True) fun c hc => hsound c (List.mem_append_left [excess] hc))
    (source_feeds config fun c hc => (hsound c (List.mem_append_left [excess] hc)).1)
    fun row hrow => hvalues row (List.mem_append_left _ hrow)
  obtain ⟨hfails, _⟩ := aggregate_handsOut_groups config htight hcalls
    (source_streams config (fun _ => True) fun c hc => hsound c (List.mem_append_right [first, second, third] hc))
    (source_feeds config fun c hc => (hsound c (List.mem_append_right [first, second, third] hc)).1)
    fun row hrow => hvalues row (List.mem_append_right _ hrow)
  obtain ⟨session, out, g, hok⟩ := hrun.first_ok hne
  obtain ⟨all, hall, -, hout⟩ := hgroups chunks s hrun hne
  refine ⟨calls, chunks, s, hcalls, hrun, hcounts, fun hover => ?_, ?_, all, hall, hout⟩
  · obtain ⟨e, g', hg'⟩ := (hfits session out trivial fun e g' hg' => by cases hok.symm.trans hg').1.mpr hover
    cases hok.symm.trans hg'
  · obtain ⟨f, hover⟩ := of_overflowed hover
    refine (hfails (Session.ofLimit? none) Chunk.fresh trivial fun e f' hf' hrefused => ?_).1.mp ⟨_, f, hover⟩
    cases hover.symm.trans hf'
    exact hrefused

end Operator
end QueryEngine
