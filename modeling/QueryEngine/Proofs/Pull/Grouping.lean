import QueryEngine.Proofs.Expr.RowTyping
import QueryEngine.Proofs.Expr.Rowwise
import QueryEngine.Proofs.Key.Lookup
import QueryEngine.Proofs.Pull.Buffered
import QueryEngine.Pull.Grouping

/-! What grouping gives.

The groups are a fold over the rows of the input (`groupOne`), whatever chunks the
rows came in, and the output has a row for each of them. -/
namespace QueryEngine

/-! ### Groups of rows -/

namespace Group

/-- What the calls take on a row. -/
def argumentsOn (calls : List AggregateCall) (row : Row) : List (Option Scalar) :=
  calls.map fun c => c.argument.map fun e => (e.valueOn row).value

theorem updateAll_ok {row : Nat} {pairs : List (Accumulator × Option Column)} {accumulators : List Accumulator}
    (h : updateAll row pairs = .ok accumulators) :
    (pairs.map fun p => (p.1, p.2.map fun c => (c.datum row).value)).mapM (fun p => p.1.update p.2) =
      .ok accumulators := by
  induction pairs generalizing accumulators with
  | nil => exact h
  | cons p pairs ih =>
    obtain ⟨a, argument⟩ := p
    rw [List.map_cons, List.mapM_cons]
    cases argument with
    | none =>
      obtain ⟨b, hb, h⟩ := bind_eq_ok.mp h
      obtain ⟨rest, hrest, h⟩ := bind_eq_ok.mp h
      simp only [Option.map_none, hb, ok_bind, ih hrest]
      exact h
    | some c =>
      obtain ⟨v, hv, h⟩ := bind_eq_ok.mp h
      obtain ⟨b, hb, h⟩ := bind_eq_ok.mp h
      obtain ⟨rest, hrest, h⟩ := bind_eq_ok.mp h
      simp only [Option.map_some, ← Column.get_ok hv, hb, ok_bind, ih hrest]
      exact h

end Group

/-- The groups after one more row. -/
def groupOne (keys : List Expr) (calls : List AggregateCall) (groups : KeyMap Group) (row : Row) :
    Except QueryError (KeyMap Group) := do
  let key : Key := keys.map fun e => (e.valueOn row).value
  let group := (groups.get? key).getD (Group.start calls key)
  let accumulators ← (group.accumulators.zip (Group.argumentsOn calls row)).mapM fun p => p.1.update p.2
  return groups.put key { group with accumulators := accumulators }

/-- The groups of some rows. -/
def groupsOf (keys : List Expr) (calls : List AggregateCall) (rows : List Row) : Except QueryError (List Group) := do
  let groups ← rows.foldlM (groupOne keys calls) .empty
  return if groups.values.isEmpty && keys.isEmpty then [Group.start calls []] else groups.values

theorem groupsOf_of_folded {keys : List Expr} {calls : List AggregateCall} {rows : List Row} {groups : KeyMap Group}
    (h : rows.foldlM (groupOne keys calls) .empty = .ok groups) :
    groupsOf keys calls rows =
      .ok (if groups.values.isEmpty && keys.isEmpty then [Group.start calls []] else groups.values) := by
  rw [groupsOf, h]
  rfl

/-- The rows of the groups, if there are groups. -/
def groupedRows (keys : List Expr) (keyTypes : List SqlType) (calls : List AggregateCall) (rows : List Row) :
    List Row :=
  match (do
    let groups ← groupsOf keys calls rows
    return Column.toRows (← Operator.groupColumns keyTypes calls groups) groups.length) with
  | .ok rows => rows
  | .error _ => []

theorem groupedRows_of_ok {keys : List Expr} {keyTypes : List SqlType} {calls : List AggregateCall} {rows : List Row}
    {groups : List Group} {cs : List Column} (h : groupsOf keys calls rows = .ok groups)
    (hcs : Operator.groupColumns keyTypes calls groups = .ok cs) :
    groupedRows keys keyTypes calls rows = Column.toRows cs groups.length := by
  rw [groupedRows, h, ok_bind, hcs]
  rfl

/-- Columns of scalars, all as long. -/
theorem ofScalars_all {α : Type} {items : List α} {type : α → SqlType} {values : α → List Scalar} {n : Nat}
    {cs : List Column} (hn : ∀ a, (values a).length = n)
    (h : items.mapM (fun a => Column.ofScalars (type a) (values a)) = .ok cs) :
    cs.map Column.type = items.map type ∧ ∀ c ∈ cs, c.size = n := by
  refine ⟨?_, fun c hc => ?_⟩
  · have hall := mapM_eq_ok_iff.mp h
    clear h
    induction hall with
    | nil => rfl
    | cons hc _ ih => rw [List.map_cons, List.map_cons, (Column.ofScalars_ok hc).1, ih]
  · obtain ⟨a, _, ha⟩ := mem_of_mapM h hc
    rw [(Column.ofScalars_ok ha).2, hn]

namespace Operator

theorem groupColumns_ok {keyTypes : List SqlType} {calls : List AggregateCall} {groups : List Group}
    {cs : List Column} (h : groupColumns keyTypes calls groups = .ok cs) :
    Lists cs (keyTypes ++ calls.map AggregateCall.type) (Column.toRows cs groups.length) := by
  obtain ⟨keys, hkeys, h⟩ := bind_eq_ok.mp h
  obtain ⟨results, hresults, h⟩ := bind_eq_ok.mp h
  cases h
  obtain ⟨hkeyTypes, hkeySizes⟩ := ofScalars_all (fun _ => List.length_map _) hkeys
  obtain ⟨htypes, hsizes⟩ := ofScalars_all (fun _ => List.length_map _) hresults
  refine Lists.of_sizes ?_ fun c hc => ?_
  · rw [List.map_append, hkeyTypes, htypes, List.zipIdx_map_fst]
    congr 1
    conv_rhs => rw [← List.zipIdx_map_fst 0 calls, List.map_map]
    rfl
  · rcases List.mem_append.mp hc with hc | hc
    · exact hkeySizes c hc
    · exact hsizes c hc

/-! ### The pull -/

section
variable {T : Terms} {in₁ in₂ : Operator} {given : List Row} {f : Frame} {keys : List Expr}
  {calls : List AggregateCall}

/-- The columns of a chunk that grouping reads: what its rows have in the active places. -/
structure GroupsBy (keys : List Expr) (calls : List AggregateCall) (chunk : Chunk) (keyColumns : List Column)
    (arguments : List (Option Column)) : Prop where
  keys : ∀ r ∈ chunk.activeRows, (keyColumns.map fun c => c.datum r) = keys.map (Expr.valueOn (chunk.row r))
  arguments : ∀ r ∈ chunk.activeRows,
    (arguments.map fun a => a.map fun c => (c.datum r).value) = Group.argumentsOn calls (chunk.row r)

theorem GroupsBy.key_eq {chunk : Chunk} {keyColumns : List Column} {arguments : List (Option Column)}
    (h : GroupsBy keys calls chunk keyColumns arguments) {r : Nat} (hr : r ∈ chunk.activeRows) {key : Key}
    (hkey : Key.ofRow keyColumns r = .ok key) : key = keys.map fun e => (e.valueOn (chunk.row r)).value := by
  have hmap := congrArg (List.map Datum.value) (h.keys r hr)
  rw [List.map_map, List.map_map] at hmap
  rw [Key.ofRow_ok hkey]
  exact hmap

theorem agree_groupRow {chunk : Chunk} {keyColumns : List Column} {arguments : List (Option Column)}
    (h : GroupsBy keys calls chunk keyColumns arguments) {r : Nat} (hr : r ∈ chunk.activeRows)
    (groups : KeyMap Group) :
    Pull.Agree (groupRow calls keyColumns arguments groups r) (groupRow calls keyColumns arguments groups r) f
      fun groups' g => groupOne keys calls groups (chunk.row r) = .ok groups' ∧ Pull.Booked f g := by
  unfold groupRow
  refine Pull.Agree.liftQuery_bind fun key hkey => ?_
  have hkey := h.key_eq hr hkey
  have hadd (group : Group) (g : Frame) (hgroup : (groups.get? key).getD (Group.start calls key) = group)
      (hg : Pull.Booked f g) :
      Pull.Agree (do return groups.put key (← group.addRow arguments r))
        (do return groups.put key (← group.addRow arguments r)) g fun groups' g =>
          groupOne keys calls groups (chunk.row r) = .ok groups' ∧ Pull.Booked f g := by
    refine Pull.Agree.liftQuery_bind fun group' hgroup' => Pull.Agree.pure ⟨?_, hg⟩
    obtain ⟨accumulators, haccumulators, hgroup'⟩ := bind_eq_ok.mp hgroup'
    cases hgroup'
    have hupdate := Group.updateAll_ok haccumulators
    unfold groupOne
    simp only [← hkey, hgroup, ← h.arguments r hr, List.zip_map_right]
    rw [show (Prod.map id (Option.map fun c : Column => (c.datum r).value) :
      Accumulator × Option Column → Accumulator × Option Scalar) =
        fun p => (p.1, p.2.map fun c => (c.datum r).value) from rfl, hupdate]
    rfl
  cases hget : groups.get? key with
  | some group => exact hadd group f (by rw [hget, Option.getD_some]) (Pull.Booked.self f)
  | none =>
    refine (Pull.Agree.reserve _).bind fun _ g hg => ?_
    exact hadd (Group.start calls key) g (by rw [hget, Option.getD_none]) hg

theorem agree_groupRows {chunk : Chunk} {keyColumns : List Column} {arguments : List (Option Column)}
    (h : GroupsBy keys calls chunk keyColumns arguments) {rs : List Nat} (hrs : ∀ r ∈ rs, r ∈ chunk.activeRows)
    (groups : KeyMap Group) :
    Pull.Agree (groupRows calls keyColumns arguments groups rs) (groupRows calls keyColumns arguments groups rs) f
      fun groups' g => (rs.map chunk.row).foldlM (groupOne keys calls) groups = .ok groups' ∧ Pull.Booked f g := by
  induction rs generalizing f groups with
  | nil => exact Pull.Agree.pure ⟨rfl, Pull.Booked.self f⟩
  | cons r rs ih =>
    rw [groupRows]
    refine (agree_groupRow h (hrs r (List.mem_cons_self ..)) groups).bind fun groups' g ⟨hgroups', hg⟩ => ?_
    refine (ih (fun r' hr' => hrs r' (List.mem_cons_of_mem _ hr')) groups').mono fun _ _ ⟨hrest, hk⟩ => ⟨?_, hg.trans hk⟩
    rw [List.map_cons, List.foldlM_cons, hgroups', ok_bind, hrest]

theorem groupsBy_of_ok {chunk : Chunk} (hc : chunk.Sound) {keyColumns : List Column} {arguments : List (Option Column)}
    (hkeys : keys.mapM (Expr.evaluate chunk) = .ok keyColumns)
    (harguments : calls.mapM (fun c : AggregateCall => (c.argument.mapM (Expr.evaluate chunk) : Except Failure _)) =
      .ok arguments) : GroupsBy keys calls chunk keyColumns arguments := by
  refine ⟨(Expr.evaluateAll_ok hc hkeys).2, fun r hr => ?_⟩
  have hall := mapM_eq_ok_iff.mp harguments
  clear harguments
  induction hall with
  | nil => rfl
  | @cons call a _ _ ha _ ih =>
    rw [List.map_cons, ih, Group.argumentsOn, Group.argumentsOn, List.map_cons]
    congr 1
    cases hcall : call.argument with
    | none =>
      rw [hcall] at ha
      cases ha
      rfl
    | some e =>
      rw [hcall] at ha
      obtain ⟨c, hcol, ha⟩ := bind_eq_ok.mp ha
      cases ha
      rw [Option.map_some, Option.map_some, Expr.valueOn_of_ok ((Expr.evaluate_rowwise hc hcol).value r hr)]

theorem agree_groupChunk {chunk : Chunk} (hc : chunk.Sound) (groups : KeyMap Group) :
    Pull.Agree (groupChunk keys calls groups chunk) (groupChunk keys calls groups chunk) f fun groups' g =>
      chunk.rows.foldlM (groupOne keys calls) groups = .ok groups' ∧ Pull.Booked f g := by
  unfold groupChunk
  rw [mapM_lift]
  refine Pull.Agree.lift_bind fun keyColumns hkeys => Pull.Agree.lift_bind fun arguments harguments => ?_
  exact agree_groupRows (groupsBy_of_ok hc hkeys harguments) (fun _ hr => hr) groups

theorem agree_groupChunks (rounds : Nat) (groups : KeyMap Group) (h : Gives T in₁ in₂ given f.below)
    (hs : T.sees f.session.masks) :
    Pull.Agree (groupChunks keys calls in₁ rounds groups) (groupChunks keys calls in₂ rounds groups) f
      fun groups' g => T.sees g.session.masks ∧ g.out = f.out ∧ g.cell.finished = f.cell.finished ∧
        (T.told → given.foldlM (groupOne keys calls) groups = .ok groups' ∧ ∀ row ∈ given, Typed in₁.types row) := by
  induction rounds generalizing f groups given with
  | zero => exact Pull.Agree.throw
  | succ rounds ih =>
    rw [groupChunks, groupChunks]
    refine (h.fetch hs).bind fun chunk g hg => ?_
    obtain ⟨rest, hrest, htold⟩ := hg.left
    have hfinished : g.cell.finished = f.cell.finished := by rw [hg.cell]
    refine Pull.Agree.ite (fun he => ?_) fun he => ?_
    · refine Pull.Agree.pure ⟨hg.sees, hg.out, hfinished, fun ht => ?_⟩
      rw [(htold ht).1, (htold ht).2 he, hg.handed.sound.rows_eq_nil_iff.mpr he]
      exact ⟨rfl, nofun⟩
    · refine (agree_groupChunk hg.handed.sound groups).bind fun groups' g' ⟨hgroups', held, pool, hg'⟩ => ?_
      have hrest' : Gives T in₁ in₂ rest g'.below := by rw [hg']; exact hrest
      have hsees' : T.sees g'.session.masks := by rw [hg']; exact hg.sees
      refine (ih groups' hrest' hsees').mono fun _ k ⟨hsees, hout, hf, hfold⟩ => ?_
      refine ⟨hsees, ?_, ?_, fun ht => ?_⟩
      · rw [hout, hg', hg.out]
      · rw [hf, hg', hfinished]
      · obtain ⟨hfold, htyped⟩ := hfold ht
        rw [(htold ht).1, List.foldlM_append, hgroups', ok_bind, hfold]
        refine ⟨rfl, fun row hrow => ?_⟩
        rcases List.mem_append.mp hrow with hrow | hrow
        · exact hg.handed.typed ▸ Chunk.typed_of_mem_rows hrow
        · exact htyped row hrow

/-- What grouping all rows of the input leaves. -/
structure Grouped (T : Terms) (types keyTypes : List SqlType) (keys : List Expr) (calls : List AggregateCall)
    (given : List Row) (f : Frame) (o : Output) (g : Frame) : Prop where
  sees : T.sees g.session.masks
  out : g.out = f.out
  unfinished : g.cell.finished = f.cell.finished
  made : ∃ groups cs, groupColumns keyTypes calls groups = .ok cs ∧ o = ⟨cs, groups.length, 0⟩ ∧
    (T.told → groupsOf keys calls given = .ok groups ∧ ∀ row ∈ given, Typed types row)

theorem agree_groupInput_made (keyTypes : List SqlType) (h : Gives T in₁ in₂ given f.below)
    (hs : T.sees f.session.masks) :
    Pull.Agree (groupInput keys keyTypes calls in₁) (groupInput keys keyTypes calls in₂) f
      (Grouped T in₁.types keyTypes keys calls given f) := by
  unfold groupInput
  rw [h.alike.rounds]
  refine Pull.Agree.step rfl ?_
  refine (agree_groupChunks _ .empty h hs).bind fun groups g ⟨hsees, hout, hf, hfold⟩ => ?_
  refine Pull.Agree.liftQuery_bind fun cs hcs => Pull.Agree.pure ⟨hsees, hout, hf, _, cs, hcs, rfl, fun ht => ?_⟩
  obtain ⟨hfold, htyped⟩ := hfold ht
  exact ⟨groupsOf_of_folded hfold, htyped⟩

theorem agree_groupInput (keyTypes : List SqlType) (h : Gives T in₁ in₂ given f.below)
    (hs : T.sees f.session.masks) :
    Pull.Agree (groupInput keys keyTypes calls in₁) (groupInput keys keyTypes calls in₂) f
      (Computed T (keyTypes ++ calls.map AggregateCall.type) (groupedRows keys keyTypes calls) given f) := by
  refine (agree_groupInput_made keyTypes h hs).mono fun o g hg => ?_
  obtain ⟨groups, cs, hcs, rfl, htold⟩ := hg.made
  exact ⟨hg.sees, hg.out, hg.unfinished, rfl, _, ⟨fun _ => groupColumns_ok hcs, (Column.length_toRows _ _).symm⟩,
    fun ht => (groupedRows_of_ok (htold ht).1 hcs).symm⟩

theorem gives_aggregate {c₁ c₂ : Config} (h₁ : c₁.capacity = T.capacity) (h₂ : c₂.capacity = T.capacity)
    (keys : List Expr) (keyTypes : List SqlType) (calls : List AggregateCall)
    (h : Gives T in₁ in₂ given in₁.start.cells) :
    Gives T (aggregate c₁ keys keyTypes calls in₁) (aggregate c₂ keys keyTypes calls in₂)
      (groupedRows keys keyTypes calls given) (aggregate c₁ keys keyTypes calls in₁).start.cells := by
  have halike : Alike (aggregate c₁ keys keyTypes calls in₁) (aggregate c₂ keys keyTypes calls in₂) :=
    ⟨rfl, rfl, congrArg (State.above (.aggregate none)) h.alike.start,
      by simp only [aggregate, h.alike.outputLeft]⟩
  refine Gives.of_work (K := Buffered T in₁ in₂ .aggregate (keyTypes ++ calls.map AggregateCall.type)
    (groupedRows keys keyTypes calls)) halike h₁ h₂ rfl rfl (fun f rows hf hout hK hs => ?_) rfl
    (.inl ⟨rfl, given, h, fun _ => rfl⟩)
  refine Pull.Agree.step rfl ?_
  rcases hK with ⟨hp, hK⟩ | ⟨o, all, hp, ho, hrows⟩
  · simp only [hp]
    exact agree_firstOutput (fun f given h hs => agree_groupInput keyTypes h hs) hf hout hs hK
  · simp only [hp]
    exact agree_handOut hf hout hs ho hrows

end

end Operator
end QueryEngine
