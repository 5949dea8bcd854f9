import QueryEngine.Proofs.Group.Declared
import QueryEngine.Proofs.Pull.Feeds
import QueryEngine.Proofs.Pull.SureGrouping

/-! How grouping fails.

Where the keys and the arguments have values on every row, grouping the rows of an input
fails only where bytes are refused, or as grouping the rows one after the other does, whatever
chunks they came in (`fails_groupInput`). In particular the columns of the groups can always
be made, for a group is fit for its keys and calls (`Group.Of.fits`). -/
namespace QueryEngine

/-- The failure is for want of bytes, or that of the computation. -/
def Failure.RefusedOr {α : Type} (x : Except QueryError α) (e : Failure) : Prop := e.Refused ∨ ∃ q, e = .error q ∧ x = .error q

namespace Expr

/-- What has a value has no call in it. -/
theorem isPlain_of_onRow {row : Row} {e : Expr} {d : Datum} (h : e.onRow row = .ok d) : e.isPlain = true := by
  fun_induction onRow row e generalizing d with
  | case1 | case2 | case3 => rfl
  | case4 l op r hl hr =>
    obtain ⟨_, hld, h⟩ := bind_eq_ok.mp h
    obtain ⟨_, hrd, h⟩ := bind_eq_ok.mp h
    rw [isPlain, hl hld, hr hrd]
    rfl
  | case5 op e he | case6 e t he =>
    obtain ⟨_, hd, h⟩ := bind_eq_ok.mp h
    exact he hd
  | case7 | case8 => cases h

/-- What has a value on every row of a chunk has a column there. -/
theorem evaluate_of_rows {chunk : Chunk} (hc : chunk.Sound) (hrows : chunk.isEmpty = false) {e : Expr} {t : SqlType}
    (ht : e.resolve chunk.types = .ok t) (h : ∀ row ∈ chunk.rows, ∃ d, e.onRow row = .ok d) :
    ∃ c, e.evaluate chunk = .ok c := by
  have hsome : chunk.rows ≠ [] := fun hnone => by
    rw [hc.rows_eq_nil_iff.mp hnone] at hrows
    cases hrows
  obtain ⟨row, hrow⟩ := List.exists_mem_of_ne_nil _ hsome
  obtain ⟨d, hd⟩ := h row hrow
  cases hevaluate : e.evaluate chunk with
  | ok c => exact ⟨c, rfl⟩
  | error x =>
    obtain ⟨r, hr, q, hq, _⟩ := evaluate_error hc (isPlain_of_onRow hd) ht hevaluate
    obtain ⟨d', hd'⟩ := h _ (List.mem_map_of_mem hr)
    cases hd'.symm.trans hq

end Expr

namespace Group

/-- The keys and the arguments of the calls have values on the row. -/
structure Evaluates (keys : List Expr) (calls : List AggregateCall) (row : Row) : Prop where
  keys : ∀ e ∈ keys, ∃ d, e.onRow row = .ok d
  arguments : ∀ c ∈ calls, ∀ e, c.argument = some e → ∃ d, e.onRow row = .ok d

variable {keys : List Expr} {calls : List AggregateCall} {types keyTypes : List SqlType} {rows group : List Row}
  {row : Row} {g : Group}

/-- Whether all of them have values can be tried out. -/
theorem evaluates_of_all
    (h : ((keys ++ calls.filterMap AggregateCall.argument).all fun e => (e.onRow row).toOption.isSome) = true) :
    Evaluates keys calls row := by
  have hvalue (e : Expr) (he : e ∈ keys ++ calls.filterMap AggregateCall.argument) : ∃ d, e.onRow row = .ok d :=
    (Option.isSome_iff_exists.mp (List.all_eq_true.mp h e he)).imp fun _ => toOption_eq_some.mp
  refine ⟨fun e he => hvalue e (List.mem_append_left _ he), fun c hc e he => hvalue e (List.mem_append_right _ ?_)⟩
  exact List.mem_filterMap.mpr ⟨c, hc, he⟩

/-! ### Groups are fit for their columns -/

theorem mem_split (h : group ∈ split keys rows) : (keys = [] ∨ group ≠ []) ∧ ∀ row ∈ group, row ∈ rows := by
  unfold split at h
  split at h
  · rename_i hkeys
    rw [List.mem_singleton.mp h]
    exact ⟨.inl (List.isEmpty_iff.mp hkeys), fun _ hrow => hrow⟩
  · obtain ⟨k, hk, rfl⟩ := List.mem_map.mp h
    obtain ⟨row, hrow, hk⟩ := List.mem_map.mp (List.mem_eraseDups.mp hk)
    refine ⟨.inr (List.ne_nil_of_mem (List.mem_filter.mpr ⟨hrow, decide_eq_true hk⟩)), fun row hrow => ?_⟩
    exact (List.mem_filter.mp hrow).1

/-- The keys of a typed row have their types. -/
theorem keys_typed (hkeys : keys.mapM (Expr.resolve types) = .ok keyTypes) (hrow : Typed types row)
    (hvalues : Evaluates keys calls row) :
    List.Forall₂ (fun e t => (e.valueOn row).type = t ∧ (e.valueOn row).Fits) keys keyTypes := by
  refine (forall₂_mem (mapM_eq_ok_iff.mp hkeys)).imp fun e t ⟨he, ht⟩ => ?_
  obtain ⟨d, hd⟩ := hvalues.keys e he
  rw [Expr.valueOn_of_ok hd]
  exact Expr.onRow_typed hrow ht hd

theorem argues {c : AggregateCall} (hc : c ∈ calls) (hresolved : c.Resolved types) (hrow : Typed types row)
    (hvalues : Evaluates keys calls row) : Scalar.Argues (c.argumentType types) (c.argumentOn row) := by
  unfold AggregateCall.argumentOn AggregateCall.argumentType
  cases harg : c.argument with
  | none => rfl
  | some e =>
    obtain ⟨t, ht⟩ := hresolved.argument e harg
    obtain ⟨d, hd⟩ := hvalues.arguments c hc e harg
    obtain ⟨htype, hfits⟩ := Expr.onRow_typed hrow ht hd
    refine ⟨t, by rw [Option.bind_some, ht]; rfl, ?_⟩
    show (e.valueOn row).value.Fits t
    rw [Expr.valueOn_of_ok hd]
    exact htype ▸ hfits

section
variable (hcalls : ∀ c ∈ calls, c.Resolved types) (htyped : ∀ row ∈ rows, Typed types row)
  (hvalues : ∀ row ∈ rows, Evaluates keys calls row)
include hcalls htyped hvalues

theorem folded_runs {c : AggregateCall} (hc : c ∈ calls) {a : Accumulator} (h : c.folded rows = .ok a) :
    Runs types a c := by
  have hfold : Yields QueryError.OfData (c.folded rows) fun a => Runs types a c := by
    refine Yields.foldlM ⟨Accumulator.start_fits (hcalls c hc).resolved, rfl⟩ fun a row hrow ha => ?_
    refine (Accumulator.update_yields ha.1 (argues hc (hcalls c hc) (htyped row hrow) (hvalues row hrow))).mono fun b hb => ?_
    exact ⟨hb.1, hb.2.2.trans ha.2⟩
  rw [h] at hfold
  exact hfold

theorem Of.fits (hkeys : keys.mapM (Expr.resolve types) = .ok keyTypes) (h : Of keys calls rows g)
    (hsome : keys = [] ∨ rows ≠ []) : g.Fits types keyTypes calls := by
  refine ⟨?_, ?_⟩
  · cases rows with
    | nil =>
      obtain rfl := hsome.resolve_right fun hne => hne rfl
      cases hkeys
      rw [h.key]
      exact .nil
    | cons first rest =>
      have hfirst := List.mem_cons_self (a := first) (l := rest)
      rw [h.key]
      show List.Forall₂ Scalar.Fits (keys.map fun e => (e.valueOn first).value) keyTypes
      rw [List.forall₂_map_left_iff]
      exact (keys_typed hkeys (htyped first hfirst) (hvalues first hfirst)).imp fun e t ht => ht.1 ▸ ht.2
  · refine ((forall₂_mem (mapM_eq_ok_iff.mp h.folded)).imp fun c a ⟨hc, ha⟩ => ?_).flip
    exact folded_runs hcalls htyped hvalues hc ha

end

/-- The groups of typed rows have columns. -/
theorem columns_of_groups (hkeys : keys.mapM (Expr.resolve types) = .ok keyTypes)
    (hcalls : ∀ c ∈ calls, c.Resolved types) (htyped : ∀ row ∈ rows, Typed types row)
    (hvalues : ∀ row ∈ rows, Evaluates keys calls row) {groups : List Group}
    (h : groupsOf keys calls rows = .ok groups) :
    (∀ g ∈ groups, g.Fits types keyTypes calls) ∧ ∃ cs, Operator.groupColumns keyTypes calls groups = .ok cs := by
  have hfits : ∀ g ∈ groups, g.Fits types keyTypes calls := fun g hg => by
    rcases groupsOf_of_rows (fun c hc => (hcalls c hc).argument_eq_none_iff) rows with ⟨groups', hgroups, hof, _⟩ | ⟨herror, _⟩
    · cases h.symm.trans hgroups
      obtain ⟨group, hgroup, hg⟩ := exists_of_mem_right hof hg
      obtain ⟨hsome, hmem⟩ := mem_split hgroup
      exact hg.fits hcalls (fun row hrow => htyped row (hmem row hrow)) (fun row hrow => hvalues row (hmem row hrow))
        hkeys hsome
    · cases h.symm.trans herror
  exact ⟨hfits, Operator.groupColumns_of_fits hfits⟩

/-! ### Arguments of a row -/

/-- Where the columns have the row, its arguments are what they have there. -/
theorem updateAll_eq {r : Nat} {pairs : List (Accumulator × Option Column)}
    (h : ∀ p ∈ pairs, ∀ c, p.2 = some c → r < c.size) :
    updateAll r pairs = (pairs.map fun p => (p.1, p.2.map fun c => (c.datum r).value)).mapM fun p => p.1.update p.2 := by
  induction pairs with
  | nil => rfl
  | cons p pairs ih =>
    have ih := ih fun p hp => h p (List.mem_cons_of_mem _ hp)
    obtain ⟨a, argument⟩ := p
    rw [List.map_cons, List.mapM_cons, ← ih]
    cases argument with
    | none => rfl
    | some c =>
      have hlt : r < c.slots.length := h _ (List.mem_cons_self ..) c rfl
      have hget := c.get_eq_ok r hlt
      rw [updateAll, hget, Column.get_ok hget]
      rfl

end Group

/-! ### The pull -/

namespace Operator
open QueryEngine.Group (Evaluates)
variable {keys : List Expr} {calls : List AggregateCall} {keyTypes : List SqlType} {f : Frame} {input : Operator}
  {sees : List (Nat × Mask) → Prop} {given : List Row}

/-- The columns that grouping reads have the row. -/
structure Within (keyColumns : List Column) (arguments : List (Option Column)) (r : Nat) : Prop where
  keys : ∀ c ∈ keyColumns, r < c.size
  arguments : ∀ c, some c ∈ arguments → r < c.size

section
variable {chunk : Chunk} {keyColumns : List Column} {arguments : List (Option Column)} {r : Nat} {groups : KeyMap Group}
  (h : GroupsBy keys calls chunk keyColumns arguments)
include h

theorem groupOne_eq_addRow (hr : r ∈ chunk.activeRows) (hin : Within keyColumns arguments r) {key : Key}
    (hkey : Key.ofRow keyColumns r = .ok key) : groupOne keys calls groups (chunk.row r) = do
      return groups.put key (← ((groups.get? key).getD (Group.start calls key)).addRow arguments r) := by
  have hupdate (accumulators : List Accumulator) : Group.updateAll r (accumulators.zip arguments) =
      (accumulators.zip (Group.argumentsOn calls (chunk.row r))).mapM fun p => p.1.update p.2 := by
    rw [Group.updateAll_eq fun p hp c hc => hin.arguments c (hc ▸ (List.of_mem_zip hp).2), ← h.arguments r hr,
      List.zip_map_right]
    rfl
  unfold groupOne Group.addRow
  simp only [← h.key_eq hr hkey, hupdate, bind_assoc, pure_bind]

theorem fails_groupRow (hr : r ∈ chunk.activeRows) (hin : Within keyColumns arguments r) :
    Pull.Fails (groupRow calls keyColumns arguments groups r) f fun e _ =>
      e.RefusedOr (groupOne keys calls groups (chunk.row r)) := by
  obtain ⟨key, hkey⟩ := Key.ofRow_of_lt hin.keys
  have hadd (group : Group) (g : Frame) (hgroup : (groups.get? key).getD (Group.start calls key) = group) :
      Pull.Fails (do return groups.put key (← group.addRow arguments r)) g fun e _ =>
        e.RefusedOr (groupOne keys calls groups (chunk.row r)) := by
    refine Pull.Fails.liftQuery_bind (fun q hq => .inr ⟨q, rfl, ?_⟩) fun _ _ => .pure
    rw [groupOne_eq_addRow h hr hin hkey, hgroup, hq, error_bind]
  unfold groupRow
  rw [hkey]
  refine Pull.Fails.step (a := key) rfl ?_
  cases hget : groups.get? key with
  | some group => exact hadd group f (by rw [hget, Option.getD_some])
  | none =>
    refine (Pull.Fails.reserve _ fun e he => .inl he).bind fun _ g _ => ?_
    exact hadd (Group.start calls key) g (by rw [hget, Option.getD_none])

theorem fails_groupRows {rs : List Nat} (hrs : ∀ r ∈ rs, r ∈ chunk.activeRows)
    (hin : ∀ r ∈ rs, Within keyColumns arguments r) :
    Pull.Fails (groupRows calls keyColumns arguments groups rs) f fun e _ =>
      e.RefusedOr ((rs.map chunk.row).foldlM (groupOne keys calls) groups) := by
  induction rs generalizing f groups with
  | nil => exact .pure
  | cons r rs ih =>
    have hr := hrs r (List.mem_cons_self ..)
    rw [groupRows]
    simp only [List.map_cons, List.foldlM_cons]
    refine ((fails_groupRow h hr (hin r (List.mem_cons_self ..))).mono fun e _ he => ?_).bind fun groups' g hgroups => ?_
    · refine he.imp_right ?_
      rintro ⟨q, hq, hone⟩
      exact ⟨q, hq, by rw [hone, error_bind]⟩
    · rw [((agree_groupRow h hr groups).2 groups' g hgroups).1, ok_bind]
      exact ih (fun r' hr' => hrs r' (List.mem_cons_of_mem _ hr')) fun r' hr' => hin r' (List.mem_cons_of_mem _ hr')

end

section
variable (hkeys : keys.mapM (Expr.resolve input.types) = .ok keyTypes) (hcalls : ∀ c ∈ calls, c.Resolved input.types)
include hkeys hcalls

/-- Where the keys and the arguments have values on all rows, grouping has its columns, and
these have the rows. -/
theorem columns_of_values {chunk : Chunk} (hc : chunk.Sound) (ht : chunk.types = input.types)
    (hrows : chunk.isEmpty = false) (hvalues : ∀ row ∈ chunk.rows, Evaluates keys calls row) :
    ∃ keyColumns arguments, keys.mapM (Expr.evaluate chunk) = .ok keyColumns ∧
      calls.mapM (fun c : AggregateCall => (c.argument.mapM (Expr.evaluate chunk) : Except Failure (Option Column))) =
        .ok arguments ∧
      GroupsBy keys calls chunk keyColumns arguments ∧ ∀ r ∈ chunk.activeRows, Within keyColumns arguments r := by
  have hkeyColumns : ∃ keyColumns, keys.mapM (Expr.evaluate chunk) = .ok keyColumns := mapM_of_forall fun e he => by
    obtain ⟨t, _, het⟩ := mapM_ok_of_mem hkeys he
    exact Expr.evaluate_of_rows hc hrows (ht ▸ het) fun row hrow => (hvalues row hrow).keys e he
  have hargument (c : AggregateCall) (hmem : c ∈ calls) :
      ∃ argument, (c.argument.mapM (Expr.evaluate chunk) : Except Failure (Option Column)) = .ok argument ∧
        ∀ d, argument = some d → d.size = chunk.physicalRows := by
    cases harg : c.argument with
    | none => exact ⟨none, rfl, nofun⟩
    | some e =>
      obtain ⟨t, het⟩ := (hcalls c hmem).argument e harg
      obtain ⟨column, hcolumn⟩ := Expr.evaluate_of_rows hc hrows (ht ▸ het) fun row hrow =>
        (hvalues row hrow).arguments c hmem e harg
      refine ⟨some column, by rw [Option.mapM_some, hcolumn]; rfl, fun d hd => ?_⟩
      cases hd
      exact (Expr.evaluate_rowwise hc hcolumn).size
  have harguments : ∃ arguments, calls.mapM (fun c : AggregateCall =>
      (c.argument.mapM (Expr.evaluate chunk) : Except Failure (Option Column))) = .ok arguments :=
    mapM_of_forall fun c hmem => (hargument c hmem).imp fun _ h => h.1
  obtain ⟨keyColumns, hkeyColumns⟩ := hkeyColumns
  obtain ⟨arguments, harguments⟩ := harguments
  refine ⟨keyColumns, arguments, hkeyColumns, harguments, groupsBy_of_ok hc hkeyColumns harguments, fun r hr =>
    ⟨fun c hcol => ?_, fun d hd => ?_⟩⟩
  · rw [(Expr.evaluateAll_ok hc hkeyColumns).1 c hcol]
    exact hc.active_lt hr
  · obtain ⟨c, hmem, hc'⟩ := mem_of_mapM harguments hd
    obtain ⟨argument, hargument, hsize⟩ := hargument c hmem
    cases hargument.symm.trans hc'
    rw [hsize d rfl]
    exact hc.active_lt hr

theorem fails_groupChunk {chunk : Chunk} (hc : chunk.Sound) (ht : chunk.types = input.types)
    (hrows : chunk.isEmpty = false) (hvalues : ∀ row ∈ chunk.rows, Evaluates keys calls row) (groups : KeyMap Group) :
    Pull.Fails (groupChunk keys calls groups chunk) f fun e _ =>
      e.RefusedOr (chunk.rows.foldlM (groupOne keys calls) groups) := by
  obtain ⟨keyColumns, arguments, hkeyColumns, harguments, hby, hin⟩ := columns_of_values hkeys hcalls hc ht hrows hvalues
  unfold groupChunk
  rw [mapM_lift, hkeyColumns]
  refine Pull.Fails.step (a := keyColumns) rfl ?_
  rw [harguments]
  refine Pull.Fails.step (a := arguments) rfl ?_
  exact fails_groupRows hby (fun _ hr => hr) hin

theorem fails_groupChunks (rounds : Nat) (groups : KeyMap Group)
    (h : Gives ⟨0, False, True, sees⟩ input input given f.below) (hfeeds : input.Feeds sees f.below)
    (hs : sees f.session.masks) (hrounds : input.rowsBelow f.below < rounds)
    (hvalues : ∀ row ∈ given, Evaluates keys calls row) :
    Pull.Fails (groupChunks keys calls input rounds groups) f fun e _ =>
      e.RefusedOr (given.foldlM (groupOne keys calls) groups) := by
  induction rounds generalizing f groups given with
  | zero => cases hrounds
  | succ rounds ih =>
    obtain ⟨hrefused, hleft⟩ := hfeeds.fetch hs
    rw [groupChunks]
    refine (hrefused.mono fun e _ he => .inl he).bind fun chunk g hfetch => ?_
    have hg := (h.fetch hs).2 chunk g hfetch
    obtain ⟨hfeeds', hfewer⟩ := hleft chunk g hfetch
    obtain ⟨rest, hrest, htold⟩ := hg.left
    obtain ⟨rfl, _⟩ := htold trivial
    refine Pull.Fails.ite (fun _ => .pure) fun he => ?_
    have hsound := hg.handed.sound
    rw [List.foldlM_append]
    refine ((fails_groupChunk hkeys hcalls hsound hg.handed.typed (Bool.eq_false_iff.mpr he)
      (fun row hrow => hvalues row (List.mem_append_left _ hrow)) groups).mono fun e _ he => ?_).bind fun groups' k hk => ?_
    · refine he.imp_right ?_
      rintro ⟨q, hq, hfold⟩
      exact ⟨q, hq, by rw [hfold, error_bind]⟩
    · obtain ⟨hfold, held, pool, rfl⟩ := (agree_groupChunk hsound groups).2 groups' k hk
      rw [hfold, ok_bind]
      have hrow := Chunk.count_pos he
      have hrounds' : input.rowsBelow g.below < rounds := by omega
      exact ih groups' hrest hfeeds' hg.sees hrounds' fun row hrow => hvalues row (List.mem_append_right _ hrow)

/-- Grouping all rows of an input fails for want of bytes, or as grouping the rows does. -/
theorem fails_groupInput (h : Gives ⟨0, False, True, sees⟩ input input given f.below)
    (hfeeds : input.Feeds sees f.below) (hs : sees f.session.masks)
    (hvalues : ∀ row ∈ given, Evaluates keys calls row) :
    Pull.Fails (groupInput keys keyTypes calls input) f fun e _ => e.RefusedOr (groupsOf keys calls given) := by
  unfold groupInput
  refine Pull.Fails.step rfl (((fails_groupChunks hkeys hcalls _ .empty h hfeeds hs (Nat.lt_succ_self _) hvalues).mono
    fun e _ he => ?_).bind fun groups g hgroups => ?_)
  · refine he.imp_right ?_
    rintro ⟨q, hq, hfold⟩
    exact ⟨q, hq, by rw [groupsOf, hfold, error_bind]⟩
  · obtain ⟨_, _, _, hfold⟩ := (agree_groupChunks _ .empty h hs).2 groups g hgroups
    obtain ⟨hfold, htyped⟩ := hfold trivial
    obtain ⟨_, cs, hcs⟩ := Group.columns_of_groups hkeys hcalls htyped hvalues (groupsOf_of_folded hfold)
    exact Pull.Fails.liftQuery_bind (fun q hq => by cases hcs.symm.trans hq) fun _ _ => .pure

end

end Operator
end QueryEngine
