import QueryEngine.Proofs.Pull.SureBuffered

/-! Grouping is sure.

Groups stay fit for their keys and calls, row by row (`groupRow_ends`): the key has values
of the key types and every accumulator is fit for its argument. So a row fails only where
bytes or the range of a sum run out, and the columns of the groups can be made. There are
no more groups than rows, but for the one group of no rows. -/
namespace QueryEngine

namespace AggregateCall

/-- The type of the argument, if there is one. -/
def argumentType (types : List SqlType) (c : AggregateCall) : Option SqlType :=
  c.argument.bind fun e => (e.resolve types).toOption

/-- What is known of a call that was accepted over columns of the given types. -/
structure Resolved (c : AggregateCall) (types : List SqlType) : Prop where
  argument : ∀ e, c.argument = some e → ∃ t, e.resolve types = .ok t
  resolved : c.function.returnType (c.argumentType types) = .ok c.type

theorem resolved_of_ofExpr {types : List SqlType} {e : Expr} {c : AggregateCall} (h : ofExpr types e = .ok c) :
    c.Resolved types := by
  cases e with
  | aggregate f args =>
    obtain ⟨t, ht, h⟩ := bind_eq_ok.mp h
    cases h
    rw [Expr.resolve, Expr.resolveEach_eq_map] at ht
    rcases Expr.callType_eq_ok.mp ht with ⟨rfl, ht⟩ | ⟨e, u, rfl, he, ht⟩
    · exact ⟨fun e' he' => (by cases he'), ht⟩
    · refine ⟨fun e' he' => ?_, ?_⟩
      · cases he'
        exact ⟨u, he⟩
      · show f.returnType (e.resolve types).toOption = .ok t
        rw [he]
        exact ht
  | _ => cases h

theorem resolved_of_mapM {types : List SqlType} {exprs : List Expr} {calls : List AggregateCall}
    (h : exprs.mapM (ofExpr types) = .ok calls) : ∀ c ∈ calls, c.Resolved types := fun _ hc => by
  obtain ⟨_, _, he⟩ := mem_of_mapM h hc
  exact resolved_of_ofExpr he

/-- Only `COUNT(*)` takes no argument. -/
theorem Resolved.argument_eq_none_iff {c : AggregateCall} {types : List SqlType} (h : c.Resolved types) :
    c.argument = none ↔ c.function = .countStar := by
  have hresolved := h.resolved
  cases harg : c.argument with
  | none =>
    rw [argumentType, harg] at hresolved
    cases hf : c.function <;> rw [hf] at hresolved <;> simp [AggregateFunction.returnType] at hresolved ⊢
  | some e =>
    obtain ⟨t, ht⟩ := h.argument e harg
    rw [argumentType, harg, Option.bind_some, ht] at hresolved
    refine ⟨fun hnone => (by cases hnone), fun hf => ?_⟩
    rw [hf] at hresolved
    cases hresolved

/-- What the compiler has checked of a call over columns of the given types. -/
structure Fits (c : AggregateCall) (types : List SqlType) : Prop where
  argument : ∀ e, c.argument = some e → e.isPlain = true ∧ ∃ t, e.resolve types = .ok t
  resolved : c.function.returnType (c.argumentType types) = .ok c.type

/-- A column for the argument that has a value in the row. -/
def Reads (types : List SqlType) (row : Nat) (c : AggregateCall) (column : Option Column) : Prop :=
  c.argumentType types = column.map Column.type ∧ ∀ d, column = some d → row < d.size

theorem Fits.argument_yields {c : AggregateCall} {chunk : Chunk} (hc : chunk.Sound) (h : c.Fits chunk.types) :
    Yields Failure.OfData (c.argument.mapM (Expr.evaluate chunk) : Except Failure (Option Column)) fun column =>
      ∀ row < chunk.physicalRows, c.Reads chunk.types row column := by
  cases harg : c.argument with
  | none => exact fun _ _ => ⟨by rw [argumentType, harg]; rfl, nofun⟩
  | some e =>
    obtain ⟨hplain, t, ht⟩ := h.argument e harg
    refine (Expr.evaluate_yields hc hplain ht).bind fun column ⟨htype, hsize⟩ row hrow => ⟨?_, fun d hd => ?_⟩
    · rw [argumentType, harg, Option.bind_some, ht, Option.map_some, htype]
      rfl
    · cases hd
      exact hsize ▸ hrow

end AggregateCall

/-! ### One group -/

namespace Group
variable {types keyTypes : List SqlType} {calls : List AggregateCall} {g : Group}

/-- The state of a call over the values of a group. -/
def Runs (types : List SqlType) (a : Accumulator) (c : AggregateCall) : Prop :=
  a.FitsArgument (c.argumentType types) ∧ a.type = c.type

structure Fits (types keyTypes : List SqlType) (calls : List AggregateCall) (g : Group) : Prop where
  key : List.Forall₂ Scalar.Fits g.key keyTypes
  accumulators : List.Forall₂ (Runs types) g.accumulators calls

theorem Fits.key_value (h : g.Fits types keyTypes calls) {field : SqlType × Nat} (hfield : field ∈ keyTypes.zipIdx) :
    (g.key.getD field.2 .null).Fits field.1 := by
  obtain ⟨v, hv, hfits⟩ := forall₂_getElem? h.key.flip (List.mk_mem_zipIdx_iff_getElem?.mp hfield)
  rw [List.getD_eq_getElem?_getD, hv]
  exact hfits

theorem Fits.result_value (h : g.Fits types keyTypes calls) {call : AggregateCall × Nat} (hcall : call ∈ calls.zipIdx) :
    ((g.accumulators[call.2]?.map Accumulator.value).getD .null).Fits call.1.type := by
  obtain ⟨a, ha, hfits, htype⟩ := forall₂_getElem? h.accumulators.flip (List.mk_mem_zipIdx_iff_getElem?.mp hcall)
  rw [ha]
  exact htype ▸ Accumulator.value_fits hfits

theorem start_fits {key : Key} (hkey : List.Forall₂ Scalar.Fits key keyTypes) (hcalls : ∀ c ∈ calls, c.Fits types) :
    (start calls key).Fits types keyTypes calls := by
  refine ⟨hkey, ?_⟩
  rw [start, List.forall₂_map_left_iff, List.forall₂_same]
  exact fun c hc => ⟨Accumulator.start_fits (hcalls c hc).resolved, rfl⟩

theorem updateAll_yields {row : Nat} {accumulators : List Accumulator} {arguments : List (Option Column)}
    (h : List.Forall₂ (Runs types) accumulators calls)
    (hread : List.Forall₂ (AggregateCall.Reads types row) calls arguments) :
    Yields QueryError.OfData (updateAll row (accumulators.zip arguments)) fun updated =>
      List.Forall₂ (Runs types) updated calls := by
  induction h generalizing arguments with
  | nil => exact .nil
  | @cons a c accumulators calls ha _ ih =>
    obtain ⟨column, arguments, ⟨htype, hrow⟩, hrest, rfl⟩ := List.forall₂_cons_left_iff.mp hread
    have hnext (b : Accumulator) (hb : b.FitsArgument (c.argumentType types) ∧ b.function = a.function ∧ b.type = a.type) :
        Yields QueryError.OfData (do return b :: (← updateAll row (accumulators.zip arguments))) fun updated =>
          List.Forall₂ (Runs types) updated (c :: calls) :=
      (ih hrest).bind fun updated hupdated => .cons ⟨hb.1, hb.2.2.trans ha.2⟩ hupdated
    rw [List.zip_cons_cons]
    cases column with
    | none => exact (Accumulator.update_yields (v := none) ha.1 htype).bind hnext
    | some d =>
      have hlt : row < d.slots.length := hrow d rfl
      have hv : Scalar.Argues (c.argumentType types) (some d.slots[row]) :=
        ⟨d.type, htype, d.typed _ (List.getElem_mem _)⟩
      rw [updateAll, d.get_eq_ok row hlt, ok_bind]
      exact (Accumulator.update_yields ha.1 hv).bind hnext

theorem addRow_yields {row : Nat} {arguments : List (Option Column)} (h : g.Fits types keyTypes calls)
    (hread : List.Forall₂ (AggregateCall.Reads types row) calls arguments) :
    Yields QueryError.OfData (g.addRow arguments row) (Fits types keyTypes calls) :=
  (updateAll_yields h.accumulators hread).bind fun _ hupdated => ⟨h.key, hupdated⟩

end Group

/-! ### All groups -/

namespace Operator
open QueryEngine.Group (Fits)
variable {T : Terms} {config : Config} {input : Operator} {keys : List Expr} {types keyTypes : List SqlType}
  {calls : List AggregateCall} {groups : KeyMap Group} {f : Frame} {rows : List Row}

/-- No more groups than so many, all fit for their keys and calls. -/
structure Groups (types keyTypes : List SqlType) (calls : List AggregateCall) (most : Nat) (groups : KeyMap Group) :
    Prop where
  fit : ∀ g ∈ groups.values, Fits types keyTypes calls g
  few : groups.size ≤ most

theorem groups_empty : Groups types keyTypes calls 0 .empty := ⟨nofun, Nat.le_refl _⟩

/-- The values of some columns in a row have their types. -/
theorem key_fits {columns : List Column} {row : Nat} (h : ∀ c ∈ columns, row < c.size) :
    ∃ key, Key.ofRow columns row = .ok key ∧ List.Forall₂ Scalar.Fits key (columns.map Column.type) := by
  obtain ⟨key, hkey⟩ := Key.ofRow_of_lt h
  refine ⟨key, hkey, ?_⟩
  rw [Key.ofRow_ok hkey, Key.valuesAt, List.forall₂_map_left_iff, List.forall₂_map_right_iff, List.forall₂_same]
  exact fun c _ => c.value_fits row

/-- There are columns of the values of the groups. -/
theorem groupColumns_of_fits {groups : List Group} (h : ∀ g ∈ groups, Fits types keyTypes calls g) :
    ∃ columns, groupColumns keyTypes calls groups = .ok columns := by
  have hkey (field : SqlType × Nat) (hfield : field ∈ keyTypes.zipIdx) :
      ∃ column, Column.ofScalars field.1 (groups.map fun g => g.key.getD field.2 .null) = .ok column :=
    Column.ofScalars_of_fits (List.forall_mem_map.mpr fun g hg => (h g hg).key_value hfield)
  have hresult (call : AggregateCall × Nat) (hcall : call ∈ calls.zipIdx) :
      ∃ column, Column.ofScalars call.1.type
        (groups.map fun g => (g.accumulators[call.2]?.map Accumulator.value).getD .null) = .ok column :=
    Column.ofScalars_of_fits (List.forall_mem_map.mpr fun g hg => (h g hg).result_value hcall)
  obtain ⟨keyColumns, hkeyColumns⟩ := mapM_of_forall hkey
  obtain ⟨results, hresults⟩ := mapM_of_forall hresult
  exact ⟨keyColumns ++ results, by rw [groupColumns, hkeyColumns, ok_bind, hresults]; rfl⟩

section
variable (hcalls : ∀ c ∈ calls, c.Fits types)
include hcalls

theorem groupRow_ends {most row : Nat} {columns : List Column} {arguments : List (Option Column)}
    (htypes : columns.map Column.type = keyTypes) (hkeys : ∀ c ∈ columns, row < c.size)
    (hread : List.Forall₂ (AggregateCall.Reads types row) calls arguments)
    (h : Groups types keyTypes calls most groups) :
    Ends (groupRow calls columns arguments groups row) f fun groups' g =>
      Groups types keyTypes calls (most + 1) groups' ∧ Pull.Booked f g := by
  obtain ⟨key, hkey, hfits⟩ := key_fits hkeys
  have hadd (group : Group) (hgroup : Fits types keyTypes calls group) (g : Frame) (hg : Pull.Booked f g) :
      Ends (do return groups.put key (← group.addRow arguments row)) g fun groups' k =>
        Groups types keyTypes calls (most + 1) groups' ∧ Pull.Booked f k := by
    refine .liftQuery_bind (Group.addRow_yields hgroup hread) fun group' hgroup' => .pure ⟨⟨fun one hone => ?_, ?_⟩, hg⟩
    · rcases KeyMap.mem_values_put hone with rfl | hone
      · exact hgroup'
      · exact h.fit one hone
    · exact (KeyMap.size_put_le groups key group').trans (Nat.succ_le_succ h.few)
  unfold groupRow
  rw [hkey]
  refine .step (a := key) rfl ?_
  cases hget : groups.get? key with
  | some group => exact hadd group (h.fit group (KeyMap.mem_values_of_get? hget)) f (.self f)
  | none => exact (Ends.reserve _).bind fun _ g hg => hadd _ (Group.start_fits (htypes ▸ hfits) hcalls) g hg

theorem groupRows_ends {most : Nat} {columns : List Column} {arguments : List (Option Column)} {rs : List Nat}
    (htypes : columns.map Column.type = keyTypes) (hkeys : ∀ c ∈ columns, ∀ row ∈ rs, row < c.size)
    (hread : ∀ row ∈ rs, List.Forall₂ (AggregateCall.Reads types row) calls arguments)
    (h : Groups types keyTypes calls most groups) :
    Ends (groupRows calls columns arguments groups rs) f fun groups' g =>
      Groups types keyTypes calls (most + rs.length) groups' ∧ Pull.Booked f g := by
  induction rs generalizing most groups f with
  | nil => exact .pure ⟨h, .self f⟩
  | cons row rs ih =>
    rw [groupRows]
    refine (groupRow_ends hcalls htypes (fun c hc => hkeys c hc row (List.mem_cons_self ..))
      (hread row (List.mem_cons_self ..)) h).bind fun groups' g hg => ?_
    refine (ih (fun c hc r hr => hkeys c hc r (List.mem_cons_of_mem _ hr))
      (fun r hr => hread r (List.mem_cons_of_mem _ hr)) hg.1).mono fun all k hall => ⟨⟨hall.1.fit, ?_⟩, hg.2.trans hall.2⟩
    have hfew := hall.1.few
    rw [List.length_cons]
    omega

end

section
variable (hplain : ∀ e ∈ keys, e.isPlain = true) (hkeys : keys.mapM (Expr.resolve input.types) = .ok keyTypes)
  (hcalls : ∀ c ∈ calls, c.Fits input.types)
include hplain hkeys hcalls

theorem groupChunk_ends {chunk : Chunk} (hc : chunk.Sound) (ht : chunk.types = input.types) {most : Nat}
    (h : Groups input.types keyTypes calls most groups) :
    Ends (groupChunk keys calls groups chunk) f fun groups' g =>
      Groups input.types keyTypes calls (most + chunk.count) groups' ∧ Pull.Booked f g := by
  have harguments : Yields Failure.OfData
      (calls.mapM fun c : AggregateCall => (c.argument.mapM (Expr.evaluate chunk) : Except Failure (Option Column)))
      (List.Forall₂ (fun c column => ∀ row < chunk.physicalRows, c.Reads input.types row column) calls) := by
    refine Yields.mapM fun c hcall => ?_
    exact ht ▸ (AggregateCall.Fits.argument_yields hc (ht.symm ▸ hcalls c hcall))
  unfold groupChunk
  rw [mapM_lift]
  refine .lift_bind (Expr.evaluateAll_yields hc hplain (ht.symm ▸ hkeys)) fun columns ⟨htypes, hsizes⟩ => ?_
  refine .lift_bind harguments fun arguments hread => ?_
  rw [← hc.length_activeRows]
  refine groupRows_ends hcalls htypes (fun c hcol row hrow => ?_) (fun row hrow => ?_) h
  · rw [hsizes c hcol]
    exact hc.active_lt hrow
  · exact hread.imp fun c column hcolumn => hcolumn row (hc.active_lt hrow)

theorem groupChunks_ends {most : Nat} (rounds : Nat) (hinput : Sure T input f.below)
    (hrounds : input.rowsBelow f.below < rounds) (h : Groups input.types keyTypes calls most groups) :
    Ends (groupChunks keys calls input rounds groups) f fun groups' _ =>
      Groups input.types keyTypes calls (most + input.rowsBelow f.below) groups' := by
  induction rounds generalizing f most groups with
  | zero => cases hrounds
  | succ rounds ih =>
    rw [groupChunks]
    refine hinput.fetch.bind fun chunk g hg => .ite (fun _ => .pure ⟨h.fit, ?_⟩) fun he => ?_
    · exact h.few.trans (Nat.le_add_right _ _)
    have hrow := Chunk.count_pos he
    have hfewer := hg.fewer
    refine (groupChunk_ends hplain hkeys hcalls hg.handed.sound hg.handed.typed h).bind
      fun groups' k hdone => ?_
    obtain ⟨hgroups', held, pool, hk⟩ := hdone
    have hbelow : k.below = g.below := by rw [hk]
    refine (ih (hbelow ▸ hg.left) (by rw [hbelow]; omega) hgroups').mono fun all _ hall => ⟨hall.fit, ?_⟩
    have hfew := hall.few
    rw [hbelow] at hfew
    omega

/-- All rows of a sure input are grouped. -/
theorem groupInput_ends (hinput : Sure T input f.below) :
    Ends (groupInput keys keyTypes calls input) f fun o _ => o.rows ≤ max 1 (input.rowsBelow f.below) := by
  unfold groupInput
  refine .step rfl ((groupChunks_ends hplain hkeys hcalls _ hinput (Nat.lt_succ_self _) groups_empty).bind
    fun groups g hgroups => ?_)
  have hfew : groups.values.length ≤ 0 + input.rowsBelow f.below := by
    rw [KeyMap.values, List.length_map]
    exact hgroups.few
  have hshown (shown : List Group) (hfit : ∀ g ∈ shown, Fits input.types keyTypes calls g)
      (hmost : shown.length ≤ max 1 (input.rowsBelow f.below)) :
      Ends (do return (⟨← groupColumns keyTypes calls shown, shown.length, 0⟩ : Output)) g fun o _ =>
        o.rows ≤ max 1 (input.rowsBelow f.below) := by
    obtain ⟨columns, hcolumns⟩ := groupColumns_of_fits hfit
    rw [hcolumns]
    exact .step (a := columns) rfl (.pure hmost)
  refine hshown (if groups.values.isEmpty && keys.isEmpty then [Group.start calls []] else groups.values) ?_ ?_
  · split
    · rename_i hnone
      have hnokeys : keyTypes = [] := by
        rw [Bool.and_eq_true] at hnone
        rw [← List.length_eq_zero_iff, length_of_mapM hkeys, List.length_eq_zero_iff]
        exact List.isEmpty_iff.mp hnone.2
      intro one hone
      rw [List.mem_singleton.mp hone, hnokeys]
      exact Group.start_fits .nil hcalls
    · exact hgroups.fit
  · split
    · exact Nat.le_max_left _ _
    · omega

end

theorem sure_aggregate (hsees : ∀ masks, T.sees masks) (hverify : config.verify = false)
    (h : Sure T input input.start.cells) (hcounted : input.rowsBelow input.start.cells ≤ maxCount)
    (hplain : ∀ e ∈ keys, e.isPlain = true) (hkeys : keys.mapM (Expr.resolve input.types) = .ok keyTypes)
    (hcalls : ∀ c ∈ calls, c.Fits input.types)
    (hgives : Gives T (aggregate config keys keyTypes calls input) (aggregate config keys keyTypes calls input) rows
      (aggregate config keys keyTypes calls input).start.cells) :
    Sure T (aggregate config keys keyTypes calls input) (aggregate config keys keyTypes calls input).start.cells :=
  sure_of_output hsees hverify h hcounted rfl rfl (fun _ _ _ => rfl) (fun _ _ => rfl) (fun _ => rfl) rfl
    (fun _ _ hgiven hs => agree_groupInput keyTypes hgiven hs)
    (fun _ hinput _ => groupInput_ends hplain hkeys hcalls hinput) hgives

end Operator
end QueryEngine
