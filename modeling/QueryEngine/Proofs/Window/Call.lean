import Mathlib.Data.List.SplitBy
import QueryEngine.Proofs.Expr.Accumulated
import QueryEngine.Proofs.Key.Lookup
import QueryEngine.Proofs.Sort.Rows
import QueryEngine.Window.Call

/-! Window calls that were resolved.

A call with no calls in its arguments and keys, and no sort key of type NULL, has a value
of its type for every row (`WindowCall.evaluate_yields`), unless an expression in it or a
sum fails on data. The rows of a partition are rows of the chunk, however they are put
in order and divided into runs, so that all keys and arguments can be read there. -/
namespace QueryEngine

namespace KeyMap
variable {α : Type}

/-- Rows under their keys are the rows that were read. -/
theorem ofRows_yields {columns : List Column} {rows : List Nat} (h : ∀ c ∈ columns, ∀ r ∈ rows, r < c.size) :
    Yields QueryError.OfData (ofRows columns rows) fun m => ∀ found ∈ m.values, ∀ r ∈ found, r ∈ rows := by
  unfold ofRows
  refine Yields.foldlM (I := fun m : KeyMap (List Nat) => ∀ found ∈ m.values, ∀ r ∈ found, r ∈ rows) nofun
    fun m row hrow hm => ?_
  obtain ⟨key, hkey⟩ := Key.ofRow_of_lt fun c hc => h c hc row hrow
  rw [hkey, ok_bind]
  intro found hfound r hr
  rcases mem_values_put hfound with rfl | hfound
  · rcases List.mem_append.mp hr with hr | hr
    · cases hget : m.get? key with
      | none =>
        rw [hget] at hr
        cases hr
      | some before =>
        rw [hget] at hr
        exact hm before (mem_values_of_get? hget) r hr
    · rw [List.mem_singleton.mp hr]
      exact hrow
  · exact hm found hfound r hr

end KeyMap

namespace WindowCall

/-- No call stands within the call. -/
structure Flat (w : WindowCall) : Prop where
  args : ∀ e ∈ w.args, e.isPlain = true
  partitions : ∀ e ∈ w.partitions, e.isPlain = true
  orders : ∀ k ∈ w.orders, k.expr.isPlain = true

/-- What the compiler has checked of a call over columns of the given types, and that no
call stands in it. -/
structure Fits (w : WindowCall) (types : List SqlType) : Prop where
  arguments : ∀ e ∈ w.args, e.isPlain = true
  partitions : Expr.Resolved types w.partitions
  orders : Sortable types w.orders
  resolved : Expr.windowType w.function (w.args.map (Expr.resolve types)) = .ok w.type

/-- A value of the call's type in each row that has one. -/
def Typed (t : SqlType) (values : List RowValue) : Prop := ∀ v ∈ values, v.2.Fits t

/-! ### One partition -/

/-- What a call returns for an argument of a type. -/
def Returns (f : WindowFunction) (argument : Option SqlType) (t : SqlType) : Prop :=
  match f with
  | .aggregate f => f.returnType argument = .ok t
  | _ => t = .bigInt

theorem typed_ranks (before : Nat) (runs : List (List Nat)) : Typed .bigInt (ranks before runs) := by
  induction runs generalizing before with
  | nil => exact nofun
  | cons run runs ih =>
    intro v hv
    rcases List.mem_append.mp hv with hv | hv
    · obtain ⟨row, _, rfl⟩ := List.mem_map.mp hv
      exact .inr rfl
    · exact ih _ v hv

theorem typed_rowNumbers (rows : List Nat) : Typed .bigInt (rowNumbers rows) := fun v hv => by
  obtain ⟨_, _, rfl⟩ := List.mem_map.mp hv
  exact .inr rfl

theorem typed_denseRanks (runs : List (List Nat)) : Typed .bigInt (denseRanks runs) := fun v hv => by
  obtain ⟨_, _, hv⟩ := List.mem_flatMap.mp hv
  obtain ⟨_, _, rfl⟩ := List.mem_map.mp hv
  exact .inr rfl

/-- The argument has a value of its type in each of the rows. -/
def Argues (argument : Option SqlType) (column : Option Column) (rows : List Nat) : Prop :=
  argument = column.map Column.type ∧ ∀ c, column = some c → ∀ r ∈ rows, r < c.size

section
variable {argument : Option SqlType} {column : Option Column} {a : Accumulator}

theorem accumulate_yields {rows : List Nat} (hargument : Argues argument column rows) (ha : a.FitsArgument argument) :
    Yields QueryError.OfData (accumulate column a rows) fun b => b.FitsArgument argument ∧ b.type = a.type := by
  unfold accumulate
  refine Yields.foldlM (I := fun b : Accumulator => b.FitsArgument argument ∧ b.type = a.type) ⟨ha, rfl⟩
    fun b row hrow ⟨hb, htype⟩ => ?_
  obtain ⟨htyped, hin⟩ := hargument
  cases column with
  | none => exact (Accumulator.update_yields (v := none) hb htyped).mono fun _ h => ⟨h.1, h.2.2.trans htype⟩
  | some c =>
    have hlt : row < c.slots.length := hin c rfl row hrow
    have hv : Scalar.Argues argument (some c.slots[row]) := ⟨c.type, htyped, c.typed _ (List.getElem_mem _)⟩
    simp only [c.get_eq_ok row hlt]
    exact (Accumulator.update_yields hb hv).mono fun _ h => ⟨h.1, h.2.2.trans htype⟩

theorem runningAggregates_yields {frames : List (List Nat)} (hargument : ∀ frame ∈ frames, Argues argument column frame)
    (ha : a.FitsArgument argument) : Yields QueryError.OfData (runningAggregates column a frames) (Typed a.type) := by
  induction frames generalizing a with
  | nil => exact nofun
  | cons frame frames ih =>
    rw [runningAggregates]
    refine (accumulate_yields (hargument frame (List.mem_cons_self ..)) ha).bind fun b ⟨hb, htype⟩ => ?_
    refine (ih (fun frame' hframe' => hargument frame' (List.mem_cons_of_mem _ hframe')) hb).bind fun rest hrest => ?_
    intro v hv
    rcases List.mem_append.mp hv with hv | hv
    · obtain ⟨row, _, rfl⟩ := List.mem_map.mp hv
      exact htype ▸ Accumulator.value_fits hb
    · exact htype ▸ hrest v hv

variable {w : WindowCall} {keys : List SortColumn} {rows : List Nat}

theorem partitionValues_yields (hkeys : ∀ c ∈ keys, ∀ r ∈ rows, r < c.values.size)
    (hargument : Argues argument column rows)
    (htype : Returns w.function argument w.type) :
    Yields Failure.OfData (w.partitionValues keys column rows) (Typed w.type) := by
  obtain ⟨sorted, hsorted, hperm⟩ := Rows.sort_ok hkeys
  unfold partitionValues
  rw [hsorted, ok_bind]
  generalize hruns : (sorted.splitBy fun a b => (Rows.compare keys a b).isEq) = runs
  cases hf : w.function with
  | rowNumber =>
    rw [hf] at htype
    exact htype ▸ typed_rowNumbers sorted
  | rank =>
    rw [hf] at htype
    exact htype ▸ typed_ranks 0 runs
  | denseRank =>
    rw [hf] at htype
    exact htype ▸ typed_denseRanks runs
  | aggregate f =>
    rw [hf] at htype
    refine Yields.lift (runningAggregates_yields (fun frame hframe => ?_) (Accumulator.start_fits htype))
    refine ⟨hargument.1, fun c hc r hr => hargument.2 c hc r (hperm.mem_iff.mp ?_)⟩
    split at hframe
    · rw [List.mem_singleton.mp hframe] at hr
      exact hr
    · rw [← hruns] at hframe
      have hflat := List.mem_flatten.mpr ⟨frame, hframe, hr⟩
      rwa [List.flatten_splitBy] at hflat

end

/-! ### All rows -/

/-- A value in the order of the rows is one of the values or NULL. -/
theorem fits_inRowOrder {t : SqlType} {count : Nat} {values : List RowValue} (h : Typed t values) :
    ∀ v ∈ inRowOrder count values, v.Fits t := by
  unfold inRowOrder
  have hkept (slots : Array Scalar) (hslots : ∀ v ∈ slots.toList, v.Fits t) :
      ∀ v ∈ (values.foldl (fun slots v => slots.setIfInBounds v.1 v.2) slots).toList, v.Fits t := by
    induction values generalizing slots with
    | nil => exact hslots
    | cons value values ih =>
      refine ih (fun v hv => h v (List.mem_cons_of_mem _ hv)) _ fun v hv => ?_
      rw [Array.toList_setIfInBounds] at hv
      rcases List.mem_or_eq_of_mem_set hv with hv | rfl
      · exact hslots v hv
      · exact h value (List.mem_cons_self ..)
  refine hkept _ fun v hv => ?_
  rw [Array.toList_replicate] at hv
  rw [(List.mem_replicate.mp hv).2]
  exact Scalar.null_fits t

/-- A call that was resolved has no argument, or one that was resolved. -/
theorem returns_of_windowType {f : WindowFunction} {types : List SqlType} {args : List Expr} {t : SqlType}
    (h : Expr.windowType f (args.map (Expr.resolve types)) = .ok t) :
    (args = [] ∧ Returns f none t) ∨ ∃ e u, args = [e] ∧ e.resolve types = .ok u ∧ Returns f (some u) t := by
  have hranking : (if (args.map (Expr.resolve types)).isEmpty then (.ok .bigInt : Except QueryError SqlType)
      else .error (.invalidPlan (.windowArgument f))) = .ok t → args = [] ∧ t = .bigInt := fun h => by
    split at h
    · rename_i hempty
      exact ⟨by simpa using hempty, (Except.ok.inj h).symm⟩
    · cases h
  cases f with
  | aggregate f => exact Expr.callType_eq_ok.mp h
  | _ => exact .inl (hranking h)

variable {w : WindowCall} {chunk : Chunk}

/-- The arguments of a call have the type that it was resolved for. -/
theorem arguments_ok (hc : chunk.Sound)
    (hresolved : Expr.windowType w.function (w.args.map (Expr.resolve chunk.types)) = .ok w.type) {args : List Column}
    (h : w.args.mapM (Expr.evaluate chunk) = .ok args) :
    (∀ c, args.head? = some c → c.size = chunk.physicalRows) ∧ Returns w.function (args.head?.map Column.type) w.type := by
  rcases returns_of_windowType hresolved with ⟨hargs, ht⟩ | ⟨e, u, hargs, he, ht⟩ <;> rw [hargs] at h
  · cases h
    exact ⟨nofun, ht⟩
  · obtain ⟨c, hcol, h⟩ := bind_eq_ok.mp h
    cases h
    refine ⟨fun c' hc' => ?_, ?_⟩
    · cases hc'
      exact (Expr.evaluate_rowwise hc hcol).size
    · show Returns w.function (some c.type) w.type
      rw [Expr.evaluate_type hc he hcol]
      exact ht

theorem Fits.arguments_yield (hc : chunk.Sound) (h : w.Fits chunk.types) :
    Yields Failure.OfData (w.args.mapM (Expr.evaluate chunk)) fun args =>
      (∀ c, args.head? = some c → c.size = chunk.physicalRows) ∧ Returns w.function (args.head?.map Column.type) w.type := by
  have hplain : Expr.Resolved chunk.types w.args := fun e he => by
    refine ⟨h.arguments e he, ?_⟩
    rcases returns_of_windowType h.resolved with ⟨hargs, _⟩ | ⟨_, u, hargs, hu, _⟩ <;> rw [hargs] at he
    · cases he
    · exact ⟨u, List.mem_singleton.mp he ▸ hu⟩
  exact (hplain.evaluate_yields hc).and_ok.mono fun _ hargs => arguments_ok hc h.resolved hargs.2

theorem evaluate_yields (hc : chunk.Sound) (hflat : chunk.selection = none)
    (h : w.Fits chunk.types) : Yields Failure.OfData (w.evaluate chunk) fun _ => True := by
  have hrows (r : Nat) (hr : r ∈ List.range chunk.count) : r < chunk.physicalRows :=
    hc.flat hflat ▸ List.mem_range.mp hr
  unfold evaluate
  refine (h.partitions.evaluate_yields hc).bind fun partitionKeys hkeys => ?_
  refine (SortColumn.ofKeys_yields hc h.orders).bind fun sortKeys hsortKeys => ?_
  refine (h.arguments_yield hc).bind fun args ⟨hsize, htype⟩ => ?_
  have hread (c : Column) (hcol : c ∈ partitionKeys) (r : Nat) (hr : r ∈ List.range chunk.count) : r < c.size := by
    rw [hkeys c hcol]
    exact hrows r hr
  refine (Yields.lift (KeyMap.ofRows_yields hread)).bind fun partitions hpartitions => ?_
  have hvalues : Yields Failure.OfData (partitions.values.mapM (w.partitionValues sortKeys args.head?)) fun values =>
      List.Forall₂ (fun _ vs => Typed w.type vs) partitions.values values := by
    refine Yields.mapM fun rows hmem => partitionValues_yields (fun c hcol r hr => ?_) ⟨rfl, fun c hcol r hr => ?_⟩ htype
    · rw [hsortKeys c hcol]
      exact hrows r (hpartitions rows hmem r hr)
    · rw [hsize c hcol]
      exact hrows r (hpartitions rows hmem r hr)
  refine hvalues.bind fun values hvalues => ?_
  have htyped : Typed w.type values.flatten := fun v hv => by
    obtain ⟨vs, hvs, hv⟩ := List.mem_flatten.mp hv
    obtain ⟨_, _, htyped⟩ := exists_of_mem_right hvalues hvs
    exact htyped v hv
  obtain ⟨column, hcolumn⟩ : ∃ column, Column.ofScalars w.type (inRowOrder chunk.count values.flatten) = .ok column :=
    Column.ofScalars_of_fits (fits_inRowOrder htyped)
  exact Yields.lift (.of_ok hcolumn trivial)

end WindowCall
end QueryEngine
