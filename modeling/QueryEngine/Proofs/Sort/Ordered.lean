import Mathlib
import QueryEngine.Proofs.Join.Hash
import QueryEngine.Proofs.Pull.Served
import QueryEngine.Proofs.Sort.Rows
import QueryEngine.Proofs.Sort.Stable

/-! Sorting a stream.

Whatever chunks and selections the input comes in, a sort hands out all its rows in the
order of the keys; rows that the keys do not tell apart stay in the order in which they
came, also from one chunk to the next. Rows are named by their places in the stream, so
that equal rows are told apart. -/
namespace QueryEngine

/-- The places of some rows in the order of the keys. -/
structure SortKey.Orders (keys : List SortKey) (rows : List Row) (places : List Nat) : Prop where
  perm : places.Perm (List.range rows.length)
  before : places.Pairwise (SortKey.Before keys fun i => rows.getD i [])

namespace SortKey
variable {keys : List SortKey} {rows : List Row}

/-- The rows in order are the rows. -/
theorem Orders.perm_rows {places : List Nat} (h : Orders keys rows places) :
    (places.map fun i => rows.getD i []).Perm rows := by
  conv_rhs => rw [← map_getD_range rows []]
  exact h.perm.map _

/-- Where keys tell no rows apart, they leave them as they are. -/
theorem orders_range (h : ∀ a ∈ rows, ∀ b ∈ rows, compareRows keys a b = .eq) :
    Orders keys rows (List.range rows.length) := by
  refine ⟨.refl _, List.pairwise_lt_range.imp_of_mem fun {i j} hi hj hlt => .inr ⟨?_, hlt⟩⟩
  have hmem (i : Nat) (hi : i ∈ List.range rows.length) : rows.getD i [] ∈ rows := by
    rw [List.mem_range] at hi
    simp [List.getD_eq_getElem?_getD, hi]
  exact h _ (hmem i hi) _ (hmem j hj)

end SortKey

/-- Columns that were put in order list the rows in the order of the keys. -/
theorem Rows.sortColumns_orders {keys : List SortKey} {types : List SqlType} {rows : List Row} {cs ds : List Column}
    (hcs : Lists cs types rows) (h : sortColumns keys cs = .ok ds) :
    ∃ places, SortKey.Orders keys rows places ∧
      Column.toRows ds rows.length = places.map fun i => rows.getD i [] := by
  unfold sortColumns at h
  by_cases hk : keys.isEmpty = true
  · rw [if_pos hk] at h
    cases h
    rw [List.isEmpty_iff.mp hk]
    exact ⟨_, SortKey.orders_range fun _ _ _ _ => rfl, by rw [hcs.toRows_eq, map_getD_range]⟩
  rw [if_neg hk] at h
  obtain ⟨input, hinput, h⟩ := bind_eq_ok.mp h
  obtain ⟨sortColumns, hsortColumns, h⟩ := bind_eq_ok.mp h
  obtain ⟨sorted, hsorted, h⟩ := bind_eq_ok.mp h
  obtain ⟨input', hinput', hsound, hcolumns, hflat, hcount⟩ := Chunk.ofColumns_ok fun c hc => hcs.size hc
  cases hinput'.symm.trans (lift_eq_ok.mp hinput)
  cases cs with
  | nil =>
    -- there is nothing to tell rows apart by
    cases h
    have hnone (a : Row) (ha : a ∈ rows) : a = [] := by
      rw [← List.length_eq_zero_iff, hcs.width a ha, ← hcs.length]
      rfl
    refine ⟨_, SortKey.orders_range fun a ha b hb => ?_, ?_⟩
    · rw [hnone a ha, hnone b hb]
      exact Std.ReflCmp.compare_self
    · rw [map_getD_range]
      exact hcs.toRows_eq
  | cons c cs =>
    have hcount := hcount (List.cons_ne_nil _ _)
    have hrow (i : Nat) (hi : i < rows.length) : input.row i = rows.getD i [] := by
      rw [Chunk.row, hcolumns, hcs.row (List.getElem?_eq_getElem hi), List.getD_eq_getElem?_getD,
        List.getElem?_eq_getElem hi, Option.getD_some]
    have hactive : input.activeRows = List.range rows.length := by rw [Chunk.activeRows, hflat, hcount, Option.getD_none]
    have hkeys (i : Nat) (hi : i ∈ List.range rows.length) (j : Nat) (hj : j ∈ List.range rows.length) :
        compare sortColumns i j = SortKey.compareRows keys (rows.getD i []) (rows.getD j []) := by
      rw [SortColumn.compare_ofKeys hsound hsortColumns (hactive ▸ hi) (hactive ▸ hj), hrow i (List.mem_range.mp hi),
        hrow j (List.mem_range.mp hj)]
    rw [hcount] at hsorted
    obtain ⟨hperm, hbefore⟩ := sort_ordered hkeys List.pairwise_lt_range hsorted
    refine ⟨sorted, ⟨hperm, hbefore⟩, ?_⟩
    have hre := Rearranged.of_gather h
    have hlength : sorted.length = rows.length := by rw [hperm.length_eq, List.length_range]
    rw [Column.toRows, ← hlength]
    conv_rhs => rw [← map_getD_range sorted 0, List.map_map]
    refine List.map_congr_left fun i hi => ?_
    have hi : i < sorted.length := List.mem_range.mp hi
    have hin : sorted.getD i 0 < rows.length := by
      rw [← List.mem_range, ← hperm.mem_iff, List.getD_eq_getElem?_getD, List.getElem?_eq_getElem hi, Option.getD_some]
      exact List.getElem_mem hi
    rw [hre.datum i hi, Function.comp_apply, ← hrow _ hin, Chunk.row, hcolumns]

namespace Operator
variable {sees : List (Nat × Mask) → Prop} {input : Operator} {rows : List Row} {chunks : List Chunk} {s : State}

theorem blocking_order (config : Config) (keys : List SortKey) (input : Operator) :
    Blocking config (order config keys input) input .order (sortInput keys input) fun
      | .order (some o) => handOut .order o
      | .order none => do handOut .order (← firstOutput .order (sortInput keys input))
      | _ => Pull.fail (.internal (.otherState "Order")) :=
  ⟨rfl, rfl, fun _ => rfl, rfl⟩

/-- What a sort has made: the rows of the input, which are of its types, in the order of the keys. -/
def Sorting (types : List SqlType) (keys : List SortKey) (given all : List Row) : Prop :=
  (∀ row ∈ given, Typed types row) ∧
    ∃ places, SortKey.Orders keys given places ∧ all = places.map fun i => given.getD i []

theorem made_order (keys : List SortKey) (f : Frame) (given : List Row)
    (h : Gives ⟨0, False, True, sees⟩ input input given f.below) (hs : sees f.session.masks) :
    Pull.Agree (sortInput keys input) (sortInput keys input) f
      (Made sees input.types (Sorting input.types keys) given f) := by
  refine (agree_sortInput_made keys h hs).mono fun o g hg => ?_
  obtain ⟨all, cs, hcs, htold, ds, hds, rfl⟩ := hg.made
  obtain rfl : all = given := htold trivial
  obtain ⟨places, horders, hrows⟩ := Rows.sortColumns_orders hcs hds
  obtain ⟨hlists, hlength⟩ := sortColumns_ok hcs hds
  refine ⟨hg.sees, hg.out, hg.unfinished, rfl, _, ⟨fun _ => hlists, hlength.symm⟩,
    fun row hrow => hcs.typed_of_mem hrow, places, horders, ?_⟩
  rw [← hrows, sortRows, ← hcs.eq_ofRows, hds]

end Operator
end QueryEngine
