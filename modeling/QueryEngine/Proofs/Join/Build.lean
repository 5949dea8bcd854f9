import QueryEngine.Join.Build
import QueryEngine.Proofs.Chunk.Collected
import QueryEngine.Proofs.Join.NestedLoop

/-! The hashed side of a join.

The index finds, under a key without NULL, the rows whose keys it joins, in their
order (`Indexes`); it has nothing under a key that joins none. -/
namespace QueryEngine

/-- The expressions have, on any chunk of the given types, the keys of its rows. -/
def KeyOn (keys : List Expr) (types common : List SqlType) (key : Row → Key) : Prop :=
  ∀ chunk cs, chunk.Sound → chunk.types = types → keys.mapM (Expr.evaluate chunk) = .ok cs →
    cs.map Column.type = common ∧ ∀ r ∈ chunk.activeRows, Key.valuesAt cs r = key (chunk.row r)

/-- Right rows, indexed. -/
structure JoinSide.Indexes (s : JoinSide) (types common : List SqlType) (key : Row → Key) (rows : List Row) : Prop where
  lists : Lists s.columns types rows
  counted : s.rows = rows.length
  width : ∀ r ∈ rows, (key r).length = common.length
  found : ∀ k : Key, k.length = common.length → k.hasNull = false →
    s.index.get? k =
      if rows.any fun r => k.joins (key r) then
        some ((List.range s.rows).filter fun i => k.joins (key (s.columns.map fun c => c.datum i)))
      else none
  hasNull : s.hasNull = rows.any fun r => (key r).hasNull
  /-- A part of type NULL is NULL in every key. -/
  untyped : rows ≠ [] → .sqlNull ∈ common → s.hasNull = true

namespace JoinSide

theorem Indexes.rows_eq_zero_iff {s : JoinSide} {types common : List SqlType} {key : Row → Key} {rows : List Row}
    (h : s.Indexes types common key rows) : s.rows = 0 ↔ rows = [] := by
  rw [h.counted, List.length_eq_zero_iff]

theorem get?_addRow {s : JoinSide} {keyAt : Nat → Key} {k : Key} {r : Nat} (hk : k.hasNull = false)
    (hlen : k.length = (keyAt r).length) :
    (s.addRow r (if (keyAt r).hasNull then none else some (keyAt r))).index.get? k =
      if k.joins (keyAt r) then some ((s.index.get? k).getD [] ++ [r]) else s.index.get? k := by
  rw [Key.joins_eq hlen, hk]
  by_cases hn : (keyAt r).hasNull = true
  · simp [hn, addRow]
  · simp [hn, addRow, KeyMap.get?_addRow]

/-- Rows that are found one after the other are found together. -/
theorem found_cons (p : Nat → Bool) (r : Nat) (rs : List Nat) (before : Option (List Nat)) :
    (let found := if p r then some (before.getD [] ++ [r]) else before
      if rs.any p then some (found.getD [] ++ rs.filter p) else found) =
      if (r :: rs).any p then some (before.getD [] ++ (r :: rs).filter p) else before := by
  rw [List.any_cons, List.filter_cons]
  cases p r with
  | false => rfl
  | true =>
    cases hany : rs.any p with
    | true => simp
    | false =>
      have hnone : rs.filter p = [] := by
        rw [List.filter_eq_nil_iff]
        exact List.any_eq_false.mp hany
      simp [hnone]

theorem fold_addRow {keyColumns : List Column} {rs : List Nat} {s t : JoinSide}
    (h : rs.foldlM (fun (s : JoinSide) r => do return s.addRow r (← Key.joining? keyColumns r)) s =
      (.ok t : Except Failure JoinSide)) :
    t.columns = s.columns ∧ t.rows = s.rows ∧
      t.hasNull = (s.hasNull || rs.any fun r => (Key.valuesAt keyColumns r).hasNull) ∧
      ∀ k : Key, k.length = keyColumns.length → k.hasNull = false →
        t.index.get? k = if rs.any fun r => k.joins (Key.valuesAt keyColumns r) then
          some ((s.index.get? k).getD [] ++ rs.filter fun r => k.joins (Key.valuesAt keyColumns r)) else s.index.get? k := by
  induction rs generalizing s with
  | nil =>
    cases h
    refine ⟨rfl, rfl, (Bool.or_false _).symm, fun _ _ _ => rfl⟩
  | cons r rs ih =>
    rw [List.foldlM_cons] at h
    obtain ⟨s', hs', h⟩ := bind_eq_ok.mp h
    obtain ⟨found, hfound, hs'⟩ := bind_eq_ok.mp hs'
    cases hs'
    rw [Key.joining?_ok (lift_eq_ok.mp hfound)] at h
    obtain ⟨hcolumns, hrows, hnull, hget⟩ := ih h
    refine ⟨?_, ?_, ?_, fun k hk hn => ?_⟩
    · rw [hcolumns]
      split <;> rfl
    · rw [hrows]
      split <;> rfl
    · rw [hnull, List.any_cons, ← Bool.or_assoc]
      congr 1
      split
      · rename_i hr
        rw [hr, Bool.or_true]
        rfl
      · rename_i hr
        rw [Bool.eq_false_iff.mpr hr, Bool.or_false]
        rfl
    · have hlen : k.length = (Key.valuesAt keyColumns r).length := by rw [hk, Key.valuesAt, List.length_map]
      rw [hget k hk hn, get?_addRow hn hlen]
      exact found_cons (fun r => k.joins (Key.valuesAt keyColumns r)) r rs (s.index.get? k)

theorem ofColumns_ok {keys : List Expr} {columns : List Column} {types common : List SqlType} {rows : List Row}
    {key : Row → Key} {s : JoinSide} (hc : Lists columns types rows) (hkey : KeyOn keys types common key)
    (h : ofColumns keys columns rows.length = .ok s) : s.Indexes types common key rows := by
  unfold ofColumns at h
  by_cases hzero : rows.length = 0
  · rw [if_pos hzero] at h
    cases h
    cases List.length_eq_zero_iff.mp hzero
    exact ⟨hc, rfl, fun _ hr => (by cases hr), fun _ _ _ => rfl, rfl, fun hne => absurd rfl hne⟩
  rw [if_neg hzero] at h
  obtain ⟨input, hinput, hrest⟩ := bind_eq_ok.mp h
  obtain ⟨keyColumns, hkeyColumns, hfold⟩ := bind_eq_ok.mp hrest
  obtain ⟨_, _, hinput⟩ := bind_eq_ok.mp (lift_eq_ok.mp hinput)
  cases hinput
  have hsound : Chunk.Sound ⟨columns, none, rows.length, max defaultCapacity (columns.head?.elim 0 Column.size)⟩ :=
    Chunk.sound_flat fun _ hmem => hc.size hmem
  obtain ⟨hcommon, hvalues⟩ := hkey _ keyColumns hsound hc.typed hkeyColumns
  have hat (r : Nat) (hr : r ∈ List.range rows.length) :
      Key.valuesAt keyColumns r = key (columns.map fun c => c.datum r) := hvalues r hr
  have hmap : (List.range rows.length).map (fun r => columns.map fun c => c.datum r) = rows := hc.toRows_eq
  have hkeys : (List.range rows.length).map (Key.valuesAt keyColumns) = rows.map key := by
    conv_rhs => rw [← hmap, List.map_map]
    exact List.map_congr_left hat
  have hany (p : Key → Bool) : ((List.range rows.length).any fun r => p (Key.valuesAt keyColumns r)) =
      rows.any fun row => p (key row) := by
    have hp := congrArg (List.any · p) hkeys
    rw [List.any_map, List.any_map] at hp
    exact hp
  obtain ⟨hcolumns, hrows, hnull, hget⟩ := fold_addRow hfold
  refine ⟨hcolumns ▸ hc, hrows, fun r hr => ?_, fun k hk hn => ?_, ?_, fun _ huntyped => ?_⟩
  · have hmem : key r ∈ (List.range rows.length).map (Key.valuesAt keyColumns) := hkeys ▸ List.mem_map_of_mem hr
    obtain ⟨i, _, hi⟩ := List.mem_map.mp hmem
    rw [← hi, Key.valuesAt, List.length_map, ← hcommon, List.length_map]
  · have hlen : k.length = keyColumns.length := by rw [hk, ← hcommon, List.length_map]
    rw [hget k hlen hn, hany fun k' => k.joins k', hcolumns, hrows]
    congr 2
    exact List.filter_congr fun r hr => by rw [hat r hr]
  · rw [hnull, hany Key.hasNull]
    rfl
  · rw [← hcommon] at huntyped
    obtain ⟨c, hmem, htype⟩ := List.mem_map.mp huntyped
    rw [hnull, Bool.or_eq_true_iff]
    refine .inr (List.any_eq_true.mpr ⟨0, List.mem_range.mpr (by omega), ?_⟩)
    rw [Key.hasNull, Key.valuesAt, List.any_map]
    refine List.any_eq_true.mpr ⟨c, hmem, ?_⟩
    show (c.datum 0).value.isNull = true
    rw [Column.value_of_untyped htype 0]
    rfl

/-- The rows that a left row matches. -/
theorem matches?_ok {s : JoinSide} {types common : List SqlType} {key : Row → Key} {rows : List Row}
    (hs : s.Indexes types common key rows) {keyColumns : List Column} {row : Nat} {found : Option (List Nat)}
    (hlen : keyColumns.length = common.length) (h : s.matches? keyColumns row = .ok found) :
    found =
      if rows.any fun r => (Key.valuesAt keyColumns row).joins (key r) then
        some ((List.range s.rows).filter fun i =>
          (Key.valuesAt keyColumns row).joins (key (s.columns.map fun c => c.datum i)))
      else none := by
  obtain ⟨joining, hjoining, h⟩ := bind_eq_ok.mp h
  cases h
  rw [Key.joining?_ok hjoining]
  by_cases hn : (Key.valuesAt keyColumns row).hasNull = true
  · have hnone : (rows.any fun r => (Key.valuesAt keyColumns row).joins (key r)) = false := by
      refine List.any_eq_false.mpr fun r hr => ?_
      rw [Key.joins_eq (by rw [hs.width r hr, Key.valuesAt, List.length_map, hlen]), hn]
      exact Bool.false_ne_true
    rw [if_pos hn, hnone]
    rfl
  · rw [if_neg hn]
    exact hs.found _ (by rw [Key.valuesAt, List.length_map, hlen]) (Bool.eq_false_iff.mpr hn)

end JoinSide
end QueryEngine
