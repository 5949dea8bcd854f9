import QueryEngine.Proofs.Join.Result

/-! Marks under a selection of distinct rows.

Match flags come one for each active row, marks and keys stand in physical rows. Where no
row is selected twice, the mark in the row of the `i`-th active position goes by the
`i`-th flag (`marked_settled`). What is read from a key of type NULL is NULL, but it is not
marked as such, so these keys have no say in the marks. -/
namespace QueryEngine

/-- Whether NULL is read from a row. -/
def HostArray.readsNull (a : HostArray) (row : Nat) : Bool :=
  match a.get row with
  | .ok v => v.isNull
  | .error _ => false

/-- Whether an array is of type NULL. -/
def HostArray.isUntyped (a : HostArray) : Bool := a.storage = SqlType.sqlNull.storage

theorem HostArray.isMarkedNull_eq (a : HostArray) (row : Nat) : a.isMarkedNull row = (!a.isUntyped && a.readsNull row) := by
  cases a with
  | column c =>
    have htype : (column c).isUntyped = decide (c.type = .sqlNull) := by
      simp [isUntyped, storage, SqlType.storage]
    rw [htype, isMarkedNull, readsNull, get, Column.get]
    cases hslot : c.slots[row]? with
    | none => simp
    | some v => cases v <;> simp [Scalar.isNull]
  | foreign t filled =>
    rw [isMarkedNull, readsNull, get, isUntyped, storage]
    cases hslot : filled[row]? with
    | none => simp
    | some b => cases b <;> simp [SqlType.storage, Scalar.isNull]

namespace JoinResult

/-- The mark that a flag, the keys of its row and the right side ask for. -/
def markAsked (keys : List HostArray) (rightHasNull : Bool) (row : Nat) (found : Bool) : Option Bool :=
  if found then some true
  else if rightHasNull || keys.any fun k => k.readsNull row then none
  else some false

theorem mark_eq_markAsked (keys : List HostArray) (rightHasNull : Bool) (row : Nat) (found : Bool) :
    mark keys rightHasNull row found = markAsked (keys.filter fun k => !k.isUntyped) rightHasNull row found := by
  have hany : (keys.any fun k => k.isMarkedNull row) = (keys.filter fun k => !k.isUntyped).any fun k => k.readsNull row := by
    rw [List.any_filter]
    simp only [HostArray.isMarkedNull_eq]
  rw [mark, markAsked, hany]

/-- Flags of distinct places are flags by place. -/
theorem zip_of_nodup {places : List Nat} (h : places.Nodup) {found : List Bool} (hlen : found.length = places.length) :
    places.zip found = places.map fun r => (r, found.getD (places.idxOf r) false) := by
  apply List.ext_getElem
  · simp [hlen]
  · intro i hi hi'
    have hplace : i < places.length := by simpa using hi'
    simp [h.idxOf_getElem i hplace, hlen, hplace]

variable {c : Chunk} {keys : List HostArray} {rightHasNull : Bool} {found : List Bool}

/-- A chunk with the columns and the rows of another and a column of marks. -/
structure Marked (c d : Chunk) (mark : Nat → Bool → Option Bool) (found : List Bool) : Prop where
  verified : d.verify = .ok ()
  selection : d.selection = c.selection
  count : d.count = c.count
  columns : ∃ column, d.columns = c.columns ++ [column] ∧ column.type = .boolean ∧
    ∀ (i r : Nat) (flag : Bool), c.activeRows[i]? = some r → found[i]? = some flag →
      column.datum r = .ofBoolean (mark r flag)

/-- Marking succeeds. The mark of a row is the one its flag and its keys of a type other
than NULL ask for, so it is as all keys ask where none is of type NULL. -/
theorem marked_settled (hv : c.verify = .ok ()) (hs : ∀ s, c.selection = some s → s.Nodup)
    (hkeys : ∀ k ∈ keys, k.size = c.physicalRows) (hfound : found.length = c.count) (result : Chunk) (capacity : Nat) :
    ∃ d, marked keys c found rightHasNull (result.prepare (c.types ++ [.boolean]) capacity) = .ok () d ∧
      Marked c d (markAsked (keys.filter fun k => !k.isUntyped) rightHasNull) found ∧
        ((∀ k ∈ keys, k.isUntyped = false) → Marked c d (markAsked keys rightHasNull) found) := by
  have hc := (Chunk.verify_eq_ok_iff c).mp hv
  have hdistinct : c.activeRows.Nodup := by
    unfold Chunk.activeRows
    cases hsel : c.selection with
    | none => exact List.nodup_range
    | some s => exact hs s hsel
  obtain ⟨filled, hput, _⟩ : ∃ filled, Filling.putAll 0 (c.columns ++
      [Column.ofBooleans (marks keys rightHasNull c.physicalRows (c.activeRows.zip found))])
        (Chunk.blank (c.types ++ [.boolean]) capacity) = .ok () filled ∧ _ :=
    Filling.putAll_of_types (by rw [Chunk.types_blank, List.drop_zero, List.map_append]; exact List.prefix_refl _)
  obtain ⟨d, hd⟩ : ∃ d, marked keys c found rightHasNull (Chunk.blank (c.types ++ [.boolean]) capacity) = .ok () d := by
    rw [marked_eq_putAll hc hfound hkeys, run_bind, hput]
    exact ⟨_, rfl⟩
  obtain ⟨rfl, _⟩ := marked_eq_ok hc rfl hd
  have hmarked : Marked c (Chunk.setCountFrom ⟨c.columns ++ [Column.ofBooleans (marks keys rightHasNull c.physicalRows
      (c.activeRows.zip found))], none, 0, max capacity 1⟩ c) (markAsked (keys.filter fun k => !k.isUntyped) rightHasNull)
        found := by
    refine ⟨(Chunk.verify_eq_ok_iff _).mpr (hc.setCountFrom (size_marked hc _)), rfl, rfl, _, rfl, rfl, ?_⟩
    intro i r flag hr hflag
    have hmem : r ∈ c.activeRows := List.mem_of_getElem? hr
    have hmark := getElem?_marks keys rightHasNull (fun r => found.getD (c.activeRows.idxOf r) false) hmem (hc.active_lt hmem)
    rw [← zip_of_nodup hdistinct (hfound.trans hc.length_activeRows.symm)] at hmark
    obtain ⟨hi, rfl⟩ := List.getElem?_eq_some_iff.mp hr
    rw [Column.datum_ofBooleans hmark, mark_eq_markAsked, hdistinct.idxOf_getElem i hi, List.getD_eq_getElem?_getD, hflag,
      Option.getD_some]
  refine ⟨_, hd, hmarked, fun htyped => ?_⟩
  rwa [List.filter_eq_self.mpr fun k hk => by simp [htyped k hk]] at hmarked

/-- Two rows of three are selected, in the other order; the second has a NULL key. -/
theorem marked_settled_selected :
    let c : Chunk := ⟨[.ofInts [3, 1, 2]], some [2, 0], 2, defaultCapacity⟩
    let keys : List HostArray := [.column (.ofSlots .bigInt [Slot.null .bigInt, ⟨.bigInt 1, .inr rfl⟩, ⟨.bigInt 2, .inr rfl⟩])]
    c.verify = .ok () ∧ (∀ s, c.selection = some s → s.Nodup) ∧ (∀ k ∈ keys, k.size = c.physicalRows) ∧
      ∃ d, marked keys c [false, false] false (Chunk.fresh.prepare (c.types ++ [.boolean]) defaultCapacity) = .ok () d ∧
        Marked c d (markAsked keys false) [false, false] ∧ markAsked keys false 2 false = some false ∧
          markAsked keys false 0 false = none := by
  intro c keys
  have hs (s : Selection) (h : c.selection = some s) : s.Nodup := by
    cases h
    decide
  have hkeys : ∀ k ∈ keys, k.size = c.physicalRows := by decide
  have hfound : [false, false].length = c.count := rfl
  obtain ⟨d, hd, _, hmarked⟩ := marked_settled rfl hs hkeys hfound Chunk.fresh defaultCapacity
  exact ⟨rfl, hs, hkeys, d, hd, hmarked (by decide), rfl, rfl⟩

/-- The one key of a row is NULL, of type NULL, and yet its mark is FALSE. -/
theorem marked_untyped_key :
    let c : Chunk := ⟨[.ofInts [1]], none, 1, defaultCapacity⟩
    let key : HostArray := .column (.nulls .sqlNull 1)
    c.verify = .ok () ∧ key.size = c.physicalRows ∧ key.get 0 = .ok .null ∧
      ∃ d, marked [key] c [false] false (Chunk.fresh.prepare (c.types ++ [.boolean]) defaultCapacity) = .ok () d ∧
        d.rows = [[⟨.bigInt, .bigInt 1⟩, .ofBoolean (some false)]] :=
  ⟨rfl, rfl, rfl, _, rfl, rfl⟩

end JoinResult
end QueryEngine
