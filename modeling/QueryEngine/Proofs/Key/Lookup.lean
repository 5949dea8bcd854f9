import QueryEngine.Key.Map
import QueryEngine.Proofs.Result
import QueryEngine.Proofs.Value.Datum

/-! Keys and what is found under them.

Two keys join when no part of either is NULL and their parts are the same. A map
finds what was last put under a key of the same canonical form (`get?_put`), so an
index of rows finds, for a key without NULL, the rows whose keys it joins. -/
namespace QueryEngine

theorem Column.get_ok {c : Column} {row : Nat} {v : Scalar} (h : c.get row = .ok v) : v = (c.datum row).value := by
  unfold Column.get at h
  split at h
  · rename_i s hs
    cases h
    rw [Column.datum, hs, Option.getD_some]
  · cases h

namespace Key

/-- What some columns have in a row. -/
def valuesAt (columns : List Column) (row : Nat) : Key := columns.map fun c => (c.datum row).value

def hasNull (k : Key) : Bool := k.any Scalar.isNull

@[simp] theorem hasNull_cons (v : Scalar) (k : Key) : hasNull (v :: k) = (v.isNull || hasNull k) := rfl

/-- No part of either key is NULL, and the parts are the same. -/
def joins (l r : Key) : Bool := (l.zip r).all fun p => !p.1.isNull && !p.2.isNull && p.1.same p.2

theorem ofRow_ok {columns : List Column} {row : Nat} {key : Key} (h : ofRow columns row = .ok key) :
    key = valuesAt columns row := by
  have hall := mapM_eq_ok_iff.mp h
  clear h
  induction hall with
  | nil => rfl
  | cons hc _ ih => rw [valuesAt, List.map_cons, ← valuesAt, ← ih, ← Column.get_ok hc]

theorem ofRow_of_lt {columns : List Column} {row : Nat} (h : ∀ c ∈ columns, row < c.size) :
    ∃ key, ofRow columns row = .ok key :=
  mapM_of_forall fun c hc => ⟨_, c.get_eq_ok row (h c hc)⟩

theorem joining?_of_lt {columns : List Column} {row : Nat} (h : ∀ c ∈ columns, row < c.size) :
    ∃ key, joining? columns row = .ok key := by
  induction columns with
  | nil => exact ⟨_, rfl⟩
  | cons c columns ih =>
    obtain ⟨rest, hrest⟩ := ih fun c' hc' => h c' (List.mem_cons_of_mem _ hc')
    rw [joining?, c.get_eq_ok row (h c (List.mem_cons_self ..)), ok_bind]
    split
    · exact ⟨_, rfl⟩
    · rw [hrest]
      exact ⟨_, rfl⟩

theorem joining?_ok {columns : List Column} {row : Nat} {found : Option Key}
    (h : joining? columns row = .ok found) :
    found = if (valuesAt columns row).hasNull then none else some (valuesAt columns row) := by
  induction columns generalizing found with
  | nil =>
    cases h
    rfl
  | cons c columns ih =>
    obtain ⟨v, hv, h⟩ := bind_eq_ok.mp h
    have hhead : valuesAt (c :: columns) row = v :: valuesAt columns row := by
      rw [Column.get_ok hv]
      rfl
    rw [hhead, hasNull, List.any_cons]
    by_cases hn : v.isNull = true
    · rw [if_pos hn] at h
      cases h
      rw [hn, Bool.true_or, if_pos rfl]
    · rw [if_neg hn] at h
      obtain ⟨rest, hrest, h⟩ := bind_eq_ok.mp h
      cases h
      rw [ih hrest, hasNull, Bool.eq_false_iff.mpr hn, Bool.false_or]
      split <;> rfl

theorem joins_eq {l r : Key} (h : l.length = r.length) :
    l.joins r = (!l.hasNull && !r.hasNull && decide (l.canonical = r.canonical)) := by
  induction l generalizing r with
  | nil =>
    cases r with
    | nil => rfl
    | cons w r => cases h
  | cons v l ih =>
    cases r with
    | nil => cases h
    | cons w r =>
      have hjoins : joins (v :: l) (w :: r) = (!v.isNull && !w.isNull && v.same w && joins l r) := rfl
      have hcanonical : decide (canonical (v :: l) = canonical (w :: r)) =
          (v.same w && decide (canonical l = canonical r)) := by
        rw [Scalar.same, ← Bool.decide_and, decide_eq_decide]
        exact List.cons_eq_cons
      rw [hjoins, ih (Nat.succ.inj h), hcanonical, hasNull_cons, hasNull_cons]
      cases v.isNull <;> cases w.isNull <;> cases v.same w <;> simp

end Key

/-! ### Maps -/

namespace KeyMap
variable {α : Type}

theorem lookup_entry (k k' : Key) (a : α) (entries : List (Key × α)) :
    List.lookup k' ((k, a) :: entries) = if k' = k then some a else entries.lookup k' := by
  rw [List.lookup_cons]
  by_cases h : k' = k
  · rw [if_pos h, beq_iff_eq.mpr h]
  · rw [if_neg h, beq_eq_false_iff_ne.mpr h]

theorem lookup_putEntry (k k' : Key) (a : α) (entries : List (Key × α)) :
    (putEntry k a entries).lookup k' = if k' = k then some a else entries.lookup k' := by
  induction entries with
  | nil => exact lookup_entry k k' a []
  | cons e entries ih =>
    obtain ⟨k₀, a₀⟩ := e
    rw [putEntry]
    by_cases h₀ : k₀ = k
    · rw [if_pos h₀, lookup_entry, lookup_entry, h₀]
      split <;> rfl
    · rw [if_neg h₀, lookup_entry, lookup_entry, ih]
      by_cases h : k' = k₀
      · rw [if_pos h, if_pos h, if_neg fun hk => h₀ (h.symm.trans hk)]
      · rw [if_neg h, if_neg h]

theorem get?_put (m : KeyMap α) (k k' : Key) (a : α) :
    (m.put k a).get? k' = if k'.canonical = k.canonical then some a else m.get? k' :=
  lookup_putEntry _ _ _ _

theorem get?_addRow (m : KeyMap (List Nat)) (k k' : Key) (row : Nat) :
    (m.addRow k row).get? k' =
      if k'.canonical = k.canonical then some ((m.get? k').getD [] ++ [row]) else m.get? k' := by
  rw [addRow, get?_put]
  by_cases h : k'.canonical = k.canonical
  · rw [if_pos h, if_pos h, get?, get?, h]
  · rw [if_neg h, if_neg h]

theorem mem_putEntry {k : Key} {a b : α} {entries : List (Key × α)} (h : b ∈ (putEntry k a entries).map Prod.snd) :
    b = a ∨ b ∈ entries.map Prod.snd := by
  induction entries with
  | nil => simpa [putEntry] using h
  | cons e entries ih =>
    rw [putEntry] at h
    split at h
    · rw [List.map_cons, List.mem_cons] at h ⊢
      exact h.imp_right .inr
    · rw [List.map_cons, List.mem_cons] at h ⊢
      rcases h with h | h
      · exact .inr (.inl h)
      · exact (ih h).imp_right .inr

/-- What is put is all that comes to the values. -/
theorem mem_values_put {m : KeyMap α} {k : Key} {a b : α} (h : b ∈ (m.put k a).values) : b = a ∨ b ∈ m.values :=
  mem_putEntry h

theorem mem_values_of_get? {m : KeyMap α} {k : Key} {a : α} (h : m.get? k = some a) : a ∈ m.values := by
  unfold get? at h
  unfold values
  generalize m.entries = entries at h
  induction entries with
  | nil => cases h
  | cons e entries ih =>
    obtain ⟨k₀, a₀⟩ := e
    rw [lookup_entry] at h
    split at h
    · cases h
      exact List.mem_cons_self ..
    · exact List.mem_cons_of_mem _ (ih h)

theorem length_putEntry_le (k : Key) (a : α) (entries : List (Key × α)) :
    (putEntry k a entries).length ≤ entries.length + 1 := by
  induction entries with
  | nil => exact Nat.le_refl _
  | cons e entries ih =>
    rw [putEntry]
    split
    · exact Nat.le_succ _
    · exact Nat.succ_le_succ ih

theorem size_put_le (m : KeyMap α) (k : Key) (a : α) : (m.put k a).size ≤ m.size + 1 := length_putEntry_le _ _ _

end KeyMap
end QueryEngine
