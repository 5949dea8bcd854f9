import QueryEngine.Proofs.Pull.HaltingPairs

/-! What a join's right side can find.

The index of a right side has rows of the side and nothing else, under whatever key, so the
pairs that looking left rows up comes to are of these rows and of rows of the side
(`probeRows_within`). No typing of the keys is asked for. -/
namespace QueryEngine

namespace JoinSide
variable {s t : JoinSide} {types : List SqlType} {rows : List Row} {keys : List Expr} {columns keyColumns : List Column}

/-- A side whose columns have its rows and whose entries are some of them. -/
structure Ready (s : JoinSide) (types : List SqlType) : Prop where
  lists : ∃ rows, Lists s.columns types rows ∧ s.rows = rows.length
  entries : ∀ k rows, s.index.get? k = some rows → ∀ r ∈ rows, r < s.rows
  counted : s.Counted

theorem entries_addRow {n row : Nat} (h : ∀ k rows, s.index.get? k = some rows → ∀ r ∈ rows, r < n) (hrow : row < n)
    (key : Option Key) : ∀ k rows, (s.addRow row key).index.get? k = some rows → ∀ r ∈ rows, r < n := by
  intro k rows hrows r hr
  rcases get?_addRow_cases hrows with hbefore | ⟨before, rfl, hbefore⟩
  · exact h k rows hbefore r hr
  · rcases List.mem_append.mp hr with hr | hr
    · rcases hbefore with rfl | hbefore
      · cases hr
      · exact h k before hbefore r hr
    · rw [List.mem_singleton.mp hr]
      exact hrow

theorem entries_fold {n : Nat} {rs : List Nat} (hs : ∀ k rows, s.index.get? k = some rows → ∀ r ∈ rows, r < n)
    (hrs : ∀ r ∈ rs, r < n)
    (h : rs.foldlM (fun (s : JoinSide) r => do return s.addRow r (← Key.joining? keyColumns r)) s =
      (.ok t : Except Failure JoinSide)) : ∀ k rows, t.index.get? k = some rows → ∀ r ∈ rows, r < n := by
  induction rs generalizing s with
  | nil =>
    cases h
    exact hs
  | cons r rs ih =>
    obtain ⟨hr, hrs⟩ := List.forall_mem_cons.mp hrs
    rw [List.foldlM_cons] at h
    obtain ⟨s', hs', h⟩ := bind_eq_ok.mp h
    obtain ⟨key, -, hs'⟩ := bind_eq_ok.mp hs'
    cases hs'
    exact ih (entries_addRow hs hr key) hrs h

theorem ofColumns_ready (hc : Lists columns types rows) (h : ofColumns keys columns rows.length = .ok s) : s.Ready types := by
  have hcounted := ofColumns_inTime keys columns rows.length
  rw [h] at hcounted
  unfold ofColumns at h
  by_cases hzero : rows.length = 0
  · rw [if_pos hzero] at h
    cases h
    exact ⟨⟨rows, hc, rfl⟩, (fun _ _ hget => by cases hget), hcounted.2⟩
  rw [if_neg hzero] at h
  obtain ⟨input, -, hrest⟩ := bind_eq_ok.mp h
  obtain ⟨keyColumns, -, hfold⟩ := bind_eq_ok.mp hrest
  obtain ⟨hcolumns, hrows, -, -⟩ := fold_addRow hfold
  refine ⟨⟨rows, hcolumns ▸ hc, hrows⟩, ?_, hcounted.2⟩
  rw [hrows]
  have hnone : ∀ (k : Key) (found : List Nat), KeyMap.empty.get? k = some found → ∀ r ∈ found, r < rows.length :=
    fun k found hget => (by cases hget)
  exact entries_fold hnone (fun r hr => List.mem_range.mp hr) hfold

/-- What a left row matches are rows of the side. -/
theorem Ready.matches? (hs : s.Ready types) {row : Nat} {found : Option (List Nat)}
    (h : s.matches? keyColumns row = .ok found) : ∀ rows, found = some rows → rows.length ≤ s.rows ∧ ∀ r ∈ rows, r < s.rows := by
  obtain ⟨key, -, hfound⟩ := bind_eq_ok.mp h
  cases hfound
  intro rows hrows
  obtain ⟨k, -, hget⟩ := Option.bind_eq_some_iff.mp hrows
  exact ⟨hs.counted k rows hget, hs.entries k rows hget⟩

end JoinSide

namespace Operator
variable {side : JoinSide} {types : List SqlType}

/-- The pairs of looked up rows, those found before a key that cannot be read too. -/
theorem probeRows_within (kind : JoinKind) (hs : side.Ready types) (keyColumns : List Column) (rs : List Nat) :
    PairsWithin rs side.rows (probeRows kind side keyColumns rs).2 := by
  induction rs with
  | nil => exact List.forall_mem_nil _
  | cons r rs ih =>
    rw [probeRows]
    cases hfound : side.matches? keyColumns r with
    | error e => exact List.forall_mem_nil _
    | ok found =>
      intro pair hpair
      rcases List.mem_append.mp hpair with hpair | hpair
      · obtain ⟨hleft, hright⟩ := (pairsOf_within kind r (hs.matches? hfound)).1 pair hpair
        exact ⟨List.mem_singleton.mp hleft ▸ List.mem_cons_self .., hright⟩
      · obtain ⟨hleft, hright⟩ := ih pair hpair
        exact ⟨List.mem_cons_of_mem _ hleft, hright⟩

end Operator
end QueryEngine
