import QueryEngine.Proofs.Expr.Rowwise
import QueryEngine.Proofs.Value.Order
import QueryEngine.Sort.Rows

/-! Rows in the order of sort keys.

Keys compare two rows by their values on them, the first key that tells the rows apart
deciding (`SortKey.compareRows`); rows that no key tells apart have the same values. What
the keys were evaluated to compares places as the keys compare the rows that stand there
(`SortColumn.compare_ofKeys`), so sorting puts a row before another one when the keys do,
or when they do not tell them apart and it came first (`Rows.sort_ordered`). -/
namespace QueryEngine

/-! ### Comparing rows -/

namespace SortKey

/-- Two values under one key. NULL stands where the key says, whatever its direction;
other values stand in their total order, or against it. -/
def compareValues (k : SortKey) (a b : Scalar) : Ordering :=
  match a.isNull, b.isNull with
  | true, true => .eq
  | true, false => if k.nullsFirst then .lt else .gt
  | false, true => if k.nullsFirst then .gt else .lt
  | false, false => if k.descending then b.compareTotal a else a.compareTotal b

/-- The value that rows are put in order by. -/
def valueOn (row : Row) (k : SortKey) : Scalar := (k.expr.valueOn row).value

/-- Two rows, by the first key that tells them apart. -/
def compareRows : List SortKey → Row → Row → Ordering
  | [], _, _ => .eq
  | k :: ks, a, b => (k.compareValues (k.valueOn a) (k.valueOn b)).then (compareRows ks a b)

/-- Whether the row in one place comes before the row in another: the keys put it before,
or they do not tell the rows apart and its place does. -/
def Before (keys : List SortKey) (row : Nat → Row) (i j : Nat) : Prop :=
  compareRows keys (row i) (row j) = .lt ∨ compareRows keys (row i) (row j) = .eq ∧ i < j

instance (k : SortKey) : Std.TransCmp k.compareValues where
  eq_swap {a b} := by
    have htotal (x y : Scalar) : x.compareTotal y = (y.compareTotal x).swap := Std.OrientedCmp.eq_swap
    unfold compareValues
    cases a.isNull <;> cases b.isNull
    case false.false => cases k.descending <;> exact htotal _ _
    all_goals cases k.nullsFirst <;> rfl
  isLE_trans {a b c} := by
    have htotal (x y z : Scalar) (hxy : (x.compareTotal y).isLE = true) (hyz : (y.compareTotal z).isLE = true) :
        (x.compareTotal z).isLE = true := Std.TransCmp.isLE_trans hxy hyz
    unfold compareValues
    cases a.isNull <;> cases b.isNull <;> cases c.isNull
    case false.false.false =>
      cases k.descending
      · exact htotal a b c
      · exact fun hab hbc => htotal c b a hbc hab
    all_goals cases k.nullsFirst <;> simp

/-- A key tells values apart unless they are one value. -/
theorem compareValues_eq {k : SortKey} {a b : Scalar} : k.compareValues a b = .eq ↔ a = b := by
  have hnull (v : Scalar) : v.isNull = true ↔ v = .null := by cases v <;> simp [Scalar.isNull]
  unfold compareValues
  split
  · rename_i ha hb
    rw [(hnull a).mp ha, (hnull b).mp hb]
    exact ⟨fun _ => rfl, fun _ => rfl⟩
  · rename_i ha hb
    refine ⟨fun h => ?_, fun h => ?_⟩
    · split at h <;> cases h
    · rw [h, hb] at ha
      cases ha
  · rename_i ha hb
    refine ⟨fun h => ?_, fun h => ?_⟩
    · split at h <;> cases h
    · rw [h, hb] at ha
      cases ha
  · rw [← Scalar.compareTotal_isEq, Ordering.isEq_iff_eq_eq]
    split
    · exact Std.OrientedCmp.eq_comm
    · exact Iff.rfl

instance (keys : List SortKey) : Std.TransCmp (compareRows keys) := by
  induction keys with
  | nil => exact { eq_swap := rfl, isLE_trans := fun _ _ => rfl }
  | cons k ks ih =>
    have hfirst : Std.TransCmp fun a b : Row => k.compareValues (k.valueOn a) (k.valueOn b) :=
      { eq_swap := Std.OrientedCmp.eq_swap, isLE_trans := Std.TransCmp.isLE_trans }
    exact inferInstanceAs (Std.TransCmp (compareLex (fun a b => k.compareValues (k.valueOn a) (k.valueOn b))
      (compareRows ks)))

/-- Keys do not tell rows apart on which they all have one value. -/
theorem compareRows_eq {keys : List SortKey} {a b : Row} :
    compareRows keys a b = .eq ↔ ∀ k ∈ keys, k.valueOn a = k.valueOn b := by
  induction keys with
  | nil => exact ⟨fun _ _ hk => (by cases hk), fun _ => rfl⟩
  | cons k ks ih => rw [compareRows, Ordering.then_eq_eq, compareValues_eq, ih, List.forall_mem_cons]

end SortKey

/-! ### Comparing places -/

namespace SortColumn

theorem compareValues_of_key {k : SortKey} {c : SortColumn} (hd : c.descending = k.descending)
    (hn : c.nullsFirst = k.nullsFirst) (a b : Scalar) : c.compareValues a b = k.compareValues a b := by
  unfold compareValues SortKey.compareValues
  rw [hd, hn]
  cases a.isNull <;> cases b.isNull <;> try rfl
  rw [← Std.OrientedCmp.eq_swap]

instance (c : SortColumn) : Std.TransCmp c.compare where
  eq_swap := by
    simp only [compare, compareValues_of_key (k := ⟨.literal .null, c.descending, c.nullsFirst⟩) rfl rfl]
    exact Std.OrientedCmp.eq_swap
  isLE_trans := by
    simp only [compare, compareValues_of_key (k := ⟨.literal .null, c.descending, c.nullsFirst⟩) rfl rfl]
    exact Std.TransCmp.isLE_trans

/-- Places are compared as the keys compare the rows that stand there. -/
theorem compare_ofKeys {chunk : Chunk} (hc : chunk.Sound) {keys : List SortKey} {columns : List SortColumn}
    (h : ofKeys chunk keys = .ok columns) {i j : Nat} (hi : i ∈ chunk.activeRows) (hj : j ∈ chunk.activeRows) :
    Rows.compare columns i j = SortKey.compareRows keys (chunk.row i) (chunk.row j) := by
  obtain ⟨evaluated, hevaluated, h⟩ := bind_eq_ok.mp h
  split at h
  · cases h
  cases h
  have hall := mapM_eq_ok_iff.mp hevaluated
  clear hevaluated h
  rename_i hordered
  clear hordered
  induction hall with
  | nil => rfl
  | @cons k column keys evaluated he _ ih =>
    have hvalue (r : Nat) (hr : r ∈ chunk.activeRows) : column.slots.toArray.getD r .null = k.valueOn (chunk.row r) := by
      rw [SortKey.valueOn, Expr.valueOn_of_ok ((Expr.evaluate_rowwise hc he).value r hr)]
      simp [Column.datum]
    rw [List.zip_cons_cons, List.map_cons, Rows.compare, ih, SortKey.compareRows, compare,
      compareValues_of_key (k := k) rfl rfl, hvalue i hi, hvalue j hj]

/-- There is a column for each key, with a value for every physical row. -/
theorem ofKeys_ok {chunk : Chunk} (hc : chunk.Sound) {keys : List SortKey} {columns : List SortColumn}
    (h : ofKeys chunk keys = .ok columns) :
    columns.length = keys.length ∧ ∀ c ∈ columns, c.values.size = chunk.physicalRows := by
  obtain ⟨evaluated, hevaluated, h⟩ := bind_eq_ok.mp h
  split at h
  · cases h
  cases h
  constructor
  · rw [List.length_map, List.length_zip, length_of_mapM hevaluated, Nat.min_self]
  · intro c hc'
    obtain ⟨pair, hpair, rfl⟩ := List.mem_map.mp hc'
    obtain ⟨k, _, hk⟩ := mem_of_mapM hevaluated (List.of_mem_zip hpair).2
    rw [List.size_toArray]
    exact (Expr.evaluate_rowwise hc hk).size

end SortColumn

/-! ### Sorting -/

namespace Rows

instance (columns : List SortColumn) : Std.TransCmp (compare columns) := by
  induction columns with
  | nil => exact { eq_swap := rfl, isLE_trans := fun _ _ => rfl }
  | cons c cs ih => exact inferInstanceAs (Std.TransCmp (compareLex c.compare (compare cs)))

/-- Of places that increase, a sort leaves those that compare the same as they were. -/
theorem mergeSort_increasing {cmp : Nat → Nat → Ordering} [Std.TransCmp cmp] {places : List Nat}
    (h : places.Pairwise (· < ·)) :
    (places.mergeSort fun i j => (cmp i j).isLE).Pairwise fun i j => cmp i j = .lt ∨ cmp i j = .eq ∧ i < j := by
  have htrans (i j k : Nat) (hij : (cmp i j).isLE = true) (hjk : (cmp j k).isLE = true) : (cmp i k).isLE = true :=
    Std.TransCmp.isLE_trans hij hjk
  have hswap (i j : Nat) : cmp j i = (cmp i j).swap := Std.OrientedCmp.eq_swap
  have htotal (i j : Nat) : ((cmp i j).isLE || (cmp j i).isLE) = true := by
    rw [hswap i j]
    cases cmp i j <;> rfl
  -- ties are decided by where a place stood in the list, which is by the place itself
  have hsorted := List.pairwise_mergeSort (List.zipIdxLE_trans htrans) (List.zipIdxLE_total htotal) places.zipIdx
  have hplaces (p q : Nat × Nat) (hp : p ∈ places.zipIdx) (hq : q ∈ places.zipIdx) (hle : p.2 ≤ q.2) : p.1 ≤ q.1 := by
    obtain ⟨hlt, hp⟩ := List.getElem?_eq_some_iff.mp (List.mem_zipIdx_iff_getElem?.mp hp)
    obtain ⟨hlt', hq⟩ := List.getElem?_eq_some_iff.mp (List.mem_zipIdx_iff_getElem?.mp hq)
    rw [← hp, ← hq]
    rcases Nat.lt_or_eq_of_le hle with hlt'' | heq
    · exact Nat.le_of_lt (List.pairwise_iff_getElem.mp h _ _ hlt hlt' hlt'')
    · simp [heq]
  have hle : (places.mergeSort fun i j => (cmp i j).isLE).Pairwise fun i j => cmp i j = .lt ∨ cmp i j = .eq ∧ i ≤ j := by
    rw [← List.mergeSort_zipIdx, List.pairwise_map]
    refine hsorted.imp_of_mem fun {p q} hp hq hpq => ?_
    have hpq' := hplaces p q (List.mem_mergeSort.mp hp) (List.mem_mergeSort.mp hq)
    simp only [List.zipIdxLE, hswap p.1 q.1] at hpq
    cases hc : cmp p.1 q.1 with
    | lt => exact .inl rfl
    | eq => exact .inr ⟨rfl, hpq' (by simpa [hc] using hpq)⟩
    | gt => simp [hc] at hpq
  have hne : (places.mergeSort fun i j => (cmp i j).isLE).Nodup :=
    (List.mergeSort_perm ..).nodup_iff.mpr (h.imp fun hlt => Nat.ne_of_lt hlt)
  exact hle.imp₂ (fun i j hle hne => hle.imp_right fun ⟨heq, hle⟩ => ⟨heq, Nat.lt_of_le_of_ne hle hne⟩) hne

/-- Sorting places that increase leaves those that compare the same as they were. -/
theorem sort_increasing {columns : List SortColumn} {places sorted : List Nat} (hplaces : places.Pairwise (· < ·))
    (h : sort columns places = .ok sorted) :
    sorted.Perm places ∧ sorted.Pairwise fun i j => compare columns i j = .lt ∨ compare columns i j = .eq ∧ i < j := by
  unfold sort at h
  split at h
  · cases h
  cases h
  exact ⟨List.mergeSort_perm .., mergeSort_increasing hplaces⟩

/-- Places that increase are put in the order of the keys that their columns come from. -/
theorem sort_ordered {columns : List SortColumn} {keys : List SortKey} {row : Nat → Row} {places sorted : List Nat}
    (hkeys : ∀ i ∈ places, ∀ j ∈ places, compare columns i j = SortKey.compareRows keys (row i) (row j))
    (hplaces : places.Pairwise (· < ·)) (h : sort columns places = .ok sorted) :
    sorted.Perm places ∧ sorted.Pairwise (SortKey.Before keys row) := by
  obtain ⟨hperm, hsorted⟩ := sort_increasing hplaces h
  refine ⟨hperm, hsorted.imp_of_mem fun hi hj hij => ?_⟩
  rw [SortKey.Before, ← hkeys _ (hperm.mem_iff.mp hi) _ (hperm.mem_iff.mp hj)]
  exact hij

end Rows

end QueryEngine
