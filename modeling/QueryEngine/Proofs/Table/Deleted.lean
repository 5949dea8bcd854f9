import QueryEngine.Proofs.Table.Live

/-! What a deletion by row ids leaves.

A deletion that succeeds was given rows of the table only. It leaves the live rows that
were not among them, and its count is how many live rows there are fewer. -/
namespace QueryEngine

/-- Whether a row is among those that ids name. -/
def namedBy (ids : List Int64) (row : Nat) : Bool := ids.any fun id => id.toInt = row

theorem namedBy_cons (id : Int64) (ids : List Int64) (row : Nat) :
    namedBy (id :: ids) row = (decide (id.toInt = row) || namedBy ids row) := List.any_cons

theorem namedBy_append (ids more : List Int64) (row : Nat) :
    namedBy (ids ++ more) row = (namedBy ids row || namedBy more row) := List.any_append

namespace Mask

theorem live_eq (m : Mask) : m.live = ((List.range m.length).filter m.isLive).length := by
  have hm : m = (List.range m.length).map fun i => m.getD i true := by
    apply List.ext_getElem
    · simp
    · intro i hi _
      simp [hi]
  rw [live]
  nth_rewrite 1 [hm]
  rw [List.count_eq_countP, List.countP_map, List.countP_eq_length_filter]
  congr 1
  refine List.filter_congr fun i hi => ?_
  have hi := List.mem_range.mp hi
  simp [isLive, hi]

/-- The live rows that were not named are fewer by the live rows that were. -/
theorem live_of_named {m m' : Mask} {ids : List Int64} (hlen : m'.length = m.length)
    (h : ∀ i, m'.isLive i = (m.isLive i && !namedBy ids i)) :
    m.live = m'.live + ((List.range m.length).filter fun i => m.isLive i && namedBy ids i).length := by
  rw [live_eq m, live_eq m', hlen]
  have hleft : (List.range m.length).filter m'.isLive = ((List.range m.length).filter m.isLive).filter fun i => !namedBy ids i := by
    rw [List.filter_filter]
    exact List.filter_congr fun i _ => by rw [h i, Bool.and_comm]
  have hgone : ((List.range m.length).filter fun i => m.isLive i && namedBy ids i) =
      ((List.range m.length).filter m.isLive).filter (namedBy ids) := by
    rw [List.filter_filter]
    exact List.filter_congr fun i _ => Bool.and_comm ..
  rw [hleft, hgone, Nat.add_comm]
  exact List.length_eq_length_filter_add (namedBy ids)

theorem isLive_delete {m : Mask} {row : Nat} (h : row < m.length) (i : Nat) :
    Mask.isLive (m.set row true) i = (m.isLive i && !decide (row = i)) := by
  by_cases hi : row = i
  · have hdead : Mask.isLive (m.set row true) i = false := by
      rw [isLive, ← hi, List.getElem?_set_self h]
      rfl
    rw [hdead, decide_eq_true hi, Bool.not_true, Bool.and_false]
  · rw [isLive, isLive, List.getElem?_set_ne hi, decide_eq_false hi, Bool.not_false, Bool.and_true]

/-- There is one live row fewer, if the row was live. -/
theorem live_delete {m : Mask} {row : Nat} {gone : Bool} (h : m[row]? = some gone) :
    m.live = Mask.live (m.set row true) + if gone then 0 else 1 := by
  obtain ⟨hlt, hget⟩ := List.getElem?_eq_some_iff.mp h
  rw [live, live, List.count_set hlt, hget]
  cases gone with
  | true => rfl
  | false =>
    have hpos : 0 < m.count false := List.count_pos_iff.mpr (hget ▸ List.getElem_mem hlt)
    show m.count false = m.count false - 1 + 0 + 1
    omega

end Mask

/-- A mask is told by its length and its live rows. -/
theorem Mask.ext_isLive {m m' : Mask} (hlen : m'.length = m.length) (h : ∀ i, m'.isLive i = m.isLive i) : m' = m := by
  refine List.ext_getElem hlen fun i hi hi' => ?_
  have hlive := h i
  rw [isLive, isLive, List.getElem?_eq_getElem hi, List.getElem?_eq_getElem hi'] at hlive
  have hfalse : m'[i] = false ↔ m[i] = false := by simpa using hlive
  exact Bool.eq_iff_iff.mpr (by rw [← Bool.not_eq_false, ← Bool.not_eq_false, hfalse])

/-- Nothing has changed where no live row was named. -/
theorem Mask.eq_iff_of_named {m m' : Mask} {ids : List Int64} (hlen : m'.length = m.length)
    (h : ∀ i, m'.isLive i = (m.isLive i && !namedBy ids i)) : m' = m ↔ ∀ i, m.isLive i = true → namedBy ids i = false := by
  constructor
  · rintro rfl i hi
    have hi' := h i
    rw [hi, Bool.true_and] at hi'
    exact (Bool.not_eq_true' _).mp hi'.symm
  · intro hnone
    refine Mask.ext_isLive hlen fun i => ?_
    rw [h i]
    cases hi : m.isLive i with
    | false => rfl
    | true => rw [hnone i hi]; rfl

namespace Table

theorem delete_ok {t : Table} {mask mask' : Mask} {ids : List Int64} {n : Nat} (h : t.delete mask ids = (.ok n, mask')) :
    (∀ id ∈ ids, 0 ≤ id.toInt ∧ id.toInt.toNat < mask.length) ∧
      (∀ i : Nat, (∀ id ∈ ids, id.toInt ≠ i) → mask'[i]? = mask[i]?) ∧
      (∀ i, mask'.isLive i = (mask.isLive i && !namedBy ids i)) ∧ mask.live = n + mask'.live := by
  induction ids generalizing mask n with
  | nil =>
    cases h
    exact ⟨nofun, fun _ _ => rfl, fun _ => (Bool.and_true _).symm, (Nat.zero_add _).symm⟩
  | cons id ids ih =>
    rw [delete] at h
    split at h
    · cases h
    rename_i gone hgone
    split at hgone
    case isFalse => cases hgone
    rename_i hid
    have hlt : id.toInt.toNat < mask.length := (List.getElem?_eq_some_iff.mp hgone).1
    cases hrest : t.delete (mask.set id.toInt.toNat true) ids with
    | mk result rest =>
    rw [hrest] at h
    obtain ⟨hresult, rfl⟩ := Prod.mk.inj h
    obtain ⟨count, rfl, hn⟩ := map_eq_ok.mp hresult
    obtain ⟨hids, hkept, hlive, hfewer⟩ := ih hrest
    have hrow (i : Nat) : id.toInt = i ↔ id.toInt.toNat = i := by omega
    refine ⟨List.forall_mem_cons.mpr ⟨⟨hid, hlt⟩, fun id' hid' => ?_⟩, fun i hi => ?_, fun i => ?_, ?_⟩
    · have hbound := hids id' hid'
      rw [List.length_set] at hbound
      exact hbound
    · obtain ⟨hhead, hrest⟩ := List.forall_mem_cons.mp hi
      rw [hkept i hrest, List.getElem?_set_ne fun hn => hhead ((hrow i).mpr hn)]
    · rw [hlive i, namedBy_cons, Mask.isLive_delete hlt, decide_eq_decide.mpr (hrow i), Bool.not_or, Bool.and_assoc]
    · rw [Mask.live_delete hgone, hfewer, ← hn]
      split <;> omega

/-- A deletion that fails has deleted the rows before the id that is no row of the table. -/
theorem delete_error {t : Table} {mask mask' : Mask} {ids : List Int64} {e : QueryError}
    (h : t.delete mask ids = (.error e, mask')) :
    ∃ named bad later n, ids = named ++ bad :: later ∧ (bad.toInt < 0 ∨ mask.length ≤ bad.toInt.toNat) ∧
      e = .storage (.rowId bad.toInt t.name) ∧ t.delete mask named = (.ok n, mask') := by
  induction ids generalizing mask e with
  | nil => cases h
  | cons id ids ih =>
    rw [delete] at h
    split at h
    · rename_i hnone
      cases h
      refine ⟨[], id, ids, 0, rfl, ?_, rfl, rfl⟩
      split at hnone
      · exact .inr (List.getElem?_eq_none_iff.mp hnone)
      · omega
    · rename_i gone hgone
      cases hrest : t.delete (mask.set id.toInt.toNat true) ids with
      | mk result rest =>
      rw [hrest] at h
      obtain ⟨hresult, rfl⟩ := Prod.mk.inj h
      obtain ⟨named, bad, later, n, hids, hbad, he, hnamed⟩ := ih (hrest.trans (Prod.ext (map_eq_error.mp hresult) rfl))
      refine ⟨id :: named, bad, later, if gone then n else n + 1, by rw [hids]; rfl, ?_, he, ?_⟩
      · rwa [List.length_set] at hbad
      · rw [delete, hgone]
        simp only [hnamed]
        rfl

end Table

/-! ### Masks that differ in rows behind -/

/-- Which rows are deleted in a provider's table. -/
def Provider.maskIn (p : Provider) (masks : List (Nat × Mask)) : Mask :=
  (masks.lookup p.id).getD (Mask.allLive p.table.rows)

/-- Masks of one number fit both tables. -/
def Provider.Beside (p t : Provider) : Prop := p.id = t.id → p.table.rows = t.table.rows

/-- Masks that are the same but for rows of `t` before row `k`. -/
structure SameFrom (t : Provider) (k : Nat) (masks others : List (Nat × Mask)) : Prop where
  whole : k = 0 → others = masks
  rows : ∀ p : Provider, p.Beside t → ∀ i, (p.id = t.id → k ≤ i) → (p.maskIn others)[i]? = (p.maskIn masks)[i]?

theorem SameFrom.refl (t : Provider) (masks : List (Nat × Mask)) : SameFrom t 0 masks masks := ⟨fun _ => rfl, fun _ _ _ _ => rfl⟩

theorem SameFrom.mono {t : Provider} {k k' : Nat} {masks others : List (Nat × Mask)} (h : SameFrom t k masks others)
    (hle : k ≤ k') : SameFrom t k' masks others :=
  ⟨fun hk => h.whole (by omega), fun p hp i hi => h.rows p hp i fun hid => Nat.le_trans hle (hi hid)⟩

/-- Deleting rows before row `k` leaves the rest as it is. -/
theorem SameFrom.delete {t : Provider} {k n : Nat} {s : Session} {others : List (Nat × Mask)} {ids : List Int64}
    (h : SameFrom t k s.masks others) (hpos : 0 < k) (hids : ∀ id ∈ ids, id.toInt.toNat < k)
    (hok : (s.delete t ids).1 = .ok n) : SameFrom t k (s.delete t ids).2.masks others := by
  obtain ⟨_, hkept, -⟩ := Table.delete_ok (Prod.ext hok rfl)
  refine ⟨fun hk => absurd hk (Nat.ne_of_gt hpos), fun p hp i hi => ?_⟩
  rw [h.rows p hp i hi]
  show _ = ((s.setMask t (t.table.delete (s.mask t) ids).2).mask p)[i]?
  by_cases hid : p.id = t.id
  · have hsame : p.maskIn s.masks = s.mask t := by rw [Provider.maskIn, Session.mask, hid, hp hid]
    rw [Session.mask_setMask_self hid, hsame, hkept i fun id hmem hrow => ?_]
    have hlt := hids id hmem
    have hle := hi hid
    omega
  · rw [Session.mask_setMask_of_ne hid]
    rfl

end QueryEngine
