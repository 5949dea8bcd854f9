import Mathlib.Data.List.Induction
import QueryEngine.Proofs.Key.Lookup

/-! Items gathered under their keys.

A fold that puts something under the key of each item, made of what was there before,
gathers under every key what a fold over the items of that key alone makes
(`foldlM_putEach_ok`): keys do not see each other. They stand in the order in which they
are first seen, and the fold over all items succeeds when that of every key does. -/
namespace QueryEngine

/-- One more element is kept if it was not seen before. -/
theorem eraseDups_concat {α : Type} [BEq α] [LawfulBEq α] (xs : List α) (x : α) [Decidable (x ∈ xs)] :
    (xs ++ [x]).eraseDups = if x ∈ xs then xs.eraseDups else xs.eraseDups ++ [x] := by
  rw [List.eraseDups_append, List.removeAll, List.filter_singleton]
  by_cases h : x ∈ xs
  · simp [h]
  · simp [h, List.eraseDups_cons]

theorem nodup_eraseDups {α : Type} [BEq α] [LawfulBEq α] (xs : List α) : xs.eraseDups.Nodup := by
  classical
  induction xs using List.reverseRecOn with
  | nil => exact List.nodup_nil
  | append_singleton xs x ih =>
    rw [eraseDups_concat]
    split
    · exact ih
    · rename_i hx
      exact List.nodup_append.mpr ⟨ih, List.pairwise_singleton .., fun y hy z hz he => hx (List.mem_eraseDups.mp (by
        rwa [← List.mem_singleton.mp hz, ← he]))⟩

theorem eraseDups_perm {α : Type} [BEq α] [LawfulBEq α] {xs ys : List α} (h : xs.Perm ys) :
    xs.eraseDups.Perm ys.eraseDups := by
  refine (List.perm_ext_iff_of_nodup (nodup_eraseDups _) (nodup_eraseDups _)).mpr fun x => ?_
  rw [List.mem_eraseDups, List.mem_eraseDups]
  exact h.mem_iff

namespace KeyMap
variable {ε α ι : Type} {key : ι → Key} {f : Option α → ι → Except ε α} {m : KeyMap α} {items : List ι}

/-- The keys, as they are kept. -/
def keys (m : KeyMap α) : List Key := m.entries.map Prod.fst

/-- Puts under the key of an item what is made of what was there before. -/
def putEach (key : ι → Key) (f : Option α → ι → Except ε α) (m : KeyMap α) (x : ι) : Except ε (KeyMap α) := do
  return m.put (key x) (← f (m.get? (key x)) x)

/-- The items of one key. -/
def itemsOf (key : ι → Key) (items : List ι) (k : Key) : List ι := items.filter fun x => (key x).canonical = k

/-- What the items of one key make, if there are any. -/
def gathered (key : ι → Key) (f : Option α → ι → Except ε α) (items : List ι) (k : Key) : Except ε (Option α) :=
  (itemsOf key items k).foldlM (fun a x => some <$> f a x) none

theorem keys_putEntry (k : Key) (a : α) (entries : List (Key × α)) :
    (putEntry k a entries).map Prod.fst =
      if k ∈ entries.map Prod.fst then entries.map Prod.fst else entries.map Prod.fst ++ [k] := by
  induction entries with
  | nil => rfl
  | cons e entries ih =>
    rw [putEntry]
    by_cases h : e.1 = k
    · simp [h]
    · rw [if_neg h, List.map_cons, ih, List.map_cons]
      by_cases hk : k ∈ entries.map Prod.fst
      · rw [if_pos hk, if_pos (List.mem_cons_of_mem _ hk)]
      · rw [if_neg hk, if_neg fun hmem => hk ((List.mem_cons.mp hmem).resolve_left (Ne.symm h)), List.cons_append]

theorem keys_put (m : KeyMap α) (k : Key) (a : α) :
    (m.put k a).keys = if k.canonical ∈ m.keys then m.keys else m.keys ++ [k.canonical] := keys_putEntry _ _ _

theorem itemsOf_append (x : ι) (k : Key) :
    itemsOf key (items ++ [x]) k = if (key x).canonical = k then itemsOf key items k ++ [x] else itemsOf key items k := by
  rw [itemsOf, List.filter_append, List.filter_singleton]
  by_cases h : (key x).canonical = k
  · simp [h, itemsOf]
  · simp [h, itemsOf]

theorem gathered_append (x : ι) (k : Key) :
    gathered key f (items ++ [x]) k = if (key x).canonical = k
      then (do let a ← gathered key f items k; some <$> f a x) else gathered key f items k := by
  rw [gathered, itemsOf_append]
  split
  · simp only [List.foldlM_append, List.foldlM_cons, List.foldlM_nil, bind_pure, gathered]
  · rfl

/-- What a fold over some items leaves under their keys. -/
structure Gathers (key : ι → Key) (f : Option α → ι → Except ε α) (items : List ι) (m : KeyMap α) : Prop where
  keys : m.keys = (items.map fun x => (key x).canonical).eraseDups
  nodup : m.keys.Nodup
  found : ∀ k, gathered key f items k = .ok (m.entries.lookup k)

theorem gathers_nil : Gathers key f [] .empty := ⟨rfl, List.nodup_nil, fun _ => rfl⟩

/-- One more item is seen under its own key only. -/
theorem Gathers.append (h : Gathers key f items m) {x : ι} {a : α} (ha : f (m.get? (key x)) x = .ok a) :
    Gathers key f (items ++ [x]) (m.put (key x) a) := by
  have hmem : (key x).canonical ∈ m.keys ↔ (key x).canonical ∈ items.map fun x => (key x).canonical := by
    rw [h.keys, List.mem_eraseDups]
  refine ⟨?_, ?_, fun k => ?_⟩
  · rw [keys_put, List.map_append, List.map_singleton, eraseDups_concat, ← h.keys]
    exact if_congr hmem rfl rfl
  · rw [keys_put]
    split
    · exact h.nodup
    · rename_i hk
      exact List.nodup_append.mpr ⟨h.nodup, List.pairwise_singleton .., fun k' hk' k'' hk'' => by
        rw [List.mem_singleton.mp hk'']
        exact fun he => hk (he ▸ hk')⟩
  · rw [gathered_append, KeyMap.put, lookup_putEntry]
    by_cases hk : (key x).canonical = k
    · rw [if_pos hk, if_pos hk.symm, h.found k, ok_bind, ← hk]
      show some <$> f (m.get? (key x)) x = _
      rw [ha]
      rfl
    · rw [if_neg hk, if_neg (Ne.symm hk), h.found k]

/-- A fold that succeeds gathers under every key what the items of that key make. -/
theorem foldlM_putEach_ok (h : items.foldlM (putEach key f) .empty = .ok m) : Gathers key f items m := by
  induction items using List.reverseRecOn generalizing m with
  | nil =>
    cases h
    exact gathers_nil
  | append_singleton items x ih =>
    simp only [List.foldlM_append, List.foldlM_cons, List.foldlM_nil, bind_pure] at h
    obtain ⟨before, hbefore, h⟩ := bind_eq_ok.mp h
    obtain ⟨a, ha, h⟩ := bind_eq_ok.mp h
    cases h
    exact (ih hbefore).append ha

/-- The fold succeeds when the items of every key make something. -/
theorem foldlM_putEach_of_gathered (h : ∀ k, ∃ a, gathered key f items k = .ok a) :
    ∃ m, items.foldlM (putEach key f) .empty = .ok m := by
  induction items using List.reverseRecOn with
  | nil => exact ⟨_, rfl⟩
  | append_singleton items x ih =>
    obtain ⟨before, hbefore⟩ := ih fun k => by
      obtain ⟨a, ha⟩ := h k
      rw [gathered_append] at ha
      split at ha
      · obtain ⟨b, hb, _⟩ := bind_eq_ok.mp ha
        exact ⟨b, hb⟩
      · exact ⟨a, ha⟩
    obtain ⟨a, ha⟩ := h (key x).canonical
    rw [gathered_append, if_pos rfl, (foldlM_putEach_ok hbefore).found, ok_bind] at ha
    simp only [List.foldlM_append, List.foldlM_cons, List.foldlM_nil, bind_pure, hbefore, ok_bind, putEach]
    cases hx : f (before.get? (key x)) x with
    | ok b => exact ⟨_, rfl⟩
    | error e =>
      have ha : some <$> f (before.get? (key x)) x = .ok a := ha
      rw [hx] at ha
      cases ha

/-- What stands in the map, key by key. -/
theorem Gathers.entries (h : Gathers key f items m) {e : Key × α} (he : e ∈ m.entries) :
    gathered key f items e.1 = .ok (some e.2) := by
  have hnodup : (m.entries.map Prod.fst).Nodup := h.nodup
  rw [h.found]
  congr 1
  generalize m.entries = entries at he hnodup
  induction entries with
  | nil => cases he
  | cons e' entries ih =>
    rw [List.map_cons, List.nodup_cons] at hnodup
    rw [lookup_entry]
    rcases List.mem_cons.mp he with rfl | he
    · rw [if_pos rfl]
    · have hne : e.1 ≠ e'.1 := fun hk => hnodup.1 (hk ▸ List.mem_map_of_mem (f := Prod.fst) he)
      rw [if_neg hne]
      exact ih he hnodup.2

/-! ### Rows under their keys -/

/-- A row behind those that were found before it. -/
def addFound (found : Option (List Nat)) (row : Nat) : Except QueryError (List Nat) := .ok (found.getD [] ++ [row])

theorem foldlM_addFound (found : Option (List Nat)) (rows : List Nat) (hne : rows ≠ []) :
    rows.foldlM (fun a r => some <$> addFound a r) found = .ok (some (found.getD [] ++ rows)) := by
  induction rows generalizing found with
  | nil => exact absurd rfl hne
  | cons r rows ih =>
    show rows.foldlM (fun a r => some <$> addFound a r) (some (found.getD [] ++ [r])) = _
    cases rows with
    | nil => rfl
    | cons r' rows =>
      rw [ih _ (List.cons_ne_nil _ _), Option.getD_some, List.append_assoc]
      rfl

theorem putEach_of_addRow {columns : List Column} {rows : List Nat} {before m : KeyMap (List Nat)}
    (h : rows.foldlM (fun m row => do return m.addRow (← Key.ofRow columns row) row) before = .ok m) :
    rows.foldlM (putEach (Key.valuesAt columns) addFound) before = .ok m := by
  induction rows generalizing before with
  | nil => exact h
  | cons r rows ih =>
    rw [List.foldlM_cons] at h ⊢
    obtain ⟨next, hnext, h⟩ := bind_eq_ok.mp h
    obtain ⟨key, hkey, hnext⟩ := bind_eq_ok.mp hnext
    cases hnext
    rw [Key.ofRow_ok hkey] at h
    exact ih h

/-- Rows under their keys are all rows of each key, in their order. -/
theorem ofRows_ok {columns : List Column} {rows : List Nat} {m : KeyMap (List Nat)} (h : ofRows columns rows = .ok m) :
    m.keys = (rows.map fun r => (Key.valuesAt columns r).canonical).eraseDups ∧
      ∀ e ∈ m.entries, e.2 = itemsOf (Key.valuesAt columns) rows e.1 := by
  have hgathers := foldlM_putEach_ok (putEach_of_addRow h)
  refine ⟨hgathers.keys, fun e he => ?_⟩
  have hfound := hgathers.entries he
  have hne : itemsOf (Key.valuesAt columns) rows e.1 ≠ [] := by
    intro hnone
    rw [gathered, hnone] at hfound
    cases hfound
  rw [gathered, foldlM_addFound _ _ hne] at hfound
  exact (Option.some.inj (Except.ok.inj hfound)).symm

end KeyMap
end QueryEngine
