import QueryEngine.Proofs.Result
import QueryEngine.Proofs.Value.Datum

/-! Arrays made from values and read back.

For every type but NULL an array is made from values exactly if they fit, and then it
has them in their places. An array of type NULL is made from any values: none is
looked at, and what reads back is as many NULLs (`ofScalars_unchecked`). The other way
round, an array of an SQL type is made again from what is read from it
(`ofScalars_settled`). -/
namespace QueryEngine

/-- An array of type `t` in which these values are read, and no others. -/
structure HostArray.Shows (a : HostArray) (t : SqlType) (vs : List Scalar) : Prop where
  storage : a.storage = t.storage
  size : a.size = vs.length
  slot : ∀ (i : Nat) (v : Scalar), vs[i]? = some v → a.get i = .ok v
  outside : ∀ i, vs.length ≤ i → a.get i = .error (.internal (.rowOfArray i vs.length))

theorem HostArray.Shows.mapM_get {a : HostArray} {t : SqlType} {vs : List Scalar} (h : a.Shows t vs) :
    (List.range a.size).mapM a.get = .ok vs := by
  rw [mapM_eq_ok_iff, List.forall₂_iff_get]
  refine ⟨by rw [List.length_range, h.size], fun i hi hlt => ?_⟩
  rw [List.get_eq_getElem, List.getElem_range]
  exact h.slot i _ (List.getElem?_eq_getElem hlt)

namespace Column
variable {t : SqlType} {vs : List Scalar} {c : Column}

/-- A column shows its slots. -/
theorem shows (c : Column) : HostArray.Shows c c.type c.slots where
  storage := rfl
  size := rfl
  slot i v hv := by
    show c.get i = _
    rw [get, hv]
  outside i hi := by
    show c.get i = _
    rw [get, List.getElem?_eq_none hi]
    rfl

/-! ### Made from values -/

theorem ofScalars_eq_ok_iff : (∃ c, ofScalars t vs = .ok c) ↔ t = .sqlNull ∨ ∀ v ∈ vs, v.Fits t := by
  constructor
  · rintro ⟨c, hc⟩
    by_contra hnot
    obtain ⟨hnull, hfits⟩ := not_or.mp hnot
    rw [ofScalars, if_neg hnull, dif_neg hfits] at hc
    cases hc
  · rintro (rfl | hfits)
    · exact ⟨_, if_pos rfl⟩
    · exact ofScalars_of_fits hfits

theorem slots_ofScalars (h : ofScalars t vs = .ok c) (hfits : ∀ v ∈ vs, v.Fits t) : c.slots = vs := by
  apply List.ext_getElem (ofScalars_ok h).2
  intro i hc hv
  have hdatum := congrArg Datum.value (datum_ofScalars h hfits i)
  rwa [datum, List.getElem?_eq_getElem hc, List.getElem?_eq_getElem hv] at hdatum

theorem slots_ofScalars_sqlNull (h : ofScalars .sqlNull vs = .ok c) : c.slots = List.replicate vs.length .null := by
  rw [ofScalars, if_pos rfl] at h
  cases h
  exact List.map_replicate

/-- What is made shows the values, NULLs in their place if it is of type NULL. -/
theorem shows_ofScalars (h : ofScalars t vs = .ok c) :
    HostArray.Shows c t (if t = .sqlNull then List.replicate vs.length .null else vs) := by
  have hshows := c.shows
  rw [(ofScalars_ok h).1] at hshows
  by_cases ht : t = .sqlNull
  · subst ht
    rwa [slots_ofScalars_sqlNull h] at hshows
  · have hfits := (ofScalars_eq_ok_iff.mp ⟨c, h⟩).resolve_left ht
    rwa [if_neg ht, ← slots_ofScalars h hfits]

/-- The value that is refused is the first that does not fit. -/
theorem ofScalars_eq_error {e : QueryError} (h : ofScalars t vs = .error e) :
    ∃ before v after, vs = before ++ v :: after ∧ (∀ u ∈ before, u.Fits t) ∧ ¬ v.Fits t ∧
      e = .internal (.valueType v t) := by
  unfold ofScalars at h
  split at h
  · cases h
  split at h
  · cases h
  rename_i hfits
  cases hfirst : vs.find? fun v => !decide (v.Fits t) with
  | none => exact absurd (by simpa using hfirst) hfits
  | some v =>
    obtain ⟨hv, before, after, rfl, hbefore⟩ := List.find?_eq_some_iff_append.mp hfirst
    rw [hfirst] at h
    refine ⟨before, v, after, rfl, by simpa using hbefore, by simpa using hv, ?_⟩
    cases h
    rfl

theorem ofScalars_slots (c : Column) : ofScalars c.type c.slots = .ok c := by
  obtain ⟨d, hd⟩ := ofScalars_of_fits c.typed
  rw [hd, ext_slots (ofScalars_ok hd).1 (slots_ofScalars hd c.typed)]

/-! ### Both ways -/

/-- Values are taken exactly if they fit, or whatever they are for type NULL; the array
shows them, as NULLs for type NULL, and the error names the first that does not fit.
Every array of an SQL type is made again from its slots. -/
theorem ofScalars_settled (t : SqlType) (vs : List Scalar) :
    ((∃ c, ofScalars t vs = .ok c) ↔ t = .sqlNull ∨ ∀ v ∈ vs, v.Fits t) ∧
      (∀ c, ofScalars t vs = .ok c →
        HostArray.Shows c t (if t = .sqlNull then List.replicate vs.length .null else vs)) ∧
      (∀ e, ofScalars t vs = .error e → ∃ before v after, vs = before ++ v :: after ∧ (∀ u ∈ before, u.Fits t) ∧
        ¬ v.Fits t ∧ e = .internal (.valueType v t)) ∧
      ∀ a : HostArray, a.storage.sqlType? = some t →
        ∃ read c, (List.range a.size).mapM a.get = .ok read ∧ ofScalars t read = .ok c ∧ a = .column c := by
  refine ⟨ofScalars_eq_ok_iff, fun c h => shows_ofScalars h, fun e h => ofScalars_eq_error h, fun a ha => ?_⟩
  cases a with
  | column c =>
    cases ha
    exact ⟨c.slots, c, c.shows.mapM_get, c.ofScalars_slots, rfl⟩
  | foreign f filled => cases ha

/-- Texts with a NULL between them; among them, a number. -/
theorem ofScalars_settled_texts :
    let texts : List Scalar := [.varchar "a", .null, .varchar ""]
    (∃ c : Column, ofScalars .varchar texts = .ok c ∧ (c : HostArray).get 2 = .ok (.varchar "") ∧
        (c : HostArray).get 3 = .error (.internal (.rowOfArray 3 3)) ∧
        (List.range 3).mapM (c : HostArray).get = .ok texts) ∧
      ofScalars .varchar (texts ++ [.integer 1, .boolean true]) = .error (.internal (.valueType (.integer 1) .varchar)) := by
  intro texts
  obtain ⟨htaken, hshows, -, -⟩ := ofScalars_settled .varchar texts
  obtain ⟨c, hc⟩ := htaken.mpr (.inr (by decide))
  have hc' := hshows c hc
  have hread := hc'.mapM_get
  rw [hc'.size] at hread
  exact ⟨⟨c, hc, hc'.slot 2 _ rfl, hc'.outside 3 (by decide), hread⟩, rfl⟩

/-- A number that does not fit is taken for NULL. -/
theorem ofScalars_unchecked :
    let one : Scalar := .bigInt 1
    ¬ one.Fits .sqlNull ∧ ∃ c, ofScalars .sqlNull [one] = .ok c ∧ c.get 0 = .ok .null :=
  ⟨by decide, _, rfl, rfl⟩

end Column
end QueryEngine
