import QueryEngine.Plan.Basic
import QueryEngine.Proofs.Expr.Rowwise
import QueryEngine.Proofs.Join.Build

/-! The keys of a join.

A pair of keys is accepted when both resolve and have a common type; both are then cast
to it. A key that has the type already is left as it is, which its value does not show. -/
namespace QueryEngine

/-- Where a key expression has no value, it does not matter what the key of the row is. -/
theorem KeyOn.of_valued {es : List Expr} {types common : List SqlType} {key key' : Row → Key} (h : KeyOn es types common key)
    (hkey : ∀ row, (∀ e ∈ es, ∃ d, e.onRow row = .ok d) → key' row = key row) : KeyOn es types common key' := by
  intro chunk cs hc ht hcs
  obtain ⟨htypes, hvalues⟩ := h chunk cs hc ht hcs
  refine ⟨htypes, fun r hr => ?_⟩
  rw [hvalues r hr, hkey _ fun e he => ?_]
  obtain ⟨c, _, hcol⟩ := mapM_ok_of_mem hcs he
  exact ⟨c.datum r, (Expr.evaluate_rowwise hc hcol).value r hr⟩

namespace Plan
variable {left right : List SqlType} {on keys : List (Expr × Expr)} {chunk : Chunk} {cs : List Column}

/-- The common type of a pair of keys that has one. -/
def commonType (left right : List SqlType) (pair : Expr × Expr) : SqlType :=
  match pair.1.resolve left, pair.2.resolve right with
  | .ok l, .ok r => (SqlType.common? l r).getD .sqlNull
  | _, _ => .sqlNull

/-- The keys of the rows: every key expression cast to the common type of its pair. -/
def castKeys (left right : List SqlType) (on : List (Expr × Expr)) : JoinKeys where
  left row := on.map fun pair => ((Expr.cast pair.1 (commonType left right pair)).valueOn row).value
  right row := on.map fun pair => ((Expr.cast pair.2 (commonType left right pair)).valueOn row).value

/-- The keys of the rows, of key expressions that have been cast. -/
def joinKeys (keys : List (Expr × Expr)) : JoinKeys where
  left row := keys.map fun key => (key.1.valueOn row).value
  right row := keys.map fun key => (key.2.valueOn row).value

theorem joinPair_ok {pair key : Expr × Expr} (h : joinPair left right pair = .ok key) :
    ∃ l r, pair.1.resolve left = .ok l ∧ pair.2.resolve right = .ok r ∧
      key.1 = (if l = commonType left right pair then pair.1 else .cast pair.1 (commonType left right pair)) ∧
      key.2 = (if r = commonType left right pair then pair.2 else .cast pair.2 (commonType left right pair)) := by
  obtain ⟨l, hl, h⟩ := bind_eq_ok.mp h
  obtain ⟨r, hr, h⟩ := bind_eq_ok.mp h
  refine ⟨l, r, hl, hr, ?_⟩
  cases ht : SqlType.common? l r with
  | none =>
    rw [ht] at h
    cases h
  | some t =>
    have hcommon : commonType left right pair = t := by
      rw [commonType, hl, hr]
      simp only [ht, Option.getD_some]
    rw [ht] at h
    cases h
    rw [hcommon]
    exact ⟨rfl, rfl⟩

theorem canCast_common {s t u : SqlType} (h : SqlType.common? s t = some u) : s.canCast u = true ∧ t.canCast u = true := by
  revert h
  cases s <;> cases t <;> cases u <;> decide

/-- Cast to the common type of a pair, a key has that type. -/
theorem resolve_castTo {types : List SqlType} {e : Expr} {actual t : SqlType} (he : e.resolve types = .ok actual)
    (hcan : actual.canCast t = true) : (if actual = t then e else .cast e t : Expr).resolve types = .ok t := by
  by_cases hsame : actual = t
  · rw [if_pos hsame, he, hsame]
  · rw [if_neg hsame, Expr.resolve, he, ok_bind, Expr.castType, if_pos hcan]

theorem joinPair_typed {pair key : Expr × Expr} (h : joinPair left right pair = .ok key) :
    ∃ t, key.1.resolve left = .ok t ∧ key.2.resolve right = .ok t := by
  obtain ⟨l, hl, h⟩ := bind_eq_ok.mp h
  obtain ⟨r, hr, h⟩ := bind_eq_ok.mp h
  cases ht : SqlType.common? l r with
  | none =>
    rw [ht] at h
    cases h
  | some t =>
    rw [ht] at h
    cases h
    obtain ⟨hcanl, hcanr⟩ := canCast_common ht
    exact ⟨t, resolve_castTo hl hcanl, resolve_castTo hr hcanr⟩

theorem evaluate_cast_ok {e : Expr} {t : SqlType} {c : Column} (hc : chunk.Sound)
    (h : (Expr.cast e t).evaluate chunk = .ok c) : c.type = t := by
  obtain ⟨d, hd, h⟩ := bind_eq_ok.mp h
  exact (Evaluate.cast_ok hc (Expr.evaluate_rowwise hc hd).size h).1

/-- Casting to the type that an expression has changes nothing. -/
theorem evaluate_castTo {e : Expr} {actual t : SqlType} {c : Column} (hc : chunk.Sound)
    (he : e.resolve chunk.types = .ok actual)
    (h : (if actual = t then e else .cast e t : Expr).evaluate chunk = .ok c) :
    (Expr.cast e t).evaluate chunk = .ok c := by
  by_cases hsame : actual = t
  · rw [if_pos hsame] at h
    have htype : c.type = t := (Expr.evaluate_type hc he h).trans hsame
    rw [Expr.evaluate, h, ok_bind, Evaluate.cast, if_pos htype]
    rfl
  · rw [if_neg hsame] at h
    exact h

/-- One side of the keys, evaluated. -/
theorem keyOn_side {types : List SqlType} {side : Expr × Expr → Expr}
    (hpair : ∀ pair key, joinPair left right pair = .ok key → ∃ actual, (side pair).resolve types = .ok actual ∧
      side key = if actual = commonType left right pair then side pair else .cast (side pair) (commonType left right pair))
    (hkeys : on.mapM (joinPair left right) = .ok keys) :
    KeyOn (keys.map side) types (on.map (commonType left right))
        (fun row => on.map fun pair => ((Expr.cast (side pair) (commonType left right pair)).valueOn row).value) ∧
      KeyOn (keys.map side) types (on.map (commonType left right))
        (fun row => keys.map fun key => ((side key).valueOn row).value) := by
  have hcast (chunk : Chunk) (cs : List Column) (hc : chunk.Sound) (ht : chunk.types = types)
      (h : (keys.map side).mapM (Expr.evaluate chunk) = .ok cs) :
      (on.map fun pair => Expr.cast (side pair) (commonType left right pair)).mapM (Expr.evaluate chunk) = .ok cs ∧
        cs.map Column.type = on.map (commonType left right) := by
    have hall := mapM_eq_ok_iff.mp hkeys
    clear hkeys
    induction hall generalizing cs with
    | nil =>
      cases h
      exact ⟨rfl, rfl⟩
    | @cons pair key on keys hkey _ ih =>
      rw [List.map_cons, List.mapM_cons] at h
      obtain ⟨c, hcol, h⟩ := bind_eq_ok.mp h
      obtain ⟨rest, hrest, h⟩ := bind_eq_ok.mp h
      cases h
      obtain ⟨actual, hresolve, hside⟩ := hpair pair key hkey
      rw [hside] at hcol
      have hcol := evaluate_castTo hc (ht ▸ hresolve) hcol
      obtain ⟨hrest, htypes⟩ := ih rest hrest
      refine ⟨?_, ?_⟩
      · rw [List.map_cons, List.mapM_cons, hcol, ok_bind, hrest]
        rfl
      · rw [List.map_cons, List.map_cons, htypes, evaluate_cast_ok hc hcol]
  refine ⟨fun chunk cs hc ht h => ?_, fun chunk cs hc ht h => ?_⟩
  · obtain ⟨hevaluated, htypes⟩ := hcast chunk cs hc ht h
    refine ⟨htypes, fun r hr => ?_⟩
    have hvalues := congrArg (List.map Datum.value) ((Expr.evaluateAll_ok hc hevaluated).2 r hr)
    rw [List.map_map, List.map_map, List.map_map] at hvalues
    exact hvalues
  · refine ⟨(hcast chunk cs hc ht h).2, fun r hr => ?_⟩
    have hvalues := congrArg (List.map Datum.value) ((Expr.evaluateAll_ok hc h).2 r hr)
    rw [List.map_map, List.map_map, List.map_map] at hvalues
    exact hvalues

theorem keyOn_left (hkeys : on.mapM (joinPair left right) = .ok keys) :
    KeyOn (keys.map Prod.fst) left (on.map (commonType left right)) (castKeys left right on).left ∧
      KeyOn (keys.map Prod.fst) left (on.map (commonType left right)) (joinKeys keys).left := by
  refine keyOn_side (fun pair key h => ?_) hkeys
  obtain ⟨l, _, hl, _, hkey, _⟩ := joinPair_ok h
  exact ⟨l, hl, hkey⟩

theorem keyOn_right (hkeys : on.mapM (joinPair left right) = .ok keys) :
    KeyOn (keys.map Prod.snd) right (on.map (commonType left right)) (castKeys left right on).right ∧
      KeyOn (keys.map Prod.snd) right (on.map (commonType left right)) (joinKeys keys).right := by
  refine keyOn_side (fun pair key h => ?_) hkeys
  obtain ⟨_, r, _, hr, _, hkey⟩ := joinPair_ok h
  exact ⟨r, hr, hkey⟩

end Plan
end QueryEngine
