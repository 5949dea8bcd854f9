import QueryEngine.Proofs.Expr.RowTyping
import QueryEngine.Proofs.Join.Keys
import QueryEngine.Proofs.Value.Order

/-! Keys that are compared instead of looked up.

Beside each other the columns of a left and of a right row are one row, and a pair of
keys is the equation of the left key with the right one, which is read behind the left
columns. The equation is TRUE where neither key is NULL and both have one place in the
total order: these are the keys that join, but for doubles. Joining takes the two zeros
for the same and all NaNs, and the order tells them apart. -/
namespace QueryEngine

/-! ### Reading behind other columns -/

mutual

/-- The expression over columns that stand `n` places further right. -/
def Expr.shift (n : Nat) : Expr → Expr
  | .column i t => .column (n + i) t
  | .literal v => .literal v
  | .binary l op r => .binary (l.shift n) op (r.shift n)
  | .unary op e => .unary op (e.shift n)
  | .cast e t => .cast (e.shift n) t
  | .aggregate f args => .aggregate f (Expr.shiftEach n args)
  | .window f args partitions orders =>
    .window f (Expr.shiftEach n args) (Expr.shiftEach n partitions) (SortKey.shiftEach n orders)

def Expr.shiftEach (n : Nat) : List Expr → List Expr
  | [] => []
  | e :: es => e.shift n :: Expr.shiftEach n es

def SortKey.shift (n : Nat) : SortKey → SortKey
  | ⟨e, descending, nullsFirst⟩ => ⟨e.shift n, descending, nullsFirst⟩

def SortKey.shiftEach (n : Nat) : List SortKey → List SortKey
  | [] => []
  | k :: ks => k.shift n :: SortKey.shiftEach n ks

end

namespace Expr
variable {left right : Row}

/-- Shifted past a left row, an expression has the value that it has on the right row. -/
theorem onRow_shift {e : Expr} {d : Datum} :
    (e.shift left.length).onRow (left ++ right) = .ok d ↔ e.onRow right = .ok d := by
  fun_induction onRow right e generalizing d with
  | case1 i t found hi =>
    rw [shift, onRow, List.getElem?_append_right (Nat.le_add_right _ _), Nat.add_sub_cancel_left, hi]
  | case2 i t hi =>
    rw [shift, onRow, List.getElem?_append_right (Nat.le_add_right _ _), Nat.add_sub_cancel_left, hi]
    exact ⟨fun h => (by cases h), fun h => (by cases h)⟩
  | case3 v => rfl
  | case4 l op r hl hr =>
    simp only [shift, onRow, bind_eq_ok, hl, hr]
  | case5 op e he => simp only [shift, onRow, bind_eq_ok, he]
  | case6 e t he => simp only [shift, onRow, bind_eq_ok, he]
  | case7 => exact ⟨fun h => (by cases h), fun h => (by cases h)⟩
  | case8 => exact ⟨fun h => (by cases h), fun h => (by cases h)⟩

/-- What is read of a left row stays when a right row is put behind it. -/
theorem onRow_append {types : List SqlType} (hleft : left.length = types.length) {e : Expr} {t : SqlType}
    (ht : e.resolve types = .ok t) : e.onRow (left ++ right) = e.onRow left := by
  fun_induction onRow left e generalizing t with
  | case1 i bound found hi => rw [onRow, List.getElem?_append_left (List.getElem?_eq_some_iff.mp hi).1, hi]
  | case2 i bound hi =>
    have hlt := (List.getElem?_eq_some_iff.mp (columnType_eq_ok.mp ht).1).1
    rw [List.getElem?_eq_none_iff] at hi
    omega
  | case3 => rfl
  | case4 l op r hl hr =>
    obtain ⟨lt, hlt, ht⟩ := bind_eq_ok.mp ht
    obtain ⟨rt, hrt, _⟩ := bind_eq_ok.mp ht
    rw [onRow, hl hlt, hr hrt]
  | case5 op e he =>
    obtain ⟨et, het, _⟩ := bind_eq_ok.mp ht
    rw [onRow, he het]
  | case6 e target he =>
    obtain ⟨et, het, _⟩ := bind_eq_ok.mp ht
    rw [onRow, he het]
  | case7 => rfl
  | case8 => rfl

end Expr

/-! ### Truth on a row -/

namespace Expr

/-- The truth of an expression on a row; it is unknown without a truth value. -/
def truthOn (row : Row) (e : Expr) : Option Bool :=
  match (e.valueOn row).toBoolean with
  | .ok b => b
  | .error _ => none

theorem truthOn_of_ok {row : Row} {e : Expr} {d : Datum} {b : Option Bool} (h : e.onRow row = .ok d)
    (hb : d.toBoolean = .ok b) : e.truthOn row = b := by
  rw [truthOn, valueOn_of_ok h, hb]

theorem truthOn_of_error {row : Row} {e : Expr} {x : QueryError} (h : e.onRow row = .error x) : e.truthOn row = none := by
  rw [truthOn, valueOn, h]
  rfl

theorem holdsOn_iff {row : Row} {p : Expr} : p.holdsOn row = true ↔ p.truthOn row = some true := by
  unfold holdsOn truthOn
  cases (p.valueOn row).toBoolean with
  | error e => simp
  | ok b => rcases b with _ | _ | _ <;> simp

end Expr

/-! ### Equality of values -/

namespace Scalar
variable {a b : Scalar}

/-- Only doubles can be told apart and still be the same key. -/
theorem eq_of_same (h : a.same b = true) (htype : a.type ≠ .double) : a = b := by
  have h : a.canonical = b.canonical := of_decide_eq_true h
  cases a with
  | double x => exact absurd rfl htype
  | _ =>
    cases b with
    | double y => cases h
    | _ => exact h

end Scalar

/-- Where keys that are not told apart are one value, the equation is TRUE where they
join. -/
theorem ComparisonOp.eq_apply {a b : Scalar} (hdistinct : a.same b = true → a = b) :
    ComparisonOp.eq.apply a b = some true ↔ (!a.isNull && !b.isNull && a.same b) = true := by
  have hsame : (a.compareTotal b).isEq = true ↔ a.same b = true := by
    rw [Scalar.compareTotal_isEq]
    refine ⟨fun h => ?_, hdistinct⟩
    rw [h]
    exact decide_eq_true rfl
  unfold ComparisonOp.apply
  cases a.isNull with
  | true => simp
  | false =>
    cases b.isNull with
    | true => simp
    | false => simpa [ComparisonOp.accepts] using hsame

/-! ### The equation of a pair of keys -/

namespace Plan
variable {left right : List SqlType} {pair key : Expr × Expr} {l r : Row}

/-- The left key is equal to the right one, over both rows beside each other. -/
def equation (leftColumns : Nat) (pair : Expr × Expr) : Expr :=
  .binary pair.1 (.comparison .eq) (pair.2.shift leftColumns)

/-- A key cast to the common type is the operand of the comparison. -/
theorem value_cast {row : Row} {e : Expr} {d : Datum} {t : SqlType} (h : e.onRow row = .ok d)
    (hcan : d.type.canCast t = true) : ((Expr.cast e t).valueOn row).value = d.widen t := by
  have honRow : (Expr.cast e t).onRow row = d.cast t := by rw [Expr.onRow, h]; rfl
  unfold Expr.valueOn
  rw [honRow, Datum.cast, Datum.widen]
  by_cases hsame : d.type = t
  · rw [if_pos hsame, if_pos hsame]
  · rw [if_neg hsame, if_neg hsame, if_pos hcan, Cast.widen]
    cases Cast.slot t d.value <;> rfl

/-- A key that has no value is no key. -/
theorem value_cast_error {row : Row} {e : Expr} {x : QueryError} {t : SqlType} (h : e.onRow row = .error x) :
    ((Expr.cast e t).valueOn row).value = .null := by
  have honRow : (Expr.cast e t).onRow row = .error x := by rw [Expr.onRow, h]; rfl
  unfold Expr.valueOn
  rw [honRow]
  rfl

theorem toBoolean_ofBoolean (b : Option Bool) : (Datum.ofBoolean b).toBoolean = .ok b := by cases b <;> rfl

theorem fits_widen {d : Datum} (hd : d.Fits) (t : SqlType) : (d.widen t).Fits t := by
  unfold Datum.widen
  split
  · rename_i hsame
    rw [← hsame]
    exact hd
  · exact (Cast.widen t d.value).property

/-- Operands of a common type compare as what they are when brought to it. -/
theorem comparison_ok {op : ComparisonOp} {dl dr : Datum} {t : SqlType} (ht : SqlType.common? dl.type dr.type = some t)
    (hl : dl.Fits) : Datum.comparison op dl dr = .ok (Datum.ofBoolean (op.apply (dl.widen t) (dr.widen t))) := by
  by_cases hnull : t = .sqlNull
  · have hvalue : dl.widen t = .null := by
      have hfits := fits_widen hl t
      rw [hnull, Scalar.fits_sqlNull_iff] at hfits
      rw [hnull, hfits]
    rw [Datum.comparison, ht, hvalue, hnull]
    rfl
  · rw [Datum.comparison, ht]
    cases t <;> first | rfl | exact absurd rfl hnull

/-- The types of a pair that is accepted have their common type. -/
theorem joinPair_common (h : joinPair left right pair = .ok key) :
    ∃ lt rt, pair.1.resolve left = .ok lt ∧ pair.2.resolve right = .ok rt ∧
      SqlType.common? lt rt = some (commonType left right pair) := by
  obtain ⟨lt, hlt, h⟩ := bind_eq_ok.mp h
  obtain ⟨rt, hrt, h⟩ := bind_eq_ok.mp h
  refine ⟨lt, rt, hlt, hrt, ?_⟩
  rw [commonType, hlt, hrt]
  cases ht : SqlType.common? lt rt with
  | none =>
    rw [ht] at h
    cases h
  | some t => simp only [ht, Option.getD_some]

/-- What is held against each other of a pair: the keys cast to their common type. -/
def leftKey (left right : List SqlType) (l : Row) (pair : Expr × Expr) : Scalar :=
  ((Expr.cast pair.1 (commonType left right pair)).valueOn l).value

def rightKey (left right : List SqlType) (r : Row) (pair : Expr × Expr) : Scalar :=
  ((Expr.cast pair.2 (commonType left right pair)).valueOn r).value

theorem onRow_equation (hpair : joinPair left right pair = .ok key) (hl : Typed left l) :
    (equation left.length pair).onRow (l ++ r) = (do
      let a ← pair.1.onRow l
      let b ← (pair.2.shift l.length).onRow (l ++ r)
      Datum.comparison .eq a b) := by
  obtain ⟨lt, _, hlt, _, _⟩ := joinPair_common hpair
  have hlength : l.length = left.length := by rw [← hl.1, List.length_map]
  rw [equation, Expr.onRow, Expr.onRow_append hlength hlt, hlength]
  rfl

/-- Where both keys have values, the equation compares them. -/
theorem equation_ok (hpair : joinPair left right pair = .ok key) (hl : Typed left l) (hr : Typed right r) {dl dr : Datum}
    (hleft : pair.1.onRow l = .ok dl) (hright : pair.2.onRow r = .ok dr) :
    (equation left.length pair).onRow (l ++ r) =
      .ok (Datum.ofBoolean (ComparisonOp.eq.apply (leftKey left right l pair) (rightKey left right r pair))) := by
  obtain ⟨lt, rt, hlt, hrt, hcommon⟩ := joinPair_common hpair
  obtain ⟨rfl, hdl⟩ := Expr.onRow_typed hl hlt hleft
  obtain ⟨rfl, _⟩ := Expr.onRow_typed hr hrt hright
  obtain ⟨hcanl, hcanr⟩ := canCast_common hcommon
  rw [onRow_equation hpair hl, hleft, ok_bind, Expr.onRow_shift.mpr hright, ok_bind, leftKey, rightKey,
    value_cast hleft hcanl, value_cast hright hcanr]
  exact comparison_ok hcommon hdl

/-- The equation of a pair compares its keys; a key without a value is NULL. -/
theorem truthOn_equation (hpair : joinPair left right pair = .ok key) (hl : Typed left l) (hr : Typed right r) :
    (equation left.length pair).truthOn (l ++ r) =
      ComparisonOp.eq.apply (leftKey left right l pair) (rightKey left right r pair) := by
  cases hleft : pair.1.onRow l with
  | error x =>
    have honRow := onRow_equation (r := r) hpair hl
    rw [hleft] at honRow
    rw [Expr.truthOn_of_error honRow, leftKey, value_cast_error hleft]
    rfl
  | ok dl =>
    cases hright : pair.2.onRow r with
    | error x =>
      have honRow := onRow_equation (r := r) hpair hl
      rw [hleft, ok_bind] at honRow
      rw [rightKey, value_cast_error hright, ComparisonOp.apply, Scalar.isNull, Bool.or_true, if_pos rfl]
      cases hshift : (pair.2.shift l.length).onRow (l ++ r) with
      | error y =>
        rw [hshift] at honRow
        exact Expr.truthOn_of_error honRow
      | ok dr =>
        rw [Expr.onRow_shift.mp hshift] at hright
        cases hright
    | ok dr => exact Expr.truthOn_of_ok (equation_ok hpair hl hr hleft hright) (toBoolean_ofBoolean _)

/-- The equation of a pair is TRUE where its keys join. -/
theorem holdsOn_equation (hpair : joinPair left right pair = .ok key) (hl : Typed left l) (hr : Typed right r)
    (hdistinct : (leftKey left right l pair).same (rightKey left right r pair) = true →
      leftKey left right l pair = rightKey left right r pair) :
    (equation left.length pair).holdsOn (l ++ r) =
      (!(leftKey left right l pair).isNull && !(rightKey left right r pair).isNull &&
        (leftKey left right l pair).same (rightKey left right r pair)) := by
  rw [Bool.eq_iff_iff, Expr.holdsOn_iff, truthOn_equation hpair hl hr]
  exact ComparisonOp.eq_apply hdistinct

end Plan

/-! ### All pairs -/

namespace JoinKeys
variable {k : JoinKeys} {left right left' right' : List Row}

/-- Keys of rows that are not told apart are one value, part by part. Only doubles can
be otherwise (`Scalar.eq_of_same`). -/
def Distinct (k : JoinKeys) (left right : List Row) : Prop :=
  ∀ l ∈ left, ∀ r ∈ right, ∀ p ∈ (k.left l).zip (k.right r), p.1.same p.2 = true → p.1 = p.2

instance (k : JoinKeys) (left right : List Row) : Decidable (k.Distinct left right) :=
  inferInstanceAs (Decidable (∀ l ∈ left, ∀ r ∈ right, ∀ p ∈ (k.left l).zip (k.right r), _ → _))

theorem Distinct.mono (h : k.Distinct left right) (hl : left' ⊆ left) (hr : right' ⊆ right) : k.Distinct left' right' :=
  fun l hleft r hright => h l (hl hleft) r (hr hright)

end JoinKeys

namespace Plan
variable {left right : List SqlType} {on keys : List (Expr × Expr)} {leftRows rightRows : List Row} {l r : Row}

/-- All equations are TRUE of the rows whose keys join. -/
theorem all_holdsOn_equation (hkeys : on.mapM (joinPair left right) = .ok keys)
    (hdistinct : (castKeys left right on).Distinct leftRows rightRows) (hleft : ∀ l ∈ leftRows, Typed left l)
    (hright : ∀ r ∈ rightRows, Typed right r) (hl : l ∈ leftRows) (hr : r ∈ rightRows) :
    (on.map (equation left.length)).all (Expr.holdsOn (l ++ r)) =
      ((castKeys left right on).left l).joins ((castKeys left right on).right r) := by
  have hzip : ((castKeys left right on).left l).zip ((castKeys left right on).right r) =
      on.map fun pair => (leftKey left right l pair, rightKey left right r pair) := List.zip_map' ..
  have hdistinct := hdistinct l hl r hr
  rw [hzip] at hdistinct
  rw [Key.joins, hzip, List.all_map, List.all_map, Bool.eq_iff_iff, List.all_eq_true, List.all_eq_true]
  refine forall₂_congr fun pair hpair => ?_
  obtain ⟨key, _, hkey⟩ := mapM_ok_of_mem hkeys hpair
  rw [Function.comp_apply, holdsOn_equation hkey (hleft l hl) (hright r hr) (hdistinct _ (List.mem_map_of_mem hpair))]
  rfl

theorem fits_castKey {types : List SqlType} {row : Row} (hrow : Typed types row) {e : Expr} {s t : SqlType}
    (he : e.resolve types = .ok s) (hcan : s.canCast t = true) : ((Expr.cast e t).valueOn row).value.Fits t := by
  have hresolve : (Expr.cast e t).resolve types = .ok t := by
    rw [Expr.resolve, he]
    exact Expr.castType_eq_ok.mpr ⟨hcan, rfl⟩
  unfold Expr.valueOn
  cases hd : (Expr.cast e t).onRow row with
  | error x => exact .inl rfl
  | ok d =>
    obtain ⟨rfl, hfits⟩ := Expr.onRow_typed hrow hresolve hd
    exact hfits

/-- Keys that are not compared as doubles are distinct. -/
theorem distinct_of_types (hkeys : on.mapM (joinPair left right) = .ok keys)
    (hdouble : ∀ pair ∈ on, commonType left right pair ≠ .double) (hleft : ∀ l ∈ leftRows, Typed left l) :
    (castKeys left right on).Distinct leftRows rightRows := by
  intro l hl r _ p hp hsame
  have hzip : ((castKeys left right on).left l).zip ((castKeys left right on).right r) =
      on.map fun pair => (leftKey left right l pair, rightKey left right r pair) := List.zip_map' ..
  rw [hzip] at hp
  obtain ⟨pair, hpair, rfl⟩ := List.mem_map.mp hp
  obtain ⟨key, _, hkey⟩ := mapM_ok_of_mem hkeys hpair
  obtain ⟨lt, rt, hlt, _, hcommon⟩ := joinPair_common hkey
  refine Scalar.eq_of_same hsame fun htype => ?_
  have htype : (leftKey left right l pair).type = .double := htype
  rcases fits_castKey (hleft l hl) hlt (canCast_common hcommon).1 with hnull | hfits
  · rw [leftKey, hnull] at htype
    cases htype
  · exact hdouble pair hpair (hfits.symm.trans htype)

end Plan
end QueryEngine
