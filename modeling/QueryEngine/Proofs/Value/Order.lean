import Mathlib.Order.Compare
import QueryEngine.Value.Scalar

/-! The order of values.

Values are ordered by where they stand, which is by three numbers and texts in turn, so
the order is total and transitive whatever places the doubles. In the total order no two
values stand in one place; in the other one they do when they are the same key. -/
namespace QueryEngine.Scalar
variable {a b : Scalar}

namespace Position

theorem compare_isEq {p q : Position} : (p.compare q).isEq = true ↔ p = q := by
  obtain ⟨t, n, s⟩ := p
  obtain ⟨t', n', s'⟩ := q
  simp only [Position.compare, Ordering.isEq_iff_eq_eq, Ordering.then_eq_eq, Std.LawfulEqCmp.compare_eq_iff_eq,
    Position.mk.injEq]

instance : Std.TransCmp Position.compare :=
  inferInstanceAs (Std.TransCmp (compareLex (compareOn type) (compareLex (compareOn number) (compareOn text))))

end Position

theorem position_rank_injective (h : a.position Double.rank = b.position Double.rank) : a = b := by
  cases a <;> cases b <;> simp [position] at h ⊢
  case boolean.boolean x y => cases x <;> cases y <;> simp_all
  case tinyInt.tinyInt => exact Int8.toInt_inj.mp h
  case smallInt.smallInt => exact Int16.toInt_inj.mp h
  case integer.integer => exact Int32.toInt_inj.mp h
  case bigInt.bigInt => exact Int64.toInt_inj.mp h
  case double.double => exact Double.rank_injective h
  case varchar.varchar => exact h
  case date.date => exact Int32.toInt_inj.mp h

/-- Values with one place in the total order are one value. -/
theorem compareTotal_isEq : (a.compareTotal b).isEq = true ↔ a = b := by
  rw [compareTotal, Position.compare_isEq]
  constructor
  · exact position_rank_injective
  · intro h
    rw [h]

/-- Values are ordered by their places, whatever places the doubles have. -/
instance transCmp_position (rank : Double → Int) :
    Std.TransCmp fun a b : Scalar => (a.position rank).compare (b.position rank) where
  eq_swap := Std.OrientedCmp.eq_swap
  isLE_trans := Std.TransCmp.isLE_trans

instance : Std.TransCmp compareTotal := transCmp_position Double.rank

instance : Std.TransCmp compare := transCmp_position fun d => d.canonical.rank

/-! ### Values that compare alike -/

/-- Values compare as what stands for their classes does in the total order. -/
theorem compare_eq_compareTotal (a b : Scalar) : a.compare b = a.canonical.compareTotal b.canonical := by
  have hplace (v : Scalar) : (v.position fun d => d.canonical.rank) = v.canonical.position Double.rank := by
    cases v <;> rfl
  rw [compare, hplace, hplace]
  rfl

/-- Values compare as equal when they are the same key. -/
theorem compare_eq_iff : a.compare b = .eq ↔ a.canonical = b.canonical := by
  rw [compare_eq_compareTotal, ← Ordering.isEq_iff_eq_eq]
  exact compareTotal_isEq

/-- Only doubles have other values in their class. -/
theorem canonical_of_fits {t : SqlType} (h : a.Fits t) (ht : t ≠ .double) : a.canonical = a := by
  cases a with
  | double d =>
    rcases h with h | h
    · cases h
    · exact absurd h.symm ht
  | _ => rfl

theorem eq_of_compare {t : SqlType} (ha : a.Fits t) (hb : b.Fits t) (ht : t ≠ .double) (h : a.compare b = .eq) : a = b := by
  rw [← canonical_of_fits ha ht, compare_eq_iff.mp h, canonical_of_fits hb ht]

/-- Two values of which neither comes before the other. -/
theorem compare_eq_of_ne {o : Ordering} (ho : o ≠ .eq) (h : a.compare b ≠ o) (h' : b.compare a ≠ o) : a.compare b = .eq := by
  have hswap : b.compare a = (a.compare b).swap := Std.OrientedCmp.eq_swap
  rw [hswap] at h'
  cases hab : a.compare b <;> cases o <;> simp_all

end QueryEngine.Scalar
