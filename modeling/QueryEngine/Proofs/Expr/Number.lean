import QueryEngine.Proofs.Chunk.Collected
import QueryEngine.Proofs.Expr.RowTyping
import QueryEngine.Proofs.Value.Integer

/-! The numbers that arithmetic sees.

Operands are brought to a common type before anything is computed. In an integral
type a value is the integer that it was, in DOUBLE it is the nearest double
(`Datum.number?_widen`); so what arithmetic does may be told of the operands as they
were given, by the numbers they are in the common type. -/
namespace QueryEngine

/-- An operand of arithmetic. -/
inductive Number where
  | integer (value : Int)
  | double (value : Double)

namespace Scalar
variable {t : SqlType} {v : Scalar}

/-- The number that a value is as an operand of the type `t`. -/
def number? (t : SqlType) (v : Scalar) : Option Number :=
  if t = .double then v.toDouble?.map .double else v.toInt?.map .integer

@[simp] theorem number?_null (t : SqlType) : null.number? t = none := by
  by_cases h : t = .double <;> simp [number?, h, toDouble?, toInt64?]

theorem number?_double (v : Scalar) : v.number? .double = v.toDouble?.map .double := rfl

theorem number?_integral {n : Int} (hn : t.half? = some n) (v : Scalar) : v.number? t = v.toInt?.map .integer :=
  if_neg fun h => by simp [h, SqlType.half?] at hn

theorem fits_double_iff : v.Fits .double ↔ v = .null ∨ ∃ d, v = .double d := by
  cases v <;> simp [Fits, type]

end Scalar

open Scalar

namespace Cast
variable {t : SqlType} {v w : Scalar}

theorem widen_of_value (h : value t v = .ok w) (hfits : w.Fits t) : (widen t v).val = w := by
  simp only [widen, slot, h, Except.map]
  exact Slot.ofScalar_val hfits

theorem widen_null (t : SqlType) : (widen t .null).val = .null := widen_of_value rfl (Scalar.null_fits t)

/-- An integer is one in every integral type that has room for it. -/
theorem value_integral {n i : Int} (hn : t.half? = some n) (hv : v.toInt? = some i) (hin : -n ≤ i ∧ i < n) :
    ∃ w, value t v = .ok w ∧ w.type = t ∧ w.toInt? = some i := by
  obtain ⟨w, hw, htype, hint⟩ := ofInt?_of_inRange hn hin
  have hnull : v.isNull = false := by cases v <;> first | rfl | cases hv
  have hcast : toInt? v = some i := by cases v <;> first | exact hv | cases hv
  refine ⟨w, ?_, htype, hint⟩
  cases t <;> simp_all [SqlType.half?, value]

/-- In DOUBLE it is the nearest one. -/
theorem value_double {i : Int} (hv : v.toInt? = some i) :
    ∃ x, value .double v = .ok (.double x) ∧ v.toDouble? = some x := by
  obtain ⟨x, hx, -⟩ := Option.map_eq_some_iff.mp hv
  refine ⟨.ofInt64 x, ?_, ?_⟩
  · cases v <;> simp_all [value, isNull, toDouble?, Scalar.toDouble?, toInt64?]
  · cases v <;> simp_all [Scalar.toDouble?, toInt64?]

end Cast

/-- Bringing an operand to the common type leaves it the number that it is there. -/
theorem Datum.number?_widen {t : SqlType} {d : Datum} (hd : d.Fits) (hw : d.type.WidensTo t) (hnum : t.isNumeric = true) :
    (d.widen t).Fits t ∧ (d.widen t = .null ↔ d.value = .null) ∧ (d.widen t).number? t = d.value.number? t := by
  by_cases hsame : d.type = t
  · rw [widen, if_pos hsame]
    exact ⟨hsame ▸ hd, Iff.rfl, rfl⟩
  rw [widen, if_neg hsame]
  by_cases hnull : d.value = .null
  · rw [hnull, Cast.widen_null]
    exact ⟨.inl rfl, Iff.rfl, rfl⟩
  have htype : d.value.type = d.type := hd.resolve_left hnull
  obtain ⟨m, n, hm, hn, hle⟩ : ∃ m n, d.type.width? = some m ∧ t.width? = some n ∧ m ≤ n := by
    refine (hw.resolve_left hsame).resolve_left fun h => hnull ?_
    exact (fits_sqlNull_iff d.value).mp (.inr (htype.trans h))
  rcases Bool.or_eq_true_iff.mp hnum with hint | hdouble
  · obtain ⟨b, hb⟩ := SqlType.half?_of_isIntegral hint
    obtain ⟨a, ha, hab⟩ := SqlType.half?_of_width hm hn hle hb
    rw [← htype] at ha
    obtain ⟨i, hi⟩ := toInt?_of_type ha
    have hin := toInt?_inRange ha hi
    obtain ⟨w, hw, hwtype, hwi⟩ := Cast.value_integral hb hi ⟨by omega, by omega⟩
    rw [Cast.widen_of_value hw (.inr hwtype), number?_integral hb, number?_integral hb, hwi, hi]
    refine ⟨.inr hwtype, iff_of_false ?_ hnull, rfl⟩
    rintro rfl
    cases hwi
  · obtain rfl := of_decide_eq_true hdouble
    obtain ⟨a, ha⟩ := SqlType.half?_of_ne_double hm hsame
    rw [← htype] at ha
    obtain ⟨i, hi⟩ := toInt?_of_type ha
    obtain ⟨x, hx, hvalue⟩ := Cast.value_double hi
    rw [Cast.widen_of_value hx (.inr rfl), number?_double, number?_double, hvalue]
    exact ⟨.inr rfl, iff_of_false nofun hnull, rfl⟩

end QueryEngine
