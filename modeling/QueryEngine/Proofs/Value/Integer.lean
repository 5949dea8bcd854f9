import QueryEngine.Expr.Cast

/-! The integers of a type.

An integral type has one integer more below zero than above it: with `n = half?`
those from `-n` to `n - 1`. `Scalar.ofInt?` makes values of exactly these, so all
that an operation on two of them needs to be in range is an inequality; division
leaves the range for the least integer by -1 and for nothing else
(`tdiv_inRange_iff`). -/
namespace QueryEngine

namespace SqlType

/-- Half the number of values of an integral type. -/
def half? : SqlType → Option Int
  | tinyInt => some 0x80
  | smallInt => some 0x8000
  | integer => some 0x80000000
  | bigInt => some 0x8000000000000000
  | _ => none

theorem half?_of_isIntegral {t : SqlType} (h : t.isIntegral = true) : ∃ n, t.half? = some n := by
  cases t <;> simp_all [half?, isIntegral]

/-- What an operand of type `s` may be brought to: its own type, any type from NULL, and
from a number a number at least as wide. -/
def WidensTo (s t : SqlType) : Prop :=
  s = t ∨ s = .sqlNull ∨ ∃ m n, s.width? = some m ∧ t.width? = some n ∧ m ≤ n

/-- Both operands can be brought to their common type. -/
theorem widensTo_of_common? {l r t : SqlType} (h : common? l r = some t) : l.WidensTo t ∧ r.WidensTo t := by
  unfold common? at h
  split at h
  · rename_i hsame
    cases h
    exact ⟨.inl rfl, .inl hsame.symm⟩
  split at h
  · rename_i hl
    cases h
    exact ⟨.inr (.inl hl), .inl rfl⟩
  split at h
  · rename_i hr
    cases h
    exact ⟨.inl rfl, .inr (.inl hr)⟩
  obtain ⟨m, hm, h⟩ := Option.bind_eq_some_iff.mp h
  obtain ⟨n, hn, h⟩ := Option.bind_eq_some_iff.mp h
  cases h
  by_cases hle : n ≤ m
  · rw [if_pos hle]
    exact ⟨.inl rfl, .inr (.inr ⟨n, m, hn, hm, hle⟩)⟩
  · rw [if_neg hle]
    exact ⟨.inr (.inr ⟨m, n, hm, hn, by omega⟩), .inl rfl⟩

/-- A type that is narrower than an integral one has integers, and no others. -/
theorem half?_of_width {s t : SqlType} {m n : Nat} {b : Int} (hs : s.width? = some m) (ht : t.width? = some n)
    (hle : m ≤ n) (hb : t.half? = some b) : ∃ a, s.half? = some a ∧ a ≤ b := by
  cases s <;> cases t <;> simp_all [width?, half?] <;> omega

theorem half?_of_ne_double {t : SqlType} {m : Nat} (ht : t.width? = some m) (hne : t ≠ .double) :
    ∃ n, t.half? = some n := by
  cases t <;> simp_all [width?, half?]

end SqlType

namespace Scalar
variable {t : SqlType} {n i : Int} {v : Scalar}

/-- The integer that a value of an integral type is. -/
def toInt? (v : Scalar) : Option Int := v.toInt64?.map Int64.toInt

@[simp] theorem toInt?_null : null.toInt? = none := rfl

theorem toInt?_inRange (hn : v.type.half? = some n) (h : v.toInt? = some i) : -n ≤ i ∧ i < n := by
  cases v <;> simp only [type, SqlType.half?, Option.some.injEq, reduceCtorEq] at hn <;>
    simp only [toInt?, toInt64?, Option.map_some, Option.some.injEq] at h <;> subst hn h
  case tinyInt v =>
    rw [Int8.toInt_toInt64]
    exact ⟨v.le_toInt, v.toInt_lt⟩
  case smallInt v =>
    rw [Int16.toInt_toInt64]
    exact ⟨v.le_toInt, v.toInt_lt⟩
  case integer v =>
    rw [Int32.toInt_toInt64]
    exact ⟨v.le_toInt, v.toInt_lt⟩
  case bigInt v => exact ⟨v.le_toInt, v.toInt_lt⟩

/-- A value of an integral type is an integer. -/
theorem toInt?_of_type (hn : v.type.half? = some n) : ∃ i, v.toInt? = some i := by
  cases v <;> simp_all [type, SqlType.half?, toInt?, toInt64?]

/-- In range there is a value for every integer. -/
theorem ofInt?_of_inRange (hn : t.half? = some n) (h : -n ≤ i ∧ i < n) :
    ∃ v, ofInt? t i = some v ∧ v.type = t ∧ v.toInt? = some i := by
  obtain ⟨hlow, hhigh⟩ := h
  cases t <;> simp only [SqlType.half?, Option.some.injEq, reduceCtorEq] at hn <;> subst hn
  case tinyInt =>
    refine ⟨_, if_pos (by omega), rfl, ?_⟩
    rw [toInt?, toInt64?, Option.map_some, Int8.toInt_toInt64, Int8.toInt_ofInt_of_le hlow hhigh]
  case smallInt =>
    refine ⟨_, if_pos (by omega), rfl, ?_⟩
    rw [toInt?, toInt64?, Option.map_some, Int16.toInt_toInt64, Int16.toInt_ofInt_of_le hlow hhigh]
  case integer =>
    refine ⟨_, if_pos (by omega), rfl, ?_⟩
    rw [toInt?, toInt64?, Option.map_some, Int32.toInt_toInt64, Int32.toInt_ofInt_of_le hlow hhigh]
  case bigInt =>
    refine ⟨_, if_pos (by omega), rfl, ?_⟩
    rw [toInt?, toInt64?, Option.map_some, Int64.toInt_ofInt_of_le hlow hhigh]

/-- Out of range there is none. -/
theorem ofInt?_eq_none (hn : t.half? = some n) (h : ¬(-n ≤ i ∧ i < n)) : ofInt? t i = none := by
  cases t <;> simp only [SqlType.half?, Option.some.injEq, reduceCtorEq] at hn <;> subst hn <;>
    exact if_neg (by omega)

end Scalar

/-- The truncated quotient is in the range of its operands, but for the least integer by -1. -/
theorem tdiv_inRange_iff {n a b : Int} (hlow : -n ≤ a) (hhigh : a < n) (hb : b ≠ 0) :
    (-n ≤ a.tdiv b ∧ a.tdiv b < n) ↔ ¬(a = -n ∧ b = -1) := by
  have hq : (a.tdiv b).natAbs = a.natAbs / b.natAbs := Int.natAbs_tdiv a b
  have hle : a.natAbs / b.natAbs ≤ a.natAbs := Nat.div_le_self _ _
  constructor
  · rintro ⟨_, hlt⟩ ⟨rfl, rfl⟩
    rw [Int.tdiv_neg, Int.tdiv_one, Int.neg_neg] at hlt
    omega
  · intro h
    by_cases hunit : b.natAbs = 1
    · have hcases : b = 1 ∨ b = -1 := by omega
      rcases hcases with rfl | rfl
      · rw [Int.tdiv_one]
        omega
      · rw [Int.tdiv_neg, Int.tdiv_one]
        omega
    · have hhalf : a.natAbs / b.natAbs ≤ a.natAbs / 2 := Nat.div_le_div_left (by omega) (by decide)
      omega

end QueryEngine
