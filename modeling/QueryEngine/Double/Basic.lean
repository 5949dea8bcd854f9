/-! Double-precision numbers as their sixty-four bits.

A `Double` is compared in two ways. `rank` is the total order of the bits that
comparisons and sorting use: `-0.0` before `0.0`, every NaN with its sign at one
end. `canonical` identifies what grouping, joining, MIN and MAX identify: the two
zeros with each other and all NaNs with each other; the rank of the canonical
form is the order in which a NaN is equal to itself and greatest. -/
namespace QueryEngine

structure Double where
  bits : UInt64
  deriving DecidableEq

namespace Double

def ofFloat (x : Float) : Double := ⟨x.toBits⟩

def toFloat (d : Double) : Float := Float.ofBits d.bits

/-! ### Parts -/

/-- Everything but the sign bit. -/
def magnitude (d : Double) : Nat := d.bits.toNat % 0x8000000000000000

def isNegative (d : Double) : Bool := 0x8000000000000000 ≤ d.bits.toNat

/-- The magnitude of the infinities. -/
def infinite : Nat := 0x7ff0000000000000

def isNaN (d : Double) : Bool := infinite < d.magnitude

def isFinite (d : Double) : Bool := d.magnitude < infinite

def zero : Double := ⟨0⟩
def nan : Double := ⟨0x7ff8000000000000⟩
def infinity : Double := ⟨0x7ff0000000000000⟩

def neg (d : Double) : Double := ⟨d.bits ^^^ 0x8000000000000000⟩

/-- The lowest magnitude with a leading bit that is not written. -/
def normal : Nat := 0x10000000000000

/-- A finite magnitude is `significand * 2 ^ exponent`. -/
def significand (d : Double) : Nat :=
  if d.magnitude / normal = 0 then d.magnitude else d.magnitude % normal + normal

def exponent (d : Double) : Int :=
  if d.magnitude / normal = 0 then -1074 else (d.magnitude / normal : Nat) - 1075

/-- The integer part, dropping the fraction; infinities and NaN have none. -/
def truncate (d : Double) : Option Int :=
  if d.isFinite then
    let whole : Nat :=
      if 0 ≤ d.exponent then d.significand * Nat.pow 2 d.exponent.toNat
      else d.significand / Nat.pow 2 (-d.exponent).toNat
    some (if d.isNegative then -(whole : Int) else whole)
  else
    none

/-! ### Order -/

/-- Position in the total order of bit patterns. -/
def rank (d : Double) : Int :=
  if d.isNegative then -(d.magnitude : Int) - 1 else d.magnitude

def canonical (d : Double) : Double :=
  if d.isNaN then nan else if d.magnitude = 0 then zero else d

/-! ### Arithmetic -/

/-- A NaN that passes through an operation. -/
def quiet (d : Double) : Double := ⟨d.bits ||| 0x8000000000000⟩

/-- The result of an operation on numbers that has no value. -/
def invalid : Double := nan.neg

/-- The result of an operation that the numbers `a` and `b` take to `x`. A NaN operand is
the result instead, the left one if both are. -/
def settle (a b : Double) (x : Float) : Double :=
  if a.isNaN then a.quiet
  else if b.isNaN then b.quiet
  else if (ofFloat x).isNaN then invalid
  else ofFloat x

def add (a b : Double) : Double := settle a b (a.toFloat + b.toFloat)
def sub (a b : Double) : Double := settle a b (a.toFloat - b.toFloat)
def mul (a b : Double) : Double := settle a b (a.toFloat * b.toFloat)
def div (a b : Double) : Double := settle a b (a.toFloat / b.toFloat)

/-- The nearest double, ties to even. -/
def ofInt64 (i : Int64) : Double := ofFloat i.toFloat

/-! ### Identified values -/

theorem canonical_idem (d : Double) : d.canonical.canonical = d.canonical := by
  unfold canonical
  by_cases hn : d.isNaN
  · simp only [hn, if_true]; decide
  · by_cases hz : d.magnitude = 0
    · simp only [hn, hz, if_true, Bool.false_eq_true, if_false]; decide
    · simp [hn, hz]

theorem rank_injective {a b : Double} (h : a.rank = b.rank) : a = b := by
  have key : a.bits.toNat = b.bits.toNat := by
    have ha := a.bits.toNat_lt
    have hb := b.bits.toNat_lt
    simp only [rank, isNegative, magnitude, decide_eq_true_eq] at h
    split at h <;> split at h <;> omega
  cases a; cases b
  simpa [UInt64.toNat_inj] using key

end Double
end QueryEngine
