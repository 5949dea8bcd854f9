import QueryEngine.Double.Basic

/-! The shortest decimal that reads back as a given double.

A finite, nonzero magnitude is an exact fraction, and the reals that round to it
are an interval around it, ends included when its significand is even. For one,
two, … digits the two neighbours of the value on that decimal grid are tried: the
first grid with a neighbour inside the interval wins, and of two neighbours the
nearer one. How an exact tie is broken belongs to whoever prints the number. -/
namespace QueryEngine

/-- The value `digits * 10 ^ exponent`. -/
structure Decimal where
  digits : Nat
  exponent : Int
  deriving DecidableEq

namespace Decimal

def digitCount (n : Nat) : Nat := (Nat.toDigits 10 n).length

/-- The same value without trailing zeros in `digits`. -/
def trim : Nat → Decimal → Decimal
  | 0, d => d
  | fuel + 1, d =>
    if d.digits ≠ 0 ∧ d.digits % 10 = 0 then trim fuel ⟨d.digits / 10, d.exponent + 1⟩ else d

end Decimal

/-- Which neighbour an exact tie goes to. -/
inductive Tie where
  | up
  | even
  deriving DecidableEq

namespace Double

/-- A magnitude as a fraction with the interval that rounds to it: the numerators
of the value and of both ends over one denominator. -/
structure Neighbourhood where
  low : Nat
  value : Nat
  high : Nat
  denominator : Nat
  closed : Bool

def neighbourhood (d : Double) : Neighbourhood :=
  -- In quarters of the last binary place; the gap below a power of two is half as wide.
  let narrow := d.magnitude % normal = 0 ∧ 1 < d.magnitude / normal
  let value := 4 * d.significand
  let low := if narrow then value - 1 else value - 2
  let high := value + 2
  let shift := d.exponent - 2
  let scale := Nat.pow 2 shift.toNat
  { low := low * scale
    value := value * scale
    high := high * scale
    denominator := Nat.pow 2 (-shift).toNat
    closed := d.significand % 2 = 0 }

/-- The exponent of the leading decimal digit of `num / den`. -/
def leading (num den : Nat) : Int :=
  let guess : Int := (Decimal.digitCount num : Int) - Decimal.digitCount den
  if den * Nat.pow 10 guess.toNat ≤ num * Nat.pow 10 (-guess).toNat then guess else guess - 1

namespace Neighbourhood

/-- Whether `digits * 10 ^ exponent` rounds to the value. -/
def holds (n : Neighbourhood) (c : Decimal) : Bool :=
  let point := c.digits * Nat.pow 10 c.exponent.toNat * n.denominator
  let unit := Nat.pow 10 (-c.exponent).toNat
  if n.closed then n.low * unit ≤ point && point ≤ n.high * unit
  else n.low * unit < point && point < n.high * unit

/-- The neighbour of the value on the grid of multiples of `10 ^ exponent` that
rounds to the value, if one does. -/
def onGrid (n : Neighbourhood) (tie : Tie) (exponent : Int) : Option Decimal :=
  let num := n.value * Nat.pow 10 (-exponent).toNat
  let den := n.denominator * Nat.pow 10 exponent.toNat
  let below := num / den
  let lower : Decimal := ⟨below, exponent⟩
  let upper : Decimal := ⟨below + 1, exponent⟩
  match n.holds lower, n.holds upper with
  | false, false => none
  | true, false => some lower
  | false, true => some upper
  | true, true =>
    let rest := 2 * (num % den)
    let goUp := den < rest ∨ (rest = den ∧ (tie = .up ∨ below % 2 = 1))
    some (if goUp then upper else lower)

/-- Tries grids of `count` and more digits. -/
def search (n : Neighbourhood) (tie : Tie) (top : Int) : Nat → Nat → Decimal
  | 0, count => ⟨n.value * Nat.pow 10 (count - 1 - top).toNat / (n.denominator * Nat.pow 10 (top + 1 - count).toNat),
      top + 1 - count⟩
  | fuel + 1, count => (n.onGrid tie (top + 1 - count)).getD (n.search tie top fuel (count + 1))

end Neighbourhood

/-- The shortest decimal of a finite, nonzero magnitude: at most seventeen digits
and no trailing zero. -/
def shortest (tie : Tie) (d : Double) : Decimal :=
  let n := d.neighbourhood
  (n.search tie (leading n.value n.denominator) 17 1).trim 18

end Double
end QueryEngine
