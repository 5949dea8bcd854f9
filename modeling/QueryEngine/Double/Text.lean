import QueryEngine.Double.Shortest

/-! Doubles as text.

Two layouts of the shortest digits. `toPlain`, for messages and literals, never
uses an exponent and drops the point of a whole number. `toVarchar`, for the cast
to VARCHAR, keeps `.0` on whole numbers and turns to an exponent outside
`[1e-5, 1e16)`. `ofText?` reads a number back; it accepts a sign, digits with an
optional point, an exponent, and the words for infinity and NaN in any case. -/
namespace QueryEngine
namespace Double

private def zeros (n : Nat) : String := String.ofList (List.replicate n '0')

private def signed (d : Double) (body : String) : String := if d.isNegative then "-" ++ body else body

/-- Digits without an exponent; `whole` ends a number that has no fraction. -/
def positional (c : Decimal) (whole : String) : String :=
  let digits := Nat.toDigits 10 c.digits
  let point : Int := digits.length + c.exponent
  if 0 ≤ c.exponent then String.ofList digits ++ zeros c.exponent.toNat ++ whole
  else if 0 < point then
    String.ofList (digits.take point.toNat) ++ "." ++ String.ofList (digits.drop point.toNat)
  else "0." ++ zeros (-point).toNat ++ String.ofList digits

/-- One digit, the others behind a point, and the exponent. -/
def scientific (c : Decimal) : String :=
  let digits := Nat.toDigits 10 c.digits
  let fraction := digits.drop 1
  String.ofList (digits.take 1) ++ (if fraction.isEmpty then "" else "." ++ String.ofList fraction) ++
    "e" ++ toString (digits.length - 1 + c.exponent)

def toPlain (d : Double) : String :=
  if d.isNaN then "NaN"
  else if !d.isFinite then signed d "inf"
  else if d.magnitude = 0 then signed d "0"
  else signed d (positional (d.shortest .up) "")

def toVarchar (d : Double) : String :=
  if d.isNaN then "NaN"
  else if !d.isFinite then signed d "inf"
  else if d.magnitude = 0 then signed d "0.0"
  else
    let c := d.shortest .even
    let point : Int := Decimal.digitCount c.digits + c.exponent
    signed d (if -5 < point ∧ point ≤ 16 then positional c ".0" else scientific c)

/-! ### Reading -/

private def digitsValue (ds : List Char) : Nat :=
  ds.foldl (fun n c => 10 * n + (c.toNat - '0'.toNat)) 0

/-- The double nearest to `mantissa * 10 ^ exponent`. Exponents far outside the
range of a double are settled before any power is computed. -/
def ofDecimal (mantissa : Nat) (exponent : Int) : Double :=
  let top : Int := Decimal.digitCount mantissa + exponent
  if mantissa = 0 ∨ top < -400 then zero
  else if 400 < top then infinity
  else ofFloat (Float.ofScientific mantissa (exponent < 0) exponent.natAbs)

/-- Splits off a sign; `true` is a minus. -/
def splitSign : List Char → Bool × List Char
  | '-' :: rest => (true, rest)
  | '+' :: rest => (false, rest)
  | rest => (false, rest)

private def readExponent : List Char → Option Int
  | [] => some 0
  | c :: rest =>
    if c = 'e' ∨ c = 'E' then
      let (minus, digits) := splitSign rest
      if !digits.isEmpty && digits.all Char.isDigit then
        some (if minus then -(digitsValue digits : Int) else digitsValue digits)
      else none
    else none

private def readMagnitude (cs : List Char) : Option Double :=
  let word := String.ofList (cs.map Char.toLower)
  if word = "inf" ∨ word = "infinity" then some infinity
  else if word = "nan" then some nan
  else
    let whole := cs.takeWhile Char.isDigit
    let rest := cs.dropWhile Char.isDigit
    let (fraction, rest) := match rest with
      | '.' :: rest => (rest.takeWhile Char.isDigit, rest.dropWhile Char.isDigit)
      | rest => ([], rest)
    if whole.isEmpty && fraction.isEmpty then none
    else (readExponent rest).map fun e => ofDecimal (digitsValue (whole ++ fraction)) (e - fraction.length)

def ofText? (s : String) : Option Double :=
  let (minus, rest) := splitSign s.toList
  (readMagnitude rest).map fun d => if minus then d.neg else d

end Double
end QueryEngine
