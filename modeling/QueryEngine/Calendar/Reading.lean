import QueryEngine.Calendar.Basic
import QueryEngine.Text.Blank

/-! Reading a date from text.

A text of up to ten bytes is a date: `YYYYMMDD`, or year, month and day between
hyphens, month and day with one or two digits; what is left of the ten bytes may
hold anything but digits. A longer text is a timestamp: a full date, `T` or a
space, a time of day, and optionally a zone; the date in UTC is taken. -/
namespace QueryEngine
namespace CivilDate

private def number (ds : List Char) : Nat :=
  ds.foldl (fun n c => 10 * n + (c.toNat - '0'.toNat)) 0

private def checked (year month day : List Char) : Option CivilDate :=
  let d : CivilDate := ⟨number year, number month, number day⟩
  if d.isValid then some d else none

/-- One or two digits, and what follows them. -/
private def shortNumber (cs : List Char) : Option (List Char × List Char) :=
  let digits := cs.takeWhile Char.isDigit
  if digits.length = 1 ∨ digits.length = 2 then some (digits, cs.dropWhile Char.isDigit) else none

private def hyphen : List Char → Option (List Char)
  | '-' :: rest => some rest
  | _ => none

/-- Year, month and day between hyphens. -/
private def readHyphenated (cs : List Char) : Option CivilDate := do
  let year := cs.takeWhile Char.isDigit
  guard (year.length = 4)
  let rest ← hyphen (cs.dropWhile Char.isDigit)
  let (month, rest) ← shortNumber rest
  let rest ← hyphen rest
  let (day, rest) ← shortNumber rest
  guard (rest.all fun c => !c.isDigit)
  checked year month day

private def readCompact (cs : List Char) : Option CivilDate := do
  guard (cs.length = 8 && cs.all Char.isDigit)
  checked (cs.take 4) ((cs.drop 4).take 2) (cs.drop 6)

/-! ### Timestamps -/

/-- `YYYY-MM-DD` and the text after it. -/
private def readFullDate : List Char → Option (CivilDate × List Char)
  | y₁ :: y₂ :: y₃ :: y₄ :: '-' :: m₁ :: m₂ :: '-' :: d₁ :: d₂ :: rest => do
    guard ([y₁, y₂, y₃, y₄, m₁, m₂, d₁, d₂].all Char.isDigit)
    let d ← checked [y₁, y₂, y₃, y₄] [m₁, m₂] [d₁, d₂]
    some (d, rest)
  | _ => none

/-- Seconds since midnight; a leap second counts as the second before it. -/
private def timeOfDay (hour minute second : List Char) : Option Nat := do
  guard (number hour < 24 ∧ number minute < 60 ∧ number second ≤ 60)
  some (number hour * 3600 + number minute * 60 + min (number second) 59)

/-- Skips a fraction of a second, which needs at least one digit. -/
private def skipFraction : List Char → Option (List Char)
  | '.' :: c :: rest => if c.isDigit then some (rest.dropWhile Char.isDigit) else none
  | ['.'] => none
  | rest => some rest

/-- `HH:MM:SS` with an optional fraction, or `HHMMSS`, and the text after it. -/
private def readTime : List Char → Option (Nat × List Char)
  | h₁ :: h₂ :: ':' :: m₁ :: m₂ :: ':' :: s₁ :: s₂ :: rest => do
    guard ([h₁, h₂, m₁, m₂, s₁, s₂].all Char.isDigit)
    let rest ← skipFraction rest
    let seconds ← timeOfDay [h₁, h₂] [m₁, m₂] [s₁, s₂]
    some (seconds, rest)
  | h₁ :: h₂ :: m₁ :: m₂ :: s₁ :: s₂ :: rest => do
    guard ([h₁, h₂, m₁, m₂, s₁, s₂].all Char.isDigit)
    guard ((rest.take 2).all fun c => !c.isDigit)
    let seconds ← timeOfDay [h₁, h₂] [m₁, m₂] [s₁, s₂]
    some (seconds, rest)
  | _ => none

/-- Seconds east of UTC: nothing or `Z` for none, else a signed `HH`, `HHMM` or
`HH:MM` of less than a day. -/
private def readZone (cs : List Char) : Option Int :=
  if cs = [] ∨ cs = ['z'] ∨ cs = ['Z'] then some 0
  else
    let offset (sign : Char) (hour minute : List Char) : Option Int := do
      guard ((hour ++ minute).all Char.isDigit)
      let seconds := number hour * 3600 + number minute * 60
      guard (seconds < 86400)
      match sign with
      | '+' => some seconds
      | '-' => some (-(seconds : Int))
      | _ => none
    match Text.trimLeft cs with
    | [sign, h₁, h₂] => offset sign [h₁, h₂] []
    | [sign, h₁, h₂, m₁, m₂] => offset sign [h₁, h₂] [m₁, m₂]
    | [sign, h₁, h₂, ':', m₁, m₂] => offset sign [h₁, h₂] [m₁, m₂]
    | _ => none

private def readTimestamp (cs : List Char) : Option Int := do
  let (date, rest) ← readFullDate cs
  match rest with
  | separator :: rest =>
    guard (separator = 'T' ∨ separator = 't' ∨ separator = ' ')
    let (seconds, rest) ← readTime rest
    let offset ← readZone rest
    some (date.toDays + (seconds - offset) / 86400)
  | [] => none

/-- Days since 1970-01-01 of the date that `s` writes. -/
def daysOfText? (s : String) : Option Int :=
  let cs := s.toList
  if 10 < s.utf8ByteSize then readTimestamp cs
  else (readHyphenated cs <|> readCompact cs).map toDays

end CivilDate
end QueryEngine
