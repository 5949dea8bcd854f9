/-! Tokens of JSON texts.

A text falls into tokens in one way or in none. A number is kept by its value only if
it is written with digits alone; the others are known to be numbers and no more. A
string may name half of a surrogate pair, and then it stands for no text. -/
namespace QueryEngine.Json

inductive Token where
  | leftBrace
  | rightBrace
  | leftBracket
  | rightBracket
  | comma
  | colon
  | null
  | boolean (value : Bool)
  | number (plain : Option Nat)
  | text (value : Option String)
  deriving DecidableEq

def isBlank (c : Char) : Bool := c = ' ' || c = '\t' || c = '\n' || c = '\r'

/-! ### Numbers -/

/-- The digits at the front, of which there is one at least. -/
def takeDigits (s : List Char) : Option (List Char × List Char) :=
  let digits := s.takeWhile Char.isDigit
  if digits.isEmpty then none else some (digits, s.dropWhile Char.isDigit)

/-- A whole number; only zero itself starts with a zero. -/
def takeWhole (s : List Char) : Option (List Char × List Char) := do
  let (digits, rest) ← takeDigits s
  if digits.head? = some '0' ∧ 1 < digits.length then none else some (digits, rest)

/-- Passes over a point and its digits and tells whether there were any. -/
def skipFraction : List Char → Option (Bool × List Char)
  | '.' :: s => do return (true, (← takeDigits s).2)
  | s => some (false, s)

def skipSign : List Char → List Char
  | '+' :: s => s
  | '-' :: s => s
  | s => s

def skipExponent : List Char → Option (Bool × List Char)
  | 'e' :: s => do return (true, (← takeDigits (skipSign s)).2)
  | 'E' :: s => do return (true, (← takeDigits (skipSign s)).2)
  | s => some (false, s)

def valueOf (digits : List Char) : Nat := digits.foldl (fun n c => 10 * n + (c.toNat - '0'.toNat)) 0

def takeNumber (s : List Char) : Option (Token × List Char) := do
  let minus := s.head? = some '-'
  let (digits, s) ← takeWhole (if minus then s.tail else s)
  let (fraction, s) ← skipFraction s
  let (exponent, s) ← skipExponent s
  return (.number (if minus || fraction || exponent then none else some (valueOf digits)), s)

/-! ### Strings -/

/-- A character of a string, or a 16-bit unit that was named by its number. -/
inductive Piece where
  | char (value : Char)
  | unit (value : Nat)

def hexDigit? (c : Char) : Option Nat :=
  if c.isDigit then some (c.toNat - '0'.toNat)
  else if 'a' ≤ c ∧ c ≤ 'f' then some (c.toNat - 'a'.toNat + 10)
  else if 'A' ≤ c ∧ c ≤ 'F' then some (c.toNat - 'A'.toNat + 10)
  else none

def hexUnit? (digits : List Char) : Option Nat := digits.foldlM (fun n c => do return 16 * n + (← hexDigit? c)) 0

/-- The character that a letter behind a backslash stands for. -/
def escaped? : Char → Option Char
  | '"' => some '"'
  | '\\' => some '\\'
  | '/' => some '/'
  | 'b' => some '\x08'
  | 'f' => some '\x0c'
  | 'n' => some '\n'
  | 'r' => some '\r'
  | 't' => some '\t'
  | _ => none

/-- A string up to its closing quote. -/
def takePieces : List Char → Option (List Piece × List Char)
  | [] => none
  | '"' :: s => some ([], s)
  | '\\' :: 'u' :: a :: b :: c :: d :: s => do
    let n ← hexUnit? [a, b, c, d]
    let (pieces, s) ← takePieces s
    return (.unit n :: pieces, s)
  | '\\' :: c :: s => do
    let c ← escaped? c
    let (pieces, s) ← takePieces s
    return (.char c :: pieces, s)
  | c :: s => do
    if c.toNat < 0x20 then none
    let (pieces, s) ← takePieces s
    return (.char c :: pieces, s)

def isHigh (n : Nat) : Bool := 0xD800 ≤ n && n < 0xDC00

def isLow (n : Nat) : Bool := 0xDC00 ≤ n && n < 0xE000

/-- The text of a string; two units that are a surrogate pair are one character. -/
def textOf? : List Piece → Option (List Char)
  | [] => some []
  | .char c :: pieces => (textOf? pieces).map (c :: ·)
  | .unit n :: rest =>
    if isLow n then none
    else if isHigh n then
      match rest with
      | .unit m :: pieces =>
        if isLow m then (textOf? pieces).map (Char.ofNat (0x10000 + (n - 0xD800) * 0x400 + (m - 0xDC00)) :: ·) else none
      | _ => none
    else (textOf? rest).map (Char.ofNat n :: ·)

/-! ### Texts -/

/-- What is left behind a word. -/
def dropWord? : List Char → List Char → Option (List Char)
  | [], s => some s
  | _ :: _, [] => none
  | w :: ws, c :: s => if w = c then dropWord? ws s else none

/-- The token at the front. -/
def takeToken : List Char → Option (Token × List Char)
  | '{' :: s => some (.leftBrace, s)
  | '}' :: s => some (.rightBrace, s)
  | '[' :: s => some (.leftBracket, s)
  | ']' :: s => some (.rightBracket, s)
  | ',' :: s => some (.comma, s)
  | ':' :: s => some (.colon, s)
  | 'n' :: s => (dropWord? "ull".toList s).map fun s => (.null, s)
  | 't' :: s => (dropWord? "rue".toList s).map fun s => (.boolean true, s)
  | 'f' :: s => (dropWord? "alse".toList s).map fun s => (.boolean false, s)
  | '"' :: s => (takePieces s).map fun p => (.text ((textOf? p.1).map String.ofList), p.2)
  | s => takeNumber s

/-- All tokens of a text; every token takes a character at least. -/
def tokensWithin : Nat → List Char → Option (List Token)
  | 0, s => if (s.dropWhile isBlank).isEmpty then some [] else none
  | rounds + 1, s =>
    match s.dropWhile isBlank with
    | [] => some []
    | s => do
      let (token, rest) ← takeToken s
      return token :: (← tokensWithin rounds rest)

def tokens? (s : String) : Option (List Token) := tokensWithin s.toList.length s.toList

end QueryEngine.Json
