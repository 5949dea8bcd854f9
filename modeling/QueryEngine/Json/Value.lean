import QueryEngine.Json.Token

/-! Values of JSON texts. -/
namespace QueryEngine

inductive JsonValue where
  | null
  | boolean (value : Bool)
  | number (plain : Option Nat)
  | text (value : Option String)
  | array (items : List JsonValue)
  | object (members : List (Option String × JsonValue))

namespace JsonValue
open Json

mutual

/-- The value at the front, in so many rounds. -/
def take : Nat → List Token → Option (JsonValue × List Token)
  | 0, _ => none
  | _, .null :: ts => some (null, ts)
  | _, .boolean b :: ts => some (boolean b, ts)
  | _, .number n :: ts => some (number n, ts)
  | _, .text s :: ts => some (text s, ts)
  | _, .leftBracket :: .rightBracket :: ts => some (array [], ts)
  | _, .leftBrace :: .rightBrace :: ts => some (object [], ts)
  | rounds + 1, .leftBracket :: ts => (takeItems rounds ts).map fun r => (array r.1, r.2)
  | rounds + 1, .leftBrace :: ts => (takeMembers rounds ts).map fun r => (object r.1, r.2)
  | _, _ => none

/-- The items of an array, of which there is one at least. -/
def takeItems : Nat → List Token → Option (List JsonValue × List Token)
  | 0, _ => none
  | rounds + 1, ts => do
    let (v, ts) ← take rounds ts
    match ts with
    | .comma :: ts => do
      let (vs, ts) ← takeItems rounds ts
      return (v :: vs, ts)
    | .rightBracket :: ts => return ([v], ts)
    | _ => none

/-- The members of an object, of which there is one at least. -/
def takeMembers : Nat → List Token → Option (List (Option String × JsonValue) × List Token)
  | rounds + 1, .text name :: .colon :: ts => do
    let (v, ts) ← take rounds ts
    match ts with
    | .comma :: ts => do
      let (ms, ts) ← takeMembers rounds ts
      return ((name, v) :: ms, ts)
    | .rightBrace :: ts => return ([(name, v)], ts)
    | _ => none
  | _, _ => none

end

/-- The value that a text stands for. No token is looked at in more than two rounds. -/
def ofText? (s : String) : Option JsonValue := do
  let tokens ← tokens? s
  match ← take (2 * tokens.length + 1) tokens with
  | (v, []) => some v
  | _ => none

end JsonValue
end QueryEngine
