import QueryEngine.Config.Basic
import QueryEngine.Json.Value

/-! Settings as JSON.

An object names settings, an array lists them in order; what is missing keeps its
standard value. Other members of an object are passed over, but no setting may be
named twice and no member's name may be broken. -/
namespace QueryEngine.Config

/-- The settings that a text has given. -/
structure Given where
  capacity : Option Nat
  limit : Option (Option Nat)
  verify : Option Bool

def Given.config (g : Given) : Config :=
  let c : Config := ⟨g.capacity.getD standard.capacity, g.limit.getD standard.memoryLimit, g.verify.getD standard.verify⟩
  c.withCapacity c.capacity

/-- A number without sign, fraction and exponent that 64 bits can hold. -/
def count? : JsonValue → Option Nat
  | .number (some n) => if n ≤ maxCount then some n else none
  | _ => none

def limit? : JsonValue → Option (Option Nat)
  | .null => some none
  | v => (count? v).map some

def flag? : JsonValue → Option Bool
  | .boolean b => some b
  | _ => none

def ofItems? : List JsonValue → Option Given
  | [] => some ⟨none, none, none⟩
  | [c] => do return ⟨← count? c, none, none⟩
  | [c, l] => do return ⟨← count? c, some (← limit? l), none⟩
  | [c, l, v] => do return ⟨← count? c, some (← limit? l), ← flag? v⟩
  | _ => none

/-- Takes one more member of an object. -/
def member? (g : Given) : Option String × JsonValue → Option Given
  | (none, _) => none
  | (some name, v) =>
    match name with
    | "chunk_capacity" => if g.capacity.isSome then none else do return { g with capacity := ← count? v }
    | "memory_limit" => if g.limit.isSome then none else do return { g with limit := some (← limit? v) }
    | "verify_chunks" => if g.verify.isSome then none else do return { g with verify := ← flag? v }
    | _ => some g

def ofJson? : JsonValue → Option Config
  | .array items => (ofItems? items).map Given.config
  | .object members => (members.foldlM member? ⟨none, none, none⟩).map Given.config
  | _ => none

def ofText (s : String) : Except QueryError Config :=
  match (JsonValue.ofText? s).bind ofJson? with
  | some c => .ok c
  | none => .error .config

def limitText : Option Nat → String
  | some n => toString n
  | none => "null"

def flagText (b : Bool) : String := if b then "true" else "false"

def toText (c : Config) : String :=
  "\x7b\n  \"chunk_capacity\": " ++ toString c.capacity ++ ",\n  \"memory_limit\": " ++ limitText c.memoryLimit ++
    ",\n  \"verify_chunks\": " ++ flagText c.verify ++ "\n\x7d"

end QueryEngine.Config
