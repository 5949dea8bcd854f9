import QueryEngine.Key.Basic

/-! Maps from keys, in the order in which the keys were first put.

Keys are kept in canonical form, so that a look-up finds what was put under any key
that compares the same. -/
namespace QueryEngine

structure KeyMap (α : Type) where
  entries : List (Key × α)

namespace KeyMap
variable {α : Type}

def empty : KeyMap α := ⟨[]⟩

def size (m : KeyMap α) : Nat := m.entries.length

/-- What was put, in the order of the keys. -/
def values (m : KeyMap α) : List α := m.entries.map Prod.snd

def get? (m : KeyMap α) (k : Key) : Option α := m.entries.lookup k.canonical

/-- Puts a value under a canonical key, in the key's place or at the end. -/
def putEntry (k : Key) (a : α) : List (Key × α) → List (Key × α)
  | [] => [(k, a)]
  | e :: es => if e.1 = k then (k, a) :: es else e :: putEntry k a es

def put (m : KeyMap α) (k : Key) (a : α) : KeyMap α := ⟨putEntry k.canonical a m.entries⟩

end KeyMap

namespace KeyMap

/-- Adds a row to the rows of a key. -/
def addRow (m : KeyMap (List Nat)) (k : Key) (row : Nat) : KeyMap (List Nat) :=
  m.put k ((m.get? k).getD [] ++ [row])

/-- Rows by the key of each, keys in the order they are first seen and the rows of a
key in their order. -/
def ofRows (columns : List Column) (rows : List Nat) : Except QueryError (KeyMap (List Nat)) :=
  rows.foldlM (fun m row => do return m.addRow (← Key.ofRow columns row) row) empty

end KeyMap
end QueryEngine
