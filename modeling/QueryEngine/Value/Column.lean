import QueryEngine.Count
import QueryEngine.Error

/-! Columns: slots of one type.

That every slot is NULL or of the column's type is part of a column. Reading a
slot in range always succeeds (`get_eq_ok`), and `ofScalars` takes exactly what
fits. Rows are addressed by position; an operation given a row outside the column
crashes, except on a column of type NULL, which has a slot wherever one looks.

A host hands in arrays that may be of a foreign storage type. Of those only the
type and which slots are filled is known. -/
namespace QueryEngine

structure Column where
  type : SqlType
  slots : List Scalar
  typed : ∀ v ∈ slots, v.Fits type
  deriving DecidableEq

namespace Column

def size (c : Column) : Nat := c.slots.length

def empty (t : SqlType) : Column := ⟨t, [], by simp⟩

def ofSlots (t : SqlType) (slots : List (Slot t)) : Column :=
  ⟨t, slots.map Subtype.val, by
    intro v hv
    obtain ⟨s, _, rfl⟩ := List.mem_map.mp hv
    exact s.property⟩

/-- `n` times the same value. -/
def fill {t : SqlType} (n : Nat) (v : Slot t) : Column := ofSlots t (List.replicate n v)

def nulls (t : SqlType) (n : Nat) : Column := fill n (Slot.null t)

def ofBooleans (slots : List (Option Bool)) : Column :=
  ofSlots .boolean (slots.map fun
    | some b => ⟨.boolean b, .inr rfl⟩
    | none => Slot.null .boolean)

def ofInts (slots : List Int64) : Column := ofSlots .bigInt (slots.map fun i => ⟨.bigInt i, .inr rfl⟩)

/-- A column of type `t`. NULLs and values of `t` are taken; a column of type NULL
keeps nothing of its values but their number. -/
def ofScalars (t : SqlType) (vs : List Scalar) : Except QueryError Column :=
  if t = .sqlNull then .ok (nulls .sqlNull vs.length)
  else if h : ∀ v ∈ vs, v.Fits t then .ok ⟨t, vs, h⟩
  else .error (.internal (.valueType ((vs.find? fun v => !decide (v.Fits t)).getD .null) t))

def get (c : Column) (row : Nat) : Except QueryError Scalar :=
  match c.slots[row]? with
  | some v => .ok v
  | none => .error (.internal (.rowOfArray row c.size))

theorem get_eq_ok (c : Column) (row : Nat) (h : row < c.size) : c.get row = .ok c.slots[row] := by
  simp [get, List.getElem?_eq_getElem h]

/-! ### Rearranging slots -/

/-- Whether the rows all have a slot. -/
def covers (c : Column) (rows : List Nat) : Bool := c.type = .sqlNull || rows.all (· < c.size)

theorem getD_fits (c : Column) (row : Nat) : (c.slots.toArray.getD row .null).Fits c.type := by
  unfold Array.getD
  split
  · exact c.typed _ (by simp)
  · exact Scalar.null_fits _

/-- The slots of `rows`, in their order. -/
def gather (c : Column) (rows : List Nat) : Except Failure Column :=
  if c.covers rows then
    let slots := c.slots.toArray
    .ok ⟨c.type, rows.map fun r => slots.getD r .null, by
      intro v hv
      obtain ⟨r, _, rfl⟩ := List.mem_map.mp hv
      exact c.getD_fits r⟩
  else
    .error .crash

/-- The slots of `rows`, with NULL where there is no row. -/
def gatherPadded (c : Column) (rows : List (Option Nat)) : Except Failure Column :=
  if c.covers (rows.filterMap id) then
    let slots := c.slots.toArray
    .ok ⟨c.type, rows.map fun r => r.elim .null fun r => slots.getD r .null, by
      intro v hv
      obtain ⟨r, _, rfl⟩ := List.mem_map.mp hv
      cases r with
      | none => exact Scalar.null_fits _
      | some r => exact c.getD_fits r⟩
  else
    .error .crash

/-- At most `len` slots, from `offset` on. -/
def window (c : Column) (offset len : Nat) : Column :=
  ⟨c.type, (c.slots.drop offset).take len,
    fun v hv => c.typed v (List.mem_of_mem_drop (List.mem_of_mem_take hv))⟩

/-- The `len` slots from `offset` on. -/
def slice (c : Column) (offset len : Nat) : Except Failure Column :=
  if offset + len ≤ c.size then .ok (c.window offset len) else .error .crash

/-- For each of `n` rows whether it is among `rows`. -/
def marks (n : Nat) (rows : List Nat) : List Bool :=
  (rows.foldl (fun marked r => marked.setIfInBounds r true) (Array.replicate n false)).toList

/-- Puts NULL into every slot that is not among `rows`. -/
def keepOnly (c : Column) (rows : List Nat) : Except Failure Column :=
  if rows.all (· < c.size) then
    .ok ⟨c.type, (c.slots.zip (marks c.size rows)).map fun s => if s.2 then s.1 else .null, by
      intro v hv
      obtain ⟨s, hs, rfl⟩ := List.mem_map.mp hv
      split
      · exact c.typed _ (List.of_mem_zip hs).1
      · exact Scalar.null_fits _⟩
  else
    .error .crash

/-- The slots of columns of one type, one column after the other. -/
def concat (t : SqlType) (cs : List Column) : Except Failure Column :=
  if h : ∀ c ∈ cs, c.type = t then
    .ok ⟨t, cs.flatMap Column.slots, by
      intro v hv
      obtain ⟨c, hc, hv⟩ := List.mem_flatMap.mp hv
      exact h c hc ▸ c.typed v hv⟩
  else
    .error (.error (.kernel .concatenation))

/-! ### Size in memory -/

def slotBytes : SqlType → Nat
  | .sqlNull | .boolean => 1
  | .tinyInt => 1
  | .smallInt => 2
  | .integer | .date | .varchar => 4
  | .bigInt | .double => 8

def textBytes : Scalar → Nat
  | .varchar s => s.utf8ByteSize
  | _ => 0

/-- The bytes a column is accounted for when it is buffered. -/
def bytes (c : Column) : Nat := 96 + slotBytes c.type * c.size + total (c.slots.map textBytes)

end Column

/-! ### Arrays from outside -/

inductive HostArray where
  | column (column : Column)
  | foreign (type : ForeignType) (filled : List Bool)
  deriving DecidableEq

namespace HostArray

instance : Coe Column HostArray := ⟨column⟩

def storage : HostArray → StorageType
  | column c => c.type.storage
  | foreign t _ => .ofForeign t

def size : HostArray → Nat
  | column c => c.size
  | foreign _ filled => filled.length

/-- Whether a row is marked as NULL. A column of type NULL has no marks. -/
def isMarkedNull (a : HostArray) (row : Nat) : Bool :=
  match a with
  | column c => c.type ≠ .sqlNull && c.slots[row]? = some .null
  | foreign _ filled => filled[row]? = some false

def get (a : HostArray) (row : Nat) : Except QueryError Scalar :=
  match a with
  | column c => c.get row
  | foreign t filled =>
    match filled[row]? with
    | none => .error (.internal (.rowOfArray row filled.length))
    | some false => .ok .null
    | some true => .error (.notImplemented (.array (.ofForeign t)))

def toColumn (a : HostArray) (unsupported : StorageType → QueryError) : Except QueryError Column :=
  match a with
  | column c => .ok c
  | foreign t _ => .error (unsupported (.ofForeign t))

private def filledSlots : HostArray → List Bool
  | column c => c.slots.map fun v => !v.isNull
  | foreign _ filled => filled

/-- Arrays of one storage type, one after the other; `first` gives the type. -/
def concat (first : HostArray) (rest : List HostArray) : Except Failure HostArray :=
  match first with
  | column c => do
    let cs ← rest.mapM fun (a : HostArray) => a.toColumn fun _ => .kernel .concatenation
    return column (← Column.concat c.type (c :: cs))
  | foreign t filled =>
    if rest.all fun a => a.storage = .ofForeign t then
      .ok (foreign t (filled ++ rest.flatMap filledSlots))
    else
      .error (.error (.kernel .concatenation))

end HostArray
end QueryEngine
