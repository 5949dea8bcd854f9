import QueryEngine.Double.Text
import QueryEngine.Value.SqlType

/-! Single values.

`compare` orders the values of one type, NULL before all of them, and identifies
the two zeros and all NaNs; two values are the same key when their canonical
forms are equal. `compareTotal` is the order of comparisons and sorting, which
tells the zeros and the NaNs apart. -/
namespace QueryEngine

inductive Scalar where
  | null
  | boolean (value : Bool)
  | tinyInt (value : Int8)
  | smallInt (value : Int16)
  | integer (value : Int32)
  | bigInt (value : Int64)
  | double (value : Double)
  | varchar (value : String)
  /-- Days since 1970-01-01. -/
  | date (days : Int32)
  deriving DecidableEq

namespace Scalar

instance : Inhabited Scalar := ⟨null⟩

def type : Scalar → SqlType
  | null => .sqlNull
  | boolean _ => .boolean
  | tinyInt _ => .tinyInt
  | smallInt _ => .smallInt
  | integer _ => .integer
  | bigInt _ => .bigInt
  | double _ => .double
  | varchar _ => .varchar
  | date _ => .date

def isNull : Scalar → Bool
  | null => true
  | _ => false

/-- An integer of any width. -/
def toInt64? : Scalar → Option Int64
  | tinyInt v => some v.toInt64
  | smallInt v => some v.toInt64
  | integer v => some v.toInt64
  | bigInt v => some v
  | _ => none

/-- Any number, rounded to the nearest double. -/
def toDouble? : Scalar → Option Double
  | double v => some v
  | v => v.toInt64?.map Double.ofInt64

def toText : Scalar → String
  | null => "NULL"
  | boolean v => if v then "true" else "false"
  | tinyInt v => toString v.toInt
  | smallInt v => toString v.toInt
  | integer v => toString v.toInt
  | bigInt v => toString v.toInt
  | double v => v.toPlain
  | varchar v => "'" ++ v ++ "'"
  | date v => "DATE(" ++ toString v.toInt ++ ")"

/-! ### Order -/

/-- Where values stand among those of all types: by type, then by number, then by
text. Texts are ordered by code point, which is the order of their bytes. -/
structure Position where
  type : Nat
  number : Int
  text : String
  deriving DecidableEq

namespace Position

def compare (a b : Position) : Ordering :=
  (Ord.compare a.type b.type).then ((Ord.compare a.number b.number).then (Ord.compare a.text b.text))

end Position

/-- The position of a value, doubles placed by `rank`. -/
def position (rank : Double → Int) : Scalar → Position
  | null => ⟨0, 0, ""⟩
  | boolean v => ⟨1, if v then 1 else 0, ""⟩
  | tinyInt v => ⟨2, v.toInt, ""⟩
  | smallInt v => ⟨3, v.toInt, ""⟩
  | integer v => ⟨4, v.toInt, ""⟩
  | bigInt v => ⟨5, v.toInt, ""⟩
  | double v => ⟨6, rank v, ""⟩
  | varchar v => ⟨7, 0, v⟩
  | date v => ⟨8, v.toInt, ""⟩

def compare (a b : Scalar) : Ordering :=
  (a.position fun d => d.canonical.rank).compare (b.position fun d => d.canonical.rank)

def compareTotal (a b : Scalar) : Ordering := (a.position Double.rank).compare (b.position Double.rank)

/-! ### Keys -/

/-- The representative of the values that grouping and joining identify. -/
def canonical : Scalar → Scalar
  | double v => double v.canonical
  | v => v

/-- Whether grouping and joining identify two values. -/
def same (a b : Scalar) : Bool := a.canonical = b.canonical

theorem canonical_idem (v : Scalar) : v.canonical.canonical = v.canonical := by
  cases v <;> simp [canonical, Double.canonical_idem]

theorem type_canonical (v : Scalar) : v.canonical.type = v.type := by cases v <;> rfl

theorem isNull_canonical (v : Scalar) : v.canonical.isNull = v.isNull := by cases v <;> rfl

/-! ### Fitting a type -/

/-- Whether a value may stand in a column of type `t`. -/
def Fits (v : Scalar) (t : SqlType) : Prop := v = null ∨ v.type = t

instance (v : Scalar) (t : SqlType) : Decidable (v.Fits t) := inferInstanceAs (Decidable (_ ∨ _))

theorem null_fits (t : SqlType) : null.Fits t := .inl rfl

theorem fits_type (v : Scalar) : v.Fits v.type := .inr rfl

theorem fits_sqlNull_iff (v : Scalar) : v.Fits .sqlNull ↔ v = null := by
  constructor
  · rintro (h | h)
    · exact h
    · cases v <;> simp_all [type]
  · exact .inl

end Scalar

/-- A value of type `t`, or NULL. -/
def Slot (t : SqlType) := { v : Scalar // v.Fits t }

namespace Slot

def null (t : SqlType) : Slot t := ⟨.null, .inl rfl⟩

end Slot
end QueryEngine
