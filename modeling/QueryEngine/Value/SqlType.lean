/-! The types of values, and how columns of them are stored.

Every SQL type has exactly one storage type. A host may hand in arrays of other
storage types; those are foreign, and no column of a plan ever has one. -/
namespace QueryEngine

inductive SqlType where
  | sqlNull
  | boolean
  | tinyInt
  | smallInt
  | integer
  | bigInt
  | double
  | varchar
  | date
  deriving DecidableEq

/-- Storage types that no SQL type has. -/
inductive ForeignType where
  | uint8
  | uint32
  | float32
  | largeUtf8
  deriving DecidableEq

inductive StorageType where
  | ofSql (type : SqlType)
  | ofForeign (type : ForeignType)
  deriving DecidableEq

namespace SqlType

def storage (t : SqlType) : StorageType := .ofSql t

def isIntegral : SqlType → Bool
  | tinyInt | smallInt | integer | bigInt => true
  | _ => false

def isNumeric (t : SqlType) : Bool := t.isIntegral || t = double

/-- The type's name in SQL. -/
def toSql : SqlType → String
  | sqlNull => "NULL"
  | boolean => "BOOLEAN"
  | tinyInt => "TINYINT"
  | smallInt => "SMALLINT"
  | integer => "INTEGER"
  | bigInt => "BIGINT"
  | double => "DOUBLE"
  | varchar => "VARCHAR"
  | date => "DATE"

/-- The type's name in lists of column types. -/
def label : SqlType → String
  | sqlNull => "SqlNull"
  | boolean => "Boolean"
  | tinyInt => "TinyInt"
  | smallInt => "SmallInt"
  | integer => "Integer"
  | bigInt => "BigInt"
  | double => "Double"
  | varchar => "Varchar"
  | date => "Date"

/-- A list of column types as messages show it. -/
def labels (types : List SqlType) : String := "[" ++ String.intercalate ", " (types.map label) ++ "]"

/-- Width of a number; DOUBLE is wider than every integer. -/
def width? : SqlType → Option Nat
  | tinyInt => some 0
  | smallInt => some 1
  | integer => some 2
  | bigInt => some 3
  | double => some 4
  | _ => none

/-- The type that both operands of a comparison or of arithmetic are brought to:
NULL gives way to any type and a number to a wider one. -/
def common? (l r : SqlType) : Option SqlType :=
  if l = r then some l
  else if l = sqlNull then some r
  else if r = sqlNull then some l
  else do
    let lw ← l.width?
    let rw ← r.width?
    some (if rw ≤ lw then l else r)

theorem common?_self (t : SqlType) : common? t t = some t := by simp [common?]

theorem common?_null_left (t : SqlType) : common? sqlNull t = some t := by cases t <;> rfl

theorem common?_null_right (t : SqlType) : common? t sqlNull = some t := by cases t <;> rfl

end SqlType

namespace StorageType

def sqlType? : StorageType → Option SqlType
  | ofSql t => some t
  | ofForeign _ => none

def name : StorageType → String
  | ofSql .sqlNull => "Null"
  | ofSql .boolean => "Boolean"
  | ofSql .tinyInt => "Int8"
  | ofSql .smallInt => "Int16"
  | ofSql .integer => "Int32"
  | ofSql .bigInt => "Int64"
  | ofSql .double => "Float64"
  | ofSql .varchar => "Utf8"
  | ofSql .date => "Date32"
  | ofForeign .uint8 => "UInt8"
  | ofForeign .uint32 => "UInt32"
  | ofForeign .float32 => "Float32"
  | ofForeign .largeUtf8 => "LargeUtf8"

end StorageType

theorem SqlType.sqlType?_storage (t : SqlType) : t.storage.sqlType? = some t := rfl

end QueryEngine
