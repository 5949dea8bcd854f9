import QueryEngine.Chunk.Basic
import QueryEngine.Memory.Pool

/-! Settings that all operators of a query share. -/
namespace QueryEngine

structure Config where
  /-- The most rows that an operator puts into a chunk of its own making. -/
  capacity : Nat
  /-- Bytes that may be buffered, all if absent. -/
  memoryLimit : Option Nat
  /-- Whether every chunk handed out is verified. -/
  verify : Bool
  deriving DecidableEq

namespace Config

def standard : Config := ⟨defaultCapacity, none, true⟩

/-- Another capacity; none is less than one row. -/
def withCapacity (c : Config) (capacity : Nat) : Config := { c with capacity := max capacity 1 }

def withMemoryLimit (c : Config) (limit : Nat) : Config := { c with memoryLimit := some limit }

def withVerify (c : Config) (verify : Bool) : Config := { c with verify := verify }

end Config
end QueryEngine
