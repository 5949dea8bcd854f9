import QueryEngine.Count
import QueryEngine.Error

/-! The memory pool: how many bytes are in use, and the most there ever were.

A reservation is granted when it fits under the limit, and a refused one changes
nothing. A `Ledger` is a pool together with the reservations that are alive; what
is in use is the sum of their sizes. -/
namespace QueryEngine

structure Pool where
  limit : Nat
  used : Nat
  peak : Nat
  deriving DecidableEq

namespace Pool

def ofLimit (limit : Nat) : Pool := ⟨limit, 0, 0⟩

/-- A pool with the given limit, or with none but what can be counted. -/
def ofLimit? (limit : Option Nat) : Pool := ofLimit (limit.getD maxCount)

def available (p : Pool) : Nat := p.limit - p.used

def reserve (p : Pool) (bytes : Nat) : Except QueryError Pool :=
  if p.used + bytes ≤ p.limit then
    .ok { p with used := p.used + bytes, peak := max p.peak (p.used + bytes) }
  else
    .error (.resourceExhausted ⟨bytes, p.used, p.limit⟩)

def release (p : Pool) (bytes : Nat) : Pool := { p with used := p.used - bytes }

theorem release_reserve {p q : Pool} {bytes : Nat} (h : p.reserve bytes = .ok q) :
    (q.release bytes).used = p.used := by
  unfold reserve at h
  split at h
  · cases h; simp [release]
  · cases h

theorem reserve_limit {p q : Pool} {bytes : Nat} (h : p.reserve bytes = .ok q) : q.limit = p.limit := by
  unfold reserve at h
  split at h
  · cases h; rfl
  · cases h

theorem reserve_used {p q : Pool} {bytes : Nat} (h : p.reserve bytes = .ok q) : q.used = p.used + bytes := by
  unfold reserve at h
  split at h
  · cases h; rfl
  · cases h

/-- Only for want of bytes is a reservation refused. -/
theorem reserve_error {p : Pool} {bytes : Nat} {e : QueryError} (h : p.reserve bytes = .error e) :
    ∃ want, e = .resourceExhausted want := by
  unfold reserve at h
  split at h
  · cases h
  · cases h
    exact ⟨_, rfl⟩

end Pool

/-! ### Ledgers -/

structure Ledger where
  pool : Pool
  /-- The live reservations with their sizes, no name twice. -/
  held : List (String × Nat)

/-- What a holder of reservations does. -/
inductive LedgerStep where
  | allocate (name : String) (bytes : Nat)
  | reserve (name : String)
  | grow (name : String) (bytes : Nat)
  | resize (name : String) (bytes : Nat)
  | drop (name : String)

namespace Ledger

def ofLimit? (limit : Option Nat) : Ledger := ⟨Pool.ofLimit? limit, []⟩

def size? (l : Ledger) (name : String) : Option Nat := l.held.lookup name

/-- Gives a reservation back. -/
def drop (l : Ledger) (name : String) : Ledger :=
  { pool := l.pool.release ((l.size? name).getD 0)
    held := l.held.filter fun r => r.1 ≠ name }

/-- Gives a name a reservation that the pool has granted; the one that had the name
before is given back. -/
def hold (l : Ledger) (name : String) (bytes : Nat) : Ledger :=
  let l := l.drop name
  { l with held := (name, bytes) :: l.held }

def setSize (l : Ledger) (name : String) (bytes : Nat) : Ledger :=
  { l with held := l.held.map fun r => if r.1 = name then (name, bytes) else r }

/-- Grows a live reservation. -/
def grow (l : Ledger) (name : String) (size bytes : Nat) : Except QueryError Ledger := do
  let pool ← l.pool.reserve bytes
  return { l with pool := pool }.setSize name (size + bytes)

def shrink (l : Ledger) (name : String) (size bytes : Nat) : Ledger :=
  { l with pool := l.pool.release (size - bytes) }.setSize name bytes

/-- Carries out a step; growing or resizing needs a live reservation. -/
def apply (l : Ledger) : LedgerStep → Except QueryError Ledger
  | .allocate name bytes => do
    let pool ← l.pool.reserve bytes
    return { l with pool := pool }.hold name bytes
  | .reserve name => .ok (l.hold name 0)
  | .grow name bytes =>
    match l.size? name with
    | some size => l.grow name size bytes
    | none => .ok l
  | .resize name bytes =>
    match l.size? name with
    | some size => if size < bytes then l.grow name size (bytes - size) else .ok (l.shrink name size bytes)
    | none => .ok l
  | .drop name => .ok (l.drop name)

end Ledger
end QueryEngine
