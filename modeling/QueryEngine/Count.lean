/-! Counts of rows and of bytes. They have 64 bits. -/
namespace QueryEngine

/-- The largest count. -/
def maxCount : Nat := 0xffffffffffffffff

/-- The sum of some counts. -/
def total (counts : List Nat) : Nat := counts.foldr (· + ·) 0

@[simp] theorem total_nil : total [] = 0 := rfl

@[simp] theorem total_cons (n : Nat) (ns : List Nat) : total (n :: ns) = n + total ns := rfl

theorem total_append (ns more : List Nat) : total (ns ++ more) = total ns + total more := by
  induction ns with
  | nil => exact (Nat.zero_add _).symm
  | cons n ns ih => rw [List.cons_append, total_cons, ih, total_cons, Nat.add_assoc]

end QueryEngine
