import QueryEngine.Chunk.Filling
import QueryEngine.Proofs.Chunk.Rows
import QueryEngine.Proofs.Yields

/-! Chunks filled column by column.

A column is put only in the place of one of its type, so filling never changes the
types of a chunk. What ends well is one pass over all the columns that were put
(`putAll_append`, `putComputed_ok`), and from a blank chunk it ends with just these
columns (`putAll_blank`). -/
namespace QueryEngine

namespace Chunk

theorem setColumn_ok {c d : Chunk} {i : Nat} {new : Column} (h : c.setColumn i new = .ok d) :
    ∃ old, c.columns[i]? = some old ∧ new.type = old.type ∧ d = { c with columns := c.columns.set i new } := by
  unfold setColumn setArray at h
  cases ho : c.columns[i]? with
  | none => simp [ho] at h
  | some old =>
    rw [ho] at h
    by_cases ht : new.type = old.type
    · simp only [ht, if_true, Except.ok.injEq] at h
      exact ⟨old, rfl, ht, h.symm⟩
    · simp only [ht, if_false] at h
      cases h

end Chunk

namespace Filling

theorem put_ok {c d : Chunk} {i : Nat} {new : Column} (h : put i new c = .ok () d) :
    ∃ old, c.columns[i]? = some old ∧ new.type = old.type ∧ d = { c with columns := c.columns.set i new } := by
  have h' : ((liftM (c.setColumn i new) : Filling Chunk) >>= set) c = .ok () d := h
  obtain ⟨d', s, hset, hd⟩ := run_bind_eq_ok.mp h'
  obtain ⟨hset, rfl⟩ := run_liftQuery_eq_ok.mp hset
  cases hd
  exact Chunk.setColumn_ok hset

theorem put_eq_putAll (i : Nat) (c : Column) : put i c = putAll i [c] := by
  funext chunk
  show put i c chunk = (put i c >>= fun _ => pure ()) chunk
  rw [run_bind]
  cases put i c chunk <;> rfl

theorem putAll_append (i : Nat) (cs ds : List Column) :
    putAll i (cs ++ ds) = putAll i cs >>= fun _ => putAll (i + cs.length) ds := by
  induction cs generalizing i with
  | nil => rfl
  | cons c cs ih =>
    rw [List.cons_append, putAll, putAll, ih, List.length_cons, show i + (cs.length + 1) = i + 1 + cs.length by omega,
      bind_assoc]

theorem putAll_beside {c d e : Chunk} {cs ds : List Column} (h : putAll 0 cs c = .ok () d)
    (h' : putAll cs.length ds d = .ok () e) : putAll 0 (cs ++ ds) c = .ok () e := by
  rw [putAll_append, Nat.zero_add, run_bind, h]
  exact h'

/-- The columns stand where they were put, between those that were there before. -/
theorem putAll_ok {c d : Chunk} {i : Nat} {cs : List Column} (h : putAll i cs c = .ok () d) :
    d = { c with columns := c.columns.take i ++ cs ++ c.columns.drop (i + cs.length) } ∧
      cs.map Column.type = (c.types.drop i).take cs.length := by
  induction cs generalizing i c with
  | nil =>
    cases h
    simp
  | cons new cs ih =>
    rw [putAll] at h
    obtain ⟨_, c', hput, h⟩ := run_bind_eq_ok.mp h
    obtain ⟨old, hold, ht, rfl⟩ := put_ok hput
    obtain ⟨hd, hts⟩ := ih h
    obtain ⟨hi, hget⟩ := List.getElem?_eq_some_iff.mp hold
    have hlen : i + (new :: cs).length = i + 1 + cs.length := by
      rw [List.length_cons]
      omega
    constructor
    · rw [hd]
      simp only [Chunk.mk.injEq, and_true]
      rw [List.take_set, List.drop_set_of_lt (by omega), List.take_add_one, hold, hlen]
      rw [List.set_append_right _ _ (by rw [List.length_take]; omega)]
      simp [Nat.min_eq_left (Nat.le_of_lt hi)]
    · have hdrop : c.types.drop i = old.type :: c.types.drop (i + 1) := by
        rw [Chunk.types, List.drop_eq_getElem_cons (by simpa using hi)]
        simp [hget]
      have hsame : (Chunk.types { c with columns := c.columns.set i new }).drop (i + 1) = c.types.drop (i + 1) := by
        rw [Chunk.types, Chunk.types, List.map_set, List.drop_set_of_lt (by omega)]
      rw [List.map_cons, hts, hsame, hdrop, List.length_cons, List.take_succ_cons, ht]

theorem putComputed_ok {c d : Chunk} {i : Nat} {rs : List (Except Failure Column)}
    (h : putComputed i rs c = .ok () d) : ∃ cs, rs = cs.map Except.ok ∧ putAll i cs c = .ok () d := by
  induction rs generalizing i c with
  | nil => exact ⟨[], rfl, h⟩
  | cons r rs ih =>
    rw [putComputed] at h
    obtain ⟨column, s, hr, hrest⟩ := run_bind_eq_ok.mp h
    obtain ⟨rfl, rfl⟩ := run_lift_eq_ok.mp hr
    obtain ⟨_, c', hput, hrest⟩ := run_bind_eq_ok.mp hrest
    obtain ⟨cs, rfl, hcs⟩ := ih hrest
    refine ⟨column :: cs, rfl, ?_⟩
    rw [putAll, run_bind, hput]
    exact hcs

/-- A blank chunk with as many columns put as it has. -/
theorem putAll_blank {types : List SqlType} {capacity : Nat} {d : Chunk} {cs : List Column}
    (hlen : cs.length = types.length) (h : putAll 0 cs (Chunk.blank types capacity) = .ok () d) :
    d = ⟨cs, none, 0, max capacity 1⟩ ∧ cs.map Column.type = types := by
  obtain ⟨hd, hts⟩ := putAll_ok h
  constructor
  · rw [hd, List.take_zero, List.nil_append, List.drop_of_length_le (by simp [hlen]), List.append_nil]
    rfl
  · rw [hts, Chunk.types_blank, List.drop_zero, hlen, List.take_length]

/-! Columns of the types that a chunk has there are put in place. -/

/-- Columns of the same types, and as much room. -/
structure Like (c d : Chunk) : Prop where
  types : d.types = c.types
  capacity : d.capacity = c.capacity

/-- A column of the type in its place is put there. -/
theorem put_eq_ok {c : Chunk} {i : Nat} {new : Column} (h : c.types[i]? = some new.type) :
    ∃ d, put i new c = .ok () d ∧ Like c d := by
  have hsame : c.types.set i new.type = c.types := by
    obtain ⟨hi, htype⟩ := List.getElem?_eq_some_iff.mp h
    rw [← htype, List.set_getElem_self]
  rw [Chunk.types, List.getElem?_map] at h
  obtain ⟨old, hold, ht⟩ := Option.map_eq_some_iff.mp h
  have hset : c.setColumn i new = .ok { c with columns := c.columns.set i new } := by
    unfold Chunk.setColumn Chunk.setArray
    simp only [hold, ht, if_true]
  refine ⟨{ c with columns := c.columns.set i new }, ?_, List.map_set.trans hsame, rfl⟩
  show ((liftM (c.setColumn i new) : Filling Chunk) >>= set) c = _
  rw [hset]
  rfl

theorem put_of_type {c : Chunk} {i : Nat} {new : Column} (h : c.types[i]? = some new.type) :
    Ends (put i new) c fun _ d => Like c d := by
  obtain ⟨d, hput, hd⟩ := put_eq_ok h
  exact .of_ok hput hd

/-- Columns of the types that a chunk has from a place on can be put there. -/
theorem putAll_of_types {c : Chunk} {i : Nat} {cs : List Column} (h : cs.map Column.type <+: c.types.drop i) :
    ∃ d, putAll i cs c = .ok () d ∧ Like c d := by
  induction cs generalizing i c with
  | nil => exact ⟨c, rfl, rfl, rfl⟩
  | cons new cs ih =>
    obtain ⟨rest, hrest⟩ := h
    have hhead : c.types[i]? = some new.type := by
      rw [← List.head?_drop, ← hrest]
      rfl
    obtain ⟨d, hd, hlike⟩ := put_eq_ok hhead
    have htail : cs.map Column.type <+: d.types.drop (i + 1) :=
      ⟨rest, by rw [hlike.types, ← List.drop_drop, ← hrest]; rfl⟩
    obtain ⟨e, he, hlike'⟩ := ih htail
    refine ⟨e, ?_, hlike'.types.trans hlike.types, hlike'.capacity.trans hlike.capacity⟩
    rw [putAll, run_bind, hd]
    exact he

/-- Columns are computed, of the types that are told, or fail on data. -/
def Computes (rs : List (Except Failure Column)) (ts : List SqlType) : Prop :=
  List.Forall₂ (fun r t => Yields Failure.OfData r fun column => column.type = t) rs ts

/-- Columns are computed of others, each of the type of its own. -/
theorem Computes.of_columns {f : Column → Except Failure Column} {cs : List Column}
    (h : ∀ c ∈ cs, Yields Failure.OfData (f c) fun d => d.type = c.type) :
    Computes (cs.map f) (cs.map Column.type) := by
  rw [Computes, List.forall₂_map_left_iff, List.forall₂_map_right_iff, List.forall₂_same]
  exact h

theorem putComputed_ends {c : Chunk} {i : Nat} {rs : List (Except Failure Column)} {ts : List SqlType}
    (hrs : Computes rs ts) (hts : ts <+: c.types.drop i) : Ends (putComputed i rs) c fun _ d => Like c d := by
  induction hrs generalizing i c with
  | nil => exact .pure ⟨rfl, rfl⟩
  | @cons r t rs ts hr _ ih =>
    rw [putComputed]
    obtain ⟨rest, hrest⟩ := hts
    have hhead : c.types[i]? = some t := by
      rw [← List.head?_drop, ← hrest]
      rfl
    have htail : ts <+: c.types.drop (i + 1) := ⟨rest, by rw [← List.drop_drop, ← hrest]; rfl⟩
    refine .lift_bind hr fun column ht => (put_of_type (ht ▸ hhead)).bind fun _ d hd => ?_
    exact (ih (hd.types ▸ htail)).mono fun _ e he => ⟨he.types.trans hd.types, he.capacity.trans hd.capacity⟩

theorem putAll_eq_putComputed (i : Nat) (cs : List Column) : putAll i cs = putComputed i (cs.map Except.ok) := by
  induction cs generalizing i with
  | nil => rfl
  | cons c cs ih =>
    rw [putAll, List.map_cons, putComputed, ih]
    rfl

theorem putAll_ends {c : Chunk} {i : Nat} {cs : List Column} (h : cs.map Column.type <+: c.types.drop i) :
    Ends (putAll i cs) c fun _ d => Like c d := by
  obtain ⟨d, hput, hd⟩ := putAll_of_types h
  exact .of_ok hput hd

/-- All columns of a chunk are put, those of others in their place. -/
theorem putComputed_whole {c : Chunk} {rs : List (Except Failure Column)} (h : Computes rs c.types) :
    Ends (putComputed 0 rs) c fun _ d => Like c d :=
  putComputed_ends h (List.prefix_refl _)

theorem putAll_whole {c : Chunk} {cs : List Column} (h : cs.map Column.type = c.types) :
    Ends (putAll 0 cs) c fun _ d => Like c d :=
  putAll_ends (h ▸ List.prefix_refl _)

end Filling

/-! ### A chunk made of another -/

namespace Chunk

/-- A chunk with some of the rows of another. -/
structure Narrowed (keep : Row → Bool) (c d : Chunk) : Prop where
  sound : d.Sound
  typed : d.types = c.types
  capacity : d.capacity = c.capacity
  rows : d.rows = c.rows.filter keep
  active : d.activeRows.Sublist c.activeRows

/-- A chunk whose rows are those of another, each changed by itself. -/
structure Mapped (types : List SqlType) (f : Row → Row) (c d : Chunk) : Prop where
  sound : d.Sound
  typed : d.types = types
  rows : d.rows = c.rows.map f
  active : d.activeRows = c.activeRows
  count : d.count = c.count

/-- Columns under the selection of a chunk that they are as long as. -/
theorem mapped_setCountFrom {types : List SqlType} {f : Row → Row} {c : Chunk} {cs : List Column} (capacity : Nat)
    (hc : c.Sound) (ht : cs.map Column.type = types) (hs : ∀ column ∈ cs, column.size = c.physicalRows)
    (hrow : ∀ r ∈ c.activeRows, (cs.map fun column => column.datum r) = f (c.row r)) :
    Mapped types f c (setCountFrom ⟨cs, none, 0, max capacity 1⟩ c) := by
  refine ⟨hc.setCountFrom hs, ht, ?_, rfl, rfl⟩
  rw [rows, activeRows_setCountFrom, rows, List.map_map]
  exact List.map_congr_left hrow

end Chunk
end QueryEngine
