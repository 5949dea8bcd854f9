import QueryEngine.Proofs.Chunk.Flat

/-! Chunks changed piece by piece.

Columns, count and selection of a chunk are changed apart from each other, so on the way a
chunk may say that it has rows which its columns do not have. Verifying tells when it does
not: what is verified can be read, whatever changes have made it (`verified_readable`). -/
namespace QueryEngine

namespace Chunk
variable {c d : Chunk}

/-! ### Changes -/

/-- What may be done to a chunk. -/
inductive Change where
  | prepare (types : List SqlType) (capacity : Nat)
  | reset
  | setArray (index : Nat) (a : HostArray)
  | referenceColumn (index : Nat) (other : Chunk) (source : Nat)
  | reference (other : Chunk)
  | setCount (count : Nat)
  | setCountFrom (other : Chunk)
  | select (s : Selection)
  | flatten

/-- Carries out a change. -/
def change (c : Chunk) : Change → Except Failure Chunk
  | .prepare types capacity => .ok (c.prepare types capacity)
  | .reset => .ok c.reset
  | .setArray index a => c.setArray index a
  | .referenceColumn index other source => c.referenceColumn index other source
  | .reference other => .ok (c.reference other)
  | .setCount count => .ok (c.setCount count)
  | .setCountFrom other => .ok (c.setCountFrom other)
  | .select s => .ok (c.select s)
  | .flatten => c.flatten

/-- The chunk after a change; one that fails has changed nothing. -/
def changed (c : Chunk) (ch : Change) : Chunk :=
  match c.change ch with
  | .ok d => d
  | .error _ => c

def run (c : Chunk) (changes : List Change) : Chunk := changes.foldl changed c

/-! ### Readers -/

/-- The positions of the active rows stand for the physical rows that are active. -/
theorem mapM_rowAt (hc : c.Sound) : (List.range c.count).mapM c.rowAt = .ok c.activeRows := by
  rw [mapM_eq_ok_iff, List.forall₂_iff_get]
  refine ⟨by rw [List.length_range, hc.length_activeRows], fun i hi hi' => ?_⟩
  obtain ⟨r, hr, hactive, -⟩ := rowAt_of_lt hc (by simpa using hi)
  rw [List.getElem?_eq_getElem hi'] at hactive
  simpa [← Option.some.inj hactive] using hr

theorem flatten_of_flat (h : c.selection = none) : c.flatten = .ok c := by
  obtain ⟨columns, selection, count, capacity⟩ := c
  cases h
  rfl

/-- The rows of a flattened chunk stand in the places of the active rows. -/
theorem row_flatten (hc : c.Sound) (h : c.flatten = .ok d) {i r : Nat} (hi : i < c.count) (hr : c.rowAt i = .ok r) :
    d.row i = c.row r := by
  have hflat := flattens_of_flatten hc h
  obtain ⟨r', hr', hactive, -⟩ := rowAt_of_lt hc hi
  cases hr'.symm.trans hr
  have hbefore : c.rows[i]? = some (c.row r) := by
    rw [rows, List.getElem?_map, hactive]
    rfl
  have hafter : d.rows[i]? = some (d.row i) := by
    rw [rows, activeRows, hflat.flat, Option.getD_none, hflat.count, List.getElem?_map, List.getElem?_range hi]
    rfl
  rw [hflat.rows, hbefore] at hafter
  exact (Option.some.inj hafter).symm

/-- Every reader of the chunk finds what it looks for. -/
structure Readable (c : Chunk) : Prop where
  rowAt : ∀ i < c.count, ∃ r, c.rowAt i = .ok r ∧ r < c.physicalRows
  active : (List.range c.count).mapM c.rowAt = .ok c.activeRows ∧ c.activeRows.length = c.count
  columns : ∀ column ∈ c.columns, ∀ r ∈ c.activeRows, r < column.size
  /-- Flattened once it is flat for good, and its rows are those that were active. -/
  flatten : ∃ d, c.flatten = .ok d ∧ d.types = c.types ∧ d.count = c.count ∧ d.selection = none ∧ d.verify = .ok () ∧
    (∀ i < c.count, ∀ r, c.rowAt i = .ok r → d.row i = c.row r) ∧ d.flatten = .ok d

/-- Whatever is done to a chunk, if it is then verified every reader can read it. -/
theorem verified_readable (c : Chunk) (changes : List Change) (h : (c.run changes).verify = .ok ()) :
    (c.run changes).Readable := by
  generalize c.run changes = c at h
  have hc := (verify_eq_ok_iff c).mp h
  obtain ⟨d, hd, hflat⟩ := flatten_ok hc
  refine ⟨fun i hi => ?_, ⟨mapM_rowAt hc, hc.length_activeRows⟩, fun column hcolumn r hr => ?_, d, hd, hflat.types, hflat.count,
    hflat.flat, (verify_eq_ok_iff d).mpr hflat.sound, fun i hi r hr => row_flatten hc hd hi hr, flatten_of_flat hflat.flat⟩
  · obtain ⟨r, hr, -, hlt⟩ := rowAt_of_lt hc hi
    exact ⟨r, hr, hlt⟩
  · rw [hc.even column hcolumn]
    exact hc.active_lt hr

/-- Columns put one by one, a refused one among them, then two rows of three selected. On the
way the second column is shorter than the first, and that is told. -/
theorem verified_readable_selected :
    let flags : Chunk := ⟨[.ofBooleans [some true, none, some false]], none, 3, 3⟩
    let filling : List Change := [.prepare [.bigInt, .boolean] 2, .setArray 0 (.column (.ofInts [5, 6, 7])), .setCount 3]
    let changes := filling ++ [.setArray 1 (.column (.ofInts [1])), .referenceColumn 1 flags 0, .select [2, 0]]
    let c := fresh.run changes
    (fresh.run filling).verify = .error (.internal (.columnLength 1 0 3)) ∧ c.verify = .ok () ∧ c.Readable ∧
      c.rowAt 0 = .ok 2 ∧ c.count = 2 :=
  ⟨rfl, rfl, verified_readable fresh _ rfl, rfl, rfl⟩

end Chunk
end QueryEngine
