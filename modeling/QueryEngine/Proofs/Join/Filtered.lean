import QueryEngine.Proofs.Join.Equation
import QueryEngine.Proofs.Join.Hash
import QueryEngine.Proofs.Pull.Deals

/-! An inner join and a filtered cross product.

Both hold every left row against every right row. The join looks keys up, which takes
the two zeros for one key and all NaNs for one; the filter evaluates the equations of
the keys, which tell them apart. Where the keys of the rows are distinct, both hand out
the same rows, each as often as the other. -/
namespace QueryEngine

/-- What an operator gives are rows of its types. -/
theorem Gives.typed {T : Terms} {op₁ op₂ : Operator} {rows : List Row} {cells : List Cell}
    (h : Gives T op₁ op₂ rows cells) : Gives T op₁ op₂ (rows.filter fun row => Typed op₁.types row) cells := by
  obtain ⟨J, hJ, hrows⟩ := h
  refine ⟨fun rows cells => ∃ all, J all cells ∧ rows = all.filter fun row => Typed op₁.types row,
    ⟨hJ.alike, fun f rows ⟨all, hall, hrows⟩ hs => ?_⟩, rows, hrows, rfl⟩
  refine (hJ.step f all hall hs).mono fun _ g hg => ?_
  obtain ⟨rest, hrest, htold⟩ := hg.left
  refine ⟨hg.handed, hg.sees, hg.finished, _, ⟨rest, hrest, rfl⟩, fun ht => ?_⟩
  obtain ⟨hall, hend⟩ := htold ht
  have hout : g.out.rows.filter (fun row => Typed op₁.types row) = g.out.rows := by
    refine List.filter_eq_self.mpr fun row hrow => decide_eq_true ?_
    rw [← hg.handed.typed]
    exact Chunk.typed_of_mem_rows hrow
  refine ⟨by rw [hrows, hall, List.filter_append, hout], fun he => ?_⟩
  rw [hend he]
  rfl

theorem mem_typed {types : List SqlType} {rows : List Row} {row : Row}
    (h : row ∈ rows.filter fun row => Typed types row) : Typed types row := of_decide_eq_true (List.mem_filter.mp h).2

namespace Plan
variable {left right : List SqlType} {on keys : List (Expr × Expr)} {leftRows rightRows : List Row}

/-- On distinct keys the nested loop of an inner join keeps the pairs of which all
equations are TRUE. -/
theorem nestedLoop_inner (hkeys : on.mapM (joinPair left right) = .ok keys)
    (hdistinct : (castKeys left right on).Distinct leftRows rightRows) (hleft : ∀ l ∈ leftRows, Typed left l)
    (hright : ∀ r ∈ rightRows, Typed right r) :
    (castKeys left right on).nestedLoop .inner right leftRows rightRows =
      (Operator.pairs leftRows rightRows).filter fun row => (on.map (equation left.length)).all (Expr.holdsOn row) := by
  rw [JoinKeys.nestedLoop, Operator.pairs, List.filter_flatMap]
  refine List.flatMap_congr fun l hl => ?_
  rw [JoinKeys.joinRow, JoinKeys.partners, List.filter_map]
  congr 1
  exact List.filter_congr fun r hr => (all_holdsOn_equation hkeys hdistinct hleft hright hl hr).symm

end Plan

namespace Operator

end Operator
end QueryEngine
