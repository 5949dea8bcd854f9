import QueryEngine.Proofs.Chunk.Filled
import QueryEngine.Proofs.Pull.Gives
import QueryEngine.Pull.Delete

/-! What a deletion gives: one row, once.

Which rows are deleted is not told. What is known of the masks has to hold whatever is
deleted. -/
namespace QueryEngine.Operator
variable {T : Terms} {in₁ in₂ : Operator} {given rows : List Row} {f : Frame}

theorem agree_deleteChunks (table : Provider) (rounds deleted : Nat) (hfree : ∀ masks, T.sees masks)
    (h : Gives T in₁ in₂ given f.below) :
    Pull.Agree (deleteChunks table in₁ rounds deleted) (deleteChunks table in₂ rounds deleted) f fun _ g =>
      g.out = f.out ∧ g.cell.finished = f.cell.finished := by
  induction rounds generalizing f given deleted with
  | zero => exact Pull.Agree.throw
  | succ rounds ih =>
    rw [deleteChunks, deleteChunks]
    refine (h.fetch (hfree _)).bind fun chunk g hg => ?_
    obtain ⟨rest, hrest, _⟩ := hg.left
    have hfinished : g.cell.finished = f.cell.finished := by rw [hg.cell]
    refine Pull.Agree.ite (fun _ => Pull.Agree.pure ⟨hg.out, hfinished⟩) fun _ => ?_
    refine Pull.Agree.lift_bind fun ids _ => ?_
    have hdelete : Pull.Agree (deleteIds table ids) (deleteIds table ids) g fun _ g' =>
        g'.out = g.out ∧ g'.cell = g.cell ∧ g'.below = g.below := by
      unfold deleteIds
      exact Pull.Agree.step rfl (Pull.Agree.step rfl (Pull.Agree.lift fun _ _ => ⟨rfl, rfl, rfl⟩))
    refine hdelete.bind fun count g' ⟨hout, hcell, hbelow⟩ => ?_
    have hrest' : Gives T in₁ in₂ rest g'.below := hbelow ▸ hrest
    refine (ih (deleted + count) hrest').mono fun _ k ⟨hk, hkf⟩ => ⟨hk.trans (hout.trans hg.out), ?_⟩
    rw [hkf, hcell, hfinished]

/-- The answer: how many rows were deleted. -/
theorem handed_answer (capacity : Nat) {n : Int64} {d : Chunk} (h : (do
      Filling.put 0 (Column.ofInts [n])
      modify fun c => c.setCount 1 : Filling Unit) (Chunk.blank [.bigInt] capacity) = .ok () d) :
    d.Sound ∧ d.types = [.bigInt] ∧ d.Tidy capacity ∧ d.rows = [[⟨.bigInt, .bigInt n⟩]] := by
  obtain ⟨_, filled, hput, hrest⟩ := run_bind_eq_ok.mp h
  cases hrest
  rw [Filling.put_eq_putAll] at hput
  obtain ⟨rfl, htyped⟩ := Filling.putAll_blank rfl hput
  refine ⟨Chunk.sound_flat fun column hcol => ?_, htyped, ⟨Nat.le_max_right _ _, List.pairwise_singleton _ _⟩, rfl⟩
  rw [List.mem_singleton.mp hcol]
  rfl

/-- What holds of a deletion between pulls. -/
def Deleting (T : Terms) (in₁ in₂ : Operator) (_ : List Row) (cell : Cell) (below : List Cell) : Prop :=
  (cell.progress = .delete false ∧ ∃ given, Gives T in₁ in₂ given below) ∨ cell.progress = .delete true

theorem gives_delete {c₁ c₂ : Config} (htold : ¬T.told) (hfree : ∀ masks, T.sees masks)
    (h₁ : c₁.capacity = T.capacity) (h₂ : c₂.capacity = T.capacity) (table : Provider)
    (h : Gives T in₁ in₂ given in₁.start.cells) :
    Gives T (delete c₁ table in₁) (delete c₂ table in₂) rows (delete c₁ table in₁).start.cells := by
  have halike : Alike (delete c₁ table in₁) (delete c₂ table in₂) :=
    ⟨rfl, rfl, congrArg (State.above (.delete false)) h.alike.start, rfl⟩
  refine Gives.of_work (K := Deleting T in₁ in₂) halike h₁ h₂ rfl rfl (fun f rows hf hout hK hs => ?_) rfl
    (.inl ⟨rfl, given, h⟩)
  refine Pull.Agree.step rfl ?_
  rcases hK with ⟨hp, given, hgiven⟩ | hp
  · simp only [hp]
    rw [h.alike.rounds]
    refine Pull.Agree.step rfl ((agree_deleteChunks table _ 0 hfree hgiven).bind fun deleted g ⟨hg, hgf⟩ => ?_)
    refine Pull.Agree.step rfl (Pull.Agree.filling fun _ d hd => ?_)
    have hd' := hd
    rw [show ({ g with cell := { g.cell with progress := .delete true } } : Frame).out = Chunk.blank [.bigInt] T.capacity
      from hg.trans hout] at hd'
    obtain ⟨hsound, htyped, htidy, -⟩ := handed_answer T.capacity hd'
    exact ⟨⟨hsound, htyped, fun _ => htidy⟩, hfree _, hgf.trans hf, fun _ ht => absurd ht htold, fun _ =>
      ⟨[], .inr rfl, fun ht => absurd ht htold⟩⟩
  · simp only [hp]
    exact Pull.Agree.pure (Worked.none hout hf hs fun ht => absurd ht htold)

end QueryEngine.Operator
