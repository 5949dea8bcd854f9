import QueryEngine.Proofs.Pull.Preserves
import QueryEngine.Proofs.Pull.Served

/-! The bytes of an output.

An output is handed out piece by piece, and no bytes are taken for that or given back: the
frame that a pull leaves has the books of the one that it began with (`Frame.SameBooks`), but
for the bytes that the first pull reserves for what it computes. -/
namespace QueryEngine

/-- The frames differ in what the cell shows and hands out, not in bytes. -/
structure Frame.SameBooks (f g : Frame) : Prop where
  session : g.session = f.session
  reserved : g.cell.reserved = f.cell.reserved
  below : g.below = f.below

namespace Frame
variable {f g k : Frame}

theorem SameBooks.refl (f : Frame) : f.SameBooks f := ⟨rfl, rfl, rfl⟩

theorem SameBooks.trans (h : f.SameBooks g) (h' : g.SameBooks k) : f.SameBooks k :=
  ⟨h'.session.trans h.session, h'.reserved.trans h.reserved, h'.below.trans h.below⟩

theorem sameBooks_ended (f : Frame) : f.SameBooks f.ended := by
  refine ⟨f.session_ended, ?_, f.below_ended⟩
  unfold ended
  split <;> rfl

/-- The states hold as many bytes. -/
theorem SameBooks.held (h : f.SameBooks g) : State.reserved ⟨g.cell, g.below⟩ = State.reserved ⟨f.cell, f.below⟩ := by
  show g.cell.reserved + State.reservedBy g.below = f.cell.reserved + State.reservedBy f.below
  rw [h.reserved, h.below]

end Frame

namespace Operator
variable {config : Config} {op input : Operator} {sees : List (Nat × Mask) → Prop} {keep : Option Output → Progress}
  {compute : Pull Output} {next : Progress → Pull Unit} {s s' : State} {session : Session} {out : Chunk} {f g : Frame}
  {rest : List Row} {chunks : List Chunk}

section
variable {α : Type} {step : Pull α} (hf : f.cell.reserved = 0)
include hf

theorem run_of_buffering_ok {a : α} (h : Pull.buffering step f = .ok a g) : step f = .ok a g := by
  unfold Pull.buffering at h
  rw [hf] at h
  split at h
  · cases h
    assumption
  · cases h

/-- In a cell that holds nothing, a step that fails gives back all that it has reserved. -/
theorem run_of_buffering_error {e : Failure} (h : Pull.buffering step f = .error e g) :
    ∃ k, step f = .error e k ∧ g = k.giveBack k.cell.reserved := by
  unfold Pull.buffering at h
  rw [hf] at h
  split at h
  · cases h
  · cases h
    exact ⟨_, by assumption, rfl⟩

end

theorem handOut_sameBooks {o : Output} (h : handOut keep o f = .ok () g) : f.SameBooks g := by
  have hpreserves : Pull.Preserves (handOut keep o) (.always f.SameBooks) := by
    refine .ite (.pure ()) (Pull.Preserves.out.bind fun _ => (Pull.Preserves.filling ?_).bind fun _ => .modify ?_)
    · exact fun _ _ (hk : f.SameBooks _) => ⟨hk.session, hk.reserved, hk.below⟩
    · exact fun _ (hk : f.SameBooks _) => ⟨hk.session, hk.reserved, hk.below⟩
  exact (hpreserves f (.refl f)).1 () g h

/-- A first pull hands out what it has computed. -/
theorem Blocking.first_sameBooks (hop : Blocking config op input keep compute next) (hp : s.cell.progress = keep none)
    (hf : s.cell.finished = false) (hg : op.pull ⟨s.cell, s.below, session, out⟩ = .ok () g) :
    ∃ o k, Pull.buffering compute ⟨s.cell, s.below, session, Chunk.blank op.types config.capacity⟩ = .ok o k ∧
      k.SameBooks g := by
  obtain ⟨o, k, k', hbuffered, hhand, rfl⟩ := hop.first_run hp hf hg
  obtain ⟨hsession, hreserved, hbelow⟩ := handOut_sameBooks hhand
  exact ⟨o, k, hbuffered, Frame.SameBooks.trans ⟨hsession, hreserved, hbelow⟩ k'.sameBooks_ended⟩

/-- A pull that hands out an output takes no bytes and gives none back. -/
theorem Blocking.pull_sameBooks (hop : Blocking config op input keep compute next) (h : Serving keep op.types s rest)
    (hg : op.pull ⟨s.cell, s.below, session, out⟩ = .ok () g) : Frame.SameBooks ⟨s.cell, s.below, session, out⟩ g := by
  obtain ⟨o, all, hp, -, -⟩ := h.output
  cases hf : s.cell.finished with
  | true =>
    cases (pull_of_finished hop.pull hf session out).symm.trans hg
    exact ⟨rfl, rfl, rfl⟩
  | false =>
    obtain ⟨k, hwork, rfl⟩ := answer_ok (f := ⟨s.cell, s.below, session, out⟩) hf (hop.pull ▸ hg)
    have hhand : handOut keep o ⟨s.cell, s.below, session, Chunk.blank op.types config.capacity⟩ = .ok () k := by
      rw [← hop.kept, ← hp]
      exact hwork
    obtain ⟨hsession, hreserved, hbelow⟩ := handOut_sameBooks hhand
    exact Frame.SameBooks.trans ⟨hsession, hreserved, hbelow⟩ k.sameBooks_ended

/-- A run that hands out an output holds the same bytes all the while. -/
theorem Blocking.reserved_serving (hop : Blocking config op input keep compute next) (h : Serving keep op.types s rest)
    (hp : op.Pulls sees s chunks s') : s'.reserved = s.reserved := by
  induction hp generalizing rest with
  | none s => rfl
  | @next s s' session out f chunks _ hf _ ih =>
    obtain ⟨g, hg, -, -, hserving⟩ := hop.pull_serving h session out
    cases hg.symm.trans hf
    exact (ih hserving).trans (hop.pull_sameBooks h hg).held

end Operator
end QueryEngine
