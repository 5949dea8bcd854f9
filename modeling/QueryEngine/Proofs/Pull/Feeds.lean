import QueryEngine.Proofs.Pull.Fails
import QueryEngine.Proofs.Pull.Leaf
import QueryEngine.Proofs.Pull.Runs

/-! Inputs that only want for bytes.

Between its start and its end an input may be refused bytes, but nothing else goes wrong
with it, and what it hands out it takes off the rows that it has left (`Feeds`). So a loop
over it comes to an end in time, and where an operator above it fails for another reason
than bytes, that is the operator's own doing. -/
namespace QueryEngine

/-- From the cells, and from those that pulls leave, pulls fail only where bytes are refused,
and take what they hand out off the rows that are left. -/
structure Operator.Feeds (op : Operator) (sees : List (Nat × Mask) → Prop) (cells : List Cell) : Prop where
  started : cells ≠ []
  pulls : ∃ J : List Cell → Prop, J cells ∧ ∀ f, J f.cells → sees f.session.masks →
    Pull.Fails op.pull f (fun e _ => e.Refused) ∧
      ∀ g, op.pull f = .ok () g → J g.cells ∧ g.out.count + op.rowsBelow g.cells ≤ op.rowsBelow f.cells

namespace Operator
variable {op : Operator} {sees : List (Nat × Mask) → Prop} {f : Frame}

/-- A pull of the first input, whatever chunk it fills, however it goes on from what the
input's frame has become. -/
theorem Feeds.read {after : Frame → Frame → Frame} (h : op.Feeds sees f.below) (hs : sees f.session.masks) (name : String)
    (out : Chunk) (hafter : ∀ g, (after f g).below = g.cells) :
    Pull.Fails (Pull.inInput name out after op.pull) f (fun e _ => e.Refused) ∧
      ∀ chunk g, Pull.inInput name out after op.pull f = .ok chunk g →
        op.Feeds sees g.below ∧ chunk.count + op.rowsBelow g.below ≤ op.rowsBelow f.below := by
  obtain ⟨cell, below, hbelow⟩ := List.exists_cons_of_ne_nil h.started
  obtain ⟨J, hJ, hpulls⟩ := h.pulls
  rw [hbelow] at hJ
  obtain ⟨hfails, hleft⟩ := hpulls ⟨cell, below, f.session, out⟩ hJ hs
  refine ⟨Pull.Fails.inInput hbelow hfails, ?_⟩
  have hread : Pull.Agree (Pull.inInput name out after op.pull) (Pull.inInput name out after op.pull) f fun chunk g =>
      op.Feeds sees g.below ∧ chunk.count + op.rowsBelow g.below ≤ op.rowsBelow f.below := by
    refine Pull.Agree.inInput fun input hin => Pull.Agree.of_ok fun _ g hg => ?_
    rw [Frame.input?, hbelow] at hin
    cases hin
    obtain ⟨hJ, hfewer⟩ := hleft g hg
    rw [hafter g]
    exact ⟨⟨List.cons_ne_nil _ _, J, hJ, hpulls⟩, hbelow ▸ hfewer⟩
  exact hread.2

theorem Feeds.fetch (h : op.Feeds sees f.below) (hs : sees f.session.masks) :
    Pull.Fails op.fetch f (fun e _ => e.Refused) ∧ ∀ chunk g, op.fetch f = .ok chunk g →
      op.Feeds sees g.below ∧ chunk.count + op.rowsBelow g.below ≤ op.rowsBelow f.below :=
  h.read hs op.name f.cell.buffer fun _ => rfl

/-- Prepared chunks are handed out one after the other; nothing goes wrong with that. -/
theorem source_pull (config : Config) {types : List SqlType} {chunks : List Chunk} (hc : ∀ c ∈ chunks, c.Sound) (f : Frame) :
    ∃ g, (source config types chunks).pull f = .ok () g ∧ g.session = f.session ∧
      g.out.count + (source config types chunks).rowsBelow g.cells ≤ (source config types chunks).rowsBelow f.cells := by
  cases hf : f.cell.finished with
  | true =>
    have hwork : (source config types chunks).pull = answer config types _ := rfl
    exact ⟨_, pull_of_finished (s := ⟨f.cell, f.below⟩) hwork hf f.session f.out, rfl, Nat.le_of_eq (Nat.zero_add _)⟩
  | false =>
    let blank : Frame := { f with out := Chunk.blank types config.capacity }
    cases hget : chunks[f.cell.buffer.count]? with
    | none =>
      refine ⟨_, answer_of_work (k := blank) hf ?_ (Chunk.sound_blank _ _), Frame.session_ended _, ?_⟩
      · refine run_bind_eq_ok.mpr ⟨blank, blank, rfl, ?_⟩
        simp only [blank, hget]
        rfl
      · exact Nat.le_of_eq (Nat.zero_add _)
    | some chunk =>
      obtain ⟨hlt, hchunk⟩ := List.getElem?_eq_some_iff.mp hget
      refine ⟨_, answer_of_work (k := { blank with
        cell := { f.cell with buffer := f.cell.buffer.setCount (f.cell.buffer.count + 1) }
        out := blank.out.reference chunk }) hf ?_ ((hc chunk (List.mem_of_getElem? hget)).reference _),
        Frame.session_ended _, ?_⟩
      · refine run_bind_eq_ok.mpr ⟨blank, blank, rfl, ?_⟩
        simp only [blank, hget]
        rfl
      · rw [Frame.out_ended]
        show chunk.count + total ((chunks.drop (Frame.ended _).cell.buffer.count).map Chunk.count) ≤
          total ((chunks.drop f.cell.buffer.count).map Chunk.count)
        rw [Frame.buffer_ended, List.drop_eq_getElem_cons hlt, hchunk]
        exact Nat.le_refl _

theorem source_feeds (config : Config) {types : List SqlType} {chunks : List Chunk} (hc : ∀ c ∈ chunks, c.Sound) :
    (source config types chunks).Feeds sees (source config types chunks).start.cells := by
  refine ⟨List.cons_ne_nil _ _, fun _ => True, trivial, fun f _ _ => ?_⟩
  obtain ⟨g, hg, -, hfewer⟩ := source_pull config hc f
  refine ⟨.of_ok hg, fun g' hg' => ?_⟩
  cases hg.symm.trans hg'
  exact ⟨trivial, hfewer⟩

end Operator
end QueryEngine
