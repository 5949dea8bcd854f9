import QueryEngine.Context
import QueryEngine.Proofs.Plan.Rows
import QueryEngine.Proofs.Pull.Runs

/-! Every chunk that a compiled plan hands out is well formed.

Nothing is asked of the tables, of what is deleted meanwhile, of the sessions or of the
chunks that are to be filled. So verifying chunks has nothing to find, and a plan that
verifies does what it does without. -/
namespace QueryEngine

/-- A chunk as a pull may hand it out. -/
structure Chunk.WellFormed (types : List SqlType) (capacity : Nat) (c : Chunk) : Prop where
  verified : c.verify = .ok ()
  typed : c.types = types
  bounded : c.activeRows.length ≤ capacity
  increasing : ∀ s, c.selection = some s → s.Pairwise (· < ·) ∧ ∀ r ∈ s, r < c.physicalRows

namespace Plan

/-- What is asked of the pulls of a plan of which nothing is told. -/
def untold (config : Config) : Terms := ⟨config.capacity, True, False, fun _ => True⟩

theorem admits_untold (config : Config) (session : Session) (n : LogicalNode) : Admits (untold config) session n := by
  cases n with
  | get => exact fun h => h.elim
  | cross => exact id
  | delete => exact ⟨id, fun _ => trivial⟩
  | _ => trivial

theorem wellFormed_of_handed {config : Config} (hcap : 1 ≤ config.capacity) {types : List SqlType} {c : Chunk}
    (h : (untold config).Handed types c) : c.WellFormed types config.capacity where
  verified := (Chunk.verify_eq_ok_iff c).mpr h.sound
  typed := h.typed
  bounded := by
    rw [h.sound.length_activeRows]
    exact Nat.le_trans (h.tidy trivial).bounded (Nat.max_le.mpr ⟨Nat.le_refl _, hcap⟩)
  increasing s hs := by
    have hactive : c.activeRows = s := by rw [Chunk.activeRows, hs, Option.getD_some]
    exact ⟨hactive ▸ (h.tidy trivial).increasing, (h.sound.selected s hs).2⟩

/-- The pull of every plan is its own work with an answer around it. -/
theorem pull_eq_answer (config : Config) (p : Plan) :
    ∃ work, (p.operator config).pull = Operator.answer config p.types work := by
  rw [← operator_types config p]
  cases p <;> exact ⟨_, rfl⟩

/-! ### With and without verification -/

section
variable {T : Terms} {c₁ c₂ : Config} {p : Plan} {rows : List Row}

theorem pull_congr {s : State} (h : Gives T (p.operator c₁) (p.operator c₂) rows s.cells) {session : Session}
    (hs : T.sees session.masks) (out : Chunk) : p.pull c₁ out s session = p.pull c₂ out s session := by
  have hstep := (h.step hs out).1
  rw [pull, pull, hstep]

theorem pullAll_congr {σ : Type} (hsees : ∀ masks, T.sees masks) (consume : Consumer σ) (rounds : Nat) {stats : Stats}
    {out : Chunk} {s : State} {consumer : σ} {session : Session}
    (h : Gives T (p.operator c₁) (p.operator c₂) rows s.cells) :
    p.pullAll c₁ consume rounds stats out s consumer session = p.pullAll c₂ consume rounds stats out s consumer session := by
  induction rounds generalizing stats out s consumer session rows with
  | zero => rfl
  | succ rounds ih =>
    have hstep := h.step (hsees session.masks) out
    rw [pullAll, pullAll, ← pull_congr h (hsees session.masks) out]
    unfold pull
    cases hpull : (p.operator c₁).pull ⟨s.cell, s.below, session, out⟩ with
    | error e f => rfl
    | ok a f =>
      obtain ⟨rest, hrest, _⟩ := (hstep.2 a f hpull).left
      simp only []
      split
      · rfl
      split
      · rfl
      split
      · rfl
      · exact ih hrest

theorem run_congr {σ : Type} (hsees : ∀ masks, T.sees masks) (consume : Consumer σ) (consumer : σ) (session : Session)
    (h : Gives T (p.operator c₁) (p.operator c₂) rows (p.operator c₁).start.cells) :
    p.run c₁ consume consumer session = p.run c₂ consume consumer session := by
  have halike := h.alike
  rw [run, run, start, start, halike.start, halike.rowsLeft]
  exact pullAll_congr hsees consume _ h

end

end Plan
end QueryEngine
