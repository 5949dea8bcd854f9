import QueryEngine.Proofs.Pull.Runs

/-! What comes of pulls, one after another, when some of them may fail.

A run (`Pulls`) ends with the first failure. Here pulls go on, each from the state that the
one before has left, so that two operators can be told apart by which pulls fail, by what
the others hand out, and by what has become of the session. -/
namespace QueryEngine

/-- The frame after some steps, which succeeded or not. -/
def resultFrame {α : Type} : EStateM.Result Failure Frame α → Frame
  | .ok _ f | .error _ f => f

/-- What a pull hands out, if it succeeds. An empty chunk says no more than that the rows are
at an end. -/
def handedOf : EStateM.Result Failure Frame Unit → Except Failure (Option Chunk)
  | .ok _ f => .ok (if f.out.isEmpty then none else some f.out)
  | .error e _ => .error e

namespace Operator
variable {op op₁ op₂ : Operator}

/-- What comes of pulls in these sessions that are to fill these chunks: what each hands out
and the session that it leaves. -/
def outcomes (op : Operator) : List (Session × Chunk) → State → List (Except Failure (Option Chunk) × Session)
  | [], _ => []
  | ask :: asks, s =>
    let result := op.pull ⟨s.cell, s.below, ask.1, ask.2⟩
    (handedOf result, (resultFrame result).session) ::
      op.outcomes asks ⟨(resultFrame result).cell, (resultFrame result).below⟩

/-- One outcome for each pull. -/
@[simp] theorem length_outcomes (op : Operator) (asks : List (Session × Chunk)) (s : State) :
    (op.outcomes asks s).length = asks.length := by
  induction asks generalizing s with
  | nil => rfl
  | cons ask asks ih => rw [outcomes, List.length_cons, ih, List.length_cons]

/-- Two results that look the same, and leave states that correspond. -/
structure Matched (R : State → State → Prop) (r₁ r₂ : EStateM.Result Failure Frame Unit) : Prop where
  handed : handedOf r₁ = handedOf r₂
  session : (resultFrame r₁).session = (resultFrame r₂).session
  left : R ⟨(resultFrame r₁).cell, (resultFrame r₁).below⟩ ⟨(resultFrame r₂).cell, (resultFrame r₂).below⟩

/-- Operators whose pulls match from states that correspond have the same outcomes. For the
pulls of the first one there may be a promise of what they hand out. -/
theorem outcomes_eq {R : State → State → Prop} {P : Except Failure (Option Chunk) → Prop} {asks : List (Session × Chunk)}
    (hstep : ∀ s₁ s₂ ask, R s₁ s₂ → ask ∈ asks → P (handedOf (op₁.pull ⟨s₁.cell, s₁.below, ask.1, ask.2⟩)) →
      Matched R (op₁.pull ⟨s₁.cell, s₁.below, ask.1, ask.2⟩) (op₂.pull ⟨s₂.cell, s₂.below, ask.1, ask.2⟩))
    {s₁ s₂ : State} (h : R s₁ s₂) (hall : ∀ outcome ∈ op₁.outcomes asks s₁, P outcome.1) :
    op₁.outcomes asks s₁ = op₂.outcomes asks s₂ := by
  induction asks generalizing s₁ s₂ with
  | nil => rfl
  | cons ask asks ih =>
    obtain ⟨hfirst, hrest⟩ := List.forall_mem_cons.mp hall
    have hask := hstep s₁ s₂ ask h (List.mem_cons_self ..) hfirst
    rw [outcomes, outcomes]
    simp only [hask.handed, hask.session]
    rw [ih (fun s₁ s₂ ask h hmem => hstep s₁ s₂ ask h (List.mem_cons_of_mem _ hmem)) hask.left hrest]

/-! ### Answers that are verified -/

/-- If chunks are to be verified, the operator hands out only such as pass. -/
def Verifies (config : Config) (op : Operator) : Prop :=
  config.verify = true → ∀ f g, op.pull f = .ok () g → g.out.Sound

section
variable {config : Config} {types : List SqlType} {work : Pull Unit} {f : Frame}

/-- What an answer makes of its operator's own work. -/
def answered : EStateM.Result Failure Frame Unit → EStateM.Result Failure Frame Unit
  | .ok _ k => .ok () k.ended
  | .error e k => .error e k

/-- An answer is the operator's own work, if that passes where it is verified. -/
theorem answer_eq_answered (hf : f.cell.finished = false)
    (hsound : config.verify = true → ∀ k, work { f with out := Chunk.blank types config.capacity } = .ok () k → k.out.Sound) :
    answer config types work f = answered (work { f with out := Chunk.blank types config.capacity }) := by
  rw [answer_eq config types work hf, run_bind]
  cases hwork : work { f with out := Chunk.blank types config.capacity } with
  | error e k => rfl
  | ok a k =>
    have hverify : (if config.verify = true then (liftM k.out.verify : Pull Unit) else pure ()) = pure () := by
      cases hv : config.verify with
      | false => rfl
      | true =>
        rw [if_pos rfl, (Chunk.verify_eq_ok_iff _).mpr (hsound hv k hwork)]
        rfl
    show (do
      if k.out.isEmpty then Pull.finish
      if config.verify then k.out.verify : Pull Unit) k = .ok () k.ended
    simp only [hverify]
    unfold Frame.ended
    split <;> rfl

theorem verifies_of_answer (hpull : op.pull = answer config types work) : op.Verifies config := by
  intro hv f g hg
  rw [hpull] at hg
  cases hf : f.cell.finished with
  | true =>
    rw [answer_of_finished hf] at hg
    cases hg
    exact Chunk.sound_blank _ _
  | false =>
    rw [answer_eq config types work hf] at hg
    obtain ⟨_, k, _, hg⟩ := run_bind_eq_ok.mp hg
    have hverified {l : Frame} (hl : l.out = k.out) (h : (liftM k.out.verify : Pull Unit) l = .ok () g) : g.out.Sound := by
      obtain ⟨hok, rfl⟩ := run_liftQuery_eq_ok.mp h
      rw [hl]
      exact (Chunk.verify_eq_ok_iff _).mp hok
    change (do
      if k.out.isEmpty then Pull.finish
      if config.verify then k.out.verify : Pull Unit) k = .ok () g at hg
    rw [hv] at hg
    simp only [if_true] at hg
    split at hg
    · exact hverified (l := { k with cell := { k.cell with finished := true } }) rfl hg
    · exact hverified rfl hg

end
end Operator
end QueryEngine
