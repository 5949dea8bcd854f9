import QueryEngine.Context
import QueryEngine.Proofs.Pull.Limit

/-! A memory limit never changes an answer.

Runs of one query that differ only in the limit of the pool go side by side, pull by
pull, until the smaller limit refuses bytes; a refusal ends its run at once. So a run
that is not refused bytes has the answer that it has under every larger limit, and
without any. -/
namespace QueryEngine

theorem Pool.reserve_withLimit {p q : Pool} {bytes limit : Nat} (h : p.reserve bytes = .ok q) (hle : p.limit ≤ limit) :
    Pool.reserve { p with limit := limit } bytes = .ok { q with limit := limit } := by
  unfold reserve at h ⊢
  by_cases hfits : p.used + bytes ≤ p.limit
  · rw [if_pos hfits] at h
    cases h
    exact if_pos (Nat.le_trans hfits hle)
  · rw [if_neg hfits] at h
    cases h

/-- A larger limit, all else being equal. -/
def Pool.larger : Pool.Ease where
  rel p q := ∃ limit, p.limit ≤ limit ∧ q = { p with limit := limit }
  short _ := True
  grants := by
    rintro p _ p' bytes ⟨limit, hle, rfl⟩ hp
    have hlimit : p'.limit ≤ limit := Pool.reserve_limit hp ▸ hle
    exact ⟨_, Pool.reserve_withLimit hp hle, limit, hlimit, rfl⟩
  refuses _ _ := trivial
  release := by
    rintro p _ ⟨limit, hle, rfl⟩ bytes
    exact ⟨limit, hle, rfl⟩

theorem Session.Roomier.peak {s t : Session} (h : s.Roomier Pool.larger t) : t.pool.peak = s.pool.peak := by
  obtain ⟨_, ⟨limit, -, rfl⟩, rfl⟩ := h
  rfl

namespace Plan
variable {R : Pool.Ease} {σ α : Type}

/-- The limit is none of the settings that operators look at. -/
theorem operator_memoryLimit (config : Config) (limit : Option Nat) (p : Plan) :
    p.operator { config with memoryLimit := limit } = p.operator config := by
  induction p with
  | source => rfl
  | scan => rfl
  | empty => rfl
  | filter predicates _ ih => exact congrArg (Operator.filter config predicates) ih
  | project exprs types _ ih => exact congrArg (Operator.project config exprs types) ih
  | prune k _ ih => exact congrArg (Operator.prune config k) ih
  | order keys _ ih => exact congrArg (Operator.order config keys) ih
  | limit n offset _ ih => exact congrArg (Operator.limit config n offset) ih
  | aggregate keys keyTypes calls _ ih => exact congrArg (Operator.aggregate config keys keyTypes calls) ih
  | window calls _ ih => exact congrArg (Operator.window config calls) ih
  | cross _ _ hl hr => exact congrArg₂ (Operator.cross config) hl hr
  | join kind on _ _ hl hr => exact congrArg₂ (Operator.join config kind on) hl hr
  | delete table _ ih => exact congrArg (Operator.delete config table) ih

theorem pull_memoryLimit (config : Config) (limit : Option Nat) (p : Plan) (out : Chunk) (s : State) (session : Session) :
    p.pull { config with memoryLimit := limit } out s session = p.pull config out s session := by
  unfold pull
  rw [operator_memoryLimit]

theorem pullAll_memoryLimit (config : Config) (limit : Option Nat) (p : Plan) (consume : Consumer σ) (rounds : Nat)
    (stats : Stats) (out : Chunk) (s : State) (consumer : σ) (session : Session) :
    p.pullAll { config with memoryLimit := limit } consume rounds stats out s consumer session =
      p.pullAll config consume rounds stats out s consumer session := by
  induction rounds generalizing stats out s consumer session with
  | zero => rfl
  | succ rounds ih => simp only [pullAll, pull_memoryLimit, ih]

theorem run_memoryLimit (config : Config) (limit : Option Nat) (p : Plan) (consume : Consumer σ) (consumer : σ)
    (session : Session) :
    p.run { config with memoryLimit := limit } consume consumer session = p.run config consume consumer session := by
  simp only [run, start, operator_memoryLimit, pullAll_memoryLimit]

/-- Two runs, related in the same way. -/
inductive Ran.Keeps (R : Pool.Ease) : Ran σ α → Ran σ α → Prop
  | refused {want : ReservationError} {consumer : σ} {session : Session} {ran : Ran σ α} :
    Keeps R ⟨.error (.error (.resourceExhausted want)), consumer, session⟩ ran
  | same {result : Except Failure α} {consumer : σ} {s t : Session} (h : s.Roomier R t) :
    Keeps R ⟨result, consumer, s⟩ ⟨result, consumer, t⟩

theorem pullAll_keeps (config : Config) (p : Plan) (consume : Consumer σ) (rounds : Nat) (stats : Stats) (out : Chunk)
    (s : State) (consumer : σ) {session session' : Session} (h : session.Roomier R session') :
    Ran.Keeps R (p.pullAll config consume rounds stats out s consumer session)
      (p.pullAll config consume rounds stats out s consumer session') := by
  induction rounds generalizing stats out s consumer session session' with
  | zero => exact .same (h.close s)
  | succ rounds ih =>
    have hkeeps := p.pull_keeps config out s h
    rw [pullAll, pullAll]
    generalize p.pull config out s session = pulled, p.pull config out s session' = pulled' at hkeeps ⊢
    cases hkeeps with
    | refused => exact .refused
    | @same result chunk state _ _ h' =>
      cases result with
      | error e => exact .same (h'.close state)
      | ok u =>
        by_cases he : chunk.isEmpty = true
        · simp only [if_pos he]
          exact .same (h'.close state)
        · simp only [if_neg he]
          cases addCounts stats.rows chunk.count with
          | error e => exact .same (h'.close state)
          | ok rows =>
            simp only []
            generalize consume consumer chunk = consumed
            obtain ⟨_ | _, consumer'⟩ := consumed
            · exact .same (h'.close state)
            · exact ih _ _ _ _ h'

theorem run_keeps (config : Config) (p : Plan) (consume : Consumer σ) (consumer : σ) {session session' : Session}
    (h : session.Roomier R session') :
    Ran.Keeps R (p.run config consume consumer session) (p.run config consume consumer session') :=
  pullAll_keeps config p consume _ _ _ _ consumer h

end Plan

namespace Context

/-- The context with another memory limit, or with none. -/
def withMemoryLimit (c : Context) (limit : Option Nat) : Context := { c with config := { c.config with memoryLimit := limit } }

/-- What a query gives, the rows of some masks being deleted from the tables. -/
def answer (c : Context) (q : LogicalPlan) (masks : List (Nat × Mask)) : Except Failure QueryResult :=
  (c.execute q { c.session with masks := masks }).1

/-- The query was refused bytes. -/
def Refuses (c : Context) (q : LogicalPlan) (masks : List (Nat × Mask)) : Prop :=
  ∃ want, c.answer q masks = .error (.error (.resourceExhausted want))

/-- The refused request, if that is what a query has failed with. -/
def refusal? : Except Failure QueryResult → Option ReservationError
  | .error (.error (.resourceExhausted want)) => some want
  | _ => none

theorem refuses_iff (c : Context) (q : LogicalPlan) (masks : List (Nat × Mask)) :
    c.Refuses q masks ↔ (refusal? (c.answer q masks)).isSome = true := by
  unfold Refuses
  generalize c.answer q masks = answer
  constructor
  · rintro ⟨want, rfl⟩
    rfl
  · intro h
    unfold refusal? at h
    split at h
    · exact ⟨_, rfl⟩
    · cases h

instance (c : Context) (q : LogicalPlan) (masks : List (Nat × Mask)) : Decidable (c.Refuses q masks) :=
  decidable_of_iff _ (c.refuses_iff q masks).symm

theorem answer_of_roomier (c : Context) (q : LogicalPlan) (masks : List (Nat × Mask)) (l l' : Option Nat)
    (h : l.getD maxCount ≤ l'.getD maxCount) (hroom : ¬(c.withMemoryLimit l).Refuses q masks) :
    (c.withMemoryLimit l').answer q masks = (c.withMemoryLimit l).answer q masks := by
  have hsessions : Session.Roomier Pool.larger { (c.withMemoryLimit l).session with masks := masks }
      { (c.withMemoryLimit l').session with masks := masks } := ⟨_, ⟨l'.getD maxCount, h, rfl⟩, rfl⟩
  unfold Refuses answer execute at hroom
  unfold answer execute
  cases hcompile : q.compile with
  | error e => rfl
  | ok p =>
    simp only [hcompile, withMemoryLimit, Plan.run_memoryLimit] at hroom hsessions ⊢
    have hkeeps := p.run_keeps c.config Collection.consume (Collection.ofTypes p.types) hsessions
    generalize p.run c.config Collection.consume (Collection.ofTypes p.types) _ = ran at hkeeps hroom ⊢
    generalize p.run c.config Collection.consume (Collection.ofTypes p.types) _ = ran' at hkeeps ⊢
    cases hkeeps with
    | @refused want => exact absurd ⟨want, rfl⟩ hroom
    | same hs => simp only [hs.peak]

end Context
end QueryEngine
