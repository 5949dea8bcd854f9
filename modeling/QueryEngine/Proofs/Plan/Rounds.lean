import QueryEngine.Plan.Run
import QueryEngine.Proofs.Result

/-! The rounds of a run.

A round pulls once, and then the run ends or has handed a chunk with rows to its consumer
(`Round`). Nothing that is proved of runs looks into their loop past this. -/
namespace QueryEngine.Plan
variable {σ : Type}

/-- What a round of a run comes to, `pulled` being its pull: the pull fails, the chunk is
empty, its rows are more than can be counted, the consumer refuses it, or the next round
begins. Where the run ends the state is closed. -/
inductive Round (config : Config) (p : Plan) (consume : Consumer σ) (stats : Stats) (out : Chunk) (s : State) (consumer : σ)
    (session : Session) (pulled : Pulled) : Prop
  | fails (e : Failure) (hresult : pulled.result = .error e)
    (hran : ∀ rounds, p.pullAll config consume (rounds + 1) stats out s consumer session =
      ⟨.error e, consumer, pulled.session.close pulled.state⟩)
  | empty (hresult : pulled.result = .ok ()) (hempty : pulled.chunk.isEmpty = true)
    (hran : ∀ rounds, p.pullAll config consume (rounds + 1) stats out s consumer session =
      ⟨.ok stats, consumer, pulled.session.close pulled.state⟩)
  | uncounted (hresult : pulled.result = .ok ()) (hrows : pulled.chunk.isEmpty = false)
    (hsum : maxCount < stats.rows + pulled.chunk.count)
    (hran : ∀ rounds, p.pullAll config consume (rounds + 1) stats out s consumer session =
      ⟨.error .crash, consumer, pulled.session.close pulled.state⟩)
  | refused (e : Failure) (hresult : pulled.result = .ok ()) (hrows : pulled.chunk.isEmpty = false)
    (hsum : stats.rows + pulled.chunk.count ≤ maxCount) (htaken : (consume consumer pulled.chunk).1 = .error e)
    (hran : ∀ rounds, p.pullAll config consume (rounds + 1) stats out s consumer session =
      ⟨.error e, (consume consumer pulled.chunk).2, pulled.session.close pulled.state⟩)
  | taken (hresult : pulled.result = .ok ()) (hrows : pulled.chunk.isEmpty = false)
    (hsum : stats.rows + pulled.chunk.count ≤ maxCount) (htaken : (consume consumer pulled.chunk).1 = .ok ())
    (hran : ∀ rounds, p.pullAll config consume (rounds + 1) stats out s consumer session =
      p.pullAll config consume rounds ⟨stats.chunks + 1, stats.rows + pulled.chunk.count⟩ pulled.chunk pulled.state
        (consume consumer pulled.chunk).2 pulled.session)

theorem round (config : Config) (p : Plan) (consume : Consumer σ) (stats : Stats) (out : Chunk) (s : State) (consumer : σ)
    (session : Session) : Round config p consume stats out s consumer session (p.pull config out s session) := by
  cases hpull : p.pull config out s session with
  | mk result chunk s' session' =>
  cases result with
  | error e => exact .fails e rfl fun rounds => by rw [pullAll, hpull]
  | ok u =>
    by_cases he : chunk.isEmpty = true
    · refine .empty rfl he fun rounds => ?_
      rw [pullAll, hpull]
      exact if_pos he
    have hrows := Bool.eq_false_iff.mpr he
    by_cases hsum : stats.rows + chunk.count ≤ maxCount
    · have hcount : addCounts stats.rows chunk.count = .ok (stats.rows + chunk.count) := if_pos hsum
      cases htaken : consume consumer chunk with
      | mk taken consumer' =>
      cases taken with
      | error e =>
        refine .refused e rfl hrows hsum (congrArg Prod.fst htaken) fun rounds => ?_
        rw [pullAll, hpull]
        simp only [if_neg he, hcount, htaken]
      | ok u =>
        refine .taken rfl hrows hsum (congrArg Prod.fst htaken) fun rounds => ?_
        rw [pullAll, hpull]
        simp only [if_neg he, hcount, htaken]
    · have hcount : addCounts stats.rows chunk.count = .error .crash := if_neg hsum
      refine .uncounted rfl hrows (Nat.lt_of_not_le hsum) fun rounds => ?_
      rw [pullAll, hpull]
      simp only [if_neg he, hcount]

end QueryEngine.Plan
