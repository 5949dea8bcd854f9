import QueryEngine.Plan.Basic
import QueryEngine.Pull.Delete
import QueryEngine.Pull.Grouping
import QueryEngine.Pull.Leaf
import QueryEngine.Pull.Pairing
import QueryEngine.Pull.Streaming

/-! Running plans.

A plan is run as the operator built from those of its inputs. A pull takes a state
and a session and gives both back, whether it succeeds or fails. -/
namespace QueryEngine.Plan

def operator (config : Config) : Plan → Operator
  | source types chunks => .source config types chunks
  | scan table columns types => .scan config table columns types
  | filter predicates input => .filter config predicates (input.operator config)
  | project exprs types input => .project config exprs types (input.operator config)
  | prune k input => .prune config k (input.operator config)
  | order keys input => .order config keys (input.operator config)
  | limit n offset input => .limit config n offset (input.operator config)
  | aggregate keys keyTypes calls input => .aggregate config keys keyTypes calls (input.operator config)
  | window calls input => .window config calls (input.operator config)
  | cross l r => .cross config (l.operator config) (r.operator config)
  | join kind on l r => .join config kind on (l.operator config) (r.operator config)
  | delete table input => .delete config table (input.operator config)
  | empty types => .empty config types

theorem operator_name (config : Config) (p : Plan) : (p.operator config).name = p.name := by cases p <;> rfl

theorem operator_types (config : Config) (p : Plan) : (p.operator config).types = p.types := by
  induction p with
  | source | scan | project | aggregate | delete | empty => rfl
  | filter _ _ ih | order _ _ ih | limit _ _ _ ih => exact ih
  | prune k _ ih => exact congrArg (List.take k) ih
  | window calls _ ih => exact congrArg (· ++ calls.map WindowCall.type) ih
  | cross _ _ ihl ihr => exact congr (congrArg List.append ihl) ihr
  | join kind _ _ _ ihl ihr => exact congr (congrArg kind.outputTypes ihl) ihr

/-- A fresh state of a plan. -/
def start (config : Config) (p : Plan) : State := (p.operator config).start

/-- A pull's answer, and the chunk, the state and the session after it. -/
structure Pulled where
  result : Except Failure Unit
  chunk : Chunk
  state : State
  session : Session

/-- Fills a chunk, whatever it holds, with the next rows. -/
def pull (config : Config) (p : Plan) (out : Chunk) (s : State) (session : Session) : Pulled :=
  match (p.operator config).pull ⟨s.cell, s.below, session, out⟩ with
  | .ok () f => ⟨.ok (), f.out, ⟨f.cell, f.below⟩, f.session⟩
  | .error e f => ⟨.error e, f.out, ⟨f.cell, f.below⟩, f.session⟩

/-! ### Runs -/

/-- A run's answer, and what it has made of a consumer of chunks and of the session. -/
structure Ran (σ : Type) (α : Type) where
  result : Except Failure α
  consumer : σ
  session : Session

structure Stats where
  chunks : Nat
  rows : Nat
  deriving DecidableEq

/-- What takes the chunks of a run; it may refuse one. -/
abbrev Consumer (σ : Type) := σ → Chunk → Except Failure Unit × σ

/-- Pulls to the end and hands every chunk that has rows to the consumer. The first
failure ends it. The state is closed in the end. -/
def pullAll {σ : Type} (config : Config) (p : Plan) (consume : Consumer σ) :
    Nat → Stats → Chunk → State → σ → Session → Ran σ Stats
  | 0, _, _, s, consumer, session => ⟨.error .stalled, consumer, session.close s⟩
  | rounds + 1, stats, out, s, consumer, session =>
    let ⟨result, chunk, s, session⟩ := p.pull config out s session
    match result with
    | .error e => ⟨.error e, consumer, session.close s⟩
    | .ok () =>
      if chunk.isEmpty then ⟨.ok stats, consumer, session.close s⟩
      else
        match addCounts stats.rows chunk.count with
        | .error e => ⟨.error e, consumer, session.close s⟩
        | .ok rows =>
          match consume consumer chunk with
          | (.error e, consumer) => ⟨.error e, consumer, session.close s⟩
          | (.ok (), consumer) => pullAll config p consume rounds ⟨stats.chunks + 1, rows⟩ chunk s consumer session

/-- Runs a plan from a fresh state. -/
def run {σ : Type} (config : Config) (p : Plan) (consume : Consumer σ) (consumer : σ) (session : Session) :
    Ran σ Stats :=
  let s := p.start config
  p.pullAll config consume ((p.operator config).rowsLeft s + 1) ⟨0, 0⟩ Chunk.fresh s consumer session

end QueryEngine.Plan
