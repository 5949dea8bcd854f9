import QueryEngine.Chunk.Collection
import QueryEngine.Plan.Compile
import QueryEngine.Plan.Run

/-! Contexts: settings and tables, and what a query gives back.

A query is compiled, run to its end and its chunks collected. The result has the
rows of all chunks that were pulled, without selections. -/
namespace QueryEngine

structure QueryResult where
  types : List SqlType
  chunks : List Chunk
  rows : Nat
  /-- How many chunks with rows were pulled. -/
  chunkCount : Nat
  /-- The most bytes ever in use in the pool. -/
  peak : Nat

def QueryResult.toBatches (r : QueryResult) : Except Failure (List Batch) := r.chunks.mapM Chunk.toBatch

/-- Collects the chunks of a run. -/
def Collection.consume : Plan.Consumer Collection := fun collected chunk =>
  match collected.append chunk with
  | .ok (more, _) => (.ok (), more)
  | .error e => (.error e, collected)

structure Context where
  config : Config
  /-- The tables, no name twice. -/
  tables : List Provider

namespace Context

def ofConfig (config : Config) : Context := ⟨config, []⟩

/-- A session of the context: no bytes are in use and no rows are deleted. -/
def session (c : Context) : Session := Session.ofLimit? c.config.memoryLimit

/-- Registers a table under its name; one that had the name before is forgotten. -/
def register (c : Context) (table : Provider) : Context :=
  { c with tables := table :: c.tables.filter fun t => t.name ≠ table.name }

def table? (c : Context) (name : String) : Option Provider := c.tables.find? fun t => t.name = name

/-- The names of all tables, in order. -/
def names (c : Context) : List String := (c.tables.map Provider.name).mergeSort fun a b => decide (a ≤ b)

/-- Runs a query and collects its rows. -/
def execute (c : Context) (query : LogicalPlan) (session : Session) : Except Failure QueryResult × Session :=
  match query.compile with
  | .error e => (.error (.error e), session)
  | .ok plan =>
    let ran := plan.run c.config Collection.consume (Collection.ofTypes plan.types) session
    let collected := ran.consumer
    (ran.result.map fun stats =>
      ⟨plan.types, collected.chunks, collected.count, stats.chunks, ran.session.pool.peak⟩, ran.session)

/-- What compiles is run. -/
theorem execute_of_compile {query : LogicalPlan} {plan : Plan} (h : query.compile = .ok plan) (c : Context)
    (session : Session) :
    c.execute query session =
      let ran := plan.run c.config Collection.consume (Collection.ofTypes plan.types) session
      (ran.result.map fun stats =>
        ⟨plan.types, ran.consumer.chunks, ran.consumer.count, stats.chunks, ran.session.pool.peak⟩, ran.session) := by
  rw [execute, h]

/-- What has a result compiles. -/
theorem compiled_of_execute {c : Context} {query : LogicalPlan} {session : Session} {r : QueryResult}
    (h : (c.execute query session).1 = .ok r) : ∃ plan, query.compile = .ok plan := by
  unfold execute at h
  cases hcompile : query.compile with
  | ok plan => exact ⟨plan, rfl⟩
  | error e =>
    rw [hcompile] at h
    cases h

/-- The plan of a query as text. -/
def explain (query : LogicalPlan) : Except QueryError String := do return (← query.compile).toText

end Context
end QueryEngine
