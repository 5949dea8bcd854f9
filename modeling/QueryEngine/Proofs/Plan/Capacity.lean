import QueryEngine.Context
import QueryEngine.Proofs.Plan.Rows

/-! Results do not depend on the capacity of chunks.

A query that neither pairs rows chunk by chunk nor deletes has the rows of its plan
(`Plan.rows`), whatever the settings it was executed under: how many rows a chunk
holds, whether chunks are verified, how many bytes there are. -/
namespace QueryEngine

namespace Plan
variable {T : Terms} {config : Config} {p : Plan} {rows before : List Row}

/-- What a round of a run that succeeds is: the last, or one that has collected a chunk. -/
theorem pullAll_succ_ok {rounds : Nat} {stats stats' : Stats} {out : Chunk} {s : State} {collected : Collection}
    {session : Session}
    (hok : (p.pullAll config Collection.consume (rounds + 1) stats out s collected session).result = .ok stats') :
    ∃ f, (p.operator config).pull ⟨s.cell, s.below, session, out⟩ = .ok () f ∧
      ((f.out.isEmpty = true ∧ p.pullAll config Collection.consume (rounds + 1) stats out s collected session =
        ⟨.ok stats, collected, f.session.close ⟨f.cell, f.below⟩⟩) ∨
      ∃ more bytes next, collected.append f.out = .ok (more, bytes) ∧
        p.pullAll config Collection.consume (rounds + 1) stats out s collected session =
          p.pullAll config Collection.consume rounds next f.out ⟨f.cell, f.below⟩ more f.session) := by
  rw [pullAll, pull] at hok ⊢
  cases hpull : (p.operator config).pull ⟨s.cell, s.below, session, out⟩ with
  | error e f =>
    rw [hpull] at hok
    cases hok
  | ok a f =>
    refine ⟨f, rfl, ?_⟩
    rw [hpull] at hok
    simp only [] at hok ⊢
    by_cases he : f.out.isEmpty = true
    · exact .inl ⟨he, by rw [if_pos he]⟩
    rw [if_neg he] at hok ⊢
    cases hcount : addCounts stats.rows f.out.count with
    | error e =>
      rw [hcount] at hok
      cases hok
    | ok rows =>
      cases happend : collected.append f.out with
      | error e =>
        rw [hcount, Collection.consume, happend] at hok
        cases hok
      | ok appended =>
        refine .inr ⟨appended.1, appended.2, ⟨stats.chunks + 1, rows⟩, rfl, ?_⟩
        simp only [Collection.consume, happend]

/-- A run that succeeds has collected sound chunks without selections, and all rows where
these are told. -/
theorem pullAll_holds (rounds : Nat) {stats stats' : Stats} {out : Chunk} {s : State} {collected : Collection}
    {session : Session} (h : Gives T (p.operator config) (p.operator config) rows s.cells) (hs : T.sees session.masks)
    (hc : collected.Holds p.types before)
    (hok : (p.pullAll config Collection.consume rounds stats out s collected session).result = .ok stats') :
    ∃ kept, (p.pullAll config Collection.consume rounds stats out s collected session).consumer.Holds p.types kept ∧
      (T.told → kept = before ++ rows) := by
  induction rounds generalizing stats out s collected session rows before with
  | zero => cases hok
  | succ rounds ih =>
    obtain ⟨f, hpull, hround⟩ := pullAll_succ_ok hok
    have hf := (h.step hs out).2 () f hpull
    obtain ⟨rest, hrest, hrows⟩ := hf.left
    rcases hround with ⟨he, hround⟩ | ⟨more, bytes, next, happend, hround⟩
    · rw [hround]
      refine ⟨before, hc, fun htold => ?_⟩
      obtain ⟨hrows, hnone⟩ := hrows htold
      rw [hrows, hnone he, hf.handed.sound.rows_eq_nil_iff.mpr he, List.append_nil, List.append_nil]
    · have htyped : f.out.types = p.types := hf.handed.typed.trans (operator_types config p)
      rw [hround] at hok ⊢
      obtain ⟨kept, hkept, hall⟩ := ih hrest hf.sees (hc.append hf.handed.sound htyped happend) hok
      refine ⟨kept, hkept, fun htold => ?_⟩
      rw [hall htold, (hrows htold).1, List.append_assoc]

/-- A run that succeeds has collected all rows. -/
theorem pullAll_collects (htold : T.told) (rounds : Nat) {stats stats' : Stats} {out : Chunk} {s : State}
    {collected : Collection} {session : Session} (h : Gives T (p.operator config) (p.operator config) rows s.cells)
    (hs : T.sees session.masks) (hc : collected.Holds p.types before)
    (hok : (p.pullAll config Collection.consume rounds stats out s collected session).result = .ok stats') :
    (p.pullAll config Collection.consume rounds stats out s collected session).consumer.Holds p.types (before ++ rows) := by
  obtain ⟨kept, hkept, hall⟩ := pullAll_holds rounds h hs hc hok
  exact hall htold ▸ hkept

end Plan

/-- The rows of a result are those of the plan, over tables as `tables` has them. -/
theorem Context.rows_of_execute {c : Context} {q : LogicalPlan} {session tables : Session} {result : QueryResult}
    (hnodes : ∀ n ∈ q.nodes, n ≠ .cross ∧ ∀ table, n ≠ .delete table) (hsame : session.masks = tables.masks)
    (hmasks : ∀ table columns, .get table columns ∈ q.nodes → tables.Fits table)
    (h : (c.execute q session).1 = .ok result) :
    ∃ p, q.compile = .ok p ∧ result.types = p.types ∧ result.chunks.flatMap Chunk.rows = p.rows tables := by
  let T : Terms := ⟨c.config.capacity, False, True, fun masks => masks = tables.masks⟩
  obtain ⟨p, hcompile⟩ := compiled_of_execute h
  rw [execute_of_compile hcompile] at h
  obtain ⟨stats, hstats, rfl⟩ := map_eq_ok.mp h
  have hadmits (n : LogicalNode) (hn : n ∈ q.nodes) : Plan.Admits T tables n := by
    obtain ⟨hcross, hdelete⟩ := hnodes n hn
    cases n with
    | get table columns =>
      refine fun _ => ⟨hmasks table columns hn, fun s hs => ?_⟩
      rw [Session.mask, hs, Session.mask]
    | cross => exact absurd rfl hcross
    | delete table => exact absurd rfl (hdelete table)
    | _ => trivial
  have hgives : Gives T (p.operator c.config) (p.operator c.config) (p.rows tables) (p.start c.config).cells :=
    (Plan.built_of_compile q hadmits hcompile).gives rfl rfl
  have hcollected := Plan.pullAll_collects trivial _ hgives hsame (Collection.holds_ofTypes p.types) hstats
  exact ⟨p, hcompile, rfl, hcollected.listed⟩

end QueryEngine
