import QueryEngine.Proofs.Plan.Rounds
import QueryEngine.Proofs.Plan.TypeSoundness
import QueryEngine.Proofs.Pull.HaltingPairs

/-! Every query comes to its end.

A plan whose prepared chunks count their rows rightly halts, whatever its tables hold,
what is deleted meanwhile and how few rows a chunk may have: no pull runs out of rounds,
from any state that pulls can leave, failed ones among them. A pull takes what it hands
out away from the rows that the state may still give. At the start that is a number which
is read off the plan and the cardinalities of its tables (`Plan.rowBound`), so after no
more pulls than that comes an empty chunk, and a run needs no more rounds. -/
namespace QueryEngine

/-! ### Plans that halt -/

namespace Plan

/-- The chunks that a plan begins with count their rows rightly. -/
def Counted (p : Plan) : Prop := ∀ types chunks, source types chunks ∈ p.parts → ∀ chunk ∈ chunks, chunk.Counted

theorem Counted.of_parts {p q : Plan} (h : p.Counted) (hparts : ∀ part ∈ q.parts, part ∈ p.parts) : q.Counted :=
  fun types chunks hsource => h types chunks (hparts _ hsource)

theorem halting (config : Config) {p : Plan} (h : p.Counted) : (p.operator config).Halting := by
  have hone {root input : Plan} (hroot : root.Counted) (hparts : root.parts = root :: input.parts) : input.Counted :=
    hroot.of_parts fun part hpart => hparts ▸ List.mem_cons_of_mem _ hpart
  have htwo {root l r : Plan} (hroot : root.Counted) (hparts : root.parts = root :: (l.parts ++ r.parts)) :
      l.Counted ∧ r.Counted :=
    ⟨hroot.of_parts fun part hpart => hparts ▸ List.mem_cons_of_mem _ (List.mem_append_left _ hpart),
      hroot.of_parts fun part hpart => hparts ▸ List.mem_cons_of_mem _ (List.mem_append_right _ hpart)⟩
  induction p with
  | source types chunks => exact Operator.halting_source (h types chunks (mem_parts_self _))
  | scan table columns types => exact Operator.halting_scan table columns types
  | filter ps input ih => exact Operator.halting_filter (ih (hone h rfl)) ps
  | project exprs types input ih => exact Operator.halting_project (ih (hone h rfl)) exprs types
  | prune k input ih => exact Operator.halting_prune (ih (hone h rfl)) k
  | order keys input ih => exact Operator.halting_order (ih (hone h rfl)) keys
  | limit n offset input ih => exact Operator.halting_limit (ih (hone h rfl)) n offset
  | aggregate keys keyTypes calls input ih => exact Operator.halting_aggregate (ih (hone h rfl)) keys keyTypes calls
  | window calls input ih => exact Operator.halting_window (ih (hone h rfl)) calls
  | cross l r ihl ihr => exact Operator.halting_cross (ihl (htwo h rfl).1) (ihr (htwo h rfl).2)
  | join kind on l r ihl ihr => exact Operator.halting_join (ihl (htwo h rfl).1) (ihr (htwo h rfl).2) kind on
  | delete table input ih => exact Operator.halting_delete (ih (hone h rfl)) table
  | empty types => exact Operator.halting_empty types

/-- No node is compiled to prepared chunks. -/
theorem Built.counted {P : LogicalNode → Prop} {p : Plan} (h : Built P p) : p.Counted := by
  induction h with
  | @node n inputs types p _ _ h ih =>
    intro types' chunks hsource
    have hbelow (q : Plan) (hq : q ∈ inputs) (hpart : source types' chunks ∈ q.parts) : ∀ chunk ∈ chunks, chunk.Counted :=
      ih q hq types' chunks hpart
    cases LogicalNode.compiled_of_compileOver h with
    | get | empty => cases List.mem_singleton.mp hsource
    | filter | project | aggregate | window | order | limit | delete | prune =>
      rcases List.mem_cons.mp hsource with hself | hpart
      · cases hself
      · exact hbelow _ (List.mem_cons_self ..) hpart
    | cross | join =>
      rcases List.mem_cons.mp hsource with hself | hpart
      · cases hself
      rcases List.mem_append.mp hpart with hpart | hpart
      · exact hbelow _ (List.mem_cons_self ..) hpart
      · exact hbelow _ (List.mem_cons_of_mem _ (List.mem_cons_self ..)) hpart

theorem counted_of_compile {q : LogicalPlan} {p : Plan} (h : q.compile = .ok p) : p.Counted :=
  (built_of_compile (P := fun _ => True) q (fun _ _ => trivial) h).counted

/-! ### Pulls -/

/-- A state that pulls leave, whether they succeed or fail, in any sessions and into any
chunks. -/
inductive Reached (config : Config) (p : Plan) : State → Prop
  | start : Reached config p (p.start config)
  | pull {s : State} (hs : Reached config p s) (out : Chunk) (session : Session) :
    Reached config p (p.pull config out s session).state

variable {config : Config} {p : Plan}

/-- What is asked of the cells of a state. -/
def CountedState (s : State) : Prop := s.cell.Counted ∧ ∀ cell ∈ s.below, cell.Counted

/-- A pull from a state whose counts are right. -/
theorem pull_halts (config : Config) (h : p.Counted) {s : State} (hs : CountedState s) (out : Chunk) (session : Session) :
    let pulled := p.pull config out s session
    CountedState pulled.state ∧ pulled.chunk.Counted ∧ pulled.result ≠ .error .stalled ∧
      (pulled.result = .ok () → pulled.chunk.count + (p.operator config).rowsLeft pulled.state ≤
        (p.operator config).rowsLeft s) := by
  have hstep := (halting config h).step ⟨s.cell, s.below, session, out⟩ hs.1 hs.2
  intro pulled
  have hpulled : pulled = p.pull config out s session := rfl
  rw [pull] at hpulled
  cases hpull : (p.operator config).pull ⟨s.cell, s.below, session, out⟩ with
  | ok a f =>
    rw [hpull] at hpulled
    obtain ⟨hf, hfewer⟩ := hstep.ok hpull
    rw [hpulled]
    exact ⟨⟨hf.cell, hf.below⟩, hf.out, fun h => (by cases h), fun _ => hfewer⟩
  | error e f =>
    rw [hpull] at hpulled
    obtain ⟨hf, he⟩ := hstep.error hpull
    rw [hpulled]
    exact ⟨⟨hf.cell, hf.below⟩, hf.out, fun heq => he.ne (Except.error.inj heq), fun h => (by cases h)⟩

theorem countedState_start (config : Config) (h : p.Counted) : CountedState (p.start config) :=
  List.forall_mem_cons.mp (halting config h).start

theorem Reached.counted (h : p.Counted) {s : State} (hs : Reached config p s) : CountedState s := by
  induction hs with
  | start => exact countedState_start config h
  | pull _ out session ih => exact (pull_halts config h ih out session).1

/-- The rows of a run of pulls and those that are then left. -/
theorem pulls_rows (h : p.Counted) {s s' : State} {chunks : List Chunk} (hs : CountedState s)
    (hrun : (p.operator config).Pulls (fun _ => True) s chunks s') :
    total (chunks.map Chunk.count) + (p.operator config).rowsLeft s' ≤ (p.operator config).rowsLeft s := by
  induction hrun with
  | none s => exact Nat.le_of_eq (Nat.zero_add _)
  | @next s s' session out f chunks _ hpull _ ih =>
    have hstep := (halting config h).step ⟨s.cell, s.below, session, out⟩ hs.1 hs.2
    obtain ⟨hf, hfewer⟩ := hstep.ok hpull
    have hrest := ih ⟨hf.cell, hf.below⟩
    have hfewer : f.out.count + (p.operator config).rowsLeft ⟨f.cell, f.below⟩ ≤ (p.operator config).rowsLeft s := hfewer
    rw [List.map_cons, total_cons]
    omega

/-- Chunks with rows are no more than rows. -/
theorem length_le_total {chunks : List Chunk} (h : ∀ c ∈ chunks, c.isEmpty = false) :
    chunks.length ≤ total (chunks.map Chunk.count) := by
  induction chunks with
  | nil => exact Nat.le_refl _
  | cons c chunks ih =>
    obtain ⟨hc, hrest⟩ := List.forall_mem_cons.mp h
    have hrow := Chunk.count_pos (Bool.eq_false_iff.mp hc)
    have hle := ih hrest
    rw [List.map_cons, total_cons, List.length_cons]
    omega

/-! ### Runs -/

/-- A run with a round for each row that is left and one for the end does not stall unless
the consumer does, and further rounds change nothing. -/
theorem pullAll_halts {σ : Type} {consume : Consumer σ} (h : p.Counted)
    (hconsume : ∀ consumer chunk, (consume consumer chunk).1 ≠ .error .stalled) (rounds : Nat) {stats : Stats} {out : Chunk}
    {s : State} {consumer : σ} {session : Session} (hs : CountedState s) (hrounds : (p.operator config).rowsLeft s < rounds) :
    (p.pullAll config consume rounds stats out s consumer session).result ≠ .error .stalled ∧
      ∀ more, p.pullAll config consume (rounds + more) stats out s consumer session =
        p.pullAll config consume rounds stats out s consumer session := by
  induction rounds generalizing stats out s consumer session with
  | zero => cases hrounds
  | succ rounds ih =>
    obtain ⟨hstate, _, hresult, hfewer⟩ := pull_halts config h hs out session
    have hlast {ran : Ran σ Stats} (hran : ∀ n, p.pullAll config consume (n + 1) stats out s consumer session = ran)
        (hended : ran.result ≠ .error .stalled) :
        (p.pullAll config consume (rounds + 1) stats out s consumer session).result ≠ .error .stalled ∧
          ∀ more, p.pullAll config consume (rounds + 1 + more) stats out s consumer session =
            p.pullAll config consume (rounds + 1) stats out s consumer session := by
      refine ⟨by rw [hran]; exact hended, fun more => ?_⟩
      rw [Nat.add_right_comm, hran, hran]
    cases round config p consume stats out s consumer session with
    | fails e he hran => exact hlast hran fun heq => by cases heq; exact hresult he
    | empty _ _ hran => exact hlast hran nofun
    | uncounted _ _ _ hran => exact hlast hran nofun
    | refused e _ _ _ htaken hran => exact hlast hran fun heq => by cases heq; exact hconsume _ _ htaken
    | taken hok hrows _ _ hran =>
      have hrow := Chunk.count_pos (Bool.eq_false_iff.mp hrows)
      have hfewer := hfewer hok
      obtain ⟨hended, hmore⟩ := ih hstate (by omega)
      refine ⟨by rw [hran]; exact hended, fun more => ?_⟩
      rw [Nat.add_right_comm, hran, hran]
      exact hmore more

end Plan

/-! ### Scans -/

/-- The search for a live row ends at the end of the table, not with its rounds. -/
theorem Operator.nextWindow_rounds {table : Provider} {mask : Mask} {ids : List Nat} {capacity offset rounds : Nat}
    (hcapacity : 0 < capacity) (h : table.table.rows - offset ≤ rounds) (more : Nat) :
    nextWindow table mask ids capacity (rounds + more) offset = nextWindow table mask ids capacity rounds offset := by
  induction rounds generalizing offset with
  | zero =>
    have hend : table.table.rows ≤ offset := by omega
    cases more with
    | zero => rfl
    | succ more => simp only [nextWindow, if_pos hend]
  | succ rounds ih =>
    rw [show rounds + 1 + more = rounds + more + 1 by omega, nextWindow, nextWindow]
    by_cases hend : table.table.rows ≤ offset
    · rw [if_pos hend, if_pos hend]
    · rw [if_neg hend, if_neg hend]
      have hnext : table.table.rows - (offset + min capacity (table.table.rows - offset)) ≤ rounds := by omega
      simp only [ih hnext]

/-! ### Queries -/

namespace Plan

/-- The rounds of a run are those that the bound of its plan asks for. -/
theorem run_eq {σ : Type} (config : Config) (p : Plan) (consume : Consumer σ) (consumer : σ) (session : Session) :
    p.run config consume consumer session =
      p.pullAll config consume (p.rowBound + 1) ⟨0, 0⟩ Chunk.fresh (p.start config) consumer session := by
  rw [← rowsLeft_start config p]
  rfl

theorem run_halts {σ : Type} (config : Config) {p : Plan} {consume : Consumer σ} (h : p.Counted)
    (hconsume : ∀ consumer chunk, (consume consumer chunk).1 ≠ .error .stalled) (consumer : σ) (session : Session) :
    (p.run config consume consumer session).result ≠ .error .stalled ∧
      ∀ more, p.pullAll config consume (p.rowBound + 1 + more) ⟨0, 0⟩ Chunk.fresh (p.start config) consumer session =
        p.run config consume consumer session := by
  rw [run_eq]
  refine pullAll_halts h hconsume _ (countedState_start config h) ?_
  rw [← rowsLeft_start config p]
  exact Nat.lt_succ_self _

end Plan

/-- Collecting chunks does not stall. -/
theorem Collection.consume_inTime (collected : Collection) (chunk : Chunk) :
    (collected.consume chunk).1 ≠ .error .stalled := by
  unfold consume
  cases happend : collected.append chunk with
  | ok appended => exact nofun
  | error e => exact fun heq => ((collected.append_inTime chunk).error happend).ne (Except.error.inj heq)

/-- A compiled query, over whatever tables, in whatever sessions and with chunks of any
capacity. No loop of any pull runs out of rounds, in any state; pulls that succeed hand out
no more rows and no more chunks with rows than the plan bounds from the start; the search
of a scan and the run itself end as they would with any number of further rounds. -/
theorem LogicalPlan.halts {q : LogicalPlan} {p : Plan} (h : q.compile = .ok p) (config : Config) :
    (∀ s, p.Reached config s → ∀ out session, (p.pull config out s session).result ≠ .error .stalled) ∧
    (∀ chunks s, (p.operator config).Pulls (fun _ => True) (p.start config) chunks s →
      total (chunks.map Chunk.count) ≤ p.rowBound ∧ ((∀ c ∈ chunks, c.isEmpty = false) → chunks.length ≤ p.rowBound)) ∧
    (∀ (table : Provider) mask ids capacity offset more, 0 < capacity →
      Operator.nextWindow table mask ids capacity (table.table.rows - offset + more) offset =
        Operator.nextWindow table mask ids capacity (table.table.rows - offset) offset) ∧
    (∀ (σ : Type) (consume : Plan.Consumer σ) (consumer : σ) (session : Session),
      (∀ consumer chunk, (consume consumer chunk).1 ≠ .error .stalled) →
      (p.run config consume consumer session).result ≠ .error .stalled ∧
      ∀ more, p.pullAll config consume (p.rowBound + 1 + more) ⟨0, 0⟩ Chunk.fresh (p.start config) consumer session =
        p.run config consume consumer session) ∧
    ∀ tables session, (Context.execute ⟨config, tables⟩ q session).1 ≠ .error .stalled := by
  have hcounted := Plan.counted_of_compile h
  have hstart := Plan.countedState_start config hcounted
  refine ⟨fun s hs out session => ?_, fun chunks s hpulls => ?_, fun table mask ids capacity offset more hcapacity => ?_,
    fun σ consume consumer session hconsume => ?_, fun tables session => ?_⟩
  · exact (Plan.pull_halts config hcounted (hs.counted hcounted) out session).2.2.1
  · have hrows := Plan.pulls_rows hcounted hstart hpulls
    have hbound : (p.operator config).rowsLeft (p.start config) = p.rowBound := Plan.rowsLeft_start config p
    rw [hbound] at hrows
    refine ⟨by omega, fun hsome => ?_⟩
    have hlength := Plan.length_le_total hsome
    omega
  · exact Operator.nextWindow_rounds hcapacity (Nat.le_refl _) more
  · exact Plan.run_halts config hcounted hconsume consumer session
  · have hresult := (Plan.run_halts config hcounted Collection.consume_inTime (Collection.ofTypes p.types) session).1
    rw [Context.execute_of_compile h]
    exact fun heq => hresult (map_eq_error.mp heq)

/-- Three rows with each other, one row at a time: no more than nine chunks with rows. -/
theorem LogicalPlan.halts_cross :
    let table : Provider := ⟨0, ⟨"t", [.ofInts [3, 1, 2]], 3, by decide⟩, 0⟩
    let scan : LogicalPlan := .node (.get table [.column 0]) [] [.bigInt]
    let q : LogicalPlan := .node .cross [scan, scan] [.bigInt, .bigInt]
    let config : Config := ⟨1, none, true⟩
    ∃ p, q.compile = .ok p ∧
      (∀ chunks s, (p.operator config).Pulls (fun _ => True) (p.start config) chunks s →
        (∀ c ∈ chunks, c.isEmpty = false) → chunks.length ≤ 9) ∧
      ∀ session, (Context.execute ⟨config, [table]⟩ q session).1 ≠ .error .stalled := by
  intro table scan q config
  let read : Plan := .scan table [.column 0] [.bigInt]
  have hcompile : q.compile = .ok (.cross read read) := rfl
  obtain ⟨-, hpulls, -, -, hexecute⟩ := halts hcompile config
  exact ⟨_, hcompile, fun chunks s hrun => (hpulls chunks s hrun).2, hexecute [table]⟩

end QueryEngine
