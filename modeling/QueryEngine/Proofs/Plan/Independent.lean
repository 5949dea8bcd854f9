import QueryEngine.Proofs.Plan.Sequences
import QueryEngine.Proofs.Plan.WellFormed
import QueryEngine.Proofs.Pull.Deletion
import QueryEngine.Proofs.Pull.Limit

/-! Sequences of pulls do not see each other.

Plans that delete nothing share the tables, which stay as they are, and the pool. A
sequence alone has no more bytes in use than among others, so its pulls end alone as they
end among others, unless there they were refused bytes. Without a memory limit that takes
more bytes than can be counted. -/
namespace QueryEngine

/-- No more bytes in use, and no limit but what can be counted. -/
def Pool.lighter : Pool.Ease where
  rel p q := q.used ≤ p.used ∧ p.limit = maxCount ∧ q.limit = maxCount
  short want := maxCount < want.used + want.requested
  grants := by
    rintro p q p' bytes ⟨hused, hp, hq⟩ hreserve
    unfold Pool.reserve at hreserve ⊢
    split at hreserve
    · rename_i hfits
      cases hreserve
      rw [hp] at hfits
      have hfits' : q.used + bytes ≤ maxCount := by omega
      exact ⟨_, if_pos (hq ▸ hfits'), by simpa using hused, hp, hq⟩
    · cases hreserve
  refuses := by
    rintro p q bytes want ⟨hused, hp, hq⟩ hreserve
    unfold Pool.reserve at hreserve
    split at hreserve
    · cases hreserve
    · rename_i hlarge
      cases hreserve
      rw [hp] at hlarge
      exact Nat.not_le.mp hlarge
  release := by
    rintro p q ⟨hused, hp, hq⟩ bytes
    exact ⟨Nat.sub_le_sub_right hused bytes, hp, hq⟩

namespace Plan

/-- What a chunk holds that is to be filled is not seen. -/
theorem pull_out (config : Config) (p : Plan) (out out' : Chunk) (s : State) (session : Session) :
    p.pull config out s session = p.pull config out' s session := by
  obtain ⟨work, hwork⟩ := p.pull_eq_answer config
  rw [← p.operator_types config] at hwork
  unfold pull
  rw [Operator.pull_out hwork _ _ _ out out']

/-- What pulls of a plan give, each into a fresh chunk, when nothing else is done in the
session, and what they leave. -/
structure Alone where
  answers : List (Except Failure Unit × Chunk)
  state : State
  session : Session

def alone (config : Config) (p : Plan) (session : Session) : Nat → Alone
  | 0 => ⟨[], p.start config, session⟩
  | n + 1 =>
    let before := p.alone config session n
    let pulled := p.pull config Chunk.fresh before.state before.session
    ⟨before.answers ++ [(pulled.result, pulled.chunk)], pulled.state, pulled.session⟩

theorem alone_accounted (config : Config) {p : Plan} (hfree : p.deletes = false) (session : Session) (n : Nat) :
    (p.alone config session n).session.Accounted (· = session.masks) session.pool.limit session.pool.used
      (p.alone config session n).state.reserved := by
  induction n with
  | zero => exact ⟨rfl, by rw [alone, reserved_start]; rfl, rfl⟩
  | succ n ih => exact (p.pull_accounted config (.inl hfree) ih Chunk.fresh).1

end Plan

namespace Sequences
variable {config : Config} {session : Session} {w : Sequences}

/-- The answers of a sequence are those that its plan gives alone. -/
structure Follows (config : Config) (session : Session) (q : Sequence) : Prop where
  answers : q.answers = (q.plan.alone config session q.answers.length).answers
  state : ∀ s, q.state = some s → s = (q.plan.alone config session q.answers.length).state

/-- They are until a pull was refused bytes, beyond what can be counted. -/
def Exhausted (config : Config) (session : Session) (q : Sequence) : Prop :=
  ∃ given want chunk later, q.answers = given ++ (.error (.error (.resourceExhausted want)), chunk) :: later ∧
    given = (q.plan.alone config session given.length).answers ∧ maxCount < want.used + want.requested

theorem follows_start (config : Config) (session : Session) (p : Plan) :
    Follows config session ⟨p, some (p.start config), []⟩ :=
  ⟨rfl, fun _ hs => (Option.some.inj hs).symm⟩

theorem Exhausted.more {p : Plan} {state : Option State} {answers : List (Except Failure Unit × Chunk)}
    (h : Exhausted config session ⟨p, state, answers⟩) (state' : Option State) (more : List (Except Failure Unit × Chunk)) :
    Exhausted config session ⟨p, state', answers ++ more⟩ := by
  obtain ⟨given, want, chunk, later, hanswers, hgiven, hlarge⟩ := h
  refine ⟨given, want, chunk, later ++ more, ?_, hgiven, hlarge⟩
  have hanswers : answers = given ++ (.error (.error (.resourceExhausted want)), chunk) :: later := hanswers
  show answers ++ more = _
  rw [hanswers, List.append_assoc, List.cons_append]

/-- A pull among others does what it does alone, unless it is refused bytes. -/
theorem follows_pulled {p : Plan} {s : State} {answers : List (Except Failure Unit × Chunk)} {others : Nat}
    (hfree : p.deletes = false) (hlimit : session.pool.limit = maxCount) (h : Follows config session ⟨p, some s, answers⟩)
    (hown : w.session.Accounted (· = session.masks) session.pool.limit (session.pool.used + others) s.reserved) (out : Chunk) :
    let pulled := p.pull config out s w.session
    let q : Sequence := ⟨p, some pulled.state, answers ++ [(pulled.result, pulled.chunk)]⟩
    Follows config session q ∨ Exhausted config session q := by
  intro pulled q
  let before := p.alone config session answers.length
  have hanswers : answers = before.answers := h.answers
  have hstate : s = before.state := h.state s rfl
  have halone : before.session.Accounted (· = session.masks) session.pool.limit session.pool.used before.state.reserved :=
    p.alone_accounted config hfree session answers.length
  have hroom : w.session.Roomier Pool.lighter before.session := by
    refine ⟨before.session.pool, ⟨?_, ?_, ?_⟩, ?_⟩
    · rw [halone.used_eq, hown.used_eq, hstate]
      omega
    · exact hown.limit_eq.trans hlimit
    · exact halone.limit_eq.trans hlimit
    · have hmasks : before.session.masks = w.session.masks := halone.masks.trans hown.masks.symm
      rw [← hmasks]
  have hkeeps : Plan.Pulled.Keeps Pool.lighter pulled (p.pull config Chunk.fresh before.state before.session) := by
    rw [← hstate, p.pull_out config Chunk.fresh out]
    exact p.pull_keeps config out s hroom
  have hnext : (p.alone config session (answers.length + 1)).answers = before.answers ++
      [((p.pull config Chunk.fresh before.state before.session).result,
        (p.pull config Chunk.fresh before.state before.session).chunk)] ∧
      (p.alone config session (answers.length + 1)).state = (p.pull config Chunk.fresh before.state before.session).state :=
    ⟨rfl, rfl⟩
  have hlength : q.answers.length = answers.length + 1 := List.length_append
  generalize p.pull config Chunk.fresh before.state before.session = other at hkeeps hnext
  obtain ⟨result, chunk, state, session'⟩ := pulled
  cases hkeeps with
  | refused hshort => exact .inr ⟨answers, _, chunk, [], rfl, hanswers, hshort⟩
  | same h' =>
    refine .inl ⟨?_, fun s' hs' => ?_⟩
    · rw [hlength]
      exact (congrArg (· ++ _) hanswers).trans hnext.1.symm
    · rw [hlength]
      exact (Option.some.inj hs').symm.trans hnext.2.symm

/-- Where the masks are known nothing is deleted. -/
theorem Balanced.free {masks : List (Nat × Mask)} {limit base : Nat} {q : Sequence} (h : w.Balanced (· = masks) limit base)
    (hq : q ∈ w.started) : q.plan.deletes = false :=
  (h.plans q hq).resolve_right fun hall => List.cons_ne_self (0, []) masks (hall _)

/-- So it is with every sequence after every act. -/
theorem follows_act (hlimit : session.pool.limit = maxCount)
    (hbooks : w.Balanced (· = session.masks) session.pool.limit session.pool.used)
    (h : ∀ q ∈ w.started, Follows config session q ∨ Exhausted config session q) (a : Act) :
    ∀ q ∈ (w.act config a).started, Follows config session q ∨ Exhausted config session q := by
  rcases act_cases config w a with ⟨p, -, hact⟩ | ⟨i, out, p, s, answers, hq, hact⟩ | ⟨i, p, s, answers, hq, hact⟩ | hact
  · rw [hact]
    exact List.forall_mem_append.mpr ⟨h, List.forall_mem_singleton.mpr (.inl (follows_start config session p))⟩
  · rw [hact]
    have hmem := List.mem_of_getElem? hq
    intro q hq'
    rcases List.mem_or_eq_of_mem_set hq' with hq' | rfl
    · exact h q hq'
    · obtain ⟨others, hown, -⟩ := hbooks.own hq rfl
      rcases h _ hmem with hfollows | hexhausted
      · exact follows_pulled (hbooks.free hmem) hlimit hfollows hown out
      · exact .inr (hexhausted.more _ _)
  · rw [hact]
    have hmem := List.mem_of_getElem? hq
    intro q hq'
    rcases List.mem_or_eq_of_mem_set hq' with hq' | rfl
    · exact h q hq'
    · rcases h _ hmem with hfollows | hexhausted
      · exact .inl ⟨hfollows.answers, nofun⟩
      · have hclosed := hexhausted.more none []
        rw [List.append_nil] at hclosed
        exact .inr hclosed
  · rw [hact]
    exact h

theorem follows_run (hlimit : session.pool.limit = maxCount) (acts : List Act)
    (hfree : ∀ p, .start p ∈ acts → p.deletes = false)
    (hbooks : w.Balanced (· = session.masks) session.pool.limit session.pool.used)
    (h : ∀ q ∈ w.started, Follows config session q ∨ Exhausted config session q) :
    ∀ q ∈ (w.run config acts).started, Follows config session q ∨ Exhausted config session q := by
  induction acts generalizing w with
  | nil => exact h
  | cons a acts ih =>
    refine ih (fun p hp => hfree p (List.mem_cons_of_mem a hp)) (hbooks.act a fun p ha => ?_) (follows_act hlimit hbooks h a)
    exact .inl (hfree p (ha ▸ List.mem_cons_self ..))

/-- Plans that delete nothing are started, pulled and closed in any order over a session
without a memory limit, into chunks that hold anything. Each gives what it gives when it is
pulled alone in the session as it was, into fresh chunks; or it does until more bytes are
asked for than can be counted. -/
theorem run_alone (config : Config) (session : Session) (hlimit : session.pool.limit = maxCount) (acts : List Act)
    (hfree : ∀ p, .start p ∈ acts → p.deletes = false) :
    ∀ q ∈ (run config ⟨session, []⟩ acts).started,
      q.answers = (q.plan.alone config session q.answers.length).answers ∨
      ∃ given want chunk later, q.answers = given ++ (.error (.error (.resourceExhausted want)), chunk) :: later ∧
        given = (q.plan.alone config session given.length).answers ∧ maxCount < want.used + want.requested := by
  intro q hq
  exact (follows_run hlimit acts hfree (balanced_begin session rfl) nofun q hq).imp_left Follows.answers

/-- A grouping and a product over one table, pulled in turn into one chunk; the product is
closed before it is at its end. -/
theorem run_alone_sharing :
    let t : Provider := ⟨0, ⟨"t", [.ofInts [3, 1, 3]], 3, by decide⟩, 0⟩
    let grouped : Plan := .aggregate [.column 0 .bigInt] [.bigInt] [] (.scan t [.column 0] [.bigInt])
    let product : Plan := .cross (.scan t [.rowId] [.bigInt]) (.scan t [.column 0] [.bigInt])
    let config : Config := ⟨1, none, true⟩
    let session := Session.ofLimit? none
    let used : Chunk := ⟨[.ofInts [7, 8, 9], .ofInts [7, 8, 9]], some [2, 0], 2, 3⟩
    let acts : List Act := [.start grouped, .start product, .pull 1 used, .pull 0 used, .pull 1 used, .close 1, .pull 0 used]
    session.pool.limit = maxCount ∧ (∀ p, .start p ∈ acts → p.deletes = false) ∧
      ((grouped.alone config session 2).answers.map fun a => a.2.rows.map (List.map Datum.value)) =
        [[[.bigInt 3]], [[.bigInt 1]]] ∧
      ∀ q ∈ (run config ⟨session, []⟩ acts).started, q.answers = (q.plan.alone config session q.answers.length).answers := by
  intro t grouped product config session used acts
  have hlimit : session.pool.limit = maxCount := rfl
  have hfree (p : Plan) (hp : .start p ∈ acts) : p.deletes = false := by
    simp only [acts, List.mem_cons, Act.start.injEq, reduceCtorEq, List.not_mem_nil, or_false] at hp
    rcases hp with rfl | rfl <;> rfl
  have hgiven : ((run config ⟨session, []⟩ acts).started.all fun q => q.answers.all fun a => a.1.toOption.isSome) = true := by
    decide +kernel
  have hrows : ((grouped.alone config session 2).answers.map fun a => a.2.rows.map (List.map Datum.value)) =
      [[[.bigInt 3]], [[.bigInt 1]]] := by
    decide +kernel
  refine ⟨hlimit, hfree, hrows, fun q hq => (run_alone config session hlimit acts hfree q hq).resolve_right ?_⟩
  rintro ⟨given, want, chunk, later, hanswers, -⟩
  have hok := List.all_eq_true.mp (List.all_eq_true.mp hgiven q hq) (.error (.error (.resourceExhausted want)), chunk)
    (hanswers ▸ List.mem_append_right _ (List.mem_cons_self ..))
  cases hok

end Sequences
end QueryEngine
