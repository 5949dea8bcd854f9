import QueryEngine.Context
import QueryEngine.Proofs.Pull.Accounted

/-! Sequences of pulls over one session.

Plans are started, pulled and closed in any order over one session, and any of the pulls
may fail. The bytes of the states that are not closed are the sum of what they hold: what
one of them holds is in use elsewhere for every other. So the pool counts what it counted
at the start and what the states hold, and nothing is left of a state that is closed. -/
namespace QueryEngine

namespace Plan
variable {M : List (Nat × Mask) → Prop} {limit base : Nat} {session : Session} {σ : Type}

theorem pull_accounted (config : Config) (p : Plan) {s : State} (hM : p.deletes = false ∨ ∀ masks, M masks)
    (h : session.Accounted M limit base s.reserved) (out : Chunk) :
    (p.pull config out s session).session.Accounted M limit base (p.pull config out s session).state.reserved ∧
      ((p.pull config out s session).result ≠ .error .crash →
        List.Forall₂ Cell.Kept s.cells (p.pull config out s session).state.cells) := by
  have hpull := (p.accounts config hM).pull limit base s.cells ⟨s.cell, s.below, session, out⟩
    ⟨h, List.forall₂_same.mpr fun c _ => .refl c⟩
  unfold Plan.pull
  cases hm : (p.operator config).pull ⟨s.cell, s.below, session, out⟩ with
  | ok a f => exact ⟨(hpull.1 a f hm).1, fun _ => (hpull.1 a f hm).2⟩
  | error e f => exact ⟨(hpull.2 e f hm).1, fun he => (hpull.2 e f hm).2 fun hcrash => he (congrArg Except.error hcrash)⟩

theorem reserved_start (config : Config) (p : Plan) : (p.start config).reserved = 0 :=
  (p.accounts config (.inr fun _ => trivial) : (p.operator config).Accounts fun _ => True).start

theorem close_accounted {s : State} (h : session.Accounted M limit base s.reserved) :
    (session.close s).Accounted M limit base 0 :=
  h.release (Nat.zero_add _).symm

/-- A run closes its state, however it ends. -/
theorem pullAll_accounted (config : Config) (p : Plan) {s : State} (hM : p.deletes = false ∨ ∀ masks, M masks)
    (h : session.Accounted M limit base s.reserved) (consume : Consumer σ) (rounds : Nat) (stats : Stats) (out : Chunk)
    (consumer : σ) : (p.pullAll config consume rounds stats out s consumer session).session.Accounted M limit base 0 := by
  induction rounds generalizing stats out s consumer session with
  | zero => exact close_accounted h
  | succ rounds ih =>
    have hpull := (p.pull_accounted config hM h out).1
    rw [pullAll]
    generalize p.pull config out s session = pulled at hpull ⊢
    obtain ⟨result, chunk, s', session'⟩ := pulled
    cases result with
    | error e => exact close_accounted hpull
    | ok u =>
      simp only []
      split
      · exact close_accounted hpull
      split
      · exact close_accounted hpull
      split
      · exact close_accounted hpull
      · exact ih hpull _ _ _

theorem run_accounted (config : Config) (p : Plan) (hM : p.deletes = false ∨ ∀ masks, M masks)
    (h : session.Accounted M limit base 0) (consume : Consumer σ) (consumer : σ) :
    (p.run config consume consumer session).session.Accounted M limit base 0 :=
  pullAll_accounted config p hM (by rw [reserved_start]; exact h) consume _ _ _ consumer

end Plan

/-! ### Sequences -/

/-- A plan that was started: its state until it is closed, and what its pulls have given. -/
structure Sequence where
  plan : Plan
  state : Option State
  answers : List (Except Failure Unit × Chunk)

/-- The bytes that the state of a sequence holds. -/
def Sequence.held (q : Sequence) : Nat := q.state.elim 0 State.reserved

/-- A cell that buffers no rows holds no bytes, unless a pull has crashed. -/
def Sequence.Clean (q : Sequence) : Prop :=
  (∀ a ∈ q.answers, a.1 ≠ .error .crash) → ∀ s, q.state = some s → ∀ c ∈ s.cells, c.progress.buffers = false → c.reserved = 0

/-- Sequences of pulls over one session. -/
structure Sequences where
  session : Session
  started : List Sequence

namespace Sequences

/-- What the states that are not closed hold together. -/
def held (w : Sequences) : Nat := total (w.started.map Sequence.held)

inductive Act where
  | start (p : Plan)
  | pull (i : Nat) (out : Chunk)
  | close (i : Nat)

/-- Carries out an act. What is closed is neither pulled nor closed again. -/
def act (config : Config) (w : Sequences) : Act → Sequences
  | .start p => { w with started := w.started ++ [⟨p, some (p.start config), []⟩] }
  | .pull i out =>
    match w.started[i]? with
    | some ⟨p, some s, answers⟩ =>
      let pulled := p.pull config out s w.session
      ⟨pulled.session, w.started.set i ⟨p, some pulled.state, answers ++ [(pulled.result, pulled.chunk)]⟩⟩
    | _ => w
  | .close i =>
    match w.started[i]? with
    | some ⟨p, some s, answers⟩ => ⟨w.session.close s, w.started.set i ⟨p, none, answers⟩⟩
    | _ => w

def run (config : Config) (w : Sequences) (acts : List Act) : Sequences := acts.foldl (act config) w

theorem held_of_closed {w : Sequences} (h : ∀ q ∈ w.started, q.state = none) : w.held = 0 := by
  obtain ⟨session, started⟩ := w
  have hnone : started.map Sequence.held = started.map fun _ => 0 :=
    List.map_congr_left fun q hq => by rw [Sequence.held, h q hq, Option.elim_none]
  rw [held, hnone]
  clear h hnone
  induction started with
  | nil => rfl
  | cons q started ih => exact (Nat.zero_add _).trans ih

/-- What an act may do. -/
theorem act_cases (config : Config) (w : Sequences) (a : Act) :
    (∃ p, a = .start p ∧ w.act config a = { w with started := w.started ++ [⟨p, some (p.start config), []⟩] }) ∨
    (∃ i out p s answers, w.started[i]? = some ⟨p, some s, answers⟩ ∧
      w.act config a = ⟨(p.pull config out s w.session).session, w.started.set i ⟨p, some (p.pull config out s w.session).state,
        answers ++ [((p.pull config out s w.session).result, (p.pull config out s w.session).chunk)]⟩⟩) ∨
    (∃ i p s answers, w.started[i]? = some ⟨p, some s, answers⟩ ∧
      w.act config a = ⟨w.session.close s, w.started.set i ⟨p, none, answers⟩⟩) ∨
    w.act config a = w := by
  cases a with
  | start p => exact .inl ⟨p, rfl, rfl⟩
  | pull i out =>
    rw [act]
    split
    · rename_i p s answers hq
      exact .inr (.inl ⟨i, out, p, s, answers, hq, rfl⟩)
    · exact .inr (.inr (.inr rfl))
  | close i =>
    rw [act]
    split
    · rename_i p s answers hq
      exact .inr (.inr (.inl ⟨i, p, s, answers, hq, rfl⟩))
    · exact .inr (.inr (.inr rfl))

/-- One sequence and the others. -/
theorem total_map_set {l : List Sequence} {i : Nat} {q : Sequence} (h : l[i]? = some q) :
    ∃ others, total (l.map Sequence.held) = others + q.held ∧
      ∀ q' : Sequence, total ((l.set i q').map Sequence.held) = others + q'.held := by
  induction l generalizing i with
  | nil => cases h
  | cons r l ih =>
    cases i with
    | zero =>
      cases h
      exact ⟨total (l.map Sequence.held), Nat.add_comm .., fun _ => Nat.add_comm ..⟩
    | succ i =>
      obtain ⟨others, hall, hset⟩ := ih h
      refine ⟨r.held + others, ?_, fun q' => ?_⟩
      · rw [List.map_cons, total_cons, hall, Nat.add_assoc]
      · rw [List.set_cons_succ, List.map_cons, total_cons, hset, Nat.add_assoc]

theorem total_map_concat (l : List Sequence) (q : Sequence) :
    total ((l ++ [q]).map Sequence.held) = total (l.map Sequence.held) + q.held := by
  rw [List.map_append, total_append]
  rfl

/-! ### The books -/

variable {M : List (Nat × Mask) → Prop} {limit base : Nat} {config : Config} {w : Sequences}

/-- The books of a session and of what was started in it. -/
structure Balanced (M : List (Nat × Mask) → Prop) (limit base : Nat) (w : Sequences) : Prop where
  books : w.session.Accounted M limit base w.held
  plans : ∀ q ∈ w.started, q.plan.deletes = false ∨ ∀ masks, M masks
  clean : ∀ q ∈ w.started, q.Clean

theorem le_total_of_mem {n : Nat} {ns : List Nat} (h : n ∈ ns) : n ≤ total ns := by
  induction ns with
  | nil => cases h
  | cons m ns ih =>
    rcases List.mem_cons.mp h with rfl | h
    · exact Nat.le_add_right ..
    · exact Nat.le_add_left_of_le (ih h)

theorem clean_start (config : Config) (p : Plan) : Sequence.Clean ⟨p, some (p.start config), []⟩ := by
  intro _ s hs c hc _
  cases hs
  have hle := le_total_of_mem (List.mem_map_of_mem (f := Cell.reserved) hc)
  exact Nat.eq_zero_of_le_zero (p.reserved_start config ▸ hle)

theorem clean_pulled {q : Sequence} {s s' : State} {result : Except Failure Unit} {chunk : Chunk} (hq : q.Clean)
    (hs : q.state = some s) (hkept : result ≠ .error .crash → List.Forall₂ Cell.Kept s.cells s'.cells) :
    Sequence.Clean ⟨q.plan, some s', q.answers ++ [(result, chunk)]⟩ := by
  intro hnocrash s'' hs' c' hc' hnone
  cases hs'
  obtain ⟨c, hc, hcell⟩ := exists_of_mem_right (hkept (hnocrash _ (List.mem_append_right _ (List.mem_singleton_self _)))) hc'
  have hbefore : c.progress.buffers = false :=
    Bool.eq_false_iff.mpr fun hsome => Bool.false_ne_true (hnone.symm.trans (hcell.buffered hsome).1)
  rw [hcell.unbuffered hnone]
  exact hq (fun a ha => hnocrash a (List.mem_append_left _ ha)) s hs c hc hbefore

/-- What the other states hold is in use elsewhere for one of them. -/
theorem Balanced.own (h : w.Balanced M limit base) {i : Nat} {q : Sequence} {s : State} (hq : w.started[i]? = some q)
    (hs : q.state = some s) : ∃ others, w.session.Accounted M limit (base + others) s.reserved ∧
      ∀ (session : Session) (q' : Sequence), session.Accounted M limit (base + others) q'.held →
        session.Accounted M limit base (held ⟨session, w.started.set i q'⟩) := by
  obtain ⟨others, hall, hset⟩ := total_map_set hq
  have hown : q.held = s.reserved := by rw [Sequence.held, hs, Option.elim_some]
  refine ⟨others, h.books.shift ?_, fun session q' hsession => hsession.shift ?_⟩
  · rw [held, hall, hown, Nat.add_assoc]
  · rw [held, hset, Nat.add_assoc]

/-- An act keeps the books, whether its pull succeeds or fails. -/
theorem Balanced.act (h : w.Balanced M limit base) (a : Act) (hplan : ∀ p, a = .start p → p.deletes = false ∨ ∀ masks, M masks) :
    (w.act config a).Balanced M limit base := by
  have hset {i : Nat} {q : Sequence} {session : Session}
      (hbooks : session.Accounted M limit base (held ⟨session, w.started.set i q⟩))
      (hplan : q.plan.deletes = false ∨ ∀ masks, M masks) (hclean : q.Clean) :
      Balanced M limit base ⟨session, w.started.set i q⟩ := by
    refine ⟨hbooks, fun r hr => ?_, fun r hr => ?_⟩
    · rcases List.mem_or_eq_of_mem_set hr with hr | rfl
      · exact h.plans r hr
      · exact hplan
    · rcases List.mem_or_eq_of_mem_set hr with hr | rfl
      · exact h.clean r hr
      · exact hclean
  rcases act_cases config w a with ⟨p, ha, hact⟩ | ⟨i, out, p, s, answers, hq, hact⟩ | ⟨i, p, s, answers, hq, hact⟩ | hact
  · rw [hact]
    refine ⟨h.books.shift ?_, ?_, ?_⟩
    · have hnone : Sequence.held ⟨p, some (p.start config), []⟩ = 0 := p.reserved_start config
      show base + w.held = base + total ((w.started ++ [_]).map Sequence.held)
      rw [total_map_concat, hnone, Nat.add_zero]
      rfl
    · exact List.forall_mem_append.mpr ⟨h.plans, List.forall_mem_singleton.mpr (hplan p ha)⟩
    · exact List.forall_mem_append.mpr ⟨h.clean, List.forall_mem_singleton.mpr (clean_start config p)⟩
  · rw [hact]
    have hmem := List.mem_of_getElem? hq
    have hfree : p.deletes = false ∨ ∀ masks, M masks := h.plans _ hmem
    obtain ⟨others, hown, hall⟩ := h.own hq rfl
    obtain ⟨hbooks, hkept⟩ := p.pull_accounted config hfree hown out
    exact hset (hall _ _ hbooks) hfree (clean_pulled (h.clean _ hmem) rfl hkept)
  · rw [hact]
    have hmem := List.mem_of_getElem? hq
    have hfree : p.deletes = false ∨ ∀ masks, M masks := h.plans _ hmem
    obtain ⟨others, hown, hall⟩ := h.own hq rfl
    exact hset (hall _ _ (Plan.close_accounted hown)) hfree fun _ s hs => nomatch hs
  · rw [hact]
    exact h

theorem Balanced.run (h : w.Balanced M limit base) (acts : List Act)
    (hplans : ∀ p, .start p ∈ acts → p.deletes = false ∨ ∀ masks, M masks) : (w.run config acts).Balanced M limit base := by
  induction acts generalizing w with
  | nil => exact h
  | cons a acts ih =>
    refine ih (h.act a fun p ha => hplans p ?_) fun p hp => hplans p (List.mem_cons_of_mem a hp)
    rw [ha]
    exact List.mem_cons_self ..

theorem balanced_begin (session : Session) (hM : M session.masks) :
    Balanced M session.pool.limit session.pool.used ⟨session, []⟩ :=
  ⟨⟨rfl, rfl, hM⟩, nofun, nofun⟩

/-- Whatever plans are started, pulled and closed over a session and however the pulls end:
what is in use is what was in use at the start and what the states hold. A pull that does
not crash leaves every cell with the bytes for what it had buffered, and a cell that could
not buffer its input with none. When all states are closed what is in use is what it was at
the start, and so it is after a run, whatever its end. -/
theorem run_balanced (config : Config) (session : Session) (acts : List Act) :
    let w := run config ⟨session, []⟩ acts
    w.session.pool.used = session.pool.used + w.held ∧
      (∀ q ∈ w.started, q.Clean ∧ ∀ s, q.state = some s → ∀ out,
        (q.plan.pull config out s w.session).result ≠ .error .crash →
          List.Forall₂ Cell.Kept s.cells (q.plan.pull config out s w.session).state.cells) ∧
      ((∀ q ∈ w.started, q.state = none) → w.session.pool.used = session.pool.used) ∧
      (∀ (σ : Type) (p : Plan) (consume : Plan.Consumer σ) (consumer : σ),
        (p.run config consume consumer w.session).session.pool.used = w.session.pool.used) ∧
      ∀ tables query, (Context.execute ⟨config, tables⟩ query w.session).2.pool.used = w.session.pool.used := by
  intro w
  have hall : w.Balanced (fun _ => True) session.pool.limit session.pool.used :=
    (balanced_begin session trivial).run acts fun _ _ => .inr fun _ => trivial
  have hused := hall.books.used_eq
  have hrun (σ : Type) (p : Plan) (consume : Plan.Consumer σ) (consumer : σ) :
      (p.run config consume consumer w.session).session.pool.used = w.session.pool.used :=
    (p.run_accounted config (.inr fun _ => trivial) ⟨rfl, (Nat.add_zero _).symm, trivial⟩ consume consumer :
      Session.Accounted (fun _ => True) w.session.pool.limit w.session.pool.used 0 _).used_eq
  refine ⟨hused, fun q hq => ⟨hall.clean q hq, fun s hs out => ?_⟩, fun hclosed => ?_, hrun, fun tables query => ?_⟩
  · obtain ⟨i, hi⟩ := List.mem_iff_getElem?.mp hq
    obtain ⟨others, hown, -⟩ := hall.own hi hs
    exact (q.plan.pull_accounted config (.inr fun _ => trivial) hown out).2
  · rw [hused, held_of_closed hclosed, Nat.add_zero]
  · unfold Context.execute
    cases query.compile with
    | error e => rfl
    | ok p => exact hrun _ p _ _

end Sequences

end QueryEngine
