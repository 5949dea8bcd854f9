import QueryEngine.Proofs.Group.Charged
import QueryEngine.Proofs.Pull.Accounted

/-! The bytes of a grouping, from the first pull to the end of its state.

Over an input that neither takes bytes nor holds any, what is in use while the groups are made
is what was in use before and what the cell holds (`Billed`). So a first pull that fails leaves
in use what was in use before, and one that succeeds has come to the bytes of all keys. Nothing
that follows takes bytes or gives any back: the state holds them until it is closed
(`Reserves`). -/
namespace QueryEngine

/-- A pool that has granted bytes knows of them in its peak. -/
theorem Pool.reserve_peak {p q : Pool} {bytes : Nat} (h : p.reserve bytes = .ok q) : q.peak = max p.peak q.used := by
  unfold reserve at h
  split at h
  · cases h
    rfl
  · cases h

namespace Operator
open QueryEngine.Group (Evaluates Overflowing countKeys)
variable {sees : List (Nat × Mask) → Prop} {config : Config} {op input : Operator} {before : Pool} {session : Session}
  {out : Chunk} {f g : Frame}

/-! ### The bill -/

/-- What is in use is what was in use before and what the cell holds. The input holds nothing. -/
structure Billed (sees : List (Nat × Mask) → Prop) (input : Operator) (before : Pool) (f : Frame) : Prop where
  used : f.session.pool.used = before.used + f.cell.reserved
  peak : f.session.pool.used ≤ f.session.pool.peak
  masks : sees f.session.masks
  gives : ∃ given, Gives ⟨0, False, True, sees⟩ input input given f.below
  feeds : input.Feeds sees f.below
  thrifty : input.Thrifty sees (State.reservedBy · = 0) f.below

theorem Thrifty.held {H : List Cell → Prop} {cells : List Cell} (h : input.Thrifty sees H cells) : H cells :=
  have ⟨_, hJ, hH, _⟩ := h
  hH cells hJ

/-- An operator that keeps the books and takes no bytes holds none. -/
theorem Frugal.thrifty_of_accounts (h : op.Frugal) (haccounts : op.Accounts fun _ => True) :
    op.Thrifty sees (State.reservedBy · = 0) op.start.cells := by
  refine ⟨(State.reservedBy · = 0), haccounts.start, fun _ hheld => hheld, fun f hheld _ => ⟨fun a g hg => ?_, (h f).2⟩⟩
  have hpool : g.session.pool = f.session.pool := (h f).1 a g hg
  have hbooks : f.session.Accounted (fun _ => True) f.session.pool.limit f.session.pool.used (State.reservedBy f.cells) :=
    ⟨rfl, by rw [hheld, Nat.add_zero], trivial⟩
  have hused := ((haccounts.pull _ _ _ f ⟨hbooks, List.forall₂_same.mpr fun c _ => .refl c⟩).1 a g hg).1.used_eq
  rw [hpool] at hused
  exact ⟨by omega, hpool⟩

theorem preserves_fetch_billed : Pull.Preserves input.fetch (.always (Billed sees input before)) := by
  intro f (hf : Billed sees input before f)
  obtain ⟨given, hgives⟩ := hf.gives
  have hthrifty := hf.thrifty.fetch hf.masks
  have hfeeds := hf.feeds.fetch hf.masks
  refine ⟨fun chunk g hg => ?_, fun e g hg => absurd (hfeeds.1 e g hg) (hthrifty.2 e g hg)⟩
  obtain ⟨hnext, hpool, hreserved⟩ := hthrifty.1 chunk g hg
  have hfetched := (hgives.fetch hf.masks).2 chunk g hg
  obtain ⟨rest, hrest, -⟩ := hfetched.left
  exact ⟨by rw [hpool, hreserved]; exact hf.used, by rw [hpool]; exact hf.peak, hfetched.sees, ⟨rest, hrest⟩,
    (hfeeds.2 chunk g hg).1, hnext⟩

theorem preserves_reserve_billed (bytes : Nat) : Pull.Preserves (Pull.reserve bytes) (.always (Billed sees input before)) := by
  intro f (hf : Billed sees input before f)
  refine ⟨fun _ g hg => ?_, .reserve bytes fun _ _ => hf⟩
  rw [Pull.Elastic.run_reserve] at hg
  split at hg
  · rename_i pool hpool
    cases hg
    refine ⟨?_, ?_, hf.masks, hf.gives, hf.feeds, hf.thrifty⟩
    · rw [Pool.reserve_used hpool, hf.used, Nat.add_assoc]
    · exact Pool.reserve_peak hpool ▸ Nat.le_max_right _ _
  · cases hg

theorem billed_groupInput {keys : List Expr} {keyTypes : List SqlType} {calls : List AggregateCall} {rows : List Row}
    (hpeak : session.pool.used ≤ session.pool.peak) (h : input.Streams sees rows)
    (hfeeds : input.Feeds sees input.start.cells)
    (hthrifty : input.Thrifty sees (State.reservedBy · = 0) input.start.cells) (hs : sees session.masks) :
    Pull.Leaves (groupInput keys keyTypes calls input) ⟨Cell.start (.aggregate none), input.start.cells, session, out⟩
      (Billed sees input session.pool) fun _ => Billed sees input session.pool :=
  preserves_groupInput preserves_reserve_billed preserves_fetch_billed keys keyTypes calls _
    ⟨rfl, hpeak, hs, ⟨rows, h⟩, hfeeds, hthrifty⟩

/-! ### The first pull -/

/-- A state that holds so many bytes beside what was in use before: they stay in use whatever is
pulled from it, and closing it gives them back. -/
structure Reserves (op : Operator) (sees : List (Nat × Mask) → Prop) (before : Pool) (bytes : Nat) (g : Frame) : Prop where
  used : g.session.pool.used = before.used + bytes
  peak : before.used + bytes ≤ g.session.pool.peak
  stays : ∀ chunks s, op.Pulls sees ⟨g.cell, g.below⟩ chunks s →
    ∀ session out, ∃ g', op.pull ⟨s.cell, s.below, session, out⟩ = .ok () g' ∧ g'.session = session
  returns : ∀ chunks s, op.Pulls sees ⟨g.cell, g.below⟩ chunks s →
    s.reserved = bytes ∧ (g.session.close s).pool.used = before.used

section
variable {keys : List Expr} {keyTypes : List SqlType} {calls : List AggregateCall} {rows : List Row}
  (hkeys : keys.mapM (Expr.resolve input.types) = .ok keyTypes) (hcalls : ∀ c ∈ calls, c.Resolved input.types)
  (h : input.Streams sees rows) (hfeeds : input.Feeds sees input.start.cells)
  (hthrifty : input.Thrifty sees (State.reservedBy · = 0) input.start.cells)
  (hvalues : ∀ row ∈ rows, Evaluates keys calls row) (hs : sees session.masks)
include hkeys hcalls h hfeeds hthrifty hvalues hs

/-- A first pull that fails leaves in use what was in use before. It was refused bytes, or a sum
left its range. -/
theorem first_aggregate_restores (hpeak : session.pool.used ≤ session.pool.peak) {e : Failure}
    (hg : (aggregate config keys keyTypes calls input).first session out = .error e g) :
    g.session.pool.used = session.pool.used ∧
      (e.Refused ∨ e = .error (.execution .sumOverflow) ∧ Overflowing keys calls rows) := by
  have hop := blocking_aggregate config keys keyTypes calls input
  let fresh : Frame := ⟨Cell.start (.aggregate none), input.start.cells, session,
    Chunk.blank (keyTypes ++ calls.map AggregateCall.type) config.capacity⟩
  have hbilled : Pull.Leaves (groupInput keys keyTypes calls input) fresh (Billed sees input session.pool)
      fun _ => Billed sees input session.pool := billed_groupInput hpeak h hfeeds hthrifty hs
  obtain ⟨k, hk, rfl⟩ := run_of_buffering_error (f := fresh) rfl
    (hop.first_error (hop.unstarted h) (made_groups hkeys hcalls) hs hg)
  have hleft : Billed sees input session.pool k := hbilled.2 e k hk
  refine ⟨?_, Classical.or_iff_not_imp_left.mpr fun hroom => ?_⟩
  · show k.session.pool.used - k.cell.reserved = session.pool.used
    rw [hleft.used, Nat.add_sub_cancel]
  · exact first_aggregate_error hkeys hcalls h hfeeds hvalues (made_groups hkeys hcalls) hs hg hroom

/-- What a first pull takes that succeeds, its state holds until it is closed. -/
theorem first_aggregate_reserves (hpeak : session.pool.used ≤ session.pool.peak)
    (hg : (aggregate config keys keyTypes calls input).first session out = .ok () g) :
    (aggregate config keys keyTypes calls input).Reserves sees session.pool
      (groupBytes keys.length calls.length * countKeys keys rows) g := by
  have hop := blocking_aggregate config keys keyTypes calls input
  let fresh : Frame := ⟨Cell.start (.aggregate none), input.start.cells, session,
    Chunk.blank (keyTypes ++ calls.map AggregateCall.type) config.capacity⟩
  have hbilled : Pull.Leaves (groupInput keys keyTypes calls input) fresh (Billed sees input session.pool)
      fun _ => Billed sees input session.pool := billed_groupInput hpeak h hfeeds hthrifty hs
  have hpays : Pull.Leaves (groupInput keys keyTypes calls input) fresh (Paid session.pool keys calls rows)
      fun e _ => Wanting session.pool keys calls rows e := pays_groupInput (f := fresh) hkeys hcalls hthrifty h hs hvalues
  obtain ⟨o, k, hbuffered, hbooks⟩ :=
    hop.first_sameBooks (s := (aggregate config keys keyTypes calls input).start) rfl rfl hg
  have hmade : groupInput keys keyTypes calls input fresh = .ok o k := run_of_buffering_ok rfl hbuffered
  have hleft : Billed sees input session.pool k := hbilled.1 o k hmade
  have hpaid : Paid session.pool keys calls rows k := hpays.1 o k hmade
  have hheld : State.reserved ⟨g.cell, g.below⟩ = groupBytes keys.length calls.length * countKeys keys rows := by
    refine hbooks.held.trans ?_
    show k.cell.reserved + State.reservedBy k.below = _
    have hbelow : State.reservedBy k.below = 0 := hleft.thrifty.held
    have hused := hleft.used.symm.trans hpaid.used
    omega
  have hused : g.session.pool.used = session.pool.used + groupBytes keys.length calls.length * countKeys keys rows := by
    rw [hbooks.session]
    exact hpaid.used
  obtain ⟨all, t, later, -, hserving, -, hpull⟩ := hop.first (hop.unstarted h) (made_groups hkeys hcalls) hs hg
  obtain ⟨g', hg', -, -, hserving⟩ := hop.pull_serving hserving later out
  cases hg'.symm.trans hpull
  refine ⟨hused, ?_, fun chunks s hrun next spare => ?_, fun chunks s hrun => ?_⟩
  · rw [← hused, hbooks.session]
    exact hleft.peak
  · obtain ⟨k', hk', -⟩ := hop.pull_serving (hop.serving hserving hrun).1 next spare
    exact ⟨k', hk', (hop.pull_sameBooks (hop.serving hserving hrun).1 hk').session⟩
  · have hlast : s.reserved = groupBytes keys.length calls.length * countKeys keys rows :=
      (hop.reserved_serving hserving hrun).trans hheld
    refine ⟨hlast, ?_⟩
    show g.session.pool.used - s.reserved = session.pool.used
    rw [hlast, hused, Nat.add_sub_cancel]

end

/-- A grouping takes so many bytes for each key that the rows of its input have, in whatever
order and chunks they come, and for nothing else. -/
theorem aggregate_reserves_groups (config : Config) (session : Session) (out : Chunk) {keys exprs : List Expr}
    {keyTypes : List SqlType} {calls : List AggregateCall} {rows : List Row}
    (hkeys : keys.mapM (Expr.resolve input.types) = .ok keyTypes)
    (hcalls : exprs.mapM (AggregateCall.ofExpr input.types) = .ok calls) (h : input.Streams sees rows)
    (hfeeds : input.Feeds sees input.start.cells)
    (hthrifty : input.Thrifty sees (State.reservedBy · = 0) input.start.cells)
    (hvalues : ∀ row ∈ rows, Evaluates keys calls row) (hs : sees session.masks)
    (hpeak : session.pool.used ≤ session.pool.peak) :
    let op := aggregate config keys keyTypes calls input
    let bytes := countKeys keys rows * (24 * (keys.length + 1) + 56 * calls.length)
    ((∀ g, op.first session out ≠ .error (.error (.execution .sumOverflow)) g) →
      ((∃ want g, op.first session out = .error (.error (.resourceExhausted want)) g) ↔
        session.pool.limit - session.pool.used < bytes)) ∧
    (∀ e g, op.first session out = .error e g → g.session.pool.used = session.pool.used ∧
      (e.Refused ∨ e = .error (.execution .sumOverflow) ∧ Overflowing keys calls rows)) ∧
    ∀ g, op.first session out = .ok () g → op.Reserves sees session.pool bytes g := by
  intro op bytes
  have hresolved := AggregateCall.resolved_of_mapM hcalls
  have hbytes : bytes = groupBytes keys.length calls.length * countKeys keys rows := Nat.mul_comm _ _
  have hlacks : session.pool.Lacks (groupBytes keys.length calls.length) (countKeys keys rows) ↔
      session.pool.limit - session.pool.used < bytes := by
    rw [hbytes]
    exact Pool.lacks_iff (Nat.add_pos_left (Nat.mul_pos (by decide) (Nat.succ_pos _)) _)
  have hrestores (e : Failure) (g : Frame) (hg : op.first session out = .error e g) :=
    first_aggregate_restores hkeys hresolved h hfeeds hthrifty hvalues hs hpeak hg
  refine ⟨fun hsum => ⟨?_, fun hexceeds => ?_⟩, hrestores, fun g hg => ?_⟩
  · rintro ⟨want, g, hg⟩
    exact hlacks.mp ((first_aggregate_room hkeys hresolved hthrifty h hvalues hs).2 _ g hg trivial)
  · cases hfirst : op.first session out with
    | ok a g => exact absurd (hlacks.mpr hexceeds) ((first_aggregate_room hkeys hresolved hthrifty h hvalues hs).1 g hfirst)
    | error e g =>
      rcases (hrestores e g hfirst).2 with hrefused | ⟨rfl, -⟩
      · obtain ⟨want, rfl⟩ := hrefused.resourceExhausted
        exact ⟨want, g, rfl⟩
      · exact absurd hfirst (hsum g)
  · rw [hbytes]
    exact first_aggregate_reserves hkeys hresolved h hfeeds hthrifty hvalues hs hpeak hg

/-- Two keys in two chunks want 208 bytes beside the 50 in use: of 258 they are granted, of 257
the second is refused. -/
theorem aggregate_reserves_groups_boundary :
    let config : Config := ⟨2, none, true⟩
    let keys : List Expr := [.column 0 .bigInt]
    let first : Chunk := ⟨[.ofInts [2, 9, 1]], some [0, 2], 2, 3⟩
    let second : Chunk := ⟨[.ofInts [1, 2]], none, 2, 2⟩
    let input := source config [.bigInt] [first, second]
    ∃ calls, [Expr.aggregate .countStar []].mapM (AggregateCall.ofExpr input.types) = .ok calls ∧
      (∃ want g, (aggregate config keys [.bigInt] calls input).first ⟨⟨257, 50, 60⟩, []⟩ Chunk.fresh =
        .error (.error (.resourceExhausted want)) g ∧ g.session.pool.used = 50) ∧
      ∃ g, (aggregate config keys [.bigInt] calls input).first ⟨⟨258, 50, 60⟩, []⟩ Chunk.fresh = .ok () g ∧
        (aggregate config keys [.bigInt] calls input).Reserves (fun _ => True) ⟨258, 50, 60⟩ 208 g := by
  intro config keys first second input
  obtain ⟨calls, hcalls, hlength, hcount, hvalues, htight, hwide⟩ : ∃ calls,
      [Expr.aggregate .countStar []].mapM (AggregateCall.ofExpr input.types) = .ok calls ∧ calls.length = 1 ∧
      countKeys keys ([first, second].flatMap Chunk.rows) = 2 ∧
      (([first, second].flatMap Chunk.rows).all fun row => (keys ++ calls.filterMap AggregateCall.argument).all fun e =>
        (e.onRow row).toOption.isSome) = true ∧
      overflowed ((aggregate config keys [.bigInt] calls input).first ⟨⟨257, 50, 60⟩, []⟩ Chunk.fresh) = false ∧
      overflowed ((aggregate config keys [.bigInt] calls input).first ⟨⟨258, 50, 60⟩, []⟩ Chunk.fresh) = false :=
    ⟨_, rfl, rfl, by decide +kernel, by decide +kernel, by decide +kernel, by decide +kernel⟩
  have hnever {r : EStateM.Result Failure Frame Unit} (h : overflowed r = false) (g : Frame) :
      r ≠ .error (.error (.execution .sumOverflow)) g := by
    rintro rfl
    cases h
  have hsound : ∀ c ∈ [first, second], c.Sound ∧ c.types = [.bigInt] ∧ c.isEmpty = false := by decide
  have hthrifty : input.Thrifty (fun _ => True) (State.reservedBy · = 0) input.start.cells :=
    (source_frugal config fun c hc => (hsound c hc).1).thrifty_of_accounts (accounts_source _ _)
  have hkeys : keys.mapM (Expr.resolve input.types) = .ok [.bigInt] := rfl
  have hpeak : 50 ≤ 60 := by decide
  have hreserves (limit : Nat) := aggregate_reserves_groups config ⟨⟨limit, 50, 60⟩, []⟩ Chunk.fresh hkeys hcalls
    (source_streams config (fun _ => True) hsound) (source_feeds config fun c hc => (hsound c hc).1) hthrifty
    (fun row hrow => Group.evaluates_of_all (List.all_eq_true.mp hvalues row hrow)) trivial hpeak
  simp only [hcount, hlength] at hreserves
  refine ⟨calls, hcalls, ?_, ?_⟩
  · obtain ⟨hroom, hrestores, -⟩ := hreserves 257
    obtain ⟨want, g, hg⟩ := (hroom (hnever htight)).mpr (by decide)
    exact ⟨want, g, hg, (hrestores _ g hg).1⟩
  · obtain ⟨hroom, hrestores, hholds⟩ := hreserves 258
    cases hfirst : (aggregate config keys [.bigInt] calls input).first ⟨⟨258, 50, 60⟩, []⟩ Chunk.fresh with
    | ok a g => exact ⟨g, rfl, hholds g hfirst⟩
    | error e g =>
      rcases (hrestores e g hfirst).2 with hrefused | ⟨rfl, -⟩
      · obtain ⟨want, rfl⟩ := hrefused.resourceExhausted
        exact absurd ((hroom (hnever hwide)).mp ⟨want, g, hfirst⟩) (by decide)
      · exact absurd hfirst (hnever hwide g)

end Operator
end QueryEngine
