import QueryEngine.Proofs.Pull.Feeds
import QueryEngine.Proofs.Pull.Held
import QueryEngine.Proofs.Pull.Sure

/-! Reading an input to its end, or not.

An input that only wants for bytes is read to its end unless bytes are refused, as long as
its rows can be counted (`fails_drainOwn`). An input breaks off when no pull comes to its
end (`Operator.Breaks`): every pull that succeeds hands out rows and leaves the input as
broken as it was. What reads such an input to its end never succeeds. -/
namespace QueryEngine

/-- From the cells, and from those that pulls leave, a pull that succeeds hands out rows: the
end is not reached. -/
def Operator.Breaks (op : Operator) (sees : List (Nat × Mask) → Prop) (cells : List Cell) : Prop :=
  ∃ J : List Cell → Prop, J cells ∧ ∀ f, J f.cells → sees f.session.masks → ∀ g, op.pull f = .ok () g →
    g.out.isEmpty = false ∧ J g.cells ∧ sees g.session.masks

namespace Operator
variable {input : Operator} {sees : List (Nat × Mask) → Prop} {f : Frame} {given before : List Row}
  {collected : Collection}

/-! ### Inputs that only want for bytes -/

theorem fails_drainInto (rounds : Nat) (h : Gives ⟨0, False, True, sees⟩ input input given f.below)
    (hfeeds : input.Feeds sees f.below) (hs : sees f.session.masks) (hrounds : input.rowsBelow f.below < rounds)
    (hc : collected.Holds input.types before) (hle : (before ++ given).length ≤ maxCount) :
    Pull.Fails (input.drainInto rounds collected) f fun e _ => e.Refused := by
  induction rounds generalizing f given before collected with
  | zero => cases hrounds
  | succ rounds ih =>
    have hbelow (g : Frame) : (Frame.afterInput f g).below = g.cells := rfl
    obtain ⟨hrefused, hleft⟩ := hfeeds.read hs input.name Chunk.fresh hbelow
    have hread : Pull.Agree (Pull.inInput input.name Chunk.fresh Frame.afterInput input.pull)
        (Pull.inInput input.name Chunk.fresh Frame.afterInput input.pull) f fun chunk g =>
          chunk.Sound ∧ chunk.types = input.types ∧ sees g.session.masks ∧
            ∃ rest, Gives ⟨0, False, True, sees⟩ input input rest g.below ∧ given = chunk.rows ++ rest :=
      h.read hs _ _ fun g hg => by
        obtain ⟨rest, hrest, htold⟩ := hg.left
        exact ⟨hg.handed.sound, hg.handed.typed, hg.sees, rest, hrest, (htold trivial).1⟩
    rw [drainInto]
    refine hrefused.bind fun chunk g hg => ?_
    obtain ⟨hsound, htyped, hsees, rest, hrest, rfl⟩ := hread.2 chunk g hg
    obtain ⟨hfeeds', hfewer⟩ := hleft chunk g hg
    refine .ite (fun _ => .pure) fun he => ?_
    have hrow := Chunk.count_pos he
    have hcounted : collected.count + chunk.count ≤ maxCount := by
      rw [List.length_append, List.length_append, hsound.length_rows] at hle
      rw [hc.counted]
      omega
    obtain ⟨more, bytes, happend, -⟩ := hc.append_ok hsound htyped hcounted
    rw [happend]
    refine .step (a := (more, bytes)) rfl ((Pull.Fails.reserve bytes fun e he => he).bind fun _ k hk => ?_)
    obtain ⟨held, pool, rfl⟩ := (Pull.Agree.reserve bytes).2 _ k hk
    have hrounds' : input.rowsBelow g.below < rounds := by omega
    refine ih hrest hfeeds' hsees hrounds' (hc.append hsound htyped happend) ?_
    rw [List.append_assoc]
    exact hle

/-- All rows of an input that can be counted are read, unless bytes are refused. -/
theorem fails_drainOwn (name : String) (h : Gives ⟨0, False, True, sees⟩ input input given f.below)
    (hfeeds : input.Feeds sees f.below) (hs : sees f.session.masks) (hle : given.length ≤ maxCount) :
    Pull.Fails (drainOwn name input) f fun e _ => e.Refused := by
  unfold drainOwn
  refine .step rfl (.ite (fun he => absurd (List.isEmpty_iff.mp he) hfeeds.started) fun _ => .step rfl ?_)
  exact fails_drainInto _ h hfeeds hs (Nat.lt_succ_self _) (Collection.holds_ofTypes _) hle

/-! ### Inputs that break off -/

/-- A pull of the first input, whatever chunk it fills and however it goes on. -/
theorem Breaks.read {after : Frame → Frame → Frame} (h : input.Breaks sees f.below) (hs : sees f.session.masks)
    (name : String) (out : Chunk)
    (hafter : ∀ g, (after f g).below = g.cells ∧ (after f g).session = g.session) :
    Pull.Agree (Pull.inInput name out after input.pull) (Pull.inInput name out after input.pull) f fun chunk g =>
      chunk.isEmpty = false ∧ input.Breaks sees g.below ∧ sees g.session.masks := by
  obtain ⟨J, hJ, hpulls⟩ := h
  refine Pull.Agree.inInput fun below hin => Pull.Agree.of_ok fun _ g hg => ?_
  unfold Frame.input? at hin
  split at hin
  · cases hin
  · rename_i cell rest hbelow
    cases hin
    rw [hbelow] at hJ
    obtain ⟨hrows, hJ', hsees⟩ := hpulls ⟨cell, rest, f.session, out⟩ hJ hs g hg
    rw [(hafter g).1, (hafter g).2]
    exact ⟨hrows, ⟨J, hJ', hpulls⟩, hsees⟩

theorem Breaks.drainInto (rounds : Nat) (h : input.Breaks sees f.below) (hs : sees f.session.masks) :
    Pull.Agree (input.drainInto rounds collected) (input.drainInto rounds collected) f fun _ _ => False := by
  induction rounds generalizing f collected with
  | zero => exact .throw
  | succ rounds ih =>
    rw [Operator.drainInto]
    refine (h.read hs _ _ fun _ => ⟨rfl, rfl⟩).bind fun chunk g hg => ?_
    obtain ⟨hrows, hbreaks, hsees⟩ := hg
    refine .ite (fun he => ?_) fun _ => .lift_bind fun next _ => (Pull.Agree.reserve next.2).bind fun _ k hk => ?_
    · cases hrows.symm.trans he
    · obtain ⟨held, pool, rfl⟩ := hk
      exact ih hbreaks hsees

/-- An input that breaks off is not read to its end. -/
theorem Breaks.drainOwn (name : String) (h : input.Breaks sees f.below) (hs : sees f.session.masks) :
    Pull.Agree (Operator.drainOwn name input) (Operator.drainOwn name input) f fun _ _ => False := by
  unfold Operator.drainOwn
  exact .step rfl (.ite (fun _ => Pull.Agree.bind (Q := fun _ _ => False) .fail fun _ _ h => h.elim) fun _ =>
    .step rfl (h.drainInto _ hs))

/-! ### First pulls -/

variable {config : Config} {op : Operator} {keep : Option Output → Progress} {compute : Pull Output}
  {next : Progress → Pull Unit} {s : State}

/-- A first pull that succeeds has computed an output. -/
theorem Blocking.computed_of_ok (hop : Blocking config op input keep compute next) (hp : s.cell.progress = keep none)
    (hf : s.cell.finished = false) {session : Session} {out : Chunk} {g : Frame} {Q : Output → Frame → Prop}
    (hcompute : Pull.Agree compute compute ⟨s.cell, s.below, session, Chunk.blank op.types config.capacity⟩ Q)
    (hg : op.pull ⟨s.cell, s.below, session, out⟩ = .ok () g) : ∃ o k, Q o k := by
  obtain ⟨o, k, hbuffered, -⟩ := hop.first_sameBooks hp hf hg
  have hQ : Pull.Agree (Pull.buffering compute) (Pull.buffering compute)
      ⟨s.cell, s.below, session, Chunk.blank op.types config.capacity⟩ fun o _ => ∃ k, Q o k :=
    .buffering (hcompute.mono fun _ k hk => ⟨k, hk⟩)
  exact ⟨o, hQ.2 o k hbuffered⟩

end Operator
end QueryEngine
