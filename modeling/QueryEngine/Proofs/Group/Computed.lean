import QueryEngine.Proofs.Group.HandedOut
import QueryEngine.Proofs.Pull.Draining
import QueryEngine.Proofs.Pull.Preserves

/-! When grouping succeeds.

Where no bytes are refused, the first pull of a grouping succeeds just where the keys and the
arguments have values on every row and no running total of an integer sum leaves its range
(`Group.Computes`), and then the rows of its output are those of the groups. An input that
breaks off is never grouped. -/
namespace QueryEngine

namespace Group

/-- The rows can be grouped: all that is read of them has a value, and no sum leaves its range. -/
structure Computes (keys : List Expr) (calls : List AggregateCall) (rows : List Row) : Prop where
  values : ∀ row ∈ rows, Evaluates keys calls row
  inRange : ¬Overflowing keys calls rows

/-- Every call has a state after the rows of each group. -/
theorem Computes.folded {keys : List Expr} {calls : List AggregateCall} {rows group : List Row}
    (h : Computes keys calls rows) (hcalls : ∀ c ∈ calls, c.argument = none ↔ c.function = .countStar)
    (hgroup : group ∈ split keys rows) : ∃ accumulators, calls.mapM (fun c => c.folded group) = .ok accumulators :=
  folded_of_not_overflows hcalls fun c hc hover => h.inRange ⟨group, hgroup, c, hc, hover⟩

end Group

namespace Operator
open QueryEngine.Group (Computes Evaluates Overflowing RowOf split)
variable {sees : List (Nat × Mask) → Prop} {input : Operator} {keys : List Expr} {keyTypes : List SqlType}
  {calls : List AggregateCall} {rows given : List Row} {f : Frame} {config : Config}

/-! ### What a success tells -/

/-- The columns that grouping reads are there only where they have values on all rows. -/
theorem agree_groupChunk_values {chunk : Chunk} (hc : chunk.Sound) (groups : KeyMap Group) :
    Pull.Agree (groupChunk keys calls groups chunk) (groupChunk keys calls groups chunk) f fun _ g =>
      (∀ row ∈ chunk.rows, Evaluates keys calls row) ∧ Pull.Booked f g := by
  unfold groupChunk
  rw [mapM_lift]
  refine .lift_bind fun keyColumns hkeys => .lift_bind fun arguments harguments => ?_
  refine (agree_groupRows (groupsBy_of_ok hc hkeys harguments) (fun _ hr => hr) groups).mono fun _ g hg => ⟨?_, hg.2⟩
  intro row hrow
  obtain ⟨r, hr, rfl⟩ := List.mem_map.mp hrow
  refine ⟨fun e he => ?_, fun c hmem e harg => ?_⟩
  · obtain ⟨column, _, hcolumn⟩ := mapM_ok_of_mem hkeys he
    exact ⟨_, (Expr.evaluate_rowwise hc hcolumn).value r hr⟩
  · obtain ⟨argument, _, hargument⟩ := mapM_ok_of_mem harguments hmem
    rw [harg] at hargument
    obtain ⟨column, hcolumn, _⟩ := bind_eq_ok.mp hargument
    exact ⟨_, (Expr.evaluate_rowwise hc hcolumn).value r hr⟩

theorem agree_groupChunks_values (rounds : Nat) (groups : KeyMap Group)
    (h : Gives ⟨0, False, True, sees⟩ input input given f.below) (hs : sees f.session.masks) :
    Pull.Agree (groupChunks keys calls input rounds groups) (groupChunks keys calls input rounds groups) f
      fun _ _ => ∀ row ∈ given, Evaluates keys calls row := by
  induction rounds generalizing f groups given with
  | zero => exact .throw
  | succ rounds ih =>
    rw [groupChunks]
    refine (h.fetch hs).bind fun chunk g hg => ?_
    obtain ⟨rest, hrest, htold⟩ := hg.left
    obtain ⟨rfl, hend⟩ := htold trivial
    refine .ite (fun he => .pure ?_) fun _ => ?_
    · rw [hend he, hg.handed.sound.rows_eq_nil_iff.mpr he]
      exact List.forall_mem_nil _
    · refine (agree_groupChunk_values hg.handed.sound groups).bind fun groups' k hgrouped => ?_
      obtain ⟨hvalues, held, pool, hk⟩ := hgrouped
      have hrest' : Gives ⟨0, False, True, sees⟩ input input rest k.below := by rw [hk]; exact hrest
      have hsees' : sees k.session.masks := by rw [hk]; exact hg.sees
      refine (ih groups' hrest' hsees').mono fun _ _ hlater => ?_
      intro row hrow
      rcases List.mem_append.mp hrow with hrow | hrow
      · exact hvalues row hrow
      · exact hlater row hrow

theorem agree_groupInput_values (h : Gives ⟨0, False, True, sees⟩ input input given f.below)
    (hs : sees f.session.masks) :
    Pull.Agree (groupInput keys keyTypes calls input) (groupInput keys keyTypes calls input) f
      fun _ _ => ∀ row ∈ given, Evaluates keys calls row := by
  unfold groupInput
  exact .step rfl ((agree_groupChunks_values _ .empty h hs).bind fun _ _ hvalues =>
    .liftQuery_bind fun _ _ => .pure hvalues)

/-- What a grouping has made tells that its rows can be grouped. -/
def Grouping (keys : List Expr) (keyTypes : List SqlType) (calls : List AggregateCall) (given all : List Row) : Prop :=
  Computes keys calls given ∧ all = groupedRows keys keyTypes calls given ∧
    List.Forall₂ (RowOf keys calls) (split keys given) all

section
variable (hkeys : keys.mapM (Expr.resolve input.types) = .ok keyTypes) (hcalls : ∀ c ∈ calls, c.Resolved input.types)
include hkeys hcalls

theorem made_groups (f : Frame) (given : List Row) (h : Gives ⟨0, False, True, sees⟩ input input given f.below)
    (hs : sees f.session.masks) :
    Pull.Agree (groupInput keys keyTypes calls input) (groupInput keys keyTypes calls input) f
      (Made sees (aggregate config keys keyTypes calls input).types (Grouping keys keyTypes calls) given f) := by
  refine .of_ok fun o g hog => ?_
  have hvalues := (agree_groupInput_values h hs).2 o g hog
  have hg := (agree_groupInput_made keyTypes h hs).2 o g hog
  obtain ⟨groups, cs, hcs, rfl, htold⟩ := hg.made
  obtain ⟨hgroups, htyped⟩ := htold trivial
  obtain ⟨hrange, hrows⟩ := Group.rowOf_toRows hkeys hcalls htyped hvalues hgroups hcs
  exact ⟨hg.sees, hg.out, hg.unfinished, rfl, _, ⟨fun _ => groupColumns_ok hcs, (Column.length_toRows _ _).symm⟩,
    ⟨hvalues, hrange⟩, (groupedRows_of_ok hgroups hcs).symm, hrows⟩

/-- Where no bytes are refused, the first pull succeeds just where the rows can be grouped. -/
theorem first_aggregate_ok_iff (h : input.Streams sees rows) (hfeeds : input.Feeds sees input.start.cells)
    {session : Session} {out : Chunk} (hs : sees session.masks)
    (hroom : ∀ e g, (aggregate config keys keyTypes calls input).first session out = .error e g → ¬e.Refused) :
    (∃ g, (aggregate config keys keyTypes calls input).first session out = .ok () g) ↔ Computes keys calls rows := by
  have hop := blocking_aggregate config keys keyTypes calls input
  refine ⟨fun ⟨g, hg⟩ => ?_, fun hcomputes => ?_⟩
  · obtain ⟨all, _, _, hall, _⟩ := hop.first (hop.unstarted h) (made_groups hkeys hcalls) hs hg
    exact hall.1
  cases hfirst : (aggregate config keys keyTypes calls input).first session out with
  | ok a g => exact ⟨g, rfl⟩
  | error e g =>
    exact absurd (first_aggregate_error hkeys hcalls h hfeeds hcomputes.values (made_groups hkeys hcalls) hs hfirst
      (hroom e g hfirst)).2 hcomputes.inRange

end

/-! ### Inputs that break off -/

theorem Breaks.groupChunks (rounds : Nat) (groups : KeyMap Group) (h : input.Breaks sees f.below)
    (hs : sees f.session.masks) :
    Pull.Agree (Operator.groupChunks keys calls input rounds groups) (Operator.groupChunks keys calls input rounds groups)
      f fun _ _ => False := by
  let J : Pull.Promise := .always fun g => input.Breaks sees g.below ∧ sees g.session.masks
  have hreserve (bytes : Nat) : Pull.Preserves (Pull.reserve bytes) J :=
    .reserve (fun _ g hbooked hg => by obtain ⟨held, pool, rfl⟩ := hbooked; exact hg) bytes
  induction rounds generalizing f groups with
  | zero => exact .throw
  | succ rounds ih =>
    have hread : Pull.Agree input.fetch input.fetch f fun chunk g =>
        chunk.isEmpty = false ∧ input.Breaks sees g.below ∧ sees g.session.masks :=
      .step rfl (h.read hs input.name f.cell.buffer fun _ => ⟨rfl, rfl⟩)
    rw [Operator.groupChunks]
    refine hread.bind fun chunk g hg => .ite (fun he => ?_) fun _ => ?_
    · cases hg.1.symm.trans he
    · have hgrouped := (preserves_groupChunk hreserve keys calls groups chunk g hg.2).1
      exact (Pull.Agree.of_ok hgrouped).bind fun groups' k hk => ih groups' hk.1 hk.2

/-- An input that breaks off is not grouped. -/
theorem Breaks.aggregate_fails (h : input.Breaks sees input.start.cells) {session : Session} {out : Chunk}
    (hs : sees session.masks) :
    ¬∃ g, (aggregate config keys keyTypes calls input).first session out = .ok () g := by
  rintro ⟨g, hg⟩
  have hnever (f : Frame) (hf : input.Breaks sees f.below) (hs : sees f.session.masks) :
      Pull.Agree (groupInput keys keyTypes calls input) (groupInput keys keyTypes calls input) f fun _ _ => False := by
    unfold groupInput
    exact .step rfl ((hf.groupChunks _ .empty hs).bind fun _ _ h => h.elim)
  obtain ⟨_, _, hfalse⟩ := (blocking_aggregate config keys keyTypes calls input).computed_of_ok
    (s := (aggregate config keys keyTypes calls input).start) rfl rfl (hnever _ h hs) hg
  exact hfalse

/-! ### Rows past counting

A grouping keeps no number of the rows it has taken, so it can take more than there are
numbers for. The chunks here have no columns, which leaves their counts free. -/

/-- Rows that leave the groups as they are. -/
theorem groupRows_kept {keyColumns : List Column} {arguments : List (Option Column)} {groups : KeyMap Group} {rs : List Nat}
    (h : ∀ r ∈ rs, groupRow calls keyColumns arguments groups r f = .ok groups f) :
    groupRows calls keyColumns arguments groups rs f = .ok groups f := by
  induction rs with
  | nil => rfl
  | cons r rs ih =>
    rw [groupRows, run_bind, h r (List.mem_cons_self ..)]
    exact ih fun r' hr' => h r' (List.mem_cons_of_mem _ hr')

theorem groupChunks_fetched {rounds : Nat} {groups : KeyMap Group} {chunk : Chunk} {g : Frame}
    (hfetch : input.fetch f = .ok chunk g) :
    groupChunks keys calls input (rounds + 1) groups f = (if chunk.isEmpty then pure groups
      else groupChunk keys calls groups chunk >>= groupChunks keys calls input rounds : Pull (KeyMap Group)) g := by
  rw [groupChunks, run_bind, hfetch]

theorem groupChunks_next {rounds : Nat} {groups groups' : KeyMap Group} {chunk : Chunk} {g k : Frame}
    (hfetch : input.fetch f = .ok chunk g) (hrows : chunk.isEmpty = false)
    (hgroup : groupChunk keys calls groups chunk g = .ok groups' k) :
    groupChunks keys calls input (rounds + 1) groups f = groupChunks keys calls input rounds groups' k := by
  rw [groupChunks_fetched hfetch, hrows, if_neg Bool.false_ne_true, run_bind, hgroup]

theorem groupChunks_end {rounds : Nat} {groups : KeyMap Group} {chunk : Chunk} {g : Frame}
    (hfetch : input.fetch f = .ok chunk g) (hrows : chunk.isEmpty = true) :
    groupChunks keys calls input (rounds + 1) groups f = .ok groups g := by
  rw [groupChunks_fetched hfetch, if_pos hrows]
  rfl

/-- The least of NULLs. -/
def leastNull : AggregateCall := ⟨.min, some (.literal .null), .sqlNull⟩

theorem groupChunk_leastNull (n : Nat) (f : Frame) :
    groupChunk [] [leastNull] (KeyMap.empty.put [] (Group.start [leastNull] [])) ⟨[], none, n, 1⟩ f =
      .ok (KeyMap.empty.put [] (Group.start [leastNull] [])) f := by
  have hget (r : Nat) (hr : r < n) := Column.get_fill (⟨.null, Scalar.fits_type .null⟩ : Slot Scalar.null.type) hr
  show groupRows [leastNull] [] [some (Column.fill n (⟨.null, Scalar.fits_type .null⟩ : Slot Scalar.null.type))]
    (KeyMap.empty.put [] (Group.start [leastNull] [])) (List.range n) f = _
  generalize Column.fill n (⟨.null, Scalar.fits_type .null⟩ : Slot Scalar.null.type) = column at hget
  refine groupRows_kept fun r hr => ?_
  have hadd : (Group.start [leastNull] []).addRow [some column] r = .ok (Group.start [leastNull] []) := by
    simp only [Group.addRow, Group.start, List.map_cons, List.map_nil, List.zip_cons_cons, List.zip_nil_left,
      Group.updateAll, hget r (List.mem_range.mp hr)]
    rfl
  -- the group is there, so the row is added to it and no bytes are asked for
  show (do
    let g ← (liftM ((Group.start [leastNull] []).addRow [some column] r) : Pull Group)
    return (KeyMap.empty.put [] (Group.start [leastNull] [])).put [] g : Pull (KeyMap Group)) f = _
  rw [hadd]
  rfl

theorem first_leastNull (n : Nat) :
    let config : Config := ⟨1, none, false⟩
    let input := source config [] [⟨[], none, 1, 1⟩, ⟨[], none, n + 1, 1⟩]
    ∃ g, (aggregate config [] [] [leastNull] input).first (Session.ofLimit? none) Chunk.fresh = .ok () g := by
  intro config input
  have hop := blocking_aggregate config [] [] [leastNull] input
  let fresh : Frame := ⟨Cell.start (.aggregate none), input.start.cells, Session.ofLimit? none, Chunk.blank [.sqlNull] 1⟩
  let groups : KeyMap Group := KeyMap.empty.put [] (Group.start [leastNull] [])
  obtain ⟨f₁, f₂, f₃, f₄, last, hfirst, hgroup, hsecond, hthird, hlast⟩ : ∃ f₁ f₂ f₃ f₄ last,
      input.fetch fresh = .ok ⟨[], none, 1, 1⟩ f₁ ∧
      groupChunk [] [leastNull] .empty ⟨[], none, 1, 1⟩ f₁ = .ok groups f₂ ∧
      input.fetch f₂ = .ok ⟨[], none, n + 1, 1⟩ f₃ ∧ input.fetch f₃ = .ok last f₄ ∧ last.isEmpty = true :=
    ⟨_, _, _, _, _, rfl, rfl, rfl, rfl, rfl⟩
  have hgrouped : groupChunks [] [leastNull] input (n + 3) .empty fresh = .ok groups f₄ := by
    rw [groupChunks_next hfirst rfl hgroup, groupChunks_next hsecond rfl (groupChunk_leastNull _ _),
      groupChunks_end hthird hlast]
  have hnever : Pull.Fails (groupInput [] [] [leastNull] input) fresh fun _ _ => False := by
    have hrounds : input.rounds fresh = .ok (n + 3) fresh := by
      show EStateM.Result.ok (1 + (n + 1 + 0) + 1) fresh = _
      congr 1
      omega
    exact .step hrounds (.step hgrouped (.liftQuery_bind (fun _ he => by cases he) fun _ _ => .pure))
  have hsound : ∀ c ∈ [(⟨[], none, 1, 1⟩ : Chunk), ⟨[], none, n + 1, 1⟩], c.Sound ∧ c.types = [] ∧ c.isEmpty = false := by
    simp only [List.forall_mem_cons, ← Chunk.verify_eq_ok_iff]
    exact ⟨⟨rfl, rfl, rfl⟩, ⟨rfl, rfl, rfl⟩, List.forall_mem_nil _⟩
  have hcalls : ∀ c ∈ [leastNull], c.Resolved input.types :=
    List.forall_mem_singleton.mpr (AggregateCall.resolved_of_ofExpr (e := .aggregate .min [.literal .null]) rfl)
  cases hpull : (aggregate config [] [] [leastNull] input).first (Session.ofLimit? none) Chunk.fresh with
  | ok a g => exact ⟨g, rfl⟩
  | error e g =>
    have hfalse : False := hop.first_fails (hop.unstarted (source_streams config (fun _ => True) hsound))
      (made_groups rfl hcalls) trivial hnever hpull
    exact hfalse.elim

end Operator
end QueryEngine
