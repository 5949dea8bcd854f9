import QueryEngine.Proofs.Group.Shown
import QueryEngine.Proofs.Memory.Books
import QueryEngine.Proofs.Pull.Limit

/-! The bytes of a grouping.

A grouping takes bytes when it sees a key for the first time. Over an input that takes none
itself, a grouping that succeeds has taken them for every key that the rows have, and one that
was refused bytes had come to a key for which there was no room. So whether bytes are refused
is told by the number of the keys, and the order of the rows has no part in it
(`first_aggregate_room`). -/
namespace QueryEngine

/-! ### Pools that are charged -/

/-- There is no room for so many times the bytes. -/
structure Pool.Lacks (p : Pool) (bytes n : Nat) : Prop where
  positive : 0 < n
  exceeds : p.limit < p.used + bytes * n

/-- What has become of a pool that had room for so many times the bytes, and gave them. -/
structure Pool.Charged (before : Pool) (bytes n : Nat) (after : Pool) : Prop where
  limit : after.limit = before.limit
  used : after.used = before.used + bytes * n
  room : ¬before.Lacks bytes n

namespace Pool
variable {p before after next : Pool} {bytes n m : Nat}

theorem Lacks.mono (h : p.Lacks bytes n) (hle : n ≤ m) : p.Lacks bytes m :=
  ⟨h.positive.trans_le hle, h.exceeds.trans_le (Nat.add_le_add_left (Nat.mul_le_mul_left bytes hle) _)⟩

/-- Bytes are lacking for a number of keys as they exceed what is left. -/
theorem lacks_iff (hbytes : 0 < bytes) : p.Lacks bytes n ↔ p.limit - p.used < bytes * n := by
  refine ⟨fun h => ?_, fun h => ⟨Nat.pos_of_mul_pos_left (Nat.zero_lt_of_lt h), ?_⟩⟩
  · have hpos : 0 < bytes * n := Nat.mul_pos hbytes h.positive
    have hexceeds := h.exceeds
    omega
  · omega

theorem charged_zero (p : Pool) (bytes : Nat) : p.Charged bytes 0 p := ⟨rfl, rfl, fun h => (Nat.lt_irrefl 0 h.positive)⟩

theorem Charged.lacks_iff (h : before.Charged bytes n after) :
    before.Lacks bytes (n + 1) ↔ after.limit < after.used + bytes := by
  rw [h.limit, h.used, Nat.add_assoc, ← Nat.mul_succ]
  exact ⟨fun h => h.exceeds, fun h => ⟨Nat.succ_pos n, h⟩⟩

/-- Where there is room for one more, it is given. -/
theorem Charged.reserve (h : before.Charged bytes n after) (hok : after.reserve bytes = .ok next) :
    before.Charged bytes (n + 1) next := by
  refine ⟨(reserve_limit hok).trans h.limit, ?_, fun hlacks => ?_⟩
  · rw [reserve_used hok, h.used, Nat.mul_succ, Nat.add_assoc]
  · rw [Ledger.reserve_of_not_fits (h.lacks_iff.mp hlacks)] at hok
    cases hok

theorem Charged.lacks (h : before.Charged bytes n after) {e : QueryError} (herror : after.reserve bytes = .error e) :
    before.Lacks bytes (n + 1) := by
  refine h.lacks_iff.mpr (Nat.lt_of_not_le fun hfits => ?_)
  rw [Ledger.reserve_of_fits hfits] at herror
  cases herror

end Pool

namespace Group
variable {keys : List Expr} {rows rows' : List Row}

/-- How many keys the rows have. -/
def countKeys (keys : List Expr) (rows : List Row) : Nat := (rows.map fun row => (keyOn keys row).canonical).eraseDups.length

theorem countKeys_perm (h : rows.Perm rows') : countKeys keys rows = countKeys keys rows' :=
  (eraseDups_perm (h.map _)).length_eq

theorem countKeys_le_append (rows rest : List Row) : countKeys keys rows ≤ countKeys keys (rows ++ rest) := by
  rw [countKeys, countKeys, List.map_append, List.eraseDups_append, List.length_append]
  exact Nat.le_add_right _ _

theorem countKeys_concat_of_mem {row : Row}
    (h : (keyOn keys row).canonical ∈ rows.map fun row => (keyOn keys row).canonical) :
    countKeys keys (rows ++ [row]) = countKeys keys rows := by
  rw [countKeys, List.map_append, List.map_singleton, eraseDups_concat, if_pos h]
  rfl

theorem countKeys_concat_of_not_mem {row : Row}
    (h : (keyOn keys row).canonical ∉ rows.map fun row => (keyOn keys row).canonical) :
    countKeys keys (rows ++ [row]) = countKeys keys rows + 1 := by
  rw [countKeys, List.map_append, List.map_singleton, eraseDups_concat, if_neg h, List.length_append]
  rfl

/-- Groups are found under the keys of the rows that they were made of. -/
theorem get?_isSome_iff {calls : List AggregateCall} {groups : KeyMap Group}
    (h : rows.foldlM (groupOne keys calls) .empty = .ok groups) (key : Key) :
    (groups.get? key).isSome ↔ key.canonical ∈ rows.map fun row => (keyOn keys row).canonical := by
  rw [groupOne_eq] at h
  rw [← List.mem_eraseDups, ← (KeyMap.foldlM_putEach_ok h).keys, KeyMap.get?, KeyMap.keys]
  rw [List.lookup_isSome_iff, List.mem_map]
  exact exists_congr fun entry => and_congr_right fun _ => beq_iff_eq.trans eq_comm

end Group

/-! ### The pull -/

namespace Operator
open QueryEngine.Group (Evaluates countKeys keyOn)
variable {sees : List (Nat × Mask) → Prop} {input : Operator} {keys : List Expr} {keyTypes : List SqlType}
  {calls : List AggregateCall} {taken given rows : List Row} {f : Frame} {config : Config} {groups : KeyMap Group}
  {H : List Cell → Prop}

/-- Pulls take no bytes, and none are refused. -/
def Frugal (op : Operator) : Prop :=
  ∀ f, Pull.Leaves op.pull f (fun g => g.session.pool = f.session.pool) fun e _ => ¬e.Refused

/-- From the cells, and from those that pulls leave, pulls take no bytes and are refused none;
`H` tells of all these cells. -/
def Thrifty (op : Operator) (sees : List (Nat × Mask) → Prop) (H : List Cell → Prop) (cells : List Cell) : Prop :=
  ∃ J : List Cell → Prop, J cells ∧ (∀ cells, J cells → H cells) ∧ ∀ f, J f.cells → sees f.session.masks →
    Pull.Leaves op.pull f (fun g => J g.cells ∧ g.session.pool = f.session.pool) fun e _ => ¬e.Refused

theorem Frugal.thrifty (h : input.Frugal) (sees : List (Nat × Mask) → Prop) (cells : List Cell) :
    input.Thrifty sees (fun _ => True) cells :=
  ⟨fun _ => True, trivial, fun _ _ => trivial, fun f _ _ => (h f).mono (fun _ hg => ⟨trivial, hg⟩) fun _ _ he => he⟩

theorem Thrifty.fetch (h : input.Thrifty sees H f.below) (hs : sees f.session.masks) :
    Pull.Leaves input.fetch f (fun g => input.Thrifty sees H g.below ∧ g.session.pool = f.session.pool ∧
      g.cell.reserved = f.cell.reserved) fun e _ => ¬e.Refused := by
  have hfetch : input.fetch f = Pull.inInput input.name f.cell.buffer Frame.afterFetch input.pull f := rfl
  cases hbelow : f.below with
  | nil =>
    have hnone : f.input? f.cell.buffer = none := by rw [Frame.input?, hbelow]
    rw [Pull.inInput, hnone] at hfetch
    refine ⟨fun _ _ hg => (by cases hfetch.symm.trans hg), fun _ _ hg => ?_⟩
    cases hfetch.symm.trans hg
    exact id
  | cons cell below =>
    obtain ⟨J, hJ, hH, hpulls⟩ := h
    rw [hbelow] at hJ
    obtain ⟨hok, hfails⟩ := hpulls ⟨cell, below, f.session, f.cell.buffer⟩ hJ hs
    refine ⟨fun chunk g hg => ?_, fun e g hg => Pull.Fails.inInput (E := fun e _ => ¬e.Refused) hbelow hfails e g (hfetch ▸ hg)⟩
    have hin : f.input? f.cell.buffer = some ⟨cell, below, f.session, f.cell.buffer⟩ := by rw [Frame.input?, hbelow]
    rw [hfetch, Pull.inInput, hin] at hg
    simp only at hg
    split at hg
    · rename_i hpull
      cases hg
      obtain ⟨hJ', hpool⟩ := hok () _ hpull
      exact ⟨⟨J, hJ', hH, hpulls⟩, hpool, rfl⟩
    · cases hg

theorem source_frugal (config : Config) {types : List SqlType} {chunks : List Chunk} (hc : ∀ c ∈ chunks, c.Sound) :
    (source config types chunks).Frugal := fun f => by
  obtain ⟨g, hg, hsession, -⟩ := source_pull config hc f
  refine ⟨fun _ g' hg' => ?_, .of_ok hg⟩
  cases hg.symm.trans hg'
  rw [hsession]

section
variable {before : Pool}

/-- The bytes for the keys of some rows have been taken. -/
def Paid (before : Pool) (keys : List Expr) (calls : List AggregateCall) (taken : List Row) (f : Frame) : Prop :=
  before.Charged (groupBytes keys.length calls.length) (countKeys keys taken) f.session.pool

/-- If bytes were refused, there was no room for the keys of the rows. -/
def Wanting (before : Pool) (keys : List Expr) (calls : List AggregateCall) (rows : List Row) (e : Failure) : Prop :=
  e.Refused → before.Lacks (groupBytes keys.length calls.length) (countKeys keys rows)

theorem Wanting.append {e : Failure} (h : Wanting before keys calls taken e) (rest : List Row) :
    Wanting before keys calls (taken ++ rest) e :=
  fun he => (h he).mono (Group.countKeys_le_append taken rest)

theorem wanting_of_query {q : QueryError} (h : q = .execution .sumOverflow) : Wanting before keys calls taken (.error q) := by
  subst h
  exact fun he => he.elim

section
variable {chunk : Chunk} {keyColumns : List Column} {arguments : List (Option Column)}
  (hby : GroupsBy keys calls chunk keyColumns arguments)
include hby

/-- A row takes bytes if its key was not seen before. -/
theorem pays_groupRow {r : Nat} (hr : r ∈ chunk.activeRows) (hin : Within keyColumns arguments r)
    (htaken : taken.foldlM (groupOne keys calls) .empty = .ok groups) (hpaid : Paid before keys calls taken f) :
    Pull.Leaves (groupRow calls keyColumns arguments groups r) f (Paid before keys calls (taken ++ [chunk.row r]))
      fun e _ => Wanting before keys calls (taken ++ [chunk.row r]) e := by
  obtain ⟨key, hkey⟩ := Key.ofRow_of_lt hin.keys
  have hkeyOn : key = keyOn keys (chunk.row r) := hby.key_eq hr hkey
  have hseen := Group.get?_isSome_iff htaken key
  rw [hkeyOn] at hseen
  have hwidth : keyColumns.length = keys.length := by simpa using congrArg List.length (hby.keys r hr)
  have hadd (group : Group) (g : Frame) (hgroup : (groups.get? key).getD (Group.start calls key) = group)
      (hg : Paid before keys calls (taken ++ [chunk.row r]) g) :
      Pull.Leaves (do return groups.put key (← group.addRow arguments r)) g
        (Paid before keys calls (taken ++ [chunk.row r])) fun e _ => Wanting before keys calls (taken ++ [chunk.row r]) e := by
    have hkept : Pull.Agree (do return groups.put key (← group.addRow arguments r) : Pull (KeyMap Group))
        (do return groups.put key (← group.addRow arguments r)) g fun _ => Paid before keys calls (taken ++ [chunk.row r]) :=
      .liftQuery_bind fun _ _ => .pure hg
    refine ⟨hkept.2, .liftQuery_bind (fun q hq => ?_) fun _ _ => .pure⟩
    have hfailed : groupOne keys calls groups (chunk.row r) = .error q := by
      rw [groupOne_eq_addRow hby hr hin hkey, hgroup, hq, error_bind]
    exact wanting_of_query (Group.groupOne_error hfailed)
  unfold groupRow
  rw [hkey]
  refine .step (a := key) rfl ?_
  cases hget : groups.get? key with
  | some group =>
    refine hadd group f (by rw [hget, Option.getD_some]) ?_
    unfold Paid
    rw [Group.countKeys_concat_of_mem (hseen.mp (by rw [← hkeyOn, hget]; rfl))]
    exact hpaid
  | none =>
    have hnew := Group.countKeys_concat_of_not_mem (hseen.not.mp (by rw [← hkeyOn, hget]; exact Bool.false_ne_true))
    have hreserve : Pull.Leaves (Pull.reserve (groupBytes keyColumns.length calls.length)) f
        (Paid before keys calls (taken ++ [chunk.row r])) fun e _ => Wanting before keys calls (taken ++ [chunk.row r]) e := by
      unfold Paid Wanting
      rw [hwidth, hnew]
      refine ⟨fun _ g hg => ?_, fun e g hg _ => ?_⟩
      all_goals
        rw [Pull.Elastic.run_reserve] at hg
        split at hg
        all_goals cases hg
      · exact Pool.Charged.reserve hpaid ‹_›
      · exact Pool.Charged.lacks hpaid ‹_›
    exact hreserve.bind fun _ g hg => hadd (Group.start calls key) g (by rw [hget, Option.getD_none]) hg

theorem pays_groupRows {rs : List Nat} (hrs : ∀ r ∈ rs, r ∈ chunk.activeRows) (hin : ∀ r ∈ rs, Within keyColumns arguments r)
    (htaken : taken.foldlM (groupOne keys calls) .empty = .ok groups) (hpaid : Paid before keys calls taken f) :
    Pull.Leaves (groupRows calls keyColumns arguments groups rs) f (Paid before keys calls (taken ++ rs.map chunk.row))
      fun e _ => Wanting before keys calls (taken ++ rs.map chunk.row) e := by
  induction rs generalizing f groups taken with
  | nil =>
    rw [List.map_nil, List.append_nil]
    exact ⟨fun _ _ hg => (by cases hg; exact hpaid), .pure⟩
  | cons r rs ih =>
    have hr := hrs r (List.mem_cons_self ..)
    rw [groupRows, List.map_cons, List.append_cons]
    refine ((pays_groupRow hby hr (hin r (List.mem_cons_self ..)) htaken hpaid).mono (fun _ hg => hg)
      fun e _ he => he.append _).bind_run fun groups' g hgroups hg => ?_
    refine ih (fun r' hr' => hrs r' (List.mem_cons_of_mem _ hr')) (fun r' hr' => hin r' (List.mem_cons_of_mem _ hr')) ?_ hg
    rw [List.foldlM_append, htaken, ok_bind, List.foldlM_cons, ((agree_groupRow hby hr groups).2 groups' g hgroups).1]
    rfl

end

section
variable (hkeys : keys.mapM (Expr.resolve input.types) = .ok keyTypes) (hcalls : ∀ c ∈ calls, c.Resolved input.types)
include hkeys hcalls

theorem pays_groupChunk {chunk : Chunk} (hc : chunk.Sound) (ht : chunk.types = input.types) (hrows : chunk.isEmpty = false)
    (hvalues : ∀ row ∈ chunk.rows, Evaluates keys calls row)
    (htaken : taken.foldlM (groupOne keys calls) .empty = .ok groups) (hpaid : Paid before keys calls taken f) :
    Pull.Leaves (groupChunk keys calls groups chunk) f (Paid before keys calls (taken ++ chunk.rows))
      fun e _ => Wanting before keys calls (taken ++ chunk.rows) e := by
  obtain ⟨keyColumns, arguments, hkeyColumns, harguments, hby, hin⟩ := columns_of_values hkeys hcalls hc ht hrows hvalues
  unfold groupChunk
  rw [mapM_lift, hkeyColumns]
  refine .step (a := keyColumns) rfl ?_
  rw [harguments]
  refine .step (a := arguments) rfl ?_
  exact pays_groupRows hby (fun _ hr => hr) hin htaken hpaid

theorem pays_groupChunks (rounds : Nat) (hthrifty : input.Thrifty sees H f.below)
    (h : Gives ⟨0, False, True, sees⟩ input input given f.below) (hs : sees f.session.masks)
    (hvalues : ∀ row ∈ given, Evaluates keys calls row)
    (htaken : taken.foldlM (groupOne keys calls) .empty = .ok groups) (hpaid : Paid before keys calls taken f) :
    Pull.Leaves (groupChunks keys calls input rounds groups) f (Paid before keys calls (taken ++ given))
      fun e _ => Wanting before keys calls (taken ++ given) e := by
  induction rounds generalizing f groups given taken with
  | zero => exact ⟨fun _ _ hg => (by cases hg), .throw fun he => he.elim⟩
  | succ rounds ih =>
    rw [groupChunks]
    refine ((hthrifty.fetch hs).mono (fun _ hg => hg) fun e _ he hrefused => absurd hrefused he).bind_run
      fun chunk g hfetch hspared => ?_
    obtain ⟨hthrifty', hpool, -⟩ := hspared
    have hg := (h.fetch hs).2 chunk g hfetch
    have hpaid' : Paid before keys calls taken g := by
      unfold Paid
      rw [hpool]
      exact hpaid
    obtain ⟨rest, hrest, htold⟩ := hg.left
    obtain ⟨rfl, hend⟩ := htold trivial
    have hsound := hg.handed.sound
    cases hlast : chunk.isEmpty with
    | true =>
      rw [hend hlast, hsound.rows_eq_nil_iff.mpr hlast, List.append_nil, List.append_nil]
      exact ⟨fun _ _ hg => (by cases hg; exact hpaid'), .pure⟩
    | false =>
      have hchunk := pays_groupChunk hkeys hcalls hsound hg.handed.typed hlast
        (fun row hrow => hvalues row (List.mem_append_left _ hrow)) htaken hpaid'
      rw [← List.append_assoc]
      refine (hchunk.mono (fun _ hg => hg) fun e _ he => he.append rest).bind_run fun groups' k hgrouped hpaid => ?_
      obtain ⟨hgroups', held, pool, hk⟩ := (agree_groupChunk hsound groups).2 groups' k hgrouped
      have hrest' : Gives ⟨0, False, True, sees⟩ input input rest k.below := by rw [hk]; exact hrest
      have hsees' : sees k.session.masks := by rw [hk]; exact hg.sees
      have hthrifty' : input.Thrifty sees H k.below := by rw [hk]; exact hthrifty'
      refine ih hthrifty' hrest' hsees' (fun row hrow => hvalues row (List.mem_append_right _ hrow)) ?_ hpaid
      rw [List.foldlM_append, htaken, ok_bind, hgroups']

/-- Over an input that takes no bytes a grouping takes them for the keys of all rows. -/
theorem pays_groupInput (hthrifty : input.Thrifty sees H f.below)
    (h : Gives ⟨0, False, True, sees⟩ input input given f.below) (hs : sees f.session.masks)
    (hvalues : ∀ row ∈ given, Evaluates keys calls row) :
    Pull.Leaves (groupInput keys keyTypes calls input) f (Paid f.session.pool keys calls given)
      fun e _ => Wanting f.session.pool keys calls given e := by
  have hnone : Paid f.session.pool keys calls [] f := f.session.pool.charged_zero _
  unfold groupInput
  refine .step rfl ((pays_groupChunks hkeys hcalls _ hthrifty h hs hvalues rfl hnone).bind_run fun groups g hgroups hpaid => ?_)
  obtain ⟨_, _, _, hfold⟩ := (agree_groupChunks _ .empty h hs).2 groups g hgroups
  obtain ⟨hfold, htyped⟩ := hfold trivial
  obtain ⟨_, cs, hcs⟩ := Group.columns_of_groups hkeys hcalls htyped hvalues (groupsOf_of_folded hfold)
  simp only [hcs]
  exact ⟨fun _ _ hg => (by cases hg; exact hpaid), .of_ok rfl⟩

/-- Over an input that takes no bytes, a first pull that is refused bytes had no room for the
keys of the rows, and one that succeeds had. -/
theorem first_aggregate_room (hthrifty : input.Thrifty sees H input.start.cells) (h : input.Streams sees rows)
    (hvalues : ∀ row ∈ rows, Evaluates keys calls row) {session : Session} {out : Chunk} (hs : sees session.masks) :
    (∀ g, (aggregate config keys keyTypes calls input).first session out = .ok () g →
      ¬session.pool.Lacks (groupBytes keys.length calls.length) (countKeys keys rows)) ∧
    ∀ e g, (aggregate config keys keyTypes calls input).first session out = .error e g → e.Refused →
      session.pool.Lacks (groupBytes keys.length calls.length) (countKeys keys rows) := by
  have hop := blocking_aggregate config keys keyTypes calls input
  let fresh : Frame := ⟨Cell.start (.aggregate none), input.start.cells, session,
    Chunk.blank (keyTypes ++ calls.map AggregateCall.type) config.capacity⟩
  have hpays : Pull.Leaves (groupInput keys keyTypes calls input) fresh (Paid session.pool keys calls rows)
      fun e _ => Wanting session.pool keys calls rows e := pays_groupInput (f := fresh) hkeys hcalls hthrifty h hs hvalues
  refine ⟨fun g hg => ?_, fun e g hg => ?_⟩
  · obtain ⟨_, _, hpaid⟩ := hop.computed_of_ok (s := (aggregate config keys keyTypes calls input).start) rfl rfl
      (.of_ok hpays.1) hg
    exact hpaid.room
  · exact hop.first_fails (hop.unstarted h) (made_groups hkeys hcalls) hs hpays.2 hg

end

end

end Operator
end QueryEngine
