import QueryEngine.Proofs.Expr.Folded
import QueryEngine.Proofs.Key.Grouped
import QueryEngine.Proofs.Pull.Grouping

/-! What groups say of rows.

Rows with the same key are a group, and groups stand in the order in which they are first
seen (`Group.split`). Grouping row by row keeps for every group its first key and the state
that each call has after the rows of that group alone (`Group.Of`), for neither the groups
nor the calls see each other. So it fails just where an integer sum over one of the groups
leaves its range on the way (`groupsOf_of_rows`). -/
namespace QueryEngine

/-! ### Calls beside each other -/

namespace Group
variable {calls : List AggregateCall} {accumulators updated : List Accumulator} {rows : List Row}

/-- A step of every call and what follows on it, call by call. -/
theorem mapM_zip_bind {β : Type} (u : Accumulator → AggregateCall → Except QueryError Accumulator)
    (k : Accumulator × AggregateCall → Except QueryError β) {bs : List β} :
    ((accumulators.zip calls).mapM fun p => do k (← u p.1 p.2, p.2)) = .ok bs ↔
      ∃ as, ((accumulators.zip calls).mapM fun p => u p.1 p.2) = .ok as ∧ (as.zip calls).mapM k = .ok bs := by
  induction accumulators generalizing calls bs with
  | nil =>
    rw [List.zip_nil_left, List.mapM_nil, List.mapM_nil]
    exact ⟨fun h => ⟨[], rfl, by cases h; rfl⟩, fun ⟨_, has, h⟩ => by cases has; exact h⟩
  | cons a accumulators ih =>
    cases calls with
    | nil =>
      rw [List.zip_nil_right, List.mapM_nil, List.mapM_nil]
      exact ⟨fun h => ⟨[], rfl, by cases h; rfl⟩, fun ⟨_, has, h⟩ => by cases has; exact h⟩
    | cons c calls =>
      simp only [List.zip_cons_cons, List.mapM_cons, bind_eq_ok]
      constructor
      · rintro ⟨b, ⟨a', ha', hb⟩, rest, hrest, hbs⟩
        obtain ⟨as, has, hk⟩ := ih.mp hrest
        refine ⟨a' :: as, ⟨a', ha', as, has, rfl⟩, ?_⟩
        rw [List.zip_cons_cons, List.mapM_cons, hb, ok_bind, hk, ok_bind]
        exact hbs
      · rintro ⟨_, ⟨a', ha', as, has, hcons⟩, h⟩
        cases hcons
        rw [List.zip_cons_cons, List.mapM_cons] at h
        obtain ⟨b, hb, h⟩ := bind_eq_ok.mp h
        obtain ⟨rest, hrest, h⟩ := bind_eq_ok.mp h
        exact ⟨b, ⟨a', ha', hb⟩, rest, ih.mpr ⟨as, has, hrest⟩, h⟩

theorem argumentsOn_eq (calls : List AggregateCall) (row : Row) :
    argumentsOn calls row = calls.map fun c => c.argumentOn row := rfl

/-- The states of all calls after one more row. -/
def updateOn (calls : List AggregateCall) (accumulators : List Accumulator) (row : Row) :
    Except QueryError (List Accumulator) :=
  (accumulators.zip (argumentsOn calls row)).mapM fun p => p.1.update p.2

theorem updateOn_eq (row : Row) :
    updateOn calls accumulators row = (accumulators.zip calls).mapM fun p => p.1.update (p.2.argumentOn row) := by
  rw [updateOn, argumentsOn_eq, List.zip_map_right, List.mapM_map]
  rfl

/-- Rows taken by all calls at once are taken by each of them. -/
theorem foldlM_updateOn (hlength : accumulators.length = calls.length) :
    rows.foldlM (updateOn calls) accumulators = .ok updated ↔
      ((accumulators.zip calls).mapM fun p => rows.foldlM (fun a row => a.update (p.2.argumentOn row)) p.1) =
        .ok updated := by
  induction rows generalizing accumulators with
  | nil =>
    have hkept : ((accumulators.zip calls).mapM fun p => (.ok p.1 : Except QueryError Accumulator)) = .ok accumulators := by
      rw [mapM_eq_map fun p _ => rfl, List.map_fst_zip (Nat.le_of_eq hlength)]
    simp only [List.foldlM_nil]
    exact ⟨fun h => hkept.trans h, fun h => hkept.symm.trans h⟩
  | cons row rows ih =>
    simp only [List.foldlM_cons]
    refine bind_eq_ok.trans (Iff.trans (exists_congr fun as => ?_) (mapM_zip_bind
      (fun a c => a.update (c.argumentOn row)) fun p => rows.foldlM (fun a row => a.update (p.2.argumentOn row)) p.1).symm)
    rw [updateOn_eq]
    refine and_congr_right fun has => ih ?_
    rw [length_of_mapM has, List.length_zip, hlength, Nat.min_self]

/-! ### Groups -/

/-- What the rows of a group have in common, as the row has it. -/
def keyOn (keys : List Expr) (row : Row) : Key := keys.map fun e => (e.valueOn row).value

/-- The rows of each group, in the order in which the groups are first seen. Without keys
all rows are one group, and no rows are one too. -/
def split (keys : List Expr) (rows : List Row) : List (List Row) :=
  if keys.isEmpty then [rows]
  else (rows.map fun row => (keyOn keys row).canonical).eraseDups.map fun k =>
    rows.filter fun row => (keyOn keys row).canonical = k

/-- A group of some rows: the key of the first of them, and the state of each call after
them. -/
structure Of (keys : List Expr) (calls : List AggregateCall) (rows : List Row) (g : Group) : Prop where
  key : g.key = rows.head?.elim [] (keyOn keys)
  folded : calls.mapM (fun c => c.folded rows) = .ok g.accumulators

variable {keys : List Expr}

/-- A group after one more row, which may be its first. -/
def add (keys : List Expr) (calls : List AggregateCall) (found : Option Group) (row : Row) : Except QueryError Group := do
  let group := found.getD (start calls (keyOn keys row))
  return { group with accumulators := ← updateOn calls group.accumulators row }

theorem groupOne_eq (keys : List Expr) (calls : List AggregateCall) :
    groupOne keys calls = KeyMap.putEach (keyOn keys) (add keys calls) := by
  funext groups row
  simp only [KeyMap.putEach, add, bind_assoc, pure_bind]
  rfl

/-- Rows that a group takes are taken by its calls. -/
theorem foldlM_add (g : Group) (rows : List Row) :
    rows.foldlM (fun found row => some <$> add keys calls found row) (some g) =
      (fun accumulators => some { g with accumulators := accumulators }) <$>
        rows.foldlM (updateOn calls) g.accumulators := by
  induction rows generalizing g with
  | nil => rfl
  | cons row rows ih =>
    simp only [List.foldlM_cons, add, Option.getD_some]
    cases hupdate : updateOn calls g.accumulators row with
    | error e => rfl
    | ok accumulators => exact ih { g with accumulators := accumulators }

/-- The states of all calls after some rows are those of each call after them. -/
theorem foldlM_updateOn_start (key : Key) (rows : List Row) :
    rows.foldlM (updateOn calls) (start calls key).accumulators = .ok updated ↔
      calls.mapM (fun c => c.folded rows) = .ok updated := by
  have hzip : (start calls key).accumulators.zip calls =
      calls.map fun c => (Accumulator.start c.function c.type, c) := by
    have hself : (start calls key).accumulators.zip (calls.map id) =
        calls.map fun c => (Accumulator.start c.function c.type, id c) := List.zip_map'
    rwa [List.map_id] at hself
  have hlength : (start calls key).accumulators.length = calls.length := List.length_map _
  rw [foldlM_updateOn hlength, hzip, List.mapM_map]
  rfl

/-- A group is made of its rows alone. -/
theorem gathered_eq_ok {k : Key} {g : Group} (hsome : KeyMap.itemsOf (keyOn keys) rows k ≠ []) :
    KeyMap.gathered (keyOn keys) (add keys calls) rows k = .ok (some g) ↔
      Of keys calls (KeyMap.itemsOf (keyOn keys) rows k) g := by
  rw [KeyMap.gathered]
  generalize KeyMap.itemsOf (keyOn keys) rows k = items at hsome ⊢
  obtain ⟨first, rest, rfl⟩ := List.exists_cons_of_ne_nil hsome
  -- the first row finds no group, and so the one that its own key starts
  have hstart : (first :: rest).foldlM (fun found row => some <$> add keys calls found row) none =
      (first :: rest).foldlM (fun found row => some <$> add keys calls found row) (some (start calls (keyOn keys first))) :=
    rfl
  rw [hstart, foldlM_add]
  refine map_eq_ok.trans ⟨?_, fun h => ?_⟩
  · rintro ⟨accumulators, hfold, hg⟩
    cases hg
    exact ⟨rfl, (foldlM_updateOn_start _ _).mp hfold⟩
  · refine ⟨g.accumulators, (foldlM_updateOn_start _ _).mpr h.folded, ?_⟩
    obtain ⟨key, accumulators⟩ := g
    cases h.key
    rfl

/-- Where there are keys or rows, the groups are the rows of each key. -/
theorem split_eq (h : keys ≠ [] ∨ rows ≠ []) :
    split keys rows = (rows.map fun row => (keyOn keys row).canonical).eraseDups.map (KeyMap.itemsOf (keyOn keys) rows) := by
  unfold split
  cases keys with
  | cons e keys => rfl
  | nil =>
    obtain ⟨first, rest, rfl⟩ := List.exists_cons_of_ne_nil (h.resolve_left fun h => h rfl)
    have hkeys : ((first :: rest).map fun row => (keyOn [] row).canonical).eraseDups = [[]] := by
      rw [List.map_cons, List.eraseDups_cons, List.filter_eq_nil_iff.mpr fun k hk => ?_, List.eraseDups_nil]
      · rfl
      · obtain ⟨row, _, rfl⟩ := List.mem_map.mp hk
        simp [keyOn, Key.canonical]
    have hall : KeyMap.itemsOf (keyOn []) (first :: rest) [] = first :: rest :=
      List.filter_eq_self.mpr fun row _ => decide_eq_true rfl
    show [first :: rest] = List.map (KeyMap.itemsOf (keyOn []) (first :: rest)) _
    rw [hkeys, List.map_singleton, hall]

/-- A sum of some group leaves its range on the way. -/
def Overflowing (keys : List Expr) (calls : List AggregateCall) (rows : List Row) : Prop :=
  ∃ group ∈ split keys rows, ∃ c ∈ calls, c.Overflows group

section
variable (hcalls : ∀ c ∈ calls, c.argument = none ↔ c.function = .countStar)
include hcalls

theorem not_overflows_of_folded (h : calls.mapM (fun c => c.folded rows) = .ok accumulators) :
    ∀ c ∈ calls, ¬c.Overflows rows := fun c hc hover => by
  obtain ⟨a, _, ha⟩ := mapM_ok_of_mem h hc
  rcases AggregateCall.folded_says (hcalls c hc) rows with ⟨_, _, _, hrange⟩ | ⟨herror, _⟩
  · exact hrange hover
  · cases ha.symm.trans herror

theorem folded_of_not_overflows (h : ∀ c ∈ calls, ¬c.Overflows rows) :
    ∃ accumulators, calls.mapM (fun c => c.folded rows) = .ok accumulators :=
  mapM_of_forall fun c hc => by
    rcases AggregateCall.folded_says (hcalls c hc) rows with ⟨a, ha, _⟩ | ⟨_, hover⟩
    · exact ⟨a, ha⟩
    · exact absurd hover (h c hc)

/-- Where no sum leaves its range, the rows of each key make a group. -/
theorem gathered_of_not_overflowing (hrows : keys ≠ [] ∨ rows ≠ []) (h : ¬Overflowing keys calls rows) (k : Key) :
    ∃ found, KeyMap.gathered (keyOn keys) (add keys calls) rows k = .ok found := by
  by_cases hnone : KeyMap.itemsOf (keyOn keys) rows k = []
  · exact ⟨none, by rw [KeyMap.gathered, hnone]; rfl⟩
  · obtain ⟨row, hrow⟩ := List.exists_mem_of_ne_nil _ hnone
    obtain ⟨hrow, hk⟩ := List.mem_filter.mp hrow
    have hgroup : KeyMap.itemsOf (keyOn keys) rows k ∈ split keys rows := by
      rw [split_eq hrows]
      refine List.mem_map_of_mem (List.mem_eraseDups.mpr ?_)
      rw [← of_decide_eq_true hk]
      exact List.mem_map_of_mem hrow
    obtain ⟨accumulators, hfolded⟩ := folded_of_not_overflows hcalls fun c hc hover => h ⟨_, hgroup, c, hc, hover⟩
    exact ⟨some ⟨_, accumulators⟩, (gathered_eq_ok hnone).mpr ⟨rfl, hfolded⟩⟩

end

theorem groupOne_error {groups : KeyMap Group} {row : Row} {e : QueryError}
    (h : groupOne keys calls groups row = .error e) : e = .execution .sumOverflow := by
  rw [groupOne_eq] at h
  rcases bind_eq_error.mp h with h | ⟨_, _, h⟩
  · rcases bind_eq_error.mp h with h | ⟨_, _, h⟩
    · obtain ⟨p, _, hp⟩ := mapM_eq_error h
      exact Accumulator.update_error hp
    · cases h
  · cases h

end Group

open QueryEngine.Group (split Of Overflowing)
variable {keys : List Expr} {calls : List AggregateCall} {rows : List Row}

/-- The groups that rows leave. -/
theorem forall₂_of_gathers {groups : KeyMap Group} (hrows : keys ≠ [] ∨ rows ≠ [])
    (h : KeyMap.Gathers (Group.keyOn keys) (Group.add keys calls) rows groups) :
    List.Forall₂ (Of keys calls) (split keys rows) groups.values := by
  rw [Group.split_eq hrows, ← h.keys, KeyMap.keys, KeyMap.values, List.map_map, List.forall₂_map_left_iff,
    List.forall₂_map_right_iff, List.forall₂_same]
  intro e he
  refine (Group.gathered_eq_ok fun hnone => ?_).mp (h.entries he)
  have hfound := h.entries he
  rw [KeyMap.gathered, hnone] at hfound
  cases hfound

/-- Grouping rows gives all groups, or fails because a sum leaves its range. -/
theorem groupsOf_of_rows (hcalls : ∀ c ∈ calls, c.argument = none ↔ c.function = .countStar) (rows : List Row) :
    (∃ groups, groupsOf keys calls rows = .ok groups ∧ List.Forall₂ (Of keys calls) (split keys rows) groups ∧
      ¬Overflowing keys calls rows) ∨
      groupsOf keys calls rows = .error (.execution .sumOverflow) ∧ Overflowing keys calls rows := by
  by_cases hrows : keys ≠ [] ∨ rows ≠ []
  · cases hfold : rows.foldlM (groupOne keys calls) .empty with
    | ok groups =>
      rw [Group.groupOne_eq] at hfold
      have hof := forall₂_of_gathers hrows (KeyMap.foldlM_putEach_ok hfold)
      refine .inl ⟨groups.values, ?_, hof, ?_⟩
      · have hsome : ¬(groups.values.isEmpty && keys.isEmpty) = true := fun hnone => by
          rw [Bool.and_eq_true, List.isEmpty_iff] at hnone
          have hlength := hof.length_eq
          rw [hnone.1, split, if_pos hnone.2] at hlength
          cases hlength
        rw [groupsOf, Group.groupOne_eq, hfold, ok_bind, if_neg hsome]
        rfl
      · rintro ⟨group, hgroup, c, hc, hover⟩
        obtain ⟨g, _, hg⟩ := exists_of_mem_left hof hgroup
        exact Group.not_overflows_of_folded hcalls hg.folded c hc hover
    | error e =>
      have he := foldlM_eq_error hfold fun groups row _ e he => Group.groupOne_error he
      refine .inr ⟨?_, ?_⟩
      · rw [groupsOf, hfold, he]
        rfl
      · by_contra hnone
        obtain ⟨groups, hgroups⟩ := KeyMap.foldlM_putEach_of_gathered (Group.gathered_of_not_overflowing hcalls hrows hnone)
        rw [Group.groupOne_eq, hgroups] at hfold
        cases hfold
  · have hkeys : keys = [] := by_contra fun h => hrows (.inl h)
    have hnone : rows = [] := by_contra fun h => hrows (.inr h)
    subst hkeys hnone
    have hstart : calls.mapM (fun c => c.folded []) = .ok (Group.start calls []).accumulators :=
      mapM_eq_map fun _ _ => rfl
    refine .inl ⟨[Group.start calls []], rfl, .cons ⟨rfl, hstart⟩ .nil, ?_⟩
    rintro ⟨group, hgroup, c, hc, hover⟩
    rw [List.mem_singleton.mp hgroup] at hover
    exact Group.not_overflows_of_folded hcalls hstart c hc hover

end QueryEngine
