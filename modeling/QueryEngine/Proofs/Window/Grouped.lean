import QueryEngine.Proofs.Group.Shown
import QueryEngine.Proofs.Window.Computed

/-! Windows and groups.

An aggregate over partitions without sort keys is the aggregate of the group that has the
partition's key: both take the rows with that key, in the order in which they came
(`WindowCall.Over.declared_eq`). So a window has values just where a grouping by its
partition keys can be made (`WindowCall.Over.computes_iff`), although the one computes a
partition at a time from all rows and the other all groups at once, chunk by chunk. -/
namespace QueryEngine

namespace WindowCall
variable {w : WindowCall} {c : AggregateCall} {keys : List Expr} {rows : List Row} {i : Nat}

/-- The call is an aggregate over partitions by some keys, whole partitions at a time. -/
structure Over (w : WindowCall) (c : AggregateCall) (keys : List Expr) : Prop where
  function : w.function = .aggregate c.function
  args : w.args = c.argument.toList
  partitions : w.partitions = keys
  orders : w.orders = []
  type : w.type = c.type

theorem over_of_ofExpr {types : List SqlType} {f : AggregateFunction} {args : List Expr}
    (hw : ofExpr types (.window (.aggregate f) args keys []) = .ok w)
    (hc : AggregateCall.ofExpr types (.aggregate f args) = .ok c) : w.Over c keys := by
  obtain ⟨t, ht, hw⟩ := bind_eq_ok.mp hw
  obtain ⟨u, hu, hc⟩ := bind_eq_ok.mp hc
  cases hw
  cases hc
  rw [Expr.resolve, Expr.resolveEach_eq_map] at hu
  rw [Expr.resolve, Expr.resolveEach_eq_map, Expr.resolveEach_eq_map] at ht
  obtain ⟨_, _, ht⟩ := bind_eq_ok.mp ht
  obtain ⟨_, _, ht⟩ := bind_eq_ok.mp ht
  refine ⟨rfl, ?_, rfl, rfl, Except.ok.inj (ht.symm.trans hu)⟩
  rcases Expr.callType_eq_ok.mp hu with ⟨rfl, _⟩ | ⟨e, _, rfl, _, _⟩ <;> rfl

namespace Over
variable (h : w.Over c keys)
include h

theorem keyOn_eq (row : Row) : w.keyOn row = (Group.keyOn keys row).canonical := by
  rw [keyOn, h.partitions]
  rfl

/-- The rows of a partition are those of the group with its key. -/
theorem partition_rows (i : Nat) : (w.partition rows i).map (fun j => rows.getD j []) =
    KeyMap.itemsOf (Group.keyOn keys) rows (w.keyOn (rows.getD i [])) := by
  unfold partition
  generalize w.keyOn (rows.getD i []) = k
  have hall : rows = (List.range rows.length).map fun j => rows.getD j [] := by
    refine List.ext_getElem (by simp) fun j hj hj' => ?_
    simp [hj]
  conv_rhs => rw [hall, KeyMap.itemsOf, List.filter_map]
  refine congrArg _ (List.filter_congr fun j _ => ?_)
  rw [h.keyOn_eq]
  rfl

/-- The call's value in a row is the aggregate of the rows with its key. -/
theorem declared_eq (i : Nat) : w.declared rows i = do
    return ⟨c.type, (← c.folded (KeyMap.itemsOf (Group.keyOn keys) rows (w.keyOn (rows.getD i [])))).value⟩ := by
  have hargument : w.argumentOn = c.argumentOn := by
    funext row
    rw [argumentOn, AggregateCall.argumentOn, h.args]
    cases c.argument <;> rfl
  have hframe : w.frame rows i = w.partition rows i := by rw [frame, h.orders]; rfl
  rw [← h.partition_rows i, AggregateCall.folded, List.foldlM_map, declared, h.function, hframe, hargument, h.type]

/-- The group of a row's partition. -/
theorem mem_split (hi : i < rows.length) :
    KeyMap.itemsOf (Group.keyOn keys) rows (w.keyOn (rows.getD i [])) ∈ Group.split keys rows := by
  have hrow : rows.getD i [] ∈ rows := by
    rw [List.getD_eq_getElem _ _ hi]
    exact List.getElem_mem hi
  exact (Group.mem_split_iff (List.ne_nil_of_mem hrow)).mpr ⟨_, hrow, by rw [h.keyOn_eq]⟩

/-- Where every row has a value every group has an aggregate: it is that of a row's partition,
or the group has no rows. -/
theorem folded_of_declared (hdeclared : ∀ i < rows.length, ∃ d, w.declared rows i = .ok d) {group : List Row}
    (hgroup : group ∈ Group.split keys rows) : ∃ a, c.folded group = .ok a := by
  by_cases hrows : rows = []
  · have hnone : group = [] := List.eq_nil_iff_forall_not_mem.mpr fun row hrow => by
      have hin := (Group.mem_split hgroup).2 row hrow
      rw [hrows] at hin
      cases hin
    exact hnone ▸ ⟨_, rfl⟩
  · obtain ⟨row, hrow, rfl⟩ := (Group.mem_split_iff hrows).mp hgroup
    obtain ⟨i, hi, rfl⟩ := List.mem_iff_getElem.mp hrow
    obtain ⟨d, hd⟩ := hdeclared i hi
    rw [h.declared_eq, List.getD_eq_getElem _ _ hi, h.keyOn_eq] at hd
    exact (bind_eq_ok.mp hd).imp fun _ ha => ha.1

/-- The call has values just where the rows can be grouped. -/
theorem computes_iff (hc : c.argument = none ↔ c.function = .countStar) :
    w.Computes rows ↔ Group.Computes keys [c] rows := by
  constructor
  · refine fun hw => ⟨fun row hrow => ⟨fun e he => ?_, fun c' hc' e harg => ?_⟩, ?_⟩
    · exact hw.values row hrow e (List.mem_append_left _ (h.partitions ▸ he))
    · rw [List.mem_singleton.mp hc'] at harg
      exact hw.values row hrow e (List.mem_append_right _ (by rw [h.args, harg]; exact List.mem_singleton_self e))
    · rintro ⟨group, hgroup, c', hc', hover⟩
      rw [List.mem_singleton.mp hc'] at hover
      obtain ⟨a, ha⟩ := h.folded_of_declared hw.declared hgroup
      rcases AggregateCall.folded_says hc group with ⟨_, _, _, hrange⟩ | ⟨herror, _⟩
      · exact hrange hover
      · cases ha.symm.trans herror
  · refine fun hg => ⟨fun row hrow e he => ?_, fun i hi => ?_⟩
    · have hvalues := hg.values row hrow
      rcases List.mem_append.mp he with he | he
      · exact hvalues.keys e (h.partitions ▸ he)
      · rw [h.args, Option.mem_toList] at he
        exact hvalues.arguments c (List.mem_singleton_self c) e he
    · obtain ⟨accumulators, hfolded⟩ := hg.folded (List.forall_mem_singleton.mpr hc) (h.mem_split hi)
      obtain ⟨a, _, ha⟩ := mapM_ok_of_mem hfolded (List.mem_singleton_self c)
      exact ⟨_, by rw [h.declared_eq, ha]; rfl⟩

/-- The value in a row stands behind the key of its group. -/
theorem declared_of_rowOf (hi : i < rows.length) {grouped : List Row}
    (hgrouped : List.Forall₂ (Group.RowOf keys [c]) (Group.split keys rows) grouped) {d : Datum}
    (hd : w.declared rows i = .ok d) :
    ∃ shown ∈ grouped, Group.keyShown keys.length shown = w.keyOn rows[i] ∧ shown.drop keys.length = [d] := by
  have hgroup := h.mem_split hi
  obtain ⟨shown, hshown, hrow⟩ := exists_of_mem_left hgrouped hgroup
  obtain ⟨hkey, accumulators, hfolded, hbehind⟩ := hrow.shown (Group.mem_split hgroup).1
  refine ⟨shown, hshown, ?_, ?_⟩
  · rw [hkey, List.getD_eq_getElem _ _ hi, h.keyOn_eq]
    exact Group.commonKey_itemsOf (List.getElem_mem hi)
  · rw [h.declared_eq] at hd
    obtain ⟨a, ha, hd⟩ := bind_eq_ok.mp hd
    cases hd
    rw [List.mapM_cons, ha, ok_bind] at hfolded
    cases hfolded
    exact hbehind

end Over

/-- A call without sort keys that was accepted. -/
theorem unordered_of_ofExpr {types : List SqlType} {f : WindowFunction} {args : List Expr}
    (h : ofExpr types (.window f args keys []) = .ok w) : w.Unordered types := by
  have hresolved := windowType_of_ofExpr h
  obtain ⟨t, ht, h⟩ := bind_eq_ok.mp h
  cases h
  rw [Expr.resolve, Expr.resolveEach_eq_map] at ht
  obtain ⟨_, hpartitions, _⟩ := bind_eq_ok.mp ht
  exact ⟨rfl, Expr.resolve_of_allResolve hpartitions, hresolved⟩

/-- The rows extended, place by place. -/
theorem getElem?_extend {calls : List WindowCall} {rows all : List Row} (h : extend calls rows = .ok all) {i : Nat}
    (hi : i < rows.length) :
    ∃ ds, calls.mapM (fun w => w.declared rows i) = .ok ds ∧ all[i]? = some (rows[i] ++ ds) := by
  have hplace : rows.zipIdx[i]? = some (rows[i], i) := by simp [hi]
  obtain ⟨row, hrow, hextended⟩ := mapM_ok_getElem? h hplace
  obtain ⟨ds, hds, hextended⟩ := bind_eq_ok.mp hextended
  cases hextended
  exact ⟨ds, hds, hrow⟩

end WindowCall

/-! ### The pull -/

namespace Operator
variable {sees : List (Nat × Mask) → Prop} {input : Operator} {rows : List Row}

/-- Over an input that either wants for nothing but bytes, with no more rows than can be
counted, or breaks off, and where no bytes are refused, an aggregate over partitions succeeds
just where grouping by the partition keys does. A window then hands out every row with the
value behind it that the one group with the row's key has. -/
theorem window_agrees_aggregate (config : Config) {f : AggregateFunction} {args keys : List Expr} {keyTypes : List SqlType}
    {w : WindowCall} {c : AggregateCall}
    (hw : WindowCall.ofExpr input.types (.window (.aggregate f) args keys []) = .ok w)
    (hc : AggregateCall.ofExpr input.types (.aggregate f args) = .ok c)
    (hkeys : keys.mapM (Expr.resolve input.types) = .ok keyTypes)
    (hinput : (input.Streams sees rows ∧ input.Feeds sees input.start.cells ∧ rows.length ≤ maxCount) ∨
      input.Breaks sees input.start.cells)
    {session session' : Session} {out out' : Chunk} (hs : sees session.masks) (hs' : sees session'.masks)
    (hroom : ∀ e g, (window config [w] input).first session out = .error e g → ¬e.Refused)
    (hroom' : ∀ e g, (aggregate config keys keyTypes [c] input).first session' out' = .error e g → ¬e.Refused) :
    ((∃ g, (window config [w] input).first session out = .ok () g) ↔
      ∃ g, (aggregate config keys keyTypes [c] input).first session' out' = .ok () g) ∧
    ((∃ g, (window config [w] input).first session out = .ok () g) → ∃ extended grouped,
      (∀ chunks s, (window config [w] input).Pulls sees (window config [w] input).start chunks s → chunks ≠ [] →
        HandsOut (window config [w] input) config.capacity extended chunks s) ∧
      (∀ chunks s, (aggregate config keys keyTypes [c] input).Pulls sees
        (aggregate config keys keyTypes [c] input).start chunks s → chunks ≠ [] →
          HandsOut (aggregate config keys keyTypes [c] input) config.capacity grouped chunks s) ∧
      extended.length = rows.length ∧ (grouped.map (Group.keyShown keys.length)).Nodup ∧
      ∀ i (hi : i < rows.length), ∃ shown ∈ grouped, Group.keyShown keys.length shown = w.keyOn rows[i] ∧
        extended[i]? = some (rows[i] ++ shown.drop keys.length)) := by
  rcases hinput with ⟨hstreams, hfeeds, hcounted⟩ | hbreaks
  · have hover := WindowCall.over_of_ofExpr hw hc
    have hresolved := AggregateCall.resolved_of_ofExpr hc
    have hwindow : ∀ w' ∈ [w], w'.Unordered input.types :=
      List.forall_mem_singleton.mpr (WindowCall.unordered_of_ofExpr hw)
    have hcalls : ∀ c' ∈ [c], c'.Resolved input.types := List.forall_mem_singleton.mpr hresolved
    have hiff : w.Computes rows ↔ Group.Computes keys [c] rows := hover.computes_iff hresolved.argument_eq_none_iff
    have hleft := first_window_ok_iff hwindow hstreams hfeeds hcounted hs hroom
    have hright := first_aggregate_ok_iff hkeys hcalls hstreams hfeeds hs' hroom'
    rw [List.forall_mem_singleton] at hleft
    refine ⟨hleft.trans (hiff.trans hright.symm), fun hok => ?_⟩
    have hop := blocking_window config [w] input
    have hop' := blocking_aggregate config keys keyTypes [c] input
    obtain ⟨g, hg⟩ := hok
    obtain ⟨g', hg'⟩ := hright.mpr (hiff.mp (hleft.mp ⟨g, hg⟩))
    obtain ⟨extended, _, _, ⟨-, hextended⟩, -⟩ := hop.first (hop.unstarted hstreams) (made_window hwindow) hs hg
    obtain ⟨grouped, _, _, ⟨-, hgrouped, hshown⟩, -⟩ :=
      hop'.first (hop'.unstarted hstreams) (made_groups hkeys hcalls) hs' hg'
    refine ⟨extended, grouped, fun chunks s hrun hne => ?_, fun chunks s hrun hne => ?_,
      (length_of_mapM hextended).trans List.length_zipIdx, ?_, fun i hi => ?_⟩
    · obtain ⟨all, ⟨-, hall⟩, hout⟩ := hop.handsOut hstreams (made_window hwindow) hrun hne
      cases hextended.symm.trans hall
      exact hout
    · obtain ⟨all, ⟨-, hall, -⟩, hout⟩ := hop'.handsOut hstreams (made_groups hkeys hcalls) hrun hne
      cases hgrouped.trans hall.symm
      exact hout
    · exact Group.nodup_keyShown hshown
    · obtain ⟨ds, hds, hrow⟩ := WindowCall.getElem?_extend hextended hi
      obtain ⟨d, hd, hds⟩ := bind_eq_ok.mp hds
      cases hds
      obtain ⟨shown, hmem, hkey, hbehind⟩ := hover.declared_of_rowOf hi hshown hd
      exact ⟨shown, hmem, hkey, by rw [hrow, hbehind]; rfl⟩
  · refine ⟨⟨fun hok => absurd hok (hbreaks.window_fails hs), fun hok => absurd hok (hbreaks.aggregate_fails hs')⟩,
      fun hok => absurd hok (hbreaks.window_fails hs)⟩

/-- A partition with rows in two chunks, one of them deselected in between, and NULL keys, which
are one group. Windows show a sum in every row, the grouping once. -/
theorem window_agrees_aggregate_nulls :
    let config : Config := ⟨2, none, false⟩
    let keys : List Expr := [.column 0 .bigInt]
    let args : List Expr := [.column 1 .bigInt]
    let first : Chunk := ⟨[.ofInts [2, 9, 1], .ofInts [5, 9, 7]], some [0, 2], 2, 3⟩
    let second : Chunk := ⟨[.nulls .bigInt 2, .ofInts [4, 6]], none, 2, 2⟩
    let third : Chunk := ⟨[.ofInts [2], .nulls .bigInt 1], none, 1, 1⟩
    let input := source config [.bigInt, .bigInt] [first, second, third]
    let rows := [first, second, third].flatMap Chunk.rows
    ∃ w c chunks groups s s', WindowCall.ofExpr input.types (.window (.aggregate .sum) args keys []) = .ok w ∧
      AggregateCall.ofExpr input.types (.aggregate .sum args) = .ok c ∧
      (window config [w] input).Pulls (fun _ => True) (window config [w] input).start chunks s ∧
      (aggregate config keys [.bigInt] [c] input).Pulls (fun _ => True)
        (aggregate config keys [.bigInt] [c] input).start groups s' ∧
      chunks.map Chunk.count = [2, 2, 1, 0] ∧ groups.map Chunk.count = [2, 1, 0] ∧
      ∃ extended grouped, HandsOut (window config [w] input) config.capacity extended chunks s ∧
        HandsOut (aggregate config keys [.bigInt] [c] input) config.capacity grouped groups s' ∧
        extended.length = 5 ∧ (grouped.map (Group.keyShown 1)).Nodup ∧
        ∀ i (hi : i < rows.length), ∃ shown ∈ grouped, Group.keyShown 1 shown = w.keyOn rows[i] ∧
          extended[i]? = some (rows[i] ++ shown.drop 1) := by
  intro config keys args first second third input rows
  have hcalls : ∃ w c, WindowCall.ofExpr input.types (.window (.aggregate .sum) args keys []) = .ok w ∧
      AggregateCall.ofExpr input.types (.aggregate .sum args) = .ok c ∧
      ((window config [w] input).pullTimes 4 (window config [w] input).start (Session.ofLimit? none)).map
        (List.map Chunk.count) = some [2, 2, 1, 0] ∧
      ((aggregate config keys [.bigInt] [c] input).pullTimes 3 (aggregate config keys [.bigInt] [c] input).start
        (Session.ofLimit? none)).map (List.map Chunk.count) = some [2, 1, 0] :=
    ⟨_, _, rfl, rfl, by cbv, by decide +kernel⟩
  obtain ⟨w, c, hw, hc, hpulled, hpulled'⟩ := hcalls
  obtain ⟨chunks, s, hrun, hcounts⟩ := pulls_of_map (fun _ => trivial) hpulled
  obtain ⟨groups, s', hrun', hcounts'⟩ := pulls_of_map (fun _ => trivial) hpulled'
  have hne : chunks ≠ [] := by
    rintro rfl
    cases hcounts
  have hne' : groups ≠ [] := by
    rintro rfl
    cases hcounts'
  have hsound : ∀ c ∈ [first, second, third], c.Sound ∧ c.types = [.bigInt, .bigInt] ∧ c.isEmpty = false := by decide
  obtain ⟨session, out, g, hok⟩ := hrun.first_ok hne
  obtain ⟨session', out', g', hok'⟩ := hrun'.first_ok hne'
  have hkeys : keys.mapM (Expr.resolve input.types) = .ok [.bigInt] := rfl
  have hroom : ∀ e g, (window config [w] input).first session out = .error e g → ¬e.Refused :=
    fun e g hg => by cases hok.symm.trans hg
  have hroom' : ∀ e g, (aggregate config keys [.bigInt] [c] input).first session' out' = .error e g → ¬e.Refused :=
    fun e g hg => by cases hok'.symm.trans hg
  obtain ⟨-, hagree⟩ := window_agrees_aggregate config hw hc hkeys
    (.inl ⟨source_streams config (fun _ => True) hsound, source_feeds config fun c hc => (hsound c hc).1, by decide⟩)
    trivial trivial hroom hroom'
  obtain ⟨extended, grouped, hextended, hgrouped, hlength, hnodup, hvalues⟩ := hagree ⟨g, hok⟩
  exact ⟨w, c, chunks, groups, s, s', hw, hc, hrun, hrun', hcounts, hcounts', extended, grouped,
    hextended chunks s hrun hne, hgrouped groups s' hrun' hne', hlength, hnodup, hvalues⟩

/-- A window counts the rows it keeps, and crashes past the last number. A grouping goes on. -/
theorem window_uncounted :
    let config : Config := ⟨1, none, false⟩
    let args : List Expr := [.literal .null]
    let one : Chunk := ⟨[], none, 1, 1⟩
    let most : Chunk := ⟨[], none, 18446744073709551615, 1⟩
    let input := source config [] [one, most]
    ∃ w c, WindowCall.ofExpr input.types (.window (.aggregate .min) args [] []) = .ok w ∧
      AggregateCall.ofExpr input.types (.aggregate .min args) = .ok c ∧
      (∃ g, (window config [w] input).first (Session.ofLimit? none) Chunk.fresh = .error .crash g) ∧
      ∃ g, (aggregate config [] [] [c] input).first (Session.ofLimit? none) Chunk.fresh = .ok () g :=
  ⟨_, _, rfl, rfl, ⟨_, rfl⟩, first_leastNull 18446744073709551614⟩

end Operator
end QueryEngine
