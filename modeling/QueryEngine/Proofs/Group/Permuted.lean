import Mathlib.Data.List.Perm.Basic
import QueryEngine.Proofs.Group.Charged
import QueryEngine.Proofs.Join.Filtered

/-! Groups of rows in another order.

Rows in another order fall into the same groups, each with its rows in another order
(`Group.split_perm`). What a count, a least or greatest value or an exact total says of them
does not depend on the order, if values that compare alike are one value
(`AggregateFunction.Says.unique`). So the rows of the groups are the same, but for the member
of its key's class that a group shows (`Group.sameGroups_of_perm`). What the order does decide
is whether a running total leaves its range on the way (`first_aggregate_apart`). -/
namespace QueryEngine

/-- Values that compare alike are one value, so those of a type without doubles have one
extreme at most, in whatever order they come. -/
theorem Scalar.eq_of_extremes {o : Ordering} (ho : o ≠ .eq) {t : Option SqlType} (ht : t ≠ some .double)
    {vs ws : List Scalar} {v w : Scalar} (hvs : ∀ v ∈ vs, Argues t (some v)) (hperm : vs.Perm ws)
    (hv : v ∈ vs ∧ ∀ u ∈ vs, u.compare v ≠ o) (hw : w ∈ ws ∧ ∀ u ∈ ws, u.compare w ≠ o) : v = w := by
  obtain ⟨u, hu, hfits⟩ := hvs v hv.1
  obtain ⟨u', hu', hfits'⟩ := hvs w (hperm.mem_iff.mpr hw.1)
  obtain rfl := Option.some.inj (hu.symm.trans hu')
  refine eq_of_compare hfits hfits' (fun hdouble => ht (hdouble ▸ hu)) ?_
  exact compare_eq_of_ne ho (hw.2 v (hperm.mem_iff.mp hv.1)) (hv.2 w (hperm.mem_iff.mpr hw.1))

/-! ### What calls say -/

namespace AggregateFunction
variable {f : AggregateFunction} {t : SqlType} {argument : Option SqlType} {vs ws : List Scalar} {v w : Scalar}

/-- Nothing of the call is a fold over doubles, and values of its argument that compare alike
are one value. -/
def OrderFree (f : AggregateFunction) (t : SqlType) (argument : Option SqlType) : Prop :=
  match f with
  | .countStar | .count => True
  | .sum => t = .bigInt
  | .avg => False
  | .min | .max => argument ≠ some .double

instance : Decidable (f.OrderFree t argument) :=
  match f with
  | .countStar | .count => .isTrue trivial
  | .sum => inferInstanceAs (Decidable (t = .bigInt))
  | .avg => .isFalse id
  | .min | .max => inferInstanceAs (Decidable (argument ≠ some .double))

/-- Where values are taken in another order, the same is said of them. -/
theorem Says.unique {n : Nat} (hfree : f.OrderFree t argument) (hvs : ∀ v ∈ vs, Scalar.Argues argument (some v))
    (hperm : vs.Perm ws) (hv : f.Says t n vs v) (hw : f.Says t n ws w) : v = w := by
  have hlength := hperm.length_eq
  by_cases hnone : vs = []
  · subst hnone
    obtain rfl := hperm.symm.eq_nil
    cases f with
    | avg => exact hfree.elim
    | countStar | count => exact hv.trans hw.symm
    | sum | min | max =>
      simp only [Says, if_true] at hv hw
      exact hv.trans hw.symm
  · have hsome : ws ≠ [] := fun h => hnone ((h ▸ hperm).eq_nil)
    cases f with
    | avg => exact hfree.elim
    | countStar => exact hv.trans hw.symm
    | count =>
      have hw : w = .bigInt (Int64.ofNat ws.length) := hw
      rw [hw, ← hlength]
      exact hv
    | sum =>
      obtain rfl : t = .bigInt := hfree
      simp only [Says, if_neg hnone, if_neg hsome, if_true] at hv hw
      obtain ⟨n, rfl, hn⟩ := hv
      obtain ⟨m, rfl, hm⟩ := hw
      rw [Int64.toInt_inj.mp (hn.trans ((Scalar.total_perm hperm).trans hm.symm))]
    | min =>
      simp only [Says, if_neg hnone, if_neg hsome] at hv hw
      exact Scalar.eq_of_extremes (o := .lt) (by decide) hfree hvs hperm hv hw
    | max =>
      simp only [Says, if_neg hnone, if_neg hsome] at hv hw
      exact Scalar.eq_of_extremes (o := .gt) (by decide) hfree hvs hperm hv hw

end AggregateFunction

namespace AggregateCall
variable {c : AggregateCall} {types : List SqlType} {rows rows' : List Row} {v w : Scalar}

/-- What the call says of rows does not depend on their order. -/
def OrderFree (types : List SqlType) (c : AggregateCall) : Prop := c.function.OrderFree c.type (c.argumentType types)

instance : Decidable (c.OrderFree types) := inferInstanceAs (Decidable (c.function.OrderFree c.type (c.argumentType types)))

theorem valuesOn_perm (h : rows.Perm rows') : (c.valuesOn rows).Perm (c.valuesOn rows') := (h.filterMap _).filter _

theorem Says.eq_of_perm (hfree : c.OrderFree types)
    (hrows : ∀ row ∈ rows, Scalar.Argues (c.argumentType types) (c.argumentOn row)) (hperm : rows.Perm rows')
    (hv : c.Says rows v) (hw : c.Says rows' w) : v = w := by
  unfold Says at hv hw
  rw [← hperm.length_eq] at hw
  refine AggregateFunction.Says.unique hfree (fun u hu => ?_) (valuesOn_perm hperm) hv hw
  obtain ⟨row, hrow, hu⟩ := List.mem_filterMap.mp (List.mem_filter.mp hu).1
  exact hu ▸ hrows row hrow

end AggregateCall

/-! ### Groups -/

namespace Group
variable {keys : List Expr} {calls : List AggregateCall} {types keyTypes : List SqlType} {rows rows' group group' : List Row}
  {row row' : Row}

/-- Rows in another order fall into the same groups. -/
theorem split_perm (keys : List Expr) (h : rows.Perm rows') :
    ∃ groups, List.Forall₂ List.Perm (split keys rows) groups ∧ groups.Perm (split keys rows') := by
  unfold split
  split
  · exact ⟨[rows'], .cons h .nil, .refl _⟩
  · refine ⟨_, ?_, (eraseDups_perm (h.map _)).map _⟩
    rw [List.forall₂_map_left_iff, List.forall₂_map_right_iff, List.forall₂_same]
    exact fun k _ => h.filter _

theorem commonKey_perm (hgroup : group ∈ split keys rows) (hperm : group.Perm group') :
    commonKey keys group' = commonKey keys group := by
  cases group' with
  | nil => rw [hperm.eq_nil]
  | cons first rest => exact commonKey_of_mem hgroup (hperm.mem_iff.mpr (List.mem_cons_self ..))

section
variable (hkeys : keys.mapM (Expr.resolve types) = .ok keyTypes) (hcalls : ∀ c ∈ calls, c.Resolved types)
  (hfree : ∀ c ∈ calls, c.OrderFree types) (htyped : ∀ row ∈ rows, Typed types row)
  (hvalues : ∀ row ∈ rows, Evaluates keys calls row)

/-- The row of a group has a member of the group's key, of the key types, and behind it what
the calls say. -/
theorem Shows.parts (hkeys : keys.mapM (Expr.resolve types) = .ok keyTypes) (hsome : keys = [] ∨ group ≠ [])
    (htyped : ∀ row ∈ group, Typed types row) (hvalues : ∀ row ∈ group, Evaluates keys calls row)
    (h : Shows keys calls group row) :
    Typed keyTypes (row.take keys.length) ∧ keyShown keys.length row = commonKey keys group ∧
      List.Forall₂ (fun c d => d.type = c.type ∧ c.Says group d.value) calls (row.drop keys.length) := by
  obtain ⟨results, rfl, hresults⟩ := h
  rw [List.take_left' (length_front hsome), List.drop_left' (length_front hsome), keyShown_front hsome]
  refine ⟨?_, rfl, hresults⟩
  cases group with
  | nil =>
    obtain rfl := hsome.resolve_right fun hne => hne rfl
    cases hkeys
    exact ⟨rfl, List.forall_mem_nil _⟩
  | cons first rest =>
    have hfirst := List.mem_cons_self (a := first) (l := rest)
    have hall := keys_typed hkeys (htyped first hfirst) (hvalues first hfirst)
    refine ⟨?_, fun d hd => ?_⟩
    · show (keys.map fun e => e.valueOn first).map Datum.type = keyTypes
      rw [List.map_map, ← List.forall₂_eq_eq_eq, List.forall₂_map_left_iff]
      exact hall.imp fun e t ht => ht.1
    · obtain ⟨e, he, rfl⟩ := List.mem_map.mp hd
      obtain ⟨t, _, _, hfits⟩ := exists_of_mem_left hall he
      exact hfits

include hkeys hcalls hfree htyped hvalues

/-- Rows that show a group, whose rows came in two orders. -/
theorem Shows.sameGroup (hgroup : group ∈ split keys rows) (hperm : group.Perm group') (h : Shows keys calls group row)
    (h' : Shows keys calls group' row') :
    SameGroup keys.length row row' ∧ Typed keyTypes (row.take keys.length) ∧ Typed keyTypes (row'.take keys.length) := by
  obtain ⟨hsome, hmem⟩ := mem_split hgroup
  have hsome' : keys = [] ∨ group' ≠ [] := hsome.imp_right fun hne hnone => hne (hnone ▸ hperm).eq_nil
  obtain ⟨hkey, hshown, hresults⟩ :=
    h.parts hkeys hsome (fun row hrow => htyped row (hmem row hrow)) fun row hrow => hvalues row (hmem row hrow)
  obtain ⟨hkey', hshown', hresults'⟩ := h'.parts hkeys hsome'
    (fun row hrow => htyped row (hmem row (hperm.mem_iff.mpr hrow)))
    fun row hrow => hvalues row (hmem row (hperm.mem_iff.mpr hrow))
  have hdrop : row.drop keys.length = row'.drop keys.length := by
    rw [← List.forall₂_eq_eq_eq]
    refine forall₂_apart hresults hresults' fun c hc d d' hd hd' => ?_
    have hvalue : d.value = d'.value := hd.2.eq_of_perm (hfree c hc)
      (fun row hrow => argues hc (hcalls c hc) (htyped row (hmem row hrow)) (hvalues row (hmem row hrow))) hperm hd'.2
    have htype := hd.1.trans hd'.1.symm
    cases d
    cases d'
    cases htype
    cases hvalue
    rfl
  refine ⟨⟨?_, hshown.trans ((commonKey_perm hgroup hperm).symm.trans hshown'.symm), hdrop⟩, hkey, hkey'⟩
  rw [← List.take_append_drop keys.length row, ← List.take_append_drop keys.length row', List.map_append, List.map_append,
    hkey.1, hkey'.1, hdrop]

/-- Rows in another order have the same groups, which show the same but for doubles in their keys. -/
theorem sameGroups_of_perm (hperm : rows.Perm rows') {shown shown' : List Row}
    (h : List.Forall₂ (Shows keys calls) (split keys rows) shown)
    (h' : List.Forall₂ (Shows keys calls) (split keys rows') shown') :
    SameGroups keys.length shown shown' ∧ (.double ∉ keyTypes → shown.Perm shown') := by
  obtain ⟨groups, hgroups, hsplit⟩ := split_perm keys hperm
  obtain ⟨middle, hmiddle, hmiddle'⟩ := List.perm_comp_forall₂ hsplit h'
  have hshown : List.Forall₂ (fun group' row => ∃ group ∈ split keys rows, group.Perm group' ∧ Shows keys calls group row)
      groups shown := forall₂_apart hgroups h fun group hgroup _ _ hperm hrow => ⟨group, hgroup, hperm, hrow⟩
  have hall : List.Forall₂ (fun row row' => SameGroup keys.length row row' ∧ Typed keyTypes (row.take keys.length) ∧
      Typed keyTypes (row'.take keys.length)) shown middle := by
    refine forall₂_apart hshown hmiddle fun group' _ row row' hrow hrow' => ?_
    obtain ⟨group, hgroup, hperm, hrow⟩ := hrow
    exact hrow.sameGroup hkeys hcalls hfree htyped hvalues hgroup hperm hrow'
  refine ⟨⟨middle, hall.imp fun _ _ hsame => hsame.1, hmiddle'⟩, fun hnone => ?_⟩
  have heq : shown = middle := by
    rw [← List.forall₂_eq_eq_eq]
    exact hall.imp fun _ _ hsame => hsame.1.eq hsame.2.1 hsame.2.2 hnone
  exact heq ▸ hmiddle'

end

end Group

/-! ### The pull -/

namespace Operator
open QueryEngine.Group (Evaluates Overflowing SameGroups countKeys)
variable {sees sees' : List (Nat × Mask) → Prop} {input input' : Operator} {rows rows' : List Row} {config : Config}
  {keys : List Expr} {keyTypes : List SqlType} {calls : List AggregateCall}

section
variable (hkeys : keys.mapM (Expr.resolve input.types) = .ok keyTypes) (hcalls : ∀ c ∈ calls, c.Resolved input.types)
  (htypes : input'.types = input.types)
include hkeys hcalls htypes

/-- Where a first pull fails that succeeds over the same rows in another order, a sum leaves
its range on the way; or bytes were refused, and then an input takes bytes itself, or the pools
were not the same. -/
theorem first_aggregate_apart (h : input.Streams sees rows) (h' : input'.Streams sees' rows')
    (hfeeds' : input'.Feeds sees' input'.start.cells) (hperm : rows.Perm rows') {session session' : Session}
    {out out' : Chunk} (hs : sees session.masks) (hs' : sees' session'.masks)
    (hok : ∃ g, (aggregate config keys keyTypes calls input).first session out = .ok () g) {e : Failure} {g' : Frame}
    (hfails : (aggregate config keys keyTypes calls input').first session' out' = .error e g') :
    e = .error (.execution .sumOverflow) ∧ Overflowing keys calls rows' ∨
      e.Refused ∧ ¬(input.Frugal ∧ input'.Frugal ∧ session.pool = session'.pool) := by
  have hkeys' : keys.mapM (Expr.resolve input'.types) = .ok keyTypes := htypes ▸ hkeys
  have hcalls' : ∀ c ∈ calls, c.Resolved input'.types := htypes ▸ hcalls
  obtain ⟨g, hg⟩ := hok
  have hop := blocking_aggregate config keys keyTypes calls input
  obtain ⟨_, _, _, ⟨⟨hvalues, -⟩, -⟩, -⟩ := hop.first (hop.unstarted h) (made_groups hkeys hcalls) hs hg
  have hvalues' : ∀ row ∈ rows', Evaluates keys calls row := fun row hrow => hvalues row (hperm.mem_iff.mpr hrow)
  by_cases hrefused : e.Refused
  · refine .inr ⟨hrefused, ?_⟩
    rintro ⟨hfrugal, hfrugal', hpool⟩
    have hlacks := (first_aggregate_room hkeys' hcalls' (hfrugal'.thrifty _ _) h' hvalues' hs').2 e g' hfails hrefused
    rw [← Group.countKeys_perm hperm, ← hpool] at hlacks
    exact (first_aggregate_room hkeys hcalls (hfrugal.thrifty _ _) h hvalues hs).1 g hg hlacks
  · exact .inl (first_aggregate_error hkeys' hcalls' h' hfeeds' hvalues' (made_groups hkeys' hcalls') hs' hfails hrefused)

/-- Over inputs that take no bytes, in pools that are the same, only a sum that leaves its
range sets the two orders apart. -/
theorem first_aggregate_ok (h : input.Streams sees rows) (h' : input'.Streams sees' rows')
    (hfeeds' : input'.Feeds sees' input'.start.cells) (hperm : rows.Perm rows') {session session' : Session}
    {out out' : Chunk} (hs : sees session.masks) (hs' : sees' session'.masks) (hrange : ¬Overflowing keys calls rows')
    (hsame : input.Frugal ∧ input'.Frugal ∧ session.pool = session'.pool)
    (hok : ∃ g, (aggregate config keys keyTypes calls input).first session out = .ok () g) :
    ∃ g, (aggregate config keys keyTypes calls input').first session' out' = .ok () g := by
  cases hother : (aggregate config keys keyTypes calls input').first session' out' with
  | ok _ g => exact ⟨g, rfl⟩
  | error e g =>
    rcases first_aggregate_apart hkeys hcalls htypes h h' hfeeds' hperm hs hs' hok hother with ⟨_, hover⟩ | ⟨_, hnot⟩
    · exact absurd hover hrange
    · exact absurd hsame hnot

/-- The rows that runs over two orders of the same rows hand out show the same groups. -/
theorem aggregate_sameGroups (hfree : ∀ c ∈ calls, c.OrderFree input.types) (h : input.Streams sees rows)
    (h' : input'.Streams sees' rows') (hperm : rows.Perm rows') {chunks chunks' : List Chunk} {s s' : State}
    (hrun : (aggregate config keys keyTypes calls input).Pulls sees (aggregate config keys keyTypes calls input).start chunks s)
    (hrun' : (aggregate config keys keyTypes calls input').Pulls sees'
      (aggregate config keys keyTypes calls input').start chunks' s') (hne : chunks ≠ []) (hne' : chunks' ≠ []) :
    ∃ all all', HandsOut (aggregate config keys keyTypes calls input) config.capacity all chunks s ∧
      HandsOut (aggregate config keys keyTypes calls input') config.capacity all' chunks' s' ∧
      SameGroups keys.length all all' ∧ (.double ∉ keyTypes → all.Perm all') := by
  have hkeys' : keys.mapM (Expr.resolve input'.types) = .ok keyTypes := htypes ▸ hkeys
  have hcalls' : ∀ c ∈ calls, c.Resolved input'.types := htypes ▸ hcalls
  obtain ⟨all, ⟨⟨hvalues, -⟩, -, hall⟩, hout⟩ := (blocking_aggregate config keys keyTypes calls input).handsOut
    h.typed (made_groups hkeys hcalls) hrun hne
  obtain ⟨all', ⟨-, -, hall'⟩, hout'⟩ := (blocking_aggregate config keys keyTypes calls input').handsOut
    h'.typed (made_groups hkeys' hcalls') hrun' hne'
  rw [htypes] at hall'
  refine ⟨all, all', hout, hout', ?_⟩
  exact Group.sameGroups_of_perm hkeys hcalls hfree (fun row hrow => mem_typed hrow) hvalues (hperm.filter _)
    (hall.imp fun _ _ hrow => hrow.shows hcalls) (hall'.imp fun _ _ hrow => hrow.shows hcalls)

end

/-- Over two inputs that give the same rows in two orders, a grouping whose calls do not depend
on the order succeeds on one just where it succeeds on the other, unless a running total leaves
its range in one of the orders, or bytes are refused. Where both succeed they hand out the rows
of the same groups, which are the same rows if no key is a double. -/
theorem aggregate_permuted (config : Config) {keys exprs : List Expr} {keyTypes : List SqlType} {calls : List AggregateCall}
    (hkeys : keys.mapM (Expr.resolve input.types) = .ok keyTypes)
    (hcalls : exprs.mapM (AggregateCall.ofExpr input.types) = .ok calls) (hfree : ∀ c ∈ calls, c.OrderFree input.types)
    (htypes : input'.types = input.types) (h : input.Streams sees rows) (h' : input'.Streams sees' rows')
    (hfeeds : input.Feeds sees input.start.cells) (hfeeds' : input'.Feeds sees' input'.start.cells)
    (hperm : rows.Perm rows') :
    (∀ session session' out out', sees session.masks → sees' session'.masks →
      (∀ e g', (∃ g, (aggregate config keys keyTypes calls input).first session out = .ok () g) →
        (aggregate config keys keyTypes calls input').first session' out' = .error e g' →
          e = .error (.execution .sumOverflow) ∧ Overflowing keys calls rows' ∨
            e.Refused ∧ ¬(input.Frugal ∧ input'.Frugal ∧ session.pool = session'.pool)) ∧
      (∀ e g', (∃ g, (aggregate config keys keyTypes calls input').first session' out' = .ok () g) →
        (aggregate config keys keyTypes calls input).first session out = .error e g' →
          e = .error (.execution .sumOverflow) ∧ Overflowing keys calls rows ∨
            e.Refused ∧ ¬(input.Frugal ∧ input'.Frugal ∧ session.pool = session'.pool)) ∧
      (¬Overflowing keys calls rows → ¬Overflowing keys calls rows' →
        input.Frugal ∧ input'.Frugal ∧ session.pool = session'.pool →
          ((∃ g, (aggregate config keys keyTypes calls input).first session out = .ok () g) ↔
            ∃ g, (aggregate config keys keyTypes calls input').first session' out' = .ok () g))) ∧
    ∀ chunks chunks' s s',
      (aggregate config keys keyTypes calls input).Pulls sees (aggregate config keys keyTypes calls input).start chunks s →
      (aggregate config keys keyTypes calls input').Pulls sees' (aggregate config keys keyTypes calls input').start
        chunks' s' → chunks ≠ [] → chunks' ≠ [] →
          ∃ all all', HandsOut (aggregate config keys keyTypes calls input) config.capacity all chunks s ∧
            HandsOut (aggregate config keys keyTypes calls input') config.capacity all' chunks' s' ∧
            SameGroups keys.length all all' ∧ (.double ∉ keyTypes → all.Perm all') := by
  have hresolved := AggregateCall.resolved_of_mapM hcalls
  have hkeys' : keys.mapM (Expr.resolve input'.types) = .ok keyTypes := htypes ▸ hkeys
  have hresolved' : ∀ c ∈ calls, c.Resolved input'.types := htypes ▸ hresolved
  refine ⟨fun session session' out out' hs hs' => ?_, fun chunks chunks' s s' hrun hrun' hne hne' =>
    aggregate_sameGroups hkeys hresolved htypes hfree h h' hperm hrun hrun' hne hne'⟩
  have hswap (hsame : input.Frugal ∧ input'.Frugal ∧ session.pool = session'.pool) :
      input'.Frugal ∧ input.Frugal ∧ session'.pool = session.pool := ⟨hsame.2.1, hsame.1, hsame.2.2.symm⟩
  refine ⟨fun e g' hok hfails => ?_, fun e g' hok hfails => ?_, fun hrange hrange' hsame => ⟨fun hok => ?_, fun hok => ?_⟩⟩
  · exact first_aggregate_apart hkeys hresolved htypes h h' hfeeds' hperm hs hs' hok hfails
  · exact (first_aggregate_apart hkeys' hresolved' htypes.symm h' h hfeeds hperm.symm hs' hs hok hfails).imp_right
      (And.imp_right fun hnot hsame => hnot (hswap hsame))
  · exact first_aggregate_ok hkeys hresolved htypes h h' hfeeds' hperm hs hs' hrange' hsame hok
  · exact first_aggregate_ok hkeys' hresolved' htypes.symm h' h hfeeds hperm.symm hs' hs hrange (hswap hsame) hok

/-- NULL keys are one group in both orders, wherever the rows stand in chunks. -/
theorem aggregate_permuted_nulls :
    let config : Config := ⟨2, none, false⟩
    let keys : List Expr := [.column 0 .bigInt]
    let exprs : List Expr := [.aggregate .countStar [], .aggregate .count [.column 1 .bigInt],
      .aggregate .sum [.column 1 .bigInt], .aggregate .min [.column 1 .bigInt], .aggregate .max [.column 1 .bigInt]]
    let first : Chunk := ⟨[.ofInts [2, 9, 1], .ofInts [5, 9, 7]], some [0, 2], 2, 3⟩
    let second : Chunk := ⟨[.nulls .bigInt 2, .ofInts [4, 6]], none, 2, 2⟩
    let third : Chunk := ⟨[.ofInts [2], .nulls .bigInt 1], none, 1, 1⟩
    let second' : Chunk := ⟨[.nulls .bigInt 3, .ofInts [6, 0, 4]], some [0, 2], 2, 3⟩
    let first' : Chunk := ⟨[.ofInts [1, 2], .ofInts [7, 5]], none, 2, 2⟩
    let input := source config [.bigInt, .bigInt] [first, second, third]
    let input' := source config [.bigInt, .bigInt] [third, second', first']
    let rows := [first, second, third].flatMap Chunk.rows
    let rows' := [third, second', first'].flatMap Chunk.rows
    ∃ calls chunks chunks' s s', exprs.mapM (AggregateCall.ofExpr input.types) = .ok calls ∧
      (aggregate config keys [.bigInt] calls input).Pulls (fun _ => True)
        (aggregate config keys [.bigInt] calls input).start chunks s ∧
      (aggregate config keys [.bigInt] calls input').Pulls (fun _ => True)
        (aggregate config keys [.bigInt] calls input').start chunks' s' ∧
      chunks.map Chunk.count = [2, 1, 0] ∧ chunks'.map Chunk.count = [2, 1, 0] ∧
      ¬Overflowing keys calls rows ∧ ¬Overflowing keys calls rows' ∧
      (∀ session session' out out', session.pool = session'.pool →
        ((∃ g, (aggregate config keys [.bigInt] calls input).first session out = .ok () g) ↔
          ∃ g, (aggregate config keys [.bigInt] calls input').first session' out' = .ok () g)) ∧
      ∃ all all', HandsOut (aggregate config keys [.bigInt] calls input) config.capacity all chunks s ∧
        HandsOut (aggregate config keys [.bigInt] calls input') config.capacity all' chunks' s' ∧ all.Perm all' := by
  intro config keys exprs first second third second' first' input input' rows rows'
  have hcalls : ∃ calls, exprs.mapM (AggregateCall.ofExpr input.types) = .ok calls ∧
      ((aggregate config keys [.bigInt] calls input).pullTimes 3 (aggregate config keys [.bigInt] calls input).start
        (Session.ofLimit? none)).map (List.map Chunk.count) = some [2, 1, 0] ∧
      ((aggregate config keys [.bigInt] calls input').pullTimes 3 (aggregate config keys [.bigInt] calls input').start
        (Session.ofLimit? none)).map (List.map Chunk.count) = some [2, 1, 0] ∧
      ∀ c ∈ calls, c.OrderFree input.types := ⟨_, rfl, by decide +kernel, by decide +kernel, by decide +kernel⟩
  obtain ⟨calls, hcalls, hpulled, hpulled', hfree⟩ := hcalls
  obtain ⟨chunks, s, hrun, hcounts⟩ := pulls_of_map (fun _ => trivial) hpulled
  obtain ⟨chunks', s', hrun', hcounts'⟩ := pulls_of_map (fun _ => trivial) hpulled'
  have hsound : ∀ c ∈ [first, second, third], c.Sound ∧ c.types = [.bigInt, .bigInt] ∧ c.isEmpty = false := by decide
  have hsound' : ∀ c ∈ [third, second', first'], c.Sound ∧ c.types = [.bigInt, .bigInt] ∧ c.isEmpty = false := by decide
  have hne : chunks ≠ [] := by
    rintro rfl
    cases hcounts
  have hne' : chunks' ≠ [] := by
    rintro rfl
    cases hcounts'
  have hkeys : keys.mapM (Expr.resolve input.types) = .ok [.bigInt] := rfl
  have htypes : input'.types = input.types := rfl
  have hresolved := AggregateCall.resolved_of_mapM hcalls
  have hstreams := source_streams config (fun _ => True) hsound
  have hstreams' := source_streams config (fun _ => True) hsound'
  obtain ⟨_, ⟨⟨-, hrange⟩, -⟩, -⟩ := (blocking_aggregate config keys [.bigInt] calls input).handsOut hstreams
    (made_groups hkeys hresolved) hrun hne
  obtain ⟨_, ⟨⟨-, hrange'⟩, -⟩, -⟩ := (blocking_aggregate config keys [.bigInt] calls input').handsOut hstreams'
    (made_groups (htypes ▸ hkeys) (htypes ▸ hresolved)) hrun' hne'
  obtain ⟨hfirst, hrows⟩ := aggregate_permuted config hkeys hcalls hfree htypes hstreams hstreams'
    (source_feeds config fun c hc => (hsound c hc).1) (source_feeds config fun c hc => (hsound' c hc).1)
    (by decide +kernel)
  obtain ⟨all, all', hout, hout', -, hsame⟩ := hrows chunks chunks' s s' hrun hrun' hne hne'
  refine ⟨calls, chunks, chunks', s, s', hcalls, hrun, hrun', hcounts, hcounts', hrange, hrange', ?_, all, all', hout, hout',
    hsame (by decide)⟩
  intro session session' out out' hpool
  exact (hfirst session session' out out' trivial trivial).2.2 hrange hrange'
    ⟨source_frugal config fun c hc => (hsound c hc).1, source_frugal config fun c hc => (hsound' c hc).1, hpool⟩

/-- A sum leaves its range in one order and not in another. The zeros are one group, which the
first of them shows. An input that groups has taken bytes that are then lacking. -/
theorem aggregate_order_tells :
    let config : Config := ⟨2, none, false⟩
    let upward : Chunk := ⟨[.ofInts [0x7fffffffffffffff, 1, -1]], none, 3, 3⟩
    let downward : Chunk := ⟨[.ofInts [0x7fffffffffffffff, -1, 1]], none, 3, 3⟩
    let zeros : Chunk := ⟨[.ofSlots .double [⟨.double ⟨0x8000000000000000⟩, .inr rfl⟩, ⟨.double ⟨0⟩, .inr rfl⟩]], none, 2, 2⟩
    let swapped : Chunk := ⟨[.ofSlots .double [⟨.double ⟨0⟩, .inr rfl⟩, ⟨.double ⟨0x8000000000000000⟩, .inr rfl⟩]], none, 2, 2⟩
    let sum (c : Chunk) := aggregate config [] [] [⟨.sum, some (.column 0 .bigInt), .bigInt⟩] (source config [.bigInt] [c])
    let classes (c : Chunk) := aggregate config [.column 0 .double] [.double] [] (source config [.double] [c])
    let plain := source config [.bigInt] [⟨[.ofInts [1, 2]], none, 2, 2⟩]
    let grouped (input : Operator) := aggregate config [.column 0 .bigInt] [.bigInt] [] input
    let rows (op : Operator) (limit : Option Nat) :=
      (op.pullTimes 2 op.start (Session.ofLimit? limit)).map (List.flatMap Chunk.rows)
    (upward.rows.Perm downward.rows ∧ rows (sum downward) none = some [[⟨.bigInt, .bigInt 0x7fffffffffffffff⟩]] ∧
      overflowed ((sum upward).first (Session.ofLimit? none) Chunk.fresh) = true) ∧
    (zeros.rows.Perm swapped.rows ∧ rows (classes zeros) none = some [[⟨.double, .double ⟨0x8000000000000000⟩⟩]] ∧
      rows (classes swapped) none = some [[⟨.double, .double ⟨0⟩⟩]]) ∧
    rows plain (some 150) = some [[⟨.bigInt, .bigInt 1⟩], [⟨.bigInt, .bigInt 2⟩]] ∧
    rows (grouped plain) (some 150) = rows plain (some 150) ∧
    ((grouped (grouped plain)).refused (Session.ofLimit? (some 150))).isSome = true := by
  refine ⟨⟨?_, ?_, ?_⟩, ⟨?_, ?_, ?_⟩, ?_, ?_, ?_⟩
  all_goals decide +kernel

end Operator
end QueryEngine
