import QueryEngine.Proofs.Join.Filtered

/-! The mark of a mark join, and IN.

A row is IN others if it is equal to one of them: over the rows an OR, and for each row
over the pairs of keys an AND, of equations that are unknown where a key is NULL. The
join knows less. Of the right side it keeps the keys without NULL and whether there was
another one, of a left row whether its key has a NULL, so without a match any such NULL
leaves the mark unknown. The IN can then still be FALSE, by an equation of two other
parts of the same keys. A key of one part has no other parts. -/
namespace QueryEngine

/-! ### AND and OR of many -/

namespace LogicOp

/-- The truth of no operands. -/
def unit : LogicOp → Bool
  | and => true
  | or => false

/-- The operands put together, from the right. -/
def applyAll (op : LogicOp) (truths : List (Option Bool)) : Option Bool := truths.foldr op.apply (some op.unit)

variable {op : LogicOp} {truths : List (Option Bool)}

theorem apply_eq_unit {a b : Option Bool} : op.apply a b = some op.unit ↔ a = some op.unit ∧ b = some op.unit := by
  cases op <;> rcases a with _ | _ | _ <;> rcases b with _ | _ | _ <;> decide

theorem apply_eq_not_unit {a b : Option Bool} :
    op.apply a b = some (!op.unit) ↔ a = some (!op.unit) ∨ b = some (!op.unit) := by
  cases op <;> rcases a with _ | _ | _ <;> rcases b with _ | _ | _ <;> decide

theorem applyAll_eq_unit : op.applyAll truths = some op.unit ↔ ∀ b ∈ truths, b = some op.unit := by
  induction truths with
  | nil => simp [applyAll]
  | cons b truths ih =>
    rw [applyAll, List.foldr_cons, apply_eq_unit, ← applyAll, ih, List.forall_mem_cons]

/-- One operand may decide for all. -/
theorem applyAll_eq_not_unit : op.applyAll truths = some (!op.unit) ↔ some (!op.unit) ∈ truths := by
  induction truths with
  | nil => simp [applyAll]
  | cons b truths ih =>
    rw [applyAll, List.foldr_cons, apply_eq_not_unit, ← applyAll, ih, List.mem_cons]
    exact or_congr_left eq_comm

/-- Where the whole is unknown, an operand is. -/
theorem none_mem_of_applyAll (h : op.applyAll truths = none) : none ∈ truths := by
  by_contra hknown
  have hunit : op.applyAll truths = some op.unit := by
    refine applyAll_eq_unit.mpr fun b hb => ?_
    have hdecided : some (!op.unit) ∉ truths := fun hmem => by
      rw [applyAll_eq_not_unit.mpr hmem] at h
      cases h
    cases b with
    | none => exact absurd hb hknown
    | some b =>
      have hne : b ≠ !op.unit := fun he => hdecided (he ▸ hb)
      rw [Bool.eq_not_of_ne hne, Bool.not_not]
  rw [hunit] at h
  cases h

end LogicOp

/-! ### Marks by NULLs -/

namespace JoinKeys
variable {k : JoinKeys} {right : List Row} {l : Row}

/-- There are right rows, and a NULL in the key of the left row or of one of them. -/
def meetsNull (k : JoinKeys) (right : List Row) (l : Row) : Bool :=
  !right.isEmpty && ((k.left l).hasNull || right.any fun r => (k.right r).hasNull)

theorem meetsNull_of_mem {r : Row} (hr : r ∈ right) (h : (k.left l).hasNull = true ∨ (k.right r).hasNull = true) :
    k.meetsNull right l = true := by
  have hsome : right.isEmpty = false := List.isEmpty_eq_false_iff_exists_mem.mpr ⟨r, hr⟩
  rw [meetsNull, hsome, Bool.not_false, Bool.true_and, Bool.or_eq_true, List.any_eq_true]
  exact h.imp_right fun hnull => ⟨r, hr, hnull⟩

theorem mark_of_hasPartner (h : k.hasPartner right l = true) : k.mark right l = some true := by
  rw [mark, if_pos h]

theorem mark_of_not_hasPartner (h : k.hasPartner right l = false) :
    k.mark right l = if k.meetsNull right l then none else some false := by
  rw [mark, h, meetsNull]
  cases right.isEmpty <;> rfl

end JoinKeys

/-! ### Row IN -/

namespace Plan
variable {left right : List SqlType} {pair key : Expr × Expr} {on keys : List (Expr × Expr)} {l r : Row}
  {leftRows rightRows : List Row}

/-- A left row is equal to a right one: all equations. -/
def rowEquals (leftColumns : Nat) (on : List (Expr × Expr)) (l r : Row) : Option Bool :=
  LogicOp.and.applyAll (on.map fun pair => (equation leftColumns pair).truthOn (l ++ r))

/-- A left row is IN the right ones: it is equal to one of them. -/
def rowIn (leftColumns : Nat) (on : List (Expr × Expr)) (right : List Row) (l : Row) : Option Bool :=
  LogicOp.or.applyAll (right.map (rowEquals leftColumns on l))

/-- An equation is unknown for a NULL and nothing else. -/
theorem truthOn_equation_eq_none (hpair : joinPair left right pair = .ok key) (hl : Typed left l) (hr : Typed right r) :
    (equation left.length pair).truthOn (l ++ r) = none ↔
      (leftKey left right l pair).isNull = true ∨ (rightKey left right r pair).isNull = true := by
  rw [truthOn_equation hpair hl hr, ComparisonOp.apply]
  cases (leftKey left right l pair).isNull <;> cases (rightKey left right r pair).isNull <;> simp

theorem hasNull_left : ((castKeys left right on).left l).hasNull = true ↔
    ∃ pair ∈ on, (leftKey left right l pair).isNull = true := by
  rw [castKeys, Key.hasNull, List.any_map, List.any_eq_true]
  rfl

theorem hasNull_right : ((castKeys left right on).right r).hasNull = true ↔
    ∃ pair ∈ on, (rightKey left right r pair).isNull = true := by
  rw [castKeys, Key.hasNull, List.any_map, List.any_eq_true]
  rfl

section
variable (hkeys : on.mapM (joinPair left right) = .ok keys)
include hkeys

/-- Rows whose keys join are equal. -/
theorem rowEquals_eq_true (hdistinct : (castKeys left right on).Distinct leftRows rightRows)
    (hleft : ∀ l ∈ leftRows, Typed left l) (hright : ∀ r ∈ rightRows, Typed right r) (hl : l ∈ leftRows)
    (hr : r ∈ rightRows) :
    rowEquals left.length on l r = some true ↔
      ((castKeys left right on).left l).joins ((castKeys left right on).right r) = true := by
  have hunit : rowEquals left.length on l r = some true ↔
      ∀ pair ∈ on, (equation left.length pair).truthOn (l ++ r) = some true :=
    LogicOp.applyAll_eq_unit.trans List.forall_mem_map
  rw [hunit, ← all_holdsOn_equation hkeys hdistinct hleft hright hl hr, List.all_map, List.all_eq_true]
  exact forall₂_congr fun pair _ => Expr.holdsOn_iff.symm

/-- It takes a NULL not to know whether rows are equal. -/
theorem hasNull_of_rowEquals (hl : Typed left l) (hr : Typed right r) (h : rowEquals left.length on l r = none) :
    ((castKeys left right on).left l).hasNull = true ∨ ((castKeys left right on).right r).hasNull = true := by
  obtain ⟨pair, hpair, hunknown⟩ := List.mem_map.mp (LogicOp.none_mem_of_applyAll h)
  obtain ⟨key, _, hkey⟩ := mapM_ok_of_mem hkeys hpair
  rcases (truthOn_equation_eq_none hkey hl hr).mp hunknown with hnull | hnull
  · exact .inl (hasNull_left.mpr ⟨pair, hpair, hnull⟩)
  · exact .inr (hasNull_right.mpr ⟨pair, hpair, hnull⟩)

/-- What the mark is, but for the NULLs beside an equation that is FALSE, is the IN. -/
theorem mark_eq_rowIn (hdistinct : (castKeys left right on).Distinct leftRows rightRows)
    (hleft : ∀ l ∈ leftRows, Typed left l) (hright : ∀ r ∈ rightRows, Typed right r) (hl : l ∈ leftRows) :
    (castKeys left right on).mark rightRows l =
      if rowIn left.length on rightRows l = some false ∧ (castKeys left right on).meetsNull rightRows l = true then none
      else rowIn left.length on rightRows l := by
  let k : JoinKeys := castKeys left right on
  have htrue : rowIn left.length on rightRows l = some true ↔ k.hasPartner rightRows l = true := by
    have hin : rowIn left.length on rightRows l = some true ↔ some true ∈ rightRows.map (rowEquals left.length on l) :=
      LogicOp.applyAll_eq_not_unit
    rw [hin, List.mem_map, JoinKeys.hasPartner, List.any_eq_true]
    exact exists_congr fun r => and_congr_right fun hr => rowEquals_eq_true hkeys hdistinct hleft hright hl hr
  have hnone (h : rowIn left.length on rightRows l = none) : k.meetsNull rightRows l = true := by
    obtain ⟨r, hr, hunknown⟩ := List.mem_map.mp (LogicOp.none_mem_of_applyAll h)
    exact JoinKeys.meetsNull_of_mem hr (hasNull_of_rowEquals hkeys (hleft l hl) (hright r hr) hunknown)
  cases hfound : k.hasPartner rightRows l with
  | true =>
    rw [JoinKeys.mark_of_hasPartner hfound, htrue.mpr hfound]
    rfl
  | false =>
    rw [JoinKeys.mark_of_not_hasPartner hfound]
    cases hin : rowIn left.length on rightRows l with
    | none => rw [if_pos (hnone hin), if_neg fun h => by cases h.1]
    | some b =>
      cases b with
      | true =>
        rw [htrue.mp hin] at hfound
        cases hfound
      | false =>
        simp only [true_and]
        rfl

end

/-- With one pair of keys, a row that is not IN the others has met no NULL. -/
theorem meetsNull_of_one (hpair : joinPair left right pair = .ok key) (hl : Typed left l)
    (hright : ∀ r ∈ rightRows, Typed right r) (h : rowIn left.length [pair] rightRows l = some false) :
    (castKeys left right [pair]).meetsNull rightRows l = false := by
  have hfalse : ∀ r ∈ rightRows, (equation left.length pair).truthOn (l ++ r) = some false := by
    intro r hr
    have hrow : rowEquals left.length [pair] l r = some false := LogicOp.applyAll_eq_unit.mp h _ (List.mem_map_of_mem hr)
    exact (List.mem_singleton.mp (LogicOp.applyAll_eq_not_unit.mp hrow)).symm
  have hknown (r : Row) (hr : r ∈ rightRows) :
      ((castKeys left right [pair]).left l).hasNull = false ∧ ((castKeys left right [pair]).right r).hasNull = false := by
    have htruth : ¬(equation left.length pair).truthOn (l ++ r) = none := by
      rw [hfalse r hr]
      nofun
    rw [truthOn_equation_eq_none hpair hl (hright r hr), not_or, Bool.not_eq_true, Bool.not_eq_true] at htruth
    exact ⟨(Bool.or_false _).trans htruth.1, (Bool.or_false _).trans htruth.2⟩
  cases rightRows with
  | nil => rfl
  | cons first rest =>
    rw [JoinKeys.meetsNull, (hknown first (List.mem_cons_self ..)).1, Bool.false_or, List.isEmpty_cons, Bool.not_false,
      Bool.true_and, List.any_eq_false]
    exact fun r hr => Bool.eq_false_iff.mp (hknown r hr).2

/-- A key that has a value when cast has one. -/
theorem valued_of_castTo {e : Expr} {actual t : SqlType} {row : Row}
    (h : ∃ d, (if actual = t then e else .cast e t : Expr).onRow row = .ok d) : ∃ d, e.onRow row = .ok d := by
  split at h
  · exact h
  · obtain ⟨_, h⟩ := h
    obtain ⟨d, hd, _⟩ := bind_eq_ok.mp h
    exact ⟨d, hd⟩

end Plan

/-! ### Runs of a mark join -/

namespace Operator
open Plan

section
variable (config : Config) {sees : List (Nat × Mask) → Prop} {left right : Operator} {on keys : List (Expr × Expr)}
  {leftRows rightRows : List Row} {chunks : List Chunk} {s : State}
  (hkeys : on.mapM (joinPair left.types right.types) = .ok keys) (hright : right.Streams sees rightRows)
  (hrun : (join config .mark keys left right).Pulls sees (join config .mark keys left right).start chunks s)
  (hend : ∃ c ∈ chunks, c.isEmpty = true)
include hkeys hright hrun hend

/-- Every right row has got a key. -/
theorem mark_right_valued : ∀ r ∈ rightRows, ∀ key ∈ keys, ∃ d, key.2.onRow r = .ok d := by
  classical
  intro r hr key hmem
  -- Rows without values may be given a key of no parts, and the index holds none.
  let k : Row → Key := fun row =>
    if ∀ e ∈ keys.map Prod.snd, ∃ d, e.onRow row = .ok d then (joinKeys keys).right row else []
  have hkey : KeyOn (keys.map Prod.snd) right.types _ k := (keyOn_right hkeys).2.of_valued fun row h => if_pos h
  obtain ⟨c, hc, _⟩ := hend
  obtain ⟨side, hindexed⟩ := join_reads_right config hkey hright hrun (List.ne_nil_of_mem hc)
  have hwidth := hindexed.width r hr
  by_cases hvalued : ∀ e ∈ keys.map Prod.snd, ∃ d, e.onRow r = .ok d
  · exact hvalued key.2 (List.mem_map_of_mem hmem)
  · have hnone : k r = [] := if_neg hvalued
    rw [hnone, List.length_map, ← length_of_mapM hkeys] at hwidth
    rw [List.length_eq_zero_iff.mp hwidth.symm] at hmem
    cases hmem

variable (hleft : left.Streams sees leftRows)
include hleft

/-- The rows that a mark join has read are of the types of its inputs. -/
theorem mark_typed : (∀ l ∈ leftRows, Typed left.types l) ∧ ∀ r ∈ rightRows, Typed right.types r := by
  constructor
  · have hall := join_streams config (keyOn_left hkeys).1 (keyOn_right hkeys).1 hleft hright hrun hend
    have htyped := join_streams config (keyOn_left hkeys).1 (keyOn_right hkeys).1 hleft.typed hright hrun hend
    rw [JoinKeys.nestedLoop_mark] at hall htyped
    have hlength := congrArg List.length (htyped.symm.trans hall)
    rw [List.length_map, List.length_map, List.length_filter_eq_length_iff] at hlength
    exact fun l hl => of_decide_eq_true (hlength l hl)
  · obtain ⟨c, hc, _⟩ := hend
    obtain ⟨side, hindexed⟩ := join_reads_right config (keyOn_right hkeys).1 hright hrun (List.ne_nil_of_mem hc)
    exact fun r hr => hindexed.lists.typed_of_mem hr

/-- Every left row has got a key, unless there is nothing to look it up in. -/
theorem mark_left_valued (hne : rightRows ≠ []) : ∀ l ∈ leftRows, ∀ key ∈ keys, ∃ d, key.1.onRow l = .ok d := by
  classical
  intro l hl key hmem
  by_contra hmissing
  -- A row without values may be given the key of no parts, which joins all others, as well
  -- as one with a NULL.
  let k : JoinKeys := joinKeys keys
  let k' : JoinKeys :=
    ⟨fun row => if ∀ e ∈ keys.map Prod.fst, ∃ d, e.onRow row = .ok d then k.left row else [], k.right⟩
  have hkey : KeyOn (keys.map Prod.fst) left.types _ k'.left := (keyOn_left hkeys).2.of_valued fun row h => if_pos h
  have hrows := join_streams config (keyOn_left hkeys).2 (keyOn_right hkeys).2 hleft hright hrun hend
  have hrows' := join_streams config hkey (keyOn_right hkeys).2 hleft hright hrun hend
  rw [JoinKeys.nestedLoop_mark] at hrows hrows'
  have hmark : Datum.ofBoolean (k.mark rightRows l) = Datum.ofBoolean (k'.mark rightRows l) :=
    List.singleton_inj.mp (List.append_cancel_left (List.map_inj_left.mp (hrows.symm.trans hrows') l hl))
  obtain ⟨r, hr⟩ := List.exists_mem_of_ne_nil _ hne
  have hjoined : k'.hasPartner rightRows l = true := by
    have hnone : k'.left l = [] := if_neg fun h => hmissing (h key.1 (List.mem_map_of_mem hmem))
    rw [JoinKeys.hasPartner, hnone, List.any_eq_true]
    exact ⟨r, hr, rfl⟩
  have hnull : (k.left l).hasNull = true := by
    refine List.any_eq_true.mpr ⟨(key.1.valueOn l).value, List.mem_map_of_mem hmem, ?_⟩
    unfold Expr.valueOn
    cases hvalue : key.1.onRow l with
    | ok d => exact absurd ⟨d, hvalue⟩ hmissing
    | error x => rfl
  have halone : k.hasPartner rightRows l = false := by
    refine List.any_eq_false.mpr fun r _ => ?_
    rw [Key.joins_eq (by simp [k, joinKeys]), hnull]
    exact Bool.false_ne_true
  rw [JoinKeys.mark_of_hasPartner hjoined, JoinKeys.mark_of_not_hasPartner halone,
    if_pos (JoinKeys.meetsNull_of_mem hr (.inl hnull))] at hmark
  cases hmark

/-- Every equation of a pair of rows has a value. -/
theorem equation_valued : ∀ l ∈ leftRows, ∀ r ∈ rightRows, ∀ pair ∈ on,
    ∃ b, (equation left.types.length pair).onRow (l ++ r) = .ok (Datum.ofBoolean b) := by
  intro l hl r hr pair hpair
  obtain ⟨key, hmem, hkey⟩ := mapM_ok_of_mem hkeys hpair
  obtain ⟨hleftTyped, hrightTyped⟩ := mark_typed config hkeys hright hrun hend hleft
  obtain ⟨_, _, _, _, hkeyLeft, hkeyRight⟩ := joinPair_ok hkey
  have hl' := mark_left_valued config hkeys hright hrun hend hleft (List.ne_nil_of_mem hr) l hl key hmem
  have hr' := mark_right_valued config hkeys hright hrun hend r hr key hmem
  rw [hkeyLeft] at hl'
  rw [hkeyRight] at hr'
  obtain ⟨dl, hdl⟩ := valued_of_castTo hl'
  obtain ⟨dr, hdr⟩ := valued_of_castTo hr'
  exact ⟨_, equation_ok hkey (hleftTyped l hl) (hrightTyped r hr) hdl hdr⟩

end

/-- A mark join by keys that are not compared as doubles, pulled to its end. All equations
have values, and each left row comes with its IN as the mark, except that in place of FALSE
there is NULL where a key of the row or of a right row has a NULL. With one pair of keys
there is no such place. -/
theorem join_mark_rowIn (config : Config) {sees : List (Nat × Mask) → Prop} {left right : Operator}
    {on keys : List (Expr × Expr)} {leftRows rightRows : List Row}
    (hkeys : on.mapM (joinPair left.types right.types) = .ok keys)
    (hdouble : ∀ pair ∈ on, commonType left.types right.types pair ≠ .double) (hleft : left.Streams sees leftRows)
    (hright : right.Streams sees rightRows) {chunks : List Chunk} {s : State}
    (hrun : (join config .mark keys left right).Pulls sees (join config .mark keys left right).start chunks s)
    (hend : ∃ c ∈ chunks, c.isEmpty = true) :
    (∀ l ∈ leftRows, ∀ r ∈ rightRows, ∀ pair ∈ on,
      ∃ b, (equation left.types.length pair).onRow (l ++ r) = .ok (Datum.ofBoolean b)) ∧
    (chunks.flatMap Chunk.rows = leftRows.map fun l =>
      let isIn := rowIn left.types.length on rightRows l
      let meetsNull := (castKeys left.types right.types on).meetsNull rightRows l
      l ++ [Datum.ofBoolean (if isIn = some false ∧ meetsNull = true then none else isIn)]) ∧
    (on.length = 1 → chunks.flatMap Chunk.rows = leftRows.map fun l =>
      l ++ [Datum.ofBoolean (rowIn left.types.length on rightRows l)]) := by
  obtain ⟨hleftTyped, hrightTyped⟩ := mark_typed config hkeys hright hrun hend hleft
  have hdistinct : (castKeys left.types right.types on).Distinct leftRows rightRows :=
    distinct_of_types hkeys hdouble hleftTyped
  have hrows := join_streams config (keyOn_left hkeys).1 (keyOn_right hkeys).1 hleft hright hrun hend
  rw [JoinKeys.nestedLoop_mark] at hrows
  have hmark (l : Row) (hl : l ∈ leftRows) := mark_eq_rowIn hkeys hdistinct hleftTyped hrightTyped hl
  refine ⟨equation_valued config hkeys hright hrun hend hleft, ?_, fun hone => ?_⟩
  · rw [hrows]
    exact List.map_congr_left fun l hl => by rw [hmark l hl]
  · obtain ⟨pair, rfl⟩ := List.length_eq_one_iff.mp hone
    obtain ⟨key, _, hkey⟩ := mapM_ok_of_mem hkeys (List.mem_singleton_self pair)
    rw [hrows]
    refine List.map_congr_left fun l hl => ?_
    rw [hmark l hl, if_neg]
    rintro ⟨hin, hnull⟩
    rw [meetsNull_of_one hkey (hleftTyped l hl) hrightTyped hin] at hnull
    cases hnull

/-- One key, a left row that joins, one that does not and one with a NULL, and a NULL on
the right: the mark is TRUE for the first and unknown for the others. -/
theorem join_mark_rowIn_one :
    let config : Config := ⟨2, none, true⟩
    let on : List (Expr × Expr) := [(.column 0 .integer, .column 0 .integer)]
    let null := Slot.null .integer
    let left : Chunk := ⟨[.ofSlots .integer [null, ⟨.integer 7, .inr rfl⟩, ⟨.integer 1, .inr rfl⟩]], some [2, 1, 0], 3, 3⟩
    let right : Chunk := ⟨[.ofSlots .integer [⟨.integer 1, .inr rfl⟩, null]], none, 2, 2⟩
    let op := join config .mark on (source config [.integer] [left]) (source config [.integer] [right])
    ∃ chunks s, op.Pulls (fun _ => True) op.start chunks s ∧ (∃ c ∈ chunks, c.isEmpty = true) ∧
      left.rows.map (rowIn 1 on right.rows) = [some true, none, none] ∧
      chunks.flatMap Chunk.rows = left.rows.map fun l => l ++ [Datum.ofBoolean (rowIn 1 on right.rows l)] := by
  intro config on null left right op
  have hpulled : (op.pullTimes 2 op.start (Session.ofLimit? none)).map (List.any · Chunk.isEmpty) = some true := by
    decide +kernel
  obtain ⟨chunks, s, hrun, hany⟩ := pulls_of_map (fun _ => trivial) hpulled
  have hend : ∃ c ∈ chunks, c.isEmpty = true := List.any_eq_true.mp hany
  have hleft : (source config [.integer] [left]).Streams (fun _ => True) left.rows :=
    source_streams_chunk config _ rfl rfl rfl
  have hright : (source config [.integer] [right]).Streams (fun _ => True) right.rows :=
    source_streams_chunk config _ rfl rfl rfl
  have hkeys : on.mapM (joinPair [.integer] [.integer]) = .ok on := rfl
  obtain ⟨-, -, hrows⟩ := join_mark_rowIn config hkeys (by decide) hleft hright hrun hend
  exact ⟨chunks, s, hrun, hend, by decide +kernel, hrows rfl⟩

/-- Two keys, the row of 1 and NULL against the row of 2 and 3: it is not IN, by its first
key, and its mark is NULL. -/
theorem join_mark_not_rowIn :
    let config : Config := ⟨1, none, true⟩
    let on : List (Expr × Expr) := [(.column 0 .bigInt, .column 0 .bigInt), (.column 1 .bigInt, .column 1 .bigInt)]
    let left : Chunk := ⟨[.ofInts [1], .ofSlots .bigInt [Slot.null .bigInt]], none, 1, 1⟩
    let right : Chunk := ⟨[.ofInts [2], .ofInts [3]], none, 1, 1⟩
    let types : List SqlType := [.bigInt, .bigInt]
    let op := join config .mark on (source config types [left]) (source config types [right])
    on.mapM (joinPair types types) = .ok on ∧ (∀ pair ∈ on, commonType types types pair ≠ .double) ∧
    ∃ chunks s, op.Pulls (fun _ => True) op.start chunks s ∧ (∃ c ∈ chunks, c.isEmpty = true) ∧
      (chunks.flatMap Chunk.rows = left.rows.map fun l => l ++ [Datum.ofBoolean none]) ∧
      chunks.flatMap Chunk.rows ≠ left.rows.map fun l => l ++ [Datum.ofBoolean (rowIn 2 on right.rows l)] := by
  intro config on left right types op
  have hpulled : (op.pullTimes 2 op.start (Session.ofLimit? none)).map
      (fun chunks => (chunks.any Chunk.isEmpty, chunks.flatMap Chunk.rows)) =
        some (true, left.rows.map fun l => l ++ [Datum.ofBoolean none]) := by
    decide +kernel
  obtain ⟨chunks, s, hrun, hseen⟩ := pulls_of_map (fun _ => trivial) hpulled
  obtain ⟨hany, hrows⟩ := Prod.mk.inj hseen
  refine ⟨rfl, by decide, chunks, s, hrun, List.any_eq_true.mp hany, hrows, ?_⟩
  rw [hrows]
  decide +kernel

end Operator
end QueryEngine
