import QueryEngine.Proofs.Expr.Rowwise

/-! Expressions on fewer rows.

An expression that has its values on a chunk has them on the chunk with fewer active rows:
a hidden row raises no error, and of types an operator asks the same whichever rows are
active. Nothing is asked of the expression, so it holds of predicates that no one has
typed. -/
namespace QueryEngine

/-- The columns of another chunk, with no rows active but some that are active there. -/
structure Chunk.Fewer (c d : Chunk) : Prop where
  sound : c.Sound
  soundFewer : d.Sound
  columns : d.columns = c.columns
  active : ∀ r ∈ d.activeRows, r ∈ c.activeRows

/-- Fewer rows of a sound chunk. -/
theorem Chunk.Sound.fewer_select {c : Chunk} (hc : c.Sound) {rows : List Nat} (h : ∀ r ∈ rows, r ∈ c.activeRows) :
    Chunk.Fewer c (c.select rows) :=
  ⟨hc, hc.select fun r hr => hc.active_lt (h r hr), rfl, h⟩

/-- A column that stands for another where fewer rows are active. -/
structure Column.Stands (c d : Chunk) (col col' : Column) : Prop where
  size : col.size = c.physicalRows
  sizeFewer : col'.size = d.physicalRows
  type : col'.type = col.type
  datum : ∀ r ∈ d.activeRows, col'.datum r = col.datum r

namespace Evaluate
variable {c d : Chunk} {l l' r r' out : Column}

theorem types_of_logic {op : LogicOp} (h : logic op l r = .ok out) :
    (l.type = .boolean ∨ l.type = .sqlNull) ∧ (r.type = .boolean ∨ r.type = .sqlNull) := by
  obtain ⟨ls, hls, h⟩ := bind_eq_ok.mp h
  obtain ⟨rs, hrs, _⟩ := bind_eq_ok.mp h
  exact ⟨(Column.toBooleans_ok (lift_eq_ok.mp hls)).1, (Column.toBooleans_ok (lift_eq_ok.mp hrs)).1⟩

theorem common_of_comparison {op : ComparisonOp} (h : comparison op l r = .ok out) :
    (SqlType.common? l.type r.type).isSome = true := by
  obtain ⟨⟨t, _, _⟩, hc, _⟩ := bind_eq_ok.mp h
  rw [common_of_coerce (lift_eq_ok.mp hc)]
  rfl

theorem numeric_of_arithmetic (hc : c.Sound) {op : ArithmeticOp} (hl : l.size = c.physicalRows) (hr : r.size = c.physicalRows)
    (h : arithmetic c op l r = .ok out) : out.type = .sqlNull ∨ out.type.isNumeric = true := by
  have ht := (arithmetic_ok hc hl hr h).2.1
  obtain ⟨l', r', _, _, _, _, he⟩ := arithmetic_eq hc hl hr ht op
  rw [he] at h
  by_contra hnone
  obtain ⟨hnull, hnumeric⟩ := not_or.mp hnone
  rw [if_neg hnull, if_neg hnumeric] at h
  cases h

theorem binary_fewer (h : Chunk.Fewer c d) {op : BinaryOp} (hl : Column.Stands c d l l') (hr : Column.Stands c d r r')
    (hout : binary c op l r = .ok out) : ∃ out', binary d op l' r' = .ok out' ∧ out'.type = out.type := by
  have hsize : l'.size = r'.size := hl.sizeFewer.trans hr.sizeFewer.symm
  cases op with
  | logic op =>
    obtain ⟨htl, htr⟩ := types_of_logic hout
    obtain ⟨out', hout'⟩ : ∃ out', logic op l' r' = .ok out' := logic_of_types (hl.type ▸ htl) (hr.type ▸ htr) hsize
    exact ⟨out', hout', (logic_ok hout').1.trans (logic_ok hout).1.symm⟩
  | comparison op =>
    have hcommon := common_of_comparison hout
    rw [← hl.type, ← hr.type] at hcommon
    obtain ⟨out', hout'⟩ : ∃ out', comparison op l' r' = .ok out' := comparison_of_types hcommon hsize
    exact ⟨out', hout', (comparison_ok hsize hout').1.trans (comparison_ok (hl.size.trans hr.size.symm) hout).1.symm⟩
  | arithmetic op =>
    obtain ⟨_, hcommon, hvalue⟩ := arithmetic_ok h.sound hl.size hr.size hout
    have hnumeric := numeric_of_arithmetic h.sound hl.size hr.size hout
    rw [← hl.type, ← hr.type] at hcommon
    cases hout' : arithmetic d op l' r' with
    | ok out' =>
      have hcommon' := (arithmetic_ok h.soundFewer hl.sizeFewer hr.sizeFewer hout').2.1
      exact ⟨out', hout', Option.some.inj (hcommon'.symm.trans hcommon)⟩
    | error x =>
      obtain ⟨i, hi, e, he, _⟩ := arithmetic_error h.soundFewer hl.sizeFewer hr.sizeFewer hcommon hnumeric hout'
      rw [hl.datum i hi, hr.datum i hi, hvalue i (h.active i hi)] at he
      cases he

theorem unary_fewer (h : Chunk.Fewer c d) {op : UnaryOp} (hl : Column.Stands c d l l') (hout : unary c op l = .ok out) :
    ∃ out', unary d op l' = .ok out' ∧ out'.type = out.type := by
  cases op with
  | not =>
    obtain ⟨bs, hbs, hrest⟩ := bind_eq_ok.mp hout
    obtain ⟨bs', hbs'⟩ := Column.toBooleans_of_type (hl.type ▸ (Column.toBooleans_ok (lift_eq_ok.mp hbs)).1)
    cases hrest
    exact ⟨Column.ofBooleans (bs'.map fun b => b.map (!·)), by rw [unary, hbs']; rfl, rfl⟩
  | negate =>
    obtain ⟨htype, _, hvalue⟩ := negate_ok h.sound hl.size hout
    cases hout' : negate d l' with
    | ok out' => exact ⟨out', hout', (negate_ok h.soundFewer hl.sizeFewer hout').1.trans (hl.type.trans htype.symm)⟩
    | error x =>
      by_cases hnull : l'.type = .sqlNull
      · rw [negate, if_pos hnull] at hout'
        cases hout'
      have hnumeric : l'.type.isNumeric = true := by
        by_contra hnot
        rw [hl.type] at hnull hnot
        obtain ⟨m, hm, htm, _⟩ := Column.masked_ok h.sound hl.size
        have hout : negate c l = .ok out := hout
        rw [negate, if_neg hnull, hm, ok_bind] at hout
        simp only [htm, hnot, Bool.not_false, if_true] at hout
        cases hout
      obtain ⟨i, hi, e, he, _⟩ := negate_error h.soundFewer hl.sizeFewer hnumeric hout'
      rw [hl.datum i hi, hvalue i (h.active i hi)] at he
      cases he
  | isNull | isNotNull =>
    cases hout
    exact ⟨_, rfl, rfl⟩

theorem cast_fewer (h : Chunk.Fewer c d) {t : SqlType} (hl : Column.Stands c d l l') (hout : cast c t l = .ok out) :
    ∃ out', cast d t l' = .ok out' ∧ out'.type = out.type := by
  obtain ⟨htype, _, hvalue⟩ := cast_ok h.sound hl.size hout
  cases hout' : cast d t l' with
  | ok out' => exact ⟨out', rfl, (cast_ok h.soundFewer hl.sizeFewer hout').1.trans htype.symm⟩
  | error x =>
    by_cases hsame : l'.type = t
    · rw [cast, if_pos hsame] at hout'
      cases hout'
    have hcan : l'.type.canCast t = true := by
      by_contra hnot
      rw [hl.type] at hsame hnot
      obtain ⟨m, hm, htm, _⟩ := Column.masked_ok h.sound hl.size
      rw [cast, if_neg hsame, hm, ok_bind, lift_eq_ok, Column.cast, htm, if_neg hnot] at hout
      cases hout
    obtain ⟨i, hi, e, he, _⟩ := cast_error h.soundFewer hl.sizeFewer hcan hout'
    rw [hl.datum i hi, hvalue i (h.active i hi)] at he
    cases he

end Evaluate

namespace Expr
variable {c d : Chunk} {e : Expr} {col : Column}

/-- Columns of one expression agree on the rows that are active in both chunks. -/
theorem stands_of_evaluate (h : Chunk.Fewer c d) {col' : Column} (hcol : e.evaluate c = .ok col)
    (hcol' : e.evaluate d = .ok col') (htype : col'.type = col.type) : Column.Stands c d col col' := by
  have hrow := evaluate_rowwise h.sound hcol
  have hrow' := evaluate_rowwise h.soundFewer hcol'
  refine ⟨hrow.size, hrow'.size, htype, fun r hr => ?_⟩
  have hsame : d.row r = c.row r := by rw [Chunk.row, h.columns, Chunk.row]
  have hvalue := hrow'.value r hr
  simp only [hsame, hrow.value r (h.active r hr)] at hvalue
  exact (Except.ok.inj hvalue).symm

/-- What can be evaluated can be on fewer rows. -/
theorem evaluate_fewer (h : Chunk.Fewer c d) (hcol : e.evaluate c = .ok col) :
    ∃ col', e.evaluate d = .ok col' ∧ Column.Stands c d col col' := by
  suffices hsome : ∃ col', e.evaluate d = .ok col' ∧ col'.type = col.type by
    obtain ⟨col', hcol', htype⟩ := hsome
    exact ⟨col', hcol', stands_of_evaluate h hcol hcol' htype⟩
  fun_induction evaluate c e generalizing col with
  | case1 i t column hi =>
    cases hcol
    refine ⟨column, ?_, rfl⟩
    rw [evaluate, h.columns, hi]
  | case2 => cases hcol
  | case3 v =>
    cases hcol
    exact ⟨_, rfl, rfl⟩
  | case4 l op r ihl ihr =>
    obtain ⟨lc, hl, hcol⟩ := bind_eq_ok.mp hcol
    obtain ⟨rc, hr, hcol⟩ := bind_eq_ok.mp hcol
    obtain ⟨lc', hl', htl⟩ := ihl hl
    obtain ⟨rc', hr', htr⟩ := ihr hr
    obtain ⟨out', hout', htype⟩ := Evaluate.binary_fewer h (stands_of_evaluate h hl hl' htl)
      (stands_of_evaluate h hr hr' htr) hcol
    refine ⟨out', ?_, htype⟩
    rw [evaluate, hl', ok_bind, hr', ok_bind, hout']
  | case5 op e ih =>
    obtain ⟨ec, he, hcol⟩ := bind_eq_ok.mp hcol
    obtain ⟨ec', he', ht⟩ := ih he
    obtain ⟨out', hout', htype⟩ := Evaluate.unary_fewer h (stands_of_evaluate h he he' ht) hcol
    refine ⟨out', ?_, htype⟩
    rw [evaluate, he', ok_bind, hout']
  | case6 e t ih =>
    obtain ⟨ec, he, hcol⟩ := bind_eq_ok.mp hcol
    obtain ⟨ec', he', ht⟩ := ih he
    obtain ⟨out', hout', htype⟩ := Evaluate.cast_fewer h (stands_of_evaluate h he he' ht) hcol
    refine ⟨out', ?_, htype⟩
    rw [evaluate, he', ok_bind, hout']
  | case7 => cases hcol
  | case8 => cases hcol

/-! ### Selections -/

/-- Where a column of truth values is TRUE can be told. -/
theorem selectRows_of_evaluate (hc : c.Sound) (hcol : e.evaluate c = .ok col)
    (htype : col.type = .boolean ∨ col.type = .sqlNull) : ∃ rows, e.selectRows c = .ok rows := by
  obtain ⟨truths, htruths⟩ := Column.toBooleans_of_type htype
  have hlength : truths.length = c.physicalRows := (Column.toBooleans_ok htruths).2.1.trans (evaluate_rowwise hc hcol).size
  unfold selectRows
  rw [hcol, ok_bind, htruths, lift_ok, ok_bind, hlength, if_pos hc.activeWithin]
  exact ⟨_, rfl⟩

theorem evaluate_of_selectRows {rows : Selection} (h : e.selectRows c = .ok rows) :
    ∃ col, e.evaluate c = .ok col ∧ (col.type = .boolean ∨ col.type = .sqlNull) := by
  obtain ⟨col, hcol, hrest⟩ := bind_eq_ok.mp h
  obtain ⟨truths, htruths, _⟩ := bind_eq_ok.mp hrest
  exact ⟨col, hcol, (Column.toBooleans_ok (lift_eq_ok.mp htruths)).1⟩

theorem selectRows_fewer (h : Chunk.Fewer c d) {rows : Selection} (hrows : e.selectRows c = .ok rows) :
    ∃ rows', e.selectRows d = .ok rows' := by
  obtain ⟨col, hcol, htype⟩ := evaluate_of_selectRows hrows
  obtain ⟨col', hcol', hstands⟩ := evaluate_fewer h hcol
  exact selectRows_of_evaluate h.soundFewer hcol' (hstands.type ▸ htype)

/-! ### Conjunctions -/

/-- Predicates joined by AND, however they are bracketed. -/
inductive Conjunction : List Expr → Expr → Prop
  | single (p : Expr) : Conjunction [p] p
  | and {ps qs : List Expr} {p q : Expr} (hp : Conjunction ps p) (hq : Conjunction qs q) :
    Conjunction (ps ++ qs) (.binary p (.logic .and) q)

/-- A conjunction is TRUE where both its sides are; unknown is not TRUE. -/
theorem holdsOn_and {row : Row} {p q : Expr} {l r : Datum} {a b : Option Bool} (hp : p.onRow row = .ok l)
    (hq : q.onRow row = .ok r) (ha : l.toBoolean = .ok a) (hb : r.toBoolean = .ok b) :
    (Expr.binary p (.logic .and) q).holdsOn row = (p.holdsOn row && q.holdsOn row) := by
  have hand : (Expr.binary p (.logic .and) q).onRow row = .ok (.ofBoolean (LogicOp.and.apply a b)) := by
    rw [onRow, hp, ok_bind, hq, ok_bind, Datum.binary, Datum.logic, ha, hb]
    rfl
  rw [holdsOn, holdsOn, holdsOn, valueOn_of_ok hand, valueOn_of_ok hp, valueOn_of_ok hq, ha, hb]
  rcases a with _ | _ | _ <;> rcases b with _ | _ | _ <;> rfl

/-- Where a conjunction is TRUE can be told of each of its sides, and it is where both are. -/
theorem selectRows_and (hc : c.Sound) {p q : Expr} {rows : Selection}
    (h : (Expr.binary p (.logic .and) q).selectRows c = .ok rows) :
    (∃ rows, p.selectRows c = .ok rows) ∧ (∃ rows, q.selectRows c = .ok rows) ∧
      ∀ r ∈ c.activeRows,
        (Expr.binary p (.logic .and) q).holdsOn (c.row r) = (p.holdsOn (c.row r) && q.holdsOn (c.row r)) := by
  obtain ⟨col, hcol, _⟩ := evaluate_of_selectRows h
  obtain ⟨lc, hl, hcol⟩ := bind_eq_ok.mp hcol
  obtain ⟨rc, hr, hcol⟩ := bind_eq_ok.mp hcol
  have hlrow := evaluate_rowwise hc hl
  have hrrow := evaluate_rowwise hc hr
  obtain ⟨htl, htr⟩ := Evaluate.types_of_logic hcol
  refine ⟨selectRows_of_evaluate hc hl htl, selectRows_of_evaluate hc hr htr, fun i hi => ?_⟩
  have htruth {col : Column} (htype : col.type = .boolean ∨ col.type = .sqlNull) (hsize : col.size = c.physicalRows) :
      ∃ b, (col.datum i).toBoolean = .ok b := by
    obtain ⟨bs, hbs⟩ := Column.toBooleans_of_type htype
    obtain ⟨b, _, hb⟩ := (Column.toBooleans_ok hbs).2.2 i (hsize ▸ hc.active_lt hi)
    exact ⟨b, hb⟩
  obtain ⟨a, ha⟩ := htruth htl hlrow.size
  obtain ⟨b, hb⟩ := htruth htr hrrow.size
  exact holdsOn_and (hlrow.value i hi) (hrrow.value i hi) ha hb

end Expr
end QueryEngine
