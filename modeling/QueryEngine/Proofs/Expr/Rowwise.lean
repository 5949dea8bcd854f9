import QueryEngine.Proofs.Expr.Operands
import QueryEngine.Proofs.Expr.Typing

/-! Expressions on columns, row by row.

Where evaluating an expression on a chunk succeeds, every active row of the result
has the value that the expression has on that row alone (`evaluate_rowwise`). Where
it fails and the expression is well-typed, it fails as it does on one of the active
rows (`evaluate_error`). So the chunk adds nothing: neither its selection nor what
the selection hides can be told from a result. -/
namespace QueryEngine

namespace Chunk

/-- A column with a slot per physical row, whose active rows have what `f` gives. -/
structure Computes (c : Chunk) (f : Nat → Except QueryError Datum) (out : Column) : Prop where
  size : out.size = c.physicalRows
  value : ∀ r ∈ c.activeRows, f r = .ok (out.datum r)

/-- A failure that is the one of `f` on some active row. -/
def FailsAs (c : Chunk) (f : Nat → Except QueryError Datum) (x : Failure) : Prop :=
  ∃ r ∈ c.activeRows, ∃ e, f r = .error e ∧ x = .error e

theorem FailsAs.mono {c : Chunk} {f g : Nat → Except QueryError Datum} {x : Failure} (h : c.FailsAs f x)
    (hfg : ∀ r ∈ c.activeRows, ∀ e, f r = .error e → g r = .error e) : c.FailsAs g x := by
  obtain ⟨r, hr, e, he, hx⟩ := h
  exact ⟨r, hr, e, hfg r hr e he, hx⟩

end Chunk

namespace Evaluate

theorem comparison_of_types {op : ComparisonOp} {l r : Column} (h : (SqlType.common? l.type r.type).isSome)
    (hs : l.size = r.size) : ∃ out, comparison op l r = .ok out := by
  obtain ⟨t, ht⟩ := Option.isSome_iff_exists.mp h
  exact ⟨_, comparison_eq ht hs⟩

theorem not_ok {c out : Column} {chunk : Chunk} (h : unary chunk .not c = .ok out) :
    out.type = .boolean ∧ out.size = c.size ∧ ∀ i < c.size, (c.datum i).unary .not = .ok (out.datum i) := by
  obtain ⟨bs, hbs, h⟩ := bind_eq_ok.mp h
  cases h
  obtain ⟨_, hlen, hval⟩ := Column.toBooleans_ok (lift_eq_ok.mp hbs)
  refine ⟨rfl, by rw [Column.size_ofBooleans, List.length_map, hlen], fun i hi => ?_⟩
  obtain ⟨b, hb, hd⟩ := hval i hi
  have hb' : (bs.map fun b => b.map (!·))[i]? = some (b.map (!·)) := by rw [List.getElem?_map, hb]; rfl
  rw [Column.datum_ofBooleans hb', Datum.unary, hd]
  rfl

/-- A test of each slot. -/
theorem datum_test {c : Column} {i : Nat} (f : Scalar → Bool) (h : i < c.size) :
    (Column.ofBooleans (c.slots.map fun v => some (f v))).datum i = .ofBoolean (some (f (c.datum i).value)) := by
  refine Column.datum_ofBooleans ?_
  rw [List.getElem?_map, Column.slots_getElem? h]
  rfl

section
variable {chunk : Chunk} (hc : chunk.Sound)
include hc

theorem binary_ok {op : BinaryOp} {l r out : Column} (hl : l.size = chunk.physicalRows)
    (hr : r.size = chunk.physicalRows) (h : binary chunk op l r = .ok out) :
    chunk.Computes (fun i => Datum.binary op (l.datum i) (r.datum i)) out := by
  cases op with
  | logic op =>
    obtain ⟨_, hs, hv⟩ := logic_ok h
    exact ⟨hs.trans hl, fun i hi => hv i (hl ▸ hc.active_lt hi)⟩
  | comparison op =>
    obtain ⟨_, hs, hv⟩ := comparison_ok (hl.trans hr.symm) h
    exact ⟨hs.trans hl, fun i hi => hv i (hl ▸ hc.active_lt hi)⟩
  | arithmetic op =>
    obtain ⟨hs, _, hv⟩ := arithmetic_ok hc hl hr h
    exact ⟨hs.trans hl, hv⟩

theorem binary_type {op : BinaryOp} {l r out : Column} {t : SqlType} (hl : l.size = chunk.physicalRows)
    (hr : r.size = chunk.physicalRows) (ht : Expr.binaryType l.type op r.type = .ok t)
    (h : binary chunk op l r = .ok out) : out.type = t := by
  cases op with
  | logic op =>
    obtain ⟨_, _, rfl⟩ := Expr.logicType_eq_ok.mp ht
    exact (logic_ok h).1
  | comparison op =>
    obtain ⟨_, rfl⟩ := Expr.comparisonType_eq_ok.mp ht
    exact (comparison_ok (hl.trans hr.symm) h).1
  | arithmetic op =>
    have hout := (arithmetic_ok hc hl hr h).2.1
    rw [(Expr.arithmeticType_eq_ok.mp ht).1] at hout
    exact (Option.some.inj hout).symm

theorem binary_error {op : BinaryOp} {l r : Column} {t : SqlType} {x : Failure} (hl : l.size = chunk.physicalRows)
    (hr : r.size = chunk.physicalRows) (ht : Expr.binaryType l.type op r.type = .ok t)
    (h : binary chunk op l r = .error x) :
    chunk.FailsAs (fun i => Datum.binary op (l.datum i) (r.datum i)) x := by
  cases op with
  | logic op =>
    obtain ⟨htl, htr, _⟩ := Expr.logicType_eq_ok.mp ht
    obtain ⟨out, ho⟩ := logic_of_types htl htr (hl.trans hr.symm)
    cases ho.symm.trans h
  | comparison op =>
    obtain ⟨out, ho⟩ := comparison_of_types (Expr.comparisonType_eq_ok.mp ht).1 (hl.trans hr.symm)
    cases ho.symm.trans h
  | arithmetic op =>
    obtain ⟨hcommon, hnum⟩ := Expr.arithmeticType_eq_ok.mp ht
    exact arithmetic_error hc hl hr hcommon hnum h

theorem unary_ok {op : UnaryOp} {c out : Column} (hs : c.size = chunk.physicalRows)
    (h : unary chunk op c = .ok out) : chunk.Computes (fun i => (c.datum i).unary op) out := by
  cases op with
  | not =>
    obtain ⟨_, hsize, hv⟩ := not_ok h
    exact ⟨hsize.trans hs, fun i hi => hv i (hs ▸ hc.active_lt hi)⟩
  | negate =>
    obtain ⟨_, hsize, hv⟩ := negate_ok hc hs h
    exact ⟨hsize.trans hs, hv⟩
  | isNull =>
    cases h
    refine ⟨by rw [Column.size_ofBooleans, List.length_map]; exact hs, fun i hi => ?_⟩
    rw [datum_test Scalar.isNull (hs ▸ hc.active_lt hi)]
    rfl
  | isNotNull =>
    cases h
    refine ⟨by rw [Column.size_ofBooleans, List.length_map]; exact hs, fun i hi => ?_⟩
    rw [datum_test (fun v => !v.isNull) (hs ▸ hc.active_lt hi)]
    rfl

theorem unary_type {op : UnaryOp} {c out : Column} {t : SqlType} (hs : c.size = chunk.physicalRows)
    (ht : Expr.unaryType op c.type = .ok t) (h : unary chunk op c = .ok out) : out.type = t := by
  cases op with
  | not => rw [(not_ok h).1, (Expr.notType_eq_ok.mp ht).2]
  | negate => rw [(negate_ok hc hs h).1, (Expr.negateType_eq_ok.mp ht).2]
  | isNull | isNotNull =>
    cases h
    cases ht
    rfl

theorem unary_error {op : UnaryOp} {c : Column} {t : SqlType} {x : Failure} (hs : c.size = chunk.physicalRows)
    (ht : Expr.unaryType op c.type = .ok t) (h : unary chunk op c = .error x) :
    chunk.FailsAs (fun i => (c.datum i).unary op) x := by
  cases op with
  | not =>
    obtain ⟨bs, hbs⟩ := Column.toBooleans_of_type (Expr.notType_eq_ok.mp ht).1
    rw [unary, hbs] at h
    cases h
  | negate => exact negate_error hc hs (Expr.negateType_eq_ok.mp ht).1 h
  | isNull | isNotNull => cases h

end

end Evaluate

namespace Expr
variable {chunk : Chunk}

/-- Every active row has the value that the expression has on that row. -/
theorem evaluate_rowwise (hc : chunk.Sound) {e : Expr} {out : Column} (h : e.evaluate chunk = .ok out) :
    chunk.Computes (fun r => e.onRow (chunk.row r)) out := by
  fun_induction evaluate chunk e generalizing out with
  | case1 i t column hi =>
    cases h
    refine ⟨hc.even _ (List.mem_of_getElem? hi), fun r _ => ?_⟩
    simp only [onRow, Chunk.row_getElem? hi]
  | case2 => cases h
  | case3 v =>
    cases h
    refine ⟨Column.size_fill _ _, fun r hr => ?_⟩
    exact congrArg Except.ok (Column.datum_fill (⟨v, v.fits_type⟩ : Slot v.type) (hc.active_lt hr)).symm
  | case4 l op r ihl ihr =>
    obtain ⟨lc, hl, h⟩ := bind_eq_ok.mp h
    obtain ⟨rc, hr, h⟩ := bind_eq_ok.mp h
    have hbin := Evaluate.binary_ok hc (ihl hl).size (ihr hr).size h
    refine ⟨hbin.size, fun i hi => ?_⟩
    rw [onRow, (ihl hl).value i hi, ok_bind, (ihr hr).value i hi, ok_bind, hbin.value i hi]
  | case5 op e ih =>
    obtain ⟨c, he, h⟩ := bind_eq_ok.mp h
    have hun := Evaluate.unary_ok hc (ih he).size h
    refine ⟨hun.size, fun i hi => ?_⟩
    rw [onRow, (ih he).value i hi, ok_bind, hun.value i hi]
  | case6 e t ih =>
    obtain ⟨c, he, h⟩ := bind_eq_ok.mp h
    obtain ⟨_, hsize, hval⟩ := Evaluate.cast_ok hc (ih he).size h
    refine ⟨hsize.trans (ih he).size, fun i hi => ?_⟩
    rw [onRow, (ih he).value i hi, ok_bind, hval i hi]
  | case7 => cases h
  | case8 => cases h

theorem evaluate_type (hc : chunk.Sound) {e : Expr} {t : SqlType} {out : Column}
    (ht : e.resolve chunk.types = .ok t) (h : e.evaluate chunk = .ok out) : out.type = t := by
  fun_induction evaluate chunk e generalizing t out with
  | case1 i bound column hi =>
    cases h
    rw [resolve, columnType_eq_ok, Chunk.types, List.getElem?_map, hi] at ht
    exact Option.some.inj ht.1
  | case2 => cases h
  | case3 v =>
    cases h
    rw [resolve] at ht
    cases ht
    rfl
  | case4 l op r ihl ihr =>
    rw [resolve] at ht
    obtain ⟨lt, hlt, ht⟩ := bind_eq_ok.mp ht
    obtain ⟨rt, hrt, ht⟩ := bind_eq_ok.mp ht
    obtain ⟨lc, hl, h⟩ := bind_eq_ok.mp h
    obtain ⟨rc, hr, h⟩ := bind_eq_ok.mp h
    rw [← ihl hlt hl, ← ihr hrt hr] at ht
    exact Evaluate.binary_type hc (evaluate_rowwise hc hl).size (evaluate_rowwise hc hr).size ht h
  | case5 op e ih =>
    rw [resolve] at ht
    obtain ⟨et, het, ht⟩ := bind_eq_ok.mp ht
    obtain ⟨c, he, h⟩ := bind_eq_ok.mp h
    rw [← ih het he] at ht
    exact Evaluate.unary_type hc (evaluate_rowwise hc he).size ht h
  | case6 e target ih =>
    rw [resolve] at ht
    obtain ⟨et, het, ht⟩ := bind_eq_ok.mp ht
    obtain ⟨c, he, h⟩ := bind_eq_ok.mp h
    rw [(castType_eq_ok.mp ht).2]
    exact (Evaluate.cast_ok hc (evaluate_rowwise hc he).size h).1
  | case7 => cases h
  | case8 => cases h

/-- A well-typed expression that fails on a chunk fails in the same way on one of its
active rows. -/
theorem evaluate_error (hc : chunk.Sound) {e : Expr} {t : SqlType} {x : Failure} (hp : e.isPlain = true)
    (ht : e.resolve chunk.types = .ok t) (h : e.evaluate chunk = .error x) :
    chunk.FailsAs (fun r => e.onRow (chunk.row r)) x := by
  fun_induction evaluate chunk e generalizing t x with
  | case1 => cases h
  | case2 i bound hi =>
    rw [resolve, columnType_eq_ok, Chunk.types, List.getElem?_map, hi] at ht
    cases ht.1
  | case3 => cases h
  | case4 l op r ihl ihr =>
    rw [isPlain, Bool.and_eq_true] at hp
    rw [resolve] at ht
    obtain ⟨lt, hlt, ht⟩ := bind_eq_ok.mp ht
    obtain ⟨rt, hrt, ht⟩ := bind_eq_ok.mp ht
    rcases bind_eq_error.mp h with hl | ⟨lc, hl, h⟩
    · exact (ihl hp.1 hlt hl).mono fun i _ e he => by rw [onRow, he, error_bind]
    have hlc := evaluate_rowwise hc hl
    rcases bind_eq_error.mp h with hr | ⟨rc, hr, h⟩
    · exact (ihr hp.2 hrt hr).mono fun i hi e he => by rw [onRow, hlc.value i hi, ok_bind, he, error_bind]
    have hrc := evaluate_rowwise hc hr
    rw [← evaluate_type hc hlt hl, ← evaluate_type hc hrt hr] at ht
    refine (Evaluate.binary_error hc hlc.size hrc.size ht h).mono fun i hi e he => ?_
    rw [onRow, hlc.value i hi, ok_bind, hrc.value i hi, ok_bind, he]
  | case5 op e ih =>
    rw [resolve] at ht
    obtain ⟨et, het, ht⟩ := bind_eq_ok.mp ht
    rcases bind_eq_error.mp h with he | ⟨c, he, h⟩
    · exact (ih hp het he).mono fun i _ e' he' => by rw [onRow, he', error_bind]
    have hcol := evaluate_rowwise hc he
    rw [← evaluate_type hc het he] at ht
    refine (Evaluate.unary_error hc hcol.size ht h).mono fun i hi e' he' => ?_
    rw [onRow, hcol.value i hi, ok_bind, he']
  | case6 e target ih =>
    rw [resolve] at ht
    obtain ⟨et, het, ht⟩ := bind_eq_ok.mp ht
    rcases bind_eq_error.mp h with he | ⟨c, he, h⟩
    · exact (ih hp het he).mono fun i _ e' he' => by rw [onRow, he', error_bind]
    have hcol := evaluate_rowwise hc he
    rw [← evaluate_type hc het he] at ht
    have hfails : chunk.FailsAs (fun i => (c.datum i).cast target) x :=
      Evaluate.cast_error hc hcol.size (castType_eq_ok.mp ht).1 h
    exact hfails.mono fun i hi e' he' => by rw [onRow, hcol.value i hi, ok_bind, he']
  | case7 => cases hp
  | case8 => cases hp

/-! ### What a row has -/

/-- The value of an expression that has one on a row. -/
def valueOn (row : Row) (e : Expr) : Datum :=
  match e.onRow row with
  | .ok d => d
  | .error _ => default

/-- Whether a predicate is TRUE on a row. -/
def holdsOn (row : Row) (p : Expr) : Bool :=
  match (p.valueOn row).toBoolean with
  | .ok (some true) => true
  | _ => false

theorem valueOn_of_ok {row : Row} {e : Expr} {d : Datum} (h : e.onRow row = .ok d) : e.valueOn row = d := by
  rw [valueOn, h]

/-- Expressions evaluated side by side. -/
theorem evaluateAll_ok (hc : chunk.Sound) {es : List Expr} {cs : List Column}
    (h : es.mapM (Expr.evaluate chunk) = .ok cs) :
    (∀ c ∈ cs, c.size = chunk.physicalRows) ∧
      ∀ r ∈ chunk.activeRows, (cs.map fun c => c.datum r) = es.map (valueOn (chunk.row r)) := by
  constructor
  · intro c hmem
    obtain ⟨e, _, he⟩ := mem_of_mapM h hmem
    exact (evaluate_rowwise hc he).size
  · intro r hr
    have hall := mapM_eq_ok_iff.mp h
    clear h
    induction hall with
    | nil => rfl
    | cons he _ ih => rw [List.map_cons, List.map_cons, valueOn_of_ok ((evaluate_rowwise hc he).value r hr), ih]

/-- A selected row is an active row on which the predicate is TRUE. -/
theorem selectRows_ok (hc : chunk.Sound) {p : Expr} {s : Selection} (h : p.selectRows chunk = .ok s) :
    s = chunk.activeRows.filter fun r => p.holdsOn (chunk.row r) := by
  obtain ⟨col, hcol, h⟩ := bind_eq_ok.mp h
  obtain ⟨truths, htruths, h⟩ := bind_eq_ok.mp h
  obtain ⟨_, _, hvalue⟩ := Column.toBooleans_ok (lift_eq_ok.mp htruths)
  have hrow := evaluate_rowwise hc hcol
  split at h
  · cases h
    refine List.filter_congr fun r hr => ?_
    obtain ⟨b, hb, hd⟩ := hvalue r (hrow.size ▸ hc.active_lt hr)
    have harray : truths.toArray.getD r none = b := by simp [Array.getD_eq_getD_getElem?, hb]
    rw [harray, holdsOn, valueOn_of_ok (hrow.value r hr), hd]
    cases b with
    | none => rfl
    | some b => cases b <;> rfl
  · cases h

end Expr
end QueryEngine
