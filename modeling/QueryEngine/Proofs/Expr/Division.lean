import QueryEngine.Proofs.Expr.Active
import QueryEngine.Proofs.Expr.Number

/-! Division.

In every row where both operands are numbers there is a quotient, but for a zero
divisor, which gives NULL, and for the least integer by -1, which is the one thing
that fails. Zero is told by the order of comparisons, and in that order `-0.0` is not
`0.0`: a divisor `-0.0` is divided by. -/
namespace QueryEngine

namespace Number

/-- Zero, of either sign. -/
def IsZero : Number → Prop
  | integer i => i = 0
  | double d => d.magnitude = 0

def minusZero : Number := double Double.zero.neg

/-- Integers are divided truncating toward zero. -/
inductive Quotient : Number → Number → Number → Prop
  | integers (a b : Int) : Quotient (integer a) (integer b) (integer (a.tdiv b))
  | doubles (a b : Double) : Quotient (double a) (double b) (double (a.div b))

end Number

theorem Double.eq_zero_or_neg_zero {d : Double} (h : d.magnitude = 0) : d = Double.zero ∨ d = Double.zero.neg := by
  have hlt := d.bits.toNat_lt
  have hbits : d.bits.toNat = 0 ∨ d.bits.toNat = 0x8000000000000000 := by
    unfold magnitude at h
    omega
  obtain ⟨bits⟩ := d
  refine hbits.imp (fun h => ?_) fun h => ?_
  · exact congrArg Double.mk (UInt64.toNat_inj.mp h)
  · exact congrArg Double.mk (UInt64.toNat_inj.mp h)

namespace Scalar
variable {t : SqlType} {v l r : Scalar}

/-- A quotient that the type does not have: of its least integer by -1. -/
def Overflows (t : SqlType) (l r : Scalar) : Prop :=
  ∃ n, t.half? = some n ∧ l.number? t = some (.integer (-n)) ∧ r.number? t = some (.integer (-1))

/-- A divisor that is taken for zero: either zero but for `-0.0`. -/
def Vanishes (t : SqlType) (r : Scalar) : Prop := ∃ b, r.number? t = some b ∧ b.IsZero ∧ b ≠ .minusZero

/-- What dividing `l` by `r` leaves in a row. -/
structure Divided (t : SqlType) (l r out : Scalar) : Prop where
  null : out = .null ↔ l = .null ∨ r = .null ∨ r.Vanishes t
  quotient : out ≠ .null →
    ∃ a b q, l.number? t = some a ∧ r.number? t = some b ∧ out.number? t = some q ∧ Number.Quotient a b q

/-- How dividing `l` by `r` ends. -/
structure Divides (t : SqlType) (l r : Scalar) (result : Except ExecutionError (Slot t)) : Prop where
  fails : (∃ e, result = .error e) ↔ Overflows t l r
  error : ∀ e, result = .error e → ∃ a b, e = .overflow .divide a b
  value : ∀ s, result = .ok s → Divided t l r s.val

/-! ### The operation -/

/-- NULL by whatever is not a number. -/
theorem apply_divide_null (t : SqlType) (l : Scalar) : ArithmeticOp.divide.apply t l .null = .ok (Slot.null t) := by
  have hz : Scalar.null.isZero = false := by decide
  unfold ArithmeticOp.apply
  rw [hz]
  cases l <;> simp [toInt64?]

theorem null_apply_divide (t : SqlType) (r : Scalar) : ArithmeticOp.divide.apply t .null r = .ok (Slot.null t) := by
  unfold ArithmeticOp.apply
  split
  · rfl
  · simp [toInt64?]

theorem apply_divide_doubles (a b : Double) :
    ArithmeticOp.divide.apply .double (.double a) (.double b) =
      .ok (if b = Double.zero then Slot.null .double else Slot.ofScalar .double (.double (a.div b))) := by
  unfold ArithmeticOp.apply
  by_cases hb : b = Double.zero <;> simp [hb, isZero, ArithmeticOp.onDoubles]

theorem apply_divide_integers {a b : Int} (hl : l.toInt? = some a) (hr : r.toInt? = some b) :
    ArithmeticOp.divide.apply t l r =
      if b = 0 then .ok (Slot.null t)
      else
        match ofInt? t (a.tdiv b) with
        | some v => .ok (Slot.ofScalar t v)
        | none => .error (.overflow .divide l r) := by
  obtain ⟨x, hx, rfl⟩ := Option.map_eq_some_iff.mp hl
  obtain ⟨y, hy, rfl⟩ := Option.map_eq_some_iff.mp hr
  have hzero : r.isZero = decide (y.toInt = 0) := by
    have hy0 : y.toInt = 0 ↔ y = 0 := by rw [← Int64.toInt_inj, Int64.toInt_zero]
    cases r <;> simp_all [isZero, toInt64?]
  unfold ArithmeticOp.apply
  rw [hzero]
  by_cases hb : y.toInt = 0
  · simp [hb]
  · rw [decide_eq_false hb, if_neg hb, if_neg (by simp)]
    cases hquotient : ofInt? t (x.toInt.tdiv y.toInt) <;> cases l <;> simp_all [toInt64?, ArithmeticOp.onInts]

/-! ### How a division ends -/

section
variable {n : Int} {result : Except ExecutionError (Slot t)}

/-- Values that are the same numbers are divided alike. -/
theorem Divides.congr {l' r' : Scalar} (hl : l' = .null ↔ l = .null) (hr : r' = .null ↔ r = .null)
    (hln : l'.number? t = l.number? t) (hrn : r'.number? t = r.number? t) (h : Divides t l' r' result) :
    Divides t l r result := by
  obtain ⟨fails, error, value⟩ := h
  refine ⟨?_, error, fun s hs => ?_⟩
  · rw [fails, Overflows, Overflows, hln, hrn]
  · obtain ⟨null, quotient⟩ := value s hs
    refine ⟨?_, ?_⟩
    · rw [null, hl, hr, Vanishes, Vanishes, hrn]
    · rwa [hln, hrn] at quotient

theorem Divides.of_null (hnull : l = .null ∨ r = .null ∨ r.Vanishes t) (ho : ¬Overflows t l r) :
    Divides t l r (.ok (Slot.null t)) where
  fails := ⟨by rintro ⟨_, ⟨⟩⟩, fun h => absurd h ho⟩
  error := by rintro _ ⟨⟩
  value := by
    rintro _ ⟨⟩
    exact ⟨⟨fun _ => hnull, fun _ => rfl⟩, fun h => absurd rfl h⟩

theorem Divides.of_quotient {v : Scalar} {a b q : Number} (hv : v ≠ .null) (hfits : v.Fits t) (ha : l.number? t = some a)
    (hb : r.number? t = some b) (hq : v.number? t = some q) (h : Number.Quotient a b q) (hzero : ¬r.Vanishes t)
    (ho : ¬Overflows t l r) : Divides t l r (.ok (Slot.ofScalar t v)) where
  fails := ⟨by rintro ⟨_, ⟨⟩⟩, fun h => absurd h ho⟩
  error := by rintro _ ⟨⟩
  value := by
    rintro _ ⟨⟩
    have hnull {w : Scalar} {c : Number} (hw : w.number? t = some c) : w ≠ .null := by
      rintro rfl
      simp at hw
    rw [Slot.ofScalar_val hfits]
    refine ⟨⟨fun h => absurd h hv, ?_⟩, fun _ => ⟨a, b, q, ha, hb, hq, h⟩⟩
    rintro (h | h | h)
    · exact absurd h (hnull ha)
    · exact absurd h (hnull hb)
    · exact absurd h hzero

/-- NULL is no number. -/
theorem not_overflows_of_null (h : l = .null ∨ r = .null) : ¬Overflows t l r := by
  rintro ⟨n, _, hl, hr⟩
  rcases h with rfl | rfl
  · simp at hl
  · simp at hr

theorem divides_doubles (hl : l.Fits .double) (hr : r.Fits .double) :
    Divides .double l r (ArithmeticOp.divide.apply .double l r) := by
  have ho (l r : Scalar) : ¬Overflows .double l r := by
    rintro ⟨_, ⟨⟩, _⟩
  rcases fits_double_iff.mp hl with rfl | ⟨a, rfl⟩
  · rw [null_apply_divide]
    exact .of_null (.inl rfl) (ho _ _)
  rcases fits_double_iff.mp hr with rfl | ⟨b, rfl⟩
  · rw [apply_divide_null]
    exact .of_null (.inr (.inl rfl)) (ho _ _)
  rw [apply_divide_doubles]
  by_cases hb : b = Double.zero
  · rw [if_pos hb]
    refine .of_null (.inr (.inr ⟨.double b, rfl, ?_, ?_⟩)) (ho _ _)
    · subst hb
      exact (by decide : Double.zero.magnitude = 0)
    · subst hb
      exact fun h => absurd (Number.double.inj h) (by decide)
  · rw [if_neg hb]
    refine .of_quotient nofun (.inr rfl) rfl rfl rfl (.doubles a b) ?_ (ho _ _)
    rintro ⟨_, ⟨⟩, hzero, hminus⟩
    rcases Double.eq_zero_or_neg_zero hzero with h | h
    · exact hb h
    · exact hminus (congrArg Number.double h)

theorem divides_integers (hn : t.half? = some n) (hl : l.Fits t) (hr : r.Fits t) :
    Divides t l r (ArithmeticOp.divide.apply t l r) := by
  have integer {v : Scalar} (hv : v.Fits t) : v = .null ∨ ∃ i, v.toInt? = some i ∧ -n ≤ i ∧ i < n := by
    refine hv.imp_right fun hv => ?_
    subst hv
    obtain ⟨i, hi⟩ := toInt?_of_type hn
    exact ⟨i, hi, toInt?_inRange hn hi⟩
  rcases integer hl with rfl | ⟨a, ha, hlow, hhigh⟩
  · rw [null_apply_divide]
    exact .of_null (.inl rfl) (not_overflows_of_null (.inl rfl))
  rcases integer hr with rfl | ⟨b, hb, _, _⟩
  · rw [apply_divide_null]
    exact .of_null (.inr (.inl rfl)) (not_overflows_of_null (.inr rfl))
  have hla : l.number? t = some (.integer a) := by rw [number?_integral hn, ha]; rfl
  have hrb : r.number? t = some (.integer b) := by rw [number?_integral hn, hb]; rfl
  have hover : Overflows t l r ↔ a = -n ∧ b = -1 := by
    simp [Overflows, hn, hla, hrb]
  rw [apply_divide_integers ha hb]
  by_cases hzero : b = 0
  · rw [if_pos hzero]
    exact .of_null (.inr (.inr ⟨_, hrb, hzero, nofun⟩)) (by rw [hover]; omega)
  rw [if_neg hzero]
  have hrange := tdiv_inRange_iff hlow hhigh hzero
  by_cases hin : -n ≤ a.tdiv b ∧ a.tdiv b < n
  · obtain ⟨v, hv, htype, hint⟩ := ofInt?_of_inRange hn hin
    rw [hv]
    refine .of_quotient ?_ (.inr htype) hla hrb (by rw [number?_integral hn, hint]; rfl) (.integers a b) ?_ ?_
    · rintro rfl
      simp at hint
    · rintro ⟨_, hb', hz, _⟩
      cases hrb.symm.trans hb'
      exact hzero hz
    · rw [hover]
      exact hrange.mp hin
  · rw [ofInt?_eq_none hn hin]
    refine ⟨⟨fun _ => hover.mpr (by_contra fun h => hin (hrange.mpr h)), fun _ => ⟨_, rfl⟩⟩, ?_,
      by rintro _ ⟨⟩⟩
    rintro _ ⟨⟩
    exact ⟨l, r, rfl⟩

end

end Scalar

/-! ### Rows -/

/-- Division on a row, operands brought to their common type. -/
theorem Datum.divides {l r : Datum} {t : SqlType} (hl : l.Fits) (hr : r.Fits)
    (ht : SqlType.common? l.type r.type = some t) (hnum : t.isNumeric = true) :
    ∃ result : Except ExecutionError (Slot t),
      Datum.arithmetic .divide l r = ofResult result ∧ Scalar.Divides t l.value r.value result := by
  obtain ⟨hwl, hwr⟩ := SqlType.widensTo_of_common? ht
  obtain ⟨hfl, hnl, hml⟩ := number?_widen hl hwl hnum
  obtain ⟨hfr, hnr, hmr⟩ := number?_widen hr hwr hnum
  refine ⟨ArithmeticOp.divide.apply t (l.widen t) (r.widen t), ?_, ?_⟩
  · have hnull : t ≠ .sqlNull := by
      rintro rfl
      cases hnum
    simp only [arithmetic, ht, hnull, hnum, if_false, if_true]
  · refine .congr hnl hnr hml hmr ?_
    rcases Bool.or_eq_true_iff.mp hnum with hint | hdouble
    · obtain ⟨n, hn⟩ := SqlType.half?_of_isIntegral hint
      exact Scalar.divides_integers hn hfl hfr
    · obtain rfl := of_decide_eq_true hdouble
      exact Scalar.divides_doubles hfl hfr

namespace Evaluate
variable {chunk : Chunk} {l r : Column} {t : SqlType}

theorem divide_ok (hc : chunk.Sound) (hl : l.size = chunk.physicalRows) (hr : r.size = chunk.physicalRows)
    (ht : SqlType.common? l.type r.type = some t) (hnum : t.isNumeric = true) {out : Column}
    (h : arithmetic chunk .divide l r = .ok out) :
    out.type = t ∧ ∀ i ∈ chunk.activeRows, ¬Scalar.Overflows t (l.datum i).value (r.datum i).value ∧
      Scalar.Divided t (l.datum i).value (r.datum i).value (out.datum i).value := by
  obtain ⟨_, htype, hvalue⟩ := arithmetic_ok hc hl hr h
  refine ⟨Option.some.inj (htype.symm.trans ht), fun i hi => ?_⟩
  obtain ⟨result, hresult, hdivides⟩ := Datum.divides (l.value_fits i) (r.value_fits i) ht hnum
  have hdatum := hvalue i hi
  rw [hresult] at hdatum
  cases result with
  | error e => cases hdatum
  | ok s =>
    rw [← Except.ok.inj hdatum]
    refine ⟨fun ho => ?_, hdivides.value s rfl⟩
    obtain ⟨_, ⟨⟩⟩ := hdivides.fails.mpr ho

theorem divide_error (hc : chunk.Sound) (hl : l.size = chunk.physicalRows) (hr : r.size = chunk.physicalRows)
    (ht : SqlType.common? l.type r.type = some t) (hnum : t.isNumeric = true) {x : Failure}
    (h : arithmetic chunk .divide l r = .error x) :
    ∃ i ∈ chunk.activeRows, Scalar.Overflows t (l.datum i).value (r.datum i).value ∧
      ∃ a b, x = .error (.execution (.overflow .divide a b)) := by
  obtain ⟨i, hi, e, he, rfl⟩ := arithmetic_error hc hl hr ht (.inr hnum) h
  obtain ⟨result, hresult, hdivides⟩ := Datum.divides (l.value_fits i) (r.value_fits i) ht hnum
  rw [hresult] at he
  cases result with
  | ok s => cases he
  | error e =>
    cases he
    obtain ⟨a, b, rfl⟩ := hdivides.error e rfl
    exact ⟨i, hi, hdivides.fails.mp ⟨_, rfl⟩, a, b, rfl⟩

end Evaluate

namespace Expr

/-- How evaluating a division ends, its operands having these columns on the active rows. -/
structure DividesRows (t : SqlType) (count : Nat) (ls rs : Column) (result : Except Failure Column) : Prop where
  fails : (∃ x, result = .error x) ↔ ∃ k < count, Scalar.Overflows t (ls.datum k).value (rs.datum k).value
  error : ∀ x, result = .error x → ∃ a b, x = .error (.execution (.overflow .divide a b))
  value : ∀ out, result = .ok out → out.type = t ∧ out.size = count ∧
    ∀ k < count, Scalar.Divided t (ls.datum k).value (rs.datum k).value (out.datum k).value

variable {chunk : Chunk} {l r : Expr} {t : SqlType} {ls rs : Column}

/-- The columns of two operands, of which the active rows are known. -/
theorem evaluate_binary (hc : chunk.Sound) {op : BinaryOp} (ht : (binary l op r).resolve chunk.types = .ok t)
    (hl : l.evaluateActive chunk = .ok ls) (hr : r.evaluateActive chunk = .ok rs) :
    ∃ lc rc, lc.size = chunk.physicalRows ∧ rc.size = chunk.physicalRows ∧ binaryType lc.type op rc.type = .ok t ∧
      (binary l op r).evaluate chunk = Evaluate.binary chunk op lc rc ∧
        ∀ k i, chunk.activeRows[k]? = some i → ls.datum k = lc.datum i ∧ rs.datum k = rc.datum i := by
  rw [resolve] at ht
  obtain ⟨lt, hlt, ht⟩ := bind_eq_ok.mp ht
  obtain ⟨rt, hrt, ht⟩ := bind_eq_ok.mp ht
  obtain ⟨lc, hlc, _, _, hld⟩ := evaluateActive_datum hc hl
  obtain ⟨rc, hrc, _, _, hrd⟩ := evaluateActive_datum hc hr
  rw [← evaluate_type hc hlt hlc, ← evaluate_type hc hrt hrc] at ht
  refine ⟨lc, rc, (evaluate_rowwise hc hlc).size, (evaluate_rowwise hc hrc).size, ht, ?_, ?_⟩
  · rw [evaluate, hlc, ok_bind, hrc, ok_bind]
  · exact fun k i hk => ⟨hld k i hk, hrd k i hk⟩

/-- A division fails for nothing but the least integer by -1 in an active row. It leaves
NULL where an operand is NULL or the divisor vanishes, and the quotient elsewhere. -/
theorem divide_settled (hv : chunk.verify = .ok ())
    (ht : (binary l (.arithmetic .divide) r).resolve chunk.types = .ok t) (hnum : t.isNumeric = true)
    (hl : l.evaluateActive chunk = .ok ls) (hr : r.evaluateActive chunk = .ok rs) :
    DividesRows t chunk.count ls rs ((binary l (.arithmetic .divide) r).evaluateActive chunk) := by
  have hc := (Chunk.verify_eq_ok_iff chunk).mp hv
  obtain ⟨lc, rc, hls, hrs, htype, hevaluate, hoperands⟩ := evaluate_binary hc ht hl hr
  have hcommon := (arithmeticType_eq_ok.mp htype).1
  have hrow {k : Nat} (hk : k < chunk.count) : ∃ i, chunk.activeRows[k]? = some i :=
    ⟨_, List.getElem?_eq_getElem (hc.length_activeRows.symm ▸ hk)⟩
  cases hcol : (binary l (.arithmetic .divide) r).evaluate chunk with
  | ok col =>
    obtain ⟨hcoltype, hdivided⟩ := Evaluate.divide_ok hc hls hrs hcommon hnum (hevaluate.symm.trans hcol)
    obtain ⟨out, hout⟩ := evaluateActive_of_evaluate hc hcol
    obtain ⟨col', hcol', houttype, hsize, hdatum⟩ := evaluateActive_datum hc hout
    obtain rfl := Except.ok.inj (hcol.symm.trans hcol')
    rw [hout]
    refine ⟨⟨by rintro ⟨_, ⟨⟩⟩, ?_⟩, by rintro _ ⟨⟩, ?_⟩
    · rintro ⟨k, hk, ho⟩
      obtain ⟨i, hi⟩ := hrow hk
      obtain ⟨hld, hrd⟩ := hoperands k i hi
      rw [hld, hrd] at ho
      exact absurd ho (hdivided i (List.mem_of_getElem? hi)).1
    · rintro _ ⟨⟩
      refine ⟨houttype.trans hcoltype, hsize, fun k hk => ?_⟩
      obtain ⟨i, hi⟩ := hrow hk
      obtain ⟨hld, hrd⟩ := hoperands k i hi
      rw [hld, hrd, hdatum k i hi]
      exact (hdivided i (List.mem_of_getElem? hi)).2
  | error x =>
    obtain ⟨i, hi, ho, a, b, rfl⟩ := Evaluate.divide_error hc hls hrs hcommon hnum (hevaluate.symm.trans hcol)
    obtain ⟨k, hk⟩ := List.mem_iff_getElem?.mp hi
    obtain ⟨hld, hrd⟩ := hoperands k i hk
    have hlt : k < chunk.count := hc.length_activeRows ▸ (List.getElem?_eq_some_iff.mp hk).1
    rw [evaluateActive, hcol, error_bind]
    refine ⟨⟨fun _ => ⟨k, hlt, ?_⟩, fun _ => ⟨_, rfl⟩⟩, ?_, by rintro _ ⟨⟩⟩
    · rwa [hld, hrd]
    · rintro _ ⟨⟩
      exact ⟨a, b, rfl⟩

/-- `-7 / 2` and `5 / 0`; `-128 / -1` is hidden. -/
theorem divide_settled_past_overflow :
    let chunk : Chunk :=
      ⟨[.ofSlots .tinyInt [⟨.tinyInt (-7), .inr rfl⟩, ⟨.tinyInt (-128), .inr rfl⟩, ⟨.tinyInt 5, .inr rfl⟩],
        .ofSlots .tinyInt [⟨.tinyInt 2, .inr rfl⟩, ⟨.tinyInt (-1), .inr rfl⟩, ⟨.tinyInt 0, .inr rfl⟩]],
        some [0, 2], 2, defaultCapacity⟩
    let l : Expr := .column 0 .tinyInt
    let r : Expr := .column 1 .tinyInt
    chunk.verify = .ok () ∧ (binary l (.arithmetic .divide) r).resolve chunk.types = .ok .tinyInt ∧
      SqlType.tinyInt.isNumeric = true ∧
      ∃ ls rs, l.evaluateActive chunk = .ok ls ∧ r.evaluateActive chunk = .ok rs ∧
        DividesRows .tinyInt chunk.count ls rs ((binary l (.arithmetic .divide) r).evaluateActive chunk) :=
  ⟨rfl, rfl, rfl, _, _, rfl, rfl, divide_settled rfl rfl rfl rfl rfl⟩

/-- `1.0 / -0.0` is an infinity, although the divisor is a zero. -/
theorem divide_by_minus_zero :
    let chunk : Chunk :=
      ⟨[.ofSlots .double [⟨.double ⟨0x3ff0000000000000⟩, .inr rfl⟩], .ofSlots .double [⟨.double Double.zero.neg, .inr rfl⟩]],
        none, 1, defaultCapacity⟩
    chunk.verify = .ok () ∧
      (binary (.column 0 .double) (.arithmetic .divide) (.column 1 .double)).resolve chunk.types = .ok .double ∧
      Double.zero.neg.magnitude = 0 ∧
      ∃ out, (binary (.column 0 .double) (.arithmetic .divide) (.column 1 .double)).evaluateActive chunk = .ok out ∧
        out.datum 0 = ⟨.double, .double ⟨0xfff0000000000000⟩⟩ :=
  ⟨rfl, rfl, rfl, _, rfl, by decide +kernel⟩

end Expr
end QueryEngine
