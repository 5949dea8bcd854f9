import QueryEngine.Expr.Evaluate
import QueryEngine.Proofs.Chunk.Rows
import QueryEngine.Proofs.Expr.OnRow

/-! Operators on columns, slot by slot.

An operator's result on a column has, in each row, what the operator makes of that
row's operands. Arithmetic and casts hold to this on active rows only, for they see
NULL in all others; since no operator fails on NULL, when one of them fails it is
on an active row. -/
namespace QueryEngine

namespace Column

theorem size_eq_length (c : Column) : c.size = c.slots.length := rfl

theorem slots_getElem? {c : Column} {r : Nat} (h : r < c.size) : c.slots[r]? = some (c.datum r).value := by
  have h' : r < c.slots.length := h
  simp [datum, List.getElem?_eq_getElem h']

theorem toBooleans_ok {c : Column} {bs : List (Option Bool)} (h : c.toBooleans = .ok bs) :
    (c.type = .boolean ∨ c.type = .sqlNull) ∧ bs.length = c.size ∧
      ∀ r < c.size, ∃ b, bs[r]? = some b ∧ (c.datum r).toBoolean = .ok b := by
  unfold toBooleans at h
  split at h
  · rename_i ht
    cases h
    refine ⟨.inl ht, List.length_map _, fun r hr => ?_⟩
    rw [List.getElem?_map, slots_getElem? hr]
    exact ⟨_, rfl, Datum.toBoolean_of_boolean ht⟩
  · rename_i ht
    cases h
    refine ⟨.inr ht, List.length_map _, fun r hr => ⟨none, ?_, ?_⟩⟩
    · rw [List.getElem?_map, slots_getElem? hr]
      rfl
    · simp only [Datum.toBoolean, datum_type, ht]
  · cases h

theorem toBooleans_of_type {c : Column} (h : c.type = .boolean ∨ c.type = .sqlNull) :
    ∃ bs, c.toBooleans = .ok bs := by
  unfold toBooleans
  rcases h with h | h <;> rw [h] <;> exact ⟨_, rfl⟩

@[simp] theorem type_widen (t : SqlType) (c : Column) : (c.widen t).type = t := by
  unfold widen
  split <;> simp_all

@[simp] theorem size_widen (t : SqlType) (c : Column) : (c.widen t).size = c.size := by
  unfold widen
  split
  · rfl
  · rw [size_ofSlots, List.length_map]
    rfl

theorem datum_widen {t : SqlType} {c : Column} {r : Nat} (h : r < c.size) :
    (c.widen t).datum r = ⟨t, (c.datum r).widen t⟩ := by
  unfold widen
  by_cases ht : c.type = t
  · rw [if_pos ht]
    simp [Datum.widen, datum, ht]
  · rw [if_neg ht, Datum.widen, datum_type, if_neg ht]
    refine datum_ofSlots ?_
    rw [List.getElem?_map, slots_getElem? h]
    rfl

/-- Masking shows the active rows as they are and NULL in all others. -/
theorem masked_ok {chunk : Chunk} (hc : chunk.Sound) {c : Column} (hs : c.size = chunk.physicalRows) :
    ∃ m, c.masked chunk = .ok m ∧ m.type = c.type ∧ m.size = c.size ∧
      ∀ r < c.size, m.datum r = if r ∈ chunk.activeRows then c.datum r else .null c.type := by
  unfold masked
  cases hsel : chunk.selection with
  | none =>
    refine ⟨c, rfl, rfl, rfl, fun r hr => ?_⟩
    have hr' : r ∈ chunk.activeRows := by
      simp only [Chunk.activeRows, hsel, Option.getD_none, List.mem_range]
      rwa [← hc.flat hsel, ← hs]
    rw [if_pos hr']
  | some s =>
    have hlt : ∀ r ∈ s, r < c.size := by
      rw [hs]
      exact (hc.selected s hsel).2
    obtain ⟨m, hm⟩ := keepOnly_of_lt hlt
    refine ⟨m, hm, ?_⟩
    simpa only [Chunk.activeRows, hsel, Option.getD_some] using keepOnly_ok hm

/-! ### Slot by slot -/

theorem mapM_slots_ok {ε : Type} {t : SqlType} {f : Scalar → Except ε (Slot t)} {c : Column} {slots : List (Slot t)}
    (h : c.slots.mapM f = .ok slots) :
    (ofSlots t slots).size = c.size ∧
      ∀ i < c.size, ∃ s, f (c.datum i).value = .ok s ∧ (ofSlots t slots).datum i = .ofSlot s := by
  refine ⟨by rw [size_ofSlots, length_of_mapM h]; rfl, fun i hi => ?_⟩
  obtain ⟨s, hs, hf⟩ := mapM_ok_getElem? h (slots_getElem? hi)
  exact ⟨s, hf, datum_ofSlots hs⟩

theorem mapM_slots_error {ε : Type} {t : SqlType} {f : Scalar → Except ε (Slot t)} {c : Column} {e : ε}
    (h : c.slots.mapM f = .error e) : ∃ i < c.size, f (c.datum i).value = .error e := by
  obtain ⟨v, hv, hf⟩ := mapM_eq_error h
  obtain ⟨i, hi⟩ := List.mem_iff_getElem?.mp hv
  have hlt : i < c.size := (List.getElem?_eq_some_iff.mp hi).1
  rw [slots_getElem? hlt, Option.some.injEq] at hi
  exact ⟨i, hlt, hi ▸ hf⟩

/-- A slot of a masked column that fails is that of an active row, where NULL does not fail. -/
theorem mapM_masked_error {ε : Type} {t : SqlType} {f : Scalar → Except ε (Slot t)} {chunk : Chunk} {c m : Column} {e : ε}
    (hsm : m.size = c.size) (hdm : ∀ r < c.size, m.datum r = if r ∈ chunk.activeRows then c.datum r else .null c.type)
    (hnull : ∀ e, f .null ≠ .error e) (h : m.slots.mapM f = .error e) :
    ∃ i ∈ chunk.activeRows, f (c.datum i).value = .error e := by
  obtain ⟨i, hi, hf⟩ := mapM_slots_error h
  rw [hsm] at hi
  rw [hdm i hi] at hf
  by_cases hact : i ∈ chunk.activeRows
  · rw [if_pos hact] at hf
    exact ⟨i, hact, hf⟩
  · rw [if_neg hact] at hf
    exact absurd hf (hnull e)

end Column

/-! ### Truth values and comparisons -/

namespace Evaluate

theorem logic_ok {op : LogicOp} {l r out : Column} (h : logic op l r = .ok out) :
    out.type = .boolean ∧ out.size = l.size ∧
      ∀ i < l.size, Datum.logic op (l.datum i) (r.datum i) = .ok (out.datum i) := by
  obtain ⟨ls, hl, h⟩ := bind_eq_ok.mp h
  obtain ⟨rs, hr, h⟩ := bind_eq_ok.mp h
  obtain ⟨_, hll, hl⟩ := Column.toBooleans_ok (lift_eq_ok.mp hl)
  obtain ⟨_, hrl, hr⟩ := Column.toBooleans_ok (lift_eq_ok.mp hr)
  by_cases hs : l.size = r.size
  · simp only [hs, ne_eq, not_true_eq_false, if_false] at h
    cases h
    refine ⟨rfl, by simp [hll, hrl, hs], fun i hi => ?_⟩
    obtain ⟨a, ha, ha'⟩ := hl i hi
    obtain ⟨b, hb, hb'⟩ := hr i (hs ▸ hi)
    rw [Column.datum_ofBooleans (List.getElem?_zipWith_eq_some.mpr ⟨a, b, ha, hb, rfl⟩), Datum.logic, ha', hb']
    rfl
  · simp only [ne_eq, hs, not_false_eq_true, if_true] at h
    cases h

theorem logic_of_types {op : LogicOp} {l r : Column} (hl : l.type = .boolean ∨ l.type = .sqlNull)
    (hr : r.type = .boolean ∨ r.type = .sqlNull) (hs : l.size = r.size) : ∃ out, logic op l r = .ok out := by
  obtain ⟨ls, hls⟩ := Column.toBooleans_of_type hl
  obtain ⟨rs, hrs⟩ := Column.toBooleans_of_type hr
  unfold logic
  rw [hls, hrs, lift_ok, ok_bind, lift_ok, ok_bind, if_neg (not_not.mpr hs)]
  exact ⟨_, rfl⟩

theorem comparison_eq {op : ComparisonOp} {l r : Column} {t : SqlType}
    (ht : SqlType.common? l.type r.type = some t) (hs : l.size = r.size) :
    comparison op l r = .ok (if t = .sqlNull then Column.nulls .boolean l.size
      else Column.ofBooleans (List.zipWith op.apply (l.widen t).slots (r.widen t).slots)) := by
  have hc : l.coerce r = .ok (t, l.widen t, r.widen t) := by rw [Column.coerce, ht]
  unfold comparison
  rw [hc, lift_ok, ok_bind]
  by_cases hn : t = .sqlNull
  · simp only [hn, if_true]
    rfl
  · simp only [hn, if_false, hs, ne_eq, not_true_eq_false]
    rfl

theorem common_of_coerce {l r : Column} {t : SqlType} {l' r' : Column} (h : l.coerce r = .ok (t, l', r')) :
    SqlType.common? l.type r.type = some t := by
  unfold Column.coerce at h
  split at h
  · cases h
    assumption
  · cases h

theorem comparison_ok {op : ComparisonOp} {l r out : Column} (hs : l.size = r.size)
    (h : comparison op l r = .ok out) :
    out.type = .boolean ∧ out.size = l.size ∧
      ∀ i < l.size, Datum.comparison op (l.datum i) (r.datum i) = .ok (out.datum i) := by
  obtain ⟨⟨t, l', r'⟩, hc, -⟩ := bind_eq_ok.mp h
  have ht := common_of_coerce (lift_eq_ok.mp hc)
  rw [comparison_eq ht hs] at h
  cases h
  by_cases hn : t = .sqlNull
  · subst hn
    simp only [if_true, Column.type_nulls, Column.size_nulls, Column.datum_nulls, true_and]
    intro i _
    simp only [Datum.comparison, Column.datum_type, ht]
  · rw [if_neg hn]
    refine ⟨rfl, by simp [← Column.size_eq_length, hs], fun i hi => ?_⟩
    have hl := Column.slots_getElem? (c := l.widen t) (r := i) (by simpa using hi)
    have hr := Column.slots_getElem? (c := r.widen t) (r := i) (by simpa [hs] using hi)
    rw [Column.datum_widen hi] at hl
    rw [Column.datum_widen (hs ▸ hi)] at hr
    rw [Column.datum_ofBooleans (List.getElem?_zipWith_eq_some.mpr ⟨_, _, hl, hr, rfl⟩)]
    simp only [Datum.comparison, Column.datum_type, ht]

/-! ### Arithmetic -/

/-- A slot by slot operation succeeds when it does on every row, and then has in each
what the operation gives there. -/
theorem zipOperands_ok {t : SqlType} {f : Scalar → Scalar → Except ExecutionError (Slot t)} {l r out : Column}
    (hs : l.size = r.size) (h : zipOperands f l r = .ok out) :
    out.type = t ∧ out.size = l.size ∧ ∀ i < l.size,
      Datum.ofResult (f (l.datum i).value (r.datum i).value) = .ok (out.datum i) := by
  unfold zipOperands at h
  split at h
  · rename_i slots hm
    cases h
    have hlen : (l.slots.zip r.slots).length = l.size := by
      rw [List.length_zip, ← Column.size_eq_length, ← Column.size_eq_length, hs, Nat.min_self]
    refine ⟨rfl, by rw [Column.size_ofSlots, length_of_mapM hm, hlen], fun i hi => ?_⟩
    have hz : (l.slots.zip r.slots)[i]? = some ((l.datum i).value, (r.datum i).value) :=
      List.getElem?_zip_eq_some.mpr ⟨Column.slots_getElem? hi, Column.slots_getElem? (hs ▸ hi)⟩
    obtain ⟨s, hslot, hf⟩ := mapM_ok_getElem? hm hz
    rw [Column.datum_ofSlots hslot, show f _ _ = .ok s from hf]
    rfl
  · cases h

theorem zipOperands_error {t : SqlType} {f : Scalar → Scalar → Except ExecutionError (Slot t)} {l r : Column}
    (hs : l.size = r.size) {x : Failure} (h : zipOperands f l r = .error x) :
    ∃ i < l.size, ∃ e, f (l.datum i).value (r.datum i).value = .error e ∧ x = .error (.execution e) := by
  unfold zipOperands at h
  split at h
  · cases h
  · rename_i e hm
    cases h
    obtain ⟨v, hv, hf⟩ := mapM_eq_error hm
    obtain ⟨i, hi⟩ := List.mem_iff_getElem?.mp hv
    obtain ⟨hl, hr⟩ := List.getElem?_zip_eq_some.mp hi
    have hlt : i < l.size := (List.getElem?_eq_some_iff.mp hl).1
    rw [Column.slots_getElem? hlt, Option.some.injEq] at hl
    rw [Column.slots_getElem? (hs ▸ hlt), Option.some.injEq] at hr
    exact ⟨i, hlt, e, by rw [hl, hr]; exact hf, rfl⟩

/-- No operation fails on NULL. -/
theorem apply_null (op : ArithmeticOp) (t : SqlType) : op.apply t .null .null = .ok (Slot.null t) := by
  have hz : Scalar.null.isZero = false := by decide
  unfold ArithmeticOp.apply
  rw [hz]
  simp [Scalar.toInt64?]

section Masked
variable {chunk : Chunk} (hc : chunk.Sound)
include hc

section Arithmetic
variable {l r : Column} (hl : l.size = chunk.physicalRows) (hr : r.size = chunk.physicalRows)
include hl hr

/-- Arithmetic on operands of a common type, hidden rows masked. -/
theorem arithmetic_eq {t : SqlType} (ht : SqlType.common? l.type r.type = some t) (op : ArithmeticOp) :
    ∃ l' r', l'.size = l.size ∧ r'.size = l.size ∧
      (∀ i < l.size, l'.datum i = if i ∈ chunk.activeRows then ⟨t, (l.datum i).widen t⟩ else .null t) ∧
      (∀ i < l.size, r'.datum i = if i ∈ chunk.activeRows then ⟨t, (r.datum i).widen t⟩ else .null t) ∧
      arithmetic chunk op l r =
        if t = .sqlNull then .ok (Column.nulls .sqlNull l.size)
        else if t.isNumeric then zipOperands (op.apply t) l' r'
        else .error (.error (.type (.arithmetic op t))) := by
  obtain ⟨l', hml, _, hsl, hdl⟩ := Column.masked_ok hc ((Column.size_widen t l).trans hl)
  obtain ⟨r', hmr, _, hsr, hdr⟩ := Column.masked_ok hc ((Column.size_widen t r).trans hr)
  rw [Column.size_widen] at hsl hsr hdl hdr
  have hs : l.size = r.size := hl.trans hr.symm
  refine ⟨l', r', hsl, hsr.trans hs.symm, fun i hi => ?_, fun i hi => ?_, ?_⟩
  · rw [hdl i hi, Column.datum_widen hi, Column.type_widen]
  · rw [hdr i (hs ▸ hi), Column.datum_widen (hs ▸ hi), Column.type_widen]
  · have hco : l.coerce r = .ok (t, l.widen t, r.widen t) := by rw [Column.coerce, ht]
    unfold arithmetic
    rw [hco, lift_ok, ok_bind]
    by_cases hn : t = .sqlNull
    · simp only [hn, if_true]
      rfl
    · by_cases hnum : t.isNumeric = true
      · simp only [hn, hnum, hml, hmr, hs, ok_bind, if_false, if_true, ne_eq, not_true_eq_false, Bool.not_true,
          Bool.false_eq_true]
      · simp only [hn, hnum, if_false, if_true, Bool.not_false]
        rfl

theorem arithmetic_ok {op : ArithmeticOp} {out : Column} (h : arithmetic chunk op l r = .ok out) :
    out.size = l.size ∧ SqlType.common? l.type r.type = some out.type ∧
      ∀ i ∈ chunk.activeRows, Datum.arithmetic op (l.datum i) (r.datum i) = .ok (out.datum i) := by
  obtain ⟨⟨t, _, _⟩, hco, -⟩ := bind_eq_ok.mp h
  have ht := common_of_coerce (lift_eq_ok.mp hco)
  obtain ⟨l', r', hsl, hsr, hdl, hdr, he⟩ := arithmetic_eq hc hl hr ht op
  rw [he] at h
  have hd (i : Nat) : Datum.arithmetic op (l.datum i) (r.datum i) =
      if t = .sqlNull then .ok (.null .sqlNull)
      else if t.isNumeric then Datum.ofResult (op.apply t ((l.datum i).widen t) ((r.datum i).widen t))
      else .error (.type (.arithmetic op t)) := by
    simp only [Datum.arithmetic, Column.datum_type, ht]
  by_cases hn : t = .sqlNull
  · rw [if_pos hn] at h
    cases h
    refine ⟨Column.size_nulls _ _, by rw [ht, hn]; rfl, fun i _ => ?_⟩
    rw [hd, if_pos hn, Column.datum_nulls]
  · rw [if_neg hn] at h
    by_cases hnum : t.isNumeric = true
    · rw [if_pos hnum] at h
      obtain ⟨htype, hsize, hval⟩ := zipOperands_ok (hsl.trans hsr.symm) h
      refine ⟨hsize.trans hsl, by rw [ht, htype], fun i hi => ?_⟩
      have hlt : i < l.size := hl ▸ hc.active_lt hi
      have := hval i (hsl ▸ hlt)
      rw [hdl i hlt, hdr i hlt, if_pos hi, if_pos hi] at this
      rw [hd, if_neg hn, if_pos hnum, this]
    · rw [if_neg hnum] at h
      cases h

theorem arithmetic_error {op : ArithmeticOp} {t : SqlType} (ht : SqlType.common? l.type r.type = some t)
    (hnum : t = .sqlNull ∨ t.isNumeric = true) {x : Failure} (h : arithmetic chunk op l r = .error x) :
    ∃ i ∈ chunk.activeRows, ∃ e, Datum.arithmetic op (l.datum i) (r.datum i) = .error e ∧ x = .error e := by
  obtain ⟨l', r', hsl, hsr, hdl, hdr, he⟩ := arithmetic_eq hc hl hr ht op
  rw [he] at h
  by_cases hn : t = .sqlNull
  · rw [if_pos hn] at h
    cases h
  · have hnum := hnum.resolve_left hn
    rw [if_neg hn, if_pos hnum] at h
    obtain ⟨i, hi, e, hf, rfl⟩ := zipOperands_error (hsl.trans hsr.symm) h
    rw [hsl] at hi
    rw [hdl i hi, hdr i hi] at hf
    -- a hidden row has NULL for both operands
    by_cases hact : i ∈ chunk.activeRows
    · rw [if_pos hact, if_pos hact] at hf
      refine ⟨i, hact, _, ?_, rfl⟩
      simp only [Datum.arithmetic, Column.datum_type, ht, hn, hnum, if_false, if_true, hf]
      rfl
    · rw [if_neg hact, if_neg hact, Datum.null, apply_null] at hf
      cases hf

end Arithmetic

/-! ### Negation and casts -/

theorem negate_ok {c out : Column} (hs : c.size = chunk.physicalRows) (h : negate chunk c = .ok out) :
    out.type = c.type ∧ out.size = c.size ∧ ∀ i ∈ chunk.activeRows, (c.datum i).negate = .ok (out.datum i) := by
  obtain ⟨m, hm, htm, hsm, hdm⟩ := Column.masked_ok hc hs
  unfold negate at h
  by_cases hn : c.type = .sqlNull
  · rw [if_pos hn] at h
    cases h
    refine ⟨rfl, rfl, fun i _ => ?_⟩
    rw [Datum.negate, Column.datum_type, if_pos hn]
  · rw [if_neg hn, hm, ok_bind] at h
    by_cases hnum : c.type.isNumeric = true
    · simp only [htm, hnum, Bool.not_true, Bool.false_eq_true, if_false] at h
      split at h
      · rename_i slots hslots
        cases h
        obtain ⟨hsize, hval⟩ := Column.mapM_slots_ok hslots
        refine ⟨htm, hsize.trans hsm, fun i hi => ?_⟩
        have hlt : i < c.size := hs ▸ hc.active_lt hi
        obtain ⟨s, hf, hd⟩ := hval i (hsm ▸ hlt)
        rw [hdm i hlt, if_pos hi] at hf
        rw [hd, Datum.negate, Column.datum_type, if_neg hn, if_pos hnum, ← htm, hf]
        rfl
      · cases h
    · simp only [htm, hnum, Bool.not_false, if_true] at h
      cases h

theorem negate_error {c : Column} (hs : c.size = chunk.physicalRows) (hnum : c.type.isNumeric = true) {x : Failure}
    (h : negate chunk c = .error x) :
    ∃ i ∈ chunk.activeRows, ∃ e, (c.datum i).negate = .error e ∧ x = .error e := by
  obtain ⟨m, hm, htm, hsm, hdm⟩ := Column.masked_ok hc hs
  have hn : c.type ≠ .sqlNull := by
    intro hn
    rw [hn] at hnum
    cases hnum
  unfold negate at h
  rw [if_neg hn, hm, ok_bind] at h
  simp only [htm, hnum, Bool.not_true, Bool.false_eq_true, if_false] at h
  split at h
  · cases h
  · rename_i e hslots
    cases h
    obtain ⟨i, hact, hf⟩ := Column.mapM_masked_error hsm hdm (fun _ hnull => by cases hnull) hslots
    refine ⟨i, hact, _, ?_, rfl⟩
    rw [Datum.negate, Column.datum_type, if_neg hn, if_pos hnum, ← htm, hf]
    rfl

theorem cast_ok {t : SqlType} {c out : Column} (hs : c.size = chunk.physicalRows) (h : cast chunk t c = .ok out) :
    out.type = t ∧ out.size = c.size ∧ ∀ i ∈ chunk.activeRows, (c.datum i).cast t = .ok (out.datum i) := by
  obtain ⟨m, hm, htm, hsm, hdm⟩ := Column.masked_ok hc hs
  unfold cast at h
  by_cases ht : c.type = t
  · rw [if_pos ht] at h
    cases h
    refine ⟨ht, rfl, fun i _ => ?_⟩
    rw [Datum.cast, Column.datum_type, if_pos ht]
  · rw [if_neg ht, hm, ok_bind, lift_eq_ok, Column.cast, htm] at h
    by_cases hcan : c.type.canCast t = true
    · rw [if_pos hcan] at h
      obtain ⟨slots, hslots, rfl⟩ := map_eq_ok.mp h
      obtain ⟨hsize, hval⟩ := Column.mapM_slots_ok hslots
      refine ⟨rfl, hsize.trans hsm, fun i hi => ?_⟩
      have hlt : i < c.size := hs ▸ hc.active_lt hi
      obtain ⟨s, hf, hd⟩ := hval i (hsm ▸ hlt)
      rw [hdm i hlt, if_pos hi] at hf
      rw [hd, Datum.cast, Column.datum_type, if_neg ht, if_pos hcan, hf]
      rfl
    · rw [if_neg hcan] at h
      cases h

theorem cast_error {t : SqlType} {c : Column} (hs : c.size = chunk.physicalRows) (hcan : c.type.canCast t = true)
    {x : Failure} (h : cast chunk t c = .error x) :
    ∃ i ∈ chunk.activeRows, ∃ e, (c.datum i).cast t = .error e ∧ x = .error e := by
  obtain ⟨m, hm, htm, hsm, hdm⟩ := Column.masked_ok hc hs
  unfold cast at h
  by_cases ht : c.type = t
  · rw [if_pos ht] at h
    cases h
  · rw [if_neg ht, hm, ok_bind, lift_eq_error, Column.cast, htm, if_pos hcan] at h
    obtain ⟨e, he, rfl⟩ := h
    obtain ⟨i, hact, hf⟩ := Column.mapM_masked_error hsm hdm (fun _ hnull => by cases hnull) (map_eq_error.mp he)
    refine ⟨i, hact, _, ?_, rfl⟩
    rw [Datum.cast, Column.datum_type, if_neg ht, if_pos hcan, hf]
    rfl

end Masked

end Evaluate
end QueryEngine
