import QueryEngine.Proofs.Chunk.Collected
import QueryEngine.Proofs.Expr.OnRow
import QueryEngine.Proofs.Expr.Typing

/-! Typed rows.

A row is typed when each of its values fits the type that it stands under. The rows of
a chunk are, and what a well-typed expression has on a typed row fits its type. -/
namespace QueryEngine

/-- The value fits its type. -/
def Datum.Fits (d : Datum) : Prop := d.value.Fits d.type

instance (d : Datum) : Decidable d.Fits := inferInstanceAs (Decidable (d.value.Fits d.type))

/-- A row of columns of these types. -/
def Typed (types : List SqlType) (row : Row) : Prop := row.map Datum.type = types ∧ ∀ d ∈ row, d.Fits

instance (types : List SqlType) (row : Row) : Decidable (Typed types row) :=
  inferInstanceAs (Decidable (_ ∧ _))

theorem Chunk.typed_of_mem_rows {c : Chunk} {row : Row} (h : row ∈ c.rows) : Typed c.types row := by
  obtain ⟨r, _, rfl⟩ := List.mem_map.mp h
  constructor
  · rw [Chunk.row, List.map_map]
    rfl
  · intro d hd
    obtain ⟨column, _, rfl⟩ := List.mem_map.mp hd
    exact column.value_fits r

theorem Lists.typed_of_mem {cs : List Column} {types : List SqlType} {rows : List Row} (h : Lists cs types rows) {row : Row}
    (hrow : row ∈ rows) : Typed types row := by
  obtain ⟨i, hi⟩ := List.mem_iff_getElem?.mp hrow
  rw [← h.row hi, ← h.typed]
  constructor
  · rw [List.map_map]
    rfl
  · intro d hd
    obtain ⟨column, _, rfl⟩ := List.mem_map.mp hd
    exact column.value_fits i

namespace Datum
variable {l r d out : Datum} {t : SqlType}

@[simp] theorem type_ofBoolean (b : Option Bool) : (ofBoolean b).type = .boolean := by cases b <;> rfl

theorem fits_ofBoolean (b : Option Bool) : (ofBoolean b).Fits := by
  cases b with
  | none => exact .inl rfl
  | some b => exact .inr rfl

theorem fits_ofSlot (s : Slot t) : (ofSlot s).Fits := s.property

theorem ofResult_ok {x : Except ExecutionError (Slot t)} (h : ofResult x = .ok out) : out.type = t ∧ out.Fits := by
  cases x with
  | ok s =>
    cases h
    exact ⟨rfl, fits_ofSlot s⟩
  | error e => cases h

theorem logic_typed {op : LogicOp} (h : logic op l r = .ok out) : out.type = .boolean ∧ out.Fits := by
  obtain ⟨a, _, h⟩ := bind_eq_ok.mp h
  obtain ⟨b, _, h⟩ := bind_eq_ok.mp h
  cases h
  exact ⟨type_ofBoolean _, fits_ofBoolean _⟩

theorem comparison_typed {op : ComparisonOp} (h : comparison op l r = .ok out) : out.type = .boolean ∧ out.Fits := by
  unfold comparison at h
  split at h
  · cases h
  · cases h
    exact ⟨rfl, .inl rfl⟩
  · cases h
    exact ⟨type_ofBoolean _, fits_ofBoolean _⟩

theorem arithmetic_typed {op : ArithmeticOp} (ht : SqlType.common? l.type r.type = some t)
    (h : arithmetic op l r = .ok out) : out.type = t ∧ out.Fits := by
  unfold arithmetic at h
  rw [ht] at h
  simp only at h
  split at h
  · rename_i hnull
    cases h
    exact ⟨hnull.symm, .inl rfl⟩
  · split at h
    · exact ofResult_ok h
    · cases h

theorem binary_typed {op : BinaryOp} (ht : Expr.binaryType l.type op r.type = .ok t) (h : binary op l r = .ok out) :
    out.type = t ∧ out.Fits := by
  cases op with
  | logic op =>
    obtain ⟨_, _, rfl⟩ := Expr.logicType_eq_ok.mp ht
    exact logic_typed h
  | comparison op =>
    obtain ⟨_, rfl⟩ := Expr.comparisonType_eq_ok.mp ht
    exact comparison_typed h
  | arithmetic op => exact arithmetic_typed (Expr.arithmeticType_eq_ok.mp ht).1 h

theorem negate_typed (hd : d.Fits) (h : d.negate = .ok out) : out.type = d.type ∧ out.Fits := by
  unfold negate at h
  split at h
  · cases h
    exact ⟨rfl, hd⟩
  · split at h
    · exact ofResult_ok h
    · cases h

theorem unary_typed {op : UnaryOp} (hd : d.Fits) (ht : Expr.unaryType op d.type = .ok t) (h : unary op d = .ok out) :
    out.type = t ∧ out.Fits := by
  cases op with
  | not =>
    obtain ⟨_, rfl⟩ := Expr.notType_eq_ok.mp ht
    obtain ⟨b, _, h⟩ := bind_eq_ok.mp h
    cases h
    exact ⟨type_ofBoolean _, fits_ofBoolean _⟩
  | negate =>
    obtain ⟨_, rfl⟩ := Expr.negateType_eq_ok.mp ht
    exact negate_typed hd h
  | isNull =>
    cases ht
    cases h
    exact ⟨type_ofBoolean _, fits_ofBoolean _⟩
  | isNotNull =>
    cases ht
    cases h
    exact ⟨type_ofBoolean _, fits_ofBoolean _⟩

theorem cast_typed (hd : d.Fits) (h : d.cast t = .ok out) : out.type = t ∧ out.Fits := by
  unfold cast at h
  split at h
  · rename_i hsame
    cases h
    exact ⟨hsame, hd⟩
  · split at h
    · obtain ⟨s, _, rfl⟩ := map_eq_ok.mp h
      exact ⟨rfl, fits_ofSlot s⟩
    · cases h

end Datum

/-- On a typed row a well-typed expression has a value of its type. -/
theorem Expr.onRow_typed {types : List SqlType} {row : Row} (hrow : Typed types row) {e : Expr} {t : SqlType} {d : Datum}
    (ht : e.resolve types = .ok t) (h : e.onRow row = .ok d) : d.type = t ∧ d.Fits := by
  fun_induction onRow row e generalizing t d with
  | case1 i bound found hi =>
    cases h
    obtain ⟨htype, _⟩ := columnType_eq_ok.mp ht
    rw [← hrow.1, List.getElem?_map, hi] at htype
    exact ⟨Option.some.inj htype, hrow.2 found (List.mem_of_getElem? hi)⟩
  | case2 => cases h
  | case3 v =>
    cases ht
    cases h
    exact ⟨rfl, v.fits_type⟩
  | case4 l op r hl hr =>
    obtain ⟨lt, hlt, ht⟩ := bind_eq_ok.mp ht
    obtain ⟨rt, hrt, ht⟩ := bind_eq_ok.mp ht
    obtain ⟨ld, hld, h⟩ := bind_eq_ok.mp h
    obtain ⟨rd, hrd, h⟩ := bind_eq_ok.mp h
    rw [← (hl hlt hld).1, ← (hr hrt hrd).1] at ht
    exact Datum.binary_typed ht h
  | case5 op e he =>
    obtain ⟨et, het, ht⟩ := bind_eq_ok.mp ht
    obtain ⟨ed, hed, h⟩ := bind_eq_ok.mp h
    obtain ⟨htype, hfits⟩ := he het hed
    rw [← htype] at ht
    exact Datum.unary_typed hfits ht h
  | case6 e target he =>
    obtain ⟨et, het, ht⟩ := bind_eq_ok.mp ht
    obtain ⟨ed, hed, h⟩ := bind_eq_ok.mp h
    obtain ⟨_, rfl⟩ := castType_eq_ok.mp ht
    exact Datum.cast_typed (he het hed).2 h
  | case7 => cases h
  | case8 => cases h

end QueryEngine
