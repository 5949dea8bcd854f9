import QueryEngine.Proofs.Expr.RowTyping
import QueryEngine.Proofs.Expr.Rowwise
import QueryEngine.Proofs.Yields

/-! How a well-typed expression fails.

On a typed row an operator that has a type fails on its operands' values alone: on an
overflow, a value that cannot be cast or a date that cannot be written (`OfValue`). So
an expression that resolved against the types of a chunk has, on the chunk, a column of
its type or an error of that kind, which is the one of an active row, and never one that
is about types. -/
namespace QueryEngine

/-- An error that a value is to blame for. -/
def QueryError.OfValue : QueryError → Prop
  | .execution (.cast _ _) | .execution (.overflow _ _ _) | .execution (.negationOverflow _) => True
  | .kernel (.unwritableDate _) => True
  | _ => False

theorem QueryError.OfValue.ofData {e : QueryError} (h : e.OfValue) : e.OfData := by
  unfold OfValue at h
  split at h <;> trivial

/-! ### Operators on slots -/

theorem ArithmeticOp.apply_yields (op : ArithmeticOp) (t : SqlType) (l r : Scalar) :
    Yields (fun e => QueryError.OfValue (.execution e)) (op.apply t l r) fun _ => True := by
  unfold apply
  refine .ite (fun _ => trivial) fun _ => ?_
  split
  · trivial
  · split
    · split <;> trivial
    · trivial

theorem Scalar.negate_yields (t : SqlType) (v : Scalar) :
    Yields (fun e => QueryError.OfValue (.execution e)) (v.negate t) fun _ => True := by
  unfold negate
  split
  · trivial
  · split
    · trivial
    · split <;> trivial

namespace Cast

theorem toVarchar_yields (v : Scalar) : Yields QueryError.OfValue (toVarchar v) fun _ => True := by
  cases v with
  | date days =>
    simp only [toVarchar]
    exact .ite (fun _ => trivial) fun _ => trivial
  | _ => trivial

theorem value_yields (t : SqlType) (v : Scalar) : Yields QueryError.OfValue (value t v) fun _ => True := by
  unfold value
  refine .ite (fun _ => trivial) fun _ => ?_
  cases t with
  | varchar => exact Yields.map (toVarchar_yields v)
  | sqlNull => trivial
  | _ =>
    dsimp only
    split <;> trivial

theorem slot_yields (t : SqlType) (v : Scalar) : Yields QueryError.OfValue (slot t v) fun _ => True :=
  Yields.map (value_yields t v)

end Cast

/-! ### Operators on a row -/

namespace Datum
variable {l r d : Datum} {t : SqlType}

theorem toBoolean_of_type (h : d.type = .boolean ∨ d.type = .sqlNull) : ∃ b, d.toBoolean = .ok b := by
  unfold toBoolean
  rcases h with h | h <;> simp only [h] <;> exact ⟨_, rfl⟩

theorem ofResult_yields {x : Except ExecutionError (Slot t)}
    (h : Yields (fun e => QueryError.OfValue (.execution e)) x fun _ => True) :
    Yields QueryError.OfValue (ofResult x) fun _ => True := by
  cases x with
  | ok s => trivial
  | error e => exact h

theorem binary_yields {op : BinaryOp} (ht : Expr.binaryType l.type op r.type = .ok t) :
    Yields QueryError.OfValue (binary op l r) fun _ => True := by
  cases op with
  | logic op =>
    obtain ⟨hl, hr, _⟩ := Expr.logicType_eq_ok.mp ht
    obtain ⟨a, ha⟩ := toBoolean_of_type hl
    obtain ⟨b, hb⟩ := toBoolean_of_type hr
    rw [binary, logic, ha, hb]
    trivial
  | comparison op =>
    obtain ⟨common, hcommon⟩ := Option.isSome_iff_exists.mp (Expr.comparisonType_eq_ok.mp ht).1
    simp only [binary, comparison, hcommon]
    cases common <;> trivial
  | arithmetic op =>
    obtain ⟨hcommon, hnumeric⟩ := Expr.arithmeticType_eq_ok.mp ht
    simp only [binary, arithmetic, hcommon]
    refine .ite (fun _ => trivial) fun hnull => .ite (fun _ => ?_) fun hnot => ?_
    · exact ofResult_yields (op.apply_yields t _ _)
    · exact absurd (hnumeric.resolve_left hnull) hnot

theorem negate_yields (ht : d.type.isNumeric = true) : Yields QueryError.OfValue d.negate fun _ => True := by
  unfold negate
  refine .ite (fun _ => trivial) fun _ => ?_
  rw [if_pos ht]
  exact ofResult_yields (d.value.negate_yields d.type)

theorem unary_yields {op : UnaryOp} (ht : Expr.unaryType op d.type = .ok t) :
    Yields QueryError.OfValue (unary op d) fun _ => True := by
  cases op with
  | not =>
    obtain ⟨b, hb⟩ := toBoolean_of_type (Expr.notType_eq_ok.mp ht).1
    rw [unary, hb]
    trivial
  | negate => exact negate_yields (Expr.negateType_eq_ok.mp ht).1
  | isNull | isNotNull => trivial

theorem cast_yields (h : d.type.canCast t = true) : Yields QueryError.OfValue (d.cast t) fun _ => True := by
  unfold cast
  refine .ite (fun _ => trivial) fun _ => ?_
  rw [if_pos h]
  exact Yields.map (Cast.slot_yields t d.value)

end Datum

namespace Expr

/-- On a typed row a well-typed expression without calls fails on values alone. -/
theorem onRow_yields {types : List SqlType} {row : Row} (hrow : Typed types row) {e : Expr} {t : SqlType}
    (hp : e.isPlain = true) (ht : e.resolve types = .ok t) : Yields QueryError.OfValue (e.onRow row) fun _ => True := by
  have htyped {e : Expr} {t : SqlType} (ht : e.resolve types = .ok t)
      (h : Yields QueryError.OfValue (e.onRow row) fun _ => True) : Yields QueryError.OfValue (e.onRow row) (·.type = t) :=
    h.and_ok.mono fun d hd => (onRow_typed hrow ht hd.2).1
  fun_induction onRow row e generalizing t with
  | case1 => trivial
  | case2 i bound hi =>
    obtain ⟨htype, _⟩ := columnType_eq_ok.mp ht
    rw [← hrow.1, List.getElem?_map, hi] at htype
    cases htype
  | case3 => trivial
  | case4 l op r hl hr =>
    rw [isPlain, Bool.and_eq_true] at hp
    obtain ⟨lt, hlt, ht⟩ := bind_eq_ok.mp ht
    obtain ⟨rt, hrt, ht⟩ := bind_eq_ok.mp ht
    refine (htyped hlt (hl hp.1 hlt)).bind fun ld hld => (htyped hrt (hr hp.2 hrt)).bind fun rd hrd => ?_
    exact Datum.binary_yields (hld.symm ▸ hrd.symm ▸ ht)
  | case5 op e he =>
    obtain ⟨et, het, ht⟩ := bind_eq_ok.mp ht
    exact (htyped het (he hp het)).bind fun d hd => Datum.unary_yields (hd.symm ▸ ht)
  | case6 e target he =>
    obtain ⟨et, het, ht⟩ := bind_eq_ok.mp ht
    exact (htyped het (he hp het)).bind fun d hd => Datum.cast_yields (hd.symm ▸ (castType_eq_ok.mp ht).1)
  | case7 => cases hp
  | case8 => cases hp

/-! ### On a chunk -/

variable {chunk : Chunk}

/-- A well-typed expression without calls has a column of its type, or fails on data. -/
theorem evaluate_yields (hc : chunk.Sound) {e : Expr} {t : SqlType} (hp : e.isPlain = true)
    (ht : e.resolve chunk.types = .ok t) :
    Yields Failure.OfData (e.evaluate chunk) fun c => c.type = t ∧ c.size = chunk.physicalRows := by
  refine (Yields.of_error fun x hx => ?_).mono fun c hcol => ⟨evaluate_type hc ht hcol, (evaluate_rowwise hc hcol).size⟩
  obtain ⟨r, hr, e', he', rfl⟩ := evaluate_error hc hp ht hx
  have hrow : Typed chunk.types (chunk.row r) := Chunk.typed_of_mem_rows (List.mem_map_of_mem hr)
  exact ((onRow_yields hrow hp ht).error he').ofData

/-- On a verified chunk an expression without calls that has type `t` over its columns
gives an array of that type with a slot for every physical row, which has the
expression's value on every active row; or else it fails as it does on one of the active
rows, and a value is to blame. -/
theorem evaluate_soundness (hv : chunk.verify = .ok ()) {e : Expr} {t : SqlType} (hp : e.isPlain = true)
    (ht : e.resolve chunk.types = .ok t) :
    (∃ out, e.evaluate chunk = .ok out ∧ out.size = chunk.physicalRows ∧ out.type.storage = t.storage ∧
      ∀ r ∈ chunk.activeRows, e.onRow (chunk.row r) = .ok (out.datum r)) ∨
    ∃ x : QueryError, e.evaluate chunk = .error (.error x) ∧ x.OfValue ∧
      ∃ r ∈ chunk.activeRows, e.onRow (chunk.row r) = .error x := by
  have hc : chunk.Sound := (Chunk.verify_eq_ok_iff chunk).mp hv
  cases hout : e.evaluate chunk with
  | ok out =>
    have hrows := evaluate_rowwise hc hout
    have htype : out.type = t := evaluate_type hc ht hout
    exact .inl ⟨out, rfl, hrows.size, congrArg SqlType.storage htype, hrows.value⟩
  | error failure =>
    obtain ⟨r, hr, x, hx, rfl⟩ := evaluate_error hc hp ht hout
    have hrow : Typed chunk.types (chunk.row r) := Chunk.typed_of_mem_rows (List.mem_map_of_mem hr)
    exact .inr ⟨x, rfl, (onRow_yields hrow hp ht).error hx, r, hr, hx⟩

/-- The hidden row alone would overflow, so the sum has its type and all of its slots. -/
theorem evaluate_soundness_hidden :
    let chunk : Chunk := ⟨[.ofInts [1, Int64.maxValue, 3], .ofInts [1, 1, 1]], some [2, 0], 2, 4⟩
    let sum : Expr := .binary (.column 0 .bigInt) (.arithmetic .add) (.column 1 .bigInt)
    chunk.verify = .ok () ∧ sum.isPlain = true ∧ sum.resolve chunk.types = .ok .bigInt ∧
      ∃ out, sum.evaluate chunk = .ok out ∧ out.size = 3 ∧ out.type.storage = SqlType.storage .bigInt ∧
        ∀ r ∈ chunk.activeRows, sum.onRow (chunk.row r) = .ok (out.datum r) := by
  intro chunk sum
  have hv : chunk.verify = .ok () := rfl
  have hp : sum.isPlain = true := rfl
  have ht : sum.resolve chunk.types = .ok .bigInt := rfl
  have hsome : ∃ out, sum.evaluate chunk = .ok out := ⟨_, rfl⟩
  refine ⟨hv, hp, ht, ?_⟩
  rcases evaluate_soundness hv hp ht with hout | ⟨x, herror, _⟩
  · exact hout
  · obtain ⟨out, hout⟩ := hsome
    cases hout.symm.trans herror

/-- Expressions that were resolved side by side. -/
theorem evaluateAll_yields (hc : chunk.Sound) {es : List Expr} {ts : List SqlType} (hp : ∀ e ∈ es, e.isPlain = true)
    (ht : es.mapM (resolve chunk.types) = .ok ts) :
    Yields Failure.OfData (es.mapM (evaluate chunk)) fun cs =>
      cs.map Column.type = ts ∧ ∀ c ∈ cs, c.size = chunk.physicalRows := by
  have hall := mapM_eq_ok_iff.mp ht
  clear ht
  induction hall with
  | nil => exact ⟨rfl, nofun⟩
  | @cons e t es ts he _ ih =>
    rw [List.mapM_cons]
    refine (evaluate_yields hc (hp e (List.mem_cons_self ..)) he).bind fun c ⟨htype, hsize⟩ => ?_
    refine (ih fun e' he' => hp e' (List.mem_cons_of_mem _ he')).bind fun cs ⟨htypes, hsizes⟩ => ?_
    refine ⟨?_, List.forall_mem_cons.mpr ⟨hsize, hsizes⟩⟩
    rw [List.map_cons, htype, htypes]

/-- Expressions without calls that have types over the columns. -/
def Resolved (types : List SqlType) (es : List Expr) : Prop := ∀ e ∈ es, e.isPlain = true ∧ ∃ t, e.resolve types = .ok t

theorem Resolved.evaluate_yields {es : List Expr} (h : Resolved chunk.types es) (hc : chunk.Sound) :
    Yields Failure.OfData (es.mapM (evaluate chunk)) fun cs => ∀ c ∈ cs, c.size = chunk.physicalRows := by
  have hall : Yields Failure.OfData (es.mapM (evaluate chunk)) fun cs =>
      List.Forall₂ (fun _ c => c.size = chunk.physicalRows) es cs := by
    refine Yields.mapM fun e he => ?_
    obtain ⟨hplain, t, ht⟩ := h e he
    exact (Expr.evaluate_yields hc hplain ht).mono fun _ hcol => hcol.2
  refine hall.mono fun cs hcs c hc => ?_
  obtain ⟨_, _, hsize⟩ := exists_of_mem_right hcs hc
  exact hsize

/-- A predicate selects some of the active rows. -/
theorem selectRows_yields (hc : chunk.Sound) {p : Expr} {t : SqlType} (hp : p.isPlain = true)
    (ht : p.resolve chunk.types = .ok t) (htruth : t = .boolean ∨ t = .sqlNull) :
    Yields Failure.OfData (p.selectRows chunk) fun rows => rows.Sublist chunk.activeRows := by
  have hfilter : Yields Failure.OfData (p.selectRows chunk) fun _ => True := by
    refine (evaluate_yields hc hp ht).bind fun c ⟨htype, hsize⟩ => ?_
    obtain ⟨truths, htruths⟩ := Column.toBooleans_of_type (htype ▸ htruth)
    obtain ⟨_, hlen, _⟩ := Column.toBooleans_ok htruths
    rw [htruths, lift_ok, ok_bind, hlen, hsize, if_pos hc.activeWithin]
    trivial
  refine hfilter.and_ok.mono fun rows hrows => ?_
  rw [selectRows_ok hc hrows.2]
  exact List.filter_sublist

end Expr
end QueryEngine
