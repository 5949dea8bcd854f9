import QueryEngine.Expr.Typing
import QueryEngine.Proofs.Result

/-! What it takes for an operator to have a type. -/
namespace QueryEngine.Expr

theorem logicType_eq_ok {op : LogicOp} {l r t : SqlType} :
    binaryType l (.logic op) r = .ok t ↔
      (l = .boolean ∨ l = .sqlNull) ∧ (r = .boolean ∨ r = .sqlNull) ∧ t = .boolean := by
  simp only [binaryType]
  split
  · rename_i h
    simp [h, eq_comm]
  · rename_i h
    simp only [reduceCtorEq, false_iff]
    exact fun h' => h ⟨h'.1, h'.2.1⟩

theorem comparisonType_eq_ok {op : ComparisonOp} {l r t : SqlType} :
    binaryType l (.comparison op) r = .ok t ↔ (SqlType.common? l r).isSome ∧ t = .boolean := by
  simp only [binaryType]
  split
  · rename_i h
    simp [h, eq_comm]
  · rename_i h
    simp [h]

theorem arithmeticType_eq_ok {op : ArithmeticOp} {l r t : SqlType} :
    binaryType l (.arithmetic op) r = .ok t ↔
      SqlType.common? l r = some t ∧ (t = .sqlNull ∨ t.isNumeric = true) := by
  simp only [binaryType]
  cases SqlType.common? l r with
  | none => simp
  | some common =>
    simp only [Option.some.injEq]
    split
    · rename_i h
      constructor
      · rintro ⟨⟩
        exact ⟨rfl, h⟩
      · rintro ⟨rfl, _⟩
        rfl
    · rename_i h
      simp only [reduceCtorEq, false_iff]
      rintro ⟨rfl, h'⟩
      exact h h'

theorem notType_eq_ok {t u : SqlType} :
    unaryType .not t = .ok u ↔ (t = .boolean ∨ t = .sqlNull) ∧ u = .boolean := by
  simp only [unaryType]
  split
  · rename_i h
    simp [h, eq_comm]
  · rename_i h
    simp [h]

theorem negateType_eq_ok {t u : SqlType} : unaryType .negate t = .ok u ↔ t.isNumeric = true ∧ u = t := by
  simp only [unaryType]
  split
  · rename_i h
    simp [h, eq_comm]
  · rename_i h
    simp [h]

theorem castType_eq_ok {s t u : SqlType} : castType s t = .ok u ↔ s.canCast t = true ∧ u = t := by
  simp only [castType]
  split
  · rename_i h
    simp [h, eq_comm]
  · rename_i h
    simp [h]

theorem columnType_eq_ok {input : List SqlType} {i : Nat} {bound t : SqlType} :
    columnType input i bound = .ok t ↔ input[i]? = some t ∧ bound = t := by
  unfold columnType
  cases input[i]? with
  | none => simp
  | some actual =>
    simp only [Option.some.injEq]
    split
    · rename_i h
      subst h
      simp [eq_comm]
    · rename_i h
      simp only [reduceCtorEq, false_iff]
      rintro ⟨rfl, rfl⟩
      exact h rfl

/-- A call has no argument or one. -/
theorem callType_eq_ok {f : AggregateFunction} {types : List SqlType} {args : List Expr} {t : SqlType} :
    callType f (args.map (resolve types)) = .ok t ↔
      (args = [] ∧ f.returnType none = .ok t) ∨
        ∃ e u, args = [e] ∧ e.resolve types = .ok u ∧ f.returnType (some u) = .ok t := by
  match args with
  | [] => simp [callType]
  | [e] =>
    have hcall : callType f ([e].map (resolve types)) = .ok t ↔
        ∃ u, e.resolve types = .ok u ∧ f.returnType (some u) = .ok t := bind_eq_ok
    rw [hcall]
    simp
  | _ :: _ :: _ => simp [callType]

/-- Expressions that are checked together have a type each. -/
theorem resolve_of_allResolve {α : Type} {resolve : α → Except QueryError SqlType} {xs : List α}
    (h : allResolve (xs.map resolve) = .ok ()) : ∀ x ∈ xs, ∃ t, resolve x = .ok t := by
  induction xs with
  | nil => exact nofun
  | cons x xs ih =>
    obtain ⟨t, ht, hrest⟩ := bind_eq_ok.mp h
    exact List.forall_mem_cons.mpr ⟨⟨t, ht⟩, ih hrest⟩

end QueryEngine.Expr
