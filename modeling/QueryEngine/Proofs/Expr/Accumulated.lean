import QueryEngine.Expr.Aggregate
import QueryEngine.Proofs.Expr.RowTyping
import QueryEngine.Proofs.Yields

/-! What aggregates make of typed values.

An accumulator that was started with the type its call resolved to, for an argument type,
stays fit for values of that type: taking one fails on nothing but an overflow of the
sum (`update_yields`), and its value has the resolved type (`value_fits`). -/
namespace QueryEngine

/-- The value that a row has for an argument of a type; a call without argument has
none. -/
def Scalar.Argues (argument : Option SqlType) : Option Scalar → Prop
  | none => argument = none
  | some v => ∃ t, argument = some t ∧ v.Fits t

namespace Accumulator
variable {a : Accumulator} {f : AggregateFunction} {argument : Option SqlType} {t : SqlType}

/-- Fit for values of the argument's type: the call resolved, and so far the least or
greatest value is one of them. -/
structure FitsArgument (a : Accumulator) (argument : Option SqlType) : Prop where
  resolved : a.function.returnType argument = .ok a.type
  extreme : ∀ t, argument = some t → a.extreme.Fits t

theorem start_fits (h : f.returnType argument = .ok t) : (start f t).FitsArgument argument :=
  ⟨h, fun t _ => Scalar.null_fits t⟩

theorem add_yields {v : Scalar} (ha : a.FitsArgument (some t)) (hv : v.Fits t) :
    Yields QueryError.OfData (a.add v) fun b =>
      b.FitsArgument (some t) ∧ b.function = a.function ∧ b.type = a.type := by
  have hkept (n : Nat) (sum : Int) (double : Double) (extreme : Scalar) (h : extreme.Fits t) :
      (Accumulator.mk a.function a.type n sum double extreme).FitsArgument (some t) :=
    ⟨ha.resolved, fun u hu => by cases hu; exact h⟩
  have hsame := ha.extreme t rfl
  unfold add
  dsimp only
  split
  · exact ⟨hkept _ _ _ _ hsame, rfl, rfl⟩
  · exact ⟨hkept _ _ _ _ hsame, rfl, rfl⟩
  · refine .ite (fun _ => .ite (fun _ => ?_) fun _ => trivial) fun _ => ?_
    · exact ⟨hkept _ _ _ _ hsame, rfl, rfl⟩
    · exact ⟨hkept _ _ _ _ hsame, rfl, rfl⟩
  · refine .ite (fun _ => .ite (fun _ => ?_) fun _ => trivial) fun _ => ?_
    · exact ⟨hkept _ _ _ _ hsame, rfl, rfl⟩
    · exact ⟨hkept _ _ _ _ hsame, rfl, rfl⟩
  · split
    · exact ⟨hkept _ _ _ _ hv, rfl, rfl⟩
    · exact ⟨hkept _ _ _ _ hsame, rfl, rfl⟩
  · split
    · exact ⟨hkept _ _ _ _ hv, rfl, rfl⟩
    · exact ⟨hkept _ _ _ _ hsame, rfl, rfl⟩

theorem update_yields {v : Option Scalar} (ha : a.FitsArgument argument) (hv : Scalar.Argues argument v) :
    Yields QueryError.OfData (a.update v) fun b =>
      b.FitsArgument argument ∧ b.function = a.function ∧ b.type = a.type := by
  cases v with
  | none => exact ⟨⟨ha.resolved, ha.extreme⟩, rfl, rfl⟩
  | some v =>
    obtain ⟨t, rfl, hfits⟩ := hv
    rw [update]
    exact .ite (fun _ => ⟨ha, rfl, rfl⟩) fun _ => add_yields ha hfits

/-- The value has the type of the call. -/
theorem value_fits (ha : a.FitsArgument argument) : a.value.Fits a.type := by
  obtain ⟨function, type, count, intSum, doubleSum, extreme⟩ := a
  have hresolved : function.returnType argument = .ok type := ha.resolved
  have hextreme : ∀ t, argument = some t → extreme.Fits t := ha.extreme
  cases argument with
  | none =>
    -- only COUNT(*) takes no argument
    cases function <;> cases hresolved
    exact .inr rfl
  | some t =>
    have hextreme := hextreme t rfl
    have hvalue {v : Scalar} (hv : v.Fits type) : (if count = 0 then .null else v : Scalar).Fits type := by
      split
      · exact Scalar.null_fits _
      · exact hv
    cases function with
    | countStar => cases hresolved
    | count =>
      cases hresolved
      exact .inr rfl
    | sum =>
      refine hvalue ?_
      simp only [AggregateFunction.returnType] at hresolved
      split at hresolved
      · cases hresolved
        exact .inr rfl
      · split at hresolved
        · cases hresolved
          exact .inr rfl
        · cases hresolved
    | avg =>
      refine hvalue ?_
      simp only [AggregateFunction.returnType] at hresolved
      split at hresolved
      · cases hresolved
        exact .inr rfl
      · cases hresolved
    | min | max =>
      cases hresolved
      exact hvalue hextreme

end Accumulator
end QueryEngine
