import QueryEngine.Proofs.Result

/-! Failures that no plan is to blame for.

A value may have no answer to an operation, bytes may run out and a row id may be no
row of its table: such failures are of the data (`OfData`). All others say that a plan
or the engine does not hold together. `Yields` says of a result, and `Ends` of a step on
a state, that it is as promised or fails on data; the rules follow the ways in which
results and steps are put together. -/
namespace QueryEngine
variable {ε α β σ : Type}

/-- An error about data or resources. -/
def QueryError.OfData : QueryError → Prop
  | .execution (.cast _ _) | .execution (.overflow _ _ _) | .execution (.negationOverflow _) => True
  | .execution .sumOverflow => True
  | .resourceExhausted _ => True
  | .storage (.rowId _ _) => True
  | .kernel (.unwritableDate _) => True
  | _ => False

instance : DecidablePred QueryError.OfData
  | .execution (.cast _ _) | .execution (.overflow _ _ _) | .execution (.negationOverflow _)
  | .execution .sumOverflow | .resourceExhausted _ | .storage (.rowId _ _) | .kernel (.unwritableDate _) => .isTrue trivial
  | .execution (.operandLengths _ _) | .execution (.negationType _) | .execution (.sink _)
  | .storage (.missingColumns _) | .storage (.noColumn _ _) | .storage (.columnType _ _) | .storage (.unevenColumns _)
  | .kernel (.cast _ _) | .kernel (.unordered _) | .kernel .concatenation | .kernel (.comparedLengths _ _)
  | .kernel .logicLengths | .kernel .unevenBatch | .kernel .columnlessBatch
  | .invalidPlan _ | .type _ | .notImplemented _ | .internal _ | .io _ | .config => .isFalse id

/-- Neither a crash nor a loop that has used up its bound is about data. -/
def Failure.OfData : Failure → Prop
  | .error e => e.OfData
  | .crash | .stalled => False

instance : DecidablePred Failure.OfData
  | .error e => inferInstanceAs (Decidable e.OfData)
  | .crash | .stalled => .isFalse id

/-- The result is as `Q` tells, or an error that `P` tells of. -/
def Yields (P : ε → Prop) (x : Except ε α) (Q : α → Prop) : Prop :=
  match x with
  | .ok a => Q a
  | .error e => P e

instance (P : ε → Prop) (x : Except ε α) (Q : α → Prop) [DecidablePred P] [DecidablePred Q] : Decidable (Yields P x Q) :=
  match x with
  | .ok a => inferInstanceAs (Decidable (Q a))
  | .error e => inferInstanceAs (Decidable (P e))

namespace Yields
variable {P : ε → Prop} {x : Except ε α} {Q R : α → Prop}

theorem of_error (h : ∀ e, x = .error e → P e) : Yields P x fun a => x = .ok a := by
  cases x with
  | ok a => rfl
  | error e => exact h e rfl

theorem of_ok {a : α} (h : x = .ok a) (hQ : Q a) : Yields P x Q := by
  rw [h]
  exact hQ

theorem mono (h : Yields P x Q) (hQR : ∀ a, Q a → R a) : Yields P x R := by
  cases x with
  | ok a => exact hQR a h
  | error e => exact h

theorem error_mono {P' : ε → Prop} (h : Yields P x Q) (hP : ∀ e, P e → P' e) : Yields P' x Q := by
  cases x with
  | ok a => exact h
  | error e => exact hP e h

/-- What is promised, of a result that is known. -/
theorem and_ok (h : Yields P x Q) : Yields P x fun a => Q a ∧ x = .ok a := by
  cases x with
  | ok a => exact ⟨h, rfl⟩
  | error e => exact h

theorem error (h : Yields P x Q) {e : ε} (hx : x = .error e) : P e := by
  rw [hx] at h
  exact h

theorem exists_error (h : Yields P x fun _ => False) : ∃ e, x = .error e ∧ P e := by
  cases x with
  | ok a => exact h.elim
  | error e => exact ⟨e, rfl, h⟩

theorem bind {f : α → Except ε β} {R : β → Prop} (h : Yields P x Q) (hf : ∀ a, Q a → Yields P (f a) R) :
    Yields P (x >>= f) R := by
  cases x with
  | ok a => exact hf a h
  | error e => exact h

theorem map {f : α → β} {R : β → Prop} (h : Yields P x fun a => R (f a)) : Yields P (x.map f) R := by
  cases x with
  | ok a => exact h
  | error e => exact h

theorem ite {c : Prop} [Decidable c] {y : Except ε α} (ht : c → Yields P x Q) (he : ¬c → Yields P y Q) :
    Yields P (if c then x else y) Q := by
  split
  · exact ht ‹_›
  · exact he ‹_›

/-- A query error lifted among failures. -/
theorem lift {P : Failure → Prop} {x : Except QueryError α} {Q : α → Prop} (h : Yields (fun e => P (.error e)) x Q) :
    Yields P (liftM x) Q := by
  cases x with
  | ok a => exact h
  | error e => exact h

/-- A pass over a list, element by element. -/
theorem mapM {f : α → Except ε β} {S : α → β → Prop} {xs : List α} (h : ∀ a ∈ xs, Yields P (f a) (S a)) :
    Yields P (xs.mapM f) fun ys => List.Forall₂ S xs ys := by
  induction xs with
  | nil => exact .nil
  | cons a xs ih =>
    rw [List.mapM_cons]
    refine (h a (List.mem_cons_self ..)).bind fun b hb => ?_
    refine (ih fun a' ha' => h a' (List.mem_cons_of_mem _ ha')).bind fun bs hbs => ?_
    exact .cons hb hbs

/-- A check of every element. -/
theorem forM {f : α → Except ε Unit} {xs : List α} (h : ∀ a ∈ xs, Yields P (f a) fun _ => True) :
    Yields P (xs.forM f) fun _ => True := by
  induction xs with
  | nil => trivial
  | cons a xs ih =>
    refine (h a (List.mem_cons_self ..)).bind fun _ _ => ?_
    exact ih fun b hb => h b (List.mem_cons_of_mem _ hb)

/-- A fold that keeps to `I`. -/
theorem foldlM {f : β → α → Except ε β} {I : β → Prop} {xs : List α} {b : β} (hb : I b)
    (h : ∀ b a, a ∈ xs → I b → Yields P (f b a) I) : Yields P (xs.foldlM f b) I := by
  induction xs generalizing b with
  | nil => exact hb
  | cons a xs ih =>
    rw [List.foldlM_cons]
    refine (h b a (List.mem_cons_self ..) hb).bind fun b' hb' => ?_
    exact ih hb' fun b a ha => h b a (List.mem_cons_of_mem _ ha)

end Yields

/-! ### Steps on a state -/

/-- From `s` the step ends as `Q` tells or fails on data. -/
def Ends (m : EStateM Failure σ α) (s : σ) (Q : α → σ → Prop) : Prop :=
  match m s with
  | .ok a t => Q a t
  | .error e _ => e.OfData

namespace Ends
variable {m : EStateM Failure σ α} {s : σ} {Q R : α → σ → Prop}

theorem of_ok {a : α} {t : σ} (h : m s = .ok a t) (hQ : Q a t) : Ends m s Q := by
  unfold Ends
  rw [h]
  exact hQ

theorem mono (h : Ends m s Q) (hQR : ∀ a t, Q a t → R a t) : Ends m s R := by
  unfold Ends at h ⊢
  cases hm : m s with
  | ok a t =>
    rw [hm] at h
    exact hQR a t h
  | error e t =>
    rw [hm] at h
    exact h

theorem and_ok (h : Ends m s Q) : Ends m s fun a t => Q a t ∧ m s = .ok a t := by
  unfold Ends at h ⊢
  cases hm : m s with
  | ok a t =>
    rw [hm] at h
    exact ⟨h, rfl⟩
  | error e t =>
    rw [hm] at h
    exact h

theorem pure {a : α} (h : Q a s) : Ends (pure a) s Q := h

theorem bind {k : α → EStateM Failure σ β} {R : β → σ → Prop} (h : Ends m s Q) (hk : ∀ a t, Q a t → Ends (k a) t R) :
    Ends (m >>= k) s R := by
  unfold Ends at h ⊢
  rw [run_bind]
  cases hm : m s with
  | ok a t =>
    rw [hm] at h
    exact hk a t h
  | error e t =>
    rw [hm] at h
    exact h

/-- A first step whose outcome is known. -/
theorem step {k : α → EStateM Failure σ β} {R : β → σ → Prop} {a : α} {t : σ} (hm : m s = .ok a t)
    (h : Ends (k a) t R) : Ends (m >>= k) s R := by
  unfold Ends at h ⊢
  rw [run_bind, hm]
  exact h

theorem ite {c : Prop} [Decidable c] {k : EStateM Failure σ α} (ht : c → Ends m s Q) (he : ¬c → Ends k s Q) :
    Ends (if c then m else k) s Q := by
  split
  · exact ht ‹_›
  · exact he ‹_›

theorem lift {x : Except Failure α} (h : Yields Failure.OfData x fun a => Q a s) : Ends (liftM x) s Q := by
  unfold Ends
  rw [run_lift]
  cases x with
  | ok a => exact h
  | error e => exact h

theorem liftQuery {x : Except QueryError α} (h : Yields QueryError.OfData x fun a => Q a s) : Ends (liftM x) s Q := by
  unfold Ends
  rw [run_liftQuery]
  cases x with
  | ok a => exact h
  | error e => exact h

theorem lift_bind {x : Except Failure α} {k : α → EStateM Failure σ β} {Q : α → Prop} {R : β → σ → Prop}
    (hx : Yields Failure.OfData x Q) (h : ∀ a, Q a → Ends (k a) s R) : Ends (liftM x >>= k) s R := by
  refine (lift (Q := fun a t => Q a ∧ t = s) (hx.mono fun a ha => ⟨ha, rfl⟩)).bind fun a t ⟨ha, ht⟩ => ?_
  rw [ht]
  exact h a ha

theorem liftQuery_bind {x : Except QueryError α} {k : α → EStateM Failure σ β} {Q : α → Prop} {R : β → σ → Prop}
    (hx : Yields QueryError.OfData x Q) (h : ∀ a, Q a → Ends (k a) s R) : Ends (liftM x >>= k) s R := by
  refine (liftQuery (Q := fun a t => Q a ∧ t = s) (hx.mono fun a ha => ⟨ha, rfl⟩)).bind fun a t ⟨ha, ht⟩ => ?_
  rw [ht]
  exact h a ha

end Ends
end QueryEngine
