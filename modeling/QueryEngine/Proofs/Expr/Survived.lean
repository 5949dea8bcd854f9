import QueryEngine.Proofs.Expr.Folded

/-! An accumulator that goes on after a failure.

The count goes up before a sum is checked, so a sum that fails leaves an accumulator that
counted a value it did not take. Only a sum of integers fails, and that one looks at its
count for nothing but being zero, which it no longer is by the time a sum leaves 64 bits:
the two states are `Alike`, and no later update tells them apart (`Alike.answers`). So
after any updates the accumulator speaks for those values that it took, and the next one
fails when the exact sum with it does not fit (`takeEach_exact`). -/
namespace QueryEngine
namespace Accumulator
open AggregateFunction (Overflows Says)
variable {f : AggregateFunction} {t : SqlType} {vs : List Scalar} {v : Scalar} {a b : Accumulator} {e : QueryError}

/-! ### Updating in place -/

/-- `add` as it changes the accumulator, with what is left of it on failure. -/
def addInPlace (a : Accumulator) (v : Scalar) : Except QueryError Unit × Accumulator :=
  let a := { a with count := a.count + 1 }
  match a.function with
  | .countStar | .count => (.ok (), a)
  | .sum | .avg =>
    if a.sumsInts then
      let sum := a.intSum + (v.toInt64?.getD 0).toInt
      if -0x8000000000000000 ≤ sum ∧ sum ≤ 0x7fffffffffffffff then (.ok (), { a with intSum := sum })
      else (.error (.execution .sumOverflow), a)
    else
      (.ok (), { a with doubleSum := a.doubleSum.add (v.toDouble?.getD Double.zero) })
  | .min => (.ok (), if a.extreme.isNull || (v.compare a.extreme).isLT then { a with extreme := v } else a)
  | .max => (.ok (), if a.extreme.isNull || (v.compare a.extreme).isGT then { a with extreme := v } else a)

/-- `update` as it changes the accumulator. -/
def updateInPlace (a : Accumulator) : Option Scalar → Except QueryError Unit × Accumulator
  | none => (.ok (), { a with count := a.count + 1 })
  | some v => if v.isNull then (.ok (), a) else a.addInPlace v

/-- The accumulator after some arguments, whatever became of each. -/
def takeEach (a : Accumulator) (vs : List Scalar) : Accumulator :=
  vs.foldl (fun a v => (a.updateInPlace (some v)).2) a

/-- Those of the arguments that are not NULL and did not fail. -/
def taken (a : Accumulator) : List Scalar → List Scalar
  | [] => []
  | v :: vs =>
    let rest := taken (a.updateInPlace (some v)).2 vs
    match (a.updateInPlace (some v)).1 with
    | .ok () => if v.isNull then rest else v :: rest
    | .error _ => rest

/-- What each of some updates comes to, with the value after it. -/
def answers (a : Accumulator) : List (Option Scalar) → List (Except QueryError Unit × Scalar)
  | [] => []
  | x :: xs => ((a.updateInPlace x).1, (a.updateInPlace x).2.value) :: answers (a.updateInPlace x).2 xs

theorem add_eq_inPlace (a : Accumulator) (v : Scalar) : a.add v = (a.addInPlace v).1.map fun _ => (a.addInPlace v).2 := by
  obtain ⟨function, type, count, intSum, doubleSum, extreme⟩ := a
  cases function with
  | sum | avg =>
    unfold add addInPlace
    dsimp only
    split
    · split <;> rfl
    · rfl
  | countStar | count | min | max => rfl

/-- In place or not, an update is the same. -/
theorem update_eq_inPlace (a : Accumulator) (x : Option Scalar) :
    a.update x = (a.updateInPlace x).1.map fun _ => (a.updateInPlace x).2 := by
  cases x with
  | none => rfl
  | some v =>
    unfold update updateInPlace
    dsimp only
    split
    · rfl
    · exact add_eq_inPlace a v

theorem updateInPlace_of_ok {x : Option Scalar} (h : a.update x = .ok b) : a.updateInPlace x = (.ok (), b) := by
  rw [update_eq_inPlace] at h
  generalize a.updateInPlace x = outcome at h
  obtain ⟨_ | _, left⟩ := outcome
  · cases h
  · cases h
    rfl

theorem updateInPlace_fst_eq_error {x : Option Scalar} : (a.updateInPlace x).1 = .error e ↔ a.update x = .error e := by
  rw [update_eq_inPlace]
  cases (a.updateInPlace x).1 with
  | ok => exact ⟨nofun, nofun⟩
  | error => exact ⟨fun h => congrArg _ (Except.error.inj h), fun h => congrArg _ (Except.error.inj h)⟩

/-- A sum of integers takes a value if the sum with it fits in 64 bits, and counts it in any case. -/
theorem addInPlace_of_sumsInts (h : a.sumsInts = true) (v : Scalar) :
    a.addInPlace v =
      let sum := a.intSum + (v.toInt64?.getD 0).toInt
      if -0x8000000000000000 ≤ sum ∧ sum ≤ 0x7fffffffffffffff
      then (.ok (), { a with count := a.count + 1, intSum := sum })
      else (.error (.execution .sumOverflow), { a with count := a.count + 1 }) := by
  obtain ⟨function, type, count, intSum, doubleSum, extreme⟩ := a
  cases function with
  | sum =>
    unfold addInPlace
    dsimp only
    exact if_pos h
  | countStar | count | avg | min | max => cases h

/-- Nothing else fails. -/
theorem addInPlace_of_not_sumsInts (h : a.sumsInts = false) (v : Scalar) : (a.addInPlace v).1 = .ok () := by
  obtain ⟨function, type, count, intSum, doubleSum, extreme⟩ := a
  cases function with
  | sum | avg =>
    unfold addInPlace
    dsimp only
    split
    · cases h.symm.trans ‹_›
    · rfl
  | countStar | count | min | max => rfl

/-- When an update fails, and what it leaves then. -/
theorem updateInPlace_of_error (h : (a.updateInPlace (some v)).1 = .error e) :
    a.sumsInts = true ∧ (a.updateInPlace (some v)).2 = { a with count := a.count + 1 } ∧
      ¬(-0x8000000000000000 ≤ a.intSum + (v.toInt64?.getD 0).toInt ∧
        a.intSum + (v.toInt64?.getD 0).toInt ≤ 0x7fffffffffffffff) := by
  unfold updateInPlace at h ⊢
  dsimp only at h ⊢
  split at h
  · cases h
  rename_i hv
  rw [if_neg hv]
  cases hints : a.sumsInts with
  | false =>
    rw [addInPlace_of_not_sumsInts hints] at h
    cases h
  | true =>
    rw [addInPlace_of_sumsInts hints] at h ⊢
    dsimp only at h ⊢
    split at h
    · cases h
    · rename_i hrange
      rw [if_neg hrange]
      exact ⟨rfl, rfl, hrange⟩

/-! ### Two accumulators that answer alike -/

/-- The two differ in nothing, or in the count of a sum of integers that took something. -/
def Alike (a b : Accumulator) : Prop := b = a ∨ a.sumsInts = true ∧ a.count ≠ 0 ∧ ∃ n, n ≠ 0 ∧ b = { a with count := n }

theorem Alike.value (h : a.Alike b) : b.value = a.value := by
  obtain rfl | ⟨hints, hsome, n, hn, rfl⟩ := h
  · rfl
  obtain ⟨function, type, count, intSum, doubleSum, extreme⟩ := a
  cases function with
  | sum =>
    simp only [Accumulator.value, if_neg hn, if_neg hsome]
    rfl
  | countStar | count | avg | min | max => cases hints

/-- A sum of integers that took something may count more. -/
theorem Alike.counted (h : a.Alike b) (hints : a.sumsInts = true) (hsome : a.count ≠ 0) :
    a.Alike { b with count := b.count + 1 } := by
  obtain rfl | ⟨-, -, n, hn, rfl⟩ := h <;> exact .inr ⟨hints, hsome, _, Nat.succ_ne_zero _, rfl⟩

/-- An update fails on both or on neither, and leaves them alike. -/
theorem Alike.updateInPlace (h : a.Alike b) (x : Option Scalar) :
    (b.updateInPlace x).1 = (a.updateInPlace x).1 ∧ (a.updateInPlace x).2.Alike (b.updateInPlace x).2 := by
  obtain rfl | ⟨hints, hsome, n, hn, rfl⟩ := h
  · exact ⟨rfl, .inl rfl⟩
  have hcounted : Alike { a with count := a.count + 1 } { a with count := n + 1 } :=
    .inr ⟨hints, Nat.succ_ne_zero _, n + 1, Nat.succ_ne_zero _, rfl⟩
  cases x with
  | none => exact ⟨rfl, hcounted⟩
  | some v =>
    unfold Accumulator.updateInPlace
    dsimp only
    split
    · exact ⟨rfl, .inr ⟨hints, hsome, n, hn, rfl⟩⟩
    rw [addInPlace_of_sumsInts hints, addInPlace_of_sumsInts (a := { a with count := n }) hints]
    dsimp only
    split
    · exact ⟨rfl, .inr ⟨hints, Nat.succ_ne_zero _, n + 1, Nat.succ_ne_zero _, rfl⟩⟩
    · exact ⟨rfl, hcounted⟩

theorem Alike.answers (h : a.Alike b) (later : List (Option Scalar)) : b.answers later = a.answers later := by
  induction later generalizing a b with
  | nil => rfl
  | cons x later ih =>
    obtain ⟨hsame, halike⟩ := h.updateInPlace x
    rw [Accumulator.answers, Accumulator.answers, hsame, halike.value, ih halike]

/-! ### A run of updates -/

/-- The accumulator answers like one that was given the values alone, of which it took each. -/
structure Speaks (f : AggregateFunction) (t : SqlType) (vs : List Scalar) (a : Accumulator) : Prop where
  values : ∀ v ∈ vs, v.isNull = false
  alone : ∃ b, vs.foldlM (fun b v => b.update (some v)) (start f t) = .ok b ∧ b.Alike a

theorem speaks_start (f : AggregateFunction) (t : SqlType) : Speaks f t [] (start f t) := ⟨nofun, _, rfl, .inl rfl⟩

/-- What is known of the accumulator that was given the values alone. -/
theorem took_of_foldlM (hvs : ∀ v ∈ vs, v.isNull = false)
    (h : vs.foldlM (fun b v => b.update (some v)) (start f t) = .ok b) : Took f t vs b ∧ ¬Overflows f t vs := by
  have hkept : vs.filter (fun v => !v.isNull) = vs := List.filter_eq_self.mpr fun v hv => by simp [hvs v hv]
  rcases foldlM_update f t vs with ⟨c, hc, htook⟩ | ⟨herror, -⟩
  · cases h.symm.trans hc
    rwa [hkept] at htook
  · cases h.symm.trans herror

theorem Took.sumsInts_iff (h : Took f t vs b) : b.sumsInts = true ↔ f = .sum ∧ t = .bigInt := by
  rw [sumsInts, h.function, h.type, Bool.and_eq_true, decide_eq_true_iff, decide_eq_true_iff]

theorem Took.intSum_eq (h : Took f t vs b) (hints : b.sumsInts = true) : b.intSum = Scalar.total vs := by
  obtain ⟨rfl, rfl⟩ := h.sumsInts_iff.mp hints
  exact h.remembers

theorem total_fits (hvs : ¬Overflows .sum .bigInt vs) :
    -0x8000000000000000 ≤ Scalar.total vs ∧ Scalar.total vs ≤ 0x7fffffffffffffff :=
  not_not.mp fun hout => hvs ⟨rfl, rfl, vs, List.prefix_refl vs, hout⟩

/-- An update fails when the exact sum leaves 64 bits, and not otherwise. -/
theorem Took.error_iff (h : Took f t vs b) (hrange : ¬Overflows f t vs) :
    (b.updateInPlace (some v)).1 = .error e ↔ e = .execution .sumOverflow ∧ f = .sum ∧ t = .bigInt ∧
      ∃ n, v.toInt64? = some n ∧
        ¬(-0x8000000000000000 ≤ Scalar.total vs + n.toInt ∧ Scalar.total vs + n.toInt ≤ 0x7fffffffffffffff) := by
  constructor
  · intro herror
    obtain ⟨hints, -, hout⟩ := updateInPlace_of_error herror
    obtain ⟨rfl, rfl⟩ := h.sumsInts_iff.mp hints
    refine ⟨update_error (updateInPlace_fst_eq_error.mp herror), rfl, rfl, ?_⟩
    rw [h.intSum_eq hints] at hout
    cases hv : v.toInt64? with
    | some n => exact ⟨n, rfl, by rwa [hv] at hout⟩
    | none =>
      -- what is not a number would add nothing
      rw [hv] at hout
      rw [show ((none : Option Int64).getD 0).toInt = 0 from rfl, Int.add_zero] at hout
      exact absurd (total_fits hrange) hout
  · rintro ⟨rfl, rfl, rfl, n, hn, hout⟩
    have hints := h.sumsInts_iff.mpr ⟨rfl, rfl⟩
    have hnull : ¬v.isNull = true := fun hnull => by
      cases v <;> cases hnull
      cases hn
    rw [updateInPlace, if_neg hnull, addInPlace_of_sumsInts hints, h.intSum_eq hints, hn]
    dsimp only [Option.getD_some]
    rw [if_neg hout]

/-- A sum that fails took something before: any number fits alone. -/
theorem Took.count_ne_zero (h : Took f t vs b) (hrange : ¬Overflows f t vs)
    (herror : (b.updateInPlace (some v)).1 = .error e) : b.count ≠ 0 := by
  obtain ⟨-, -, -, n, -, hout⟩ := (h.error_iff hrange).mp herror
  intro hzero
  have hnone : vs = [] := List.length_eq_zero_iff.mp (h.count.symm.trans hzero)
  have htotal : Scalar.total vs = 0 := by rw [hnone]; rfl
  rw [htotal, Int.zero_add] at hout
  exact hout ⟨n.le_toInt, n.toInt_le⟩

/-- A failed update leaves the accumulator as it was, as far as it answers. -/
theorem Alike.refused (halike : b.Alike a) (htook : Took f t vs b) (hrange : ¬Overflows f t vs)
    (herror : (a.updateInPlace (some v)).1 = .error e) : b.Alike (a.updateInPlace (some v)).2 := by
  obtain ⟨-, hcounted, -⟩ := updateInPlace_of_error herror
  rw [(halike.updateInPlace (some v)).1] at herror
  obtain ⟨hints, -, -⟩ := updateInPlace_of_error herror
  rw [hcounted]
  exact halike.counted hints (htook.count_ne_zero hrange herror)

/-- One update more: the value is added to those taken, or the accumulator speaks for the same. -/
theorem Speaks.updateInPlace (h : Speaks f t vs a) (v : Scalar) :
    Speaks f t (vs ++ a.taken [v]) (a.updateInPlace (some v)).2 := by
  obtain ⟨hvs, b, hb, halike⟩ := h
  obtain ⟨htook, hrange⟩ := took_of_foldlM hvs hb
  obtain ⟨hsame, hleft⟩ := halike.updateInPlace (some v)
  cases hupdate : b.update (some v) with
  | ok c =>
    rw [updateInPlace_of_ok hupdate] at hsame hleft
    rw [taken, taken, hsame]
    cases hv : v.isNull with
    | true =>
      rw [update, if_pos hv] at hupdate
      cases hupdate
      simp only [if_true, List.append_nil]
      exact ⟨hvs, b, hb, hleft⟩
    | false =>
      have hall : ∀ u ∈ vs ++ [v], u.isNull = false := List.forall_mem_append.mpr ⟨hvs, by simpa using hv⟩
      refine ⟨hall, c, ?_, hleft⟩
      simp only [Bool.false_eq_true, if_false, List.foldlM_append, hb, ok_bind, List.foldlM_cons, hupdate, List.foldlM_nil]
      rfl
  | error e =>
    rw [updateInPlace_fst_eq_error.mpr hupdate] at hsame
    have htaken : a.taken [v] = [] := by rw [taken, taken, hsame]
    rw [htaken, List.append_nil]
    exact ⟨hvs, b, hb, halike.refused htook hrange hsame⟩

theorem taken_cons (a : Accumulator) (v : Scalar) (vs : List Scalar) :
    a.taken (v :: vs) = a.taken [v] ++ (a.updateInPlace (some v)).2.taken vs := by
  rw [taken, taken, taken]
  split
  · split <;> rfl
  · rfl

theorem Speaks.takeEach (h : Speaks f t vs a) (more : List Scalar) : Speaks f t (vs ++ a.taken more) (a.takeEach more) := by
  induction more generalizing vs a with
  | nil =>
    rw [taken, List.append_nil]
    exact h
  | cons v more ih =>
    rw [taken_cons, ← List.append_assoc]
    exact ih (h.updateInPlace v)

/-! ### What the caller sees -/

/-- What an accumulator of an aggregate over an argument type says when it took the values,
and which update fails next. -/
structure Exact (f : AggregateFunction) (t argument : SqlType) (vs : List Scalar) (a : Accumulator) : Prop where
  value : f.Says t vs.length vs a.value
  alone : ∃ b, vs.foldlM (fun b v => b.update (some v)) (start f t) = .ok b ∧ b.value = a.value
  fails : ∀ v e, a.update (some v) = .error e ↔ e = .execution .sumOverflow ∧ f = .sum ∧ argument.isIntegral = true ∧
    ∃ n, v.toInt64? = some n ∧
      ¬(-0x8000000000000000 ≤ Scalar.total vs + n.toInt ∧ Scalar.total vs + n.toInt ≤ 0x7fffffffffffffff)
  harmless : ∀ v e, a.update (some v) = .error e → (a.updateInPlace (some v)).2.value = a.value ∧
    ∀ later, (a.updateInPlace (some v)).2.answers later = a.answers later

/-- With an argument, the integer sums are those over integers. -/
theorem sums_iff {argument : SqlType} (h : f.returnType (some argument) = .ok t) :
    f = .sum ∧ t = .bigInt ↔ f = .sum ∧ argument.isIntegral = true := by
  refine and_congr_right fun hf => ?_
  subst hf
  simp only [AggregateFunction.returnType] at h
  cases hints : argument.isIntegral with
  | true =>
    rw [hints, if_pos rfl] at h
    cases h
    simp
  | false =>
    rw [hints, if_neg Bool.false_ne_true] at h
    split at h
    · cases h
      simp
    · cases h

theorem Speaks.exact {argument : SqlType} (h : Speaks f t vs a) (ht : f.returnType (some argument) = .ok t) :
    Exact f t argument vs a := by
  obtain ⟨hvs, b, hb, halike⟩ := h
  obtain ⟨htook, hrange⟩ := took_of_foldlM hvs hb
  have hf : f ≠ .countStar := by
    rintro rfl
    cases ht
  refine ⟨?_, ⟨b, hb, halike.value.symm⟩, fun v e => ?_, fun v e herror => ?_⟩
  · rw [halike.value]
    exact htook.value_says hf hrange vs.length
  · rw [← updateInPlace_fst_eq_error, (halike.updateInPlace (some v)).1, htook.error_iff hrange]
    simp only [← and_assoc (a := f = .sum), sums_iff ht]
  · have hleft := halike.refused htook hrange (updateInPlace_fst_eq_error.mpr herror)
    exact ⟨hleft.value.trans halike.value.symm, fun later => (hleft.answers later).trans (halike.answers later).symm⟩

/-- After any arguments, NULL and those that failed among them, an aggregate over an
argument type has the value over those that it took; only an integer sum fails, and only
when the exact sum would leave 64 bits; and a failed update can be forgotten. -/
theorem takeEach_exact {argument : SqlType} (h : f.returnType (some argument) = .ok t) (vs : List Scalar) :
    Exact f t argument ((start f t).taken vs) ((start f t).takeEach vs) ∧
      ∀ a x, update a x = (a.updateInPlace x).1.map fun _ => (a.updateInPlace x).2 :=
  ⟨((speaks_start f t).takeEach vs).exact h, update_eq_inPlace⟩

/-- A sum that refuses one of its values, passes NULL over and goes on. -/
theorem takeEach_exact_refused :
    let big : Scalar := .bigInt 0x7fffffffffffffff
    let a := (start .sum .bigInt).takeEach [.bigInt 5, big, .null, .bigInt (-7)]
    AggregateFunction.returnType .sum (some .bigInt) = .ok .bigInt ∧
      (start .sum .bigInt).taken [.bigInt 5, big, .null, .bigInt (-7)] = [.bigInt 5, .bigInt (-7)] ∧ a.count = 3 ∧
      Exact .sum .bigInt .bigInt [.bigInt 5, .bigInt (-7)] a ∧ a.value = .bigInt (-2) := by
  intro big a
  have htaken : (start .sum .bigInt).taken [.bigInt 5, big, .null, .bigInt (-7)] = [.bigInt 5, .bigInt (-7)] := by decide +kernel
  have hreturns : AggregateFunction.returnType .sum (some .bigInt) = .ok .bigInt := rfl
  obtain ⟨hexact, -⟩ := takeEach_exact hreturns [.bigInt 5, big, .null, .bigInt (-7)]
  rw [htaken] at hexact
  exact ⟨hreturns, htaken, by decide +kernel, hexact, by decide +kernel⟩

end Accumulator
end QueryEngine
