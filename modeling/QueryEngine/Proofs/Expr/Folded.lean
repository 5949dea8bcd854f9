import Mathlib.Data.List.Induction
import QueryEngine.Proofs.Expr.Accumulated
import QueryEngine.Proofs.Expr.Rowwise
import QueryEngine.Proofs.Value.Order

/-! Aggregates as functions of the values they took.

An aggregate over some rows says how many they are, or something of those arguments that
are not NULL: their number, their total, or the least or greatest of them
(`AggregateFunction.Says`). Taking one value after another comes to that
(`Accumulator.Took`), unless it is an integer sum and one of its running totals does not
fit in 64 bits (`AggregateFunction.Overflows`). -/
namespace QueryEngine

/-- The exact total of integers. -/
def Scalar.total (vs : List Scalar) : Int := vs.foldl (fun sum v => sum + (v.toInt64?.getD 0).toInt) 0

/-- The exact total does not depend on the order. -/
theorem Scalar.total_perm {vs ws : List Scalar} (h : vs.Perm ws) : total vs = total ws :=
  h.foldl_eq' (fun _ _ _ _ _ => by omega) 0

/-- The total of numbers as doubles, added from the left. -/
def Scalar.doubleTotal (vs : List Scalar) : Double :=
  vs.foldl (fun sum v => sum.add (v.toDouble?.getD Double.zero)) Double.zero

namespace AggregateFunction

/-- A running total of an integer sum that does not fit in 64 bits. -/
def Overflows (f : AggregateFunction) (t : SqlType) (vs : List Scalar) : Prop :=
  f = .sum ∧ t = .bigInt ∧
    ∃ front, front <+: vs ∧ ¬(-0x8000000000000000 ≤ Scalar.total front ∧ Scalar.total front ≤ 0x7fffffffffffffff)

/-- The value of an aggregate of type `t` over so many rows, `vs` being the arguments that
are not NULL. -/
def Says (f : AggregateFunction) (t : SqlType) (rows : Nat) (vs : List Scalar) (v : Scalar) : Prop :=
  match f with
  | .countStar => v = .bigInt (Int64.ofNat rows)
  | .count => v = .bigInt (Int64.ofNat vs.length)
  | .sum =>
    if vs = [] then v = .null
    else if t = .bigInt then ∃ n, v = .bigInt n ∧ n.toInt = Scalar.total vs
    else v = .double (Scalar.doubleTotal vs)
  | .avg =>
    if vs = [] then v = .null
    else v = .double ((Scalar.doubleTotal vs).div (Double.ofInt64 (Int64.ofNat vs.length)))
  | .min => if vs = [] then v = .null else v ∈ vs ∧ ∀ u ∈ vs, u.compare v ≠ .lt
  | .max => if vs = [] then v = .null else v ∈ vs ∧ ∀ u ∈ vs, u.compare v ≠ .gt

variable {f : AggregateFunction} {t : SqlType} {vs : List Scalar} {v : Scalar}

theorem overflows_concat : f.Overflows t (vs ++ [v]) ↔
    f.Overflows t vs ∨ f = .sum ∧ t = .bigInt ∧
      ¬(-0x8000000000000000 ≤ Scalar.total (vs ++ [v]) ∧ Scalar.total (vs ++ [v]) ≤ 0x7fffffffffffffff) := by
  simp only [Overflows, List.prefix_concat_iff]
  constructor
  · rintro ⟨hf, ht, front, rfl | hfront, hrange⟩
    · exact .inr ⟨hf, ht, hrange⟩
    · exact .inl ⟨hf, ht, front, hfront, hrange⟩
  · rintro (⟨hf, ht, front, hfront, hrange⟩ | ⟨hf, ht, hrange⟩)
    · exact ⟨hf, ht, front, .inr hfront, hrange⟩
    · exact ⟨hf, ht, _, .inl rfl, hrange⟩

end AggregateFunction

namespace Accumulator
open AggregateFunction (Overflows Says)
variable {f : AggregateFunction} {t : SqlType} {vs : List Scalar} {v : Scalar} {a : Accumulator}

/-- What an aggregate needs to know of the values, apart from their number. -/
def Remembers (f : AggregateFunction) (t : SqlType) (vs : List Scalar) (a : Accumulator) : Prop :=
  match f with
  | .countStar | .count => True
  | .sum => if t = .bigInt then a.intSum = Scalar.total vs else a.doubleSum = Scalar.doubleTotal vs
  | .avg => a.doubleSum = Scalar.doubleTotal vs
  | .min => if vs = [] then a.extreme = .null else a.extreme ∈ vs ∧ ∀ u ∈ vs, u.compare a.extreme ≠ .lt
  | .max => if vs = [] then a.extreme = .null else a.extreme ∈ vs ∧ ∀ u ∈ vs, u.compare a.extreme ≠ .gt

/-- The state of an aggregate that took the values. -/
structure Took (f : AggregateFunction) (t : SqlType) (vs : List Scalar) (a : Accumulator) : Prop where
  function : a.function = f
  type : a.type = t
  count : a.count = vs.length
  remembers : Remembers f t vs a

theorem took_start (f : AggregateFunction) (t : SqlType) : Took f t [] (start f t) := by
  refine ⟨rfl, rfl, rfl, ?_⟩
  cases f with
  | sum =>
    show if t = .bigInt then _ else _
    split <;> rfl
  | countStar | count => trivial
  | avg | min | max => rfl

theorem total_concat : Scalar.total (vs ++ [v]) = Scalar.total vs + (v.toInt64?.getD 0).toInt := by
  simp [Scalar.total]

theorem doubleTotal_concat :
    Scalar.doubleTotal (vs ++ [v]) = (Scalar.doubleTotal vs).add (v.toDouble?.getD Double.zero) := by
  simp [Scalar.doubleTotal]

theorem add_min (count : Nat) (sum : Int) (double : Double) (extreme v : Scalar) :
    Accumulator.add ⟨.min, t, count, sum, double, extreme⟩ v =
      .ok ⟨.min, t, count + 1, sum, double, if extreme.isNull || (v.compare extreme).isLT then v else extreme⟩ := by
  show Except.ok (if (extreme.isNull || (v.compare extreme).isLT) = true then _ else _) = _
  split <;> rfl

theorem add_max (count : Nat) (sum : Int) (double : Double) (extreme v : Scalar) :
    Accumulator.add ⟨.max, t, count, sum, double, extreme⟩ v =
      .ok ⟨.max, t, count + 1, sum, double, if extreme.isNull || (v.compare extreme).isGT then v else extreme⟩ := by
  show Except.ok (if (extreme.isNull || (v.compare extreme).isGT) = true then _ else _) = _
  split <;> rfl

/-- Of the least so far and one more value, the lesser one. -/
theorem least_concat {cmp : Scalar → Scalar → Ordering} [Std.TransCmp cmp] {e : Scalar}
    (h : e ∈ vs ∧ ∀ u ∈ vs, cmp u e ≠ .lt) {b : Bool} (hb : b = true ↔ cmp v e = .lt) :
    (if b then v else e) ∈ vs ++ [v] ∧ ∀ u ∈ vs ++ [v], cmp u (if b then v else e) ≠ .lt := by
  have hself (u : Scalar) : cmp u u ≠ .lt := fun hless => by
    have hsame : cmp u u = .eq := Std.ReflCmp.compare_self
    cases hsame.symm.trans hless
  by_cases hlt : b = true
  · rw [if_pos hlt]
    refine ⟨List.mem_append_right _ (List.mem_singleton_self v), fun u hu hless => ?_⟩
    rcases List.mem_append.mp hu with hu | hu
    · exact h.2 u hu (Std.TransCmp.lt_trans hless (hb.mp hlt))
    · rw [List.mem_singleton.mp hu] at hless
      exact hself v hless
  · rw [if_neg hlt]
    refine ⟨List.mem_append_left _ h.1, fun u hu hless => ?_⟩
    rcases List.mem_append.mp hu with hu | hu
    · exact h.2 u hu hless
    · rw [List.mem_singleton.mp hu] at hless
      exact hlt (hb.mpr hless)

/-- The least so far after one more value, there being none before the first. -/
theorem extreme_concat (cmp : Scalar → Scalar → Ordering) [Std.TransCmp cmp] {e : Scalar}
    (hvs : ∀ u ∈ vs, u.isNull = false) (h : if vs = [] then e = .null else e ∈ vs ∧ ∀ u ∈ vs, cmp u e ≠ .lt)
    {b : Bool} (hb : b = true ↔ cmp v e = .lt) :
    (if e.isNull || b then v else e) ∈ vs ++ [v] ∧ ∀ u ∈ vs ++ [v], cmp u (if e.isNull || b then v else e) ≠ .lt := by
  by_cases hnone : vs = []
  · rw [if_pos hnone] at h
    have hself : cmp v v = .eq := Std.ReflCmp.compare_self
    simp [h, hnone, Scalar.isNull, hself]
  · rw [if_neg hnone] at h
    rw [hvs e h.1, Bool.false_or]
    exact least_concat h hb

/-- One more value is taken, or the integer sum has left its range. -/
theorem Took.add (h : Took f t vs a) (hvs : ∀ u ∈ vs, u.isNull = false) :
    (∃ b, a.add v = .ok b ∧ Took f t (vs ++ [v]) b ∧ (Overflows f t (vs ++ [v]) → Overflows f t vs)) ∨
      a.add v = .error (.execution .sumOverflow) ∧ Overflows f t (vs ++ [v]) := by
  obtain ⟨function, type, count, intSum, doubleSum, extreme⟩ := a
  obtain ⟨rfl, rfl, rfl, hremembers⟩ := h
  have hcount : vs.length + 1 = (vs ++ [v]).length := by rw [List.length_append, List.length_singleton]
  have hsome : vs ++ [v] ≠ [] := by simp
  have hother (hf : function ≠ .sum ∨ type ≠ .bigInt) : Overflows function type (vs ++ [v]) → Overflows function type vs :=
    fun ⟨hsum, ht, _⟩ => absurd ht (hf.resolve_left fun hne => hne hsum)
  cases function with
  | countStar | count => exact .inl ⟨_, rfl, ⟨rfl, rfl, hcount, trivial⟩, hother (.inl nofun)⟩
  | sum =>
    unfold Remembers at hremembers
    by_cases ht : type = .bigInt
    · subst ht
      rw [if_pos rfl] at hremembers
      have hadd : Accumulator.add ⟨.sum, .bigInt, vs.length, intSum, doubleSum, extreme⟩ v =
          if -0x8000000000000000 ≤ Scalar.total (vs ++ [v]) ∧ Scalar.total (vs ++ [v]) ≤ 0x7fffffffffffffff
          then .ok ⟨.sum, .bigInt, vs.length + 1, Scalar.total (vs ++ [v]), doubleSum, extreme⟩
          else .error (.execution .sumOverflow) := by
        rw [total_concat, ← hremembers]
        rfl
      rw [hadd]
      split
      · rename_i hrange
        refine .inl ⟨_, rfl, ⟨rfl, rfl, hcount, rfl⟩, fun hover => ?_⟩
        exact (AggregateFunction.overflows_concat.mp hover).resolve_right fun h => h.2.2 hrange
      · rename_i hrange
        exact .inr ⟨rfl, AggregateFunction.overflows_concat.mpr (.inr ⟨rfl, rfl, hrange⟩)⟩
    · rw [if_neg ht] at hremembers
      have hadd : Accumulator.add ⟨.sum, type, vs.length, intSum, doubleSum, extreme⟩ v =
          .ok ⟨.sum, type, vs.length + 1, intSum, Scalar.doubleTotal (vs ++ [v]), extreme⟩ := by
        rw [doubleTotal_concat, ← hremembers]
        unfold Accumulator.add sumsInts
        simp [ht]
      rw [hadd]
      refine .inl ⟨_, rfl, ⟨rfl, rfl, hcount, ?_⟩, hother (.inr ht)⟩
      unfold Remembers
      rw [if_neg ht]
  | avg =>
    have hadd : Accumulator.add ⟨.avg, type, vs.length, intSum, doubleSum, extreme⟩ v =
        .ok ⟨.avg, type, vs.length + 1, intSum, Scalar.doubleTotal (vs ++ [v]), extreme⟩ := by
      rw [doubleTotal_concat, ← show doubleSum = Scalar.doubleTotal vs from hremembers]
      rfl
    rw [hadd]
    exact .inl ⟨_, rfl, ⟨rfl, rfl, hcount, rfl⟩, hother (.inl nofun)⟩
  | min =>
    rw [add_min]
    refine .inl ⟨_, rfl, ⟨rfl, rfl, hcount, ?_⟩, hother (.inl nofun)⟩
    unfold Remembers
    rw [if_neg hsome]
    exact extreme_concat Scalar.compare hvs hremembers Ordering.isLT_iff_eq_lt
  | max =>
    have hmirror (u w : Scalar) : u.compare w = .gt ↔ w.compare u = .lt := Std.OrientedCmp.gt_iff_lt
    have : Std.TransCmp fun a b : Scalar => b.compare a := Std.TransCmp.opposite
    rw [add_max]
    refine .inl ⟨_, rfl, ⟨rfl, rfl, hcount, ?_⟩, hother (.inl nofun)⟩
    simp only [Remembers, ne_eq, hmirror] at hremembers ⊢
    rw [if_neg hsome]
    exact extreme_concat (fun a b => b.compare a) hvs hremembers (Ordering.isGT_iff_eq_gt.trans (hmirror v extreme))

/-- The value of an aggregate that took the values, none of its sums being out of range. -/
theorem Took.value_says (h : Took f t vs a) (hf : f ≠ .countStar) (hrange : ¬Overflows f t vs) (rows : Nat) :
    f.Says t rows vs a.value := by
  obtain ⟨function, type, count, intSum, doubleSum, extreme⟩ := a
  obtain ⟨rfl, rfl, rfl, hremembers⟩ := h
  by_cases hnone : vs = []
  · subst hnone
    cases function with
    | countStar => exact absurd rfl hf
    | count => rfl
    | sum | avg | min | max => simp [AggregateFunction.Says, Accumulator.value]
  have hsome : vs.length ≠ 0 := fun h => hnone (List.length_eq_zero_iff.mp h)
  unfold Remembers at hremembers
  cases function with
  | countStar => exact absurd rfl hf
  | count => rfl
  | sum =>
    simp only [AggregateFunction.Says, Accumulator.value, sumsInts, if_neg hnone, if_neg hsome]
    by_cases ht : type = .bigInt
    · simp only [ht, if_true] at hremembers ⊢
      have hfits := not_not.mp fun hout => hrange ⟨rfl, ht, vs, List.prefix_refl vs, hout⟩
      rw [← hremembers] at hfits
      exact ⟨_, rfl, (Int64.toInt_ofInt_of_le (by omega) (by omega)).trans hremembers⟩
    · simp only [ht, if_false] at hremembers ⊢
      simp [hremembers]
  | avg =>
    have hremembers : doubleSum = Scalar.doubleTotal vs := hremembers
    simp only [AggregateFunction.Says, Accumulator.value, if_neg hnone, if_neg hsome, hremembers]
  | min | max =>
    simp only [if_neg hnone] at hremembers
    simp only [AggregateFunction.Says, Accumulator.value, if_neg hnone, if_neg hsome]
    exact hremembers

/-- Nothing but a sum that leaves its range fails. -/
theorem update_error {x : Option Scalar} {e : QueryError} (h : a.update x = .error e) : e = .execution .sumOverflow := by
  cases x with
  | none => cases h
  | some v =>
    unfold update at h
    split at h
    · cases h
    · unfold Accumulator.add at h
      dsimp only at h
      repeat' split at h
      all_goals first | cases h; rfl | cases h

/-! ### One row after another -/

/-- Arguments taken one after another, NULL being passed over. -/
theorem foldlM_update (f : AggregateFunction) (t : SqlType) (arguments : List Scalar) :
    (∃ a, arguments.foldlM (fun a v => a.update (some v)) (start f t) = .ok a ∧
      Took f t (arguments.filter fun v => !v.isNull) a ∧ ¬Overflows f t (arguments.filter fun v => !v.isNull)) ∨
      arguments.foldlM (fun a v => a.update (some v)) (start f t) = .error (.execution .sumOverflow) ∧
        Overflows f t (arguments.filter fun v => !v.isNull) := by
  induction arguments using List.reverseRecOn with
  | nil =>
    refine .inl ⟨_, rfl, took_start f t, fun ⟨_, _, front, hfront, hrange⟩ => hrange ?_⟩
    rw [List.prefix_nil.mp hfront]
    decide
  | append_singleton arguments v ih =>
    simp only [List.foldlM_append, List.foldlM_cons, List.foldlM_nil, bind_pure, List.filter_append]
    rcases ih with ⟨a, ha, htook, hrange⟩ | ⟨herror, hover⟩
    · rw [ha, ok_bind, update]
      cases hv : v.isNull with
      | true =>
        have hkept : [v].filter (fun v => !v.isNull) = [] := by simp [hv]
        rw [hkept, List.append_nil, if_pos rfl]
        exact .inl ⟨a, rfl, htook, hrange⟩
      | false =>
        have hkept : [v].filter (fun v => !v.isNull) = [v] := by simp [hv]
        rw [hkept, if_neg Bool.false_ne_true]
        have hsome (u : Scalar) (hu : u ∈ arguments.filter fun v => !v.isNull) : u.isNull = false := by
          simpa using (List.mem_filter.mp hu).2
        rcases htook.add (v := v) hsome with ⟨b, hb, htaken, hkeeps⟩ | hfails
        · exact .inl ⟨b, hb, htaken, fun hover => hrange (hkeeps hover)⟩
        · exact .inr hfails
    · rw [herror, error_bind]
      obtain ⟨hf, ht, front, hfront, hout⟩ := hover
      exact .inr ⟨rfl, hf, ht, front, hfront.trans (List.prefix_append _ _), hout⟩

/-- A call without argument counts. -/
theorem foldlM_update_none (a : Accumulator) {α : Type} (rows : List α) :
    rows.foldlM (fun a _ => a.update none) a = .ok { a with count := a.count + rows.length } := by
  induction rows generalizing a with
  | nil => rfl
  | cons r rows ih =>
    rw [List.foldlM_cons, update, ok_bind, ih, List.length_cons]
    simp only [Nat.add_assoc, Nat.add_comm 1]

end Accumulator

namespace AggregateCall
variable {c : AggregateCall} {rows : List Row}

/-- What the call takes on a row. -/
def argumentOn (c : AggregateCall) (row : Row) : Option Scalar := c.argument.map fun e => (e.valueOn row).value

/-- The arguments that are not NULL. -/
def valuesOn (c : AggregateCall) (rows : List Row) : List Scalar :=
  (rows.filterMap c.argumentOn).filter fun v => !v.isNull

/-- A running total of the call over the rows that does not fit in 64 bits. -/
def Overflows (c : AggregateCall) (rows : List Row) : Prop := c.function.Overflows c.type (c.valuesOn rows)

/-- The value of the call over the rows. -/
def Says (c : AggregateCall) (rows : List Row) (v : Scalar) : Prop :=
  c.function.Says c.type rows.length (c.valuesOn rows) v

/-- The state of the call after the rows. -/
def folded (c : AggregateCall) (rows : List Row) : Except QueryError Accumulator :=
  rows.foldlM (fun a row => a.update (c.argumentOn row)) (Accumulator.start c.function c.type)

/-- Taking the rows one after another gives the value over all of them, unless a running
total does not fit. Only `COUNT(*)` takes no argument. -/
theorem folded_says (hargument : c.argument = none ↔ c.function = .countStar) (rows : List Row) :
    (∃ a, c.folded rows = .ok a ∧ c.Says rows a.value ∧ ¬c.Overflows rows) ∨
      c.folded rows = .error (.execution .sumOverflow) ∧ c.Overflows rows := by
  cases harg : c.argument with
  | none =>
    have hf := hargument.mp harg
    have hfolded : c.folded rows = .ok { Accumulator.start c.function c.type with count := 0 + rows.length } := by
      simp only [folded, argumentOn, harg, Option.map_none]
      exact Accumulator.foldlM_update_none _ _
    refine .inl ⟨_, hfolded, ?_, fun ⟨hsum, _⟩ => (by rw [hf] at hsum; cases hsum)⟩
    rw [Says, hf, Nat.zero_add]
    rfl
  | some e =>
    have hf : c.function ≠ .countStar := fun h => by
      rw [hargument.mpr h] at harg
      cases harg
    have hvalues : rows.filterMap c.argumentOn = rows.map fun row => (e.valueOn row).value := by
      rw [← List.filterMap_eq_map]
      refine List.filterMap_congr fun row _ => ?_
      rw [argumentOn, harg]
      rfl
    have hfolded : c.folded rows = (rows.map fun row => (e.valueOn row).value).foldlM (fun a v => a.update (some v))
        (Accumulator.start c.function c.type) := by
      rw [List.foldlM_map]
      simp only [folded, argumentOn, harg, Option.map_some]
    rw [hfolded]
    unfold Says Overflows valuesOn
    rw [hvalues]
    rcases Accumulator.foldlM_update c.function c.type (rows.map fun row => (e.valueOn row).value) with
      ⟨a, ha, htook, hrange⟩ | hfails
    · exact .inl ⟨a, ha, htook.value_says hf hrange _, hrange⟩
    · exact .inr hfails

end AggregateCall
end QueryEngine
