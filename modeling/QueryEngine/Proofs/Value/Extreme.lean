import Mathlib.Data.List.Basic
import QueryEngine.Proofs.Value.Order

/-! The ends of values in their two orders.

As keys all NaNs are one value, greater than all numbers; in the total order a NaN stands at
the end that its sign says. Values of one type have the same least and the same greatest value
in both orders, but for NaNs with a sign bit among numbers (`Extreme.Astray`): such a NaN is
the least value of the total order alone, and where no other NaN is there, the greatest value
of the total order is a number (`Extreme.Of.same_iff`). -/
namespace QueryEngine

namespace Double
variable {a b : Double}

/-- Where a double stands as a key. -/
theorem rank_canonical (d : Double) :
    d.canonical.rank = if d.isNaN then 0x7ff8000000000000 else if d.magnitude = 0 then 0 else d.rank := by
  unfold canonical
  split
  · rfl
  · split <;> rfl

/-- A NaN stands beyond the numbers, on the side of its sign. -/
theorem isNaN_iff (d : Double) : d.isNaN = true ↔ d.rank < -infinite - 1 ∨ infinite < d.rank := by
  unfold isNaN rank infinite
  rw [decide_eq_true_eq]
  split <;> omega

theorem isNegative_iff (d : Double) : d.isNegative = true ↔ d.rank < 0 := by
  unfold rank
  split
  · rename_i h
    exact iff_of_true h (by omega)
  · rename_i h
    exact iff_of_false h (by omega)

theorem magnitude_eq_zero_iff (d : Double) : d.magnitude = 0 ↔ d.rank = 0 ∨ d.rank = -1 := by
  unfold rank
  split <;> omega

/-- As keys doubles stand as in the total order, but for NaNs with a sign bit before numbers. -/
theorem rank_canonical_lt_iff (h : a.rank ≤ b.rank) :
    b.canonical.rank < a.canonical.rank ↔ (a.isNaN = true ∧ a.isNegative = true) ∧ ¬b.isNaN = true := by
  simp only [rank_canonical, isNaN_iff, isNegative_iff, magnitude_eq_zero_iff, infinite]
  repeat' split
  all_goals omega

end Double

namespace Scalar
variable {a b : Scalar}

def isNaN : Scalar → Bool
  | double d => d.isNaN
  | _ => false

/-- A NaN with a sign bit. -/
def isNegativeNaN : Scalar → Bool
  | double d => d.isNaN && d.isNegative
  | _ => false

theorem isNaN_of_isNegativeNaN (h : a.isNegativeNaN = true) : a.isNaN = true := by
  cases a with
  | double x => exact (Bool.and_eq_true _ _ ▸ h).1
  | _ => cases h

/-- Only doubles are NaN. -/
theorem type_of_isNaN (h : a.isNaN = true) : a.type = .double := by
  cases a with
  | double x => rfl
  | _ => cases h

/-- The total order of doubles is that of their ranks. -/
theorem compareTotal_double {x y : Double} : (double x).compareTotal (double y) = .gt ↔ y.rank < x.rank := by
  have hplace : (double x).compareTotal (double y) = Ord.compare x.rank y.rank := by
    simp [compareTotal, position, Position.compare]
  rw [hplace, Int.compare_eq_gt]

theorem rank_le_of_compareTotal {x y : Double} (h : (double x).compareTotal (double y) ≠ .gt) : x.rank ≤ y.rank :=
  Int.not_lt.mp (compareTotal_double.not.mp h)

section
variable (ht : a.type = b.type) (h : a.compareTotal b ≠ .gt)
include ht h

/-- As keys values stand as in the total order, but for NaNs with a sign bit before numbers. -/
theorem compare_eq_gt_iff : a.compare b = .gt ↔ a.isNegativeNaN = true ∧ ¬b.isNaN = true := by
  rw [compare_eq_compareTotal]
  by_cases hd : a.type = .double
  · cases a with
    | double x =>
      cases b with
      | double y =>
        rw [isNegativeNaN, Bool.and_eq_true]
        exact compareTotal_double.trans (Double.rank_canonical_lt_iff (rank_le_of_compareTotal h))
      | _ => cases ht
    | _ => cases hd
  · rw [canonical_of_fits a.fits_type hd, canonical_of_fits (.inr ht.symm) hd]
    exact iff_of_false h fun ⟨hnan, _⟩ => hd (type_of_isNaN (isNaN_of_isNegativeNaN hnan))

/-- Before a NaN with a sign bit there are only others. -/
theorem isNegativeNaN_of_compareTotal (hb : b.isNegativeNaN = true) : a.isNegativeNaN = true := by
  cases b with
  | double y =>
    cases a with
    | double x =>
      have hle := rank_le_of_compareTotal h
      simp only [isNegativeNaN, Bool.and_eq_true, Double.isNaN_iff, Double.isNegative_iff] at hb ⊢
      omega
    | _ => cases ht
  | _ => cases hb

/-- Behind a NaN without a sign bit there are only others. -/
theorem isNaN_of_compareTotal (ha : a.isNaN = true) (hsign : ¬a.isNegativeNaN = true) : b.isNaN = true := by
  cases a with
  | double x =>
    cases b with
    | double y =>
      have hle := rank_le_of_compareTotal h
      simp only [isNegativeNaN, isNaN, Bool.and_eq_true, Double.isNaN_iff, Double.isNegative_iff] at ha hsign ⊢
      omega
    | _ => cases ht
  | _ => cases ha

end

end Scalar

/-- An end of some values. -/
inductive Extreme where
  | least
  | greatest
  deriving DecidableEq

namespace Extreme
variable {x : Extreme} {vs : List Scalar} {v w : Scalar} {cmp : Scalar → Scalar → Ordering}

/-- How a value compares that lies beyond. -/
def beyond : Extreme → Ordering
  | least => .lt
  | greatest => .gt

/-- The value that no other one lies beyond. -/
def Of (x : Extreme) (cmp : Scalar → Scalar → Ordering) (vs : List Scalar) (v : Scalar) : Prop :=
  v ∈ vs ∧ ∀ u ∈ vs, cmp u v ≠ x.beyond

/-- The value at this end of values in ascending order. -/
def pick? : Extreme → List Scalar → Option Scalar
  | least, vs => vs.head?
  | greatest, vs => vs.getLast?

theorem Of.perm {ws : List Scalar} (h : x.Of cmp vs v) (hperm : vs.Perm ws) : x.Of cmp ws v :=
  ⟨hperm.mem_iff.mp h.1, fun u hu => h.2 u (hperm.mem_iff.mpr hu)⟩

theorem of_pairwise [Std.TransCmp cmp] (x : Extreme) (h : vs.Pairwise fun a b => cmp a b ≠ .gt) (hne : vs ≠ []) :
    ∃ w, x.pick? vs = some w ∧ x.Of cmp vs w := by
  have hself (u : Scalar) : cmp u u = .eq := Std.ReflCmp.compare_self
  cases x with
  | least =>
    obtain ⟨w, rest, rfl⟩ := List.exists_cons_of_ne_nil hne
    refine ⟨w, rfl, List.mem_cons_self .., List.forall_mem_cons.mpr ⟨?_, fun u hu hlt => ?_⟩⟩
    · rw [hself]
      exact nofun
    · exact (List.pairwise_cons.mp h).1 u hu (Std.OrientedCmp.gt_iff_lt.mpr hlt)
  | greatest =>
    obtain ⟨front, w, rfl⟩ := (List.eq_nil_or_concat' vs).resolve_left hne
    refine ⟨w, List.getLast?_concat .., List.mem_append_right _ (List.mem_singleton_self w), fun u hu => ?_⟩
    rcases List.mem_append.mp hu with hu | hu
    · exact (List.pairwise_append.mp h).2.2 u hu w (List.mem_singleton_self w)
    · rw [List.mem_singleton.mp hu, hself]
      exact nofun

/-- There are NaNs with a sign bit among numbers, and for the greatest value no other NaNs. -/
structure Astray (x : Extreme) (vs : List Scalar) : Prop where
  negative : ∃ v ∈ vs, v.isNegativeNaN = true
  number : ∃ v ∈ vs, ¬v.isNaN = true
  unopposed : x = greatest → ∀ v ∈ vs, v.isNaN = true → v.isNegativeNaN = true

theorem astray_iff : x.Astray vs ↔ (∃ v ∈ vs, v.isNegativeNaN = true) ∧ (∃ v ∈ vs, ¬v.isNaN = true) ∧
    (x = greatest → ∀ v ∈ vs, v.isNaN = true → v.isNegativeNaN = true) :=
  ⟨fun h => ⟨h.negative, h.number, h.unopposed⟩, fun ⟨hnegative, hnumber, hunopposed⟩ => ⟨hnegative, hnumber, hunopposed⟩⟩

instance (x : Extreme) (vs : List Scalar) : Decidable (x.Astray vs) := decidable_of_iff' _ astray_iff

/-- A value is the same key as an extreme if it is one. -/
theorem Of.same_iff_of (hv : x.Of Scalar.compare vs v) (hw : w ∈ vs) : v.same w = true ↔ x.Of Scalar.compare vs w := by
  have hne : x.beyond ≠ .eq := by cases x <;> exact nofun
  rw [Scalar.same, decide_eq_true_eq, ← Scalar.compare_eq_iff]
  refine ⟨fun heq => ⟨hw, fun u hu => ?_⟩, fun h => Scalar.compare_eq_of_ne hne (h.2 v hv.1) (hv.2 w hw)⟩
  rw [← Std.TransCmp.congr_right heq]
  exact hv.2 u hu

section
variable {t : SqlType} (hvs : ∀ v ∈ vs, v.type = t)
include hvs

/-- The least value of the total order is not the least key just where it is a NaN. -/
theorem exists_lt_iff (hw : least.Of Scalar.compareTotal vs w) : (∃ u ∈ vs, u.compare w = .lt) ↔ least.Astray vs := by
  obtain ⟨hmem, hend⟩ := hw
  have htype (u : Scalar) (hu : u ∈ vs) : w.type = u.type := (hvs w hmem).trans (hvs u hu).symm
  have hbefore (u : Scalar) (hu : u ∈ vs) : w.compareTotal u ≠ .gt := fun hgt => hend u hu (Std.OrientedCmp.gt_iff_lt.mp hgt)
  have hlt (u : Scalar) (hu : u ∈ vs) : u.compare w = .lt ↔ w.isNegativeNaN = true ∧ ¬u.isNaN = true := by
    rw [← Scalar.compare_eq_gt_iff (htype u hu) (hbefore u hu)]
    exact Std.OrientedCmp.gt_iff_lt.symm
  constructor
  · rintro ⟨u, hu, hless⟩
    obtain ⟨hnegative, hnumber⟩ := (hlt u hu).mp hless
    exact ⟨⟨w, hmem, hnegative⟩, ⟨u, hu, hnumber⟩, nofun⟩
  · rintro ⟨⟨v, hv, hnegative⟩, ⟨u, hu, hnumber⟩, -⟩
    exact ⟨u, hu, (hlt u hu).mpr ⟨Scalar.isNegativeNaN_of_compareTotal (htype v hv) (hbefore v hv) hnegative, hnumber⟩⟩

/-- The greatest value of the total order is not the greatest key just where it is a number
and NaNs stand before it. -/
theorem exists_gt_iff (hw : greatest.Of Scalar.compareTotal vs w) :
    (∃ u ∈ vs, u.compare w = .gt) ↔ greatest.Astray vs := by
  obtain ⟨hmem, hbehind⟩ := hw
  have htype (u : Scalar) (hu : u ∈ vs) : u.type = w.type := (hvs u hu).trans (hvs w hmem).symm
  have hgt (u : Scalar) (hu : u ∈ vs) : u.compare w = .gt ↔ u.isNegativeNaN = true ∧ ¬w.isNaN = true :=
    Scalar.compare_eq_gt_iff (htype u hu) (hbehind u hu)
  constructor
  · rintro ⟨u, hu, hmore⟩
    obtain ⟨hnegative, hnumber⟩ := (hgt u hu).mp hmore
    refine ⟨⟨u, hu, hnegative⟩, ⟨w, hmem, hnumber⟩, fun _ v hv hnan => ?_⟩
    by_contra hsign
    exact hnumber (Scalar.isNaN_of_compareTotal (htype v hv) (hbehind v hv) hnan hsign)
  · rintro ⟨⟨u, hu, hnegative⟩, ⟨v, hv, hnumber⟩, hunopposed⟩
    refine ⟨u, hu, (hgt u hu).mpr ⟨hnegative, fun hnan => ?_⟩⟩
    -- behind the number there would be a NaN with a sign bit
    have hsign := Scalar.isNegativeNaN_of_compareTotal (htype v hv) (hbehind v hv) (hunopposed rfl w hmem hnan)
    exact hnumber (Scalar.isNaN_of_isNegativeNaN hsign)

/-- The extremes of both orders are the same key, unless NaNs lead the total order astray. -/
theorem Of.same_iff (hv : x.Of Scalar.compare vs v) (hw : x.Of Scalar.compareTotal vs w) :
    v.same w = true ↔ ¬x.Astray vs := by
  have hastray : (∃ u ∈ vs, u.compare w = x.beyond) ↔ x.Astray vs := by
    cases x with
    | least => exact exists_lt_iff hvs hw
    | greatest => exact exists_gt_iff hvs hw
  rw [hv.same_iff_of hw.1, ← hastray, not_exists]
  exact ⟨fun h u ⟨hu, hbeyond⟩ => h.2 u hu hbeyond, fun h => ⟨hw.1, fun u hu hbeyond => h u ⟨hu, hbeyond⟩⟩⟩

/-- Only doubles have two orders. -/
theorem Of.eq (ht : t ≠ .double) (hv : x.Of Scalar.compare vs v) (hw : x.Of Scalar.compareTotal vs w) : v = w := by
  have hdouble : ¬x.Astray vs := fun hastray => by
    obtain ⟨u, hu, hnan⟩ := hastray.negative
    exact ht ((hvs u hu).symm.trans (Scalar.type_of_isNaN (Scalar.isNaN_of_isNegativeNaN hnan)))
  have hsame : v.canonical = w.canonical := of_decide_eq_true ((Of.same_iff hvs hv hw).mpr hdouble)
  rwa [Scalar.canonical_of_fits (.inr (hvs v hv.1)) ht, Scalar.canonical_of_fits (.inr (hvs w hw.1)) ht] at hsame

end

end Extreme
end QueryEngine
