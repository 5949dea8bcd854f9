import QueryEngine.Memory.Pool

/-! The books of a ledger.

What is in use is what the live reservations hold, and the peak is the most that ever was
in use. A step asks for some bytes and gives some back. It fails where the bytes asked for
do not fit under the limit, and otherwise the two sums in `Settled.used` are equal: as an
equation between natural numbers it says that no byte is given back that was not in use. -/
namespace QueryEngine

namespace LedgerStep

/-- The reservation that a step is about. -/
def name : LedgerStep → String
  | .allocate name _ | .reserve name | .grow name _ | .resize name _ | .drop name => name

end LedgerStep

namespace Ledger

/-- What the live reservations hold together. -/
def reserved (l : Ledger) : Nat := total (l.held.map Prod.snd)

/-- The bytes that a step asks the pool for. -/
def asks (l : Ledger) : LedgerStep → Nat
  | .allocate _ bytes => bytes
  | .grow name bytes => if (l.size? name).isSome then bytes else 0
  | .resize name bytes => ((l.size? name).map (bytes - ·)).getD 0
  | .reserve _ | .drop _ => 0

/-- The bytes that a step gives back when it succeeds. A new reservation takes the place of
the former holder of its name. -/
def frees (l : Ledger) : LedgerStep → Nat
  | .allocate name _ | .reserve name | .drop name => (l.size? name).getD 0
  | .grow _ _ => 0
  | .resize name bytes => ((l.size? name).map (· - bytes)).getD 0

/-- The size, after a step that succeeds, of the reservation that the step is about. -/
def resulting (l : Ledger) : LedgerStep → Option Nat
  | .allocate _ bytes => some bytes
  | .reserve _ => some 0
  | .grow name bytes => (l.size? name).map (· + bytes)
  | .resize name bytes => (l.size? name).map fun _ => bytes
  | .drop _ => none

/-- The ledger after a step; one that fails has changed nothing. -/
def next (l : Ledger) (step : LedgerStep) : Ledger :=
  match l.apply step with
  | .ok l' => l'
  | .error _ => l

def run (l : Ledger) (steps : List LedgerStep) : Ledger := steps.foldl next l

/-- What is in use from a ledger on: at first, then in each step when its bytes have been
granted and when it is over. -/
def history (l : Ledger) : List LedgerStep → List Nat
  | [] => [l.pool.used]
  | step :: steps =>
    match l.apply step with
    | .ok l' => l.pool.used :: (l.pool.used + l.asks step) :: l'.history steps
    | .error _ => l.pool.used :: l.history steps

/-! ### Sizes -/

variable {l : Ledger} {name other : String} {size bytes : Nat}

theorem lookup_filter_self (held : List (String × Nat)) (name : String) :
    (held.filter fun r => r.1 ≠ name).lookup name = none := by
  refine List.lookup_eq_none_iff.mpr fun r hr => ?_
  have hne : r.1 ≠ name := of_decide_eq_true (List.mem_filter.mp hr).2
  exact bne_iff_ne.mpr hne.symm

theorem lookup_filter_of_ne (h : other ≠ name) (held : List (String × Nat)) :
    (held.filter fun r => r.1 ≠ name).lookup other = held.lookup other := by
  induction held with
  | nil => rfl
  | cons r held ih =>
    obtain ⟨key, value⟩ := r
    by_cases hkey : key = name
    · have hother : (other == key) = false := beq_false_of_ne (hkey ▸ h)
      rw [List.filter_cons_of_neg (by simpa using hkey), ih, List.lookup_cons, hother]
    · rw [List.filter_cons_of_pos (by simpa using hkey), List.lookup_cons, List.lookup_cons, ih]

@[simp] theorem size?_drop (l : Ledger) (name other : String) :
    (l.drop name).size? other = if other = name then none else l.size? other := by
  split
  · subst other
    exact lookup_filter_self _ _
  · exact lookup_filter_of_ne ‹_› _

@[simp] theorem size?_hold (l : Ledger) (name other : String) (bytes : Nat) :
    (l.hold name bytes).size? other = if other = name then some bytes else l.size? other := by
  by_cases h : other = name
  · subst other
    simp [hold, size?]
  · have hkey : (other == name) = false := by simpa using h
    rw [if_neg h]
    refine Eq.trans ?_ ((size?_drop l name other).trans (if_neg h))
    simp only [hold, size?, List.lookup_cons, hkey]

theorem size?_setSize (l : Ledger) (name other : String) (bytes : Nat) :
    (l.setSize name bytes).size? other =
      if other = name then (l.size? name).map fun _ => bytes else l.size? other := by
  obtain ⟨pool, held⟩ := l
  simp only [setSize, size?]
  induction held with
  | nil => simp
  | cons r held ih =>
    obtain ⟨key, value⟩ := r
    rw [List.map_cons]
    by_cases hkey : key = name
    · subst key
      rw [if_pos rfl, List.lookup_cons_self, List.lookup_cons, ih, List.lookup_cons]
      by_cases hother : other = name
      · simp [hother]
      · rw [beq_false_of_ne hother, if_neg hother, if_neg hother]
    · rw [if_neg hkey, List.lookup_cons, ih, List.lookup_cons, List.lookup_cons, beq_false_of_ne (Ne.symm hkey)]
      by_cases hother : other = name
      · rw [hother, if_pos rfl, if_pos rfl, beq_false_of_ne (Ne.symm hkey)]
      · rw [if_neg hother, if_neg hother]

/-! ### Sums -/

/-- No other reservation has the name of the first. -/
theorem others_ne {key : String} {held : List (String × Nat)} (h : key ∉ held.map Prod.fst) :
    ∀ r ∈ held, r.1 ≠ key :=
  fun _ hr heq => h (List.mem_map.mpr ⟨_, hr, heq⟩)

theorem reserved_drop (h : (l.held.map Prod.fst).Nodup) (name : String) :
    (l.drop name).reserved + (l.size? name).getD 0 = l.reserved := by
  obtain ⟨pool, held⟩ := l
  simp only [reserved, drop, size?] at h ⊢
  induction held with
  | nil => rfl
  | cons r held ih =>
    obtain ⟨key, value⟩ := r
    obtain ⟨hfresh, hnames⟩ := List.nodup_cons.mp h
    by_cases hkey : key = name
    · subst key
      have hrest : held.filter (fun r => r.1 ≠ name) = held :=
        List.filter_eq_self.mpr fun r hr => decide_eq_true (others_ne hfresh r hr)
      rw [List.filter_cons_of_neg (by simp), hrest]
      simp [Nat.add_comm]
    · have hlookup : (name == key) = false := by simpa using Ne.symm hkey
      have hrest := ih hnames
      rw [List.filter_cons_of_pos (by simpa using hkey)]
      simp only [List.map_cons, total_cons, List.lookup_cons, hlookup] at hrest ⊢
      omega

theorem reserved_setSize (h : (l.held.map Prod.fst).Nodup) (hsize : l.size? name = some size) (bytes : Nat) :
    (l.setSize name bytes).reserved + size = l.reserved + bytes := by
  obtain ⟨pool, held⟩ := l
  simp only [reserved, setSize, size?] at h hsize ⊢
  induction held with
  | nil => cases hsize
  | cons r held ih =>
    obtain ⟨key, value⟩ := r
    obtain ⟨hfresh, hnames⟩ := List.nodup_cons.mp h
    by_cases hkey : key = name
    · subst key
      have hrest : held.map (fun r => if r.1 = name then (name, bytes) else r) = held :=
        (List.map_congr_left fun r hr => if_neg (others_ne hfresh r hr)).trans held.map_id
      simp only [List.lookup_cons_self, Option.some.injEq] at hsize
      simp only [List.map_cons, if_pos, total_cons, hrest]
      omega
    · have hlookup : (name == key) = false := by simpa using Ne.symm hkey
      simp only [List.lookup_cons, hlookup] at hsize
      have hrest := ih hnames hsize
      simp only [List.map_cons, if_neg hkey, total_cons] at hrest ⊢
      omega

/-- A reservation is part of what is reserved. -/
theorem size_le_reserved (h : l.size? name = some size) : size ≤ l.reserved := by
  obtain ⟨pool, held⟩ := l
  simp only [reserved, size?] at h ⊢
  induction held with
  | nil => cases h
  | cons r held ih =>
    obtain ⟨key, value⟩ := r
    simp only [List.lookup_cons] at h
    simp only [List.map_cons, total_cons]
    split at h
    · cases h
      exact Nat.le_add_right _ _
    · exact Nat.le_add_left_of_le (ih h)

theorem names_setSize (l : Ledger) (name : String) (bytes : Nat) :
    (l.setSize name bytes).held.map Prod.fst = l.held.map Prod.fst := by
  rw [setSize, List.map_map]
  exact List.map_congr_left fun r _ => by
    by_cases h : r.1 = name <;> simp [h]

theorem names_drop (h : (l.held.map Prod.fst).Nodup) (name : String) :
    ((l.drop name).held.map Prod.fst).Nodup :=
  h.sublist (List.filter_sublist.map _)

theorem names_hold (h : (l.held.map Prod.fst).Nodup) (name : String) (bytes : Nat) :
    ((l.hold name bytes).held.map Prod.fst).Nodup := by
  refine List.nodup_cons.mpr ⟨fun hmem => ?_, names_drop h name⟩
  obtain ⟨r, hr, heq⟩ := List.mem_map.mp hmem
  simpa [heq] using (List.mem_filter.mp hr).2

/-! ### Balance -/

/-- A ledger under a limit whose books balance. -/
structure Balances (limit : Nat) (l : Ledger) : Prop where
  limit_eq : l.pool.limit = limit
  used_eq : l.pool.used = l.reserved
  used_le : l.pool.used ≤ limit
  used_le_peak : l.pool.used ≤ l.pool.peak
  available : l.pool.used + l.pool.available = limit
  names : (l.held.map Prod.fst).Nodup

/-- What a ledger has become by a step whose bytes were granted. -/
structure Settled (l : Ledger) (step : LedgerStep) (l' : Ledger) : Prop where
  limit : l'.pool.limit = l.pool.limit
  used : l'.pool.used + l.frees step = l.pool.used + l.asks step
  reserved : l'.reserved + l.frees step = l.reserved + l.asks step
  peak : l'.pool.peak = max l.pool.peak (l.pool.used + l.asks step)
  names : (l'.held.map Prod.fst).Nodup
  /-- Only the reservation that the step is about has another size. -/
  sizes (other : String) : l'.size? other = if other = step.name then l.resulting step else l.size? other

variable {limit : Nat} {l' : Ledger} {step : LedgerStep}

/-- What the pool grants it has room for. -/
theorem reserve_of_fits {p : Pool} (h : p.used + bytes ≤ p.limit) :
    p.reserve bytes = .ok { p with used := p.used + bytes, peak := max p.peak (p.used + bytes) } := if_pos h

theorem reserve_of_not_fits {p : Pool} (h : p.limit < p.used + bytes) :
    p.reserve bytes = .error (.resourceExhausted ⟨bytes, p.used, p.limit⟩) := if_neg (Nat.not_le.mpr h)

/-- A step that asks for too much fails. -/
theorem apply_of_not_fits (hbooks : l.Balances limit) (h : l.pool.limit < l.pool.used + l.asks step) :
    l.apply step = .error (.resourceExhausted ⟨l.asks step, l.pool.used, l.pool.limit⟩) := by
  have hused : l.pool.used ≤ l.pool.limit := hbooks.limit_eq ▸ hbooks.used_le
  cases step with
  | allocate name bytes =>
    simp only [asks] at h ⊢
    rw [apply, reserve_of_not_fits h]
    rfl
  | reserve name => exact absurd h (Nat.not_lt.mpr hused)
  | drop name => exact absurd h (Nat.not_lt.mpr hused)
  | grow name bytes =>
    cases hsize : l.size? name with
    | none => simp [asks, hsize] at h; omega
    | some size =>
      simp only [asks, hsize, Option.isSome_some, if_pos] at h ⊢
      simp only [apply, hsize, grow, reserve_of_not_fits h]
      rfl
  | resize name bytes =>
    cases hsize : l.size? name with
    | none => simp [asks, hsize] at h; omega
    | some size =>
      simp only [asks, hsize, Option.map_some, Option.getD_some] at h ⊢
      have hgrows : size < bytes := by omega
      simp only [apply, hsize, if_pos hgrows, grow, reserve_of_not_fits h]
      rfl

theorem settled_drop (hbooks : l.Balances limit) (name : String) : Settled l (.drop name) (l.drop name) := by
  have hreserved := reserved_drop hbooks.names name
  have hused := hbooks.used_eq
  refine ⟨rfl, ?_, hreserved, (Nat.max_eq_left hbooks.used_le_peak).symm, names_drop hbooks.names name, size?_drop l name⟩
  simp only [drop, Pool.release, frees, asks]
  omega

/-- A new reservation takes the place of the former holder of its name. -/
theorem settled_hold (hbooks : l.Balances limit) (step : LedgerStep) (pool : Pool) (hlimit : pool.limit = l.pool.limit)
    (hused : pool.used = l.pool.used + l.asks step) (hpeak : pool.peak = max l.pool.peak (l.pool.used + l.asks step))
    (hfrees : l.frees step = (l.size? step.name).getD 0) (hresulting : l.resulting step = some (l.asks step)) :
    Settled l step ({ l with pool := pool }.hold step.name (l.asks step)) := by
  have hreserved := reserved_drop hbooks.names step.name
  have hbooked := hbooks.used_eq
  refine ⟨hlimit, ?_, ?_, hpeak, names_hold hbooks.names _ _, fun other => ?_⟩
  · simp only [hold, drop, Pool.release, hused, hfrees, size?] at hreserved ⊢
    omega
  · simp only [hold, Ledger.reserved, drop, List.map_cons, total_cons, hfrees] at hreserved ⊢
    omega
  · rw [size?_hold, hresulting]
    rfl

/-- A reservation that is given another size. -/
theorem settled_setSize (hbooks : l.Balances limit) (step : LedgerStep) {pool : Pool} (hsize : l.size? step.name = some size)
    (hlimit : pool.limit = l.pool.limit) (hused : pool.used + l.frees step = l.pool.used + l.asks step)
    (hpeak : pool.peak = max l.pool.peak (l.pool.used + l.asks step)) (hbytes : bytes + l.frees step = size + l.asks step)
    (hresulting : l.resulting step = some bytes) :
    Settled l step ({ l with pool := pool }.setSize step.name bytes) := by
  have hreserved := reserved_setSize hbooks.names hsize bytes
  refine ⟨hlimit, hused, ?_, hpeak, (names_setSize l _ _).symm ▸ hbooks.names, fun other => ?_⟩
  · simp only [Ledger.reserved, setSize] at hreserved ⊢
    omega
  · rw [hresulting]
    refine (size?_setSize l step.name other bytes).trans ?_
    rw [hsize]
    rfl

/-- A step about a reservation that nobody holds. -/
theorem settled_self (hbooks : l.Balances limit) (step : LedgerStep) (hsize : l.size? step.name = none) (hasks : l.asks step = 0)
    (hfrees : l.frees step = 0) (hresulting : l.resulting step = none) : Settled l step l := by
  refine ⟨rfl, by rw [hasks, hfrees], by rw [hasks, hfrees], ?_, hbooks.names, fun other => ?_⟩
  · rw [hasks]
    exact (Nat.max_eq_left hbooks.used_le_peak).symm
  · split
    · subst other
      rw [hsize, hresulting]
    · rfl

/-- The pool once it has granted some bytes. -/
def granted (l : Ledger) (bytes : Nat) : Pool :=
  { l.pool with used := l.pool.used + bytes, peak := max l.pool.peak (l.pool.used + bytes) }

theorem grow_of_fits (h : l.pool.used + bytes ≤ l.pool.limit) (name : String) (size : Nat) :
    l.grow name size bytes = .ok ({ l with pool := l.granted bytes }.setSize name (size + bytes)) := by
  rw [Ledger.grow.eq_1, reserve_of_fits h]
  rfl

/-- A step whose bytes fit succeeds. -/
theorem apply_of_fits (hbooks : l.Balances limit) (h : l.pool.used + l.asks step ≤ l.pool.limit) :
    ∃ l', l.apply step = .ok l' ∧ Settled l step l' := by
  have hpeak := hbooks.used_le_peak
  cases step with
  | allocate name bytes =>
    refine ⟨{ l with pool := l.granted bytes }.hold name bytes, ?_,
      settled_hold hbooks (.allocate name bytes) (l.granted bytes) rfl rfl rfl rfl rfl⟩
    simp only [asks] at h
    rw [apply, reserve_of_fits h]
    rfl
  | reserve name =>
    exact ⟨_, rfl, settled_hold hbooks (.reserve name) l.pool rfl rfl (Nat.max_eq_left hpeak).symm rfl rfl⟩
  | drop name => exact ⟨_, rfl, settled_drop hbooks name⟩
  | grow name bytes =>
    cases hsize : l.size? name with
    | none =>
      refine ⟨l, by rw [apply, hsize], settled_self hbooks _ hsize ?_ rfl ?_⟩
      · simp [asks, hsize]
      · simp [resulting, hsize]
    | some size =>
      have hasks : l.asks (.grow name bytes) = bytes := by simp [asks, hsize]
      rw [hasks] at h
      refine ⟨_, by rw [apply, hsize]; exact grow_of_fits h name size, ?_⟩
      refine settled_setSize hbooks (.grow name bytes) hsize rfl ?_ ?_ ?_ ?_
      · rw [hasks]; rfl
      · rw [hasks]; rfl
      · rw [hasks]; rfl
      · simp [resulting, hsize]
  | resize name bytes =>
    have hbooked := hbooks.used_eq
    cases hsize : l.size? name with
    | none =>
      refine ⟨l, by rw [apply, hsize], settled_self hbooks _ hsize ?_ ?_ ?_⟩
      · simp [asks, hsize]
      · simp [frees, hsize]
      · simp [resulting, hsize]
    | some size =>
      have hasks : l.asks (.resize name bytes) = bytes - size := by simp [asks, hsize]
      have hfrees : l.frees (.resize name bytes) = size - bytes := by simp [frees, hsize]
      have hresulting : l.resulting (.resize name bytes) = some bytes := by simp [resulting, hsize]
      have hheld := size_le_reserved hsize
      rw [hasks] at h
      by_cases hgrows : size < bytes
      · refine ⟨{ l with pool := l.granted (bytes - size) }.setSize name bytes, ?_, ?_⟩
        · have hsum : size + (bytes - size) = bytes := by omega
          rw [apply, hsize]
          simp only [if_pos hgrows]
          rw [grow_of_fits h, hsum]
        · refine settled_setSize hbooks (.resize name bytes) hsize rfl ?_ ?_ ?_ hresulting
          · rw [hasks, hfrees]; simp only [granted]; omega
          · rw [hasks]; rfl
          · rw [hasks, hfrees]; omega
      · refine ⟨l.shrink name size bytes, by rw [apply, hsize]; simp only [if_neg hgrows], ?_⟩
        refine settled_setSize hbooks (.resize name bytes) hsize rfl ?_ ?_ ?_ hresulting
        · rw [hasks, hfrees]; simp only [Pool.release]; omega
        · rw [hasks]; simp only [Pool.release]; omega
        · rw [hasks, hfrees]; omega

/-! ### Runs -/

/-- A step succeeds or fails as its bytes fit or not. -/
theorem apply_eq_error_iff (hbooks : l.Balances limit) (e : QueryError) : l.apply step = .error e ↔
    l.pool.limit < l.pool.used + l.asks step ∧ e = .resourceExhausted ⟨l.asks step, l.pool.used, l.pool.limit⟩ := by
  constructor
  · intro he
    rcases Nat.lt_or_ge l.pool.limit (l.pool.used + l.asks step) with hlarge | hfits
    · have herror := apply_of_not_fits hbooks hlarge
      rw [herror] at he
      cases he
      exact ⟨hlarge, rfl⟩
    · obtain ⟨l', hl', -⟩ := apply_of_fits hbooks hfits
      cases hl'.symm.trans he
  · rintro ⟨hlarge, rfl⟩
    exact apply_of_not_fits hbooks hlarge

theorem next_of_not_fits (hbooks : l.Balances limit) (h : l.pool.limit < l.pool.used + l.asks step) :
    l.next step = l := by
  rw [next, apply_of_not_fits hbooks h]

theorem settled_next (hbooks : l.Balances limit) (h : l.pool.used + l.asks step ≤ l.pool.limit) :
    Settled l step (l.next step) := by
  obtain ⟨l', hl', hsettled⟩ := apply_of_fits hbooks h
  rwa [next, hl']

theorem frees_le_used (hbooks : l.Balances limit) (step : LedgerStep) : l.frees step ≤ l.pool.used := by
  rw [hbooks.used_eq]
  cases hsize : l.size? step.name with
  | none =>
    have hnone : l.frees step = 0 := by
      cases step <;> simp_all [frees, LedgerStep.name]
    exact hnone ▸ Nat.zero_le _
  | some size =>
    have hsome : l.frees step ≤ size := by
      cases step <;> simp_all [frees, LedgerStep.name]
    exact Nat.le_trans hsome (size_le_reserved hsize)

theorem Balances.next (hbooks : l.Balances limit) (step : LedgerStep) : (l.next step).Balances limit := by
  rcases Nat.lt_or_ge l.pool.limit (l.pool.used + l.asks step) with hlarge | hfits
  · rwa [next_of_not_fits hbooks hlarge]
  · obtain ⟨hlimit, hused, hreserved, hpeak, hnames, -⟩ := settled_next hbooks hfits
    have hbooked := hbooks.used_eq
    have hle : (l.next step).pool.used ≤ l.pool.used + l.asks step := by omega
    have hmax : (l.next step).pool.used ≤ limit := by
      rw [← hbooks.limit_eq]
      exact Nat.le_trans hle hfits
    refine ⟨hlimit.trans hbooks.limit_eq, by omega, hmax, ?_, ?_, hnames⟩
    · rw [hpeak]
      exact Nat.le_trans hle (Nat.le_max_right _ _)
    · rw [Pool.available, hlimit, hbooks.limit_eq]
      exact Nat.add_sub_cancel' hmax

theorem balances_ofLimit? (limit : Option Nat) : (ofLimit? limit).Balances (limit.getD maxCount) where
  limit_eq := rfl
  used_eq := rfl
  used_le := Nat.zero_le _
  used_le_peak := Nat.le_refl _
  available := Nat.zero_add _
  names := List.nodup_nil

theorem Balances.run (hbooks : l.Balances limit) (steps : List LedgerStep) : (l.run steps).Balances limit := by
  induction steps generalizing l with
  | nil => exact hbooks
  | cons step steps ih => exact ih (hbooks.next step)

/-- The peak is the most of what was in use, and of the peak from before. -/
theorem peak_run (hbooks : l.Balances limit) (steps : List LedgerStep) :
    (l.run steps).pool.peak = (l.history steps).foldl max l.pool.peak := by
  induction steps generalizing l with
  | nil => exact (Nat.max_eq_left hbooks.used_le_peak).symm
  | cons step steps ih =>
    have hrest := ih (hbooks.next step)
    have hfirst : max l.pool.peak l.pool.used = l.pool.peak := Nat.max_eq_left hbooks.used_le_peak
    refine hrest.trans ?_
    rcases Nat.lt_or_ge l.pool.limit (l.pool.used + l.asks step) with hlarge | hfits
    · rw [history, apply_of_not_fits hbooks hlarge, next_of_not_fits hbooks hlarge]
      exact congrArg (fun peak => (l.history steps).foldl max peak) hfirst.symm
    · obtain ⟨l', hl', hsettled⟩ := apply_of_fits hbooks hfits
      have hnext : l.next step = l' := by rw [next, hl']
      rw [history, hl', hnext, hsettled.peak]
      exact congrArg (fun peak => (l'.history steps).foldl max (max peak _)) hfirst.symm

theorem history_ofLimit? (limit : Option Nat) (steps : List LedgerStep) :
    ∃ later, (ofLimit? limit).history steps = 0 :: later := by
  cases steps with
  | nil => exact ⟨_, rfl⟩
  | cons step steps =>
    rw [history]
    split
    · exact ⟨_, rfl⟩
    · exact ⟨_, rfl⟩

/-- The books balance whatever steps have been taken: what is in use is what is reserved
and no more than the limit, and the peak is the most that ever was in use. The next step
fails exactly if its bytes do not fit, and then nothing has changed. Otherwise the bytes in
use have grown by what the step asks for less what it gives back, no sum is too large to be
counted, and nothing is given back that was not in use. -/
theorem books_balance (limit : Option Nat) (hlimit : limit.getD maxCount ≤ maxCount) (steps : List LedgerStep) :
    let l := (ofLimit? limit).run steps
    l.Balances (limit.getD maxCount) ∧ ((ofLimit? limit).history steps).max? = some l.pool.peak ∧
      ∀ step,
        (∀ e, l.apply step = .error e ↔ limit.getD maxCount < l.pool.used + l.asks step ∧
          e = .resourceExhausted ⟨l.asks step, l.pool.used, limit.getD maxCount⟩) ∧
        (limit.getD maxCount < l.pool.used + l.asks step → l.next step = l) ∧
        (l.pool.used + l.asks step ≤ limit.getD maxCount →
          Settled l step (l.next step) ∧ l.frees step ≤ l.pool.used ∧ l.pool.used + l.asks step ≤ maxCount ∧
            ∀ name size, (l.next step).size? name = some size → size ≤ maxCount) := by
  intro l
  have hbooks : l.Balances (limit.getD maxCount) := (balances_ofLimit? limit).run steps
  refine ⟨hbooks, ?_, fun step => ⟨fun e => ?_, fun hlarge => ?_, fun hfits => ⟨?_, ?_, ?_, fun name size hsize => ?_⟩⟩⟩
  · obtain ⟨later, hlater⟩ := history_ofLimit? limit steps
    have hpeak := peak_run (balances_ofLimit? limit) steps
    rw [hlater] at hpeak ⊢
    rw [List.max?_cons', hpeak]
    rfl
  · rw [← hbooks.limit_eq]
    exact apply_eq_error_iff hbooks e
  · exact next_of_not_fits hbooks (hbooks.limit_eq ▸ hlarge)
  · exact settled_next hbooks (hbooks.limit_eq ▸ hfits)
  · exact frees_le_used hbooks step
  · exact Nat.le_trans hfits hlimit
  · have hafter := hbooks.next step
    calc size ≤ (l.next step).reserved := size_le_reserved hsize
      _ = (l.next step).pool.used := hafter.used_eq.symm
      _ ≤ maxCount := Nat.le_trans hafter.used_le hlimit

/-- Two reservations of which the second has no room for more: the peak is what both held,
and dropping the first makes room. -/
theorem books_balance_refused :
    (some 1000).getD maxCount ≤ maxCount ∧
    (∃ e, ((ofLimit? (some 1000)).run [.allocate "a" 500, .allocate "b" 400]).apply (.grow "b" 200) = .error e) ∧
    ((ofLimit? (some 1000)).run
      [.allocate "a" 500, .allocate "b" 400, .grow "b" 200, .drop "a", .grow "b" 200]).pool.peak = 900 := by
  have hlimit : (some 1000).getD maxCount ≤ maxCount := by decide
  refine ⟨hlimit, ?_, ?_⟩
  · have hfails := ((books_balance (some 1000) hlimit [.allocate "a" 500, .allocate "b" 400]).2.2 (.grow "b" 200)).1
    exact ⟨_, (hfails _).mpr ⟨by decide, rfl⟩⟩
  · have hpeak := (books_balance (some 1000) hlimit
      [.allocate "a" 500, .allocate "b" 400, .grow "b" 200, .drop "a", .grow "b" 200]).2.1
    exact Option.some.inj (hpeak.symm.trans (by decide))

end Ledger
end QueryEngine
