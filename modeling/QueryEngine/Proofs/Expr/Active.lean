import QueryEngine.Proofs.Chunk.Flat
import QueryEngine.Proofs.Expr.Rowwise

/-! Expressions on the active rows of a chunk.

For a well-typed expression without calls, evaluating on the active rows is a pass
over the rows, one at a time (`evaluateActive_eq_ok_iff`). Two chunks of the same
types and rows are therefore the same to it, however many rows they hide. -/
namespace QueryEngine.Expr
variable {c : Chunk} {e : Expr} {t : SqlType} {out : Column}

theorem evaluateActive_ok (hc : c.Sound) (h : e.evaluateActive c = .ok out) :
    ∃ col, e.evaluate c = .ok col ∧ out.type = col.type ∧ out.data = c.activeRows.map col.datum := by
  obtain ⟨col, hcol, h⟩ := bind_eq_ok.mp h
  refine ⟨col, hcol, ?_⟩
  cases hs : c.selection with
  | none =>
    rw [hs] at h
    cases h
    refine ⟨rfl, ?_⟩
    rw [Column.data_eq_map, (evaluate_rowwise hc hcol).size, hc.flat hs, Chunk.activeRows, hs]
    rfl
  | some s =>
    rw [hs] at h
    refine ⟨(Column.gather_ok h).1, ?_⟩
    rw [Column.data_gather h, Chunk.activeRows, hs]
    rfl

/-- The value at a position is the one in the active row that stands there. -/
theorem evaluateActive_datum (hc : c.Sound) (h : e.evaluateActive c = .ok out) :
    ∃ col, e.evaluate c = .ok col ∧ out.type = col.type ∧ out.size = c.count ∧
      ∀ i r, c.activeRows[i]? = some r → out.datum i = col.datum r := by
  obtain ⟨col, hcol, htype, hdata⟩ := evaluateActive_ok hc h
  have hsize : out.size = c.count := by rw [← Column.length_data, hdata, List.length_map, hc.length_activeRows]
  refine ⟨col, hcol, htype, hsize, fun i r hi => ?_⟩
  have hlt : i < out.size := by
    rw [hsize, ← hc.length_activeRows]
    exact (List.getElem?_eq_some_iff.mp hi).1
  have hout : some (out.datum i) = some (col.datum r) := by
    rw [← Column.data_getElem? hlt, hdata, List.getElem?_map, hi]
    rfl
  exact Option.some.inj hout

theorem evaluateActive_of_evaluate (hc : c.Sound) {col : Column} (h : e.evaluate c = .ok col) :
    ∃ out, e.evaluateActive c = .ok out := by
  unfold evaluateActive
  rw [h, ok_bind]
  cases hs : c.selection with
  | none => exact ⟨col, rfl⟩
  | some s =>
    refine Column.gather_of_lt fun r hr => ?_
    rw [(evaluate_rowwise hc h).size]
    exact (hc.selected s hs).2 r hr

/-- Evaluating on the active rows is evaluating on each of them. -/
theorem evaluateActive_eq_ok_iff (hc : c.Sound) (hp : e.isPlain = true) (ht : e.resolve c.types = .ok t) :
    e.evaluateActive c = .ok out ↔ out.type = t ∧ c.rows.mapM e.onRow = .ok out.data := by
  have forward {out : Column} (h : e.evaluateActive c = .ok out) :
      out.type = t ∧ c.rows.mapM e.onRow = .ok out.data := by
    obtain ⟨col, hcol, htype, hdata⟩ := evaluateActive_ok hc h
    refine ⟨htype.trans (evaluate_type hc ht hcol), ?_⟩
    rw [hdata, Chunk.rows, List.mapM_map]
    exact mapM_eq_map (evaluate_rowwise hc hcol).value
  refine ⟨forward, ?_⟩
  rintro ⟨htype, hrows⟩
  cases hcol : e.evaluate c with
  | ok col =>
    obtain ⟨out', hout'⟩ := evaluateActive_of_evaluate hc hcol
    obtain ⟨htype', hrows'⟩ := forward hout'
    rw [hrows, Except.ok.injEq] at hrows'
    rw [hout', Column.ext_data (htype.trans htype'.symm) hrows']
  | error x =>
    obtain ⟨r, hr, e', he', _⟩ := evaluate_error hc hp ht hcol
    rw [Chunk.rows, List.mapM_map] at hrows
    obtain ⟨d, _, hd⟩ := mapM_ok_of_mem hrows hr
    cases he'.symm.trans hd

/-- It depends on nothing but the types and the active rows. -/
theorem evaluateActive_congr {d : Chunk} (hc : c.Sound) (hd : d.Sound) (hp : e.isPlain = true)
    (ht : e.resolve c.types = .ok t) (htypes : d.types = c.types) (hrows : d.rows = c.rows) :
    e.evaluateActive d = .ok out ↔ e.evaluateActive c = .ok out := by
  rw [evaluateActive_eq_ok_iff hd hp (htypes ▸ ht), evaluateActive_eq_ok_iff hc hp ht, hrows]

theorem evaluateActive_of_flat (h : c.selection = none) : e.evaluateActive c = e.evaluate c := by
  unfold evaluateActive
  rw [h]
  cases e.evaluate c <;> rfl

/-- On a chunk of one row. -/
theorem evaluate_only_eq_ok_iff (hc : c.Sound) (hp : e.isPlain = true) (ht : e.resolve c.types = .ok t) {r : Nat}
    (hr : r ∈ c.activeRows) :
    e.evaluate (c.only r) = .ok out ↔ out.type = t ∧ ∃ d, e.onRow (c.row r) = .ok d ∧ out.data = [d] := by
  have hlt := hc.active_lt hr
  rw [← evaluateActive_of_flat (c := c.only r) rfl,
    evaluateActive_eq_ok_iff (Chunk.sound_only hc hlt) hp (by rwa [Chunk.types_only]), Chunk.rows_only hc hlt]
  simp only [mapM_eq_ok_iff, List.forall₂_cons_left_iff, List.forall₂_nil_left_iff]
  constructor
  · rintro ⟨htype, d, _, hd, rfl, hdata⟩
    exact ⟨htype, d, hd, hdata⟩
  · rintro ⟨htype, d, hd, hdata⟩
    exact ⟨htype, d, [], hd, rfl, hdata⟩

/-- What a chunk may contribute to a value: its active rows, each by itself. -/
structure RowByRow (c : Chunk) (e : Expr) (t : SqlType) : Prop where
  /-- The rows succeed together when each succeeds alone. -/
  succeeds : (∃ out, e.evaluateActive c = .ok out) ↔ ∀ r ∈ c.activeRows, ∃ one, e.evaluate (c.only r) = .ok one
  value : ∀ out, e.evaluateActive c = .ok out → out.type = t ∧ out.size = c.count ∧
    ∀ i r, c.activeRows[i]? = some r →
      ∃ one, e.evaluate (c.only r) = .ok one ∧ one.size = 1 ∧ out.datum i = one.datum 0
  flattened : ∃ flat, c.flatten = .ok flat ∧ ∀ out, e.evaluate flat = .ok out ↔ e.evaluateActive c = .ok out
  /-- Another chunk that differs in what it hides answers the same. -/
  hidden : ∀ d : Chunk, d.verify = .ok () → d.types = c.types → d.rows = c.rows →
    ∀ out, e.evaluateActive d = .ok out ↔ e.evaluateActive c = .ok out

theorem succeeds_iff_only (hc : c.Sound) (hp : e.isPlain = true) (ht : e.resolve c.types = .ok t) :
    (∃ out, e.evaluateActive c = .ok out) ↔ ∀ r ∈ c.activeRows, ∃ one, e.evaluate (c.only r) = .ok one := by
  constructor
  · rintro ⟨out, hout⟩ r hr
    obtain ⟨col, hcol, _, _⟩ := evaluateActive_ok hc hout
    have hd := (evaluate_rowwise hc hcol).value r hr
    refine ⟨col.window r 1, (evaluate_only_eq_ok_iff hc hp ht hr).mpr ⟨?_, col.datum r, hd, ?_⟩⟩
    · rw [Column.type_window]
      exact evaluate_type hc ht hcol
    · have hlt : r < col.size := (evaluate_rowwise hc hcol).size ▸ hc.active_lt hr
      have hone : (col.window r 1).size = 1 := by
        rw [Column.size_window]
        omega
      rw [Column.data_eq_map, hone, List.range_one, List.map_singleton, Column.datum_window Nat.one_pos,
        Nat.add_zero]
  · intro h
    cases hcol : e.evaluate c with
    | ok col => exact evaluateActive_of_evaluate hc hcol
    | error x =>
      obtain ⟨r, hr, e', he', _⟩ := evaluate_error hc hp ht hcol
      obtain ⟨one, hone⟩ := h r hr
      obtain ⟨_, d, hd, _⟩ := (evaluate_only_eq_ok_iff hc hp ht hr).mp hone
      cases he'.symm.trans hd

theorem value_eq_only (hc : c.Sound) (hp : e.isPlain = true) (ht : e.resolve c.types = .ok t)
    (h : e.evaluateActive c = .ok out) {i r : Nat} (hi : c.activeRows[i]? = some r) :
    ∃ one, e.evaluate (c.only r) = .ok one ∧ one.size = 1 ∧ out.datum i = one.datum 0 := by
  have hr : r ∈ c.activeRows := List.mem_of_getElem? hi
  obtain ⟨col, hcol, _, _, hdatum⟩ := evaluateActive_datum hc h
  obtain ⟨one, hone⟩ := (succeeds_iff_only hc hp ht).mp ⟨out, h⟩ r hr
  obtain ⟨_, d, hd, hdone⟩ := (evaluate_only_eq_ok_iff hc hp ht hr).mp hone
  have hsize : one.size = 1 := by rw [← Column.length_data, hdone, List.length_singleton]
  refine ⟨one, hone, hsize, ?_⟩
  have hfirst : some (one.datum 0) = some d := by
    rw [← Column.data_getElem? (hsize ▸ Nat.one_pos), hdone]
    rfl
  rw [hdatum i r hi, Option.some.inj hfirst]
  exact Except.ok.inj (((evaluate_rowwise hc hcol).value r hr).symm.trans hd)

/-- Evaluating over a whole chunk is evaluating row by row, and blind to hidden rows. -/
theorem evaluateActive_rowByRow (hv : c.verify = .ok ()) (hp : e.isPlain = true) (ht : e.resolve c.types = .ok t) :
    RowByRow c e t := by
  have hc := (Chunk.verify_eq_ok_iff c).mp hv
  refine ⟨succeeds_iff_only hc hp ht, fun out hout => ?_, ?_, fun d hd htypes hrows out => ?_⟩
  · obtain ⟨htype, hrows⟩ := (evaluateActive_eq_ok_iff hc hp ht).mp hout
    refine ⟨htype, ?_, fun i r hi => value_eq_only hc hp ht hout hi⟩
    rw [← Column.length_data, length_of_mapM hrows, hc.length_rows]
  · obtain ⟨flat, hflat, hf⟩ := Chunk.flatten_ok hc
    refine ⟨flat, hflat, fun out => ?_⟩
    rw [← evaluateActive_of_flat hf.flat]
    exact evaluateActive_congr hc hf.sound hp ht hf.types hf.rows
  · exact evaluateActive_congr hc ((Chunk.verify_eq_ok_iff d).mp hd) hp ht htypes hrows

/-- One more than the value of row 1, twice; row 0 would overflow and is hidden. -/
theorem evaluateActive_past_overflow :
    let chunk : Chunk :=
      ⟨[.ofSlots .tinyInt [⟨.tinyInt 127, .inr rfl⟩, ⟨.tinyInt 5, .inr rfl⟩]], some [1, 1], 2, defaultCapacity⟩
    let next : Expr := .binary (.column 0 .tinyInt) (.arithmetic .add) (.literal (.tinyInt 1))
    chunk.verify = .ok () ∧ next.isPlain = true ∧ next.resolve chunk.types = .ok .tinyInt ∧
      RowByRow chunk next .tinyInt :=
  ⟨rfl, rfl, rfl, evaluateActive_rowByRow rfl rfl rfl⟩

end QueryEngine.Expr
