import Mathlib.Data.Finset.Card
import Mathlib.Data.List.SplitBy
import QueryEngine.Proofs.Result
import QueryEngine.Proofs.Value.Order
import QueryEngine.Window.Call

/-! Runs of peers.

In a partition that was put in order, places that compare the same stand next to each
other, so that splitting it where neighbours differ leaves whole classes of peers, in
order (`runs_splitBy`). What is counted ahead of a run is therefore what comes strictly
before each of its places (`Runs.filter_lt`), and what is read up to its end is what
does not come after them (`Runs.filter_ne_gt`). -/
namespace QueryEngine.WindowCall

/-- Classes of places that compare the same, in order. -/
structure Runs (cmp : Nat → Nat → Ordering) (runs : List (List Nat)) : Prop where
  full : ∀ run ∈ runs, run ≠ []
  peers : ∀ run ∈ runs, ∀ i ∈ run, ∀ j ∈ run, cmp i j = .eq
  before : runs.Pairwise fun a b => ∀ i ∈ a, ∀ j ∈ b, cmp i j = .lt

section
variable {cmp : Nat → Nat → Ordering} [Std.TransCmp cmp]

/-- Where the last place of each run does not compare the same as the first of the next,
no place of an earlier run compares the same as one of a later run. -/
theorem runs_of_chain {runs : List (List Nat)} (hfull : ∀ run ∈ runs, run ≠ [])
    (hpeers : ∀ run ∈ runs, ∀ i ∈ run, ∀ j ∈ run, cmp i j = .eq)
    (hsorted : runs.Pairwise fun a b => ∀ i ∈ a, ∀ j ∈ b, (cmp i j).isLE = true)
    (hends : runs.IsChain fun a b => ∃ ha hb, (cmp (a.getLast ha) (b.head hb)).isEq = false) : Runs cmp runs := by
  refine ⟨hfull, hpeers, ?_⟩
  induction runs with
  | nil => exact .nil
  | cons a rest ih =>
    obtain ⟨hsorted, hrest⟩ := List.pairwise_cons.mp hsorted
    have hpeers' (run : List Nat) (hrun : run ∈ rest) := hpeers run (List.mem_cons_of_mem _ hrun)
    have hfull' (run : List Nat) (hrun : run ∈ rest) := hfull run (List.mem_cons_of_mem _ hrun)
    have hbefore := ih hfull' hpeers' hrest hends.tail
    refine List.pairwise_cons.mpr ⟨fun c hc i hi j hj => ?_, hbefore⟩
    cases rest with
    | nil => cases hc
    | cons b rest =>
      obtain ⟨ha, hb, hend⟩ := (List.isChain_cons_cons.mp hends).1
      have hlast : cmp i (a.getLast ha) = .eq := hpeers a (List.mem_cons_self ..) i hi _ (List.getLast_mem ha)
      have hle := hsorted b (List.mem_cons_self ..) _ (List.getLast_mem ha) _ (List.head_mem hb)
      have hlt : cmp (a.getLast ha) (b.head hb) = .lt := by
        cases h : cmp (a.getLast ha) (b.head hb) with
        | lt => rfl
        | eq => rw [h] at hend; cases hend
        | gt => rw [h] at hle; cases hle
      have hhead : cmp i (b.head hb) = .lt := (Std.TransCmp.congr_left hlast).trans hlt
      rcases List.mem_cons.mp hc with rfl | hc
      · rw [← hhead]
        exact Std.TransCmp.congr_right (hpeers' c (List.mem_cons_self ..) j hj _ (List.head_mem hb))
      · exact Std.TransCmp.lt_trans hhead ((List.pairwise_cons.mp hbefore).1 c hc _ (List.head_mem hb) j hj)

/-- Splitting places in order where neighbours do not compare the same. -/
theorem runs_splitBy {places : List Nat} (h : places.Pairwise fun i j => (cmp i j).isLE = true) :
    Runs cmp (places.splitBy fun i j => (cmp i j).isEq) := by
  have : Trans (fun i j => (cmp i j).isEq = true) (fun i j => (cmp i j).isEq = true)
      (fun i j => (cmp i j).isEq = true) := ⟨fun hij hjk => by
    rw [Ordering.isEq_iff_eq_eq] at *
    exact (Std.TransCmp.congr_left hij).trans hjk⟩
  have : Std.Symm fun i j => (cmp i j).isEq = true := ⟨fun i j hij => by
    rw [Ordering.isEq_iff_eq_eq] at *
    exact Std.OrientedCmp.eq_symm hij⟩
  refine runs_of_chain (fun run hrun => List.ne_nil_of_mem_splitBy hrun) (fun run hrun i hi j hj => ?_) ?_
    (List.isChain_getLast_head_splitBy (fun i j => (cmp i j).isEq) places)
  · have hchain := (List.isChain_of_mem_splitBy hrun).pairwise
    have hself (i : Nat) : (cmp i i).isEq = true := Ordering.isEq_iff_eq_eq.mpr Std.ReflCmp.compare_self
    exact Ordering.isEq_iff_eq_eq.mp (hchain.forall_of_forall (fun i _ => hself i) hi hj)
  · have hflat : ((places.splitBy fun i j => (cmp i j).isEq).flatten).Pairwise fun i j => (cmp i j).isLE = true := by
      rw [List.flatten_splitBy]
      exact h
    exact (List.pairwise_flatten.mp hflat).2

variable {front rest : List (List Nat)} {run : List Nat} {i : Nat}

theorem Runs.split (h : Runs cmp (front ++ run :: rest)) (hi : i ∈ run) :
    (∀ j ∈ front.flatten, cmp j i = .lt) ∧ (∀ j ∈ run, cmp j i = .eq) ∧ ∀ j ∈ rest.flatten, cmp j i = .gt := by
  obtain ⟨_, hrest, hfront⟩ := List.pairwise_append.mp h.before
  refine ⟨fun j hj => ?_, fun j hj => h.peers run (by simp) j hj i hi, fun j hj => ?_⟩
  · obtain ⟨a, ha, hj⟩ := List.mem_flatten.mp hj
    exact hfront a ha run (List.mem_cons_self ..) j hj i hi
  · obtain ⟨b, hb, hj⟩ := List.mem_flatten.mp hj
    rw [Std.OrientedCmp.gt_iff_lt]
    exact (List.pairwise_cons.mp hrest).1 b hb i hi j hj

/-- What comes strictly before the places of a run are the runs ahead of it. -/
theorem Runs.filter_lt (h : Runs cmp (front ++ run :: rest)) (hi : i ∈ run) :
    ((front ++ run :: rest).flatten.filter fun j => cmp j i = .lt) = front.flatten := by
  obtain ⟨hfront, hrun, hrest⟩ := h.split hi
  rw [List.flatten_append, List.flatten_cons, List.filter_append, List.filter_append,
    List.filter_eq_self.mpr fun j hj => by simp [hfront j hj],
    List.filter_eq_nil_iff.mpr fun j hj => by simp [hrun j hj],
    List.filter_eq_nil_iff.mpr fun j hj => by simp [hrest j hj]]
  simp

/-- What does not come after the places of a run are the runs up to it. -/
theorem Runs.filter_ne_gt (h : Runs cmp (front ++ run :: rest)) (hi : i ∈ run) :
    ((front ++ run :: rest).flatten.filter fun j => cmp j i ≠ .gt) = front.flatten ++ run := by
  obtain ⟨hfront, hrun, hrest⟩ := h.split hi
  rw [List.flatten_append, List.flatten_cons, List.filter_append, List.filter_append,
    List.filter_eq_self.mpr fun j hj => by simp [hfront j hj],
    List.filter_eq_self.mpr fun j hj => by simp [hrun j hj],
    List.filter_eq_nil_iff.mpr fun j hj => by simp [hrest j hj]]
  simp

/-- The runs ahead of a run are as many as there are classes of peers in them. -/
theorem Runs.length_dedup {β : Type} [DecidableEq β] {value : Nat → β} {runs : List (List Nat)} (h : Runs cmp runs)
    (hvalue : ∀ i ∈ runs.flatten, ∀ j ∈ runs.flatten, (value i = value j ↔ cmp i j = .eq)) :
    (runs.flatten.map value).dedup.length = runs.length := by
  rw [← List.card_toFinset]
  induction runs with
  | nil => rfl
  | cons run runs ih =>
    obtain ⟨hhead, hbefore⟩ := List.pairwise_cons.mp h.before
    have hrest : Runs cmp runs := ⟨fun run hrun => h.full run (List.mem_cons_of_mem _ hrun),
      fun run hrun => h.peers run (List.mem_cons_of_mem _ hrun), hbefore⟩
    have hin (i : Nat) (hi : i ∈ run) : i ∈ (run :: runs).flatten := List.mem_flatten.mpr ⟨run, List.mem_cons_self .., hi⟩
    have hlater (i : Nat) (hi : i ∈ runs.flatten) : i ∈ (run :: runs).flatten := by
      rw [List.flatten_cons]
      exact List.mem_append_right _ hi
    obtain ⟨first, hfirst⟩ := List.exists_mem_of_ne_nil _ (h.full run (List.mem_cons_self ..))
    -- one value for the first run, which no later place has
    have hone : (run.map value).toFinset = {value first} := by
      ext v
      simp only [List.mem_toFinset, List.mem_map, Finset.mem_singleton]
      constructor
      · rintro ⟨i, hi, rfl⟩
        exact (hvalue i (hin i hi) first (hin first hfirst)).mpr (h.peers run (List.mem_cons_self ..) i hi first hfirst)
      · rintro rfl
        exact ⟨first, hfirst, rfl⟩
    have hnew : value first ∉ (runs.flatten.map value).toFinset := by
      rw [List.mem_toFinset, List.mem_map]
      rintro ⟨j, hj, heq⟩
      have hpeers := (hvalue j (hlater j hj) first (hin first hfirst)).mp heq
      obtain ⟨b, hb, hjb⟩ := List.mem_flatten.mp hj
      have hlt := hhead b hb first hfirst j hjb
      rw [Std.OrientedCmp.eq_symm hpeers] at hlt
      cases hlt
    rw [List.flatten_cons, List.map_append, List.toFinset_append, hone, Finset.singleton_union,
      Finset.card_insert_of_notMem hnew, ih hrest fun i hi j hj => hvalue i (hlater i hi) j (hlater j hj),
      List.length_cons]

end

/-! ### What stands ahead of a place -/

section
variable {row : Nat} {value : Scalar}

theorem map_fst_rowNumbers (rows : List Nat) : (rowNumbers rows).map Prod.fst = rows := by
  rw [rowNumbers, List.map_map]
  exact List.zipIdx_map_fst 0 rows

theorem map_fst_ranks (before : Nat) (runs : List (List Nat)) : (ranks before runs).map Prod.fst = runs.flatten := by
  induction runs generalizing before with
  | nil => rfl
  | cons run runs ih =>
    rw [ranks, List.map_append, ih, List.map_map, List.flatten_cons]
    congr 1
    exact List.map_id' run

theorem map_fst_denseRanks (runs : List (List Nat)) : (denseRanks runs).map Prod.fst = runs.flatten := by
  rw [denseRanks, List.map_flatMap, List.flatten_eq_flatMap]
  conv_rhs => rw [← List.zipIdx_map_fst 0 runs, List.flatMap_map]
  refine List.flatMap_congr fun run _ => ?_
  rw [List.map_map]
  exact List.map_id' run.1

theorem map_fst_runningAggregates {argument : Option Column} {a : Accumulator} {frames : List (List Nat)}
    {values : List RowValue} (h : runningAggregates argument a frames = .ok values) :
    values.map Prod.fst = frames.flatten := by
  induction frames generalizing a values with
  | nil =>
    cases h
    rfl
  | cons frame frames ih =>
    obtain ⟨b, _, h⟩ := bind_eq_ok.mp h
    obtain ⟨rest, hrest, h⟩ := bind_eq_ok.mp h
    cases h
    rw [List.map_append, ih hrest, List.map_map, List.flatten_cons]
    congr 1
    exact List.map_id' frame

/-- A row is numbered by the rows ahead of it. -/
theorem mem_rowNumbers {rows : List Nat} (h : (row, value) ∈ rowNumbers rows) :
    ∃ front rest, rows = front ++ row :: rest ∧ value = .bigInt (Int64.ofNat (1 + front.length)) := by
  obtain ⟨⟨r, n⟩, hr, h⟩ := List.mem_map.mp h
  cases h
  obtain ⟨hn, hget⟩ := List.getElem?_eq_some_iff.mp (List.mk_mem_zipIdx_iff_getElem?.mp hr)
  refine ⟨rows.take n, rows.drop (n + 1), ?_, ?_⟩
  · rw [← hget, List.getElem_cons_drop, List.take_append_drop]
  · rw [List.length_take, Nat.min_eq_left (Nat.le_of_lt hn), Nat.add_comm]

/-- A row is ranked by the rows in the runs ahead of its own. -/
theorem mem_ranks {before : Nat} {runs : List (List Nat)} (h : (row, value) ∈ ranks before runs) :
    ∃ front run rest, runs = front ++ run :: rest ∧ row ∈ run ∧
      value = .bigInt (Int64.ofNat (1 + (before + front.flatten.length))) := by
  induction runs generalizing before with
  | nil => cases h
  | cons first runs ih =>
    rcases List.mem_append.mp h with h | h
    · obtain ⟨r, hr, h⟩ := List.mem_map.mp h
      cases h
      exact ⟨[], first, runs, rfl, hr, by rw [Nat.add_comm]; rfl⟩
    · obtain ⟨front, run, rest, rfl, hrun, hvalue⟩ := ih h
      refine ⟨first :: front, run, rest, rfl, hrun, ?_⟩
      rw [hvalue, List.flatten_cons, List.length_append, Nat.add_assoc]

/-- A row is ranked densely by the runs ahead of its own. -/
theorem mem_denseRanks {runs : List (List Nat)} (h : (row, value) ∈ denseRanks runs) :
    ∃ front run rest, runs = front ++ run :: rest ∧ row ∈ run ∧ value = .bigInt (Int64.ofNat (1 + front.length)) := by
  obtain ⟨⟨run, n⟩, hrun, h⟩ := List.mem_flatMap.mp h
  obtain ⟨r, hr, h⟩ := List.mem_map.mp h
  cases h
  obtain ⟨hn, hget⟩ := List.getElem?_eq_some_iff.mp (List.mk_mem_zipIdx_iff_getElem?.mp hrun)
  refine ⟨runs.take n, run, runs.drop (n + 1), ?_, hr, ?_⟩
  · rw [← hget, List.getElem_cons_drop, List.take_append_drop]
  · rw [List.length_take, Nat.min_eq_left (Nat.le_of_lt hn), Nat.add_comm]

theorem accumulate_append (argument : Option Column) (a : Accumulator) (rows more : List Nat) :
    accumulate argument a (rows ++ more) = (do accumulate argument (← accumulate argument a rows) more) :=
  List.foldlM_append

/-- A row has the aggregate of all rows up to the end of its frame. -/
theorem mem_runningAggregates {argument : Option Column} {a : Accumulator} {frames : List (List Nat)}
    {values : List RowValue} (h : runningAggregates argument a frames = .ok values) (hmem : (row, value) ∈ values) :
    ∃ front frame rest b, frames = front ++ frame :: rest ∧ row ∈ frame ∧
      accumulate argument a (front.flatten ++ frame) = .ok b ∧ value = b.value := by
  induction frames generalizing a values with
  | nil =>
    cases h
    cases hmem
  | cons first frames ih =>
    obtain ⟨b, hb, h⟩ := bind_eq_ok.mp h
    obtain ⟨rest, hrest, h⟩ := bind_eq_ok.mp h
    cases h
    rcases List.mem_append.mp hmem with hmem | hmem
    · obtain ⟨r, hr, hmem⟩ := List.mem_map.mp hmem
      cases hmem
      exact ⟨[], first, frames, b, rfl, hr, hb, rfl⟩
    · obtain ⟨front, frame, rest, c, rfl, hrow, hc, hvalue⟩ := ih hrest hmem
      refine ⟨first :: front, frame, rest, c, rfl, hrow, ?_, hvalue⟩
      rw [List.flatten_cons, List.append_assoc, accumulate_append, hb, ok_bind, hc]

end

end QueryEngine.WindowCall
