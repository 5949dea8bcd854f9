import QueryEngine.Proofs.Sort.Stable
import QueryEngine.Proofs.Window.Runs

/-! What window calls say of a row.

A call is a value for each row that only its partition and the order of the sort keys
decide: counts of the rows ahead of it, or an aggregate of the rows that do not come
after it (`WindowCall.declared`). In a partition that was put in order the rows ahead of
a row are those in front of it, and in front of its run of peers, so that the counts can
be read off there (`WindowCall.InOrder`). -/
namespace QueryEngine

instance (keys : List SortKey) (row : Nat → Row) (i j : Nat) : Decidable (SortKey.Before keys row i j) :=
  inferInstanceAs (Decidable (_ ∨ _))

namespace WindowCall

/-! ### The values of one row -/

section
variable (w : WindowCall) (rows : List Row)

/-- What rows of one partition have in common. -/
def keyOn (row : Row) : Key := Key.canonical (w.partitions.map fun e => (e.valueOn row).value)

/-- The rows at two places, by the sort keys. -/
def compareAt (i j : Nat) : Ordering := SortKey.compareRows w.orders (rows.getD i []) (rows.getD j [])

/-- The places of the rows in the partition of the row at `i`. -/
def partition (i : Nat) : List Nat :=
  (List.range rows.length).filter fun j => w.keyOn (rows.getD j []) = w.keyOn (rows.getD i [])

/-- The rows of the partition that come strictly before the row at `i`. -/
def strictlyBefore (i : Nat) : List Nat := (w.partition rows i).filter fun j => w.compareAt rows j i = .lt

/-- One more than the rows strictly before. -/
def rank (i : Nat) : Nat := 1 + (w.strictlyBefore rows i).length

/-- One more than the classes of peers strictly before; peers have the same values of the
sort keys. -/
def denseRank (i : Nat) : Nat :=
  1 + ((w.strictlyBefore rows i).map fun j => w.orders.map (SortKey.valueOn (rows.getD j []))).dedup.length

/-- One more than the rows strictly before and the peers that came earlier. -/
def rowNumber (i : Nat) : Nat :=
  1 + ((w.partition rows i).filter fun j => SortKey.Before w.orders (fun k => rows.getD k []) j i).length

/-- The rows that an aggregate is taken over: those not after the row, in order, or the
whole partition as it came when there are no sort keys. -/
def frame (i : Nat) : List Nat :=
  if w.orders.isEmpty then w.partition rows i
  else ((w.partition rows i).filter fun j => w.compareAt rows j i ≠ .gt).mergeSort fun j k => (w.compareAt rows j k).isLE

/-- What an aggregate takes on a row. -/
def argumentOn (row : Row) : Option Scalar := w.args.head?.map fun e => (e.valueOn row).value

/-- The value of the call in the row at `i`. -/
def declared (i : Nat) : Except QueryError Datum :=
  match w.function with
  | .rowNumber => .ok ⟨w.type, .bigInt (Int64.ofNat (w.rowNumber rows i))⟩
  | .rank => .ok ⟨w.type, .bigInt (Int64.ofNat (w.rank rows i))⟩
  | .denseRank => .ok ⟨w.type, .bigInt (Int64.ofNat (w.denseRank rows i))⟩
  | .aggregate f => do
    let a ← (w.frame rows i).foldlM (fun a j => a.update (w.argumentOn (rows.getD j []))) (Accumulator.start f w.type)
    return ⟨w.type, a.value⟩

end

/-- The rows as they came, each with the values of the calls behind it. -/
def extend (calls : List WindowCall) (rows : List Row) : Except QueryError (List Row) :=
  rows.zipIdx.mapM fun r => do return r.1 ++ (← calls.mapM fun w => w.declared rows r.2)

/-! ### Partitions in order -/

variable {w : WindowCall} {rows : List Row} {i : Nat}

theorem mem_partition {j : Nat} (h : j ∈ w.partition rows i) : j < rows.length :=
  List.mem_range.mp (List.mem_filter.mp h).1

theorem mem_partition_self (hi : i < rows.length) : i ∈ w.partition rows i :=
  List.mem_filter.mpr ⟨List.mem_range.mpr hi, decide_eq_true rfl⟩

/-- A partition is the partition of each of its rows. -/
theorem partition_eq_of_mem {j : Nat} (h : j ∈ w.partition rows i) : w.partition rows j = w.partition rows i := by
  have hkey := of_decide_eq_true (List.mem_filter.mp h).2
  rw [partition, partition, hkey]

theorem partition_increasing (w : WindowCall) (rows : List Row) (i : Nat) : (w.partition rows i).Pairwise (· < ·) :=
  List.pairwise_lt_range.filter _

instance (w : WindowCall) (rows : List Row) : Std.TransCmp (w.compareAt rows) :=
  have hrows : Std.TransCmp (SortKey.compareRows w.orders) := inferInstance
  { eq_swap := hrows.eq_swap, isLE_trans := hrows.isLE_trans }

/-- Only one list has some places in order, ties as they came. -/
theorem eq_of_increasing {cmp : Nat → Nat → Ordering} [Std.TransCmp cmp] {xs ys : List Nat} (hperm : xs.Perm ys)
    (hxs : xs.Pairwise fun j k => cmp j k = .lt ∨ cmp j k = .eq ∧ j < k)
    (hys : ys.Pairwise fun j k => cmp j k = .lt ∨ cmp j k = .eq ∧ j < k) : xs = ys := by
  refine hperm.eq_of_pairwise (fun j k _ _ hjk hkj => ?_) hxs hys
  have hswap : cmp k j = (cmp j k).swap := Std.OrientedCmp.eq_swap
  rcases hjk with hjk | ⟨hjk, hlt⟩ <;> rw [hswap, hjk] at hkj
  · simp at hkj
  · simp at hkj
    omega

/-- The partition of the row at `i`, put in order as the call's sort keys compare its rows. -/
structure InOrder (w : WindowCall) (rows : List Row) (cmp : Nat → Nat → Ordering) (i : Nat) (sorted : List Nat) :
    Prop where
  here : i ∈ sorted
  perm : sorted.Perm (w.partition rows i)
  increasing : sorted.Pairwise fun j k => cmp j k = .lt ∨ cmp j k = .eq ∧ j < k
  compare : ∀ j ∈ sorted, ∀ k ∈ sorted, w.compareAt rows j k = cmp j k

namespace InOrder
variable {cmp : Nat → Nat → Ordering} {sorted : List Nat} (h : w.InOrder rows cmp i sorted)
include h

/-- Rows of the partition that stand to the row at `i` as told. -/
theorem filter_perm (p : Ordering → Nat → Bool) :
    ((w.partition rows i).filter fun j => p (w.compareAt rows j i) j).Perm
      (sorted.filter fun j => p (cmp j i) j) := by
  have hsame : (sorted.filter fun j => p (cmp j i) j) = sorted.filter fun j => p (w.compareAt rows j i) j :=
    List.filter_congr fun j hj => by rw [h.compare j hj i h.here]
  rw [hsame]
  exact (h.perm.filter _).symm

variable [Std.TransCmp cmp]

theorem rowNumber_eq {front rest : List Nat} (hsplit : sorted = front ++ i :: rest) :
    w.rowNumber rows i = 1 + front.length := by
  have hcount := (h.filter_perm fun o j => decide (o = .lt ∨ o = .eq ∧ j < i)).length_eq
  have hincreasing := h.increasing
  rw [hsplit] at hincreasing
  obtain ⟨-, hbehind, hahead⟩ := List.pairwise_append.mp hincreasing
  have hfront (j : Nat) (hj : j ∈ front) := hahead j hj i (List.mem_cons_self ..)
  have hself : cmp i i = .eq := Std.ReflCmp.compare_self
  have hrest (j : Nat) (hj : j ∈ rest) : ¬(cmp j i = .lt ∨ cmp j i = .eq ∧ j < i) := by
    have hswap : cmp j i = (cmp i j).swap := Std.OrientedCmp.eq_swap
    rcases (List.pairwise_cons.mp hbehind).1 j hj with h | ⟨h, hlt⟩ <;> rw [hswap, h]
    · simp
    · simp
      omega
  rw [rowNumber]
  congr 1
  refine hcount.trans ?_
  rw [hsplit, List.filter_append, List.filter_eq_self.mpr fun j hj => decide_eq_true (hfront j hj),
    List.filter_cons_of_neg (by simp [hself]), List.filter_eq_nil_iff.mpr fun j hj => by simpa using hrest j hj,
    List.append_nil]

theorem runs : Runs cmp (sorted.splitBy fun j k => (cmp j k).isEq) :=
  runs_splitBy (h.increasing.imp fun h => by rcases h with h | ⟨h, _⟩ <;> rw [h] <;> rfl)

/-- Without sort keys the partition stayed as it was. -/
theorem sorted_eq (hunordered : w.orders = []) : sorted = w.partition rows i := by
  refine eq_of_increasing h.perm h.increasing ((partition_increasing w rows i).imp_of_mem fun hj hk hlt => .inr ⟨?_, hlt⟩)
  rw [← h.compare _ (h.perm.mem_iff.mpr hj) _ (h.perm.mem_iff.mpr hk), compareAt, hunordered]
  rfl

variable {front rest : List (List Nat)} {run : List Nat}
  (hsplit : (sorted.splitBy fun j k => (cmp j k).isEq) = front ++ run :: rest) (hrun : i ∈ run)
include hsplit hrun

theorem strictlyBefore_perm : (w.strictlyBefore rows i).Perm front.flatten := by
  have hruns : Runs cmp (front ++ run :: rest) := hsplit ▸ h.runs
  rw [← hruns.filter_lt hrun, ← hsplit, List.flatten_splitBy]
  exact h.filter_perm fun o _ => decide (o = .lt)

theorem rank_eq : w.rank rows i = 1 + front.flatten.length := by
  rw [rank, (h.strictlyBefore_perm hsplit hrun).length_eq]

theorem denseRank_eq : w.denseRank rows i = 1 + front.length := by
  have hruns : Runs cmp (front ++ run :: rest) := hsplit ▸ h.runs
  have hfront : Runs cmp front := ⟨fun a ha => hruns.full a (List.mem_append_left _ ha),
    fun a ha => hruns.peers a (List.mem_append_left _ ha), (List.pairwise_append.mp hruns.before).1⟩
  have hin (j : Nat) (hj : j ∈ front.flatten) : j ∈ sorted := by
    rw [← List.flatten_splitBy (fun j k => (cmp j k).isEq) sorted, hsplit, List.flatten_append]
    exact List.mem_append_left _ hj
  have hclasses : ((w.strictlyBefore rows i).map fun j => w.orders.map (SortKey.valueOn (rows.getD j []))).dedup.length =
      front.length := by
    rw [(((h.strictlyBefore_perm hsplit hrun).map _).dedup).length_eq]
    refine hfront.length_dedup fun j hj k hk => ?_
    rw [List.map_inj_left, ← SortKey.compareRows_eq, ← h.compare j (hin j hj) k (hin k hk)]
    exact Iff.rfl
  rw [denseRank, hclasses]

theorem frame_eq (hordered : w.orders.isEmpty = false) : w.frame rows i = front.flatten ++ run := by
  rw [frame, if_neg (Bool.eq_false_iff.mp hordered)]
  have hupTo : front.flatten ++ run ++ rest.flatten = sorted := by
    rw [← List.flatten_splitBy (fun j k => (cmp j k).isEq) sorted, hsplit, List.flatten_append,
      List.flatten_cons, List.append_assoc]
  have hperm : ((w.partition rows i).filter fun j => w.compareAt rows j i ≠ .gt).Perm (front.flatten ++ run) := by
    have hruns : Runs cmp (front ++ run :: rest) := hsplit ▸ h.runs
    rw [← hruns.filter_ne_gt hrun, ← hsplit, List.flatten_splitBy]
    exact h.filter_perm fun o _ => decide (o ≠ .gt)
  refine eq_of_increasing ((List.mergeSort_perm ..).trans hperm)
    (Rows.mergeSort_increasing ((partition_increasing w rows i).filter _)) ?_
  have hincreasing := h.increasing
  rw [← hupTo] at hincreasing
  refine (List.pairwise_append.mp hincreasing).1.imp_of_mem fun hj hk hjk => ?_
  rw [h.compare _ (hupTo ▸ List.mem_append_left _ hj) _ (hupTo ▸ List.mem_append_left _ hk)]
  exact hjk

omit hsplit in
/-- What an aggregate was taken over when it is written to the row at `i`. -/
theorem upTo_eq_frame
    (hsplit : (if w.orders.isEmpty then [sorted] else sorted.splitBy fun j k => (cmp j k).isEq) = front ++ run :: rest) :
    front.flatten ++ run = w.frame rows i := by
  cases hordered : w.orders.isEmpty with
  | false =>
    rw [hordered, if_neg Bool.false_ne_true] at hsplit
    exact (h.frame_eq hsplit hrun hordered).symm
  | true =>
    rw [hordered, if_pos rfl] at hsplit
    rw [frame, if_pos hordered, ← h.sorted_eq (List.isEmpty_iff.mp hordered)]
    cases front with
    | nil =>
      cases hsplit
      rfl
    | cons first front => simp at hsplit

end InOrder

/-- Row numbers count a partition through. -/
theorem rowNumbers_perm (w : WindowCall) (rows : List Row) (i : Nat) :
    ((w.partition rows i).map (w.rowNumber rows)).Perm (List.range' 1 (w.partition rows i).length) := by
  generalize hsorted : ((w.partition rows i).mergeSort fun j k => (w.compareAt rows j k).isLE) = sorted
  have hperm : sorted.Perm (w.partition rows i) := hsorted ▸ List.mergeSort_perm ..
  have hincreasing : sorted.Pairwise fun j k => w.compareAt rows j k = .lt ∨ w.compareAt rows j k = .eq ∧ j < k :=
    hsorted ▸ Rows.mergeSort_increasing (partition_increasing w rows i)
  have hnumbers : sorted.map (w.rowNumber rows) = List.range' 1 sorted.length := by
    refine List.ext_getElem (by simp) fun k hk _ => ?_
    rw [List.length_map] at hk
    have hsplit : sorted = sorted.take k ++ sorted[k] :: sorted.drop (k + 1) := by
      rw [List.getElem_cons_drop, List.take_append_drop]
    have hin : sorted[k] ∈ w.partition rows i := hperm.mem_iff.mp (List.getElem_mem hk)
    have horder : w.InOrder rows (w.compareAt rows) sorted[k] sorted :=
      ⟨List.getElem_mem hk, partition_eq_of_mem hin ▸ hperm, hincreasing, fun _ _ _ _ => rfl⟩
    rw [List.getElem_map, List.getElem_range', horder.rowNumber_eq hsplit, List.length_take]
    omega
  rw [← hperm.length_eq, ← hnumbers]
  exact (hperm.map _).symm

end WindowCall
end QueryEngine
