import QueryEngine.Proofs.Plan.Capacity
import QueryEngine.Proofs.Plan.WellFormed
import QueryEngine.Proofs.Pull.Deletion
import QueryEngine.Proofs.Pull.PassingPairs

/-! What a deletion deletes.

A deletion deletes the rows of one chunk before it fetches the next. So what its input
reads of the table later may depend on what was deleted, and the rows deleted may be
others than those that the input names when it is run alone. They are the same where the
input no longer reads the table once it has given a row, or where its last column names
the very rows that it has read (`Plan.settled`). -/
namespace QueryEngine

namespace Plan

/-- A plan that reads no row of the table any more once it has handed out a row. -/
def detached (t : Provider) : Plan → Bool
  | source _ _ | empty _ | order _ _ | window _ _ | aggregate _ _ _ _ => true
  | scan p _ _ => p.id ≠ t.id
  | filter _ input | project _ _ input | prune _ input | limit _ _ input => input.detached t
  | cross l _ | join _ _ l _ => l.detached t
  | delete _ _ => false

/-- A plan whose column `j` shows the ids of the rows that it reads of the table. -/
def names (t : Provider) : Nat → Plan → Bool
  | j, scan p refs _ => p.id = t.id && refs[j]? = some .rowId
  | j, filter _ input | j, prune _ input | j, limit _ _ input => input.names t j
  | j, project exprs _ input =>
    match exprs[j]? with
    | some (.column i _) => input.names t i
    | _ => false
  | j, cross l _ | j, join _ _ l _ => j < l.types.length && l.names t j
  | _, _ => false

/-- A plan to which it makes no difference that the rows it names are deleted meanwhile. -/
def settled (t : Provider) (p : Plan) : Bool := p.detached t || p.names t (p.types.length - 1)

end Plan

/-- A node that deletes nothing and reads tables that `t` shares its mask with. -/
def LogicalNode.Reads (t : Provider) : LogicalNode → Prop
  | .delete _ => False
  | .get p _ => p.Beside t
  | _ => True

/-- All rows of the table have been passed. -/
def PastEnd (t : Provider) (k : Nat) (_ : Row) : Prop := t.table.rows < k

/-- Column `j` shows the id of a row before row `k`, or none. -/
def NamesBefore (j k : Nat) (row : Row) : Prop :=
  ∀ id : Int64, (row[j]?.bind fun d => d.value.toInt64?) = some id → id.toInt.toNat < k

theorem toNat_ofNat_le (i : Nat) : (Int64.ofNat i).toInt.toNat ≤ i := by
  rw [Int64.toInt_ofNat', show Int64.size = 2 ^ 64 from rfl, Int.bmod_def]
  split <;> omega

/-- A scan shows a row's id where it was asked for. -/
theorem namesBefore_rowOf {p : Provider} {refs : List ColumnRef} {j k i : Nat} (hj : refs[j]? = some .rowId) (hi : i < k) :
    NamesBefore j k (p.rowOf refs i) := by
  intro id hid
  rw [Provider.rowOf, List.getElem?_map, hj] at hid
  cases hid
  exact Nat.lt_of_le_of_lt (toNat_ofNat_le i) hi

theorem namesBefore_append {j k : Nat} {l r : Row} (hj : j < l.length) (h : NamesBefore j k l) : NamesBefore j k (l ++ r) := by
  intro id hid
  rw [List.getElem?_append_left hj] at hid
  exact h id hid

theorem namesBefore_take {j k : Nat} {row : Row} (n : Nat) (h : NamesBefore j k row) : NamesBefore j k (row.take n) := by
  intro id hid
  rw [List.getElem?_take] at hid
  split at hid
  · exact h id hid
  · cases hid

theorem namesBefore_project {j i k : Nat} {exprs : List Expr} {type : SqlType} {row : Row}
    (hj : exprs[j]? = some (.column i type)) (h : NamesBefore i k row) : NamesBefore j k (exprs.map (Expr.valueOn row)) := by
  intro id hid
  rw [List.getElem?_map, hj] at hid
  refine h id ?_
  cases hrow : row[i]? with
  | some d =>
    have hvalue : Expr.valueOn row (.column i type) = d := Expr.valueOn_of_ok (by rw [Expr.onRow, hrow])
    rw [Option.map_some, hvalue] at hid
    exact hid
  | none =>
    have hvalue : Expr.valueOn row (.column i type) = default := by rw [Expr.valueOn, Expr.onRow, hrow]
    rw [Option.map_some, hvalue] at hid
    cases hid

namespace Plan
variable {t : Provider} {config : Config} {p : Plan}

theorem Built.mono {P Q : LogicalNode → Prop} (hPQ : ∀ n, P n → Q n) (h : Built P p) : Built Q p := by
  induction h with
  | node hn _ h ih => exact .node (hPQ _ hn) ih h

/-- A plan that deletes nothing never changes which rows are deleted. -/
theorem Built.steady (h : Built (LogicalNode.Reads t) p) (config : Config) :
    (p.operator config).Steady config.capacity (p.operator config).start.cells := by
  intro masks
  let T : Terms := ⟨config.capacity, False, False, (· = masks)⟩
  have hadmits (n : LogicalNode) (hn : n.Reads t) : Admits T (Session.ofLimit? none) n := by
    cases n with
    | get => exact fun ht => ht.elim
    | cross => exact id
    | delete => exact hn.elim
    | _ => trivial
  exact ⟨_, (h.mono hadmits).gives rfl rfl⟩

/-- What a plan has passed of the table while it is read. -/
theorem Built.passed (config : Config) (h : Built (LogicalNode.Reads t) p) :
    (p.detached t = true → Passed t (PastEnd t) (p.operator config) 0 (p.operator config).start.cells) ∧
      ∀ j, p.names t j = true → Passed t (NamesBefore j) (p.operator config) 0 (p.operator config).start.cells := by
  induction h with
  | @node n inputs types p hn hinputs h ih =>
    cases LogicalNode.compiled_of_compileOver h with
    | get htypes =>
      constructor
      · intro hother
        have hother : _ ≠ t.id := of_decide_eq_true hother
        exact Operator.passed_scan (length_of_mapM htypes).symm hn (fun hid => absurd hid hother) fun _ _ _ h => h
      · intro j hj
        obtain ⟨hid, hj⟩ := Bool.and_eq_true_iff.mp hj
        exact Operator.passed_scan (length_of_mapM htypes).symm hn
          (fun _ k i hi => namesBefore_rowOf (of_decide_eq_true hj) hi) fun hne => absurd (of_decide_eq_true hid) hne
    | empty => exact ⟨fun _ => Operator.passed_empty types, fun _ _ => Operator.passed_empty types⟩
    | filter =>
      obtain ⟨hdetached, hnames⟩ := ih _ (List.mem_cons_self ..)
      exact ⟨fun h => Operator.passed_filter _ (hdetached h), fun j h => Operator.passed_filter _ (hnames j h)⟩
    | project _ htypes =>
      obtain ⟨hdetached, hnames⟩ := ih _ (List.mem_cons_self ..)
      refine ⟨fun h => Operator.passed_project (length_of_mapM htypes).symm (fun _ _ h => h) (hdetached h), fun j hj => ?_⟩
      rw [names] at hj
      split at hj
      · rename_i i _ hget
        exact Operator.passed_project (length_of_mapM htypes).symm (fun _ _ h => namesBefore_project hget h) (hnames i hj)
      · cases hj
    | @aggregate _ _ _ _ keyTypes calls =>
      exact ⟨fun _ => Operator.passed_aggregate _ keyTypes calls (fun _ _ h => h)
        ((hinputs _ (List.mem_cons_self ..)).steady config), nofun⟩
    | @window _ _ _ calls =>
      exact ⟨fun _ => Operator.passed_window calls (fun _ _ h => h) ((hinputs _ (List.mem_cons_self ..)).steady config),
        nofun⟩
    | @order keys =>
      exact ⟨fun _ => Operator.passed_order keys (fun _ _ h => h) ((hinputs _ (List.mem_cons_self ..)).steady config), nofun⟩
    | limit =>
      obtain ⟨hdetached, hnames⟩ := ih _ (List.mem_cons_self ..)
      exact ⟨fun h => Operator.passed_limit _ _ (hdetached h), fun j h => Operator.passed_limit _ _ (hnames j h)⟩
    | delete => exact hn.elim
    | prune =>
      obtain ⟨hdetached, hnames⟩ := ih _ (List.mem_cons_self ..)
      exact ⟨fun h => Operator.passed_prune _ (fun _ _ h => h) (hdetached h), fun j h =>
        Operator.passed_prune _ (fun _ _ h => namesBefore_take _ h) (hnames j h)⟩
    | @cross l r =>
      obtain ⟨hdetached, hnames⟩ := ih l (List.mem_cons_self ..)
      have hright := (hinputs r (List.mem_cons_of_mem _ (List.mem_cons_self ..))).steady config
      refine ⟨fun h => Operator.passed_cross (fun _ _ _ _ h => h) (hdetached h) hright, fun j hj => ?_⟩
      obtain ⟨hlt, hj⟩ := Bool.and_eq_true_iff.mp hj
      refine Operator.passed_cross (fun _ left _ hlen h => namesBefore_append ?_ h) (hnames j hj) hright
      rw [hlen, operator_types]
      exact of_decide_eq_true hlt
    | @join kind on keys l r _ _ hkeys =>
      obtain ⟨hdetached, hnames⟩ := ih l (List.mem_cons_self ..)
      have hright := (hinputs r (List.mem_cons_of_mem _ (List.mem_cons_self ..))).steady config
      let J : Operator.JoinTerms := ⟨kind, joinKeys keys, l.types, r.types, on.map (commonType l.types r.types), []⟩
      have hjoin {W : Nat → Row → Prop}
          (hW : ∀ k (left right : Row), left.length = l.types.length → W k left → W k (left ++ right))
          (hleft : Passed t W (l.operator config) 0 (l.operator config).start.cells) :=
        Operator.passed_join (J := J) (operator_types config l) (operator_types config r) (keyOn_left hkeys).2
          (keyOn_right hkeys).2 hW hleft hright
      refine ⟨fun h => hjoin (fun _ _ _ _ h => h) (hdetached h), fun j hj => ?_⟩
      obtain ⟨hlt, hj⟩ := Bool.and_eq_true_iff.mp hj
      exact hjoin (fun _ _ _ hlen h => namesBefore_append (hlen ▸ of_decide_eq_true hlt) h) (hnames j hj)

theorem Built.settled (config : Config) (h : Built (LogicalNode.Reads t) p) (hsettled : p.settled t = true) :
    ∃ W, Passed t W (p.operator config) 0 (p.operator config).start.cells ∧
      NamesPassed t (p.operator config).types W := by
  obtain ⟨hdetached, hnames⟩ := h.passed config
  rcases Bool.or_eq_true_iff.mp hsettled with h | h
  · exact ⟨_, hdetached h, fun k row id _ hW _ hlt => Nat.lt_trans hlt hW⟩
  · refine ⟨_, hnames _ h, fun k row id hlen hW hlast _ => hW id ?_⟩
    rw [lastId, List.getLast?_eq_getElem?, hlen, operator_types] at hlast
    exact hlast

end Plan

/-- What a deletion is compiled to. -/
theorem LogicalPlan.compile_delete {t : Provider} {q : LogicalPlan} {types : List SqlType} {p plan : Plan}
    (hp : q.compile = .ok p) (h : compile (.node (.delete t) [q] types) = .ok plan) : plan = .delete t p := by
  rw [compile] at h
  split at h
  · cases h
  obtain ⟨plans, hplans, h⟩ := bind_eq_ok.mp h
  obtain ⟨plan', hplan, h⟩ := bind_eq_ok.mp h
  split at h
  · cases h
  cases h
  rw [compileAll, hp, ok_bind, compileAll] at hplans
  cases hplans
  have hplan : Plan.ofDelete t p = .ok plan := hplan
  unfold Plan.ofDelete at hplan
  split at hplan
  · cases hplan
    rfl
  · cases hplan

/-- A deletion is two pulls: the answer, and nothing more. -/
theorem Plan.run_delete_ok {config : Config} {t : Provider} {p : Plan} {s : Session} {stats : Plan.Stats}
    (hok : ((Plan.delete t p).run config Collection.consume (Collection.ofTypes [.bigInt]) s).result = .ok stats) :
    ∃ rounds total g,
      Operator.deleteChunks t (p.operator config) rounds 0
          ⟨(Plan.delete t p).start config |>.cell, (p.start config).cells, s, Chunk.blank [.bigInt] config.capacity⟩ =
        .ok total g ∧
      (∀ u, ((Plan.delete t p).run config Collection.consume (Collection.ofTypes [.bigInt]) s).session.mask u =
        g.session.mask u) ∧
      (g.out = Chunk.blank [.bigInt] config.capacity →
        ((Plan.delete t p).run config Collection.consume (Collection.ofTypes [.bigInt]) s).consumer.Holds [.bigInt]
          [[⟨.bigInt, .bigInt (Int64.ofNat total)⟩]]) := by
  unfold Plan.run at hok ⊢
  have hrounds : ((Plan.delete t p).operator config).rowsLeft ((Plan.delete t p).start config) + 1 = 2 := rfl
  simp only [hrounds] at hok ⊢
  obtain ⟨f, hpull, hround⟩ := Plan.pullAll_succ_ok hok
  obtain ⟨rounds, total, g, hdeleted, hsession, hprogress, hanswer⟩ := Operator.pull_delete_ok rfl rfl hpull
  refine ⟨rounds, total, g, hdeleted, ?_⟩
  rcases hround with ⟨he, hround⟩ | ⟨more, bytes, next, happend, hround⟩
  · rw [hround]
    refine ⟨fun u => by rw [← hsession]; rfl, fun hblank => ?_⟩
    obtain ⟨hsound, -, hrows⟩ := hanswer hblank
    rw [hsound.rows_eq_nil_iff.mpr he] at hrows
    cases hrows
  · rw [hround] at hok ⊢
    obtain ⟨f', hpull', hround'⟩ := Plan.pullAll_succ_ok hok
    obtain ⟨hsession', he'⟩ := Operator.pull_deleted_ok hprogress hpull'
    rcases hround' with ⟨_, hround'⟩ | ⟨_, _, _, _, hround'⟩
    · rw [hround']
      refine ⟨fun u => by rw [← hsession, ← hsession']; rfl, fun hblank => ?_⟩
      obtain ⟨hsound, htyped, hrows⟩ := hanswer hblank
      have hholds := (Collection.holds_ofTypes [.bigInt]).append hsound htyped happend
      rw [hrows] at hholds
      exact hholds
    · rw [hround'] at hok
      cases hok

namespace Context
variable {c : Context} {q : LogicalPlan} {p : Plan} {t : Provider} {types : List SqlType} {s s' : Session}
  {result : QueryResult}

/-- Over an input that does not read again what it names, a deletion deletes the rows
that the input names when it is run alone in the session as it was, and counts those of
them that were live. -/
theorem execute_delete_settled (hp : q.compile = .ok p) (hnodes : ∀ n ∈ q.nodes, n.Reads t) (hfits : s.Fits t)
    (hsettled : p.settled t = true) (h : c.execute (.node (.delete t) [q] types) s = (.ok result, s')) :
    ∃ n chunks, (p.operator c.config).pullTimes n (p.start c.config) s = some chunks ∧
      chunks.getLast?.any Chunk.isEmpty = true ∧
      (∀ i, (s'.mask t).isLive i = ((s.mask t).isLive i && !namedBy (Chunk.lastIds chunks) i)) ∧
      result.chunks.flatMap Chunk.rows = [[⟨.bigInt, .bigInt (Int64.ofNat
        ((List.range t.table.rows).filter fun i => (s.mask t).isLive i && namedBy (Chunk.lastIds chunks) i).length)⟩]] := by
  obtain ⟨plan, hcompile⟩ := compiled_of_execute (congrArg Prod.fst h)
  rw [execute_of_compile hcompile] at h
  obtain rfl := LogicalPlan.compile_delete hp hcompile
  obtain ⟨hresult, hs'⟩ := Prod.mk.inj h
  obtain ⟨stats, hstats, rfl⟩ := map_eq_ok.mp hresult
  obtain ⟨rounds, total, g, hdeleted, hmasks, hanswer⟩ := Plan.run_delete_ok hstats
  obtain ⟨W, hpassed, hW⟩ := (Plan.built_of_compile q hnodes hp).settled c.config hsettled
  obtain ⟨work, hwork⟩ := p.pull_eq_answer c.config
  rw [← p.operator_types c.config] at hwork
  obtain ⟨n, chunks, hchunks, hgone⟩ := Operator.deleteChunks_alone hwork hW rfl hpassed (SameFrom.refl t s.masks) hfits
    hdeleted
  have hlive (i : Nat) : (s'.mask t).isLive i = ((s.mask t).isLive i && !namedBy (Chunk.lastIds chunks) i) := by
    rw [← hs', ← hgone.gone i]
    exact congrArg (Mask.isLive · i) (hmasks t)
  refine ⟨n, chunks, hchunks, hgone.ended, hlive, ?_⟩
  have hcount : total = ((List.range t.table.rows).filter fun i =>
      (s.mask t).isLive i && namedBy (Chunk.lastIds chunks) i).length := by
    have hfewer := Mask.live_of_named (hgone.fits.trans hfits.symm) hgone.gone
    rw [hfits] at hfewer
    have hcounted : (s.mask t).live + 0 = total + (g.session.mask t).live := hgone.counted
    have hsame : (s.mask t).live = (g.session.mask t).live + _ := hfewer
    omega
  rw [← hcount]
  exact (hanswer hgone.out).listed

/-- One row at a time: the rows whose id is the value of a row are the second, and twice
the third. -/
theorem execute_delete_settled_join :
    let t : Provider := ⟨0, ⟨"t", [.ofInts [1, 2, 2]], 3, by decide⟩, 0⟩
    let q : LogicalPlan := .node (.project [.column 0 .bigInt])
      [.node (.join .inner [(.column 0 .bigInt, .column 0 .bigInt)])
        [.node (.get t [.rowId]) [] [.bigInt], .node (.get t [.column 0]) [] [.bigInt]] [.bigInt, .bigInt]] [.bigInt]
    let c : Context := ⟨⟨1, none, true⟩, [t]⟩
    ∃ result s' p n chunks, c.execute (.node (.delete t) [q] [.bigInt]) c.session = (.ok result, s') ∧
      result.chunks.flatMap Chunk.rows = [[⟨.bigInt, .bigInt 2⟩]] ∧ q.compile = .ok p ∧
      (p.operator c.config).pullTimes n (p.start c.config) c.session = some chunks ∧
      (List.range 3).map (namedBy (Chunk.lastIds chunks)) = [false, true, true] := by
  intro t q c
  have hrows : (c.execute (.node (.delete t) [q] [.bigInt]) c.session).1.toOption.map
      (fun r => r.chunks.flatMap Chunk.rows) = some [[⟨.bigInt, .bigInt 2⟩]] := by
    decide +kernel
  have hlive : (List.range 3).map ((c.execute (.node (.delete t) [q] [.bigInt]) c.session).2.mask t).isLive =
      [true, false, false] := by
    decide +kernel
  cases hran : c.execute (.node (.delete t) [q] [.bigInt]) c.session with
  | mk answer s' =>
  rw [hran] at hrows hlive
  obtain ⟨result, hresult, hcount⟩ := Option.map_eq_some_iff.mp hrows
  obtain rfl := toOption_eq_some.mp hresult
  let p : Plan := .project [.column 0 .bigInt] [.bigInt]
    (.join .inner [(.column 0 .bigInt, .column 0 .bigInt)] (.scan t [.rowId] [.bigInt]) (.scan t [.column 0] [.bigInt]))
  have hcompile : q.compile = .ok p := rfl
  have hnodes (n : LogicalNode) (hn : n ∈ q.nodes) : n.Reads t := by
    have hn : n ∈ [.project [.column 0 .bigInt], .join .inner [(.column 0 .bigInt, .column 0 .bigInt)],
      .get t [.rowId], .get t [.column 0]] := hn
    simp only [List.mem_cons, List.not_mem_nil, or_false] at hn
    rcases hn with rfl | rfl | rfl | rfl
    · trivial
    · trivial
    · exact fun _ => rfl
    · exact fun _ => rfl
  have hsettled : p.settled t = true := by decide
  obtain ⟨n, chunks, hchunks, -, hgone, -⟩ :=
    execute_delete_settled (s := c.session) hcompile hnodes (Session.fits_ofLimit? none t) hsettled hran
  refine ⟨result, s', p, n, chunks, rfl, hcount, hcompile, hchunks, ?_⟩
  have hstart : ∀ i < 3, (c.session.mask t).isLive i = true := by decide
  have hnamed : ∀ i < 3, namedBy (Chunk.lastIds chunks) i = !(s'.mask t).isLive i := fun i hi => by
    rw [hgone i, hstart i hi, Bool.true_and, Bool.not_not]
  have hall : (List.range 3).map (namedBy (Chunk.lastIds chunks)) =
      ((List.range 3).map (s'.mask t).isLive).map fun live => !live := by
    rw [List.map_map]
    exact List.map_congr_left fun i hi => hnamed i (List.mem_range.mp hi)
  rw [hall, hlive]
  rfl

/-- Every row joined with the one behind it, of which the second input tells the id: run
alone, the input names the second row and the third. Read one row at a time by a deletion
it names the second, which is deleted before it is read, and so never the third. -/
theorem execute_delete_trailing :
    let t : Provider := ⟨0, ⟨"t", [.ofInts [0, 1, 2]], 3, by decide⟩, 0⟩
    let next : Expr := .binary (.column 0 .bigInt) (.arithmetic .add) (.literal (.bigInt 1))
    let q : LogicalPlan := .node (.join .inner [(next, .column 0 .bigInt)])
      [.node (.get t [.rowId]) [] [.bigInt], .node (.get t [.rowId]) [] [.bigInt]] [.bigInt, .bigInt]
    let p : Plan := .join .inner [(next, .column 0 .bigInt)] (.scan t [.rowId] [.bigInt]) (.scan t [.rowId] [.bigInt])
    let c : Context := ⟨⟨1, none, true⟩, [t]⟩
    q.compile = .ok p ∧
    ((p.operator c.config).pullTimes 3 (p.start c.config) c.session).map (fun chunks =>
      (chunks.map Chunk.isEmpty, Chunk.lastIds chunks)) = some ([false, false, true], [1, 2]) ∧
    (c.execute (.node (.delete t) [q] [.bigInt]) c.session).1.toOption.map (fun r => r.chunks.flatMap Chunk.rows) =
      some [[⟨.bigInt, .bigInt 1⟩]] ∧
    (List.range 3).map ((c.execute (.node (.delete t) [q] [.bigInt]) c.session).2.mask t).isLive = [true, false, true] := by
  intro t next q p c
  refine ⟨rfl, ?_, ?_, ?_⟩
  · decide +kernel
  · decide +kernel
  · decide +kernel

end Context
end QueryEngine
