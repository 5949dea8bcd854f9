import QueryEngine.Proofs.Pull.HaltingBuffered
import QueryEngine.Proofs.Pull.SureJoin

/-! Operators with two inputs halt.

The right input halts from its fresh state and is read to its end once. A cross product
then has a chunk of pairs for each of its rows and every left row; a join is owed no more
than a pair for each right row and one besides, for every left row. Whatever a pull of a
join does not hand out it goes on being owed, so a left chunk is fetched only when nothing
is, and that takes a row away from the left input. -/
namespace QueryEngine

/-! ### Right sides of joins -/

namespace JoinSide
variable {s : JoinSide} {n : Nat}

/-- No key has more rows than so many. -/
def Within (s : JoinSide) (n : Nat) : Prop := ∀ k rows, s.index.get? k = some rows → rows.length ≤ n

/-- What a side with one more row has under a key: what it had, or that row behind it. -/
theorem get?_addRow_cases {row : Nat} {key : Option Key} {k : Key} {rows : List Nat}
    (h : (s.addRow row key).index.get? k = some rows) :
    s.index.get? k = some rows ∨ ∃ before, rows = before ++ [row] ∧ (before = [] ∨ s.index.get? k = some before) := by
  cases key with
  | none => exact .inl h
  | some key =>
    have hget : (s.index.addRow key row).get? k = some rows := h
    rw [KeyMap.get?_addRow] at hget
    split at hget
    · cases hget
      refine .inr ⟨_, rfl, ?_⟩
      cases s.index.get? k with
      | none => exact .inl rfl
      | some before => exact .inr rfl
    · exact .inl hget

theorem within_addRow (h : s.Within n) (row : Nat) (key : Option Key) : (s.addRow row key).Within (n + 1) := by
  intro k rows hrows
  rcases get?_addRow_cases hrows with hbefore | ⟨before, rfl, rfl | hbefore⟩
  · exact Nat.le_succ_of_le (h k rows hbefore)
  · exact Nat.le_add_left 1 n
  · rw [List.length_append, List.length_singleton]
    exact Nat.succ_le_succ (h k before hbefore)

theorem addRow_rows (s : JoinSide) (row : Nat) (key : Option Key) : (s.addRow row key).rows = s.rows := by
  cases key <;> rfl

/-- A side of `count` rows, that are added one by one. -/
theorem ofColumns_inTime (keys : List Expr) (columns : List Column) (count : Nat) :
    Yields Failure.InTime (ofColumns keys columns count) fun side => side.rows = count ∧ side.Counted := by
  have hrows (keyColumns : List Column) (rows : List Nat) {n : Nat} (side : JoinSide) (hside : side.Within n) :
      Yields Failure.InTime
        (rows.foldlM (fun s row => do return s.addRow row (← Key.joining? keyColumns row)) side : Except Failure JoinSide)
        fun t => t.rows = side.rows ∧ t.Within (n + rows.length) := by
    induction rows generalizing side n with
    | nil => exact ⟨rfl, hside⟩
    | cons row rows ih =>
      rw [List.foldlM_cons]
      have hone : Yields Failure.InTime
          (do return side.addRow row (← Key.joining? keyColumns row) : Except Failure JoinSide) fun t =>
            t.rows = side.rows ∧ t.Within (n + 1) :=
        (Yields.inTime _).bind fun key _ => ⟨addRow_rows side row key, within_addRow hside row key⟩
      refine hone.bind fun t ⟨ht, hwithin⟩ => (ih t hwithin).mono fun u ⟨hu, hwithin'⟩ => ⟨hu.trans ht, ?_⟩
      rw [List.length_cons, ← Nat.add_assoc, Nat.add_right_comm]
      exact hwithin'
  have hnone : JoinSide.Within ⟨columns, count, .empty, false⟩ 0 := fun k rows h => (by cases h)
  unfold ofColumns
  refine .ite (fun _ => ⟨rfl, fun k rows h => (by cases h)⟩) fun _ => (Yields.inTime _).bind fun input _ => ?_
  refine .bind (.mapM_inTime keys fun e => e.evaluate_inTime _) fun keyColumns _ => ?_
  refine (hrows keyColumns (List.range count) _ hnone).mono fun side ⟨hside, hwithin⟩ => ⟨hside, fun k rows h => ?_⟩
  have hle := hwithin k rows h
  rw [List.length_range, Nat.zero_add] at hle
  rw [hside]
  exact hle

end JoinSide

/-! ### Results of joins -/

namespace JoinResult
variable {chunk c : Chunk}

theorem semiOrAnti_halts (found : List Bool) (anti : Bool) (hc : c.Counted) :
    Halts Chunk.Counted (semiOrAnti chunk found anti) c fun _ d => d.count ≤ chunk.count := by
  refine .liftQuery_bind hc fun _ hflags => (Filling.putAll_halts 0 _ hc).bind fun _ d _ _ => ?_
  refine .of_ok rfl (Chunk.counted_select d _) ?_
  have hlength : found.length = chunk.count := by
    unfold checkFlags at hflags
    split at hflags
    · assumption
    · cases hflags
  calc (((chunk.activeRows.zip found).filter fun row => row.2 ≠ anti).map Prod.fst).length
      = ((chunk.activeRows.zip found).filter fun row => row.2 ≠ anti).length := List.length_map _
    _ ≤ (chunk.activeRows.zip found).length := List.length_filter_le _ _
    _ ≤ found.length := by rw [List.length_zip]; exact Nat.min_le_right _ _
    _ = chunk.count := hlength

theorem padded_halts (rightTypes : List SqlType) (hchunk : chunk.Counted) (hc : c.Counted) :
    Halts Chunk.Counted (padded chunk rightTypes) c fun _ d => d.count ≤ chunk.count := by
  refine (Filling.putAll_halts 0 _ hc).bind fun _ d hd _ => (Filling.putAll_halts _ _ hd).bind fun _ e _ _ => ?_
  exact .of_ok rfl (hchunk.setCountFrom e) (Nat.le_refl _)

theorem marked_halts (keys : List HostArray) (found : List Bool) (rightHasNull : Bool) (hchunk : chunk.Counted)
    (hc : c.Counted) :
    Halts Chunk.Counted (marked keys chunk found rightHasNull) c fun _ d => d.count ≤ chunk.count := by
  have hanswer (c : Chunk) (hc : c.Counted) : Halts Chunk.Counted (do
      Filling.putAll 0 chunk.columns
      if !chunk.activeWithin chunk.physicalRows then throw .crash
      let ms := marks keys rightHasNull chunk.physicalRows (chunk.activeRows.zip found)
      Filling.put chunk.columns.length (Column.ofBooleans ms)
      modify fun result => result.setCountFrom chunk : Filling Unit) c fun _ d => d.count ≤ chunk.count := by
    refine (Filling.putAll_halts 0 _ hc).bind fun _ d hd _ => .ite (fun _ => .of_error rfl hd trivial) fun _ => ?_
    exact (Filling.put_halts _ _ hd).bind fun _ e _ _ => .of_ok rfl (hchunk.setCountFrom e) (Nat.le_refl _)
  unfold marked
  refine .liftQuery_bind hc fun _ _ => ?_
  dsimp only
  cases keys.find? fun k => decide (k.size ≠ chunk.physicalRows) with
  | some k => exact .of_error rfl hc trivial
  | none => exact hanswer c hc

end JoinResult

namespace Operator
open Pull
variable {config : Config} {left right : Operator} {f : Frame}

/-! ### The right input -/

theorem Halting.drainRight {α : Type} {finish : Collection → Pull α} {Q : α → Prop} (h : right.Halting) (hf : f.Counted)
    (hfinish : ∀ (buffered : Collection) (g : Frame), g.Counted → buffered.count ≤ right.rowsLeft right.start →
      Halts Frame.Counted (finish buffered) g fun a k => Q a ∧ Booked g k) :
    Halts Frame.Counted (drainRight right finish) f fun a g => Q a ∧ g.out = f.out ∧ g.below = f.below := by
  let fresh : Frame := { f with below := right.start.cells }
  have hfresh : fresh.Counted := ⟨hf.out, hf.cell, h.start⟩
  refine .buffering (.onFresh hf ((h.drain hfresh).bind fun buffered g hg hdrained => ?_))
  have hbounded : buffered.count ≤ 0 + right.rowsLeft right.start := hdrained.bounded
  refine (hfinish buffered g hg (by omega)).mono fun a k _ ⟨ha, held, pool, hk⟩ => ⟨ha, ?_, rfl⟩
  rw [hk]
  exact hdrained.out

/-! ### Cross products -/

theorem crossRight_halts (h : right.Halting) (hf : f.Counted) :
    Halts Frame.Counted (crossRight right) f fun side g =>
      (side.position = side.rows ∧ side.rows ≤ right.rowsLeft right.start) ∧ g.out = f.out ∧ g.below = f.below ∧
        g.cell.progress = .cross (some side) := by
  unfold crossRight
  refine (h.drainRight (Q := fun side : Output => side.position = side.rows ∧ side.rows ≤ right.rowsLeft right.start) hf
    fun buffered g hg hbounded => ?_).bind fun side g hg ⟨hside, hout, hbelow⟩ => .step rfl (.pure ?_ ⟨hside, hout, hbelow, rfl⟩)
  · exact .lift_bind hg buffered.materialize_inTime fun columns _ => .pure hg ⟨⟨rfl, hbounded⟩, .self g⟩
  · exact ⟨hg.out, ⟨hg.cell.buffer, trivial⟩, hg.below⟩

theorem crossLeft_halts {side : Output} (h : left.Halting) (hf : f.Counted) (hrows : side.rows ≠ 0) :
    Halts Frame.Counted (crossLeft left side) f fun found g => g.out = f.out ∧
      match found with
      | none => g.cell.progress = f.cell.progress ∧
          pairsLeft left side g.cell.buffer g.below ≤ pairsLeft left side f.cell.buffer f.below
      | some (chunk, side') => g.cell.buffer = chunk ∧ side'.position < side'.rows ∧
          pairsLeft left side' chunk g.below ≤ pairsLeft left side f.cell.buffer f.below := by
  unfold crossLeft
  refine .ite (fun hmore => .step rfl (.pure hf ⟨rfl, rfl, hmore, Nat.le_refl _⟩)) fun hend => ?_
  refine (h.fetch hf).bind fun chunk g hg hfetched => .pure hg ⟨hfetched.out, ?_⟩
  have hfewer := pairsLeft_fetched side f.cell.buffer hfetched.fewer
  by_cases he : chunk.isEmpty = true
  · rw [if_pos he]
    exact ⟨by rw [hfetched.cell], (pairsLeft_exhausted hend _ chunk _).trans hfewer⟩
  · rw [if_neg he]
    exact ⟨by rw [hfetched.cell], Nat.pos_of_ne_zero hrows, hfewer⟩

theorem broadcast_inTime (n : Nat) (columns : List (Column × SqlType)) (position : Nat) :
    ∀ r ∈ columns.map fun c => (do
      let v ← c.1.get position
      return Column.fill n (Slot.ofScalar (if v.isNull then c.2 else v.type) v) : Except Failure Column),
      Yields Failure.InTime r fun _ => True :=
  List.forall_mem_map.mpr fun c _ => (Yields.inTime (c.1.get position)).bind fun _ _ => trivial

theorem pairRow_halts {chunk c : Chunk} (types : List SqlType) (side : Output) (hchunk : chunk.Counted) (hc : c.Counted) :
    Halts Chunk.Counted (pairRow types side chunk) c fun _ d => d.count = chunk.count := by
  refine (Filling.putAll_halts 0 _ hc).bind fun _ d hd _ => ?_
  refine (Filling.putComputed_halts _ hd (broadcast_inTime _ _ _)).bind fun _ e _ _ => ?_
  exact .of_ok rfl (hchunk.setCountFrom e) rfl

theorem crossPair_halts {side : Output} (h : left.Halting) (hf : f.Counted) (hout : f.out.count = 0)
    (hp : f.cell.progress = .cross (some side)) :
    Halts Frame.Counted
      (do
        if side.rows = 0 then return
        let some (chunk, side) ← crossLeft left side | return
        Pull.setProgress (.cross (some { side with position := side.position + 1 }))
        Pull.filling (pairRow (left.types ++ right.types) side chunk))
      f fun _ g => g.out.count + (cross config left right).rowsBelow g.cells ≤ pairsLeft left side f.cell.buffer f.below := by
  refine .ite (fun _ => .pure hf ?_) fun hrows => ?_
  · rw [hout, Nat.zero_add, Frame.cells, cross_left hp]
  refine (crossLeft_halts h hf hrows).bind fun found g hg hleft => ?_
  obtain ⟨hgout, hfound⟩ := hleft
  cases found with
  | none =>
    obtain ⟨hprogress, hfewer⟩ := hfound
    refine .pure hg ?_
    rw [hgout, hout, Nat.zero_add, Frame.cells, cross_left (hprogress.trans hp)]
    exact hfewer
  | some pair =>
    obtain ⟨chunk, side'⟩ := pair
    obtain ⟨hbuffer, hmore, hfewer⟩ := hfound
    refine .step rfl (.filling ⟨hg.out, ⟨hg.cell.buffer, trivial⟩, hg.below⟩
      (pairRow_halts _ side' (hbuffer ▸ hg.cell.buffer) hg.out) fun _ d _ hd => ?_)
    rw [Frame.cells, cross_left rfl]
    show d.count + pairsLeft left { side' with position := side'.position + 1 } g.cell.buffer g.below ≤ _
    rw [hd, hbuffer, pairsLeft_next hmore]
    exact hfewer

theorem halting_cross (hleft : left.Halting) (hright : right.Halting) : (cross config left right).Halting := by
  refine halting_of_work (left.types ++ right.types) rfl (counted_above trivial hleft) (fun _ _ => rfl)
    fun f hf hout _ => .step rfl ?_
  cases hp : f.cell.progress with
  | cross side =>
    cases side with
    | some side =>
      have hbefore : (cross config left right).rowsBelow f.cells = pairsLeft left side f.cell.buffer f.below := cross_left hp
      rw [hbefore]
      exact crossPair_halts hleft hf hout hp
    | none =>
      refine (crossRight_halts hright hf).bind fun side g hg ⟨⟨hend, hfew⟩, hgout, hbelow, hprogress⟩ => ?_
      refine (crossPair_halts hleft hg (hgout ▸ hout) hprogress).mono fun _ k _ hk => hk.trans ?_
      have hbefore : (cross config left right).rowsBelow f.cells = right.rowsLeft right.start * left.rowsBelow f.below := by
        simp only [Frame.cells, rowsBelow, cross, hp]
      have hnone : side.rows - side.position = 0 := by omega
      rw [pairsLeft, hnone, Nat.zero_mul, Nat.zero_add, hbelow, hbefore]
      exact Nat.mul_le_mul_right _ hfew
  | _ => exact .fail_bind hf

/-! ### Pairs of a join -/

theorem length_pairsOf_le (kind : JoinKind) (row : Nat) {side : JoinSide} (hs : side.Counted) {k : Option Key} :
    (pairsOf kind row (k.bind side.index.get?)).length ≤ side.rows + 1 := by
  cases hfound : k.bind side.index.get? with
  | none =>
    rw [pairsOf]
    split
    · exact Nat.succ_le_succ (Nat.zero_le _)
    · exact Nat.zero_le _
  | some rows =>
    obtain ⟨key, rfl, hget⟩ := Option.bind_eq_some_iff.mp hfound
    rw [pairsOf]
    split
    · rw [List.length_map]
      exact Nat.le_succ_of_le (hs key rows hget)
    · exact Nat.zero_le _

/-- The pairs of some rows, whether all their keys can be read or not. -/
theorem length_probeRows_le (kind : JoinKind) {side : JoinSide} (hs : side.Counted) (keyColumns : List Column) (rows : List Nat) :
    (probeRows kind side keyColumns rows).2.length ≤ (side.rows + 1) * rows.length := by
  induction rows with
  | nil => exact Nat.zero_le _
  | cons row rows ih =>
    rw [probeRows]
    cases hfound : side.matches? keyColumns row with
    | error e => exact Nat.zero_le _
    | ok found =>
      obtain ⟨key, -, hkey⟩ := bind_eq_ok.mp hfound
      cases hkey
      have hone := length_pairsOf_le kind row hs (k := key)
      show (pairsOf kind row (key.bind side.index.get?) ++ (probeRows kind side keyColumns rows).2).length ≤ _
      rw [List.length_append, List.length_cons, Nat.mul_succ]
      omega

theorem takePairs_halts {c : Chunk} (side : JoinSide) (chunk : Chunk) (pairs : List (Nat × Option Nat)) (hc : c.Counted) :
    Halts Chunk.Counted (takePairs side chunk pairs) c fun _ d => d.count = pairs.length := by
  refine (Filling.putComputed_halts 0 hc (List.forall_mem_append.mpr ⟨?_, ?_⟩)).bind fun _ d _ _ =>
    .of_ok rfl (Chunk.counted_of_flat rfl) rfl
  · exact List.forall_mem_map.mpr fun column _ => column.gather_inTime _
  · exact List.forall_mem_map.mpr fun column _ => column.gatherPadded_inTime _

/-- What a join's work leaves: it has its side, and with what is handed out it is owed no
more than before. -/
def Repaid (left : Operator) (side : JoinSide) (before : Nat) (g : Frame) : Prop :=
  ∃ p, g.cell.progress = .join p ∧ p.side = some side ∧ g.out.count + owedLeft left p side g.below ≤ before

variable {p : JoinProgress} {side : JoinSide}

/-- There is no side yet. -/
theorem counted_unstarted (pending : List (Nat × Option Nat)) (emitted : Nat) :
    (Progress.join ⟨none, pending, emitted⟩).Counted := fun side h => by cases h

theorem counted_join {p : JoinProgress} (hp : p.side = some side) (hs : side.Counted) : (Progress.join p).Counted :=
  fun side' hside' => by
    cases hp.symm.trans hside'
    exact hs

theorem handOutPairs_halts (hf : f.Counted) (hp : p.side = some side) (hs : side.Counted)
    (hmore : p.emitted < p.pending.length) :
    Halts Frame.Counted (handOutPairs side p) f fun _ g => Repaid left side (owedLeft left p side f.below) g := by
  unfold handOutPairs
  refine .step rfl (.lift_bind hf (addCounts_inTime _ _) fun stop hstop => ?_)
  generalize hl : min stop p.pending.length = stop'
  refine .step rfl (.step rfl (.filling ⟨hf.out, ⟨hf.cell.buffer, counted_join hp hs⟩, hf.below⟩
    (takePairs_halts side _ _ hf.out) fun _ d _ hd => ⟨_, rfl, hp, ?_⟩))
  show d.count + ((p.pending.length - stop') + (side.rows + 1) * left.rowsBelow f.below) ≤ _
  rw [hd, List.length_drop, List.length_take, owedLeft]
  omega

theorem joinWithNothing_halts {chunk c : Chunk} (kind : JoinKind) (types : List SqlType) (hchunk : chunk.Counted)
    (hc : c.Counted) :
    Halts Chunk.Counted (joinWithNothing kind types chunk) c fun _ d => d.count ≤ chunk.count := by
  unfold joinWithNothing
  split
  · exact JoinResult.padded_halts types hchunk hc
  · exact .of_ok rfl (hchunk.reference c) (Nat.le_refl _)
  · exact JoinResult.marked_halts _ _ _ hchunk hc

/-! ### The pull -/

theorem Halting.probe (h : left.Halting) (kind : JoinKind) (keys : List Expr) (right : Operator) (rounds : Nat)
    (hf : f.Counted) (hout : f.out.count = 0) (hp : p.side = some side) (hs : side.Counted)
    (hrounds : left.rowsBelow f.below < rounds) :
    Halts Frame.Counted (probe kind keys left right side rounds p) f
      fun _ g => Repaid left side (owedLeft left p side f.below) g := by
  induction rounds generalizing f p with
  | zero => cases hrounds
  | succ rounds ih =>
    rw [Operator.probe]
    refine .ite (fun hmore => handOutPairs_halts hf hp hs hmore) fun _ => .step rfl ?_
    -- nothing is owed from here on
    let fresh : Frame := { f with cell := { f.cell with progress := .join ⟨p.side, [], 0⟩ } }
    have hfresh : fresh.Counted := ⟨hf.out, ⟨hf.cell.buffer, counted_join hp hs⟩, hf.below⟩
    have hbefore : (side.rows + 1) * left.rowsBelow f.below ≤ owedLeft left p side f.below := Nat.le_add_left _ _
    -- with `rows` handed out of a chunk that was fetched, and pairs of it owed
    have hrepaid (g : Frame) (pairs : List (Nat × Option Nat)) (rows : Nat) (hcell : g.cell.progress = .join ⟨p.side, pairs, 0⟩)
        (hout : g.out.count = rows)
        (hle : rows + (pairs.length + (side.rows + 1) * left.rowsBelow g.below) ≤ (side.rows + 1) * left.rowsBelow f.below) :
        Repaid left side (owedLeft left p side f.below) g :=
      ⟨_, hcell, hp, by rw [hout]; exact hle.trans hbefore⟩
    refine .ite (fun _ => .pure hfresh (hrepaid fresh [] 0 rfl hout ?_)) fun _ => ?_
    · rw [List.length_nil, Nat.zero_add, Nat.zero_add]
    refine (h.fetch hfresh).bind fun chunk g hg hfetched => ?_
    have hcell : g.cell.progress = .join ⟨p.side, [], 0⟩ := by rw [hfetched.cell]
    have hgout : g.out.count = 0 := by rw [hfetched.out]; exact hout
    have hfewer : chunk.count + left.rowsBelow g.below ≤ left.rowsBelow f.below := hfetched.fewer
    have hleft : (side.rows + 1) * chunk.count + (side.rows + 1) * left.rowsBelow g.below ≤
        (side.rows + 1) * left.rowsBelow f.below := by
      rw [← Nat.mul_add]
      exact Nat.mul_le_mul_left _ hfewer
    have hone : chunk.count ≤ (side.rows + 1) * chunk.count := Nat.le_mul_of_pos_left _ (Nat.succ_pos _)
    refine .ite (fun _ => .pure hg (hrepaid g [] 0 hcell hgout ?_)) fun he => ?_
    · rw [List.length_nil]
      omega
    have hrow := Chunk.count_pos he
    refine .ite (fun _ => ?_) fun _ => ?_
    · refine .filling hg (joinWithNothing_halts kind _ hfetched.counted hg.out) fun _ d _ hd => hrepaid _ [] d.count hcell rfl ?_
      rw [List.length_nil]
      show d.count + (0 + (side.rows + 1) * left.rowsBelow g.below) ≤ _
      omega
    refine .lift_bind hg (.mapM_inTime keys fun e => e.evaluate_inTime chunk) fun keyColumns _ => ?_
    have hfew := length_probeRows_le kind hs keyColumns chunk.activeRows
    have hnone (hkind : ¬(kind = .inner ∨ kind = .left)) := probeRows_nil hkind side keyColumns chunk.activeRows
    rw [hfetched.counted.length_activeRows] at hfew
    cases hprobe : probeRows kind side keyColumns chunk.activeRows with
    | mk flags pairs =>
    rw [hprobe] at hfew hnone
    have hfew : pairs.length ≤ (side.rows + 1) * chunk.count := hfew
    let owing : Frame := { g with cell := { g.cell with progress := .join ⟨p.side, pairs, 0⟩ } }
    have howing : owing.Counted := ⟨hg.out, ⟨hg.cell.buffer, counted_join hp hs⟩, hg.below⟩
    have hlater : left.rowsBelow owing.below < rounds := by
      show left.rowsBelow g.below < rounds
      omega
    -- the next round begins with these pairs owed
    have hnext (k : Frame) (hk : k.Counted) (hkout : k.out.count = 0) (hbelow : k.below = g.below) :
        Halts Frame.Counted (Operator.probe kind keys left right side rounds ⟨p.side, pairs, 0⟩) k
          fun _ g => Repaid left side (owedLeft left p side f.below) g := by
      refine (ih (p := ⟨p.side, pairs, 0⟩) hk hkout hp (hbelow ▸ hlater)).mono fun _ k' _ hrepaid' => ?_
      obtain ⟨p', hp', hside', hle⟩ := hrepaid'
      refine ⟨p', hp', hside', hle.trans ?_⟩
      rw [hbelow]
      show pairs.length + (side.rows + 1) * left.rowsBelow g.below ≤ _
      omega
    refine .step rfl (.liftQuery_bind howing fun flags' _ => ?_)
    cases kind with
    | inner | left => exact hnext owing howing hgout rfl
    | semi | anti =>
      have hnopairs : pairs = [] := hnone (by decide)
      refine .filling_bind howing (JoinResult.semiOrAnti_halts flags' _ howing.out) fun _ d hd hcount => ?_
      refine .step rfl (.ite (fun _ => .pure ⟨hd, howing.cell, howing.below⟩ (hrepaid _ pairs d.count rfl rfl ?_)) fun _ => ?_)
      · rw [hnopairs, List.length_nil]
        show d.count + (0 + (side.rows + 1) * left.rowsBelow g.below) ≤ _
        omega
      · exact .step (a := ()) (t := { owing with out := d.reset }) rfl
          (hnext _ ⟨Chunk.counted_of_flat rfl, howing.cell, howing.below⟩ rfl rfl)
    | mark =>
      have hnopairs : pairs = [] := hnone (by decide)
      refine .filling howing (JoinResult.marked_halts _ flags' _ hfetched.counted howing.out) fun _ d _ hd =>
        hrepaid _ pairs d.count rfl rfl ?_
      rw [hnopairs, List.length_nil]
      show d.count + (0 + (side.rows + 1) * left.rowsBelow g.below) ≤ _
      omega

theorem joinRight_halts {keys : List Expr} (h : right.Halting) (hf : f.Counted) :
    Halts Frame.Counted (joinRight keys right p) f fun side g =>
      (side.Counted ∧ side.rows ≤ right.rowsLeft right.start) ∧ g.out = f.out ∧ g.below = f.below := by
  unfold joinRight
  refine (h.drainRight (Q := fun side => side.Counted ∧ side.rows ≤ right.rowsLeft right.start) hf
    fun buffered g hg hbounded => ?_).bind fun side g hg ⟨hside, hout, hbelow⟩ => .step rfl (.pure ?_ ⟨hside, hout, hbelow⟩)
  · refine .lift_bind hg buffered.materialize_inTime fun columns _ => ?_
    refine .lift_bind hg (JoinSide.ofColumns_inTime keys columns buffered.count) fun side ⟨hrows, hside⟩ => ?_
    exact (Halts.reserve _ hg).bind fun _ k hk hbooked => .pure hk ⟨⟨hside, hrows ▸ hbounded⟩, hbooked⟩
  · exact ⟨hg.out, ⟨hg.cell.buffer, counted_join rfl hside.1⟩, hg.below⟩

/-- A crash loses the side, and no count is wrong without it. -/
theorem lendingSide_halts {step : Pull Unit} {Q : Unit → Frame → Prop} (h : Halts Frame.Counted step f Q) :
    Halts Frame.Counted (lendingSide step) f Q := by
  rw [Halts, lendingSide]
  cases hstep : step f with
  | ok a g => exact h.ok hstep
  | error e g =>
    obtain ⟨hg, he⟩ := h.error hstep
    cases e with
    | crash =>
      refine ⟨?_, trivial⟩
      show g.forgetSide.Counted
      unfold Frame.forgetSide
      split
      · exact ⟨hg.out, ⟨hg.cell.buffer, counted_unstarted _ _⟩, hg.below⟩
      · exact hg
    | _ => exact ⟨hg, he⟩

theorem halting_join (hleft : left.Halting) (hright : right.Halting) (kind : JoinKind) (on : List (Expr × Expr)) :
    (join config kind on left right).Halting := by
  refine halting_of_work (kind.outputTypes left.types right.types) rfl (counted_above (counted_unstarted _ _) hleft)
    (fun _ _ => rfl) fun f hf hout _ => .step rfl ?_
  cases hp : f.cell.progress with
  | join p =>
    have hprobe (side : JoinSide) (g : Frame) (hg : g.Counted) (hgout : g.out.count = 0) (hbelow : g.below = f.below)
        (hs : side.Counted) : Halts Frame.Counted
        (do
          let rounds := (← left.rounds) + 1
          lendingSide (Operator.probe kind (on.map Prod.fst) left right side rounds { p with side := some side }))
        g fun _ k => k.out.count + (join config kind on left right).rowsBelow k.cells ≤
          owedLeft left { p with side := some side } side f.below := by
      refine .step rfl (lendingSide_halts ?_)
      rw [← hbelow]
      refine (hleft.probe kind _ right _ hg hgout (p := { p with side := some side }) rfl hs ?_).mono
        fun _ k _ hrepaid => ?_
      · exact Nat.lt_succ_of_lt (Nat.lt_succ_self _)
      · obtain ⟨p', hp', hside', hle⟩ := hrepaid
        have hafter : (join config kind on left right).rowsBelow k.cells = owedLeft left p' side k.below :=
          join_left hp' hside'
        rw [hafter]
        exact hle
    cases hside : p.side with
    | some side =>
      have hbefore : (join config kind on left right).rowsBelow f.cells = owedLeft left p side f.below := join_left hp hside
      simp only [hside, hbefore]
      have hs : side.Counted := by
        have hprogress := hf.cell.progress
        rw [hp] at hprogress
        exact hprogress side hside
      exact hprobe side f hf hout rfl hs
    | none =>
      have hbefore : (join config kind on left right).rowsBelow f.cells =
          (p.pending.length - p.emitted) + (right.rowsLeft right.start + 1) * left.rowsBelow f.below := by
        simp only [Frame.cells, rowsBelow, join, hp, hside, Option.elim_none]
      simp only [hside, hbefore]
      refine (joinRight_halts hright hf).bind fun side g hg hright => ?_
      obtain ⟨⟨hs, hfew⟩, hgout, hbelow⟩ := hright
      refine (hprobe side g hg (hgout ▸ hout) hbelow hs).mono fun _ k _ hk => hk.trans ?_
      exact Nat.add_le_add_left (Nat.mul_le_mul_right _ (Nat.succ_le_succ hfew)) _
  | _ => exact .fail hf

end Operator
end QueryEngine
