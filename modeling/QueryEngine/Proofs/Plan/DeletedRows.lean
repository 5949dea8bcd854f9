import QueryEngine.Proofs.Plan.Deletion
import QueryEngine.Proofs.Plan.FailedDeletion
import QueryEngine.Proofs.Table.Deletions

/-! How many rows a deletion says that it has deleted.

For each chunk of its input a deletion deletes the rows that the chunk names: one call
after the other, on the table that the input may be reading. Whatever the input makes of
that, every row is counted by the first call that names it, so that the answer is by how
many live rows the table has become smaller (`delete_tallied`). -/
namespace QueryEngine.Plan
variable {config : Config} {t : Provider} {p : Plan} {before session : Session} {chunks : List Chunk} {counts : List Nat}
  {s : State} {f g : Frame}

/-! ### Chunk after chunk -/

/-- The calls for some chunks. -/
def callsFor (chunks : List Chunk) : List (List Int64) := chunks.map fun c => Chunk.lastIds [c]

/-- Whether there is a value in the last column. -/
def hasLast (row : Row) : Bool := row.getLast?.any fun d => !d.value.isNull

/-- A row with NULL in the last column might as well not be there. -/
theorem lastIds_eq_hasLast (c : Chunk) : Chunk.lastIds [c] = (c.rows.filter hasLast).filterMap lastId := by
  rw [Chunk.lastIds_singleton, List.filterMap_filter]
  refine List.filterMap_congr fun row _ => ?_
  cases hlast : row.getLast? with
  | none => simp [hasLast, lastId, hlast]
  | some d => cases hv : d.value <;> simp [hasLast, lastId, hlast, hv, Scalar.isNull, Scalar.toInt64?]

theorem callsFor_append (chunks more : List Chunk) : callsFor (chunks ++ more) = callsFor chunks ++ callsFor more :=
  List.map_append

/-- The input has handed out these chunks, while the rows that they name were deleted, and
then nothing more. -/
def Exhausts (config : Config) (t : Provider) (p : Plan) (before : Session) (chunks : List Chunk) (after : Session) : Prop :=
  ∃ s session out last s' session', Deleting config t p before chunks s session ∧
    p.pull config out s session = ⟨.ok (), last, s', session'⟩ ∧ last.isEmpty = true ∧ ∀ u, after.mask u = session'.mask u

/-- One more chunk of the input is one more call. -/
theorem calls_next {chunk : Chunk} {n : Nat} {session' : Session}
    (h : t.table.Deletions (before.mask t) (callsFor chunks) counts (session.mask t)) (hmask : session'.mask t = session.mask t)
    (hn : (session'.delete t (Chunk.lastIds [chunk])).1 = .ok n) :
    t.table.Deletions (before.mask t) (callsFor (chunks ++ [chunk])) (counts ++ [n])
      ((session'.delete t (Chunk.lastIds [chunk])).2.mask t) := by
  have hleft : (session'.delete t (Chunk.lastIds [chunk])).2.mask t =
      (t.table.delete (session.mask t) (Chunk.lastIds [chunk])).2 := hmask ▸ Session.mask_setMask_self rfl _
  have hcount : (t.table.delete (session.mask t) (Chunk.lastIds [chunk])).1 = .ok n := hmask ▸ hn
  rw [callsFor_append, hleft]
  exact h.append (.next (Prod.ext hcount rfl) (.none _))

theorem calls_deleteChunks {rounds deleted answer : Nat} (hfree : p.deletes = false)
    (h : Deleting config t p before chunks s f.session)
    (hcalls : t.table.Deletions (before.mask t) (callsFor chunks) counts (f.session.mask t)) (hsum : deleted = total counts)
    (hbelow : f.below = s.cells) (hok : Operator.deleteChunks t (p.operator config) rounds deleted f = .ok answer g) :
    g.out = f.out ∧ ∃ chunks counts, Exhausts config t p before chunks g.session ∧
      t.table.Deletions (before.mask t) (callsFor chunks) counts (g.session.mask t) ∧ answer = total counts := by
  induction rounds generalizing f chunks counts s deleted with
  | zero => cases hok
  | succ rounds ih =>
    obtain ⟨cell, below, k, hcells, hpull, hround⟩ := Operator.deleteChunks_succ_ok hok
    cases hbelow.symm.trans hcells
    have hmasks : k.session.masks = f.session.masks := h.pulled hfree (pull_ok hpull)
    have hmask : k.session.mask t = f.session.mask t := by rw [Session.mask, hmasks, Session.mask]
    rcases hround with ⟨he, rfl, rfl⟩ | ⟨he, n, hn, hrest⟩
    · exact ⟨rfl, chunks, counts, ⟨s, f.session, _, _, _, _, h, pull_ok hpull, he, fun _ => rfl⟩, hmask.symm ▸ hcalls, hsum⟩
    · rw [← Chunk.lastIds_singleton] at hn hrest
      have hnext := calls_next hcalls hmask hn
      obtain ⟨hout, hmore⟩ := ih (h.next (pull_ok hpull) he hn) hnext (by rw [total_append, hsum]; rfl) rfl hrest
      exact ⟨hout, hmore⟩

/-! ### The answer -/

/-- What a deletion that succeeds has done, and what it says. -/
structure Tallied (config : Config) (t : Provider) (p : Plan) (before : Session) (chunks : List Chunk) (counts : List Nat)
    (answer : Int64) (ran : Ran Collection Stats) : Prop where
  handed : Exhausts config t p before chunks ran.session
  calls : t.table.Deletions (before.mask t) (callsFor chunks) counts (ran.session.mask t)
  nulls : callsFor chunks = chunks.map fun c => (c.rows.filter hasLast).filterMap lastId
  /-- It says one thing, in one row. -/
  row : ran.consumer.Holds [.bigInt] [[⟨.bigInt, .bigInt answer⟩]]
  sum : answer = Int64.ofNat (total counts) ∧ (ran.session.mask t).live + total counts = (before.mask t).live
  /-- Which is the number of live rows that there are fewer, if that can be said. -/
  decrease : (before.mask t).length < 0x8000000000000000 → answer.toInt = (before.mask t).live - (ran.session.mask t).live

theorem run_delete_tallied {stats : Stats} (hfree : p.deletes = false)
    (hok : ((Plan.delete t p).run config Collection.consume (Collection.ofTypes [.bigInt]) before).result = .ok stats) :
    ∃ chunks counts answer, Tallied config t p before chunks counts answer
      ((Plan.delete t p).run config Collection.consume (Collection.ofTypes [.bigInt]) before) := by
  obtain ⟨rounds, answer, g, hdeleted, hmasks, hanswer⟩ := run_delete_ok hok
  have hstart : Deleting config t p before [] (p.start config) before := .start
  have hnone : t.table.Deletions (before.mask t) (callsFor []) [] (before.mask t) := .none _
  obtain ⟨hout, chunks, counts, hhanded, hcalls, rfl⟩ := calls_deleteChunks hfree hstart hnone total_nil.symm rfl hdeleted
  obtain ⟨s, session, out, last, s', session', hdeleting, hpull, he, hsame⟩ := hhanded
  have hsum : (g.session.mask t).live + total counts = (before.mask t).live := hcalls.live_add
  refine ⟨chunks, counts, _, ⟨s, session, out, last, s', session', hdeleting, hpull, he, fun u => (hmasks u).trans (hsame u)⟩,
    (hmasks t).symm ▸ hcalls, List.map_congr_left fun c _ => lastIds_eq_hasLast c, hanswer hout,
    ⟨rfl, (hmasks t).symm ▸ hsum⟩, fun hlt => ?_⟩
  have hle : (before.mask t).live ≤ (before.mask t).length := List.count_le_length
  rw [hmasks t, Int64.toInt_ofNat_of_lt (by omega)]
  omega

end QueryEngine.Plan
