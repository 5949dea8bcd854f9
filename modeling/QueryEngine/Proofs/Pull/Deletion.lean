import QueryEngine.Proofs.Pull.Delete
import QueryEngine.Proofs.Pull.Passed
import QueryEngine.Proofs.Pull.Runs

/-! A deletion, and its input read alone.

While the rows of one chunk are deleted the input has not been read to its end. If the
rows that its chunks name lie behind what it has passed, it goes on as if nothing had
been deleted: the deletion deletes what the input names when it is read alone. -/
namespace QueryEngine

/-- The row id in the last column. -/
def lastId (row : Row) : Option Int64 := row.getLast?.bind fun d => d.value.toInt64?

/-- The row ids in the last columns of some chunks. -/
def Chunk.lastIds (chunks : List Chunk) : List Int64 := (chunks.flatMap Chunk.rows).filterMap lastId

theorem Chunk.lastIds_cons (c : Chunk) (chunks : List Chunk) :
    lastIds (c :: chunks) = c.rows.filterMap lastId ++ lastIds chunks := by
  rw [lastIds, List.flatMap_cons, List.filterMap_append, lastIds]

/-- The rows that `W k` tells of name no row of the table from row `k` on. -/
def NamesPassed (t : Provider) (types : List SqlType) (W : Nat → Row → Prop) : Prop :=
  ∀ k row id, row.length = types.length → W k row → lastId row = some id → id.toInt.toNat < t.table.rows →
    id.toInt.toNat < k

theorem NamesPassed.of_rows {t : Provider} {types : List SqlType} {W : Nat → Row → Prop} (hW : NamesPassed t types W)
    {chunk : Chunk} {k : Nat} {id : Int64} (ht : chunk.types = types) (hrows : ∀ row ∈ chunk.rows, W k row)
    (hid : id ∈ chunk.rows.filterMap lastId) (hlt : id.toInt.toNat < t.table.rows) : id.toInt.toNat < k := by
  obtain ⟨row, hrow, hlast⟩ := List.mem_filterMap.mp hid
  exact hW k row id (ht ▸ Chunk.length_of_mem_rows hrow) (hrows row hrow) hlast hlt

namespace Operator
variable {t : Provider} {W : Nat → Row → Prop} {input : Operator} {config : Config} {work : Pull Unit} {f g : Frame}

theorem idsOf_ok {c : Chunk} {ids : List Int64} (h : idsOf c = .ok ids) : ids = c.rows.filterMap lastId := by
  unfold idsOf at h
  split at h
  · cases h
  rename_i column hlast
  split at h
  · cases h
    rw [Chunk.rows, List.filterMap_map]
    refine List.filterMap_congr fun r _ => ?_
    have hrow : (c.row r).getLast? = some (column.datum r) := by
      rw [Chunk.row, List.getLast?_map, hlast]
      rfl
    simp [lastId, hrow, Column.datum, Array.getD_eq_getD_getElem?]
  · cases h

/-- What the chunk to fill holds is not seen. -/
theorem pull_out (hpull : input.pull = answer config input.types work) (cell : Cell) (below : List Cell) (session : Session)
    (out out' : Chunk) : input.pull ⟨cell, below, session, out⟩ = input.pull ⟨cell, below, session, out'⟩ := by
  rw [hpull]
  rfl

theorem fetch_ok {chunk : Chunk} (h : input.fetch f = .ok chunk g) :
    ∃ cell below k, f.below = cell :: below ∧ input.pull ⟨cell, below, f.session, f.cell.buffer⟩ = .ok () k ∧
      chunk = k.out ∧ g = f.afterFetch k := by
  have h : Pull.inInput input.name f.cell.buffer Frame.afterFetch input.pull f = .ok chunk g := h
  unfold Pull.inInput Frame.input? at h
  split at h
  · cases h
  rename_i input' hinput
  split at hinput
  · cases hinput
  rename_i cell below hbelow
  cases hinput
  split at h
  · rename_i k hk
    cases h
    exact ⟨cell, below, k, hbelow, hk, rfl, rfl⟩
  · cases h

theorem run_deleteIds (ids : List Int64) (f : Frame) : deleteIds t ids f = match (f.session.delete t ids).1 with
      | .ok n => .ok n { f with session := (f.session.delete t ids).2 }
      | .error e => .error (.error e) { f with session := (f.session.delete t ids).2 } := by
  show (liftM (f.session.delete t ids).1 : Pull Nat) { f with session := (f.session.delete t ids).2 } = _
  rw [run_liftQuery]
  cases (f.session.delete t ids).1 <;> rfl

/-- A round of a deletion: a chunk of the input, and its rows deleted unless it is the
last. -/
theorem deleteChunks_succ_ok {rounds deleted total : Nat} (h : deleteChunks t input (rounds + 1) deleted f = .ok total g) :
    ∃ cell below k, f.below = cell :: below ∧ input.pull ⟨cell, below, f.session, f.cell.buffer⟩ = .ok () k ∧
      ((k.out.isEmpty = true ∧ total = deleted ∧ g = f.afterFetch k) ∨
        (k.out.isEmpty = false ∧ ∃ n, (k.session.delete t (k.out.rows.filterMap lastId)).1 = .ok n ∧
          deleteChunks t input rounds (deleted + n)
            { f.afterFetch k with session := (k.session.delete t (k.out.rows.filterMap lastId)).2 } = .ok total g)) := by
  rw [deleteChunks] at h
  obtain ⟨chunk, f', hfetch, h⟩ := run_bind_eq_ok.mp h
  obtain ⟨cell, below, k, hbelow, hpull, rfl, rfl⟩ := fetch_ok hfetch
  refine ⟨cell, below, k, hbelow, hpull, ?_⟩
  by_cases he : k.out.isEmpty = true
  · rw [if_pos he] at h
    cases h
    exact .inl ⟨he, rfl, rfl⟩
  · rw [if_neg he] at h
    obtain ⟨ids, f', hids, h⟩ := run_bind_eq_ok.mp h
    obtain ⟨hvalues, rfl⟩ := run_lift_eq_ok.mp hids
    obtain rfl := idsOf_ok hvalues
    obtain ⟨n, f', hdelete, h⟩ := run_bind_eq_ok.mp h
    rw [run_deleteIds] at hdelete
    split at hdelete
    · rename_i n' hn
      cases hdelete
      exact .inr ⟨Bool.eq_false_iff.mpr he, _, hn, h⟩
    · cases hdelete

/-- What a deletion leaves, told by the chunks of its input. -/
structure Deleted (t : Provider) (deleted total : Nat) (f : Frame) (chunks : List Chunk) (g : Frame) : Prop where
  out : g.out = f.out
  progress : g.cell.progress = f.cell.progress
  fits : g.session.Fits t
  ended : chunks.getLast?.any Chunk.isEmpty = true
  gone : ∀ i, (g.session.mask t).isLive i = ((f.session.mask t).isLive i && !namedBy (Chunk.lastIds chunks) i)
  counted : (f.session.mask t).live + deleted = total + (g.session.mask t).live

theorem Deleted.last {deleted : Nat} {k : Frame} (hfits : f.session.Fits t) (he : k.out.isEmpty = true)
    (hsound : k.out.Sound) (hmasks : k.session.masks = f.session.masks) :
    Deleted t deleted deleted f [k.out] (f.afterFetch k) := by
  have hsame : (f.afterFetch k).session.mask t = f.session.mask t := by
    show k.session.mask t = _
    rw [Session.mask, hmasks, Session.mask]
  have hnone : Chunk.lastIds [k.out] = [] := by
    rw [Chunk.lastIds, List.flatMap_singleton, hsound.rows_eq_nil_iff.mpr he, List.filterMap_nil]
  refine ⟨rfl, rfl, ?_, by simpa using he, fun i => ?_, by rw [hsame, Nat.add_comm]⟩
  · rw [Session.Fits, hsame]
    exact hfits
  rw [hsame, hnone, namedBy, List.any_nil, Bool.not_false, Bool.and_true]

/-- The chunks of the input are those of the input alone, in a session where nothing was
deleted meanwhile. -/
theorem deleteChunks_alone (hpull : input.pull = answer config input.types work)
    (hW : NamesPassed t input.types W) {rounds deleted total k : Nat} {others : List (Nat × Mask)} {cell : Cell} {below : List Cell}
    (hbelow : f.below = cell :: below) (h : Passed t W input k f.below) (hs : SameFrom t k f.session.masks others)
    (hfits : f.session.Fits t) (hok : deleteChunks t input rounds deleted f = .ok total g) :
    ∃ n chunks, input.pullTimes n ⟨cell, below⟩ { f.session with masks := others } = some chunks ∧
      Deleted t deleted total f chunks g := by
  induction rounds generalizing f deleted k cell below with
  | zero => cases hok
  | succ rounds ih =>
    obtain ⟨cell', below', f', hbelow', hpulled, hround⟩ := deleteChunks_succ_ok hok
    cases hbelow.symm.trans hbelow'
    rw [hbelow] at h
    obtain ⟨hother, hmasks, hreached⟩ := h.step hs f.cell.buffer () f' hpulled
    obtain ⟨k', hle, hpassed, hpos, hrows⟩ := hreached.left
    have halone : input.pull ⟨cell, below, { f.session with masks := others }, Chunk.fresh⟩ = .ok () (f'.withMasks others) := by
      rw [pull_out hpull _ _ _ _ f.cell.buffer]
      exact hother
    have hmask : f'.session.mask t = f.session.mask t := by rw [Session.mask, hmasks, Session.mask]
    rcases hround with ⟨he, rfl, rfl⟩ | ⟨he, n, hn, hrest⟩
    · refine ⟨1, [f'.out], ?_, Deleted.last hfits he hreached.sound hmasks⟩
      rw [pullTimes, halone]
      rfl
    · -- the rows that are deleted now are rows of the table, and so behind row `k'`
      let later : Frame := { f.afterFetch f' with session := (f'.session.delete t (f'.out.rows.filterMap lastId)).2 }
      obtain ⟨hids, hkept, hlive, hfewer⟩ := Table.delete_ok (t := t.table) (Prod.ext hn rfl)
      have hbehind (id : Int64) (hid : id ∈ f'.out.rows.filterMap lastId) : id.toInt.toNat < k' := by
        have hbound := (hids id hid).2
        rw [hmask, hfits] at hbound
        exact hW.of_rows hreached.typed hrows hid hbound
      have hs' := ((hmasks ▸ hs.mono hle : SameFrom t k' f'.session.masks others)).delete (hpos he) hbehind hn
      have hfit : f'.session.Fits t := by
        rw [Session.Fits, hmask]
        exact hfits
      have hfits' : later.session.Fits t := hfit.delete hfit (fun _ => rfl) _
      have hmask' : later.session.mask t = (t.table.delete (f'.session.mask t) (f'.out.rows.filterMap lastId)).2 :=
        Session.mask_setMask_self rfl _
      have hbelow' : later.below = f'.cell :: f'.below := rfl
      obtain ⟨m, chunks, hchunks, hdeleted⟩ := ih hbelow' hpassed hs' hfits' hrest
      refine ⟨m + 1, f'.out :: chunks, ?_, hdeleted.out, hdeleted.progress, hdeleted.fits, ?_, fun i => ?_, ?_⟩
      · rw [pullTimes, halone]
        show Option.map _ (input.pullTimes m ⟨f'.cell, f'.below⟩ { f'.session with masks := others }) = _
        rw [show ({ f'.session with masks := others } : Session) = { later.session with masks := others } from rfl, hchunks]
        rfl
      · have hended := hdeleted.ended
        cases chunks with
        | nil => cases hended
        | cons c chunks => rw [List.getLast?_cons_cons]; exact hended
      · rw [hdeleted.gone i, hmask', hlive i, hmask, Chunk.lastIds_cons, namedBy_append, Bool.not_or, Bool.and_assoc]
      · have hcounted : Mask.live (t.table.delete (f'.session.mask t) (f'.out.rows.filterMap lastId)).2 + (deleted + n) =
            total + (g.session.mask t).live := hmask' ▸ hdeleted.counted
        have hfewer : (f'.session.mask t).live =
            n + Mask.live (t.table.delete (f'.session.mask t) (f'.out.rows.filterMap lastId)).2 := hfewer
        rw [hmask] at hfewer hcounted
        omega

/-! ### The pull -/

/-- The first pull of a deletion deletes, and tells how many rows. -/
theorem pull_delete_ok {cell : Cell} {below : List Cell} {session : Session} {out : Chunk}
    (hp : cell.progress = .delete false) (hf : cell.finished = false)
    (h : (delete config t input).pull ⟨cell, below, session, out⟩ = .ok () g) :
    ∃ rounds total k, deleteChunks t input rounds 0 ⟨cell, below, session, Chunk.blank [.bigInt] config.capacity⟩ =
        .ok total k ∧ g.session = k.session ∧ g.cell.progress = .delete true ∧
          (k.out = Chunk.blank [.bigInt] config.capacity → g.out.Sound ∧ g.out.types = [.bigInt] ∧
            g.out.rows = [[⟨.bigInt, .bigInt (Int64.ofNat total)⟩]]) := by
  obtain ⟨k, hwork, rfl⟩ := answer_ok hf h
  obtain ⟨p, f', hread, hwork⟩ := run_bind_eq_ok.mp hwork
  cases hread
  simp only [hp] at hwork
  obtain ⟨rounds, f', hrounds, hwork⟩ := run_bind_eq_ok.mp hwork
  cases hrounds
  obtain ⟨total, k', hdeleted, hwork⟩ := run_bind_eq_ok.mp hwork
  obtain ⟨_, k'', hset, hwork⟩ := run_bind_eq_ok.mp hwork
  cases hset
  refine ⟨_, total, k', hdeleted, ?_⟩
  unfold Pull.filling at hwork
  split at hwork
  · rename_i d hfilled
    cases hwork
    refine ⟨Frame.session_ended _, Frame.progress_ended _, fun hblank => ?_⟩
    have hfilled := hfilled
    rw [show ({ k' with cell := { k'.cell with progress := .delete true } } : Frame).out = Chunk.blank [.bigInt] config.capacity
      from hblank] at hfilled
    obtain ⟨hsound, htyped, -, hrows⟩ := handed_answer config.capacity hfilled
    rw [Frame.out_ended]
    exact ⟨hsound, htyped, hrows⟩
  · cases hwork

/-- From then on there is nothing. -/
theorem pull_deleted_ok {cell : Cell} {below : List Cell} {session : Session} {out : Chunk}
    (hp : cell.progress = .delete true) (h : (delete config t input).pull ⟨cell, below, session, out⟩ = .ok () g) :
    g.session = session ∧ g.out.isEmpty = true := by
  cases hf : cell.finished with
  | true =>
    let s : State := ⟨cell, below⟩
    have hf : s.cell.finished = true := hf
    have hend : (delete config t input).pull ⟨cell, below, session, out⟩ = _ := pull_of_finished rfl hf session out
    cases hend.symm.trans h
    exact ⟨rfl, rfl⟩
  | false =>
    obtain ⟨k, hwork, rfl⟩ := answer_ok hf h
    obtain ⟨p, f', hread, hwork⟩ := run_bind_eq_ok.mp hwork
    cases hread
    simp only [hp] at hwork
    cases hwork
    rw [Frame.session_ended, Frame.out_ended]
    exact ⟨rfl, rfl⟩

end Operator
end QueryEngine
