import QueryEngine.Proofs.Group.HandedOut
import QueryEngine.Proofs.Pull.Refused
import QueryEngine.Proofs.Window.Extended

/-! What operators hand out that were refused bytes before.

The bytes that a pull was refused may be there for the next one. A cross product or a join
then begins again, as if it had never been pulled. A sort, a window or a grouping does not:
what was read of its input is lost, and it hands out what it makes of the rest. -/
namespace QueryEngine

namespace Operator
open Pull
variable {op input : Operator} {sees : List (Nat × Mask) → Prop} {rows : List Row} {config : Config} {s : State}

/-- Operators that compute their output from all rows of their first input. -/
inductive Buffering where
  | order (keys : List SortKey)
  | window (calls : List WindowCall)
  | aggregate (keys : List Expr) (keyTypes : List SqlType) (calls : List AggregateCall)

def Buffering.operator (config : Config) (input : Operator) : Buffering → Operator
  | .order keys => Operator.order config keys input
  | .window calls => Operator.window config calls input
  | .aggregate keys keyTypes calls => Operator.aggregate config keys keyTypes calls input

/-- The output for the rows of an input. -/
def Buffering.output (types : List SqlType) (given : List Row) : Buffering → List Row
  | .order keys => sortRows keys types given
  | .window calls => windowRows calls types given
  | .aggregate keys keyTypes calls => groupedRows keys keyTypes calls given

theorem Computed.made {F : List Row → List Row} {types : List SqlType} {given : List Row} {f g : Frame} {o : Output}
    (h : Computed ⟨0, False, True, sees⟩ types F given f o g) :
    Made sees types (fun given all => all = F given) given f o g := by
  obtain ⟨all, hall, htold⟩ := h.holds
  exact ⟨h.sees, h.out, h.unfinished, h.position, all, hall, htold trivial⟩

/-- All that tells these operators apart is what they compute; wherever computing it ends,
the input has been read and no more. -/
theorem Buffering.blocking (b : Buffering) (config : Config) (input : Operator) (sees : List (Nat × Mask) → Prop) :
    ∃ keep compute next, Blocking config (b.operator config input) input keep compute next ∧
      (∀ f given, Gives ⟨0, False, True, sees⟩ input input given f.below → sees f.session.masks →
        Agree compute compute f
          (Made sees (b.operator config input).types (fun given all => all = b.output input.types given) given f)) ∧
      ∀ rows, Preserves compute (Reading keep input sees rows) := by
  cases b with
  | order keys =>
    exact ⟨_, _, _, blocking_order config keys input,
      fun f given hgiven hs => (agree_sortInput keys hgiven hs).mono fun _ _ => Computed.made,
      fun rows => preserves_sortInput (.reserve Reading.booked) preserves_readInto keys⟩
  | window calls =>
    exact ⟨_, _, _, blocking_window config calls input,
      fun f given hgiven hs => (agree_windowInput calls hgiven hs).mono fun _ _ => Computed.made,
      fun rows => preserves_windowInput (.reserve Reading.booked) preserves_readInto calls⟩
  | aggregate keys keyTypes calls =>
    exact ⟨_, _, _, blocking_aggregate config keys keyTypes calls input,
      fun f given hgiven hs => (agree_groupInput keyTypes hgiven hs).mono fun _ _ => Computed.made,
      fun rows => preserves_groupInput (.reserve Reading.booked) preserves_fetch keys keyTypes calls⟩

theorem tries_of_refused {session : Session} {f : Frame} (hsees : sees session.masks) (h : op.refused session = some f)
    (hnone : f.cell.progress = op.start.cell.progress) : op.Tries sees op.start ⟨f.cell, f.below⟩ := by
  unfold refused at h
  split at h
  · rename_i hfirst
    cases h
    exact .next hsees hfirst trivial hnone (.none _)
  · cases h

/-- However often reading an input was refused bytes: a cross product or a join is as at the
start. A sort, a window or a grouping, which from the start hands out what it makes of all
rows of its input, from then on hands out what it makes of those that are left. -/
theorem resumes_of_tries (config : Config) (sees : List (Nat × Mask) → Prop) :
    (∀ left right s, (cross config left right).Tries sees (cross config left right).start s →
      s = (cross config left right).start) ∧
    (∀ kind on left right s, (join config kind on left right).Tries sees (join config kind on left right).start s →
      s = (join config kind on left right).start) ∧
    ∀ (b : Buffering) input rows, input.Lasts sees rows input.start.cells →
      (∀ chunks t, (b.operator config input).Pulls sees (b.operator config input).start chunks t → chunks ≠ [] →
        HandsOut (b.operator config input) config.capacity (b.output input.types rows) chunks t) ∧
      ∀ s, (b.operator config input).Tries sees (b.operator config input).start s →
        ∃ read rest, rows = read ++ rest ∧ input.Lasts sees rest s.below ∧
          ∀ chunks t, (b.operator config input).Pulls sees s chunks t → chunks ≠ [] →
            HandsOut (b.operator config input) config.capacity (b.output input.types rest) chunks t := by
  refine ⟨fun left right s htries => Begins.tries begins_cross htries,
    fun kind on left right s htries => Begins.tries begins_join htries, fun b input rows h => ?_⟩
  obtain ⟨keep, compute, next, hop, hmade, hpreserves⟩ := b.blocking config input sees
  refine ⟨fun chunks t hrun hne => ?_, fun s htries => ?_⟩
  · obtain ⟨all, rfl, hout⟩ := hop.handsOut h.gives hmade hrun hne
    exact hout
  · have hstart : Unbegun keep input sees rows (b.operator config input).start := by
      rw [hop.start]
      exact ⟨rfl, rfl, [], rows, rfl, h⟩
    have hunbegun := hop.tries hmade (hpreserves rows) hstart htries
    obtain ⟨read, rest, hrows, hlasts⟩ := hunbegun.below
    refine ⟨read, rest, hrows, hlasts, fun chunks t hrun hne => ?_⟩
    obtain ⟨all, rfl, hout⟩ :=
      hop.handsOut_unstarted ⟨hunbegun.progress, hunbegun.unfinished, hlasts.gives⟩ hmade hrun hne
    exact hout

/-- There is room for one group. The second chunk is refused another, and only the third is
left: it is all that the grouping shows. A cross product and a join for whose right input
there is no room are as at the start. -/
theorem resumes_of_tries_rest :
    let config : Config := ⟨1, none, false⟩
    let first : Chunk := ⟨[.ofInts [1]], none, 1, 1⟩
    let second : Chunk := ⟨[.ofInts [2]], none, 1, 1⟩
    let third : Chunk := ⟨[.ofInts [3]], none, 1, 1⟩
    let input := source config [.bigInt] [first, second, third]
    let b : Buffering := .aggregate [.column 0 .bigInt] [.bigInt] []
    let op := b.operator config input
    let product := cross config input input
    let joined := join config .inner [(.column 0 .bigInt, .column 0 .bigInt)] input input
    (∃ f chunks t, op.refused (Session.ofLimit? (some (groupBytes 1 0))) = some f ∧
      op.Pulls (fun _ => True) ⟨f.cell, f.below⟩ chunks t ∧ chunks.map Chunk.rows = [[[⟨.bigInt, .bigInt 3⟩]], []] ∧
      ∃ read rest, [first, second, third].flatMap Chunk.rows = read ++ rest ∧
        HandsOut op config.capacity (b.output input.types rest) chunks t) ∧
    (∃ f, product.refused (Session.ofLimit? (some 0)) = some f ∧ (⟨f.cell, f.below⟩ : State) = product.start) ∧
    ∃ f, joined.refused (Session.ofLimit? (some 0)) = some f ∧ (⟨f.cell, f.below⟩ : State) = joined.start := by
  intro config first second third input b op product joined
  obtain ⟨hproduct, hjoined, hrest⟩ := resumes_of_tries config fun _ => True
  refine ⟨?_, ?_, ?_⟩
  · have hpulled : ((op.refused (Session.ofLimit? (some (groupBytes 1 0)))).bind fun f =>
        (op.pullTimes 2 ⟨f.cell, f.below⟩ f.session).map (List.map Chunk.rows)) =
          some [[[⟨.bigInt, .bigInt 3⟩]], []] := by
      decide +kernel
    have hnone : (op.refused (Session.ofLimit? (some (groupBytes 1 0)))).map (fun f => f.cell.progress) =
        some op.start.cell.progress := by
      rfl
    obtain ⟨f, hf, hpulled⟩ := Option.bind_eq_some_iff.mp hpulled
    obtain ⟨chunks, t, hrun, hrows⟩ := pulls_of_map (fun _ => trivial) hpulled
    have hne : chunks ≠ [] := by
      rintro rfl
      cases hrows
    have hsound : ∀ c ∈ [first, second, third], c.Sound ∧ c.types = [.bigInt] ∧ c.isEmpty = false := by decide
    have hlasts : input.Lasts (fun _ => True) ([first, second, third].flatMap Chunk.rows) input.start.cells :=
      .of_streams (source_streams config _ hsound) fun f =>
        (source_pull config (fun c hc => (hsound c hc).1) f).imp fun _ => And.left
    rw [hf] at hnone
    have htries : op.Tries (fun _ => True) op.start ⟨f.cell, f.below⟩ :=
      tries_of_refused trivial hf (Option.some.inj hnone)
    obtain ⟨read, rest, hall, -, hout⟩ := (hrest b input _ hlasts).2 _ htries
    exact ⟨f, chunks, t, hf, hrun, hrows, read, rest, hall, hout chunks t hrun hne⟩
  · have hnone : (product.refused (Session.ofLimit? (some 0))).map (fun f => f.cell.progress) =
        some product.start.cell.progress := by
      rfl
    obtain ⟨f, hf, hnone⟩ := Option.map_eq_some_iff.mp hnone
    exact ⟨f, hf, hproduct _ _ _ (tries_of_refused trivial hf hnone)⟩
  · have hnone : (joined.refused (Session.ofLimit? (some 0))).map (fun f => f.cell.progress) =
        some joined.start.cell.progress := by
      rfl
    obtain ⟨f, hf, hnone⟩ := Option.map_eq_some_iff.mp hnone
    exact ⟨f, hf, hjoined _ _ _ _ _ (tries_of_refused trivial hf hnone)⟩

/-- One row at a time, and room for one group. The first pull is refused bytes for the second
group; the next one ends the stream without a row, as if there had been none. -/
theorem aggregate_refused_ends :
    let table : Provider := ⟨0, ⟨"t", [.ofInts [1, 2]], 2, by decide⟩, 0⟩
    let config : Config := ⟨1, some (groupBytes 1 1), true⟩
    let input := scan config table [.column 0] [.bigInt]
    let op := aggregate config [.column 0 .bigInt] [.bigInt] [⟨.countStar, none, .bigInt⟩] input
    ((op.refused (Session.ofLimit? config.memoryLimit)).bind fun f =>
      (op.pullTimes 1 ⟨f.cell, f.below⟩ f.session).map (List.map Chunk.rows)) = some [[]] ∧
    (op.pullTimes 3 op.start (Session.ofLimit? none)).map (List.map Chunk.rows) =
      some [[[⟨.bigInt, .bigInt 1⟩, ⟨.bigInt, .bigInt 1⟩]], [[⟨.bigInt, .bigInt 2⟩, ⟨.bigInt, .bigInt 1⟩]], []] := by
  intro table config input op
  refine ⟨?_, ?_⟩
  · decide +kernel
  · decide +kernel

end Operator
end QueryEngine
