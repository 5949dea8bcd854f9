import QueryEngine.Proofs.Join.Keys
import QueryEngine.Proofs.Pull.Join
import QueryEngine.Proofs.Pull.Leaf
import QueryEngine.Proofs.Pull.Runs

/-! The hash join is the nested-loop join.

Whatever chunks and selections the inputs come in, and however many pulls it takes to
hand the pairs of a left chunk out, a join that is pulled to its end without a failure
has handed out the rows of the nested loop, in its order. -/
namespace QueryEngine

namespace Operator

/-- Chunks of any size and selection, but none without rows, are a stream of their rows. -/
theorem source_streams (config : Config) (sees : List (Nat × Mask) → Prop) {types : List SqlType}
    {chunks : List Chunk} (hc : ∀ c ∈ chunks, c.Sound ∧ c.types = types ∧ c.isEmpty = false) :
    (source config types chunks).Streams sees (chunks.flatMap Chunk.rows) := by
  have hgives : Gives ⟨config.capacity, False, True, sees⟩ (source config types chunks) (source config types chunks)
      (chunks.flatMap Chunk.rows) (source config types chunks).start.cells := by
    refine gives_source rfl rfl fun c hmem => ?_
    obtain ⟨hsound, htyped, hfull⟩ := hc c hmem
    exact ⟨⟨hsound, htyped, fun h => h.elim⟩, hfull⟩
  exact hgives.of_untidy id (fun _ => trivial) rfl

/-- A chunk that passes verification and has rows is a stream of its rows. -/
theorem source_streams_chunk (config : Config) (sees : List (Nat × Mask) → Prop) {types : List SqlType} {c : Chunk}
    (hverified : c.verify = .ok ()) (htypes : c.types = types) (hne : c.isEmpty = false) :
    (source config types [c]).Streams sees c.rows := by
  have hc : ∀ d ∈ [c], d.Sound ∧ d.types = types ∧ d.isEmpty = false :=
    List.forall_mem_singleton.mpr ⟨(Chunk.verify_eq_ok_iff c).mp hverified, htypes, hne⟩
  have hstream := source_streams config sees hc
  rw [List.flatMap_singleton] at hstream
  exact hstream

/-- A join that has answered a pull has read its right input to the end and indexed it. -/
theorem join_reads_right (config : Config) {kind : JoinKind} {sees : List (Nat × Mask) → Prop} {left right : Operator}
    {keys : List (Expr × Expr)} {common : List SqlType} {key : Row → Key} {rightRows : List Row}
    (hkey : KeyOn (keys.map Prod.snd) right.types common key) (hright : right.Streams sees rightRows)
    {chunks : List Chunk} {s : State}
    (hrun : (join config kind keys left right).Pulls sees (join config kind keys left right).start chunks s)
    (hne : chunks ≠ []) : ∃ side : JoinSide, side.Indexes right.types common key rightRows := by
  let T : Terms := ⟨config.capacity, False, True, sees⟩
  let J : JoinTerms := ⟨kind, ⟨fun _ => [], key⟩, [], right.types, common, rightRows⟩
  have hright : Gives T right right J.right right.start.cells := hright.of_untidy id (fun _ => trivial) rfl
  cases hrun with
  | none => exact absurd rfl hne
  | next hs hpull _ =>
    obtain ⟨_, _, hprepared, hpull⟩ := run_bind_eq_ok.mp hpull
    cases hprepared
    obtain ⟨_, _, hf, hpull⟩ := run_bind_eq_ok.mp hpull
    cases hf
    obtain ⟨_, _, hwork, _⟩ := run_bind_eq_ok.mp hpull
    obtain ⟨_, _, hp, hwork⟩ := run_bind_eq_ok.mp hwork
    cases hp
    obtain ⟨side, g, hside, _⟩ := run_bind_eq_ok.mp hwork
    obtain ⟨⟨rows, hindexed, hrows⟩, _⟩ := (agree_joinRight (J := J) hright rfl hkey hs).2 side g hside
    rw [hrows trivial] at hindexed
    exact ⟨side, hindexed⟩

/-- Whatever is taken for the keys of the rows, as long as it is what the key expressions
have on chunks: the join hands out the nested loop. -/
theorem join_streams (config : Config) {kind : JoinKind} {sees : List (Nat × Mask) → Prop} {left right : Operator}
    {keys : List (Expr × Expr)} {common : List SqlType} {k : JoinKeys} {leftRows rightRows : List Row}
    (hleftKey : KeyOn (keys.map Prod.fst) left.types common k.left)
    (hrightKey : KeyOn (keys.map Prod.snd) right.types common k.right) (hleft : left.Streams sees leftRows)
    (hright : right.Streams sees rightRows) {chunks : List Chunk} {s : State}
    (hrun : (join config kind keys left right).Pulls sees (join config kind keys left right).start chunks s)
    (hend : ∃ c ∈ chunks, c.isEmpty = true) :
    chunks.flatMap Chunk.rows = k.nestedLoop kind right.types leftRows rightRows := by
  let T : Terms := ⟨config.capacity, False, True, sees⟩
  let J : JoinTerms := ⟨kind, k, left.types, right.types, common, rightRows⟩
  have hjoin : Gives T (join config kind keys left right) (join config kind keys left right) (J.rows leftRows)
      (join config kind keys left right).start.cells :=
    gives_join (J := J) rfl rfl rfl rfl hleftKey hrightKey (hleft.of_untidy id (fun _ => trivial) rfl)
      (hright.of_untidy id (fun _ => trivial) rfl)
  obtain ⟨_, rest, _, htold⟩ := hjoin.pulls hrun
  obtain ⟨hrows, hrest⟩ := htold trivial
  rw [hrest hend, List.append_nil] at hrows
  exact hrows.symm

end Operator
end QueryEngine
