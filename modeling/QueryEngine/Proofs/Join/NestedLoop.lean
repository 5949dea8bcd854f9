import QueryEngine.Join.Kind
import QueryEngine.Proofs.Key.Lookup

/-! The nested-loop join: every left row is held against every right row.

It knows no index, no chunks and no selections. What a kind of join makes of a left
row depends on the right rows alone, so a join is what it makes of each left row in
turn. -/
namespace QueryEngine

/-- The keys of the left and of the right rows. -/
structure JoinKeys where
  left : Row → Key
  right : Row → Key

namespace JoinKeys
variable (k : JoinKeys) (right : List Row)

/-- The right rows that a left row matches. -/
def partners (l : Row) : List Row := right.filter fun r => (k.left l).joins (k.right r)

def hasPartner (l : Row) : Bool := right.any fun r => (k.left l).joins (k.right r)

/-- Whether a left row has a match. Over right rows it is unknown for a row without one
if there is a NULL in its key or in the key of a right row. -/
def mark (l : Row) : Option Bool :=
  if k.hasPartner right l then some true
  else if right.isEmpty then some false
  else if (k.left l).hasNull || right.any fun r => (k.right r).hasNull then none
  else some false

/-- What a left row is answered with. -/
def joinRow (kind : JoinKind) (rightTypes : List SqlType) (l : Row) : List Row :=
  match kind with
  | .inner => (k.partners right l).map (l ++ ·)
  | .left => if k.hasPartner right l then (k.partners right l).map (l ++ ·) else [l ++ rightTypes.map Datum.null]
  | .semi => if k.hasPartner right l then [l] else []
  | .anti => if k.hasPartner right l then [] else [l]
  | .mark => [l ++ [Datum.ofBoolean (k.mark right l)]]

def nestedLoop (kind : JoinKind) (rightTypes : List SqlType) (left right : List Row) : List Row :=
  left.flatMap (k.joinRow right kind rightTypes)

variable {k right}

theorem nestedLoop_append (kind : JoinKind) (rightTypes : List SqlType) (left left' : List Row) :
    k.nestedLoop kind rightTypes (left ++ left') right =
      k.nestedLoop kind rightTypes left right ++ k.nestedLoop kind rightTypes left' right :=
  List.flatMap_append

/-- Inner and semi joins with nothing are empty. -/
theorem nestedLoop_nothing {kind : JoinKind} (h : kind = .inner ∨ kind = .semi) (rightTypes : List SqlType)
    (left : List Row) : k.nestedLoop kind rightTypes left [] = [] := by
  rw [nestedLoop, List.flatMap_eq_nil_iff]
  intro l _
  rcases h with h | h <;> rw [h] <;> rfl

theorem nestedLoop_semi (rightTypes : List SqlType) (left : List Row) :
    k.nestedLoop .semi rightTypes left right = left.filter fun l => k.hasPartner right l := by
  induction left with
  | nil => rfl
  | cons l left ih =>
    have hhead : k.nestedLoop .semi rightTypes (l :: left) right =
        (if k.hasPartner right l then [l] else []) ++ k.nestedLoop .semi rightTypes left right := rfl
    rw [hhead, ih, List.filter_cons]
    split <;> rfl

theorem nestedLoop_anti (rightTypes : List SqlType) (left : List Row) :
    k.nestedLoop .anti rightTypes left right = left.filter fun l => !k.hasPartner right l := by
  induction left with
  | nil => rfl
  | cons l left ih =>
    have hhead : k.nestedLoop .anti rightTypes (l :: left) right =
        (if k.hasPartner right l then [] else [l]) ++ k.nestedLoop .anti rightTypes left right := rfl
    rw [hhead, ih, List.filter_cons]
    cases k.hasPartner right l <;> rfl

theorem nestedLoop_mark (rightTypes : List SqlType) (left : List Row) :
    k.nestedLoop .mark rightTypes left right = left.map fun l => l ++ [Datum.ofBoolean (k.mark right l)] :=
  List.map_eq_flatMap.symm

/-- Over no right rows, a left join pads every row. -/
theorem nestedLoop_left_nothing (rightTypes : List SqlType) (left : List Row) :
    k.nestedLoop .left rightTypes left [] = left.map fun l => l ++ rightTypes.map Datum.null :=
  List.map_eq_flatMap.symm

theorem partners_eq_nil {l : Row} (h : k.hasPartner right l = false) : k.partners right l = [] := by
  rw [partners, List.filter_eq_nil_iff]
  exact List.any_eq_false.mp h

end JoinKeys
end QueryEngine
