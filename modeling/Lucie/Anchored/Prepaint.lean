import Mathlib.Algebra.Order.Field.Rat
import Mathlib.Tactic.Linarith
import Lucie.Geometry.Bounds

/-!
# Anchored elements

An anchored element puts the box of its children at a corner that is fixed to a point. A box that
overflows the window is fixed at another corner, or is snapped to the edges of the window with a
margin. What is computed is the offset by which the children are moved, before it is rounded.
-/

set_option autoImplicit false

namespace Lucie

/-- `Corner`. -/
inductive Corner
  | topLeft
  | topRight
  | bottomLeft
  | bottomRight
  deriving DecidableEq

/-- `Axis`. -/
inductive Axis
  | horizontal
  | vertical

namespace Corner

/-- `Corner::other_side_corner_along`. -/
def otherSideCornerAlong (corner : Corner) : Axis → Corner
  | .vertical =>
    match corner with
    | topLeft => bottomLeft
    | topRight => bottomRight
    | bottomLeft => topLeft
    | bottomRight => topRight
  | .horizontal =>
    match corner with
    | topLeft => topRight
    | topRight => topLeft
    | bottomLeft => bottomRight
    | bottomRight => bottomLeft

end Corner

namespace Bounds

/-- `Bounds::from_corner_and_size`. -/
def fromCornerAndSize (corner : Corner) (origin : Point ℚ) (size : Size ℚ) : Bounds ℚ :=
  let origin : Point ℚ :=
    match corner with
    | .topLeft => origin
    | .topRight => ⟨origin.x - size.width, origin.y⟩
    | .bottomLeft => ⟨origin.x, origin.y - size.height⟩
    | .bottomRight => ⟨origin.x - size.width, origin.y - size.height⟩
  ⟨origin, size⟩

/-- `Bounds::corner`. -/
def corner (b : Bounds ℚ) : Corner → Point ℚ
  | .topLeft => b.origin
  | .topRight => ⟨b.origin.x + b.size.width, b.origin.y⟩
  | .bottomLeft => ⟨b.origin.x, b.origin.y + b.size.height⟩
  | .bottomRight => b.bottomRight

@[simp] theorem size_fromCornerAndSize (corner : Corner) (origin : Point ℚ) (size : Size ℚ) :
    (fromCornerAndSize corner origin size).size = size := rfl

/-- A box from a corner has this corner. -/
@[simp] theorem corner_fromCornerAndSize (corner : Corner) (origin : Point ℚ) (size : Size ℚ) :
    (fromCornerAndSize corner origin size).corner corner = origin := by
  cases corner <;> simp [fromCornerAndSize, Bounds.corner, bottomRight]

end Bounds

namespace Anchoring

/-- `Edges`. -/
structure Edges where
  top : ℚ
  right : ℚ
  bottom : ℚ
  left : ℚ

/-- `AnchoredFitMode`. -/
inductive AnchoredFitMode
  | snapToWindow
  | snapToWindowWithMargin (edges : Edges)
  | switchAnchor

/-- `AnchoredPositionMode`. -/
inductive AnchoredPositionMode
  | window
  | local

/-- An `Anchored` element, without its children. -/
structure Anchored where
  anchorCorner : Corner
  fitMode : AnchoredFitMode
  anchorPosition : Option (Point ℚ)
  positionMode : AnchoredPositionMode
  offset : Option (Point ℚ)

/-- What `prepaint` is called with: the bounds of the element, those of its children, and the size
and the inset of the window. -/
structure Surroundings where
  bounds : Bounds ℚ
  childBounds : List (Bounds ℚ)
  viewportSize : Size ℚ
  clientInset : Option ℚ

/-- `Pixels::MAX`, the greatest number of its type. -/
def pixelsMax : ℚ := (2 ^ 24 - 1) * 2 ^ 104

/-- `child_min` and `child_max` of `Anchored::prepaint`. -/
def measureChildren (childBounds : List (Bounds ℚ)) : Point ℚ × Point ℚ :=
  childBounds.foldl (fun corners b => (corners.1.min b.origin, corners.2.max b.bottomRight))
    (⟨pixelsMax, pixelsMax⟩, ⟨0, 0⟩)

/-- The size of the children that `Anchored::prepaint` finds. -/
def measuredSize (childBounds : List (Bounds ℚ)) : Size ℚ :=
  let corners := measureChildren childBounds
  ⟨corners.2.x - corners.1.x, corners.2.y - corners.1.y⟩

/-- `AnchoredPositionMode::get_position_and_bounds`. -/
def AnchoredPositionMode.getPositionAndBounds (mode : AnchoredPositionMode)
    (anchorPosition : Option (Point ℚ)) (anchorCorner : Corner) (size : Size ℚ)
    (bounds : Bounds ℚ) (offset : Option (Point ℚ)) : Point ℚ × Bounds ℚ :=
  let offset := offset.getD ⟨0, 0⟩
  match mode with
  | .window =>
    let anchorPosition := anchorPosition.getD bounds.origin
    (anchorPosition, .fromCornerAndSize anchorCorner
      ⟨anchorPosition.x + offset.x, anchorPosition.y + offset.y⟩ size)
  | .local =>
    let anchorPosition := anchorPosition.getD ⟨0, 0⟩
    (anchorPosition, .fromCornerAndSize anchorCorner
      ⟨bounds.origin.x + anchorPosition.x + offset.x,
        bounds.origin.y + anchorPosition.y + offset.y⟩ size)

/-- The box is left or right of what a viewport of this size shows. -/
def OverflowsX (viewport : Size ℚ) (b : Bounds ℚ) : Prop :=
  b.origin.x < 0 ∨ b.origin.x + b.size.width > viewport.width

/-- The box is above or below what a viewport of this size shows. -/
def OverflowsY (viewport : Size ℚ) (b : Bounds ℚ) : Prop :=
  b.origin.y < 0 ∨ b.origin.y + b.size.height > viewport.height

instance (viewport : Size ℚ) (b : Bounds ℚ) : Decidable (OverflowsX viewport b) :=
  inferInstanceAs (Decidable (_ ∨ _))

instance (viewport : Size ℚ) (b : Bounds ℚ) : Decidable (OverflowsY viewport b) :=
  inferInstanceAs (Decidable (_ ∨ _))

/-- The part of `Anchored::prepaint` for `AnchoredFitMode::SwitchAnchor`: the box at another corner
where the desired one overflows the viewport and the other one does not. -/
def switchCorners (anchorCorner : Corner) (origin : Point ℚ) (size viewport : Size ℚ)
    (desired : Bounds ℚ) : Bounds ℚ :=
  let otherCorner := anchorCorner.otherSideCornerAlong .horizontal
  let switched := Bounds.fromCornerAndSize otherCorner origin size
  let switches := OverflowsX viewport desired ∧ ¬ OverflowsX viewport switched
  let anchorCorner := if switches then otherCorner else anchorCorner
  let desired := if switches then switched else desired
  let switched := Bounds.fromCornerAndSize (anchorCorner.otherSideCornerAlong .vertical) origin size
  if OverflowsY viewport desired ∧ ¬ OverflowsY viewport switched then switched else desired

/-- `edges` of `Anchored::prepaint`. -/
def AnchoredFitMode.edges (mode : AnchoredFitMode) (clientInset : Option ℚ) : Edges :=
  let inset := clientInset.getD 0
  match mode with
  | .snapToWindowWithMargin edges =>
    ⟨edges.top + inset, edges.right + inset, edges.bottom + inset, edges.left + inset⟩
  | _ => ⟨0 + inset, 0 + inset, 0 + inset, 0 + inset⟩

/-- Snap a box along an axis to the far edge of the window, and then to the near one. -/
def snap (start length limit nearEdge farEdge : ℚ) : ℚ :=
  let start :=
    if start + length > limit then start - (start + length - limit + farEdge) else start
  if start < 0 then 0 + nearEdge else start

/-- `desired` of `Anchored::prepaint`, before it is snapped. -/
def Anchored.tried (a : Anchored) (s : Surroundings) : Bounds ℚ :=
  let size := measuredSize s.childBounds
  let position := a.positionMode.getPositionAndBounds a.anchorPosition a.anchorCorner size s.bounds
    a.offset
  match a.fitMode with
  | .switchAnchor => switchCorners a.anchorCorner position.1 size s.viewportSize position.2
  | _ => position.2

/-- `desired` of `Anchored::prepaint`, when it has been snapped. -/
def Anchored.desired (a : Anchored) (s : Surroundings) : Bounds ℚ :=
  let desired := a.tried s
  let edges := a.fitMode.edges s.clientInset
  { desired with origin :=
    ⟨snap desired.origin.x desired.size.width s.viewportSize.width edges.left edges.right,
      snap desired.origin.y desired.size.height s.viewportSize.height edges.top edges.bottom⟩ }

/-- The offset of the children in `Anchored::prepaint`, before it is rounded; there is none without
children. -/
def Anchored.prepaint (a : Anchored) (s : Surroundings) : Option (Point ℚ) :=
  if s.childBounds = [] then none
  else
    let desired := a.desired s
    some ⟨desired.origin.x - s.bounds.origin.x, desired.origin.y - s.bounds.origin.y⟩

end Anchoring

end Lucie
