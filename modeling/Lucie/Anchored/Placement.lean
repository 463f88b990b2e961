import Lucie.Anchored.Prepaint

/-!
# Where anchored elements are placed

The children of an anchored element should end up inside the window less its margins, where they
were asked for if they fit there, and else at the same point with another corner. They do if they
were measured right, nothing shifts the point, and no box that fits the window reaches into the
margins.
-/

set_option autoImplicit false

namespace Lucie.Anchoring

open Bounds

/-- The least box with all children in it. -/
def childrenBox : List (Bounds ℚ) → Bounds ℚ
  | [] => ⟨⟨0, 0⟩, ⟨0, 0⟩⟩
  | first :: rest => rest.foldl union first

/-- The children when they have been moved. -/
def moved (b : Bounds ℚ) (offset : Point ℚ) : Bounds ℚ :=
  ⟨⟨b.origin.x + offset.x, b.origin.y + offset.y⟩, b.size⟩

namespace Anchored

variable (a : Anchored) (s : Surroundings)

/-- What is added to the anchor position: the offset and, locally, the origin of the element. -/
def shift : Point ℚ :=
  let offset := a.offset.getD ⟨0, 0⟩
  match a.positionMode with
  | .window => offset
  | .local => ⟨s.bounds.origin.x + offset.x, s.bounds.origin.y + offset.y⟩

/-- The anchor position that is used. -/
def position : Point ℚ :=
  match a.positionMode with
  | .window => a.anchorPosition.getD s.bounds.origin
  | .local => a.anchorPosition.getD ⟨0, 0⟩

/-- The point in the window at which a corner of the box should be. -/
def target : Point ℚ := ⟨(a.position s).x + (a.shift s).x, (a.position s).y + (a.shift s).y⟩

/-- The box of the children with a corner at the target. -/
def boxAt (corner : Corner) : Bounds ℚ :=
  fromCornerAndSize corner (a.target s) (childrenBox s.childBounds).size

/-- The box that is asked for. -/
def requested : Bounds ℚ := a.boxAt s a.anchorCorner

/-- The viewport less the margins and the inset. -/
def limits : Bounds ℚ :=
  let edges := a.fitMode.edges s.clientInset
  ⟨⟨edges.left, edges.top⟩, ⟨s.viewportSize.width - edges.left - edges.right,
    s.viewportSize.height - edges.top - edges.bottom⟩⟩

/-- The children fit between the margins. -/
def Fits : Prop :=
  (childrenBox s.childBounds).size.width ≤ (a.limits s).size.width ∧
    (childrenBox s.childBounds).size.height ≤ (a.limits s).size.height

/-- The children are placed as they should. -/
structure Places (placed : Bounds ℚ) : Prop where
  inside : a.Fits s → (a.limits s).Covers placed
  kept : (a.limits s).Covers (a.requested s) → placed = a.requested s
  anchored : a.fitMode = .switchAnchor → (∃ corner, (a.limits s).Covers (a.boxAt s corner)) →
    ∃ corner, placed.corner corner = a.target s

/-- `prepaint` places the children, if there are any. -/
def PlacesChildren : Prop :=
  ∀ offset, a.prepaint s = some offset → a.Places s (moved (childrenBox s.childBounds) offset)

/-- A box is between the left and the right limit. -/
def WithinX (b : Bounds ℚ) : Prop :=
  (a.limits s).origin.x ≤ b.origin.x ∧ b.bottomRight.x ≤ (a.limits s).bottomRight.x

/-- A box is between the upper and the lower limit. -/
def WithinY (b : Bounds ℚ) : Prop :=
  (a.limits s).origin.y ≤ b.origin.y ∧ b.bottomRight.y ≤ (a.limits s).bottomRight.y

/-- There are children that begin where the element does and do not all end before the origin of
the window. -/
structure Measured : Prop where
  nonempty : s.childBounds ≠ []
  origin_eq : (childrenBox s.childBounds).origin = s.bounds.origin
  origin_x_le : s.bounds.origin.x ≤ pixelsMax
  origin_y_le : s.bounds.origin.y ≤ pixelsMax
  right_nonneg : 0 ≤ (childrenBox s.childBounds).bottomRight.x
  bottom_nonneg : 0 ≤ (childrenBox s.childBounds).bottomRight.y

/-- No margin is negative, with the inset. -/
structure EdgesNonneg : Prop where
  top : 0 ≤ (a.fitMode.edges s.clientInset).top
  right : 0 ≤ (a.fitMode.edges s.clientInset).right
  bottom : 0 ≤ (a.fitMode.edges s.clientInset).bottom
  left : 0 ≤ (a.fitMode.edges s.clientInset).left

/-- Where another corner is looked for, nothing is added to the anchor position. -/
def Unshifted : Prop :=
  a.fitMode = .switchAnchor →
    OverflowsX s.viewportSize (a.requested s) ∨ OverflowsY s.viewportSize (a.requested s) →
      a.shift s = ⟨0, 0⟩

/-- Children that fit between the margins do not reach into them where the window is wide or high
enough for them: not where they are asked for and, if they are not seen there, not at the other
corner. -/
structure ClearOfMargins : Prop where
  requested_x : a.Fits s → ¬ OverflowsX s.viewportSize (a.requested s) →
    a.WithinX s (a.requested s)
  requested_y : a.Fits s → ¬ OverflowsY s.viewportSize (a.requested s) →
    a.WithinY s (a.requested s)
  switched_x : a.Fits s → a.fitMode = .switchAnchor →
    OverflowsX s.viewportSize (a.requested s) →
    ¬ OverflowsX s.viewportSize (a.boxAt s (a.anchorCorner.otherSideCornerAlong .horizontal)) →
    a.WithinX s (a.boxAt s (a.anchorCorner.otherSideCornerAlong .horizontal))
  switched_y : a.Fits s → a.fitMode = .switchAnchor →
    OverflowsY s.viewportSize (a.requested s) →
    ¬ OverflowsY s.viewportSize (a.boxAt s (a.anchorCorner.otherSideCornerAlong .vertical)) →
    a.WithinY s (a.boxAt s (a.anchorCorner.otherSideCornerAlong .vertical))

end Anchored

/-! ## Along an axis -/

section Snap

variable {start length limit nearEdge farEdge : ℚ}

/-- What the window shows stays. -/
theorem snap_eq_self (hstart : ¬ (start < 0 ∨ start + length > limit)) :
    snap start length limit nearEdge farEdge = start := by
  rw [not_or] at hstart
  rw [snap, if_neg hstart.2, if_neg hstart.1]

/-- What overflows the window goes between the edges. -/
theorem snap_within (hoverflow : start < 0 ∨ start + length > limit)
    (hfits : length ≤ limit - nearEdge - farEdge) (hnear : 0 ≤ nearEdge) :
    nearEdge ≤ snap start length limit nearEdge farEdge ∧
      snap start length limit nearEdge farEdge + length ≤ limit - farEdge := by
  by_cases hfar : start + length > limit
  · have hmoved : start - (start + length - limit + farEdge) = limit - length - farEdge := by
      linarith
    have hnonneg : ¬ limit - length - farEdge < 0 := by linarith
    rw [snap, if_pos hfar, hmoved, if_neg hnonneg]
    constructor <;> linarith
  · have hstart : start < 0 := hoverflow.resolve_right hfar
    rw [snap, if_neg hfar, if_pos hstart]
    constructor <;> linarith

end Snap

/-! ## Corners -/

section Corners

variable (corner : Corner) (p : Point ℚ) (size : Size ℚ)

theorem fromCornerAndSize_vertical_x :
    (fromCornerAndSize (corner.otherSideCornerAlong .vertical) p size).origin.x =
      (fromCornerAndSize corner p size).origin.x := by
  cases corner <;> rfl

theorem fromCornerAndSize_horizontal_y :
    (fromCornerAndSize (corner.otherSideCornerAlong .horizontal) p size).origin.y =
      (fromCornerAndSize corner p size).origin.y := by
  cases corner <;> rfl

theorem fromCornerAndSize_both_y :
    (fromCornerAndSize ((corner.otherSideCornerAlong .horizontal).otherSideCornerAlong .vertical)
        p size).origin.y =
      (fromCornerAndSize (corner.otherSideCornerAlong .vertical) p size).origin.y := by
  cases corner <;> rfl

/-- Along an axis there are two boxes at a point. -/
theorem fromCornerAndSize_x_or (corner' : Corner) :
    (fromCornerAndSize corner' p size).origin.x = (fromCornerAndSize corner p size).origin.x ∨
      (fromCornerAndSize corner' p size).origin.x =
        (fromCornerAndSize (corner.otherSideCornerAlong .horizontal) p size).origin.x := by
  cases corner <;> cases corner' <;> first | exact Or.inl rfl | exact Or.inr rfl

theorem fromCornerAndSize_y_or (corner' : Corner) :
    (fromCornerAndSize corner' p size).origin.y = (fromCornerAndSize corner p size).origin.y ∨
      (fromCornerAndSize corner' p size).origin.y =
        (fromCornerAndSize (corner.otherSideCornerAlong .vertical) p size).origin.y := by
  cases corner <;> cases corner' <;> first | exact Or.inl rfl | exact Or.inr rfl

end Corners

section Overflows

variable (viewport : Size ℚ) {b b' : Bounds ℚ}

theorem overflowsX_congr (hx : b.origin.x = b'.origin.x) (hsize : b.size = b'.size) :
    OverflowsX viewport b ↔ OverflowsX viewport b' := by
  rw [OverflowsX, OverflowsX, hx, hsize]

theorem overflowsY_congr (hy : b.origin.y = b'.origin.y) (hsize : b.size = b'.size) :
    OverflowsY viewport b ↔ OverflowsY viewport b' := by
  rw [OverflowsY, OverflowsY, hy, hsize]

/-- Around a point, the corners are switched along each axis on its own. -/
theorem switchCorners_spec (corner : Corner) (p : Point ℚ) (size viewport : Size ℚ) :
    ∃ corner', switchCorners corner p size viewport (fromCornerAndSize corner p size) =
        fromCornerAndSize corner' p size ∧
      (fromCornerAndSize corner' p size).origin.x =
        (if OverflowsX viewport (fromCornerAndSize corner p size) ∧ ¬ OverflowsX viewport
            (fromCornerAndSize (corner.otherSideCornerAlong .horizontal) p size) then
          (fromCornerAndSize (corner.otherSideCornerAlong .horizontal) p size).origin.x
        else (fromCornerAndSize corner p size).origin.x) ∧
      (fromCornerAndSize corner' p size).origin.y =
        (if OverflowsY viewport (fromCornerAndSize corner p size) ∧ ¬ OverflowsY viewport
            (fromCornerAndSize (corner.otherSideCornerAlong .vertical) p size) then
          (fromCornerAndSize (corner.otherSideCornerAlong .vertical) p size).origin.y
        else (fromCornerAndSize corner p size).origin.y) := by
  have hboth := fromCornerAndSize_both_y corner p size
  have hside := fromCornerAndSize_horizontal_y corner p size
  have hbothY := overflowsY_congr viewport hboth rfl
  have hsideY := overflowsY_congr viewport hside rfl
  unfold switchCorners
  dsimp only
  by_cases hx : OverflowsX viewport (fromCornerAndSize corner p size) ∧ ¬ OverflowsX viewport
      (fromCornerAndSize (corner.otherSideCornerAlong .horizontal) p size)
  · simp only [if_pos hx, hsideY, hbothY]
    by_cases hy : OverflowsY viewport (fromCornerAndSize corner p size) ∧ ¬ OverflowsY viewport
        (fromCornerAndSize (corner.otherSideCornerAlong .vertical) p size)
    · simp only [if_pos hy]
      exact ⟨_, rfl, fromCornerAndSize_vertical_x _ p size, hboth⟩
    · simp only [if_neg hy]
      exact ⟨_, rfl, rfl, hside⟩
  · simp only [if_neg hx]
    by_cases hy : OverflowsY viewport (fromCornerAndSize corner p size) ∧ ¬ OverflowsY viewport
        (fromCornerAndSize (corner.otherSideCornerAlong .vertical) p size)
    · simp only [if_pos hy]
      exact ⟨_, rfl, fromCornerAndSize_vertical_x _ p size, rfl⟩
    · simp only [if_neg hy]
      exact ⟨_, rfl, rfl, rfl⟩

/-- A box that is seen stays. -/
theorem switchCorners_of_seen (corner : Corner) (p : Point ℚ) (size viewport : Size ℚ)
    (hx : ¬ OverflowsX viewport b) (hy : ¬ OverflowsY viewport b) :
    switchCorners corner p size viewport b = b := by
  unfold switchCorners
  dsimp only
  have hswitch : ¬ (OverflowsX viewport b ∧ ¬ OverflowsX viewport
      (fromCornerAndSize (corner.otherSideCornerAlong .horizontal) p size)) := fun h => hx h.1
  rw [if_neg hswitch, if_neg hswitch, if_neg fun h => hy h.1]

end Overflows

/-! ## The children -/

theorem Point.min_min (p q r : Point ℚ) : Point.min (Point.min p q) r = p.min (q.min r) := by
  have hx : (Point.min (Point.min p q) r).x = (p.min (q.min r)).x := by
    simp only [Point.min_x, min_assoc]
  have hy : (Point.min (Point.min p q) r).y = (p.min (q.min r)).y := by
    simp only [Point.min_y, min_assoc]
  exact congrArg₂ Point.mk hx hy

theorem Point.max_max (p q r : Point ℚ) : Point.max (Point.max p q) r = p.max (q.max r) := by
  have hx : (Point.max (Point.max p q) r).x = (p.max (q.max r)).x := by
    simp only [Point.max_x, max_assoc]
  have hy : (Point.max (Point.max p q) r).y = (p.max (q.max r)).y := by
    simp only [Point.max_y, max_assoc]
  exact congrArg₂ Point.mk hx hy

/-- The corners that are measured are those of the box, from the starting values on. -/
theorem foldl_measure (p q : Point ℚ) (first : Bounds ℚ) (rest : List (Bounds ℚ)) :
    rest.foldl (fun corners b => (corners.1.min b.origin, corners.2.max b.bottomRight))
        (p.min first.origin, q.max first.bottomRight) =
      (p.min (rest.foldl union first).origin, q.max (rest.foldl union first).bottomRight) := by
  induction rest generalizing first with
  | nil => rfl
  | cons b rest ih =>
    have hmin : (p.min first.origin).min b.origin = p.min (first.union b).origin := by
      rw [origin_union, Point.min_min]
    have hmax : (q.max first.bottomRight).max b.bottomRight =
        q.max (first.union b).bottomRight := by
      rw [bottomRight_union, Point.max_max]
    rw [List.foldl_cons, List.foldl_cons, hmin, hmax, ih]

/-- The size of children that are measured right. -/
theorem Anchored.Measured.measuredSize_eq {s : Surroundings} (h : Anchored.Measured s) :
    measuredSize s.childBounds = (childrenBox s.childBounds).size := by
  obtain ⟨hnonempty, horigin, hx, hy, hright, hbottom⟩ := h
  cases hchildren : s.childBounds with
  | nil => exact absurd hchildren hnonempty
  | cons first rest =>
    rw [hchildren] at horigin hright hbottom
    have hfold := foldl_measure ⟨pixelsMax, pixelsMax⟩ ⟨0, 0⟩ first rest
    change _ = (Point.min _ (childrenBox (first :: rest)).origin,
      Point.max _ (childrenBox (first :: rest)).bottomRight) at hfold
    rw [measuredSize, measureChildren, List.foldl_cons, hfold]
    generalize childrenBox (first :: rest) = box at horigin hright hbottom
    simp only [Point.min_x, Point.min_y, Point.max_x, Point.max_y, horigin, min_eq_right hx,
      min_eq_right hy, max_eq_right hright, max_eq_right hbottom]
    simp only [bottomRight, horigin, add_sub_cancel_left]

/-! ## The box before it is snapped -/

namespace Anchored

variable {a : Anchored} {s : Surroundings}

theorem getPositionAndBounds_eq (a : Anchored) (s : Surroundings) (size : Size ℚ) :
    a.positionMode.getPositionAndBounds a.anchorPosition a.anchorCorner size s.bounds a.offset =
      (a.position s, fromCornerAndSize a.anchorCorner (a.target s) size) := by
  unfold target position shift
  cases a.positionMode with
  | window => rfl
  | «local» =>
    simp only [AnchoredPositionMode.getPositionAndBounds, Prod.mk.injEq, true_and]
    rw [add_left_comm, ← add_assoc, add_left_comm (a.anchorPosition.getD ⟨0, 0⟩).y, ← add_assoc]

/-- The box that is tried: at the target with some corner, which is another one along an axis where
the requested box is not seen and the other one is. -/
structure Tries (a : Anchored) (s : Surroundings) (b : Bounds ℚ) : Prop where
  eq_boxAt : ∃ corner, b = a.boxAt s corner
  x_kept : ¬ (a.fitMode = .switchAnchor ∧ OverflowsX s.viewportSize (a.requested s) ∧
      ¬ OverflowsX s.viewportSize (a.boxAt s (a.anchorCorner.otherSideCornerAlong .horizontal))) →
    b.origin.x = (a.requested s).origin.x
  y_kept : ¬ (a.fitMode = .switchAnchor ∧ OverflowsY s.viewportSize (a.requested s) ∧
      ¬ OverflowsY s.viewportSize (a.boxAt s (a.anchorCorner.otherSideCornerAlong .vertical))) →
    b.origin.y = (a.requested s).origin.y
  x_switched : a.fitMode = .switchAnchor → OverflowsX s.viewportSize (a.requested s) →
    ¬ OverflowsX s.viewportSize (a.boxAt s (a.anchorCorner.otherSideCornerAlong .horizontal)) →
    b.origin.x = (a.boxAt s (a.anchorCorner.otherSideCornerAlong .horizontal)).origin.x
  y_switched : a.fitMode = .switchAnchor → OverflowsY s.viewportSize (a.requested s) →
    ¬ OverflowsY s.viewportSize (a.boxAt s (a.anchorCorner.otherSideCornerAlong .vertical)) →
    b.origin.y = (a.boxAt s (a.anchorCorner.otherSideCornerAlong .vertical)).origin.y

theorem Tries.requested (hmode : a.fitMode = .switchAnchor →
    ¬ OverflowsX s.viewportSize (a.requested s) ∧ ¬ OverflowsY s.viewportSize (a.requested s)) :
    a.Tries s (a.requested s) where
  eq_boxAt := ⟨a.anchorCorner, rfl⟩
  x_kept _ := rfl
  y_kept _ := rfl
  x_switched hswitch hx _ := absurd hx (hmode hswitch).1
  y_switched hswitch hy _ := absurd hy (hmode hswitch).2

theorem tries_tried (hmeasured : Measured s) (hunshifted : a.Unshifted s) :
    a.Tries s (a.tried s) := by
  have hposition := getPositionAndBounds_eq a s (childrenBox s.childBounds).size
  have hrequested : fromCornerAndSize a.anchorCorner (a.target s) (childrenBox s.childBounds).size =
      a.requested s := rfl
  have hsize := hmeasured.measuredSize_eq
  cases hmode : a.fitMode with
  | snapToWindow =>
    have htried : a.tried s = a.requested s := by
      simp only [tried, hmode, hsize, hposition, hrequested]
    exact htried ▸ Tries.requested fun h => by rw [hmode] at h; cases h
  | snapToWindowWithMargin edges =>
    have htried : a.tried s = a.requested s := by
      simp only [tried, hmode, hsize, hposition, hrequested]
    exact htried ▸ Tries.requested fun h => by rw [hmode] at h; cases h
  | switchAnchor =>
    have htried : a.tried s = switchCorners a.anchorCorner (a.position s)
        (childrenBox s.childBounds).size s.viewportSize (a.requested s) := by
      simp only [tried, hmode, hsize, hposition, hrequested]
    rw [htried]
    by_cases hseen : ¬ OverflowsX s.viewportSize (a.requested s) ∧
        ¬ OverflowsY s.viewportSize (a.requested s)
    · rw [switchCorners_of_seen _ _ _ _ hseen.1 hseen.2]
      exact Tries.requested fun _ => hseen
    · have hover : OverflowsX s.viewportSize (a.requested s) ∨
          OverflowsY s.viewportSize (a.requested s) := by
        rwa [not_and_or, not_not, not_not] at hseen
      have hshift := hunshifted hmode hover
      have htarget : a.position s = a.target s := by
        simp only [target, hshift, add_zero]
      obtain ⟨corner, heq, hx, hy⟩ := switchCorners_spec a.anchorCorner (a.target s)
        (childrenBox s.childBounds).size s.viewportSize
      rw [htarget, ← hrequested, heq]
      refine ⟨⟨corner, rfl⟩, fun hkept => ?_, fun hkept => ?_, fun _ hover hother => ?_,
        fun _ hover hother => ?_⟩
      · exact hx.trans (if_neg fun h => hkept ⟨hmode, h⟩)
      · exact hy.trans (if_neg fun h => hkept ⟨hmode, h⟩)
      · exact hx.trans (if_pos ⟨hover, hother⟩)
      · exact hy.trans (if_pos ⟨hover, hother⟩)

/-! ## The box after it is snapped -/

theorem moved_eq (hmeasured : Measured s) {offset : Point ℚ}
    (hoffset : a.prepaint s = some offset) :
    moved (childrenBox s.childBounds) offset =
      ⟨(a.desired s).origin, (childrenBox s.childBounds).size⟩ := by
  rw [prepaint, if_neg hmeasured.nonempty] at hoffset
  obtain rfl := Option.some.inj hoffset
  simp only [moved, hmeasured.origin_eq, add_sub_cancel]

section Placed

variable {b : Bounds ℚ} (hb : a.Tries s b)
include hb

theorem Tries.size_eq : b.size = (childrenBox s.childBounds).size := by
  obtain ⟨corner, rfl⟩ := hb.eq_boxAt
  rfl

/-- A box with a corner at the target is the requested one or the other one along an axis. -/
theorem Tries.not_overflowsX (hmode : a.fitMode = .switchAnchor) {corner : Corner}
    (hcorner : ¬ OverflowsX s.viewportSize (a.boxAt s corner)) :
    ¬ OverflowsX s.viewportSize b := by
  by_cases hover : OverflowsX s.viewportSize (a.requested s)
  · have hother : ¬ OverflowsX s.viewportSize
        (a.boxAt s (a.anchorCorner.otherSideCornerAlong .horizontal)) := by
      obtain hx | hx := fromCornerAndSize_x_or a.anchorCorner (a.target s)
        (childrenBox s.childBounds).size corner
      · exact absurd ((overflowsX_congr _ hx rfl).mpr hover) hcorner
      · exact fun h => hcorner ((overflowsX_congr _ hx rfl).mpr h)
    exact fun h => hother ((overflowsX_congr _ (hb.x_switched hmode hover hother) hb.size_eq).mp h)
  · have hx := hb.x_kept fun h => hover h.2.1
    exact fun h => hover ((overflowsX_congr _ hx hb.size_eq).mp h)

theorem Tries.not_overflowsY (hmode : a.fitMode = .switchAnchor) {corner : Corner}
    (hcorner : ¬ OverflowsY s.viewportSize (a.boxAt s corner)) :
    ¬ OverflowsY s.viewportSize b := by
  by_cases hover : OverflowsY s.viewportSize (a.requested s)
  · have hother : ¬ OverflowsY s.viewportSize
        (a.boxAt s (a.anchorCorner.otherSideCornerAlong .vertical)) := by
      obtain hy | hy := fromCornerAndSize_y_or a.anchorCorner (a.target s)
        (childrenBox s.childBounds).size corner
      · exact absurd ((overflowsY_congr _ hy rfl).mpr hover) hcorner
      · exact fun h => hcorner ((overflowsY_congr _ hy rfl).mpr h)
    exact fun h => hother ((overflowsY_congr _ (hb.y_switched hmode hover hother) hb.size_eq).mp h)
  · have hy := hb.y_kept fun h => hover h.2.1
    exact fun h => hover ((overflowsY_congr _ hy hb.size_eq).mp h)

/-- A box that is seen and clear of the margins is between them. -/
theorem Tries.withinX (hclear : a.ClearOfMargins s) (hfits : a.Fits s)
    (hseen : ¬ OverflowsX s.viewportSize b) : a.WithinX s b := by
  by_cases hswitch : a.fitMode = .switchAnchor ∧ OverflowsX s.viewportSize (a.requested s) ∧
      ¬ OverflowsX s.viewportSize (a.boxAt s (a.anchorCorner.otherSideCornerAlong .horizontal))
  · obtain ⟨hmode, hover, hother⟩ := hswitch
    have hx := hb.x_switched hmode hover hother
    have hwithin := hclear.switched_x hfits hmode hover hother
    rw [WithinX, bottomRight] at hwithin ⊢
    rwa [hx, hb.size_eq]
  · have hx := hb.x_kept hswitch
    have hwithin := hclear.requested_x hfits fun h =>
      hseen ((overflowsX_congr _ hx hb.size_eq).mpr h)
    rw [WithinX, bottomRight] at hwithin ⊢
    rwa [hx, hb.size_eq]

theorem Tries.withinY (hclear : a.ClearOfMargins s) (hfits : a.Fits s)
    (hseen : ¬ OverflowsY s.viewportSize b) : a.WithinY s b := by
  by_cases hswitch : a.fitMode = .switchAnchor ∧ OverflowsY s.viewportSize (a.requested s) ∧
      ¬ OverflowsY s.viewportSize (a.boxAt s (a.anchorCorner.otherSideCornerAlong .vertical))
  · obtain ⟨hmode, hover, hother⟩ := hswitch
    have hy := hb.y_switched hmode hover hother
    have hwithin := hclear.switched_y hfits hmode hover hother
    rw [WithinY, bottomRight] at hwithin ⊢
    rwa [hy, hb.size_eq]
  · have hy := hb.y_kept hswitch
    have hwithin := hclear.requested_y hfits fun h =>
      hseen ((overflowsY_congr _ hy hb.size_eq).mpr h)
    rw [WithinY, bottomRight] at hwithin ⊢
    rwa [hy, hb.size_eq]

end Placed

/-- The limits are part of the window. -/
theorem EdgesNonneg.not_overflowsX (hedges : a.EdgesNonneg s) {b : Bounds ℚ}
    (hcovers : (a.limits s).Covers b) : ¬ OverflowsX s.viewportSize b := by
  have hleft := hcovers.left
  have hright := hcovers.right
  simp only [limits, bottomRight] at hleft hright
  rintro (hx | hx)
  · linarith [hedges.left]
  · linarith [hedges.right]

theorem EdgesNonneg.not_overflowsY (hedges : a.EdgesNonneg s) {b : Bounds ℚ}
    (hcovers : (a.limits s).Covers b) : ¬ OverflowsY s.viewportSize b := by
  have htop := hcovers.top
  have hbottom := hcovers.bottom
  simp only [limits, bottomRight] at htop hbottom
  rintro (hy | hy)
  · linarith [hedges.top]
  · linarith [hedges.bottom]

theorem desired_x (hseen : ¬ OverflowsX s.viewportSize (a.tried s)) :
    (a.desired s).origin.x = (a.tried s).origin.x := snap_eq_self hseen

theorem desired_y (hseen : ¬ OverflowsY s.viewportSize (a.tried s)) :
    (a.desired s).origin.y = (a.tried s).origin.y := snap_eq_self hseen

/-- Children that fit are put between the limits, from the left to the right. -/
theorem desired_withinX (htried : a.Tries s (a.tried s)) (hedges : a.EdgesNonneg s)
    (hclear : a.ClearOfMargins s) (hfits : a.Fits s) :
    a.WithinX s ⟨(a.desired s).origin, (childrenBox s.childBounds).size⟩ := by
  by_cases hover : OverflowsX s.viewportSize (a.tried s)
  · have hwidth := hfits.1
    rw [← htried.size_eq] at hwidth
    obtain ⟨hleft, hright⟩ := snap_within hover hwidth hedges.left
    rw [htried.size_eq] at hleft hright
    simp only [WithinX, limits, bottomRight, desired, htried.size_eq]
    constructor <;> linarith
  · have hwithin := htried.withinX hclear hfits hover
    rw [WithinX, bottomRight] at hwithin ⊢
    rwa [desired_x hover, ← htried.size_eq]

/-- And from the top to the bottom. -/
theorem desired_withinY (htried : a.Tries s (a.tried s)) (hedges : a.EdgesNonneg s)
    (hclear : a.ClearOfMargins s) (hfits : a.Fits s) :
    a.WithinY s ⟨(a.desired s).origin, (childrenBox s.childBounds).size⟩ := by
  by_cases hover : OverflowsY s.viewportSize (a.tried s)
  · have hheight := hfits.2
    rw [← htried.size_eq] at hheight
    obtain ⟨htop, hbottom⟩ := snap_within hover hheight hedges.top
    rw [htried.size_eq] at htop hbottom
    simp only [WithinY, limits, bottomRight, desired, htried.size_eq]
    constructor <;> linarith
  · have hwithin := htried.withinY hclear hfits hover
    rw [WithinY, bottomRight] at hwithin ⊢
    rwa [desired_y hover, ← htried.size_eq]

/-- Children that are measured right, at a point that nothing shifts, and clear of the margins are
placed as they should. -/
theorem places_of_clear (hmeasured : Measured s) (hedges : a.EdgesNonneg s)
    (hunshifted : a.Unshifted s) (hclear : a.ClearOfMargins s) : a.PlacesChildren s := by
  intro offset hoffset
  rw [moved_eq hmeasured hoffset]
  have htried := tries_tried hmeasured hunshifted
  have hsize := htried.size_eq
  refine ⟨fun hfits => ?_, fun hcovers => ?_, fun hmode ⟨corner, hcovers⟩ => ?_⟩
  · have hx := desired_withinX htried hedges hclear hfits
    have hy := desired_withinY htried hedges hclear hfits
    exact ⟨hx.1, hy.1, hx.2, hy.2⟩
  · -- the requested box is seen, so that nothing is switched or snapped
    have hseenX := hedges.not_overflowsX hcovers
    have hseenY := hedges.not_overflowsY hcovers
    have hx := htried.x_kept fun h => hseenX h.2.1
    have hy := htried.y_kept fun h => hseenY h.2.1
    have hdesiredX := desired_x fun h => hseenX ((overflowsX_congr _ hx hsize).mp h)
    have hdesiredY := desired_y fun h => hseenY ((overflowsY_congr _ hy hsize).mp h)
    exact congrArg₂ Bounds.mk (congrArg₂ Point.mk (hdesiredX.trans hx) (hdesiredY.trans hy)) rfl
  · -- the box that is tried is seen and stays at the target
    have hdesiredX := desired_x (htried.not_overflowsX hmode (hedges.not_overflowsX hcovers))
    have hdesiredY := desired_y (htried.not_overflowsY hmode (hedges.not_overflowsY hcovers))
    obtain ⟨corner', heq⟩ := htried.eq_boxAt
    have hplaced : (⟨(a.desired s).origin, (childrenBox s.childBounds).size⟩ : Bounds ℚ) =
        a.boxAt s corner' := by
      rw [← heq, ← hsize]
      exact congrArg₂ Bounds.mk (congrArg₂ Point.mk hdesiredX hdesiredY) rfl
    exact ⟨corner', by rw [hplaced]; exact corner_fromCornerAndSize _ _ _⟩

/-- Where the children are measured right and nothing shifts the point, they have to be clear of the
margins. -/
theorem clear_of_places (hmeasured : Measured s) (hunshifted : a.Unshifted s)
    (hplaces : a.PlacesChildren s) : a.ClearOfMargins s := by
  have hoffset : a.prepaint s = some ⟨(a.desired s).origin.x - s.bounds.origin.x,
      (a.desired s).origin.y - s.bounds.origin.y⟩ := if_neg hmeasured.nonempty
  have hplaced := hplaces _ hoffset
  rw [moved_eq hmeasured hoffset] at hplaced
  have htried := tries_tried hmeasured hunshifted
  have hsize := htried.size_eq
  -- a box that is seen stays, and so is where the children are placed
  have hwithinX {b : Bounds ℚ} (hb : b.size = (childrenBox s.childBounds).size)
      (hx : (a.tried s).origin.x = b.origin.x) (hfits : a.Fits s)
      (hseen : ¬ OverflowsX s.viewportSize b) : a.WithinX s b := by
    have hdesired := desired_x fun h =>
      hseen ((overflowsX_congr _ hx (hsize.trans hb.symm)).mp h)
    have hcovers := hplaced.inside hfits
    have hright := hcovers.right
    rw [bottomRight, hdesired, hx, ← hb] at hright
    exact ⟨hx ▸ hdesired ▸ hcovers.left, hright⟩
  have hwithinY {b : Bounds ℚ} (hb : b.size = (childrenBox s.childBounds).size)
      (hy : (a.tried s).origin.y = b.origin.y) (hfits : a.Fits s)
      (hseen : ¬ OverflowsY s.viewportSize b) : a.WithinY s b := by
    have hdesired := desired_y fun h =>
      hseen ((overflowsY_congr _ hy (hsize.trans hb.symm)).mp h)
    have hcovers := hplaced.inside hfits
    have hbottom := hcovers.bottom
    rw [bottomRight, hdesired, hy, ← hb] at hbottom
    exact ⟨hy ▸ hdesired ▸ hcovers.top, hbottom⟩
  exact {
    requested_x := fun hfits hseen => hwithinX rfl (htried.x_kept fun h => hseen h.2.1) hfits hseen
    requested_y := fun hfits hseen => hwithinY rfl (htried.y_kept fun h => hseen h.2.1) hfits hseen
    switched_x := fun hfits hmode hover hother =>
      hwithinX rfl (htried.x_switched hmode hover hother) hfits hother
    switched_y := fun hfits hmode hover hother =>
      hwithinY rfl (htried.y_switched hmode hover hother) hfits hother }

end Anchored

/-- A child of twenty by twenty in a window of a hundred by a hundred. -/
def smallChild (left : ℚ) : Surroundings where
  bounds := ⟨⟨left, 10⟩, ⟨20, 20⟩⟩
  childBounds := [⟨⟨left, 10⟩, ⟨20, 20⟩⟩]
  viewportSize := ⟨100, 100⟩
  clientInset := none

end Lucie.Anchoring
