import Lucie.Geometry.Bounds
import Mathlib.Algebra.Order.Ring.Int
import Mathlib.Data.Set.Basic

/-!
# The points of a rectangle

A rectangle is its set of points: it has its left and top edges, and not its right and bottom ones.
An intersection has the common points, and a union is the least rectangle with the points of both.
The test of containment asks for the right and bottom edges as well.
-/

set_option autoImplicit false

namespace Lucie.Bounds

variable {U : Type} [AddCommGroup U] [LinearOrder U]

/-- `Bounds::contains`. -/
def contains (b : Bounds U) (point : Point U) : Bool :=
  point.x ≥ b.origin.x && point.x < b.origin.x + b.size.width && point.y ≥ b.origin.y &&
    point.y < b.origin.y + b.size.height

/-- `Bounds::is_contained_within`. -/
def isContainedWithin (b other : Bounds U) : Bool :=
  other.contains b.origin && other.contains b.bottomRight

/-- The points of a rectangle. -/
def points (b : Bounds U) : Set (Point U) := {point | b.contains point = true}

/-- The points of a rectangle and of its right and bottom edges. -/
def closedPoints (b : Bounds U) : Set (Point U) :=
  {point | (b.origin.x ≤ point.x ∧ point.x ≤ b.bottomRight.x) ∧
    (b.origin.y ≤ point.y ∧ point.y ≤ b.bottomRight.y)}

/-- The size is positive. -/
structure Positive (b : Bounds U) : Prop where
  width : 0 < b.size.width
  height : 0 < b.size.height

variable {a b c : Bounds U} {point : Point U}

theorem mem_points : point ∈ b.points ↔
    (b.origin.x ≤ point.x ∧ point.x < b.bottomRight.x) ∧
      (b.origin.y ≤ point.y ∧ point.y < b.bottomRight.y) := by
  simp only [points, contains, bottomRight, Set.mem_ofPred_eq, Bool.and_eq_true, decide_eq_true_eq,
    ge_iff_le]
  tauto

theorem isContainedWithin_eq : b.isContainedWithin c = true ↔
    b.origin ∈ c.points ∧ b.bottomRight ∈ c.points := Bool.and_eq_true_iff

omit [AddCommGroup U] in
/-- The part of an interval that two intervals share. -/
theorem mem_interval_inter_iff {u x y x' y' : U} :
    max x x' ≤ u ∧ u < max (min y y') (max x x') ↔ (x ≤ u ∧ u < y) ∧ (x' ≤ u ∧ u < y') := by
  rw [max_le_iff, lt_max_iff, lt_min_iff]
  constructor
  · rintro ⟨⟨hx, hx'⟩, ⟨hy, hy'⟩ | hu⟩
    · exact ⟨⟨hx, hy⟩, hx', hy'⟩
    · exact absurd (max_le hx hx') (not_le_of_gt hu)
  · rintro ⟨⟨hx, hy⟩, hx', hy'⟩
    exact ⟨⟨hx, hx'⟩, .inl ⟨hy, hy'⟩⟩

theorem origin_intersect (a b : Bounds U) : (a.intersect b).origin = a.origin.max b.origin := rfl

theorem bottomRight_intersect (a b : Bounds U) : (a.intersect b).bottomRight =
    (a.bottomRight.min b.bottomRight).max (a.origin.max b.origin) := by
  rw [intersect, bottomRight_fromCorners]

/-- An intersection has the common points, also when there are none. -/
theorem points_intersect (a b : Bounds U) : (a.intersect b).points = a.points ∩ b.points := by
  ext point
  rw [Set.mem_inter_iff, mem_points, mem_points, mem_points, origin_intersect,
    bottomRight_intersect, Point.max_x, Point.max_y, Point.max_x, Point.max_y, Point.max_x,
    Point.max_y, Point.min_x, Point.min_y, mem_interval_inter_iff, mem_interval_inter_iff]
  tauto

/-- Where the corners of a rectangle enclose those of another, it has all points of the other. -/
theorem Covers.points_subset (h : b.Covers a) : a.points ⊆ b.points := by
  intro point hpoint
  obtain ⟨⟨hleft, hright⟩, htop, hbottom⟩ := mem_points.mp hpoint
  exact mem_points.mpr ⟨⟨h.left.trans hleft, hright.trans_le h.right⟩,
    h.top.trans htop, hbottom.trans_le h.bottom⟩

section Ordered

variable [IsOrderedAddMonoid U]

theorem Positive.left_lt (h : a.Positive) : a.origin.x < a.bottomRight.x :=
  lt_add_of_pos_right _ h.width

theorem Positive.top_lt (h : a.Positive) : a.origin.y < a.bottomRight.y :=
  lt_add_of_pos_right _ h.height

theorem Positive.origin_mem (h : a.Positive) : a.origin ∈ a.points :=
  mem_points.mpr ⟨⟨le_refl _, h.left_lt⟩, le_refl _, h.top_lt⟩

/-- A rectangle with points has all points of another one only when its corners enclose those of
the other: or else a point on its own right or bottom edge is in the other one. -/
theorem Positive.points_subset_iff (ha : a.Positive) : a.points ⊆ b.points ↔ b.Covers a := by
  refine ⟨fun hsubset => ?_, Covers.points_subset⟩
  obtain ⟨⟨hleft, hright⟩, htop, hbottom⟩ := mem_points.mp (hsubset ha.origin_mem)
  refine ⟨hleft, htop, ?_, ?_⟩
  · by_contra! hlt
    have hmem : (⟨b.bottomRight.x, a.origin.y⟩ : Point U) ∈ a.points :=
      mem_points.mpr ⟨⟨hright.le, hlt⟩, le_refl _, ha.top_lt⟩
    exact lt_irrefl _ (mem_points.mp (hsubset hmem)).1.2
  · by_contra! hlt
    have hmem : (⟨a.origin.x, b.bottomRight.y⟩ : Point U) ∈ a.points :=
      mem_points.mpr ⟨⟨le_refl _, ha.left_lt⟩, hbottom.le, hlt⟩
    exact lt_irrefl _ (mem_points.mp (hsubset hmem)).2.2

/-- The size of an intersection is what the later left and top edges are before the earlier right
and bottom ones. -/
theorem positive_intersect_iff : (a.intersect b).Positive ↔
    max a.origin.x b.origin.x < min a.bottomRight.x b.bottomRight.x ∧
      max a.origin.y b.origin.y < min a.bottomRight.y b.bottomRight.y := by
  have hwidth : (a.intersect b).size.width =
      max (min a.bottomRight.x b.bottomRight.x) (max a.origin.x b.origin.x) -
        max a.origin.x b.origin.x := by
    rw [intersect, fromCorners, Point.max_x, Point.max_x, Point.min_x]
  have hheight : (a.intersect b).size.height =
      max (min a.bottomRight.y b.bottomRight.y) (max a.origin.y b.origin.y) -
        max a.origin.y b.origin.y := by
    rw [intersect, fromCorners, Point.max_y, Point.max_y, Point.min_y]
  constructor
  · rintro ⟨hw, hh⟩
    rw [hwidth, sub_pos, lt_max_iff] at hw
    rw [hheight, sub_pos, lt_max_iff] at hh
    exact ⟨hw.resolve_right (lt_irrefl _), hh.resolve_right (lt_irrefl _)⟩
  · rintro ⟨hw, hh⟩
    refine ⟨?_, ?_⟩
    · rw [hwidth, sub_pos]
      exact lt_max_of_lt_left hw
    · rw [hheight, sub_pos]
      exact lt_max_of_lt_left hh

/-- Rectangles overlap when their intersection has a positive size. -/
theorem Positive.intersects_iff (ha : a.Positive) (hb : b.Positive) :
    a.intersects b = true ↔ (a.intersect b).Positive := by
  rw [positive_intersect_iff]
  simp only [intersects, Bool.and_eq_true, decide_eq_true_eq, max_lt_iff, lt_min_iff, ha.left_lt,
    ha.top_lt, hb.left_lt, hb.top_lt, true_and, and_true, gt_iff_lt]
  tauto

/-- What the corners enclose is what the edges enclose. -/
theorem Positive.isContainedWithin_iff (ha : a.Positive) :
    a.isContainedWithin b = true ↔ a.closedPoints ⊆ b.points := by
  rw [isContainedWithin_eq]
  constructor
  · rintro ⟨horigin, hcorner⟩ point ⟨⟨hleft, hright⟩, htop, hbottom⟩
    obtain ⟨⟨hleft', -⟩, htop', -⟩ := mem_points.mp horigin
    obtain ⟨⟨-, hright'⟩, -, hbottom'⟩ := mem_points.mp hcorner
    exact mem_points.mpr ⟨⟨hleft'.trans hleft, hright.trans_lt hright'⟩,
      htop'.trans htop, hbottom.trans_lt hbottom'⟩
  · intro hsubset
    refine ⟨hsubset ?_, hsubset ?_⟩
    · exact ⟨⟨le_refl _, ha.left_lt.le⟩, le_refl _, ha.top_lt.le⟩
    · exact ⟨⟨ha.left_lt.le, le_refl _⟩, ha.top_lt.le, le_refl _⟩

end Ordered

end Lucie.Bounds
