import Mathlib.Algebra.Order.Group.Defs
import Mathlib.Algebra.Group.Basic
import Mathlib.Tactic.Common

/-!
# Rectangles

Points, sizes and bounds over exact, totally ordered coordinates. The relation
`Covers` compares the corners of two rectangles; it is what a union guarantees and
what makes an intersection test on a union safe to prune with.
-/

set_option autoImplicit false

namespace Lucie

structure Point (U : Type) where
  x : U
  y : U
  deriving DecidableEq

structure Size (U : Type) where
  width : U
  height : U
  deriving DecidableEq

structure Bounds (U : Type) where
  origin : Point U
  size : Size U
  deriving DecidableEq

namespace Point

variable {U : Type} [LinearOrder U]

/-- `Point::max`. -/
def max (p q : Point U) : Point U :=
  ⟨if p.x > q.x then p.x else q.x, if p.y > q.y then p.y else q.y⟩

/-- `Point::min`. -/
def min (p q : Point U) : Point U :=
  ⟨if p.x ≤ q.x then p.x else q.x, if p.y ≤ q.y then p.y else q.y⟩

@[simp] theorem max_x (p q : Point U) : (p.max q).x = Max.max p.x q.x := by
  simp only [max]
  split
  · rename_i h
    rw [max_eq_left h.le]
  · rename_i h
    rw [max_eq_right (not_lt.mp h)]

@[simp] theorem max_y (p q : Point U) : (p.max q).y = Max.max p.y q.y := by
  simp only [max]
  split
  · rename_i h
    rw [max_eq_left h.le]
  · rename_i h
    rw [max_eq_right (not_lt.mp h)]

@[simp] theorem min_x (p q : Point U) : (p.min q).x = Min.min p.x q.x := by
  simp only [min, min_def]

@[simp] theorem min_y (p q : Point U) : (p.min q).y = Min.min p.y q.y := by
  simp only [min, min_def]

end Point

namespace Bounds

variable {U : Type} [AddCommGroup U] [LinearOrder U]

/-- `Bounds::from_corners`. -/
def fromCorners (topLeft bottomRight : Point U) : Bounds U :=
  ⟨topLeft, ⟨bottomRight.x - topLeft.x, bottomRight.y - topLeft.y⟩⟩

/-- `Bounds::bottom_right`. -/
def bottomRight (b : Bounds U) : Point U :=
  ⟨b.origin.x + b.size.width, b.origin.y + b.size.height⟩

/-- `Bounds::intersects`: whether the two rectangles overlap strictly. -/
def intersects (b other : Bounds U) : Bool :=
  b.origin.x < other.bottomRight.x && b.bottomRight.x > other.origin.x &&
    b.origin.y < other.bottomRight.y && b.bottomRight.y > other.origin.y

/-- `Bounds::half_perimeter`. -/
def halfPerimeter (b : Bounds U) : U := b.size.width + b.size.height

/-- `Bounds::intersect`. -/
def intersect (b other : Bounds U) : Bounds U :=
  let upperLeft := b.origin.max other.origin
  let bottomRight := (b.bottomRight.min other.bottomRight).max upperLeft
  fromCorners upperLeft bottomRight

/-- `Bounds::union`. -/
def union (b other : Bounds U) : Bounds U :=
  let topLeft := b.origin.min other.origin
  let bottomRight := b.bottomRight.max other.bottomRight
  fromCorners topLeft bottomRight

/-- `Bounds::is_empty`. -/
def isEmpty (b : Bounds U) : Bool := b.size.width ≤ 0 || b.size.height ≤ 0

omit [LinearOrder U] in
@[simp] theorem bottomRight_fromCorners (topLeft bottomRight : Point U) :
    (fromCorners topLeft bottomRight).bottomRight = bottomRight := by
  simp [fromCorners, Bounds.bottomRight]

@[simp] theorem origin_union (a b : Bounds U) : (a.union b).origin = a.origin.min b.origin := rfl

@[simp] theorem bottomRight_union (a b : Bounds U) :
    (a.union b).bottomRight = a.bottomRight.max b.bottomRight := by
  simp [union]

/-- The corners of one rectangle enclose those of another. -/
structure Covers (outer inner : Bounds U) : Prop where
  left : outer.origin.x ≤ inner.origin.x
  top : outer.origin.y ≤ inner.origin.y
  right : inner.bottomRight.x ≤ outer.bottomRight.x
  bottom : inner.bottomRight.y ≤ outer.bottomRight.y

namespace Covers

variable {a b c : Bounds U}

theorem refl (a : Bounds U) : a.Covers a := ⟨le_refl _, le_refl _, le_refl _, le_refl _⟩

theorem trans (hab : a.Covers b) (hbc : b.Covers c) : a.Covers c :=
  ⟨hab.left.trans hbc.left, hab.top.trans hbc.top, hbc.right.trans hab.right,
    hbc.bottom.trans hab.bottom⟩

theorem union_left (a b : Bounds U) : (a.union b).Covers a := by
  constructor <;> simp

theorem union_right (a b : Bounds U) : (a.union b).Covers b := by
  constructor <;> simp

/-- A rectangle that covers two others covers their union. -/
theorem union (ha : c.Covers a) (hb : c.Covers b) : c.Covers (a.union b) := by
  constructor
  · simpa using ⟨ha.left, hb.left⟩
  · simpa using ⟨ha.top, hb.top⟩
  · simpa using ⟨ha.right, hb.right⟩
  · simpa using ⟨ha.bottom, hb.bottom⟩

/-- What overlaps a rectangle overlaps everything that covers it. -/
theorem intersects_of (hab : a.Covers b) {query : Bounds U}
    (h : query.intersects b = true) : query.intersects a = true := by
  simp only [intersects, Bool.and_eq_true, decide_eq_true_eq] at h ⊢
  obtain ⟨⟨⟨h₁, h₂⟩, h₃⟩, h₄⟩ := h
  exact ⟨⟨⟨h₁.trans_le hab.right, hab.left.trans_lt h₂⟩, h₃.trans_le hab.bottom⟩,
    hab.top.trans_lt h₄⟩

end Covers

theorem intersects_comm (a b : Bounds U) : a.intersects b = b.intersects a := by
  rw [Bool.eq_iff_iff]
  simp only [intersects, Bool.and_eq_true, decide_eq_true_eq, gt_iff_lt]
  tauto

/-- A rectangle does not overlap what ends to the left of it. -/
theorem intersects_eq_false_of_le {a b : Bounds U} (h : b.bottomRight.x ≤ a.origin.x) :
    a.intersects b = false := by
  rw [← Bool.not_eq_true]
  intro hoverlap
  simp only [intersects, Bool.and_eq_true, decide_eq_true_eq] at hoverlap
  exact absurd hoverlap.1.1.1 (not_lt_of_ge h)

end Bounds

end Lucie
