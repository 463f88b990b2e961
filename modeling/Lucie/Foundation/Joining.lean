import Lucie.Foundation.Journal
import Mathlib.Algebra.BigOperators.Group.List.Basic
import Mathlib.Algebra.Order.BigOperators.Group.List
import Mathlib.Algebra.Order.Group.Defs

/-!
# Joining segments

Segments stand next to one another from a place on, and some of them are marked. One pass over them
joins neighbours that are marked to intervals. It keeps one interval open, which has no width where
the last segment is not marked.
-/

set_option autoImplicit false

namespace Lucie.Foundation

variable {U : Type}

structure Segment (U : Type) where
  width : U
  marked : Prop

section Width

variable [AddCommGroup U]

/-- The width of segments. -/
def widthOf (segments : List (Segment U)) : U := (segments.map Segment.width).sum

@[simp] theorem widthOf_nil : widthOf ([] : List (Segment U)) = 0 := rfl

@[simp] theorem widthOf_cons (segment : Segment U) (segments : List (Segment U)) :
    widthOf (segment :: segments) = segment.width + widthOf segments := by
  simp [widthOf]

@[simp] theorem widthOf_append (segments more : List (Segment U)) :
    widthOf (segments ++ more) = widthOf segments + widthOf more := by
  simp [widthOf]

end Width

variable [AddCommGroup U] [LinearOrder U]

/-- A place is in a marked segment. -/
def InMarked (place : U) (segments : List (Segment U)) (x : U) : Prop :=
  ∃ before segment after, segments = before ++ segment :: after ∧ segment.marked ∧
    place + widthOf before ≤ x ∧ x < place + widthOf before + segment.width

theorem inMarked_nil (place x : U) : ¬InMarked place [] x := by
  rintro ⟨before, segment, after, heq, -⟩
  simp at heq

theorem inMarked_snoc (place : U) (segments : List (Segment U)) (segment : Segment U) (x : U) :
    InMarked place (segments ++ [segment]) x ↔ InMarked place segments x ∨
      segment.marked ∧ place + widthOf segments ≤ x ∧
        x < place + widthOf segments + segment.width := by
  constructor
  · rintro ⟨before, other, after, heq, hmarked⟩
    obtain ⟨rfl, rfl⟩ | ⟨rest, heq⟩ := snoc_eq_append_cons heq
    · exact .inr hmarked
    · exact .inl ⟨before, other, rest, heq, hmarked⟩
  · rintro (⟨before, other, after, rfl, hmarked⟩ | hmarked)
    · exact ⟨before, other, after ++ [segment], by simp, hmarked⟩
    · exact ⟨segments, segment, [], rfl, hmarked⟩

/-- A segment ends before those behind it begin. -/
theorem right_le_widthOf [IsOrderedAddMonoid U] (place : U) (before : List (Segment U))
    (segment : Segment U) {between : List (Segment U)} (hwidth : ∀ s ∈ between, 0 ≤ s.width) :
    place + widthOf before + segment.width ≤ place + widthOf (before ++ segment :: between) := by
  have hbetween : 0 ≤ widthOf between := List.sum_nonneg fun width hmem => by
    obtain ⟨s, hs, rfl⟩ := List.mem_map.mp hmem
    exact hwidth s hs
  rw [widthOf_append, widthOf_cons, ← add_assoc, ← add_assoc]
  exact le_add_of_nonneg_right hbetween

/-- A place in a segment is in no other one. -/
theorem inMarked_iff [IsOrderedAddMonoid U] {place x : U} {before : List (Segment U)}
    {segment : Segment U} {after : List (Segment U)}
    (hwidth : ∀ s ∈ before ++ segment :: after, 0 ≤ s.width) (hle : place + widthOf before ≤ x)
    (hlt : x < place + widthOf before + segment.width) :
    InMarked place (before ++ segment :: after) x ↔ segment.marked := by
  refine ⟨?_, fun hmarked => ⟨before, segment, after, rfl, hmarked, hle, hlt⟩⟩
  rintro ⟨before', other, after', heq, hmarked, hle', hlt'⟩
  rcases List.append_eq_append_iff.mp heq with ⟨between, rfl, hsegment⟩ | ⟨between, rfl, hother⟩
  · rcases between with - | ⟨first, between⟩
    · obtain ⟨rfl, -⟩ := List.cons_eq_cons.mp hsegment
      exact hmarked
    · obtain ⟨rfl, rfl⟩ := List.cons_eq_cons.mp hsegment
      have hright := right_le_widthOf place before segment fun s (hs : s ∈ between) =>
        hwidth s (by simp [hs])
      exact absurd (hlt.trans_le hright) (not_lt.mpr hle')
  · rcases between with - | ⟨first, between⟩
    · obtain ⟨rfl, -⟩ := List.cons_eq_cons.mp hother
      exact hmarked
    · obtain ⟨rfl, rfl⟩ := List.cons_eq_cons.mp hother
      have hright := right_le_widthOf place before' other fun s (hs : s ∈ between) =>
        hwidth s (by simp [hs])
      exact absurd (hlt'.trans_le hright) (not_lt.mpr hle)

/-- The open interval of a pass, and those that it closed. -/
structure Joining (U : Type) where
  left : U
  right : U
  closed : List (U × U)

/-- The intervals of a pass, with the open one if it has a width. -/
def Joining.intervals (j : Joining U) : List (U × U) :=
  if j.right ≠ j.left then j.closed ++ [(j.left, j.right)] else j.closed

/-- A marked segment makes the open interval wider, another one closes it. -/
def Joining.step (j : Joining U) (segment : Segment U) [Decidable segment.marked] : Joining U :=
  if segment.marked then { j with right := j.right + segment.width }
  else ⟨j.right + segment.width, j.right + segment.width, j.intervals⟩

/-- The intervals cover the marked segments and nothing else, and stand in order. -/
structure Joined (place : U) (segments : List (Segment U)) (j : Joining U) : Prop where
  right : j.right = place + widthOf segments
  left_le : j.left ≤ j.right
  ordered : j.closed.Pairwise fun a b => a.2 ≤ b.1
  behind : ∀ interval ∈ j.closed, interval.1 < interval.2 ∧ interval.2 ≤ j.left
  covers : ∀ x, (∃ interval ∈ j.closed, interval.1 ≤ x ∧ x < interval.2) ∨
    j.left ≤ x ∧ x < j.right ↔ InMarked place segments x

variable {place : U} {segments : List (Segment U)} {j : Joining U}

theorem joined_nil (place : U) : Joined place [] ⟨place, place, []⟩ where
  right := by simp
  left_le := le_rfl
  ordered := .nil
  behind := by simp
  covers x := by
    refine iff_of_false ?_ (inMarked_nil place x)
    rintro (⟨interval, hinterval, -⟩ | ⟨hle, hlt⟩)
    · exact List.not_mem_nil hinterval
    · exact absurd hlt (not_lt.mpr hle)

namespace Joined

/-- The intervals after the last segment. -/
theorem mem_intervals (h : Joined place segments j) {x : U} :
    (∃ interval ∈ j.intervals, interval.1 ≤ x ∧ x < interval.2) ↔ InMarked place segments x := by
  rw [← h.covers, Joining.intervals]
  split_ifs with hne
  · simp [or_and_right, exists_or]
  · rw [not_not.mp hne]
    exact (or_iff_left fun hx => absurd hx.2 (not_lt.mpr hx.1)).symm

theorem ordered_intervals (h : Joined place segments j) :
    j.intervals.Pairwise fun a b => a.2 ≤ b.1 := by
  unfold Joining.intervals
  split_ifs with hne
  · refine List.pairwise_append.mpr ⟨h.ordered, List.pairwise_singleton _ _, ?_⟩
    intro a ha b hb
    obtain rfl := List.mem_singleton.mp hb
    exact (h.behind a ha).2
  · exact h.ordered

theorem behind_intervals (h : Joined place segments j) :
    ∀ interval ∈ j.intervals, interval.1 < interval.2 ∧ interval.2 ≤ j.right := by
  intro interval hmem
  unfold Joining.intervals at hmem
  split_ifs at hmem with hne
  · rcases List.mem_append.mp hmem with hmem | hmem
    · exact ⟨(h.behind interval hmem).1, (h.behind interval hmem).2.trans h.left_le⟩
    · obtain rfl := List.mem_singleton.mp hmem
      exact ⟨lt_of_le_of_ne h.left_le (Ne.symm hne), le_rfl⟩
  · exact ⟨(h.behind interval hmem).1, (h.behind interval hmem).2.trans h.left_le⟩

/-- One more segment. -/
theorem step [IsOrderedAddMonoid U] (h : Joined place segments j) (segment : Segment U)
    [Decidable segment.marked] (hwidth : 0 ≤ segment.width) :
    Joined place (segments ++ [segment]) (j.step segment) := by
  have hright : j.right + segment.width = place + widthOf (segments ++ [segment]) := by
    rw [h.right, widthOf_append, widthOf_cons, widthOf_nil, add_zero, add_assoc]
  have hle : j.right ≤ j.right + segment.width := le_add_of_nonneg_right hwidth
  unfold Joining.step
  split_ifs with hmarked
  · refine ⟨hright, h.left_le.trans hle, h.ordered, h.behind, fun x => ?_⟩
    rw [inMarked_snoc, ← h.covers, ← h.right, or_assoc]
    refine or_congr_right ?_
    constructor
    · rintro ⟨hleft, hlt⟩
      rcases lt_or_ge x j.right with hlt' | hge
      · exact .inl ⟨hleft, hlt'⟩
      · exact .inr ⟨hmarked, hge, hlt⟩
    · rintro (⟨hleft, hlt⟩ | ⟨-, hge, hlt⟩)
      · exact ⟨hleft, hlt.trans_le hle⟩
      · exact ⟨h.left_le.trans hge, hlt⟩
  · refine ⟨hright, le_rfl, h.ordered_intervals, fun interval hmem => ?_, fun x => ?_⟩
    · exact ⟨(h.behind_intervals interval hmem).1,
        (h.behind_intervals interval hmem).2.trans hle⟩
    · rw [inMarked_snoc, ← h.mem_intervals]
      refine or_congr_right (iff_of_false ?_ fun hin => hmarked hin.1)
      exact fun hx => absurd hx.2 (not_lt.mpr hx.1)

end Joined

end Lucie.Foundation
