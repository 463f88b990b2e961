import Lucie.Anchored.Placement
import Lucie.Div.ScrollHandle

/-!
# Scrolling wherever the element is

How far an element can be scrolled should not depend on where in the window it is. The extent of
the children is found from their corners in the window, and the greatest right and bottom edges are
searched from zero on instead of from the least number. So the content of an element whose children
all end left of or above the window is measured too large.
-/

set_option autoImplicit false

namespace Lucie

namespace Div

open Foundation Anchoring

/-- What a `Div` keeps of how far it is scrolled: the handle that it tracks, else an offset of its
own if it scrolls, else nothing. -/
inductive DivScroll
  | tracked (handle : ScrollHandleState)
  | untracked (offset : Point ℚ)
  | unscrolled

/-- What `Div::prepaint` finds: the size of the content, and how far it can be and is scrolled. -/
structure DivOutcome where
  contentSize : Size ℚ
  scrollMax : Option (Size ℚ)
  offset : Point ℚ
  deriving DecidableEq

namespace DivScroll

/-- What `Div::prepaint` does with the scroll offset. Without a handle there is no request for a
child or for the bottom. -/
def prepaint (s : DivScroll) (f : DivFrame) : DivScroll :=
  match s with
  | tracked handle => tracked (handle.prepaint f)
  | untracked offset =>
    let scrollMax := f.scrollMax
    untracked ⟨UniformList.clamp offset.x (-scrollMax.width) 0,
      UniformList.clamp offset.y (-scrollMax.height) 0⟩
  | unscrolled => unscrolled

/-- The offset that `clamp_scroll_position` returns. -/
def scrollOffset : DivScroll → Point ℚ
  | tracked handle => handle.offset
  | untracked offset => offset
  | unscrolled => ⟨0, 0⟩

/-- The range that `clamp_scroll_position` finds. -/
def scrollRange (s : DivScroll) (f : DivFrame) : Option (Size ℚ) :=
  match s with
  | tracked handle => some (handle.prepaint f).maxOffset
  | untracked _ => some f.scrollMax
  | unscrolled => none

def outcome (s : DivScroll) (f : DivFrame) : DivOutcome :=
  ⟨f.contentSize, s.scrollRange f, (s.prepaint f).scrollOffset⟩

end DivScroll

/-! ## The same elements at another place -/

/-- The element and its children somewhere else. -/
def DivFrame.moved (f : DivFrame) (t : Point ℚ) : DivFrame :=
  { f with
    bounds := Anchoring.moved f.bounds t
    childBounds := f.childBounds.map (Anchoring.moved · t) }

/-- The handle after the same prepaints somewhere else. -/
def ScrollHandleState.moved (s : ScrollHandleState) (t : Point ℚ) : ScrollHandleState :=
  { s with
    bounds := Anchoring.moved s.bounds t
    childBounds := s.childBounds.map (Anchoring.moved · t) }

def DivScroll.moved (s : DivScroll) (t : Point ℚ) : DivScroll :=
  match s with
  | tracked handle => tracked (handle.moved t)
  | untracked offset => untracked offset
  | unscrolled => unscrolled

/-- The children begin at numbers of their type. -/
def DivFrame.Representable (f : DivFrame) : Prop :=
  ∀ b ∈ f.childBounds, b.origin.x ≤ pixelsMax ∧ b.origin.y ≤ pixelsMax

instance (f : DivFrame) : Decidable f.Representable :=
  inferInstanceAs (Decidable (∀ b ∈ f.childBounds, _))

/-- Along each axis along which the element is moved, one of its children ends inside of the window
or after it, before it is moved and afterwards. -/
structure DivFrame.EndsInside (f : DivFrame) (t : Point ℚ) : Prop where
  x : t.x = 0 ∨ 0 ≤ (childrenBox f.childBounds).bottomRight.x ∧
    0 ≤ (childrenBox f.childBounds).bottomRight.x + t.x
  y : t.y = 0 ∨ 0 ≤ (childrenBox f.childBounds).bottomRight.y ∧
    0 ≤ (childrenBox f.childBounds).bottomRight.y + t.y

/-! ## The extent of the children -/

section Extent

variable {bs : List (Bounds ℚ)} {f : DivFrame} {t : Point ℚ}

theorem bottomRight_moved (b : Bounds ℚ) (t : Point ℚ) : (Anchoring.moved b t).bottomRight =
    ⟨b.bottomRight.x + t.x, b.bottomRight.y + t.y⟩ := by
  simp only [Bounds.bottomRight, Anchoring.moved, Point.mk.injEq]
  exact ⟨add_right_comm _ _ _, add_right_comm _ _ _⟩

theorem union_moved (a b : Bounds ℚ) (t : Point ℚ) :
    (Anchoring.moved a t).union (Anchoring.moved b t) = Anchoring.moved (a.union b) t := by
  have hmin : (Anchoring.moved a t).origin.min (Anchoring.moved b t).origin =
      ⟨(a.origin.min b.origin).x + t.x, (a.origin.min b.origin).y + t.y⟩ := by
    have hx := min_add_add_right a.origin.x b.origin.x t.x
    have hy := min_add_add_right a.origin.y b.origin.y t.y
    rw [← Point.min_x] at hx
    rw [← Point.min_y] at hy
    exact congrArg₂ Point.mk ((Point.min_x _ _).trans hx) ((Point.min_y _ _).trans hy)
  have hmax : (Anchoring.moved a t).bottomRight.max (Anchoring.moved b t).bottomRight =
      ⟨(a.bottomRight.max b.bottomRight).x + t.x, (a.bottomRight.max b.bottomRight).y + t.y⟩ := by
    have hx := max_add_add_right a.bottomRight.x b.bottomRight.x t.x
    have hy := max_add_add_right a.bottomRight.y b.bottomRight.y t.y
    rw [← Point.max_x] at hx
    rw [← Point.max_y] at hy
    rw [bottomRight_moved, bottomRight_moved]
    exact congrArg₂ Point.mk ((Point.max_x _ _).trans hx) ((Point.max_y _ _).trans hy)
  rw [Bounds.union, Bounds.union, hmin, hmax]
  simp only [Bounds.fromCorners, Anchoring.moved, add_sub_add_right_eq_sub]

theorem childrenBox_moved (hbs : bs ≠ []) (t : Point ℚ) :
    childrenBox (bs.map (Anchoring.moved · t)) = Anchoring.moved (childrenBox bs) t := by
  cases bs with
  | nil => exact absurd rfl hbs
  | cons first rest =>
    rw [List.map_cons, childrenBox, childrenBox, List.foldl_map]
    exact List.foldl_hom (Anchoring.moved · t) fun a b => union_moved a b t

theorem foldl_union_origin_le (first : Bounds ℚ) (rest : List (Bounds ℚ)) :
    (rest.foldl Bounds.union first).origin.x ≤ first.origin.x ∧
      (rest.foldl Bounds.union first).origin.y ≤ first.origin.y := by
  induction rest generalizing first with
  | nil => exact ⟨le_rfl, le_rfl⟩
  | cons b rest ih =>
    obtain ⟨hx, hy⟩ := ih (first.union b)
    rw [Bounds.origin_union, Point.min_x] at hx
    rw [Bounds.origin_union, Point.min_y] at hy
    exact ⟨hx.trans (min_le_left _ _), hy.trans (min_le_left _ _)⟩

/-- The extent is measured from the least corner, and to the greatest one or to zero. -/
theorem contentSize_eq (hchildren : f.childBounds ≠ []) (hf : f.Representable) :
    f.contentSize =
      ⟨max 0 (childrenBox f.childBounds).bottomRight.x - (childrenBox f.childBounds).origin.x,
        max 0 (childrenBox f.childBounds).bottomRight.y -
          (childrenBox f.childBounds).origin.y⟩ := by
  have hempty : f.childBounds.isEmpty = false := by
    rwa [List.isEmpty_eq_false_iff]
  rw [DivFrame.contentSize, hempty, if_neg Bool.false_ne_true]
  cases hbs : f.childBounds with
  | nil => exact absurd hbs hchildren
  | cons first rest =>
    obtain ⟨hx, hy⟩ := hf first (hbs ▸ List.mem_cons_self)
    obtain ⟨hleft, htop⟩ := foldl_union_origin_le first rest
    have hfold := foldl_measure ⟨pixelsMax, pixelsMax⟩ ⟨0, 0⟩ first rest
    rw [measuredSize, measureChildren, List.foldl_cons, hfold]
    simp only [Point.min_x, Point.min_y, Point.max_x, Point.max_y]
    rw [min_eq_right (hleft.trans hx), min_eq_right (htop.trans hy)]
    rfl

/-- The extent that is measured along one axis stays the same. -/
theorem max_zero_add_eq_iff {a d : ℚ} :
    max 0 (a + d) = max 0 a + d ↔ d = 0 ∨ 0 ≤ a ∧ 0 ≤ a + d := by
  constructor
  · intro hmax
    by_contra hnot
    obtain ⟨hd, hinside⟩ := not_or.mp hnot
    rcases le_total 0 a with ha | ha
    · rw [max_eq_right ha] at hmax
      exact hinside ⟨ha, hmax ▸ le_max_left _ _⟩
    · rw [max_eq_left ha, zero_add] at hmax
      rcases max_choice 0 (a + d) with hzero | hsum
      · exact hd (hmax.symm.trans hzero)
      · have hazero : a = 0 := by linarith
        exact hinside ⟨hazero.ge, hsum ▸ le_max_left _ _⟩
  · rintro (rfl | ⟨ha, had⟩)
    · rw [add_zero, add_zero]
    · rw [max_eq_right ha, max_eq_right had]

theorem contentSize_moved_iff (hchildren : f.childBounds ≠ []) (hf : f.Representable)
    (hmoved : (f.moved t).Representable) :
    (f.moved t).contentSize = f.contentSize ↔ f.EndsInside t := by
  have hchildrenMoved : (f.moved t).childBounds ≠ [] := by
    simpa only [DivFrame.moved, ne_eq, List.map_eq_nil_iff] using hchildren
  have hbox : childrenBox (f.moved t).childBounds = Anchoring.moved (childrenBox f.childBounds) t :=
    childrenBox_moved hchildren t
  rw [contentSize_eq hchildrenMoved hmoved, contentSize_eq hchildren hf, hbox, bottomRight_moved]
  simp only [Anchoring.moved, Size.mk.injEq]
  have haxis (m a d : ℚ) : max 0 (a + d) - (m + d) = max 0 a - m ↔ d = 0 ∨ 0 ≤ a ∧ 0 ≤ a + d := by
    rw [← max_zero_add_eq_iff, sub_eq_iff_eq_add, ← add_assoc, sub_add_cancel]
  rw [haxis, haxis]
  exact ⟨fun h => ⟨h.1, h.2⟩, fun h => ⟨h.x, h.y⟩⟩

end Extent

/-! ## The prepaint -/

theorem revealOffset_moved (offset start length childStart childLength d : ℚ) :
    revealOffset offset (start + d) length (childStart + d) childLength =
      revealOffset offset start length childStart childLength := by
  have hdiff : start + d + length - (childStart + d + childLength) =
      start + length - (childStart + childLength) := by ring
  have hbefore : childStart + d + offset < start + d ↔ childStart + offset < start := by
    constructor
    all_goals
      intro h
      linarith
  have hafter : childStart + d + childLength + offset > start + d + length ↔
      childStart + childLength + offset > start + length := by
    constructor
    all_goals
      intro h
      linarith
  simp only [revealOffset, add_sub_add_right_eq_sub, hdiff, hbefore, hafter]

theorem DivFrame.scrollMax_moved {f : DivFrame} {t : Point ℚ}
    (hsize : (f.moved t).contentSize = f.contentSize) : (f.moved t).scrollMax = f.scrollMax := by
  rw [scrollMax, hsize]
  rfl

namespace ScrollHandleState

theorem scrollToActiveItem_moved (s : ScrollHandleState) (t : Point ℚ) :
    (s.moved t).scrollToActiveItem = s.scrollToActiveItem.moved t := by
  unfold scrollToActiveItem
  have hitem : (s.moved t).activeItem = s.activeItem := rfl
  rw [hitem]
  cases hactive : s.activeItem with
  | none => rfl
  | some item =>
    have hget : (s.moved t).childBounds[item.index]? =
        s.childBounds[item.index]?.map (Anchoring.moved · t) := List.getElem?_map
    dsimp only
    rw [hget]
    cases hchild : s.childBounds[item.index]? with
    | none => rfl
    | some child =>
      cases hstrategy : item.strategy with
      | firstVisible =>
        simp only [Option.map_some, moved, Anchoring.moved, revealOffset_moved]
      | top =>
        simp only [Option.map_some, moved, Anchoring.moved, revealOffset_moved,
          add_sub_add_right_eq_sub]

theorem prepaint_moved {f : DivFrame} {t : Point ℚ}
    (hsize : (f.moved t).contentSize = f.contentSize) (s : ScrollHandleState) :
    (s.moved t).prepaint (f.moved t) = (s.prepaint f).moved t := by
  have hmax := DivFrame.scrollMax_moved hsize
  have hempty : (f.moved t).childBounds.isEmpty = f.childBounds.isEmpty := List.isEmpty_map
  unfold prepaint
  rw [hempty]
  dsimp only
  split_ifs with hnil
  · rw [scrollToActiveItem_moved]
    simp only [clampScrollPosition, hmax, moved]
    rfl
  · have hchildren : { s.moved t with childBounds := (f.moved t).childBounds } =
        ScrollHandleState.moved { s with childBounds := f.childBounds } t := rfl
    rw [hchildren, scrollToActiveItem_moved]
    simp only [clampScrollPosition, hmax, moved]
    rfl

end ScrollHandleState

theorem DivFrame.contentSize_moved {f : DivFrame} {t : Point ℚ} (hf : f.Representable)
    (hmoved : (f.moved t).Representable) (hends : f.childBounds = [] ∨ f.EndsInside t) :
    (f.moved t).contentSize = f.contentSize := by
  by_cases hchildren : f.childBounds = []
  · have hchildrenMoved : (f.moved t).childBounds = [] := by
      rw [DivFrame.moved, hchildren, List.map_nil]
    rw [contentSize, contentSize, hchildren, hchildrenMoved]
    rfl
  · exact (contentSize_moved_iff hchildren hf hmoved).mpr (hends.resolve_left hchildren)

namespace DivScroll

variable {f : DivFrame} {t : Point ℚ}

theorem prepaint_moved (hsize : (f.moved t).contentSize = f.contentSize) (s : DivScroll) :
    (s.moved t).prepaint (f.moved t) = (s.prepaint f).moved t := by
  cases s with
  | tracked handle => exact congrArg tracked (handle.prepaint_moved hsize)
  | untracked offset => simp only [moved, prepaint, DivFrame.scrollMax_moved hsize]
  | unscrolled => rfl

theorem scrollOffset_moved (s : DivScroll) (t : Point ℚ) :
    (s.moved t).scrollOffset = s.scrollOffset := by
  cases s with
  | tracked handle => rfl
  | untracked offset => rfl
  | unscrolled => rfl

theorem scrollRange_moved (hsize : (f.moved t).contentSize = f.contentSize) (s : DivScroll) :
    (s.moved t).scrollRange (f.moved t) = s.scrollRange f := by
  cases s with
  | tracked handle =>
    have hmax := congrArg ScrollHandleState.maxOffset (handle.prepaint_moved hsize)
    exact congrArg some hmax
  | untracked offset => exact congrArg some (DivFrame.scrollMax_moved hsize)
  | unscrolled => rfl

/-- Frames that all measure their content right leave the same offset wherever they are. -/
theorem foldl_prepaint_moved {frames : List DivFrame}
    (hframes : ∀ f ∈ frames, f.Representable ∧ (f.moved t).Representable ∧
      (f.childBounds = [] ∨ f.EndsInside t)) (s : DivScroll) :
    (frames.map (DivFrame.moved · t)).foldl prepaint (s.moved t) =
      (frames.foldl prepaint s).moved t := by
  induction frames generalizing s with
  | nil => rfl
  | cons f frames ih =>
    obtain ⟨hf, hmoved, hends⟩ := hframes f List.mem_cons_self
    rw [List.map_cons, List.foldl_cons, List.foldl_cons,
      prepaint_moved (DivFrame.contentSize_moved hf hmoved hends)]
    exact ih (fun g hg => hframes g (List.mem_cons_of_mem f hg)) _

/-- A prepaint finds the same somewhere else exactly if the element has no children, or if one of
them ends inside of the window or after it at both places, along each axis along which the element
is moved. -/
theorem outcome_moved_iff (s : DivScroll) (hf : f.Representable)
    (hmoved : (f.moved t).Representable) :
    (s.moved t).outcome (f.moved t) = s.outcome f ↔
      f.childBounds = [] ∨ f.EndsInside t := by
  constructor
  · intro houtcome
    by_cases hchildren : f.childBounds = []
    · exact .inl hchildren
    · have hsize : (f.moved t).contentSize = f.contentSize :=
        congrArg DivOutcome.contentSize houtcome
      exact .inr ((contentSize_moved_iff hchildren hf hmoved).mp hsize)
  · intro hends
    have hsize := DivFrame.contentSize_moved hf hmoved hends
    unfold outcome
    rw [hsize, scrollRange_moved hsize, prepaint_moved hsize, scrollOffset_moved]

/-- An element with a child of 50 by 50 pixels. -/
def smallFrame : DivFrame :=
  ⟨⟨⟨10, 10⟩, ⟨20, 20⟩⟩, [⟨⟨10, 10⟩, ⟨50, 50⟩⟩], ⟨.scroll, .scroll⟩, ⟨0, 0, 0, 0⟩⟩

theorem outcome_moved_right :
    ((untracked ⟨-100, -100⟩).moved ⟨5, 5⟩).outcome (smallFrame.moved ⟨5, 5⟩) =
      (untracked ⟨-100, -100⟩).outcome smallFrame :=
  (outcome_moved_iff (f := smallFrame) (t := ⟨5, 5⟩) (untracked ⟨-100, -100⟩)
    (by decide +kernel) (by decide +kernel)).mpr
    (.inr ⟨.inr (by decide +kernel), .inr (by decide +kernel)⟩)

/-- Left of and above the window, the same element scrolls too far along both axes. -/
theorem outcome_moved_outside :
    smallFrame.Representable ∧ (smallFrame.moved ⟨-210, -110⟩).Representable ∧
    (untracked ⟨-100, -100⟩).outcome smallFrame = ⟨⟨50, 50⟩, some ⟨30, 30⟩, ⟨-30, -30⟩⟩ ∧
    ((untracked ⟨-100, -100⟩).moved ⟨-210, -110⟩).outcome (smallFrame.moved ⟨-210, -110⟩) =
      ⟨⟨200, 100⟩, some ⟨180, 80⟩, ⟨-100, -80⟩⟩ := by
  decide +kernel

end DivScroll

end Div

end Lucie
