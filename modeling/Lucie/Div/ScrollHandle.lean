import Lucie.Anchored.Prepaint
import Lucie.Foundation.Exact
import Lucie.UniformList.Prepaint

/-!
# Scrolling to a child

A scroll handle that is asked for a child remembers it until a prepaint of its element has such a
child. The offset is chosen with the bounds and the overflow of the last prepaint, those of this
one are stored later, together with the range into which the offset is brought. So the child is
shown if the element has not changed and the range reaches it; the request of a new element is
dropped.
-/

set_option autoImplicit false

namespace Lucie

namespace Div

open Foundation

/-- `Overflow`. -/
inductive Overflow
  | visible
  | clip
  | hidden
  | scroll
  deriving DecidableEq

/-- `ScrollStrategy`. -/
inductive ScrollStrategy
  | firstVisible
  | top
  deriving DecidableEq

/-- `ScrollActiveItem`. -/
structure ScrollActiveItem where
  index : ℕ
  strategy : ScrollStrategy
  deriving DecidableEq

/-- `ScrollHandleState`. -/
structure ScrollHandleState where
  offset : Point ℚ
  bounds : Bounds ℚ
  maxOffset : Size ℚ
  childBounds : List (Bounds ℚ)
  scrollToBottom : Bool
  overflow : Point Overflow
  activeItem : Option ScrollActiveItem
  deriving DecidableEq

/-- A prepaint of a `Div` that tracks a scroll handle: its bounds, those of its children, and of
its style the overflow and the padding. -/
structure DivFrame where
  bounds : Bounds ℚ
  childBounds : List (Bounds ℚ)
  overflow : Point Overflow
  padding : Anchoring.Edges

/-- The offset along one axis at which `scroll_to_active_item` shows a child. -/
def revealOffset (offset start length childStart childLength : ℚ) : ℚ :=
  if childLength > length then start - childStart
  else if childStart + offset < start then start - childStart
  else if childStart + childLength + offset > start + length then
    start + length - (childStart + childLength)
  else offset

namespace DivFrame

/-- The size of the content that `Div::prepaint` measures. -/
def contentSize (f : DivFrame) : Size ℚ :=
  if f.childBounds.isEmpty then f.bounds.size else Anchoring.measuredSize f.childBounds

/-- `scroll_max` of `Interactivity::clamp_scroll_position`. -/
def scrollMax (f : DivFrame) : Size ℚ :=
  ⟨max (UniformList.roundToTwoDecimals
      (f.contentSize.width + (f.padding.left + f.padding.right) - f.bounds.size.width)) 0,
    max (UniformList.roundToTwoDecimals
      (f.contentSize.height + (f.padding.top + f.padding.bottom) - f.bounds.size.height)) 0⟩

end DivFrame

namespace ScrollHandleState

/-- `ScrollHandle::new`. -/
def new : ScrollHandleState :=
  ⟨⟨0, 0⟩, ⟨⟨0, 0⟩, ⟨0, 0⟩⟩, ⟨0, 0⟩, [], false, ⟨.visible, .visible⟩, none⟩

/-- `ScrollHandle::scroll_to_item`. -/
def scrollToItem (s : ScrollHandleState) (ix : ℕ) : ScrollHandleState :=
  { s with activeItem := some ⟨ix, .firstVisible⟩ }

/-- `ScrollHandle::scroll_to_top_of_item`. -/
def scrollToTopOfItem (s : ScrollHandleState) (ix : ℕ) : ScrollHandleState :=
  { s with activeItem := some ⟨ix, .top⟩ }

/-- `ScrollHandle::scroll_to_active_item`. -/
def scrollToActiveItem (s : ScrollHandleState) : ScrollHandleState :=
  match s.activeItem with
  | none => s
  | some item =>
    match s.childBounds[item.index]? with
    | none => s
    | some child =>
      let y :=
        match item.strategy with
        | .firstVisible =>
          if s.overflow.y = .scroll then
            revealOffset s.offset.y s.bounds.origin.y s.bounds.size.height child.origin.y
              child.size.height
          else s.offset.y
        | .top => s.bounds.origin.y - child.origin.y
      let x :=
        if s.overflow.x = .scroll then
          revealOffset s.offset.x s.bounds.origin.x s.bounds.size.width child.origin.x
            child.size.width
        else s.offset.x
      { s with offset := ⟨x, y⟩, activeItem := none }

/-- `Interactivity::clamp_scroll_position` with a tracked handle. -/
def clampScrollPosition (s : ScrollHandleState) (f : DivFrame) : ScrollHandleState :=
  let scrollMax := f.scrollMax
  { s with
    overflow := f.overflow
    scrollToBottom := false
    offset :=
      ⟨UniformList.clamp s.offset.x (-scrollMax.width) 0,
        if s.scrollToBottom then -scrollMax.height
        else UniformList.clamp s.offset.y (-scrollMax.height) 0⟩
    maxOffset := scrollMax
    bounds := f.bounds }

/-- What `Div::prepaint` does with its scroll handle. Without children it leaves the bounds of the
last ones. -/
def prepaint (s : ScrollHandleState) (f : DivFrame) : ScrollHandleState :=
  let s := if f.childBounds.isEmpty then s else { s with childBounds := f.childBounds }
  s.scrollToActiveItem.clampScrollPosition f

end ScrollHandleState

/-! ## What is to be shown -/

/-- Along one axis, a child that fits is inside at an offset, and another one is aligned to the
start. -/
def AxisShown (start length childStart childLength offset : ℚ) : Prop :=
  if childLength ≤ length then
    start ≤ childStart + offset ∧ childStart + childLength + offset ≤ start + length
  else childStart + offset = start

/-- A frame that has the child which was requested last, and the offset after its prepaint. -/
structure ShownRequest where
  frame : DivFrame
  strategy : ScrollStrategy
  child : Bounds ℚ
  offset : Point ℚ

/-- The child is inside of the bounds of the frame along each axis where it fits, and else aligned to
their start. With the strategy `Top` it is aligned to the top, up to clamping. -/
structure ShownRequest.Effective (r : ShownRequest) : Prop where
  x : AxisShown r.frame.bounds.origin.x r.frame.bounds.size.width r.child.origin.x
    r.child.size.width r.offset.x
  y : r.strategy = .firstVisible ∨ r.child.size.height ≤ r.frame.bounds.size.height →
    AxisShown r.frame.bounds.origin.y r.frame.bounds.size.height r.child.origin.y
      r.child.size.height r.offset.y
  top : r.strategy = .top → r.offset.y = UniformList.clamp
    (r.frame.bounds.origin.y - r.child.origin.y) (-r.frame.scrollMax.height) 0

/-- A request or a frame. -/
inductive ScrollCall
  | scrollToItem (ix : ℕ)
  | scrollToTopOfItem (ix : ℕ)
  | prepaint (frame : DivFrame)

/-- A scroll handle beside the request that no frame had a child for yet, and the frames that had
one. -/
structure ScrollRun where
  handle : ScrollHandleState
  request : Option ScrollActiveItem
  shown : List ShownRequest

namespace ScrollRun

def start : ScrollRun := ⟨.new, none, []⟩

/-- The child that is requested, if the frame has it. -/
def requestedChild (s : ScrollRun) (f : DivFrame) : Option (ScrollStrategy × Bounds ℚ) := do
  let item ← s.request
  let child ← f.childBounds[item.index]?
  some (item.strategy, child)

def step (s : ScrollRun) : ScrollCall → Option ScrollRun
  | .scrollToItem ix => some ⟨s.handle.scrollToItem ix, some ⟨ix, .firstVisible⟩, s.shown⟩
  | .scrollToTopOfItem ix => some ⟨s.handle.scrollToTopOfItem ix, some ⟨ix, .top⟩, s.shown⟩
  | .prepaint f =>
    let handle := s.handle.prepaint f
    match s.requestedChild f with
    | none => some ⟨handle, s.request, s.shown⟩
    | some (strategy, child) =>
      some ⟨handle, none, s.shown ++ [⟨f, strategy, child, handle.offset⟩]⟩

/-- Every request is pending or has had its effect. -/
structure ShowsRequests (s : ScrollRun) : Prop where
  pending : s.handle.activeItem = s.request
  effective : ∀ r ∈ s.shown, r.Effective

/-- A frame with the child that is requested has the bounds of the last frame, which scrolls along
both axes; a frame without children leaves no request for one of the last ones. -/
def Fresh (s : ScrollRun) : ScrollCall → Prop
  | .prepaint f =>
    (∀ item ∈ s.request, f.childBounds = [] → s.handle.childBounds[item.index]? = none) ∧
    ((s.requestedChild f).isSome = true →
      s.handle.bounds = f.bounds ∧ s.handle.overflow = ⟨.scroll, .scroll⟩)
  | _ => True

/-- Along one axis, the offsets from zero down to the limit show a child. -/
def AxisReached (start length childStart childLength limit : ℚ) : Prop :=
  start ≤ childStart ∧
    (if childLength ≤ length then childStart + childLength ≤ start + length + limit
    else childStart ≤ start + limit)

/-- The child that is requested begins neither left of nor above the element, and the range of the
offset reaches it. -/
def Reached (s : ScrollRun) : ScrollCall → Prop
  | .prepaint f => ∀ strategy child, s.requestedChild f = some (strategy, child) →
    AxisReached f.bounds.origin.x f.bounds.size.width child.origin.x child.size.width
        f.scrollMax.width ∧
      (strategy = .firstVisible ∨ child.size.height ≤ f.bounds.size.height →
        AxisReached f.bounds.origin.y f.bounds.size.height child.origin.y child.size.height
          f.scrollMax.height)
  | _ => True

end ScrollRun

/-! ## One axis -/

section Axis

variable {x lo hi a b start length childStart childLength offset limit : ℚ}

/-- Where a point of an interval is brought into a range, it stays in the interval exactly if the
two meet. -/
theorem clamp_mem_iff (hlo : lo ≤ x) (hhi : x ≤ hi) (hab : a ≤ b) :
    (lo ≤ UniformList.clamp x a b ∧ UniformList.clamp x a b ≤ hi) ↔ lo ≤ b ∧ a ≤ hi := by
  unfold UniformList.clamp
  rw [le_min_iff, min_le_iff, le_max_iff, max_le_iff]
  constructor
  · rintro ⟨⟨-, hb⟩, ⟨-, ha⟩ | hb'⟩
    · exact ⟨hb, ha⟩
    · exact ⟨hb, hab.trans hb'⟩
  · rintro ⟨hb, ha⟩
    exact ⟨⟨.inl hlo, hb⟩, .inl ⟨hhi, ha⟩⟩

/-- The offset for a child that fits shows it, and the one for another child aligns it. -/
theorem revealOffset_spec (offset start length childStart childLength : ℚ) :
    (childLength ≤ length →
      start - childStart ≤ revealOffset offset start length childStart childLength ∧
        revealOffset offset start length childStart childLength ≤
          start + length - (childStart + childLength)) ∧
    (¬childLength ≤ length →
      revealOffset offset start length childStart childLength = start - childStart) := by
  unfold revealOffset
  constructor
  · intro hfits
    rw [if_neg (not_lt.mpr hfits)]
    split_ifs
    all_goals constructor
    all_goals linarith
  · intro hlarge
    rw [if_pos (not_le.mp hlarge)]

/-- A clamped offset shows a child exactly if the range reaches it, where the offset shows it before
it is clamped. -/
theorem axisShown_clamp_iff (hlimit : 0 ≤ limit)
    (hfits : childLength ≤ length →
      start - childStart ≤ offset ∧ offset ≤ start + length - (childStart + childLength))
    (hlarge : ¬childLength ≤ length → offset = start - childStart) :
    AxisShown start length childStart childLength (UniformList.clamp offset (-limit) 0) ↔
      ScrollRun.AxisReached start length childStart childLength limit := by
  have hrange : -limit ≤ 0 := neg_nonpos.mpr hlimit
  unfold AxisShown ScrollRun.AxisReached
  split_ifs with hle
  · obtain ⟨hlo, hhi⟩ := hfits hle
    have hmem := clamp_mem_iff hlo hhi hrange
    constructor
    · rintro ⟨hstart, hend⟩
      obtain ⟨hbegin, hlast⟩ := hmem.mp ⟨by linarith, by linarith⟩
      exact ⟨by linarith, by linarith⟩
    · rintro ⟨hbegin, hlast⟩
      obtain ⟨hstart, hend⟩ := hmem.mpr ⟨by linarith, by linarith⟩
      exact ⟨by linarith, by linarith⟩
  · obtain rfl := hlarge hle
    have hmem := clamp_mem_iff le_rfl (le_refl (start - childStart)) hrange
    constructor
    · intro hequal
      obtain ⟨hbegin, hlast⟩ := hmem.mp ⟨by linarith, by linarith⟩
      exact ⟨by linarith, by linarith⟩
    · rintro ⟨hbegin, hlast⟩
      obtain ⟨hstart, hend⟩ := hmem.mpr ⟨by linarith, by linarith⟩
      linarith

end Axis

namespace ScrollHandleState

variable {s : ScrollHandleState} {item : ScrollActiveItem} {child : Bounds ℚ} {f : DivFrame}

theorem scrollToActiveItem_of_none (hchild : ∀ item ∈ s.activeItem,
    s.childBounds[item.index]? = none) : s.scrollToActiveItem = s := by
  unfold scrollToActiveItem
  cases hitem : s.activeItem with
  | none => rfl
  | some item =>
    dsimp only
    rw [hchild item hitem]

/-- A prepaint without the child that is requested keeps the request. -/
theorem prepaint_activeItem_of_none
    (hempty : ∀ item ∈ s.activeItem, f.childBounds = [] → s.childBounds[item.index]? = none)
    (hchild : ∀ item ∈ s.activeItem, f.childBounds[item.index]? = none) :
    (s.prepaint f).activeItem = s.activeItem := by
  unfold prepaint
  dsimp only
  split_ifs with hnil
  · rw [scrollToActiveItem_of_none fun item hitem =>
      hempty item hitem (List.isEmpty_iff.mp hnil)]
    rfl
  · rw [scrollToActiveItem_of_none (s := { s with childBounds := f.childBounds }) hchild]
    rfl

/-- A prepaint with this child shows it, if the element has not changed. -/
theorem prepaint_of_some (hitem : s.activeItem = some item)
    (hchild : f.childBounds[item.index]? = some child) (hbounds : s.bounds = f.bounds)
    (hoverflow : s.overflow = ⟨.scroll, .scroll⟩) (hbottom : s.scrollToBottom = false) :
    (s.prepaint f).activeItem = none ∧
      (s.prepaint f).offset =
        ⟨UniformList.clamp (revealOffset s.offset.x f.bounds.origin.x f.bounds.size.width
            child.origin.x child.size.width) (-f.scrollMax.width) 0,
          UniformList.clamp (if item.strategy = .firstVisible then
              revealOffset s.offset.y f.bounds.origin.y f.bounds.size.height child.origin.y
                child.size.height
            else f.bounds.origin.y - child.origin.y) (-f.scrollMax.height) 0⟩ := by
  have hnil : ¬f.childBounds.isEmpty = true := by
    intro hnil
    rw [List.isEmpty_iff.mp hnil] at hchild
    cases hchild
  unfold prepaint
  dsimp only
  rw [if_neg hnil]
  unfold scrollToActiveItem
  dsimp only
  rw [hitem]
  dsimp only
  rw [hchild]
  dsimp only
  rw [hoverflow, hbounds]
  cases item.strategy with
  | firstVisible => simp [clampScrollPosition, hbottom]
  | top => simp [clampScrollPosition, hbottom]

end ScrollHandleState

theorem DivFrame.scrollMax_nonneg (f : DivFrame) :
    0 ≤ f.scrollMax.width ∧ 0 ≤ f.scrollMax.height := ⟨le_max_right _ _, le_max_right _ _⟩

namespace ScrollRun

variable {s s' : ScrollRun} {a : ScrollCall} {f : DivFrame} {item : ScrollActiveItem}
  {child : Bounds ℚ}

theorem requestedChild_of_some (hitem : s.request = some item)
    (hchild : f.childBounds[item.index]? = some child) :
    s.requestedChild f = some (item.strategy, child) := by
  simp [requestedChild, hitem, hchild]

theorem requestedChild_eq_none (hchild : ∀ item ∈ s.request, f.childBounds[item.index]? = none) :
    s.requestedChild f = none := by
  unfold requestedChild
  cases hitem : s.request with
  | none => rfl
  | some item => simp [hchild item hitem]

/-- Nothing in these runs asks for the bottom. -/
theorem scrollToBottom_step (h : s.handle.scrollToBottom = false) (hstep : s.step a = some s') :
    s'.handle.scrollToBottom = false := by
  cases a with
  | scrollToItem ix =>
    obtain rfl := Option.some.inj hstep
    exact h
  | scrollToTopOfItem ix =>
    obtain rfl := Option.some.inj hstep
    exact h
  | prepaint f =>
    unfold step at hstep
    dsimp only at hstep
    split at hstep
    all_goals
      obtain rfl := Option.some.inj hstep
      rfl

/-- One more frame with a requested child: it is shown as the others are. -/
theorem showsRequests_concat_iff {handle : ScrollHandleState} {request : Option ScrollActiveItem}
    {shown : List ShownRequest} {r : ShownRequest} (hpending : handle.activeItem = request)
    (hshown : ∀ r ∈ shown, r.Effective) :
    (⟨handle, request, shown ++ [r]⟩ : ScrollRun).ShowsRequests ↔ r.Effective := by
  constructor
  · intro h
    exact h.effective r (List.mem_append_right _ List.mem_cons_self)
  · intro hr
    refine ⟨hpending, fun other hother => ?_⟩
    rcases List.mem_append.mp hother with hold | hnew
    · exact hshown other hold
    · obtain rfl := List.mem_singleton.mp hnew
      exact hr

/-- A child that a fresh frame brings into view is shown exactly if the range reaches it. -/
theorem effective_iff {offset : Point ℚ} {strategy : ScrollStrategy} :
    (⟨f, strategy, child,
      ⟨UniformList.clamp (revealOffset offset.x f.bounds.origin.x f.bounds.size.width
          child.origin.x child.size.width) (-f.scrollMax.width) 0,
        UniformList.clamp (if strategy = .firstVisible then
            revealOffset offset.y f.bounds.origin.y f.bounds.size.height child.origin.y
              child.size.height
          else f.bounds.origin.y - child.origin.y) (-f.scrollMax.height) 0⟩⟩ :
        ShownRequest).Effective ↔
      AxisReached f.bounds.origin.x f.bounds.size.width child.origin.x child.size.width
          f.scrollMax.width ∧
        (strategy = .firstVisible ∨ child.size.height ≤ f.bounds.size.height →
          AxisReached f.bounds.origin.y f.bounds.size.height child.origin.y child.size.height
            f.scrollMax.height) := by
  obtain ⟨hwidth, hheight⟩ := f.scrollMax_nonneg
  obtain ⟨hfitsX, hlargeX⟩ := revealOffset_spec offset.x f.bounds.origin.x f.bounds.size.width
    child.origin.x child.size.width
  obtain ⟨hfitsY, hlargeY⟩ := revealOffset_spec offset.y f.bounds.origin.y f.bounds.size.height
    child.origin.y child.size.height
  have hx := axisShown_clamp_iff hwidth hfitsX hlargeX
  cases strategy with
  | firstVisible =>
    have hy := axisShown_clamp_iff hheight hfitsY hlargeY
    constructor
    · intro h
      exact ⟨hx.mp h.x, fun hany => hy.mp (h.y hany)⟩
    · rintro ⟨hreachedX, hreachedY⟩
      exact ⟨hx.mpr hreachedX, fun hany => hy.mpr (hreachedY hany), ScrollStrategy.noConfusion⟩
  | top =>
    have hy := @axisShown_clamp_iff f.bounds.origin.y f.bounds.size.height child.origin.y
      child.size.height (f.bounds.origin.y - child.origin.y) _ hheight
      (fun hfits => ⟨le_rfl, by linarith⟩) fun _ => rfl
    constructor
    · intro h
      exact ⟨hx.mp h.x, fun hany => hy.mp (h.y hany)⟩
    · rintro ⟨hreachedX, hreachedY⟩
      exact ⟨hx.mpr hreachedX, fun hany => hy.mpr (hreachedY hany), fun _ => rfl⟩

/-- After a fresh step all requests have their effect exactly if the child is reached. -/
theorem showsRequests_step_iff (hbottom : s.handle.scrollToBottom = false)
    (hs : s.ShowsRequests) (hfresh : s.Fresh a) (hstep : s.step a = some s') :
    s'.ShowsRequests ↔ s.Reached a := by
  cases a with
  | scrollToItem ix =>
    obtain rfl := Option.some.inj hstep
    exact iff_of_true ⟨rfl, hs.effective⟩ trivial
  | scrollToTopOfItem ix =>
    obtain rfl := Option.some.inj hstep
    exact iff_of_true ⟨rfl, hs.effective⟩ trivial
  | prepaint f =>
    obtain ⟨hempty, hunchanged⟩ := hfresh
    unfold step at hstep
    dsimp only at hstep
    by_cases hchild : ∀ item ∈ s.request, f.childBounds[item.index]? = none
    · have hnone := requestedChild_eq_none hchild
      rw [hnone] at hstep
      obtain rfl := Option.some.inj hstep
      refine iff_of_true ⟨?_, hs.effective⟩ fun strategy child hsome => ?_
      · rw [← hs.pending] at hempty hchild ⊢
        exact ScrollHandleState.prepaint_activeItem_of_none hempty hchild
      · rw [hnone] at hsome
        cases hsome
    · push Not at hchild
      obtain ⟨item, hitem, hsome⟩ := hchild
      obtain ⟨child, hchild⟩ := Option.ne_none_iff_exists'.mp hsome
      have hrequested := requestedChild_of_some hitem hchild
      rw [hrequested] at hstep
      obtain rfl := Option.some.inj hstep
      obtain ⟨hbounds, hoverflow⟩ := hunchanged (by rw [hrequested]; rfl)
      obtain ⟨hactive, hoffset⟩ := ScrollHandleState.prepaint_of_some (hs.pending.trans hitem)
        hchild hbounds hoverflow hbottom
      rw [showsRequests_concat_iff hactive hs.effective, hoffset, effective_iff]
      unfold Reached
      dsimp only
      rw [hrequested]
      constructor
      · intro h strategy child hsome
        obtain ⟨rfl, rfl⟩ := Prod.mk.inj (Option.some.inj hsome)
        exact h
      · intro h
        exact h _ _ rfl

/-- In a run of fresh steps all requests have their effect, exactly if every child that is
requested is reached when it is there. -/
theorem showsRequests_iff_of_fresh {calls : List ScrollCall}
    (hfresh : AllSteps step Fresh start calls) :
    AllStates step ShowsRequests start calls ↔ AllSteps step Reached start calls :=
  hfresh.allStates_iff (fun s => s.handle.scrollToBottom = false)
    (fun _ _ _ h hstep => scrollToBottom_step h hstep)
    (fun _ _ _ hbottom hs hG hstep => showsRequests_step_iff hbottom hs hG hstep) rfl
    ⟨rfl, by simp [start]⟩

/-- Two children of eighty pixels in an element of some height. -/
def twoChildren (height : ℚ) : DivFrame :=
  ⟨⟨⟨0, 0⟩, ⟨100, height⟩⟩, [⟨⟨0, 0⟩, ⟨100, 80⟩⟩, ⟨⟨0, 80⟩, ⟨100, 80⟩⟩], ⟨.scroll, .scroll⟩,
    ⟨0, 0, 0, 0⟩⟩

/-- A request between two frames of the same element. -/
theorem showsRequests_sameHeight : AllStates step ShowsRequests start
    [.prepaint (twoChildren 100), .scrollToItem 1, .prepaint (twoChildren 100)] := by
  have hfresh : AllSteps step Fresh start
      [.prepaint (twoChildren 100), .scrollToItem 1, .prepaint (twoChildren 100)] := by
    intro first hfirst
    obtain rfl := Option.some.inj hfirst
    refine ⟨⟨by simp [start], fun h => ?_⟩, fun second hsecond => ?_⟩
    · cases h
    obtain rfl := Option.some.inj hsecond
    refine ⟨trivial, fun third _ => ⟨⟨fun item _ hnil => ?_, fun _ => ⟨rfl, rfl⟩⟩, trivial⟩⟩
    cases hnil
  refine (showsRequests_iff_of_fresh hfresh).mpr ?_
  intro first hfirst
  obtain rfl := Option.some.inj hfirst
  refine ⟨fun strategy child h => ?_, fun second hsecond => ?_⟩
  · cases h
  obtain rfl := Option.some.inj hsecond
  refine ⟨trivial, fun third _ => ⟨fun strategy child h => ?_, trivial⟩⟩
  obtain ⟨rfl, rfl⟩ := Prod.mk.inj (Option.some.inj h)
  unfold AxisReached
  decide +kernel

/-- The request before the first frame is dropped, and the one before a frame of another height ends
where the child would have been shown before. -/
theorem not_showsRequests_newHeight :
    ¬AllStates step ShowsRequests start [.scrollToItem 1, .prepaint (twoChildren 100)] ∧
    ¬AllStates step ShowsRequests start
      [.prepaint (twoChildren 100), .scrollToItem 1, .prepaint (twoChildren 90)] := by
  constructor
  · intro h
    have hlast := (h.2 _ rfl).2 _ rfl
    have hshown := (hlast.effective _ List.mem_cons_self).y (.inl rfl)
    revert hshown
    unfold AxisShown
    decide +kernel
  · intro h
    have hlast := ((h.2 _ rfl).2 _ rfl).2 _ rfl
    have hshown := (hlast.effective _ List.mem_cons_self).y (.inl rfl)
    revert hshown
    unfold AxisShown
    decide +kernel

end ScrollRun

end Div

end Lucie
