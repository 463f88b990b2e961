import Lucie.Foundation.Exact
import Lucie.Geometry.Bounds
import Lucie.Window.ElementFrames

/-!
# Animated images

An image element keeps the index of the frame that it shows in its element state, whatever image
its source has. The index is advanced modulo the frame count of the image of this frame, and it is
used, before it is advanced, for the image in layout and for the one in paint. So the uses are in
range as long as the image is the one that was laid out last, and a new image must have more frames
than the index that is left from the one before.
-/

set_option autoImplicit false

namespace Lucie

open Foundation Drawing

/-- A `Frame` of an image: its dimensions, its buffer and its delay in nanoseconds. -/
structure ImageFrame where
  dimensions : Size ℕ
  buffer : List UInt8
  delay : ℕ

/-- `RenderImage`. -/
structure RenderImage where
  id : ℕ
  scaleFactor : ℚ
  data : List ImageFrame

/-! The functions of an image that index its frames; `none` is a panic. -/

namespace RenderImage

/-- `RenderImage::as_bytes`. -/
def asBytes (image : RenderImage) (frameIndex : ℕ) : Option (List UInt8) :=
  image.data[frameIndex]?.map (·.buffer)

/-- `RenderImage::size`. -/
def size (image : RenderImage) (frameIndex : ℕ) : Option (Size ℕ) :=
  image.data[frameIndex]?.map (·.dimensions)

/-- `RenderImage::render_size`. -/
def renderSize (image : RenderImage) (frameIndex : ℕ) : Option (Size ℚ) :=
  (image.size frameIndex).map fun size =>
    ⟨size.width / image.scaleFactor, size.height / image.scaleFactor⟩

/-- `RenderImage::delay`. -/
def delay (image : RenderImage) (frameIndex : ℕ) : Option ℕ :=
  image.data[frameIndex]?.map (·.delay)

/-- `RenderImage::frame_count`. -/
def frameCount (image : RenderImage) : ℕ := image.data.length

/-- `Window::paint_image`, which makes a tile of a frame that is not in the atlas yet. -/
def paintImage (image : RenderImage) (frameIndex : ℕ) (inAtlas : Bool) : Option (ℕ × ℕ) := do
  if !inAtlas then
    let _ ← image.size frameIndex
    let _ ← image.asBytes frameIndex
  some (image.id, frameIndex)

variable {image : RenderImage} {frameIndex : ℕ}

theorem size_isSome_iff : (image.size frameIndex).isSome ↔ frameIndex < image.frameCount := by
  simp [size, frameCount]

theorem renderSize_isSome_iff :
    (image.renderSize frameIndex).isSome ↔ frameIndex < image.frameCount := by
  rw [renderSize, Option.isSome_map, size_isSome_iff]

theorem delay_isSome_iff : (image.delay frameIndex).isSome ↔ frameIndex < image.frameCount := by
  simp [delay, frameCount]

/-- The tile of a frame of the image can be made. -/
theorem paintImage_of_lt (h : frameIndex < image.frameCount) (inAtlas : Bool) :
    image.paintImage frameIndex inAtlas = some (image.id, frameIndex) := by
  have hframe : image.data[frameIndex]? = some image.data[frameIndex] :=
    List.getElem?_eq_getElem h
  cases inAtlas with
  | true => rfl
  | false => simp [paintImage, size, asBytes, hframe]

end RenderImage

namespace Img

/-- What `ImageSource::use_data` returns: nothing while the image is loading, or an error. -/
abbrev Data := Option (Except Unit RenderImage)

/-- The image that was loaded. -/
def Data.image : Data → Option RenderImage
  | some (.ok image) => some image
  | _ => none

/-- Whether an `ImageStyle` has an element for an image that failed, and one for an image that is
loading. -/
structure ImageStyle where
  fallback : Bool
  loading : Bool

/-- The element that takes the place of the image. -/
inductive Replacement
  | fallback
  | loading

/-- `ImgState`. Times are in nanoseconds. -/
structure ImgState where
  frameIndex : ℕ
  lastFrameTime : Option ℕ
  startedLoading : Option ℕ

/-- `ImgLayoutState`, with the size of the image and whether an animation frame is requested. -/
structure ImgLayoutState where
  frameIndex : ℕ
  replacement : Option Replacement
  imageSize : Option (Size ℚ)
  requestsFrame : Bool

/-- `LOADING_DELAY`. -/
def loadingDelay : ℕ := 200 * 1000000

/-- The index of an element state, zero if there is none. -/
def indexOf (state : Option ImgState) : ℕ := state.elim 0 (·.frameIndex)

/-- The frame index for the next frame. -/
def ImgState.advance (state : ImgState) (image : RenderImage) (currentTime : ℕ) :
    Option ImgState :=
  if image.frameCount > 1 then
    match state.lastFrameTime with
    | some lastFrameTime => do
      let elapsed := currentTime - lastFrameTime
      let frameDuration ← image.delay state.frameIndex
      if elapsed ≥ frameDuration then
        some { state with
          frameIndex := (state.frameIndex + 1) % image.frameCount
          lastFrameTime := some (currentTime - (elapsed - frameDuration)) }
      else some state
    | none => some { state with lastFrameTime := some currentTime }
  else some state

/-- `Img::request_layout`. Without an id there is no state, and a new one has none yet. -/
def requestLayout (style : ImageStyle) (state : Option (Option ImgState)) (data : Data)
    (now : ℕ) : Option (ImgLayoutState × Option ImgState) := do
  let state := state.map (·.getD ⟨0, none, none⟩)
  let frameIndex := (state.map (·.frameIndex)).getD 0
  match data with
  | some (.ok image) =>
    let state ← match state with
      | some state => do
        let state ← state.advance image now
        some (some { state with startedLoading := none })
      | none => some none
    let imageSize ← image.renderSize frameIndex
    some (⟨frameIndex, none, some imageSize, state.isSome && image.frameCount > 1⟩, state)
  | some (.error _) =>
    let replacement := if style.fallback then some .fallback else none
    some (⟨frameIndex, replacement, none, false⟩,
      state.map fun state => { state with startedLoading := none })
  | none =>
    match state with
    | some state =>
      match state.startedLoading with
      | some startedLoading =>
        let replacement :=
          if now - startedLoading > loadingDelay ∧ style.loading then some .loading else none
        some (⟨frameIndex, replacement, none, false⟩, some state)
      | none =>
        some (⟨frameIndex, none, none, false⟩, some { state with startedLoading := some now })
    | none => some (⟨frameIndex, none, none, false⟩, none)

/-- What `Img::paint` paints. -/
inductive Painted
  | image (size : Size ℕ) (tile : ℕ × ℕ)
  | replacement (replacement : Replacement)
  | nothing

/-- `Img::paint`. -/
def paint (layoutState : ImgLayoutState) (data : Data) (inAtlas : Bool) : Option Painted :=
  match data with
  | some (.ok image) => do
    let size ← image.size layoutState.frameIndex
    let tile ← image.paintImage layoutState.frameIndex inAtlas
    some (.image size tile)
  | _ => some (layoutState.replacement.elim .nothing .replacement)

/-! ## Frames -/

/-- A frame of the element: what its source gives in layout and in paint, the time, and whether
the atlas has the tile that is painted. -/
structure ImgFrame where
  style : ImageStyle
  layoutData : Data
  paintData : Data
  now : ℕ
  inAtlas : Bool

/-- The image is laid out or painted. -/
def ImgFrame.Uses (frame : ImgFrame) (image : RenderImage) : Prop :=
  frame.layoutData.image = some image ∨ frame.paintData.image = some image

/-- A frame with the element, or one that is drawn without it. -/
inductive ImgAction
  | draw (frame : ImgFrame)
  | without

/-- The frames of an element with an id: the window, the image that was last laid out, and whether
a frame has panicked. -/
structure ImgRun where
  window : StateWindow Unit ImgState
  shown : Option RenderImage
  panicked : Bool

namespace ImgRun

/-- A window without the element. -/
def start : ImgRun := ⟨.new, none, false⟩

/-- The frame index in the element state. -/
def frameIndex (s : ImgRun) : ℕ := indexOf (s.window.elementState ())

/-- Layout and paint of the element; `none` is a panic. -/
def drawFrame (window : StateWindow Unit ImgState) (frame : ImgFrame) :
    Option (StateWindow Unit ImgState) := do
  let (layoutState, state) ← requestLayout frame.style (some (window.elementState ()))
    frame.layoutData frame.now
  let state ← state
  let _ ← paint layoutState frame.paintData frame.inAtlas
  window.drawWith () state

/-- One frame. After a panic there are no more. -/
def step (s : ImgRun) (a : ImgAction) : Option ImgRun :=
  if s.panicked then none
  else match a with
    | .draw frame =>
      match drawFrame s.window frame with
      | some window => some ⟨window, frame.layoutData.image.or s.shown, false⟩
      | none => some { s with panicked := true }
    | .without => s.window.draw.map fun window => ⟨window, none, false⟩

/-- An image that was not the last one to be laid out has more frames than the index is. -/
def ChangesInRange (s : ImgRun) : ImgAction → Prop
  | .draw frame => ∀ image, frame.Uses image → s.shown ≠ some image →
      s.frameIndex < image.frameCount
  | .without => True

end ImgRun

/-! ## One frame -/

section Frame

variable {style : ImageStyle} {state : Option ImgState} {image : RenderImage} {now : ℕ}

theorem frameIndex_getD (state : Option ImgState) :
    (state.getD ⟨0, none, none⟩).frameIndex = indexOf state := by
  cases state with
  | none => rfl
  | some state => rfl

/-- An index in range can be advanced, and stays in range. -/
theorem ImgState.advance_of_lt {state : ImgState} (h : state.frameIndex < image.frameCount)
    (now : ℕ) :
    ∃ state', state.advance image now = some state' ∧ state'.frameIndex < image.frameCount := by
  unfold advance
  split_ifs
  · cases state.lastFrameTime with
    | none => exact ⟨_, rfl, h⟩
    | some lastFrameTime =>
      obtain ⟨delay, hdelay⟩ :=
        Option.isSome_iff_exists.mp (RenderImage.delay_isSome_iff.mpr h)
      simp only [hdelay, Option.bind_eq_bind, Option.bind_some]
      split_ifs
      · exact ⟨_, rfl, Nat.mod_lt _ (by omega)⟩
      · exact ⟨_, rfl, h⟩
  · exact ⟨_, rfl, h⟩

/-- The layout of an image that has the frame. -/
theorem requestLayout_of_lt (style : ImageStyle) (h : indexOf state < image.frameCount) (now : ℕ) :
    ∃ layoutState state', requestLayout style (some state) (some (.ok image)) now =
        some (layoutState, some state') ∧
      layoutState.frameIndex = indexOf state ∧ state'.frameIndex < image.frameCount := by
  rw [← frameIndex_getD] at h
  obtain ⟨state', hadvance, hlt⟩ := ImgState.advance_of_lt h now
  obtain ⟨size, hsize⟩ := Option.isSome_iff_exists.mp (RenderImage.renderSize_isSome_iff.mpr h)
  refine ⟨⟨indexOf state, none, some size, decide (image.frameCount > 1)⟩,
    { state' with startedLoading := none }, ?_, rfl, hlt⟩
  rw [← frameIndex_getD]
  simp [requestLayout, hadvance, hsize]

/-- The layout of an image that does not have the frame panics. -/
theorem requestLayout_of_le (h : image.frameCount ≤ indexOf state) :
    requestLayout style (some state) (some (.ok image)) now = none := by
  have hsize : image.renderSize (state.getD ⟨0, none, none⟩).frameIndex = none := by
    rw [← Option.not_isSome_iff_eq_none, RenderImage.renderSize_isSome_iff, frameIndex_getD]
    exact not_lt.mpr h
  simp [requestLayout, hsize]

/-- The layout without an image keeps the index. -/
theorem requestLayout_of_none (style : ImageStyle) (state : Option ImgState) (now : ℕ)
    {data : Data} (h : data.image = none) :
    ∃ layoutState state', requestLayout style (some state) data now =
        some (layoutState, some state') ∧
      layoutState.frameIndex = indexOf state ∧ state'.frameIndex = indexOf state := by
  rw [← frameIndex_getD]
  rcases data with _ | ⟨_ | image⟩
  · set known := state.getD ⟨0, none, none⟩ with hknown
    cases hstarted : known.startedLoading with
    | none =>
      have hlayout : requestLayout style (some state) none now =
          some (⟨known.frameIndex, none, none, false⟩,
            some { known with startedLoading := some now }) := by
        simp only [requestLayout, Option.map_some, ← hknown, hstarted]
        rfl
      exact ⟨_, _, hlayout, rfl, rfl⟩
    | some startedLoading =>
      have hlayout : requestLayout style (some state) none now =
          some (⟨known.frameIndex, if now - startedLoading > loadingDelay ∧ style.loading then
            some .loading else none, none, false⟩, some known) := by
        simp only [requestLayout, Option.map_some, ← hknown, hstarted]
        rfl
      exact ⟨_, _, hlayout, rfl, rfl⟩
  · exact ⟨_, _, rfl, rfl, rfl⟩
  · cases h

/-- The layout keeps the index for paint, and leaves one in range of its image. -/
theorem requestLayout_cases (style : ImageStyle) (state : Option ImgState) (data : Data)
    (now : ℕ) :
    (∃ layoutState state', requestLayout style (some state) data now =
        some (layoutState, some state') ∧ layoutState.frameIndex = indexOf state ∧
      (∀ image, data.image = some image →
        indexOf state < image.frameCount ∧ state'.frameIndex < image.frameCount) ∧
      (data.image = none → state'.frameIndex = indexOf state)) ∨
    (∃ image, data.image = some image ∧ image.frameCount ≤ indexOf state) ∧
      requestLayout style (some state) data now = none := by
  cases himage : data.image with
  | none =>
    obtain ⟨layoutState, state', hlayout, hindex, hkept⟩ :=
      requestLayout_of_none style state now himage
    exact .inl ⟨layoutState, state', hlayout, hindex, fun image h => (by cases h), fun _ => hkept⟩
  | some image =>
    obtain rfl : data = some (.ok image) := by
      rcases data with _ | ⟨_ | image'⟩
      · cases himage
      · cases himage
      · obtain rfl := Option.some.inj himage
        rfl
    by_cases hlt : indexOf state < image.frameCount
    · obtain ⟨layoutState, state', hlayout, hindex, hnext⟩ := requestLayout_of_lt style hlt now
      refine .inl ⟨layoutState, state', hlayout, hindex, fun image' h => ?_, fun h => by cases h⟩
      obtain rfl := Option.some.inj h
      exact ⟨hlt, hnext⟩
    · have hle := not_lt.mp hlt
      exact .inr ⟨⟨image, rfl, hle⟩, requestLayout_of_le hle⟩

/-- Paint needs the frame of the image that it gets. -/
theorem paint_isSome_iff {layoutState : ImgLayoutState} {data : Data} {inAtlas : Bool} :
    (paint layoutState data inAtlas).isSome ↔
      ∀ image, data.image = some image → layoutState.frameIndex < image.frameCount := by
  rcases data with _ | ⟨_ | image⟩
  · exact iff_of_true rfl fun image h => by cases h
  · exact iff_of_true rfl fun image h => by cases h
  · have himage : Data.image (some (.ok image)) = some image := rfl
    simp only [himage, Option.some.injEq, forall_eq']
    by_cases hlt : layoutState.frameIndex < image.frameCount
    · obtain ⟨size, hsize⟩ := Option.isSome_iff_exists.mp (RenderImage.size_isSome_iff.mpr hlt)
      refine iff_of_true ?_ hlt
      simp [paint, hsize, RenderImage.paintImage_of_lt hlt]
    · have hsize : image.size layoutState.frameIndex = none := by
        rw [← Option.not_isSome_iff_eq_none, RenderImage.size_isSome_iff]
        exact hlt
      refine iff_of_false ?_ hlt
      simp [paint, hsize]

end Frame

namespace ImgRun

variable {s s' : ImgRun} {window : StateWindow Unit ImgState} {frame : ImgFrame}

/-- A frame with images that have the stored index does not panic, and the index that it leaves is
in range of the image that was laid out. -/
theorem drawFrame_of_lt (hidle : window.Idle)
    (hrange : ∀ image, frame.Uses image →
      indexOf (window.elementState ()) < image.frameCount) :
    ∃ window', drawFrame window frame = some window' ∧ window'.Idle ∧
      (∀ image, frame.layoutData.image = some image →
        indexOf (window'.elementState ()) < image.frameCount) ∧
      (frame.layoutData.image = none →
        indexOf (window'.elementState ()) = indexOf (window.elementState ())) := by
  rcases requestLayout_cases frame.style (window.elementState ()) frame.layoutData frame.now with
    ⟨layoutState, state', hlayout, hindex, hnext, hkept⟩ | ⟨⟨image, himage, hle⟩, -⟩
  · have hpaint : (paint layoutState frame.paintData frame.inAtlas).isSome := by
      rw [paint_isSome_iff, hindex]
      exact fun image himage => hrange image (.inr himage)
    obtain ⟨painted, hpainted⟩ := Option.isSome_iff_exists.mp hpaint
    obtain ⟨window', hdraw, hidle', hstored⟩ := hidle.drawWith () state'
    refine ⟨window', ?_, hidle', ?_, ?_⟩
    · simp [drawFrame, hlayout, hpainted, hdraw]
    · rw [hstored]
      exact fun image himage => (hnext image himage).2
    · rw [hstored]
      exact hkept
  · exact absurd (hrange image (.inl himage)) (not_lt.mpr hle)

/-- A frame with an image that does not have the stored index panics. -/
theorem drawFrame_of_le {image : RenderImage}
    (himage : frame.Uses image)
    (hle : image.frameCount ≤ indexOf (window.elementState ())) :
    drawFrame window frame = none := by
  rcases requestLayout_cases frame.style (window.elementState ()) frame.layoutData frame.now with
    ⟨layoutState, state', hlayout, hindex, hnext, -⟩ | ⟨-, hlayout⟩
  · rcases himage with himage | himage
    · exact absurd (hnext image himage).1 (not_lt.mpr hle)
    · have hpaint : paint layoutState frame.paintData frame.inAtlas = none := by
        rw [← Option.not_isSome_iff_eq_none, paint_isSome_iff, hindex]
        exact fun h => not_lt.mpr hle (h image himage)
      simp [drawFrame, hlayout, hpaint]
  · simp [drawFrame, hlayout]

/-- Between two frames, the stored index is in range of the image that was last laid out. -/
structure Inv (s : ImgRun) : Prop where
  idle : s.window.Idle
  inRange : ∀ image, s.shown = some image → s.frameIndex < image.frameCount

theorem inv_start : Inv start := ⟨StateWindow.idle_new, fun _ h => by cases h⟩

/-- Every frame keeps the invariant. After a panic it stays with the frame before. -/
theorem Inv.step {a : ImgAction} (h : s.Inv) (hstep : s.step a = some s') : s'.Inv := by
  unfold ImgRun.step at hstep
  split_ifs at hstep
  cases a with
  | draw frame =>
    dsimp only at hstep
    by_cases hrange : ∀ image, frame.Uses image →
        indexOf (s.window.elementState ()) < image.frameCount
    · obtain ⟨window', hdraw, hidle, hnext, hkept⟩ := drawFrame_of_lt h.idle hrange
      rw [hdraw] at hstep
      obtain rfl := Option.some.inj hstep
      refine ⟨hidle, fun image himage => ?_⟩
      cases hlayout : frame.layoutData.image with
      | none =>
        rw [hlayout, Option.none_or] at himage
        exact (hkept hlayout).trans_lt (h.inRange image himage)
      | some image' =>
        rw [hlayout, Option.some_or] at himage
        obtain rfl := Option.some.inj himage
        exact hnext image' hlayout
    · push Not at hrange
      obtain ⟨image, himage, hle⟩ := hrange
      rw [drawFrame_of_le himage hle] at hstep
      obtain rfl := Option.some.inj hstep
      exact ⟨h.idle, h.inRange⟩
  | without =>
    obtain ⟨window', hdraw, hidle, -⟩ := h.idle.draw ()
    simp only [hdraw, Option.map_some] at hstep
    obtain rfl := Option.some.inj hstep
    exact ⟨hidle, fun image himage => by cases himage⟩

/-- A frame panics exactly if its source has changed to an image without the stored index. -/
theorem panicked_step_iff {a : ImgAction} (h : s.Inv) (hstep : s.step a = some s') :
    s'.panicked = false ↔ s.ChangesInRange a := by
  unfold ImgRun.step at hstep
  split_ifs at hstep
  cases a with
  | draw frame =>
    dsimp only at hstep
    have hchanges : s.ChangesInRange (.draw frame) ↔
        ∀ image, frame.Uses image →
          indexOf (s.window.elementState ()) < image.frameCount := by
      refine ⟨fun hall image himage => ?_, fun hall image himage _ => hall image himage⟩
      by_cases hshown : s.shown = some image
      · exact h.inRange image hshown
      · exact hall image himage hshown
    rw [hchanges]
    by_cases hrange : ∀ image, frame.Uses image →
        indexOf (s.window.elementState ()) < image.frameCount
    · obtain ⟨window', hdraw, -⟩ := drawFrame_of_lt h.idle hrange
      rw [hdraw] at hstep
      obtain rfl := Option.some.inj hstep
      exact iff_of_true rfl hrange
    · refine iff_of_false ?_ hrange
      push Not at hrange
      obtain ⟨image, himage, hle⟩ := hrange
      rw [drawFrame_of_le himage hle] at hstep
      obtain rfl := Option.some.inj hstep
      exact Bool.noConfusion
  | without =>
    obtain ⟨window', hdraw, -⟩ := h.idle.draw ()
    simp only [hdraw, Option.map_some] at hstep
    obtain rfl := Option.some.inj hstep
    exact iff_of_true rfl trivial

/-- In a run of frames no use of the frame index panics, exactly if every image that the source
changes to has more frames than the index that is stored. -/
theorem neverPanics_iff (frames : List ImgAction) :
    AllStates step (fun s => s.panicked = false) start frames ↔
      AllSteps step ChangesInRange start frames :=
  allStates_iff_allSteps Inv (fun _ _ _ h hstep => h.step hstep)
    (fun _ _ _ h _ hstep => panicked_step_iff h hstep) inv_start rfl frames

/-- An image of ten by ten pixels with some frames, which are all shown for a tenth of a second. -/
def flipBook (id frames : ℕ) : RenderImage :=
  ⟨id, 1, List.replicate frames ⟨⟨10, 10⟩, [], 100000000⟩⟩

/-- A frame with an image at a time in nanoseconds. -/
def frameOf (image : RenderImage) (now : ℕ) : ImgAction :=
  .draw ⟨⟨false, false⟩, some (.ok image), some (.ok image), now, false⟩

/-- An image of two frames is replaced by a still one when its second frame is to be shown. -/
theorem not_neverPanics_stillImage :
    ¬AllStates step (fun s => s.panicked = false) start
      [frameOf (flipBook 0 2) 0, frameOf (flipBook 0 2) 100000000,
        frameOf (flipBook 1 1) 200000000] := by
  intro h
  have hfirst := h.2 _ rfl
  have hsecond := hfirst.2 _ rfl
  have hthird := hsecond.2 _ rfl
  exact absurd hthird.head (by decide +kernel)

end ImgRun

end Img

end Lucie
