import Lucie.Foundation.Exact
import Lucie.Foundation.Journal
import Lucie.Geometry.Bounds
import Mathlib.Data.Rat.Floor
import Mathlib.Tactic.Ring

/-!
# Configuring a Wayland window

The compositor announces the state of a toplevel and then asks for an answer to it. The window
answers with its new geometry, but at most once a frame while it is resized interactively. What it
skips then is not made up for. While it is maximized or fullscreen it remembers the size that it had
before.
-/

set_option autoImplicit false

namespace Lucie.Wayland

open Foundation

/-- `WindowDecorations`. -/
inductive WindowDecorations
  | server
  | client
  deriving DecidableEq

/-- `Tiling`. -/
structure Tiling where
  top : Bool := false
  left : Bool := false
  right : Bool := false
  bottom : Bool := false
  deriving DecidableEq

/-- `Tiling::tiled`. -/
def Tiling.tiled : Tiling := ⟨true, true, true, true⟩

/-- `InProgressConfigure`. -/
structure InProgressConfigure where
  size : Option (Size ℚ)
  fullscreen : Bool
  maximized : Bool
  resizing : Bool
  tiling : Tiling

/-- The states of a toplevel. -/
inductive ToplevelState
  | maximized
  | fullscreen
  | resizing
  | tiledTop
  | tiledLeft
  | tiledRight
  | tiledBottom
  | other
  deriving DecidableEq

/-- What a window asks of the compositor and of the application. -/
inductive WaylandOutput
  /-- `ack_configure`, and `set_geometry` with the geometry. -/
  | acknowledge (serial : ℕ) (configure : Option InProgressConfigure) (geometry : Bounds ℤ)
  /-- The early return of an interactive resize. -/
  | skip (serial : ℕ) (configure : InProgressConfigure)
  /-- A frame callback is requested, and a frame is drawn and committed. -/
  | frame
  | setGeometry (geometry : Bounds ℤ)
  /-- The callback for a new size or scale. -/
  | resize (size : Size ℚ) (scale : ℚ)

/-- The fields of `WaylandWindowState` for configures, with the frame callbacks that are not done,
the resizes that were spawned and what the window did. -/
structure WaylandWindow where
  acknowledgedFirstConfigure : Bool
  bounds : Bounds ℚ
  scale : ℚ
  decorations : WindowDecorations
  clientInset : Option ℚ
  fullscreen : Bool
  maximized : Bool
  tiling : Tiling
  windowBounds : Bounds ℚ
  inProgressConfigure : Option InProgressConfigure
  resizeThrottle : Bool
  frameCallbacks : ℕ
  spawnedResizes : List (Size ℚ)
  outputs : List WaylandOutput

/-- What happens to a window. -/
inductive WaylandWindowAction
  | toplevelConfigure (width height : ℤ) (states : List ToplevelState)
  | surfaceConfigure (serial : ℕ)
  | layerConfigure (width height : ℤ) (serial : ℕ)
  /-- A frame callback is done. -/
  | frameDone
  | decorationConfigure (mode : WindowDecorations)
  /-- The compositor may not support decorations. -/
  | requestDecorations (decorations : WindowDecorations) (supported : Bool)
  | setClientInset (inset : ℚ)
  | resize (size : Size ℚ)
  /-- A spawned resize runs. -/
  | spawnedResize (size : Size ℚ)
  | rescale (scale : ℚ)

/-- `f32 as i32`. -/
def toI32 (v : ℚ) : ℤ := max (-2 ^ 31) (min (2 ^ 31 - 1) (if 0 ≤ v then ⌊v⌋ else ⌈v⌉))

/-- `f32::round`. -/
def roundPixels (v : ℚ) : ℤ := if 0 ≤ v then ⌊v + 1 / 2⌋ else ⌈v - 1 / 2⌉

/-- `compute_outer_size`. -/
def computeOuterSize (inset : ℚ) (newSize : Option (Size ℚ)) (tiling : Tiling) :
    Option (Size ℚ) :=
  newSize.map fun newSize => {
    width := newSize.width + (if tiling.left then 0 else inset) +
      (if tiling.right then 0 else inset)
    height := newSize.height + (if tiling.top then 0 else inset) +
      (if tiling.bottom then 0 else inset) }

/-- `inset_by_tiling`. -/
def insetByTiling (bounds : Bounds ℚ) (inset : ℚ) (tiling : Tiling) : Bounds ℚ where
  origin := {
    x := bounds.origin.x + if tiling.left then 0 else inset
    y := bounds.origin.y + if tiling.top then 0 else inset }
  size := {
    width := bounds.size.width - (if tiling.left then 0 else inset) -
      (if tiling.right then 0 else inset)
    height := bounds.size.height - (if tiling.top then 0 else inset) -
      (if tiling.bottom then 0 else inset) }

/-- A configure without a width or a height leaves the size to the window. -/
def configureSize (width height : ℤ) : Option (Size ℚ) :=
  if width = 0 ∨ height = 0 then none else some ⟨width, height⟩

namespace InProgressConfigure

/-- The `Configure` event of `handle_toplevel_event`. -/
def ofToplevel (width height : ℤ) (states : List ToplevelState) : InProgressConfigure :=
  let fullscreen := decide (.fullscreen ∈ states)
  let maximized := decide (.maximized ∈ states)
  { size := configureSize width height
    fullscreen
    maximized
    resizing := decide (.resizing ∈ states)
    tiling :=
      if fullscreen || maximized then .tiled
      else {
        top := decide (.tiledTop ∈ states)
        left := decide (.tiledLeft ∈ states)
        right := decide (.tiledRight ∈ states)
        bottom := decide (.tiledBottom ∈ states) } }

/-- The `Configure` event of `handle_layersurface_event`. -/
def ofLayer (width height : ℤ) : InProgressConfigure :=
  ⟨configureSize width height, false, false, false, {}⟩

/-- The window is neither maximized nor fullscreen. -/
def floats (configure : InProgressConfigure) : Bool :=
  !configure.fullscreen && !configure.maximized

end InProgressConfigure

namespace WaylandWindow

/-- `WaylandWindowState::new`. -/
def new (bounds : Bounds ℚ) : WaylandWindow where
  acknowledgedFirstConfigure := false
  bounds := bounds
  scale := 1
  decorations := .client
  clientInset := none
  fullscreen := false
  maximized := false
  tiling := {}
  windowBounds := bounds
  inProgressConfigure := none
  resizeThrottle := false
  frameCallbacks := 0
  spawnedResizes := []
  outputs := []

/-- `WaylandWindowState::inset`. -/
def inset (s : WaylandWindow) : ℚ :=
  match s.decorations with
  | .server => 0
  | .client => s.clientInset.getD 0

/-- `frame`. -/
def frame (s : WaylandWindow) : WaylandWindow :=
  { s with
    frameCallbacks := s.frameCallbacks + 1
    resizeThrottle := false
    outputs := s.outputs ++ [.frame] }

/-- `set_size_and_scale`. -/
def setSizeAndScale (s : WaylandWindow) (size : Option (Size ℚ)) (scale : Option ℚ) :
    WaylandWindow :=
  if (∀ new ∈ size, new = s.bounds.size) ∧ ∀ new ∈ scale, new = s.scale then s
  else { s with
    bounds := { s.bounds with size := size.getD s.bounds.size }
    scale := scale.getD s.scale
    outputs := s.outputs ++ [.resize (size.getD s.bounds.size) (scale.getD s.scale)] }

/-- The geometry of the window for the compositor. -/
def geometry (s : WaylandWindow) : Bounds ℤ :=
  let bounds := insetByTiling ⟨⟨0, 0⟩, s.bounds.size⟩ s.inset s.tiling
  let positive (v : ℤ) : ℤ := if v ≤ 0 then 1 else v
  { origin := ⟨toI32 bounds.origin.x, toI32 bounds.origin.y⟩
    size := ⟨positive (toI32 bounds.size.width), positive (toI32 bounds.size.height)⟩ }

/-- `handle_xdg_surface_event` from `ack_configure` on. -/
def acknowledge (s : WaylandWindow) (serial : ℕ) (configure : Option InProgressConfigure) :
    WaylandWindow :=
  let s' := { s with
    acknowledgedFirstConfigure := true
    outputs := s.outputs ++ [.acknowledge serial configure s.geometry] }
  if s.acknowledgedFirstConfigure then s' else s'.frame

/-- The size that a configure asks for. -/
def configuredSize (s : WaylandWindow) (configure : InProgressConfigure) : Option (Size ℚ) :=
  if configure.floats then
    if s.maximized && !configure.maximized then some s.windowBounds.size
    else computeOuterSize s.inset configure.size configure.tiling
  else configure.size

/-- `handle_xdg_surface_event` of a configure that is applied, up to `ack_configure`. -/
def apply (s : WaylandWindow) (configure : InProgressConfigure) : WaylandWindow :=
  let size := s.configuredSize configure
  let s := { s with
    fullscreen := configure.fullscreen
    maximized := configure.maximized
    tiling := configure.tiling
    resizeThrottle := s.resizeThrottle || configure.resizing
    windowBounds :=
      if configure.floats then (size.map fun size => ⟨⟨0, 0⟩, size⟩).getD s.windowBounds
      else s.windowBounds }
  match size with
  | some size => s.setSizeAndScale (some size) none
  | none => s

/-- `handle_xdg_surface_event`. -/
def handleXdgSurfaceEvent (s : WaylandWindow) (serial : ℕ) : WaylandWindow :=
  match s.inProgressConfigure with
  | none => s.acknowledge serial none
  | some configure =>
    let s := { s with inProgressConfigure := none }
    if configure.resizing && s.resizeThrottle then { s with
      fullscreen := configure.fullscreen
      maximized := configure.maximized
      tiling := configure.tiling
      outputs := s.outputs ++ [.skip serial configure] }
    else (s.apply configure).acknowledge serial (some configure)

/-- One event. -/
def step (s : WaylandWindow) : WaylandWindowAction → Option WaylandWindow
  | .toplevelConfigure width height states =>
    some { s with inProgressConfigure := some (.ofToplevel width height states) }
  | .surfaceConfigure serial => some (s.handleXdgSurfaceEvent serial)
  | .layerConfigure width height serial =>
    some ({ s with inProgressConfigure := some (.ofLayer width height) }.handleXdgSurfaceEvent
      serial)
  | .frameDone =>
    if s.frameCallbacks = 0 then none
    else some { s with frameCallbacks := s.frameCallbacks - 1 }.frame
  | .decorationConfigure mode => some { s with decorations := mode }
  | .requestDecorations decorations supported =>
    some { s with decorations := if supported then decorations else .client }
  | .setClientInset inset => some { s with clientInset := some inset }
  | .resize size => some { s with
      spawnedResizes := s.spawnedResizes ++ [size]
      outputs := s.outputs ++ [.setGeometry {
        origin := ⟨toI32 s.bounds.origin.x, toI32 s.bounds.origin.y⟩
        size := ⟨roundPixels (size.width * s.scale), roundPixels (size.height * s.scale)⟩ }] }
  | .spawnedResize size =>
    if size ∈ s.spawnedResizes then
      some ({ s with spawnedResizes := s.spawnedResizes.erase size }.setSizeAndScale (some size)
        none)
    else none
  | .rescale scale => some (s.setSizeAndScale none (some scale))

/-- The window is neither maximized nor fullscreen. -/
def floats (s : WaylandWindow) : Bool := !s.fullscreen && !s.maximized

end WaylandWindow

end Lucie.Wayland
