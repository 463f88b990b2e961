import Mathlib.Data.List.Forall2
import Mathlib.Data.Set.Basic
import Lucie.Foundation.Exact

/-!
# Painting color glyphs

The pen keeps a stack of the paths it clips to, and a fill is drawn later through the innermost of
them alone. A clip without an outline is not on the stack, but it is popped like the others, and
then the path of the clip around it is gone.
-/

set_option autoImplicit false

namespace Lucie

open Foundation

/-- The calls of a `tiny_skia::PathBuilder`. -/
inductive PathVerb (U : Type)
  | moveTo (x y : U)
  | lineTo (x y : U)
  | quadTo (x₁ y₁ x y : U)
  | cubicTo (x₁ y₁ x₂ y₂ x y : U)
  | close

/-- What the pen uses to read outlines and to draw. -/
structure PenLibrary where
  Scalar : Type
  GlyphId : Type
  Brush : Type
  FontTransform : Type
  Transform : Type
  Path : Type
  Rect : Type
  Shader : Type
  Pixmap : Type
  Offset : Type
  Pixel : Type
  /-- The outline of a glyph of the font, unless it cannot be drawn. -/
  outline : GlyphId → Option (Option (List (PathVerb Scalar)))
  identity : Transform
  fromRow : FontTransform → Transform
  preConcat : Transform → Transform → Transform
  /-- `post_scale(1.0, -1.0)`. -/
  flip : Transform → Transform
  /-- `PathBuilder::finish`, which needs something to draw. -/
  finish : List (PathVerb Scalar) → Option Path
  transform : Path → Transform → Option Path
  bounds : Path → Rect
  emptyRect : Rect
  join : Rect → Rect → Option Rect
  /-- The shader of a brush under a transform, if there is one. -/
  shader : Brush → Transform → Option Shader
  /-- A pixmap for what is within the bounds, if it has a size. -/
  pixmap : Rect → Option Pixmap
  fillPath : Pixmap → Rect → Path → Shader → Pixmap
  offset : Rect → Offset
  /-- The pixels inside of a path. -/
  area : Path → Set Pixel

/-- A `BoundingBox`. -/
structure ClipBox (U : Type) where
  xMin : U
  yMin : U
  xMax : U
  yMax : U

/-- `ColorGlyphPen`. The stacks begin with their last entry. -/
structure ColorGlyphPen (lib : PenLibrary) where
  transforms : List lib.Transform
  paths : List lib.Path
  bounds : lib.Rect
  fills : List (List lib.Path × lib.Shader)

namespace ColorGlyphPen

variable {lib : PenLibrary}

/-- `ColorGlyphPen::new`. -/
def new : ColorGlyphPen lib := ⟨[], [], lib.emptyRect, []⟩

/-- The transform that is on top, in the coordinates of the pixmap. -/
def currentTransform (pen : ColorGlyphPen lib) : lib.Transform :=
  lib.flip (pen.transforms.head?.getD lib.identity)

/-- `ColorGlyphPen::push_transform`. -/
def pushTransform (pen : ColorGlyphPen lib) (transform : lib.FontTransform) : ColorGlyphPen lib :=
  let transform := match pen.transforms.head? with
    | some prev => lib.preConcat prev (lib.fromRow transform)
    | none => lib.fromRow transform
  { pen with transforms := transform :: pen.transforms }

/-- `ColorGlyphPen::pop_transform`. -/
def popTransform (pen : ColorGlyphPen lib) : ColorGlyphPen lib :=
  { pen with transforms := pen.transforms.tail }

/-- The end of both kinds of pushes. The unwraps may panic. -/
def pushPath (pen : ColorGlyphPen lib) (verbs : List (PathVerb lib.Scalar)) :
    Option (ColorGlyphPen lib) :=
  match lib.finish verbs with
  | none => some pen
  | some path => do
    let path ← lib.transform path pen.currentTransform
    let bounds ← lib.join pen.bounds (lib.bounds path)
    some { pen with bounds, paths := path :: pen.paths }

/-- `ColorGlyphPen::push_clip_glyph`. -/
def pushClipGlyph (pen : ColorGlyphPen lib) (glyph : lib.GlyphId) : Option (ColorGlyphPen lib) :=
  match lib.outline glyph with
  | none => some pen
  | some none => none
  | some (some verbs) => pen.pushPath verbs

/-- The sides of a box. -/
def boxVerbs {U : Type} (box : ClipBox U) : List (PathVerb U) :=
  [.moveTo box.xMin box.yMin, .lineTo box.xMax box.yMin, .lineTo box.xMax box.yMax,
    .lineTo box.xMin box.yMax, .close]

/-- `ColorGlyphPen::push_clip_box`. -/
def pushClipBox (pen : ColorGlyphPen lib) (box : ClipBox lib.Scalar) :
    Option (ColorGlyphPen lib) :=
  pen.pushPath (boxVerbs box)

/-- `ColorGlyphPen::pop_clip`. -/
def popClip (pen : ColorGlyphPen lib) : ColorGlyphPen lib := { pen with paths := pen.paths.tail }

/-- `ColorGlyphPen::fill`. The unwraps may panic. -/
def fill (pen : ColorGlyphPen lib) (brush : lib.Brush) : Option (ColorGlyphPen lib) := do
  let shader ← lib.shader brush pen.currentTransform
  some { pen with fills := pen.fills ++ [(pen.paths, shader)] }

/-- `ColorGlyphPen::finish`, or nothing if it panics. -/
def finish (pen : ColorGlyphPen lib) : Option (Option (lib.Pixmap × lib.Offset)) :=
  match lib.pixmap pen.bounds with
  | none => some none
  | some pixmap => do
    let pixmap ← pen.fills.foldlM (fun pixmap fill =>
      fill.1.head?.map fun path => lib.fillPath pixmap pen.bounds path fill.2) pixmap
    some (some (pixmap, lib.offset pen.bounds))

end ColorGlyphPen

/-- What a glyph is clipped to. -/
inductive Clip (lib : PenLibrary)
  | glyph (glyph : lib.GlyphId)
  | box (box : ClipBox lib.Scalar)

/-- The outline of a clip, if it has one. -/
def Clip.path {lib : PenLibrary} : Clip lib → Option lib.Path
  | .glyph id => (lib.outline id).join.bind lib.finish
  | .box sides => lib.finish (ColorGlyphPen.boxVerbs sides)

/-- The pixels inside of a clip. -/
def Clip.area {lib : PenLibrary} (clip : Clip lib) (transform : lib.Transform) : Set lib.Pixel :=
  {pixel | ∃ path, clip.path.bind (lib.transform · transform) = some path ∧ pixel ∈ lib.area path}

/-- Both kinds of pushes. -/
def ColorGlyphPen.pushClip {lib : PenLibrary} (pen : ColorGlyphPen lib) :
    Clip lib → Option (ColorGlyphPen lib)
  | .glyph id => pen.pushClipGlyph id
  | .box sides => pen.pushClipBox sides

/-- A callback of the painter. -/
inductive PaintCall (lib : PenLibrary)
  | pushTransform (transform : lib.FontTransform)
  | popTransform
  | pushClip (clip : Clip lib)
  | popClip
  | fill (brush : lib.Brush)

/-- A pen with the areas of the clips that are open, the innermost first, and of those that were
open for each of its fills. -/
structure PaintRun (lib : PenLibrary) where
  pen : ColorGlyphPen lib
  clips : List (Set lib.Pixel)
  filled : List (List (Set lib.Pixel))

namespace PaintRun

variable {lib : PenLibrary}

/-- A new pen. -/
def new : PaintRun lib := ⟨.new, [], []⟩

/-- One callback, if it does not panic. What is popped was pushed. -/
def step (s : PaintRun lib) : PaintCall lib → Option (PaintRun lib)
  | .pushTransform transform => some { s with pen := s.pen.pushTransform transform }
  | .popTransform =>
    if s.pen.transforms = [] then none else some { s with pen := s.pen.popTransform }
  | .pushClip clip => (s.pen.pushClip clip).map fun pen =>
      { s with pen, clips := clip.area s.pen.currentTransform :: s.clips }
  | .popClip =>
    if s.clips.length = 0 then none
    else some { s with pen := s.pen.popClip, clips := s.clips.tail }
  | .fill brush => (s.pen.fill brush).map fun pen =>
      { s with pen, filled := s.filled ++ [s.clips] }

/-- A fill is drawn inside of all clips that were open. -/
def Inside (fill : List lib.Path × lib.Shader) (clips : List (Set lib.Pixel)) : Prop :=
  ∀ path, fill.1.head? = some path → ∀ clip ∈ clips, lib.area path ⊆ clip

/-- The stack has a path for each clip, the fills are inside of their clips, and `finish` does not
panic. -/
structure Clipped (s : PaintRun lib) : Prop where
  paths : s.pen.paths.length = s.clips.length
  fills : List.Forall₂ Inside s.pen.fills s.filled
  finish : s.pen.finish ≠ none

/-- A fill was made with no path on the stack. -/
def Unclipped (s : PaintRun lib) : Prop := ∃ fill ∈ s.pen.fills, fill.1 = []

/-- A clip that is pushed has an outline. A fill has clips around it, and the innermost is inside of
the others; or it is without clips, and there are no bounds to make a pixmap for, also later. -/
def Nested (s : PaintRun lib) : PaintCall lib → Prop
  | .pushClip clip => clip.path.isSome ∧ (s.Unclipped → ∀ path bounds,
      clip.path.bind (lib.transform · s.pen.currentTransform) = some path →
      lib.join s.pen.bounds (lib.bounds path) = some bounds → lib.pixmap bounds = none)
  | .fill _ => (s.clips = [] → lib.pixmap s.pen.bounds = none) ∧
      ∀ inner outer, s.clips = inner :: outer → ∀ clip ∈ outer, inner ⊆ clip
  | _ => True

/-! ## What a step does -/

variable {s s' : PaintRun lib}

/-- `finish` panics exactly if there is a pixmap and a fill without a path. -/
theorem finish_ne_none_iff :
    s.pen.finish ≠ none ↔ (s.Unclipped → lib.pixmap s.pen.bounds = none) := by
  have hfold (fills : List (List lib.Path × lib.Shader)) (bounds : lib.Rect)
      (pixmap : lib.Pixmap) : fills.foldlM (fun pixmap fill =>
        fill.1.head?.map fun path => lib.fillPath pixmap bounds path fill.2) pixmap = none ↔
          ∃ fill ∈ fills, fill.1 = [] := by
    induction fills generalizing pixmap with
    | nil => simp
    | cons fill fills ih =>
      obtain ⟨paths, shader⟩ := fill
      cases paths with
      | nil => simp
      | cons path paths => simpa using ih _
  unfold ColorGlyphPen.finish
  cases hpixmap : lib.pixmap s.pen.bounds with
  | none => simp
  | some pixmap =>
    simp only [reduceCtorEq, imp_false, Unclipped]
    rw [← hfold s.pen.fills s.pen.bounds pixmap]
    cases s.pen.fills.foldlM (fun pixmap fill =>
      fill.1.head?.map fun path => lib.fillPath pixmap s.pen.bounds path fill.2) pixmap <;> simp

theorem pushPath_cases {pen pen' : ColorGlyphPen lib} {verbs : List (PathVerb lib.Scalar)}
    (h : pen.pushPath verbs = some pen') :
    (lib.finish verbs = none ∧ pen' = pen) ∨
      ∃ path bounds, (lib.finish verbs).bind (lib.transform · pen.currentTransform) = some path ∧
        lib.join pen.bounds (lib.bounds path) = some bounds ∧
        pen' = { pen with bounds, paths := path :: pen.paths } := by
  unfold ColorGlyphPen.pushPath at h
  cases hfinish : lib.finish verbs with
  | none =>
    rw [hfinish] at h
    exact .inl ⟨rfl, (Option.some.inj h).symm⟩
  | some outline =>
    rw [hfinish] at h
    obtain ⟨path, hpath, h⟩ := Option.bind_eq_some_iff.mp h
    obtain ⟨bounds, hbounds, h⟩ := Option.bind_eq_some_iff.mp h
    exact .inr ⟨path, bounds, hpath, hbounds, (Option.some.inj h).symm⟩

/-- A clip is pushed that has no outline, or its path is. -/
theorem pushClip_cases {pen pen' : ColorGlyphPen lib} {clip : Clip lib}
    (h : pen.pushClip clip = some pen') :
    (clip.path = none ∧ pen' = pen) ∨
      ∃ path bounds, clip.path.bind (lib.transform · pen.currentTransform) = some path ∧
        lib.join pen.bounds (lib.bounds path) = some bounds ∧
        pen' = { pen with bounds, paths := path :: pen.paths } := by
  cases clip with
  | box sides => exact pushPath_cases h
  | glyph id =>
    simp only [ColorGlyphPen.pushClip, ColorGlyphPen.pushClipGlyph] at h
    cases houtline : lib.outline id with
    | none =>
      rw [houtline] at h
      exact .inl ⟨by simp [Clip.path, houtline], (Option.some.inj h).symm⟩
    | some outline =>
      rw [houtline] at h
      cases outline with
      | none => cases h
      | some verbs =>
        have hpath : (Clip.glyph id : Clip lib).path = lib.finish verbs := by
          simp [Clip.path, houtline]
        rw [hpath]
        exact pushPath_cases h

theorem step_pushClip {clip : Clip lib} (h : s.step (.pushClip clip) = some s') :
    (clip.path = none ∧ s' = { s with clips := clip.area s.pen.currentTransform :: s.clips }) ∨
      ∃ path bounds, clip.path.bind (lib.transform · s.pen.currentTransform) = some path ∧
        lib.join s.pen.bounds (lib.bounds path) = some bounds ∧
        s' = { s with
          pen := { s.pen with bounds, paths := path :: s.pen.paths }
          clips := lib.area path :: s.clips } := by
  obtain ⟨pen, hpen, rfl⟩ := Option.map_eq_some_iff.mp h
  obtain ⟨hnone, rfl⟩ | ⟨path, bounds, hpath, hbounds, rfl⟩ := pushClip_cases hpen
  · exact .inl ⟨hnone, rfl⟩
  · refine .inr ⟨path, bounds, hpath, hbounds, ?_⟩
    have harea : clip.area s.pen.currentTransform = lib.area path := by
      ext pixel
      simp [Clip.area, hpath]
    rw [harea]

theorem step_fill {brush : lib.Brush} (h : s.step (.fill brush) = some s') :
    ∃ shader, s' = { s with
      pen := { s.pen with fills := s.pen.fills ++ [(s.pen.paths, shader)] }
      filled := s.filled ++ [s.clips] } := by
  obtain ⟨pen, hpen, rfl⟩ := Option.map_eq_some_iff.mp h
  obtain ⟨shader, -, hpen⟩ := Option.bind_eq_some_iff.mp hpen
  cases hpen
  exact ⟨shader, rfl⟩

/-! ## The stack of paths -/

/-- There are no more paths than clips. If there are as many, they are those of the clips. -/
structure Stacked (s : PaintRun lib) : Prop where
  length : s.pen.paths.length ≤ s.clips.length
  clips : s.pen.paths.length = s.clips.length → s.clips = s.pen.paths.map lib.area

theorem stacked_new : (new : PaintRun lib).Stacked := ⟨le_rfl, fun _ => rfl⟩

theorem Stacked.step (h : s.Stacked) {a : PaintCall lib} (hstep : s.step a = some s') :
    s'.Stacked := by
  obtain ⟨hlength, hclips⟩ := h
  cases a with
  | pushTransform transform =>
    cases hstep
    exact ⟨hlength, hclips⟩
  | popTransform =>
    simp only [PaintRun.step] at hstep
    split_ifs at hstep
    cases hstep
    exact ⟨hlength, hclips⟩
  | pushClip clip =>
    obtain ⟨-, rfl⟩ | ⟨path, bounds, -, -, rfl⟩ := step_pushClip hstep
    · constructor
      · exact hlength.trans (Nat.le_succ _)
      · intro heq
        simp only [List.length_cons] at heq
        omega
    · constructor
      · exact Nat.succ_le_succ hlength
      · intro heq
        simp only [List.length_cons, Nat.add_right_cancel_iff] at heq
        rw [hclips heq]
        rfl
  | popClip =>
    simp only [PaintRun.step] at hstep
    split_ifs at hstep with hopen
    cases hstep
    constructor
    · simp only [ColorGlyphPen.popClip, List.length_tail]
      omega
    · intro heq
      simp only [ColorGlyphPen.popClip, List.length_tail] at heq
      by_cases hpaths : s.pen.paths.length = s.clips.length
      · simp only [ColorGlyphPen.popClip]
        rw [hclips hpaths, List.map_tail]
      · -- the only clip that was left had no path
        have hclips : s.clips.tail = [] := List.length_eq_zero_iff.mp (by
          rw [List.length_tail]
          omega)
        have hnone : s.pen.paths.tail = [] := List.length_eq_zero_iff.mp (by
          rw [List.length_tail]
          omega)
        simp only [ColorGlyphPen.popClip, hclips, hnone, List.map_nil]
  | fill brush =>
    obtain ⟨shader, rfl⟩ := step_fill hstep
    exact ⟨hlength, hclips⟩

/-! ## Clips with outlines -/

/-- Pushing a clip keeps what is clipped exactly if it has an outline and gives no pixmap to a fill
without clips. -/
theorem Clipped.pushClip_iff (h : s.Clipped) {clip : Clip lib}
    (hstep : s.step (.pushClip clip) = some s') : s'.Clipped ↔ s.Nested (.pushClip clip) := by
  obtain ⟨hpaths, hfills, -⟩ := h
  obtain ⟨hnone, rfl⟩ | ⟨path, bounds, hpath, hbounds, rfl⟩ := step_pushClip hstep
  · refine iff_of_false (fun h' => ?_) fun hnested => ?_
    · have hlength := h'.paths
      simp only [List.length_cons] at hlength
      omega
    · have hsome := hnested.1
      rw [hnone] at hsome
      cases hsome
  · have hsome : clip.path.isSome := by
      obtain ⟨outline, houtline, -⟩ := Option.bind_eq_some_iff.mp hpath
      rw [houtline]
      rfl
    constructor
    · intro h'
      refine ⟨hsome, fun hunclipped path' bounds' hpath' hbounds' => ?_⟩
      obtain rfl := Option.some.inj (hpath.symm.trans hpath')
      obtain rfl := Option.some.inj (hbounds.symm.trans hbounds')
      exact finish_ne_none_iff.mp h'.finish hunclipped
    · intro hnested
      refine ⟨congrArg (· + 1) hpaths, hfills, finish_ne_none_iff.mpr fun hunclipped => ?_⟩
      exact hnested.2 hunclipped path bounds hpath hbounds

/-- A fill keeps it exactly if it is nested. -/
theorem Clipped.fill_iff (h : s.Clipped) (hstacked : s.Stacked) {brush : lib.Brush}
    (hstep : s.step (.fill brush) = some s') : s'.Clipped ↔ s.Nested (.fill brush) := by
  obtain ⟨hpaths, hfills, hfinish⟩ := h
  obtain ⟨shader, rfl⟩ := step_fill hstep
  have hclips := hstacked.clips hpaths
  have hempty : s.clips = [] ↔ s.pen.paths = [] := by rw [hclips, List.map_eq_nil_iff]
  have hinside : Inside (s.pen.paths, shader) s.clips ↔
      ∀ inner outer, s.clips = inner :: outer → ∀ clip ∈ outer, inner ⊆ clip := by
    rw [hclips]
    cases hcons : s.pen.paths with
    | nil => simp [Inside]
    | cons path paths => simp [Inside, and_imp]
  have hunclipped : Unclipped { s with
      pen := { s.pen with fills := s.pen.fills ++ [(s.pen.paths, shader)] }
      filled := s.filled ++ [s.clips] } ↔ s.Unclipped ∨ s.pen.paths = [] := by
    simp [Unclipped, or_and_right, exists_or]
  constructor
  · intro h'
    have hlast := List.forall₂_drop_append _ _ _ h'.fills
    rw [← hfills.length_eq, List.drop_left, List.forall₂_cons] at hlast
    have hbounds := finish_ne_none_iff.mp h'.finish
    exact ⟨fun hnone => hbounds (hunclipped.mpr (.inr (hempty.mp hnone))), hinside.mp hlast.1⟩
  · rintro ⟨hbounds, hnested⟩
    refine ⟨hpaths, List.rel_append hfills (.cons (hinside.mpr hnested) .nil), ?_⟩
    refine finish_ne_none_iff.mpr fun h' => ?_
    obtain hbefore | hnone := hunclipped.mp h'
    · exact finish_ne_none_iff (s := s).mp hfinish hbefore
    · exact hbounds (hempty.mpr hnone)

theorem Clipped.step_iff (h : s.Clipped) (hstacked : s.Stacked) {a : PaintCall lib}
    (hstep : s.step a = some s') : s'.Clipped ↔ s.Nested a := by
  cases a with
  | pushTransform transform =>
    cases hstep
    exact iff_of_true ⟨h.paths, h.fills, h.finish⟩ trivial
  | popTransform =>
    simp only [PaintRun.step] at hstep
    split_ifs at hstep
    cases hstep
    exact iff_of_true ⟨h.paths, h.fills, h.finish⟩ trivial
  | pushClip clip => exact h.pushClip_iff hstep
  | popClip =>
    simp only [PaintRun.step] at hstep
    split_ifs at hstep
    cases hstep
    refine iff_of_true ⟨?_, h.fills, h.finish⟩ trivial
    simp only [ColorGlyphPen.popClip, List.length_tail, h.paths]
  | fill brush => exact h.fill_iff hstacked hstep

theorem clipped_new : (new : PaintRun lib).Clipped :=
  ⟨rfl, .nil, finish_ne_none_iff.mpr nofun⟩

/-- Everything is clipped exactly if all clips have outlines and are nested. -/
theorem clipped_iff_nested (lib : PenLibrary) (calls : List (PaintCall lib)) :
    AllStates step Clipped (new : PaintRun lib) calls ↔ AllSteps step Nested new calls :=
  allStates_iff_allSteps Stacked (fun _ _ _ h hstep => h.step hstep)
    (fun _ _ _ hstacked h hstep => h.step_iff hstacked hstep) stacked_new clipped_new calls

/-- The least box around two boxes. -/
def joinBoxes (a b : ClipBox ℤ) : ClipBox ℤ :=
  ⟨min a.xMin b.xMin, min a.yMin b.yMin, max a.xMax b.xMax, max a.yMax b.yMax⟩

/-- The box around the corners of a path. -/
def boxAround : List (PathVerb ℤ) → Option (ClipBox ℤ)
  | .moveTo x y :: verbs | .lineTo x y :: verbs =>
    some ((boxAround verbs).elim ⟨x, y, x, y⟩ (joinBoxes ⟨x, y, x, y⟩))
  | _ => none

/-- A font without glyphs, with boxes whose sides are integers for paths. A transform scales them
vertically, and all brushes are the same. -/
def noGlyphs : PenLibrary where
  Scalar := ℤ
  GlyphId := ℕ
  Brush := Unit
  FontTransform := ℤ
  Transform := ℤ
  Path := ClipBox ℤ
  Rect := ClipBox ℤ
  Shader := Unit
  Pixmap := List (ClipBox ℤ)
  Offset := ℤ × ℤ
  Pixel := ℤ × ℤ
  outline _ := none
  identity := 1
  fromRow scale := scale
  preConcat scale scale' := scale * scale'
  flip scale := -scale
  finish := boxAround
  transform path scale := some ⟨path.xMin, min (scale * path.yMin) (scale * path.yMax),
    path.xMax, max (scale * path.yMin) (scale * path.yMax)⟩
  bounds path := path
  emptyRect := ⟨0, 0, 0, 0⟩
  join a b := some (joinBoxes a b)
  shader _ _ := some ()
  pixmap bounds := if bounds.xMin < bounds.xMax ∧ bounds.yMin < bounds.yMax then some [] else none
  fillPath pixmap _ path _ := path :: pixmap
  offset bounds := (bounds.xMin, bounds.yMin)
  area path := {pixel | path.xMin ≤ pixel.1 ∧ pixel.1 < path.xMax ∧
    path.yMin ≤ pixel.2 ∧ pixel.2 < path.yMax}

/-- A clip to a box, and within it one to a glyph that is not there. -/
def missingGlyph : List (PaintCall noGlyphs) :=
  let square : ClipBox ℤ := ⟨0, 0, 4, 4⟩
  [.pushClip (.box square), .pushClip (.glyph (7 : ℕ)), .popClip, .fill (), .popClip]

/-- A clip to a glyph that is not there takes the box around it with it, and `finish` panics. -/
theorem not_clipped_missingGlyph : ¬∀ (lib : PenLibrary) (calls : List (PaintCall lib)),
    AllStates step Clipped (new : PaintRun lib) calls := by
  intro h
  have hcalls := h noGlyphs missingGlyph
  have hlast := ((((hcalls.2 _ rfl).2 _ rfl).2 _ rfl).2 _ rfl).2 _ rfl
  exact hlast.finish rfl

end PaintRun

end Lucie
