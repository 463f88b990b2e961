import Lucie.Text.Shaping

/-!
# Measuring a text element

The measure closure of a text element keeps its layout over the calls. It answers from the
layout as it is if that has lines and the call either has no wrap width or that of the layout;
else it shapes the layout for the call. A call without a wrap width may therefore get the size
of the text at an earlier width.
-/

set_option autoImplicit false

namespace Lucie

open Foundation

/-- `WhiteSpace`. -/
inductive WhiteSpace
  | normal
  | nowrap
  deriving DecidableEq

/-- `TextOverflow`, with its affix. -/
inductive TextOverflow
  | truncate (affix : String)
  | truncateStart (affix : String)
  deriving DecidableEq

/-- The affix of a truncation and its side. -/
def TextOverflow.parts : TextOverflow → String × TruncateFrom
  | .truncate affix => (affix, .fromEnd)
  | .truncateStart affix => (affix, .fromStart)

/-- `TextAlign`. -/
inductive TextAlign
  | left
  | center
  | right
  deriving DecidableEq

/-- `AvailableSpace`. -/
inductive AvailableSpace (U : Type)
  | definite (size : U)
  | minContent
  | maxContent
  deriving DecidableEq

/-- `TextStyle`; `base` is what else there is in it. -/
structure TextStyle (Style : Type) where
  whiteSpace : WhiteSpace
  lineClamp : Option ℕ+
  textOverflow : Option TextOverflow
  textAlign : TextAlign
  base : Style
  deriving DecidableEq

/-- The arguments of a measure call. -/
structure Probe (U : Type) where
  knownDimensions : Size (Option U)
  availableSpace : Size (AvailableSpace U)

/-- What the measure closure captures; `source` is the text with its runs and the font size of
its style, and `fontSize` is that size in pixels. -/
structure TextElement (U Source Style : Type) where
  source : Source
  style : TextStyle Style
  fontSize : U
  scaleFactor : U

/-- A layout in scaled pixels; `aligned` tells how its lines are aligned. -/
structure AlignedLayout (U Lines Affix : Type) where
  layout : Layout U Lines Affix
  alignment : Option TextAlign
  aligned : Option TextAlign

variable {U Lines Breaker Affix Style Source : Type} [Field U] [LinearOrder U]

/-- `ShapeMode::max_width`. -/
def ShapeMode.maxWidth : ShapeMode U → Option U
  | .fit wrapWidth => wrapWidth
  | .truncate maxWidth _ _ => some maxWidth

/-- `Layout::max_width`. -/
def Layout.maxWidth (l : Layout U Lines Affix) : Option U := l.shapeMode.bind ShapeMode.maxWidth

/-- The mode that a shaping call asks for. -/
def ShapingCall.mode : ShapingCall U Style → ShapeMode U
  | .fit maxWidth => .fit maxWidth
  | .truncate _ maxWidth lineClamp _ truncateFrom => .truncate maxWidth lineClamp truncateFrom

namespace Probe

/-- The width that is known, or else the one that is available. -/
def width (p : Probe U) : Option U :=
  p.knownDimensions.width.or
    (match p.availableSpace.width with
    | .definite x => some x
    | _ => none)

/-- A call with some available width. -/
def definite (width : U) : Probe U := ⟨⟨none, none⟩, ⟨.definite width, .maxContent⟩⟩

/-- A call for the largest width. -/
def maxContent : Probe U := ⟨⟨none, none⟩, ⟨.maxContent, .maxContent⟩⟩

end Probe

namespace TextElement

/-- The width at which the text wraps. -/
def wrapWidth (e : TextElement U Source Style) (p : Probe U) : Option U :=
  if e.style.whiteSpace = .normal then p.width else none

/-- The shaping call for a measure call; `maxValue` is `f32::MAX`. -/
def call (maxValue : U) (e : TextElement U Source Style) (p : Probe U) : ShapingCall U Style :=
  match e.style.textOverflow with
  | some overflow =>
    .truncate e.style.base ((p.width.map (· * e.scaleFactor)).getD maxValue) e.style.lineClamp
      overflow.parts.1 overflow.parts.2
  | none => .fit ((e.wrapWidth p).map (· * e.scaleFactor))

end TextElement

namespace AlignedLayout

/-- A layout as it is built. -/
def built (engine : TextEngine U Lines Breaker Affix Style) : AlignedLayout U Lines Affix :=
  ⟨.fresh engine, none, none⟩

/-- `Layout::align`; `none` is a panic. -/
def align (l : AlignedLayout U Lines Affix) (alignment : Option TextAlign) :
    Option (AlignedLayout U Lines Affix) :=
  if l.layout.shapeMode.isNone then none
  else if alignment ≠ l.alignment ∨ l.layout.needsRealign then
    some { l with
      layout := { l.layout with needsRealign := false }
      aligned := some (alignment.getD .left) }
  else some l

/-- The size of the layout in pixels. -/
def size (l : AlignedLayout U Lines Affix) (engine : TextEngine U Lines Breaker Affix Style)
    (scaleFactor : U) : Size U :=
  ⟨(l.layout.size engine).width / scaleFactor, (l.layout.size engine).height / scaleFactor⟩

/-- The measure call is answered without shaping. -/
def returnsEarly (engine : TextEngine U Lines Breaker Affix Style)
    (e : TextElement U Source Style) (l : AlignedLayout U Lines Affix) (p : Probe U) : Bool :=
  l.layout.numLines engine > 0 ∧
    (e.wrapWidth p = none ∨ (e.wrapWidth p).map (· * e.scaleFactor) = l.layout.maxWidth)

/-- The measure closure of `TextLayout::layout`, with the layout that it leaves; `none` is a
panic. -/
def measure (engine : TextEngine U Lines Breaker Affix Style) (maxValue : U)
    (e : TextElement U Source Style) (l : AlignedLayout U Lines Affix) (p : Probe U) :
    Option (Size U × AlignedLayout U Lines Affix) :=
  if l.returnsEarly engine e p then some (l.size engine e.scaleFactor, l)
  else do
    let l ← { l with layout := l.layout.apply engine (e.call maxValue p) }.align
      (some e.style.textAlign)
    some (l.size engine e.scaleFactor, l)

end AlignedLayout

namespace TextElement

omit [LinearOrder U] in
theorem call_of_none {maxValue : U} {e : TextElement U Source Style}
    (h : e.style.textOverflow = none) (p : Probe U) :
    e.call maxValue p = .fit ((e.wrapWidth p).map (· * e.scaleFactor)) := by
  simp [call, h]

omit [LinearOrder U] in
theorem call_of_some {maxValue : U} {e : TextElement U Source Style} {overflow : TextOverflow}
    (h : e.style.textOverflow = some overflow) (p : Probe U) :
    e.call maxValue p =
      .truncate e.style.base ((p.width.map (· * e.scaleFactor)).getD maxValue) e.style.lineClamp
        overflow.parts.1 overflow.parts.2 := by
  simp [call, h]

omit [LinearOrder U] in
/-- The mode of its shaping call tells what a measure call asks for. -/
theorem call_eq_of_mode {maxValue : U} {e : TextElement U Source Style} {p p' : Probe U}
    (h : (e.call maxValue p).mode = (e.call maxValue p').mode) :
    e.call maxValue p = e.call maxValue p' := by
  cases hoverflow : e.style.textOverflow with
  | none =>
    rw [call_of_none hoverflow, call_of_none hoverflow] at h ⊢
    simpa [ShapingCall.mode] using h
  | some overflow =>
    rw [call_of_some hoverflow, call_of_some hoverflow] at h ⊢
    simpa [ShapingCall.mode] using h

/-- The layout is what some measure call of the element makes of a new one. -/
structure Made (engine : TextEngine U Lines Breaker Affix Style) (maxValue : U)
    (e : TextElement U Source Style) (l : AlignedLayout U Lines Affix) : Prop where
  kept : l.layout.Kept engine
  alignment : l.alignment = none
  shaped : ∀ mode, l.layout.shapeMode = some mode → ∃ p, (e.call maxValue p).mode = mode ∧
    Layout.SameResult engine l.layout ((Layout.fresh engine).apply engine (e.call maxValue p))

variable {engine : TextEngine U Lines Breaker Affix Style} {maxValue : U}
  {e : TextElement U Source Style} {l : AlignedLayout U Lines Affix}

theorem made_built : Made engine maxValue e (.built engine) := by
  refine ⟨Layout.kept_fresh engine, rfl, ?_⟩
  intro mode hmode
  cases hmode

/-- The calls of an element are for one style, so that its layout accepts them all. -/
theorem Made.accepts (h : Made engine maxValue e l) (p : Probe U) :
    l.layout.Accepts engine (e.call maxValue p) := by
  intro t ht
  obtain ⟨style, maxWidth, lineClamp, affix, side, hmode, hoverflows, rfl⟩ :=
    h.kept.truncation ht
  obtain ⟨p', hcall, hsame⟩ := h.shaped _ hmode
  have htruncation := hsame.truncation
  rw [ht] at htruncation
  cases hoverflow : e.style.textOverflow with
  | none =>
    rw [call_of_none hoverflow] at hcall
    cases hcall
  | some overflow =>
    -- the call that made the layout truncated the text too, with the same side and affix
    rw [call_of_some hoverflow] at hcall htruncation
    cases hcall
    rw [Layout.apply, (Layout.fresh_truncate engine ..).2.1 hoverflows, Option.some.injEq,
      Truncation.fresh, Truncation.around_eq_fresh] at htruncation
    obtain ⟨-, rfl, haffix⟩ := htruncation
    rw [call_of_some hoverflow]
    dsimp only
    split_ifs
    · exact ⟨rfl, rfl, haffix⟩
    · intro _
      exact (if_pos rfl).trans haffix

/-- A shaping call leaves its mode in the layout. -/
theorem Made.shapeMode_apply (h : Made engine maxValue e l) (p : Probe U) :
    (l.layout.apply engine (e.call maxValue p)).shapeMode = some (e.call maxValue p).mode := by
  cases hoverflow : e.style.textOverflow with
  | none =>
    rw [call_of_none hoverflow]
    simp only [Layout.apply, Layout.fit, ShapingCall.mode]
    split
    · assumption
    · split
      · split_ifs <;> rfl
      · rfl
  | some overflow =>
    have hcall := @call_of_some U Style Source _ maxValue e overflow hoverflow
    rw [hcall]
    cases hbounds : l.layout.sameBounds _ e.style.lineClamp with
    | false =>
      rw [Layout.apply, Layout.truncate_of_not_sameBounds engine hbounds]
      rfl
    | true =>
      obtain ⟨needsRealign, htruncate⟩ := Layout.truncate_of_sameBounds engine hbounds
        e.style.base overflow.parts.1 overflow.parts.2
      obtain ⟨side, hmode⟩ := Layout.sameBounds_iff.mp hbounds
      obtain ⟨p', hp', -⟩ := h.shaped _ hmode
      simp only [hcall, ShapingCall.mode, ShapeMode.truncate.injEq] at hp'
      obtain ⟨-, -, rfl⟩ := hp'
      rw [Layout.apply, htruncate]
      exact hmode

/-- What a measure call returns and leaves. -/
structure Measured (engine : TextEngine U Lines Breaker Affix Style) (maxValue : U)
    (e : TextElement U Source Style) (l : AlignedLayout U Lines Affix) (p : Probe U)
    (size : Size U) (l' : AlignedLayout U Lines Affix) : Prop where
  made : Made engine maxValue e l'
  size : size = l'.size engine e.scaleFactor
  early : l.returnsEarly engine e p = true → l' = l
  shaped : l.returnsEarly engine e p = false →
    l'.layout.shapeMode = some (e.call maxValue p).mode ∧
      l'.aligned = some e.style.textAlign ∧
      Layout.SameResult engine l'.layout ((Layout.fresh engine).apply engine (e.call maxValue p))

/-- A measure call never panics. -/
theorem Made.measure (hone : engine.OneLine) (h : Made engine maxValue e l) (p : Probe U) :
    ∃ size l', l.measure engine maxValue e p = some (size, l') ∧
      Measured engine maxValue e l p size l' := by
  unfold AlignedLayout.measure
  by_cases hearly : l.returnsEarly engine e p = true
  · rw [if_pos hearly]
    refine ⟨_, _, rfl, h, rfl, fun _ => rfl, ?_⟩
    intro hnot
    rw [hearly] at hnot
    cases hnot
  · have hmode := h.shapeMode_apply p
    have hsame := (h.kept.sameResult_iff hone (e.call maxValue p)).mpr (h.accepts p)
    have hkept := h.kept.apply hone (h.accepts p)
    have hpanic : ¬(l.layout.apply engine (e.call maxValue p)).shapeMode.isNone = true := by
      rw [hmode]
      simp
    have halign : some e.style.textAlign ≠ l.alignment := by
      rw [h.alignment]
      simp
    rw [if_neg hearly]
    simp only [AlignedLayout.align, if_neg hpanic, if_pos (Or.inl halign), Option.bind_eq_bind,
      Option.bind_some]
    refine ⟨_, _, rfl, ?_, rfl, fun hearly' => absurd hearly' hearly, ?_⟩
    · refine ⟨⟨hkept.remSize, hkept.unshaped, hkept.fit, hkept.truncate⟩, h.alignment, ?_⟩
      intro mode hmode'
      exact ⟨p, Option.some.inj (hmode.symm.trans hmode'), hsame.lines, hsame.truncation,
        hsame.size⟩
    · intro _
      exact ⟨hmode, rfl, hsame.lines, hsame.truncation, hsame.size⟩

/-- The call is shaped, or the layout has last been shaped in the mode that the call asks for. -/
def UpToDate (engine : TextEngine U Lines Breaker Affix Style) (maxValue : U)
    (e : TextElement U Source Style) (l : AlignedLayout U Lines Affix) (p : Probe U) : Prop :=
  l.returnsEarly engine e p = true → l.layout.shapeMode = some (e.call maxValue p).mode

/-- If the layout is up to date for a call, the call leaves what it makes of a new layout. -/
theorem Measured.sameResult (h : Made engine maxValue e l) {p : Probe U} {size : Size U}
    {l' : AlignedLayout U Lines Affix} (hmeasured : Measured engine maxValue e l p size l')
    (hdate : UpToDate engine maxValue e l p) :
    Layout.SameResult engine l'.layout
      ((Layout.fresh engine).apply engine (e.call maxValue p)) := by
  by_cases hearly : l.returnsEarly engine e p = true
  · obtain ⟨p', hmode, hsame⟩ := h.shaped _ (hdate hearly)
    rw [hmeasured.early hearly, ← call_eq_of_mode hmode]
    exact hsame
  · exact (hmeasured.shaped (Bool.not_eq_true _ ▸ hearly)).2.2

/-- A new layout is shaped by its first call. -/
theorem upToDate_built (hunbroken : engine.numLines engine.unbroken = 0) (p : Probe U) :
    UpToDate engine maxValue e (.built engine) p := by
  intro hearly
  simp [AlignedLayout.returnsEarly, AlignedLayout.built, Layout.numLines, Layout.fresh,
    hunbroken] at hearly

/-- One measure call of a run. -/
def measureStep (engine : TextEngine U Lines Breaker Affix Style) (maxValue : U)
    (e : TextElement U Source Style) (l : AlignedLayout U Lines Affix) (p : Probe U) :
    Option (AlignedLayout U Lines Affix) :=
  (l.measure engine maxValue e p).map Prod.snd

/-- After any run of measure calls, a call for which the layout is up to date returns what it
returns on a new layout. Any other call returns the size that the layout has. -/
theorem measure_of_run (hone : engine.OneLine) (hunbroken : engine.numLines engine.unbroken = 0)
    {probes : List (Probe U)}
    (run : Run (measureStep engine maxValue e) (fun _ _ => True) (.built engine) probes l)
    (p : Probe U) :
    (UpToDate engine maxValue e l p → (l.measure engine maxValue e p).map Prod.fst =
      ((AlignedLayout.built engine).measure engine maxValue e p).map Prod.fst) ∧
    (¬UpToDate engine maxValue e l p → (l.measure engine maxValue e p).map Prod.fst =
      some (l.size engine e.scaleFactor)) := by
  have hmade : Made engine maxValue e l := by
    refine run.invariant (fun _ l => Made engine maxValue e l) made_built ?_
    intro _ l p l' h _ hstep
    obtain ⟨size, next, hmeasure, hmeasured⟩ := h.measure hone p
    rw [measureStep, hmeasure] at hstep
    obtain rfl := Option.some.inj hstep
    exact hmeasured.made
  obtain ⟨size, l', hmeasure, hmeasured⟩ := hmade.measure hone p
  rw [hmeasure]
  constructor
  · intro hdate
    obtain ⟨size₀, l₀, hmeasure₀, hmeasured₀⟩ := (@made_built U Lines Breaker Affix Style Source
      _ _ engine maxValue e).measure hone p
    have hsame := hmeasured.sameResult hmade hdate
    have hsame₀ := hmeasured₀.sameResult made_built (upToDate_built hunbroken p)
    rw [hmeasure₀, Option.map_some, Option.map_some, hmeasured.size, hmeasured₀.size,
      AlignedLayout.size, AlignedLayout.size, hsame.size, hsame₀.size]
  · intro hdate
    have hearly : l.returnsEarly engine e p = true := by
      by_contra hnot
      exact hdate fun hearly => absurd hearly hnot
    rw [Option.map_some, hmeasured.size, hmeasured.early hearly]

/-- The engine around a text of two words, each of them six pixels wide. -/
def twoWords : TextEngine ℚ (List (List ℚ)) Bool ℚ Unit where
  unbroken := []
  remSize := 16
  scale := 1
  breakAllLines maxWidth := if Layout.widens 12 maxWidth then [[6, 6]] else [[6], [6]]
  breakLines _ := false
  breakNext maxWidth broken := if broken ∨ 12 ≤ maxWidth then none else some true
  breakRemaining broken := if broken then [[6], [6]] else [[6, 6]]
  numLines := List.length
  width lines := (lines.map List.sum).foldr max 0
  height lines := 20 * lines.length
  items lines line := lines[line]?
  floor x := ⌊x⌋
  emptyAffix := 0
  shape _ affix _ _ := 3 * affix.length
  affixWidth := id

theorem oneLine_twoWords : twoWords.OneLine := by
  intro wrapWidth maxWidth hlines hwidens
  have hfits : Layout.widens 12 (some wrapWidth) = true := by
    by_contra hnot
    simp [twoWords, hnot] at hlines
  have hfits' : Layout.widens 12 maxWidth = true := by
    cases maxWidth with
    | none => rfl
    | some maxWidth =>
      simp only [Layout.widens, decide_eq_true_eq] at hfits hwidens ⊢
      exact hfits.trans hwidens
  simp only [twoWords, if_pos hfits, if_pos hfits']

/-- An element around `twoWords`, with or without wrapping. -/
def twoWordsElement (whiteSpace : WhiteSpace) (textAlign : TextAlign) : TextElement ℚ Unit Unit :=
  ⟨(), ⟨whiteSpace, none, none, textAlign, ()⟩, 16, 1⟩

/-- The text at a width that it had before. -/
theorem measure_twoWords : ∃ l, Run (measureStep twoWords 1000 (twoWordsElement .normal .left))
      (fun _ _ => True) (.built twoWords) [.definite 8, .definite 20] l ∧
    (l.measure twoWords 1000 (twoWordsElement .normal .left) (.definite 8)).map Prod.fst =
      some ⟨6, 40⟩ := by
  have hrun : (execute (measureStep twoWords 1000 (twoWordsElement .normal .left))
      (fun _ _ => True) (.built twoWords) [.definite 8, .definite 20]).any fun l =>
        !l.returnsEarly twoWords (twoWordsElement .normal .left) (.definite 8) := by
    decide +kernel
  obtain ⟨l, hl, hearly⟩ := (Option.any_eq_true _ _).mp hrun
  have run := Run.of_execute hl
  refine ⟨l, run, ?_⟩
  rw [(measure_of_run oneLine_twoWords rfl run (.definite 8)).1]
  · decide +kernel
  · intro hearly'
    rw [hearly'] at hearly
    cases hearly

/-- After a narrow width, a call for the largest width gets the size at the narrow one. -/
theorem not_measure_twoWords : ∃ l,
    Run (measureStep twoWords 1000 (twoWordsElement .normal .left)) (fun _ _ => True)
      (.built twoWords) [.definite 8] l ∧
    (l.measure twoWords 1000 (twoWordsElement .normal .left) .maxContent).map Prod.fst ≠
      ((AlignedLayout.built twoWords).measure twoWords 1000 (twoWordsElement .normal .left)
        .maxContent).map Prod.fst := by
  have hrun : (execute (measureStep twoWords 1000 (twoWordsElement .normal .left))
      (fun _ _ => True) (.built twoWords) [.definite 8]).any fun l =>
        (l.measure twoWords 1000 (twoWordsElement .normal .left) .maxContent).map Prod.fst ≠
          ((AlignedLayout.built twoWords).measure twoWords 1000 (twoWordsElement .normal .left)
            .maxContent).map Prod.fst := by
    decide +kernel
  obtain ⟨l, hl, hne⟩ := (Option.any_eq_true _ _).mp hrun
  exact ⟨l, .of_execute hl, of_decide_eq_true hne⟩

end TextElement

end Lucie
