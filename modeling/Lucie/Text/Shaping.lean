import Lucie.Text.Layout
import Lucie.Foundation.Run

/-!
# Shaping calls after each other

A layout remembers its last shaping call. A run of calls gives what its last call gives on
a fresh layout, as long as no call meets a truncation that it neither clears nor renews.
-/

set_option autoImplicit false

namespace Lucie

open Foundation

variable {U Lines Breaker Affix Style : Type} [AddCommGroup U] [LinearOrder U]

/-- Text on one line within a bound is on the same line within any larger bound. -/
def TextEngine.OneLine (engine : TextEngine U Lines Breaker Affix Style) : Prop :=
  ∀ wrapWidth maxWidth, engine.numLines (engine.breakAllLines (some wrapWidth)) = 1 →
    Layout.widens wrapWidth maxWidth = true →
      engine.breakAllLines maxWidth = engine.breakAllLines (some wrapWidth)

namespace Layout

/-- Two layouts have the same lines, truncation state and size. -/
structure SameResult (engine : TextEngine U Lines Breaker Affix Style)
    (l l' : Layout U Lines Affix) : Prop where
  lines : l.layout = l'.layout
  truncation : l.truncation = l'.truncation
  size : l.size engine = l'.size engine

omit [AddCommGroup U] [LinearOrder U] in
theorem SameResult.of_eq {engine : TextEngine U Lines Breaker Affix Style}
    {l l' : Layout U Lines Affix} (hlines : l.layout = l'.layout)
    (htruncation : l.truncation = l'.truncation) : SameResult engine l l' :=
  ⟨hlines, htruncation, by simp only [Layout.size, hlines]⟩

/-- The affix layout of a new truncation. -/
def freshAffix (engine : TextEngine U Lines Breaker Affix Style) (style : Style)
    (affix : String) : Affix :=
  if affix = "" ∧ engine.remSize = 0 ∧ engine.scale = 0 then engine.emptyAffix
  else engine.shape style affix engine.remSize engine.scale

/-- The affix layout that a truncation has for a call: the one it holds if that is for the
same affix. -/
def keptAffix (engine : TextEngine U Lines Breaker Affix Style) (t : Truncation U Affix)
    (style : Style) (affix : String) : Affix :=
  if affix = t.affix then t.layout else engine.shape style affix engine.remSize engine.scale

/-- The text does not fit into the clamped lines. -/
def Overflows (engine : TextEngine U Lines Breaker Affix Style) (maxWidth : U)
    (lineClamp : Option ℕ+) : Prop :=
  maxWidth < engine.width (truncatedLines engine maxWidth lineClamp)

/-- The last shaping call truncated the text to the same width and number of lines. -/
def sameBounds (l : Layout U Lines Affix) (maxWidth : U) (lineClamp : Option ℕ+) : Bool :=
  match l.shapeMode with
  | some (.truncate oldMaxWidth oldLineClamp _) =>
    maxWidth = oldMaxWidth ∧ lineClamp = oldLineClamp
  | _ => false

/-- A layout without a truncation takes any call, and one with a truncation no `fit`. A
`truncate` to the same bounds must also be for the same side and affix, and the affix layout
that is held the one in the style of the call. To other bounds, this is asked of a held
layout of the same affix, and only if the text overflows. -/
def Accepts (engine : TextEngine U Lines Breaker Affix Style) (l : Layout U Lines Affix)
    (call : ShapingCall U Style) : Prop :=
  ∀ t, l.truncation = some t →
    match call with
    | .fit _ => False
    | .truncate style maxWidth lineClamp affix truncateFrom =>
      if l.sameBounds maxWidth lineClamp then
        t.truncateFrom = truncateFrom ∧ t.affix = affix ∧ t.layout = freshAffix engine style affix
      else Overflows engine maxWidth lineClamp →
        keptAffix engine t style affix = freshAffix engine style affix

end Layout

namespace Truncation

/-- A truncation for the text size of the layout. -/
def Sized (engine : TextEngine U Lines Breaker Affix Style) (t : Truncation U Affix) : Prop :=
  t.remSize = engine.remSize ∧ t.scale = engine.scale

/-- The truncation of a call around an affix layout. -/
def around (engine : TextEngine U Lines Breaker Affix Style) (maxWidth : U)
    (lineClamp : Option ℕ+) (affix : String) (truncateFrom : TruncateFrom) (layout : Affix) :
    Truncation U Affix :=
  let line := clampedLines lineClamp - 1
  let placed := place engine (engine.affixWidth layout) maxWidth truncateFrom
    (engine.items (Layout.truncatedLines engine maxWidth lineClamp) line)
  ⟨affix, line, placed.1, truncateFrom, placed.2, engine.remSize, engine.scale, layout⟩

/-- The truncation that a call makes anew. -/
def fresh (engine : TextEngine U Lines Breaker Affix Style) (style : Style) (maxWidth : U)
    (lineClamp : Option ℕ+) (affix : String) (truncateFrom : TruncateFrom) :
    Truncation U Affix :=
  around engine maxWidth lineClamp affix truncateFrom (Layout.freshAffix engine style affix)

theorem update_default (engine : TextEngine U Lines Breaker Affix Style) (style : Style)
    (maxWidth : U) (lineClamp : Option ℕ+) (affix : String) (truncateFrom : TruncateFrom) :
    (default engine).update engine style lineClamp maxWidth affix truncateFrom engine.remSize
      engine.scale (Layout.truncatedLines engine maxWidth lineClamp) =
        fresh engine style maxWidth lineClamp affix truncateFrom := by
  unfold update fresh Layout.freshAffix
  by_cases hempty : affix = "" ∧ engine.remSize = 0 ∧ engine.scale = 0
  · obtain ⟨rfl, hremSize, hscale⟩ := hempty
    simp [default, around, hremSize, hscale]
  · have hchanged : affix ≠ (default engine).affix ∨ (default engine).remSize ≠ engine.remSize ∨
        (default engine).scale ≠ engine.scale := by
      by_contra hsame
      simp only [not_or, not_not] at hsame
      exact hempty ⟨hsame.1, hsame.2.1.symm, hsame.2.2.symm⟩
    rw [if_pos hchanged, if_neg hempty]
    rfl

theorem update_of_sized {engine : TextEngine U Lines Breaker Affix Style}
    {t : Truncation U Affix} (ht : t.Sized engine) (style : Style) (maxWidth : U)
    (lineClamp : Option ℕ+) (affix : String) (truncateFrom : TruncateFrom) :
    t.update engine style lineClamp maxWidth affix truncateFrom engine.remSize engine.scale
        (Layout.truncatedLines engine maxWidth lineClamp) =
      around engine maxWidth lineClamp affix truncateFrom
        (Layout.keptAffix engine t style affix) := by
  obtain ⟨hremSize, hscale⟩ := ht
  unfold update Layout.keptAffix
  by_cases haffix : affix = t.affix
  · subst haffix
    simp [around, hremSize, hscale]
  · rw [if_pos (Or.inl haffix), if_neg haffix]
    rfl

theorem around_eq_fresh {engine : TextEngine U Lines Breaker Affix Style} {style : Style}
    {maxWidth : U} {lineClamp : Option ℕ+} {affix affix' : String}
    {truncateFrom truncateFrom' : TruncateFrom} {layout : Affix} :
    around engine maxWidth lineClamp affix truncateFrom layout =
        fresh engine style maxWidth lineClamp affix' truncateFrom' ↔
      truncateFrom = truncateFrom' ∧ affix = affix' ∧
        layout = Layout.freshAffix engine style affix' := by
  constructor
  · intro h
    exact ⟨congrArg Truncation.truncateFrom h, congrArg Truncation.affix h,
      congrArg Truncation.layout h⟩
  · rintro ⟨rfl, rfl, rfl⟩
    rfl

end Truncation

namespace Layout

/-- What the last shaping call left in the layout. -/
structure Kept (engine : TextEngine U Lines Breaker Affix Style) (l : Layout U Lines Affix) :
    Prop where
  remSize : l.remSize = engine.remSize
  unshaped : l.shapeMode = none → l.truncation = none
  fit : ∀ wrapWidth, l.shapeMode = some (.fit wrapWidth) →
    l.layout = engine.breakAllLines wrapWidth ∧ l.truncation = none
  truncate : ∀ maxWidth lineClamp side, l.shapeMode = some (.truncate maxWidth lineClamp side) →
    l.layout = truncatedLines engine maxWidth lineClamp ∧
      (Overflows engine maxWidth lineClamp → ∃ style affix,
        l.truncation = some (.fresh engine style maxWidth lineClamp affix side)) ∧
      (¬Overflows engine maxWidth lineClamp → l.truncation = none)

theorem kept_fresh (engine : TextEngine U Lines Breaker Affix Style) : Kept engine (fresh engine) :=
  ⟨rfl, fun _ => rfl, by simp [fresh], by simp [fresh]⟩

theorem kept_of_fit {engine : TextEngine U Lines Breaker Affix Style} {l : Layout U Lines Affix}
    {wrapWidth : Option U} (hremSize : l.remSize = engine.remSize)
    (hmode : l.shapeMode = some (.fit wrapWidth))
    (hlines : l.layout = engine.breakAllLines wrapWidth) (htruncation : l.truncation = none) :
    Kept engine l := by
  refine ⟨hremSize, fun _ => htruncation, ?_, by simp [hmode]⟩
  intro wrapWidth' h
  rw [hmode, Option.some.injEq, ShapeMode.fit.injEq] at h
  exact ⟨h ▸ hlines, htruncation⟩

/-- What `fit` does to a layout without a truncation. -/
theorem fit_spec {engine : TextEngine U Lines Breaker Affix Style} (hone : engine.OneLine)
    {l : Layout U Lines Affix} (h : Kept engine l) (maxWidth : Option U) :
    (l.fit engine maxWidth).layout = engine.breakAllLines maxWidth ∧
      (l.fit engine maxWidth).truncation = l.truncation ∧
      (l.truncation = none → Kept engine (l.fit engine maxWidth)) := by
  have hbroken : ∀ l' : Layout U Lines Affix, l'.remSize = l.remSize →
      l'.shapeMode = some (.fit maxWidth) → l'.layout = engine.breakAllLines maxWidth →
      l'.truncation = l.truncation → l'.layout = engine.breakAllLines maxWidth ∧
        l'.truncation = l.truncation ∧ (l.truncation = none → Kept engine l') := by
    intro l' hremSize hmode hlines htruncation
    refine ⟨hlines, htruncation, ?_⟩
    intro hnone
    exact kept_of_fit (hremSize.trans h.remSize) hmode hlines (htruncation.trans hnone)
  unfold Layout.fit
  by_cases hsame : l.shapeMode = some (.fit maxWidth)
  · rw [if_pos hsame]
    exact ⟨(h.fit maxWidth hsame).1, rfl, fun _ => h⟩
  · rw [if_neg hsame]
    dsimp only
    split
    · rename_i wrapWidth hmode
      split_ifs with hwider
      · obtain ⟨hlines, _⟩ := h.fit _ hmode
        apply hbroken
        · rfl
        · rfl
        · rw [numLines, hlines] at hwider
          exact hlines.trans (hone wrapWidth maxWidth hwider.1 hwider.2).symm
        · rfl
      · exact hbroken _ rfl rfl rfl rfl
    · exact hbroken _ rfl rfl rfl rfl

/-- The truncation after a call that breaks the text anew. -/
def retruncated (engine : TextEngine U Lines Breaker Affix Style) (l : Layout U Lines Affix)
    (style : Style) (maxWidth : U) (lineClamp : Option ℕ+) (affix : String)
    (truncateFrom : TruncateFrom) : Option (Truncation U Affix) :=
  if maxWidth < engine.width (truncatedLines engine maxWidth lineClamp) then
    some ((l.truncation.getD (.default engine)).update engine style lineClamp maxWidth affix
      truncateFrom l.remSize engine.scale (truncatedLines engine maxWidth lineClamp))
  else none

theorem retruncated_of_overflows {engine : TextEngine U Lines Breaker Affix Style}
    (l : Layout U Lines Affix) (style : Style) {maxWidth : U} {lineClamp : Option ℕ+}
    (h : Overflows engine maxWidth lineClamp) (affix : String) (truncateFrom : TruncateFrom) :
    l.retruncated engine style maxWidth lineClamp affix truncateFrom =
      some ((l.truncation.getD (.default engine)).update engine style lineClamp maxWidth affix
        truncateFrom l.remSize engine.scale (truncatedLines engine maxWidth lineClamp)) :=
  if_pos h

theorem retruncated_of_not_overflows {engine : TextEngine U Lines Breaker Affix Style}
    (l : Layout U Lines Affix) (style : Style) {maxWidth : U} {lineClamp : Option ℕ+}
    (h : ¬Overflows engine maxWidth lineClamp) (affix : String) (truncateFrom : TruncateFrom) :
    l.retruncated engine style maxWidth lineClamp affix truncateFrom = none :=
  if_neg h

omit [AddCommGroup U] in
theorem sameBounds_iff {l : Layout U Lines Affix} {maxWidth : U} {lineClamp : Option ℕ+} :
    l.sameBounds maxWidth lineClamp = true ↔
      ∃ side, l.shapeMode = some (.truncate maxWidth lineClamp side) := by
  unfold sameBounds
  split
  · rename_i oldMaxWidth oldLineClamp side hmode
    constructor
    · intro h
      obtain ⟨rfl, rfl⟩ := of_decide_eq_true h
      exact ⟨side, hmode⟩
    · rintro ⟨side', h⟩
      rw [hmode, Option.some.injEq, ShapeMode.truncate.injEq] at h
      exact decide_eq_true ⟨h.1.symm, h.2.1.symm⟩
  · rename_i hmode
    constructor
    · simp
    · rintro ⟨side, hside⟩
      exact absurd hside (hmode _ _ _)

/-- A call with the same bounds at most asks for an alignment. -/
theorem truncate_of_sameBounds (engine : TextEngine U Lines Breaker Affix Style)
    {l : Layout U Lines Affix} {maxWidth : U} {lineClamp : Option ℕ+}
    (h : l.sameBounds maxWidth lineClamp = true) (style : Style) (affix : String)
    (truncateFrom : TruncateFrom) :
    ∃ needsRealign, l.truncate engine style maxWidth lineClamp affix truncateFrom =
      { l with needsRealign } := by
  obtain ⟨side, hmode⟩ := sameBounds_iff.mp h
  unfold Layout.truncate
  split_ifs
  · exact ⟨l.needsRealign, rfl⟩
  · refine ⟨true, ?_⟩
    simp [hmode]

/-- Other calls break the text anew. -/
theorem truncate_of_not_sameBounds (engine : TextEngine U Lines Breaker Affix Style)
    {l : Layout U Lines Affix} {maxWidth : U} {lineClamp : Option ℕ+}
    (h : l.sameBounds maxWidth lineClamp = false) (style : Style) (affix : String)
    (truncateFrom : TruncateFrom) :
    l.truncate engine style maxWidth lineClamp affix truncateFrom = { l with
      needsRealign := true
      layout := truncatedLines engine maxWidth lineClamp
      shapeMode := some (.truncate maxWidth lineClamp truncateFrom)
      truncation := l.retruncated engine style maxWidth lineClamp affix truncateFrom } := by
  have hne : ∀ side, l.shapeMode ≠ some (.truncate maxWidth lineClamp side) := by
    intro side hmode
    rw [sameBounds_iff.mpr ⟨side, hmode⟩] at h
    simp at h
  unfold Layout.truncate
  rw [if_neg fun hsame => hne _ hsame.1]
  dsimp only
  unfold retruncated width
  split
  · rename_i oldMaxWidth oldLineClamp side hmode
    rw [if_neg]
    · dsimp only
      split_ifs <;> rfl
    · rintro ⟨rfl, rfl⟩
      exact hne side hmode
  · dsimp only
    split_ifs <;> rfl

/-- A `truncate` call on a fresh layout. -/
theorem fresh_truncate (engine : TextEngine U Lines Breaker Affix Style) (style : Style)
    (maxWidth : U) (lineClamp : Option ℕ+) (affix : String) (truncateFrom : TruncateFrom) :
    let l := (fresh engine).truncate engine style maxWidth lineClamp affix truncateFrom
    l.layout = truncatedLines engine maxWidth lineClamp ∧
      (Overflows engine maxWidth lineClamp → l.truncation =
        some (.fresh engine style maxWidth lineClamp affix truncateFrom)) ∧
      (¬Overflows engine maxWidth lineClamp → l.truncation = none) := by
  intro l
  have hl : l = _ := truncate_of_not_sameBounds engine rfl style affix truncateFrom
  rw [hl]
  refine ⟨rfl, ?_, ?_⟩
  · intro hoverflows
    rw [← Truncation.update_default]
    exact retruncated_of_overflows _ style hoverflows affix truncateFrom
  · intro hfits
    exact retruncated_of_not_overflows _ style hfits affix truncateFrom

/-- In a layout that is kept, a truncation is the new one of its call. -/
theorem Kept.truncation {engine : TextEngine U Lines Breaker Affix Style}
    {l : Layout U Lines Affix} (h : Kept engine l) {t : Truncation U Affix}
    (ht : l.truncation = some t) : ∃ style maxWidth lineClamp affix side,
      l.shapeMode = some (.truncate maxWidth lineClamp side) ∧
        Overflows engine maxWidth lineClamp ∧
        t = .fresh engine style maxWidth lineClamp affix side := by
  cases hmode : l.shapeMode with
  | none => simp [h.unshaped hmode] at ht
  | some mode =>
    cases mode with
    | fit wrapWidth => simp [(h.fit wrapWidth hmode).2] at ht
    | truncate maxWidth lineClamp side =>
      obtain ⟨_, hoverflow, hfits⟩ := h.truncate _ _ _ hmode
      by_cases hoverflows : Overflows engine maxWidth lineClamp
      · obtain ⟨style, affix, hfresh⟩ := hoverflow hoverflows
        rw [hfresh, Option.some.injEq] at ht
        exact ⟨style, maxWidth, lineClamp, affix, side, rfl, hoverflows, ht.symm⟩
      · simp [hfits hoverflows] at ht

/-- The truncation after a call of `truncate` is the new one if and only if the call is
accepted. -/
theorem Kept.truncate_truncation {engine : TextEngine U Lines Breaker Affix Style}
    {l : Layout U Lines Affix} (h : Kept engine l) (style : Style) (maxWidth : U)
    (lineClamp : Option ℕ+) (affix : String) (truncateFrom : TruncateFrom) :
    (l.truncate engine style maxWidth lineClamp affix truncateFrom).truncation =
        ((fresh engine).truncate engine style maxWidth lineClamp affix truncateFrom).truncation ↔
      Accepts engine l (.truncate style maxWidth lineClamp affix truncateFrom) := by
  obtain ⟨_, hoverflow, hfits⟩ :=
    fresh_truncate engine style maxWidth lineClamp affix truncateFrom
  cases ht : l.truncation with
  | none =>
    refine iff_of_true ?_ (by simp [Accepts, ht])
    cases hbounds : l.sameBounds maxWidth lineClamp with
    | true =>
      obtain ⟨needsRealign, htruncate⟩ :=
        truncate_of_sameBounds engine hbounds style affix truncateFrom
      obtain ⟨side, hmode⟩ := sameBounds_iff.mp hbounds
      rw [htruncate, ht, hfits]
      intro hoverflows
      obtain ⟨_, _, hfresh⟩ := (h.truncate _ _ _ hmode).2.1 hoverflows
      simp [ht] at hfresh
    | false =>
      rw [truncate_of_not_sameBounds engine hbounds]
      by_cases hoverflows : Overflows engine maxWidth lineClamp
      · rw [hoverflow hoverflows, ← Truncation.update_default]
        dsimp only
        rw [retruncated_of_overflows l style hoverflows, ht, h.remSize, Option.getD_none]
      · rw [hfits hoverflows]
        exact retruncated_of_not_overflows l style hoverflows affix truncateFrom
  | some t =>
    obtain ⟨style', maxWidth', lineClamp', affix', side, hmode, hoverflows', rfl⟩ :=
      h.truncation ht
    cases hbounds : l.sameBounds maxWidth lineClamp with
    | true =>
      obtain ⟨needsRealign, htruncate⟩ :=
        truncate_of_sameBounds engine hbounds style affix truncateFrom
      obtain ⟨side', hmode'⟩ := sameBounds_iff.mp hbounds
      rw [hmode, Option.some.injEq, ShapeMode.truncate.injEq] at hmode'
      obtain ⟨rfl, rfl, rfl⟩ := hmode'
      rw [htruncate, hoverflow hoverflows', ht, Option.some.injEq, Truncation.fresh,
        Truncation.around_eq_fresh]
      simp [Accepts, ht, hbounds, Truncation.fresh, Truncation.around]
    | false =>
      rw [truncate_of_not_sameBounds engine hbounds]
      dsimp only
      by_cases hoverflows : Overflows engine maxWidth lineClamp
      · rw [hoverflow hoverflows, retruncated_of_overflows l style hoverflows, ht, h.remSize,
          Option.getD_some, Truncation.update_of_sized ⟨rfl, rfl⟩, Option.some.injEq,
          Truncation.around_eq_fresh]
        simp [Accepts, ht, hbounds, hoverflows]
      · rw [hfits hoverflows, retruncated_of_not_overflows l style hoverflows]
        simp [Accepts, ht, hbounds, hoverflows]

theorem Kept.truncate_layout {engine : TextEngine U Lines Breaker Affix Style}
    {l : Layout U Lines Affix} (h : Kept engine l) (style : Style) (maxWidth : U)
    (lineClamp : Option ℕ+) (affix : String) (truncateFrom : TruncateFrom) :
    (l.truncate engine style maxWidth lineClamp affix truncateFrom).layout =
      truncatedLines engine maxWidth lineClamp := by
  cases hbounds : l.sameBounds maxWidth lineClamp with
  | true =>
    obtain ⟨needsRealign, htruncate⟩ :=
      truncate_of_sameBounds engine hbounds style affix truncateFrom
    obtain ⟨side, hmode⟩ := sameBounds_iff.mp hbounds
    rw [htruncate]
    exact (h.truncate _ _ _ hmode).1
  | false => rw [truncate_of_not_sameBounds engine hbounds]

/-- A call gives what it gives on a fresh layout if and only if it is accepted. -/
theorem Kept.sameResult_iff {engine : TextEngine U Lines Breaker Affix Style}
    (hone : engine.OneLine) {l : Layout U Lines Affix} (h : Kept engine l)
    (call : ShapingCall U Style) :
    SameResult engine (l.apply engine call) ((fresh engine).apply engine call) ↔
      Accepts engine l call := by
  cases call with
  | fit maxWidth =>
    obtain ⟨hlines, htruncation, _⟩ := fit_spec hone h maxWidth
    constructor
    · intro hsame t ht
      have hnone := hsame.truncation
      rw [Layout.apply, htruncation, ht] at hnone
      simp [Layout.apply, Layout.fit, fresh] at hnone
    · intro haccepts
      have hnone : l.truncation = none := by
        cases ht : l.truncation with
        | none => rfl
        | some t => exact (haccepts t ht).elim
      exact .of_eq hlines (htruncation.trans hnone)
  | truncate style maxWidth lineClamp affix truncateFrom =>
    have htruncation := h.truncate_truncation style maxWidth lineClamp affix truncateFrom
    constructor
    · intro hsame
      exact htruncation.mp hsame.truncation
    · intro haccepts
      refine .of_eq ?_ (htruncation.mpr haccepts)
      have hlines := h.truncate_layout style maxWidth lineClamp affix truncateFrom
      exact hlines.trans (fresh_truncate engine style maxWidth lineClamp affix truncateFrom).1.symm

/-- An accepted call leaves what a fresh layout has. -/
theorem Kept.apply {engine : TextEngine U Lines Breaker Affix Style} (hone : engine.OneLine)
    {l : Layout U Lines Affix} (h : Kept engine l) {call : ShapingCall U Style}
    (haccepts : Accepts engine l call) : Kept engine (l.apply engine call) := by
  have hsame := (h.sameResult_iff hone call).mpr haccepts
  cases call with
  | fit maxWidth =>
    obtain ⟨_, htruncation, hkept⟩ := fit_spec hone h maxWidth
    exact hkept (htruncation.symm.trans hsame.truncation)
  | truncate style maxWidth lineClamp affix truncateFrom =>
    cases hbounds : l.sameBounds maxWidth lineClamp with
    | true =>
      obtain ⟨needsRealign, htruncate⟩ :=
        truncate_of_sameBounds engine hbounds style affix truncateFrom
      rw [Layout.apply, htruncate]
      exact ⟨h.remSize, h.unshaped, h.fit, h.truncate⟩
    | false =>
      obtain ⟨hlines, hoverflow, hfits⟩ :=
        fresh_truncate engine style maxWidth lineClamp affix truncateFrom
      have htruncate := truncate_of_not_sameBounds engine hbounds style affix
        truncateFrom
      refine ⟨?_, ?_, ?_, ?_⟩
      · rw [Layout.apply, htruncate]
        exact h.remSize
      · simp [Layout.apply, htruncate]
      · simp [Layout.apply, htruncate]
      · intro maxWidth' lineClamp' side hmode
        rw [Layout.apply, htruncate] at hmode
        obtain ⟨rfl, rfl, rfl⟩ : maxWidth = maxWidth' ∧ lineClamp = lineClamp' ∧
            truncateFrom = side := by simpa using hmode
        refine ⟨hsame.lines.trans hlines, ?_, ?_⟩
        · intro hoverflows
          exact ⟨style, affix, hsame.truncation.trans (hoverflow hoverflows)⟩
        · intro hnot
          exact hsame.truncation.trans (hfits hnot)

/-- One call of a run. -/
def step (engine : TextEngine U Lines Breaker Affix Style) (l : Layout U Lines Affix)
    (call : ShapingCall U Style) : Option (Layout U Lines Affix) :=
  some (l.apply engine call)

/-- In every run of accepted calls, a layout is what its last call makes of a fresh one. The
next call keeps it so if and only if it is accepted. -/
theorem sameResult_of_run {engine : TextEngine U Lines Breaker Affix Style}
    (hone : engine.OneLine) {calls : List (ShapingCall U Style)} {l : Layout U Lines Affix}
    (run : Run (step engine) (Accepts engine) (fresh engine) calls l) :
    (∀ call, calls.getLast? = some call →
      SameResult engine l ((fresh engine).apply engine call)) ∧
    ∀ call, SameResult engine (l.apply engine call) ((fresh engine).apply engine call) ↔
      Accepts engine l call := by
  have h : Kept engine l ∧ ∀ call, calls.getLast? = some call →
      SameResult engine l ((fresh engine).apply engine call) := by
    apply run.invariant fun calls l => Kept engine l ∧ ∀ call, calls.getLast? = some call →
      SameResult engine l ((fresh engine).apply engine call)
    · exact ⟨kept_fresh engine, by simp⟩
    · rintro calls l call l' ⟨h, _⟩ haccepts hstep
      obtain rfl := Option.some.inj hstep
      refine ⟨h.apply hone haccepts, ?_⟩
      intro last hlast
      obtain rfl : call = last := by simpa using hlast
      exact (h.sameResult_iff hone call).mpr haccepts
  exact ⟨h.2, h.1.sameResult_iff hone⟩

/-- The engine around a text of one word with four glyphs, which is never broken. Every
glyph is three pixels wide. -/
def oneWord : TextEngine ℤ (List (List ℤ)) Bool ℤ Unit where
  unbroken := []
  remSize := 16
  scale := 1
  breakAllLines _ := [[3, 3, 3, 3]]
  breakLines _ := false
  breakNext _ broken := if broken then none else some true
  breakRemaining _ := [[3, 3, 3, 3]]
  numLines := List.length
  width lines := (lines.map List.sum).foldr max 0
  height lines := 20 * lines.length
  items lines line := lines[line]?
  floor := id
  emptyAffix := 0
  shape _ affix _ _ := 3 * affix.length
  affixWidth := id

theorem oneLine_oneWord : oneWord.OneLine := fun _ _ _ _ => rfl

theorem sameResult_of_run_oneWord : ∃ l, Run (step oneWord) (Accepts oneWord) (fresh oneWord)
    [.fit (some 20), .fit none, .truncate () 8 none "…" .fromEnd] l ∧
    (∀ call, [.fit (some 20), .fit none, .truncate () 8 none "…" .fromEnd].getLast? = some call →
      SameResult oneWord l ((fresh oneWord).apply oneWord call)) ∧
    ∀ call, SameResult oneWord (l.apply oneWord call) ((fresh oneWord).apply oneWord call) ↔
      Accepts oneWord l call := by
  have run := @Run.nil _ _ (step oneWord) (Accepts oneWord) (fresh oneWord)
    |>.snoc (.fit (some 20)) (by rintro t ⟨⟩) rfl
    |>.snoc (.fit none) (by rintro t ⟨⟩) rfl
    |>.snoc (.truncate () 8 none "…" .fromEnd) (by rintro t ⟨⟩) rfl
  exact ⟨_, run, sameResult_of_run oneLine_oneWord run⟩

/-- A truncation outlasts a `fit`, and a call that only changes its side. -/
theorem not_sameResult_truncated :
    (∃ l, Run (step oneWord) (fun _ _ => True) (fresh oneWord)
      [.truncate () 8 none "…" .fromEnd, .fit none] l ∧
      ¬SameResult oneWord l ((fresh oneWord).apply oneWord (.fit none))) ∧
    ∃ l, Run (step oneWord) (fun _ _ => True) (fresh oneWord)
      [.truncate () 8 none "…" .fromEnd, .truncate () 8 none "…" .fromStart] l ∧
      ¬SameResult oneWord l
        ((fresh oneWord).apply oneWord (.truncate () 8 none "…" .fromStart)) := by
  constructor
  · refine ⟨_, .of_execute rfl, ?_⟩
    intro h
    have htruncation := h.truncation
    revert htruncation
    decide
  · refine ⟨_, .of_execute rfl, ?_⟩
    intro h
    have htruncation := h.truncation
    revert htruncation
    decide

end Layout

end Lucie
