import Lucie.Foundation.Exact
import Lucie.Text.Measure

/-!
# Aligning a layout

A layout aligns its lines when they may have changed or when the alignment differs from the one it
remembers. It never remembers one, so a call without an alignment is taken for a repeated one.
-/

set_option autoImplicit false

namespace Lucie

open Foundation

variable {U Lines Breaker Affix Style : Type} [Field U] [LinearOrder U]

/-- The engine with lines that know how they are aligned: lines that were just broken are not
aligned. -/
def TextEngine.marked (engine : TextEngine U Lines Breaker Affix Style) :
    TextEngine U (Lines × Option TextAlign) Breaker Affix Style where
  unbroken := (engine.unbroken, none)
  remSize := engine.remSize
  scale := engine.scale
  breakAllLines maxWidth := (engine.breakAllLines maxWidth, none)
  breakLines := engine.breakLines
  breakNext := engine.breakNext
  breakRemaining breaker := (engine.breakRemaining breaker, none)
  numLines lines := engine.numLines lines.1
  width lines := engine.width lines.1
  height lines := engine.height lines.1
  items lines := engine.items lines.1
  floor := engine.floor
  emptyAffix := engine.emptyAffix
  shape := engine.shape
  affixWidth := engine.affixWidth

namespace Layout

/-- A layout with marked lines. -/
def mark (l : Layout U Lines Affix) (aligned : Option TextAlign) :
    Layout U (Lines × Option TextAlign) Affix :=
  ⟨(l.layout, aligned), l.shapeMode, l.needsRealign, l.remSize, l.truncation⟩

/-- A layout without the marks. -/
def unmark (l : Layout U (Lines × Option TextAlign) Affix) : Layout U Lines Affix :=
  ⟨l.layout.1, l.shapeMode, l.needsRealign, l.remSize, l.truncation⟩

end Layout

namespace AlignedLayout

/-- A shaping call. Lines that it keeps stay aligned as they are. -/
def shape (l : AlignedLayout U Lines Affix) (engine : TextEngine U Lines Breaker Affix Style)
    (call : ShapingCall U Style) : AlignedLayout U Lines Affix :=
  let shaped := (l.layout.mark l.aligned).apply engine.marked call
  { l with layout := shaped.unmark, aligned := shaped.layout.2 }

end AlignedLayout

namespace Truncation

/-- The marks of the lines do not matter for a truncation. -/
theorem itemFromEnd_marked (engine : TextEngine U Lines Breaker Affix Style)
    (truncateWidth maxWidth : U) (items : List U) (width : U) (index : ℕ) (item : Option ℕ) :
    itemFromEnd engine.marked truncateWidth maxWidth items width index item =
      itemFromEnd engine truncateWidth maxWidth items width index item := by
  induction items generalizing width index item with
  | nil => rfl
  | cons advance items ih =>
    rw [itemFromEnd, itemFromEnd]
    rw [ih]
    rfl

theorem place_marked (engine : TextEngine U Lines Breaker Affix Style)
    (truncateWidth maxWidth : U) (truncateFrom : TruncateFrom) (items : Option (List U)) :
    place engine.marked truncateWidth maxWidth truncateFrom items =
      place engine truncateWidth maxWidth truncateFrom items := by
  cases items with
  | none => rfl
  | some items =>
    cases truncateFrom with
    | fromEnd =>
      rw [place, place]
      rw [itemFromEnd_marked]
    | fromStart => rfl

theorem update_marked (t : Truncation U Affix) (engine : TextEngine U Lines Breaker Affix Style)
    (style : Style) (lineClamp : Option ℕ+) (maxWidth : U) (affix : String)
    (truncateFrom : TruncateFrom) (remSize scale : U) (lines : Lines)
    (aligned : Option TextAlign) :
    t.update engine.marked style lineClamp maxWidth affix truncateFrom remSize scale
        (lines, aligned) =
      t.update engine style lineClamp maxWidth affix truncateFrom remSize scale lines := by
  rw [update, update]
  rw [place_marked]
  rfl

end Truncation

namespace Layout

omit [Field U] [LinearOrder U] in
theorem breakClamped_marked (engine : TextEngine U Lines Breaker Affix Style) (maxWidth : U)
    (n : ℕ) (breaker : Breaker) :
    breakClamped engine.marked maxWidth n breaker = breakClamped engine maxWidth n breaker := by
  induction n generalizing breaker with
  | zero => rfl
  | succ n ih =>
    have hnext : engine.marked.breakNext maxWidth breaker = engine.breakNext maxWidth breaker := rfl
    rw [breakClamped, breakClamped, hnext]
    cases engine.breakNext maxWidth breaker with
    | none => rfl
    | some breaker => exact ih breaker

omit [Field U] [LinearOrder U] in
theorem truncatedLines_marked (engine : TextEngine U Lines Breaker Affix Style) (maxWidth : U)
    (lineClamp : Option ℕ+) : truncatedLines engine.marked maxWidth lineClamp =
      (truncatedLines engine maxWidth lineClamp, none) := by
  rw [truncatedLines, breakClamped_marked]
  rfl

omit [Field U] in
theorem unmark_fit (l : Layout U Lines Affix) (engine : TextEngine U Lines Breaker Affix Style)
    (aligned : Option TextAlign) (maxWidth : Option U) :
    ((l.mark aligned).fit engine.marked maxWidth).unmark = l.fit engine maxWidth ∧
      (((l.mark aligned).fit engine.marked maxWidth).layout.2 = aligned ∨
        ((l.mark aligned).fit engine.marked maxWidth).layout.2 = none) := by
  have hlines : (l.mark aligned).numLines engine.marked = l.numLines engine := rfl
  have hmode : (l.mark aligned).shapeMode = l.shapeMode := rfl
  rw [fit, fit, hmode]
  split_ifs with hsame
  · exact ⟨rfl, .inl rfl⟩
  · dsimp only
    split
    · split_ifs with hfits hfits' hfits'
      · exact ⟨rfl, .inl rfl⟩
      · exact absurd hfits hfits'
      · exact absurd hfits' hfits
      · exact ⟨rfl, .inr rfl⟩
    · exact ⟨rfl, .inr rfl⟩

theorem unmark_truncate (l : Layout U Lines Affix)
    (engine : TextEngine U Lines Breaker Affix Style) (aligned : Option TextAlign) (style : Style)
    (maxWidth : U) (lineClamp : Option ℕ+) (affix : String) (truncateFrom : TruncateFrom) :
    ((l.mark aligned).truncate engine.marked style maxWidth lineClamp affix truncateFrom).unmark =
        l.truncate engine style maxWidth lineClamp affix truncateFrom ∧
      (((l.mark aligned).truncate engine.marked style maxWidth lineClamp affix
          truncateFrom).layout.2 = aligned ∨
        ((l.mark aligned).truncate engine.marked style maxWidth lineClamp affix
          truncateFrom).layout.2 = none) := by
  have hmode : (l.mark aligned).shapeMode = l.shapeMode := rfl
  have htruncation : (l.mark aligned).truncation = l.truncation := rfl
  rw [truncate, truncate, hmode, htruncation]
  split_ifs with hsame
  · exact ⟨rfl, .inl rfl⟩
  · dsimp only
    rw [truncatedLines_marked, Truncation.update_marked]
    split
    · split_ifs with hbounds hwide hwide' hwide'
      · exact ⟨rfl, .inl rfl⟩
      · exact ⟨rfl, .inr rfl⟩
      · exact absurd hwide hwide'
      · exact absurd hwide' hwide
      · exact ⟨rfl, .inr rfl⟩
    · split_ifs with hwide hwide' hwide'
      · exact ⟨rfl, .inr rfl⟩
      · exact absurd hwide hwide'
      · exact absurd hwide' hwide
      · exact ⟨rfl, .inr rfl⟩

end Layout

namespace AlignedLayout

/-- A shaping call does to the layout what it does without the marks, and its lines stay aligned
as they are or are not aligned. -/
theorem shape_spec (l : AlignedLayout U Lines Affix)
    (engine : TextEngine U Lines Breaker Affix Style) (call : ShapingCall U Style) :
    (l.shape engine call).layout = l.layout.apply engine call ∧
      (l.shape engine call).alignment = l.alignment ∧
      ((l.shape engine call).aligned = l.aligned ∨ (l.shape engine call).aligned = none) := by
  cases call with
  | fit maxWidth =>
    obtain ⟨hlayout, haligned⟩ := l.layout.unmark_fit engine l.aligned maxWidth
    exact ⟨hlayout, rfl, haligned⟩
  | truncate style maxWidth lineClamp affix truncateFrom =>
    obtain ⟨hlayout, haligned⟩ := l.layout.unmark_truncate engine l.aligned style maxWidth
      lineClamp affix truncateFrom
    exact ⟨hlayout, rfl, haligned⟩

end AlignedLayout

/-- A call on a layout. -/
inductive LayoutCall (U Style : Type)
  | shape (call : ShapingCall U Style)
  | align (alignment : Option TextAlign)

/-- A layout with the alignment of the last `align` since its lines were broken. -/
structure AlignRun (U Lines Affix : Type) where
  layout : AlignedLayout U Lines Affix
  requested : Option TextAlign

namespace AlignRun

variable (engine : TextEngine U Lines Breaker Affix Style)

/-- A layout as it is built. -/
def built : AlignRun U Lines Affix := ⟨.built engine, none⟩

/-- One call, unless it panics. Lines that are not aligned were broken since the last `align`. -/
def step (s : AlignRun U Lines Affix) :
    LayoutCall U Style → Option (AlignRun U Lines Affix)
  | .shape call =>
    let layout := s.layout.shape engine call
    some ⟨layout, if layout.aligned = none then none else s.requested⟩
  | .align alignment =>
    (s.layout.align alignment).map fun layout => ⟨layout, some (alignment.getD .left)⟩

/-- The lines are aligned as the last `align` asked for. -/
def Aligned (s : AlignRun U Lines Affix) : Prop := s.layout.aligned = s.requested

/-- An `align` has an alignment, or the lines may have changed, or they are at the left already. -/
def Realigns (s : AlignRun U Lines Affix) : LayoutCall U Style → Prop
  | .shape _ => True
  | .align alignment =>
    alignment ≠ none ∨ s.layout.layout.needsRealign = true ∨ s.layout.aligned = some .left

variable {engine} {s s' : AlignRun U Lines Affix} {call : LayoutCall U Style}

/-- The layout never remembers an alignment. -/
theorem alignment_of_step (h : s.layout.alignment = none)
    (hstep : step engine s call = some s') : s'.layout.alignment = none := by
  cases call with
  | shape call =>
    cases hstep
    exact (s.layout.shape_spec engine call).2.1.trans h
  | align alignment =>
    obtain ⟨layout, hlayout, rfl⟩ := Option.map_eq_some_iff.mp hstep
    rw [AlignedLayout.align] at hlayout
    split_ifs at hlayout <;> cases hlayout <;> exact h

theorem aligned_step_iff (h : s.layout.alignment = none) (haligned : s.Aligned)
    (hstep : step engine s call = some s') : s'.Aligned ↔ s.Realigns call := by
  rw [Aligned] at haligned ⊢
  cases call with
  | shape call =>
    cases hstep
    refine iff_of_true ?_ trivial
    rcases (s.layout.shape_spec engine call).2.2 with hkept | hbroken
    · change (s.layout.shape engine call).aligned = ite _ _ _
      rw [hkept, haligned]
      split_ifs with hnone
      · exact hnone
      · rfl
    · exact hbroken.trans (if_pos hbroken).symm
  | align alignment =>
    obtain ⟨layout, hlayout, rfl⟩ := Option.map_eq_some_iff.mp hstep
    rw [AlignedLayout.align, h] at hlayout
    split_ifs at hlayout with hpanic hrealign
    · cases hlayout
      exact iff_of_true rfl (hrealign.imp_right .inl)
    · -- the call is skipped
      cases hlayout
      rw [not_or, not_not] at hrealign
      obtain ⟨rfl, hclean⟩ := hrealign
      change s.layout.aligned = some .left ↔ _
      simp [Realigns, hclean]

/-- In all states of a run the lines are aligned as the last `align` since they were broken asked
for, exactly when no `align` without an alignment comes for lines that did not change and are
aligned otherwise. -/
theorem allStates_aligned_iff (engine : TextEngine U Lines Breaker Affix Style)
    (calls : List (LayoutCall U Style)) :
    AllStates (step engine) Aligned (built engine : AlignRun U Lines Affix) calls ↔
      AllSteps (step engine) Realigns (built engine : AlignRun U Lines Affix) calls := by
  refine allStates_iff_allSteps (fun s => s.layout.alignment = none) ?_ ?_ rfl ?_ calls
  · intro s call s' h hstep
    exact alignment_of_step h hstep
  · intro s call s' h haligned hstep
    exact aligned_step_iff h haligned hstep
  · rfl

/-- Lines that were centered stay so after an `align` without an alignment. -/
theorem not_allStates_aligned :
    ¬AllStates (step TextElement.twoWords) Aligned (built TextElement.twoWords)
      [.shape (.fit none), .align (some .center), .align none] := by
  intro h
  have hlast := (((h.2 _ rfl).2 _ rfl).2 _ rfl).head
  cases hlast

end AlignRun

end Lucie
