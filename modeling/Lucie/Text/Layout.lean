import Mathlib
import Lucie.Geometry.Bounds

/-!
# Text layouts

A layout keeps the lines of its last shaping call, so that a call with the same parameters
can be skipped. What breaks the text and shapes the affix is a parameter; its results only
depend on its arguments.
-/

set_option autoImplicit false

namespace Lucie

/-- `TruncateFrom`. -/
inductive TruncateFrom
  | fromEnd
  | fromStart
  deriving DecidableEq

/-- `ShapeMode`. Lengths are in scaled pixels. -/
inductive ShapeMode (U : Type)
  | fit (wrapWidth : Option U)
  | truncate (maxWidth : U) (lineClamp : Option ℕ+) (truncateFrom : TruncateFrom)
  deriving DecidableEq

/-- The text engine around the text of one layout: `Lines` is the layout with its lines,
`Breaker` the layout while it is broken into lines, `Affix` the layout of an affix and
`Style` the text system and the base style. -/
structure TextEngine (U Lines Breaker Affix Style : Type) where
  /-- The layout as it is built, before any shaping call. -/
  unbroken : Lines
  remSize : U
  scale : U
  breakAllLines : Option U → Lines
  breakLines : U → Breaker
  breakNext : U → Breaker → Option Breaker
  breakRemaining : Breaker → Lines
  numLines : Lines → ℕ
  width : Lines → U
  height : Lines → U
  /-- The advances of the glyphs and the widths of the inline boxes of a line. -/
  items : Lines → ℕ → Option (List U)
  floor : U → U
  emptyAffix : Affix
  shape : Style → String → U → U → Affix
  affixWidth : Affix → U

/-- `Truncation`. -/
structure Truncation (U Affix : Type) where
  affix : String
  line : ℕ
  item : Option ℕ
  truncateFrom : TruncateFrom
  startAdvance : U
  remSize : U
  scale : U
  layout : Affix
  deriving DecidableEq

/-- `Layout`, with the fields that the shaping calls use. -/
structure Layout (U Lines Affix : Type) where
  layout : Lines
  shapeMode : Option (ShapeMode U)
  needsRealign : Bool
  remSize : U
  truncation : Option (Truncation U Affix)

variable {U Lines Breaker Affix Style : Type} [AddCommGroup U] [LinearOrder U]

/-- The number of lines, `line_clamp.map_or(1, |x| x.get())`. -/
def clampedLines (lineClamp : Option ℕ+) : ℕ := lineClamp.elim 1 PNat.val

namespace Truncation

/-- The loop of `Truncation::update` over the items from the start of a line. It returns
the item to put the affix at as soon as the items do not fit, and none if they all fit. -/
def itemFromEnd (engine : TextEngine U Lines Breaker Affix Style) (truncateWidth maxWidth : U) :
    List U → U → ℕ → Option ℕ → Option ℕ
  | [], _, _, _ => none
  | advance :: items, width, index, item =>
    let item := if width + truncateWidth < maxWidth then some index else item
    if engine.floor (width + advance) > maxWidth then item
    else itemFromEnd engine truncateWidth maxWidth items (width + advance) (index + 1) item

/-- The loop of `Truncation::update` that skips items from the start of a line, with the
advance that is skipped. -/
def itemFromStart (available total : U) : List U → U → ℕ → Option (ℕ × U)
  | [], _, _ => none
  | advance :: items, skipped, index =>
    if total - skipped ≤ available then some (index, skipped)
    else itemFromStart available total items (skipped + advance) (index + 1)

/-- `Truncation::default`. -/
def default (engine : TextEngine U Lines Breaker Affix Style) : Truncation U Affix :=
  ⟨"", 0, none, .fromEnd, 0, 0, 0, engine.emptyAffix⟩

/-- `Truncation::update_layout`. -/
def updateLayout (t : Truncation U Affix) (engine : TextEngine U Lines Breaker Affix Style)
    (style : Style) (affix : String) (remSize scale : U) : Truncation U Affix :=
  { t with affix, remSize, scale, layout := engine.shape style affix remSize scale }

/-- The item and the start advance that `Truncation::update` sets, if the line exists. -/
def place (engine : TextEngine U Lines Breaker Affix Style) (truncateWidth maxWidth : U)
    (truncateFrom : TruncateFrom) : Option (List U) → Option ℕ × U
  | none => (none, 0)
  | some items =>
    match truncateFrom with
    | .fromEnd => (itemFromEnd engine truncateWidth maxWidth items 0 0 none, 0)
    | .fromStart =>
      match itemFromStart (maxWidth - truncateWidth) items.sum items 0 0 with
      | some (index, skipped) => (some index, skipped)
      | none => (none, 0)

/-- `Truncation::update`. -/
def update (t : Truncation U Affix) (engine : TextEngine U Lines Breaker Affix Style)
    (style : Style) (lineClamp : Option ℕ+) (maxWidth : U) (affix : String)
    (truncateFrom : TruncateFrom) (remSize scale : U) (lines : Lines) : Truncation U Affix :=
  let t := if affix ≠ t.affix ∨ t.remSize ≠ remSize ∨ t.scale ≠ scale then
    t.updateLayout engine style affix remSize scale else t
  let line := clampedLines lineClamp - 1
  let placed := place engine (engine.affixWidth t.layout) maxWidth truncateFrom
    (engine.items lines line)
  { t with line, truncateFrom, item := placed.1, startAdvance := placed.2 }

end Truncation

/-- A shaping call. -/
inductive ShapingCall (U Style : Type)
  | fit (maxWidth : Option U)
  | truncate (style : Style) (maxWidth : U) (lineClamp : Option ℕ+) (affix : String)
      (truncateFrom : TruncateFrom)

namespace Layout

/-- A freshly built layout. -/
def fresh (engine : TextEngine U Lines Breaker Affix Style) : Layout U Lines Affix :=
  ⟨engine.unbroken, none, false, engine.remSize, none⟩

/-- `Layout::num_lines`. -/
def numLines (l : Layout U Lines Affix) (engine : TextEngine U Lines Breaker Affix Style) : ℕ :=
  engine.numLines l.layout

/-- `Layout::width`. -/
def width (l : Layout U Lines Affix) (engine : TextEngine U Lines Breaker Affix Style) : U :=
  engine.width l.layout

/-- `Layout::size`. -/
def size (l : Layout U Lines Affix) (engine : TextEngine U Lines Breaker Affix Style) : Size U :=
  ⟨engine.width l.layout, engine.height l.layout⟩

/-- The text fit into a width that is at most the new one, or the new one has no bound. -/
def widens (wrapWidth : U) : Option U → Bool
  | none => true
  | some maxWidth => wrapWidth ≤ maxWidth

/-- `Layout::fit`. -/
def fit (l : Layout U Lines Affix) (engine : TextEngine U Lines Breaker Affix Style)
    (maxWidth : Option U) : Layout U Lines Affix :=
  if l.shapeMode = some (.fit maxWidth) then l
  else
    let l := { l with needsRealign := true }
    match l.shapeMode with
    | some (.fit (some wrapWidth)) =>
      -- the old text did not wrap within a smaller bound
      if l.numLines engine = 1 ∧ widens wrapWidth maxWidth then
        { l with shapeMode := some (.fit maxWidth) }
      else
        { l with layout := engine.breakAllLines maxWidth, shapeMode := some (.fit maxWidth) }
    | _ => { l with layout := engine.breakAllLines maxWidth, shapeMode := some (.fit maxWidth) }

/-- The loop of `Layout::truncate` that breaks the lines before the last one. -/
def breakClamped (engine : TextEngine U Lines Breaker Affix Style) (maxWidth : U) :
    ℕ → Breaker → Breaker
  | 0, breaker => breaker
  | n + 1, breaker =>
    match engine.breakNext maxWidth breaker with
    | none => breaker
    | some breaker => breakClamped engine maxWidth n breaker

/-- The lines of a truncated text. -/
def truncatedLines (engine : TextEngine U Lines Breaker Affix Style) (maxWidth : U)
    (lineClamp : Option ℕ+) : Lines :=
  engine.breakRemaining
    (breakClamped engine maxWidth (clampedLines lineClamp - 1) (engine.breakLines maxWidth))

/-- `Layout::truncate`. -/
def truncate (l : Layout U Lines Affix) (engine : TextEngine U Lines Breaker Affix Style)
    (style : Style) (maxWidth : U) (lineClamp : Option ℕ+) (affix : String)
    (truncateFrom : TruncateFrom) : Layout U Lines Affix :=
  if l.shapeMode = some (.truncate maxWidth lineClamp truncateFrom) ∧
      l.truncation.all (·.affix = affix) then l
  else
    let l := { l with needsRealign := true }
    let reshape : Layout U Lines Affix :=
      let l := { l with
        layout := truncatedLines engine maxWidth lineClamp
        shapeMode := some (.truncate maxWidth lineClamp truncateFrom) }
      if l.width engine > maxWidth then
        { l with truncation := some ((l.truncation.getD (.default engine)).update engine style
          lineClamp maxWidth affix truncateFrom l.remSize engine.scale l.layout) }
      else { l with truncation := none }
    match l.shapeMode with
    | some (.truncate oldMaxWidth oldLineClamp _) =>
      if maxWidth = oldMaxWidth ∧ lineClamp = oldLineClamp then l else reshape
    | _ => reshape

/-- Make a shaping call. -/
def apply (engine : TextEngine U Lines Breaker Affix Style) (l : Layout U Lines Affix) :
    ShapingCall U Style → Layout U Lines Affix
  | .fit maxWidth => l.fit engine maxWidth
  | .truncate style maxWidth lineClamp affix truncateFrom =>
    l.truncate engine style maxWidth lineClamp affix truncateFrom

end Layout

end Lucie
