import Lucie.Color.Hsla

/-!
# Highlight styles

A highlight changes some of the properties of a text and leaves the others alone. Putting one
highlight over another blends their colors and overwrites what does not blend.
-/

set_option autoImplicit false

namespace Lucie

/-- `FontWeight`. -/
structure FontWeight where
  weight : ℚ
  deriving DecidableEq

/-- `FontStyle`. -/
inductive FontStyle
  | normal
  | italic
  | oblique
  deriving DecidableEq

/-- `UnderlineStyle`. -/
structure UnderlineStyle where
  thickness : ℚ
  color : Option (Hsla ℚ)
  wavy : Bool
  deriving DecidableEq

/-- `StrikethroughStyle`. -/
structure StrikethroughStyle where
  thickness : ℚ
  color : Option (Hsla ℚ)
  deriving DecidableEq

/-- `HighlightStyle`. -/
@[ext] structure HighlightStyle where
  color : Option (Hsla ℚ)
  fontWeight : Option FontWeight
  fontStyle : Option FontStyle
  backgroundColor : Option (Hsla ℚ)
  underline : Option UnderlineStyle
  strikethrough : Option StrikethroughStyle
  fadeOut : Option ℚ
  deriving DecidableEq

namespace HighlightStyle

/-- `HighlightStyle::default`. -/
def default : HighlightStyle := ⟨none, none, none, none, none, none, none⟩

/-- `HighlightStyle::highlight`. -/
def highlight (self other : HighlightStyle) : HighlightStyle where
  color := (other.color.map fun otherColor =>
    self.color.elim otherColor fun color => color.blend otherColor).or self.color
  fontWeight := other.fontWeight.or self.fontWeight
  fontStyle := other.fontStyle.or self.fontStyle
  backgroundColor := other.backgroundColor.or self.backgroundColor
  underline := other.underline.or self.underline
  strikethrough := other.strikethrough.or self.strikethrough
  fadeOut := (other.fadeOut.map fun sourceFade =>
    (self.fadeOut.map fun destFade => clampFloat (destFade * (1 + sourceFade)) 0 1).getD
      sourceFade).or self.fadeOut

@[simp] theorem default_highlight (style : HighlightStyle) : default.highlight style = style := by
  ext <;> simp [highlight, default]

@[simp] theorem highlight_default (style : HighlightStyle) : style.highlight default = style := by
  ext <;> simp [highlight, default]

end HighlightStyle

end Lucie
