import Lucie.Foundation.ByteSlice
import Lucie.Style.CombineHighlights

/-!
# The runs of a highlighted text

A text is laid out in runs, which carry a length and a style but not where they begin. The runs of
a text with highlights are one for each highlight and one for each gap. So the style of a byte is
right if the runs before it are exactly as long as the text before it.
-/

set_option autoImplicit false

namespace Lucie

open Foundation
open String (utf8Len utf8Len_append)

/-- `Hsla::fade_out`. -/
def Hsla.fadeOut (color : Hsla ℚ) (factor : ℚ) : Hsla ℚ :=
  { color with a := color.a * (1 - clampFloat factor 0 1) }

/-- `AbsoluteLength`. -/
inductive AbsoluteLength
  | pixels (length : ℚ)
  | rems (length : ℚ)
  deriving DecidableEq

/-- `Font`. -/
structure Font where
  family : String
  features : List (String × ℕ)
  fallbacks : Option (List String)
  weight : FontWeight
  style : FontStyle
  deriving DecidableEq

/-- `TextRun`. Its length is in bytes. -/
structure TextRun where
  len : ℕ
  font : Font
  fontSize : AbsoluteLength
  color : Hsla ℚ
  backgroundColor : Option (Hsla ℚ)
  underline : Option UnderlineStyle
  strikethrough : Option StrikethroughStyle
  deriving DecidableEq

/-- `StyledText`. -/
structure StyledText where
  text : List Char
  runs : Option (List TextRun)
  delayedHighlights : Option (List Highlight)
  deriving DecidableEq

namespace StyledText

/-- `TextStyle`, with what a highlight changes and a run is made of. -/
structure TextStyle where
  color : Hsla ℚ
  fontFamily : String
  fontFeatures : List (String × ℕ)
  fontFallbacks : Option (List String)
  fontSize : AbsoluteLength
  fontWeight : FontWeight
  fontStyle : FontStyle
  backgroundColor : Option (Hsla ℚ)
  underline : Option UnderlineStyle
  strikethrough : Option StrikethroughStyle
  deriving DecidableEq

namespace TextStyle

/-- `TextStyle::default`. -/
def default : TextStyle where
  color := ⟨0, 0, 0, 1⟩
  fontFamily := "system-ui"
  fontFeatures := []
  fontFallbacks := none
  fontSize := .rems 1
  fontWeight := ⟨400⟩
  fontStyle := .normal
  backgroundColor := none
  underline := none
  strikethrough := none

/-- `TextStyle::highlight`. -/
def highlight (self : TextStyle) (style : HighlightStyle) : TextStyle :=
  let color := style.color.elim self.color self.color.blend
  { self with
    fontWeight := style.fontWeight.getD self.fontWeight
    fontStyle := style.fontStyle.getD self.fontStyle
    color := style.fadeOut.elim color color.fadeOut
    backgroundColor := style.backgroundColor.or self.backgroundColor
    underline := style.underline.or self.underline
    strikethrough := style.strikethrough.or self.strikethrough }

/-- `TextStyle::font`. -/
def font (self : TextStyle) : Font :=
  ⟨self.fontFamily, self.fontFeatures, self.fontFallbacks, self.fontWeight, self.fontStyle⟩

/-- `TextStyle::to_run`. -/
def toRun (self : TextStyle) (len : ℕ) : TextRun :=
  ⟨len, self.font, self.fontSize, self.color, self.backgroundColor, self.underline,
    self.strikethrough⟩

end TextStyle

/-- `str::is_char_boundary`. -/
def isCharBoundary (text : List Char) (index : ℕ) : Bool := (splitAtByte text index).isSome

/-- The loop of `StyledText::compute_runs` and the run behind the last highlight. A debug assertion
that fails panics. -/
def computeRunsFrom (text : List Char) (defaultStyle : TextStyle) :
    List Highlight → ℕ → List TextRun → Option (List TextRun)
  | [], ix, runs =>
    some (if ix < utf8Len text then runs ++ [defaultStyle.toRun (utf8Len text - ix)] else runs)
  | ⟨range, highlight⟩ :: highlights, ix, runs =>
    if ix < range.start ∧ ¬isCharBoundary text range.start then none
    else if ¬isCharBoundary text range.stop then none
    else
      let runs := if ix < range.start then runs ++ [defaultStyle.toRun (range.start - ix)] else runs
      computeRunsFrom text defaultStyle highlights range.stop
        (runs ++ [(defaultStyle.highlight highlight).toRun (range.stop - range.start)])

/-- `StyledText::compute_runs`. -/
def computeRuns (text : List Char) (defaultStyle : TextStyle) (highlights : List Highlight) :
    Option (List TextRun) :=
  computeRunsFrom text defaultStyle highlights 0 []

/-- The loop of `StyledText::with_runs`, which leaves the text behind the runs. -/
def skipRuns (runs : List TextRun) (text : List Char) : Option (List Char) :=
  runs.foldlM (fun text run => (splitAtByte text run.len).map Prod.snd) text

/-- `StyledText::new`. -/
def new (text : List Char) : StyledText := ⟨text, none, none⟩

/-- `StyledText::with_runs`. It panics if the runs do not make up the text. -/
def withRuns (s : StyledText) (runs : List TextRun) : Option StyledText :=
  (skipRuns runs s.text).bind fun rest =>
    if rest.isEmpty then some { s with runs := some runs } else none

/-- `StyledText::with_default_highlights`. -/
def withDefaultHighlights (s : StyledText) (defaultStyle : TextStyle)
    (highlights : List Highlight) : Option StyledText :=
  if s.delayedHighlights.isSome then none
  else (computeRuns s.text defaultStyle highlights).bind s.withRuns

/-! ## What the runs should be -/

/-- The highlights come one after another, and start and end where a character does. -/
structure HighlightsIn (text : List Char) (highlights : List Highlight) : Prop where
  ordered : ∀ h ∈ highlights, h.range.start ≤ h.range.stop
  increasing : highlights.Pairwise fun h h' => h.range.stop ≤ h'.range.start
  boundary : ∀ h ∈ highlights,
    isCharBoundary text h.range.start ∧ isCharBoundary text h.range.stop

/-- The run in which a byte lies. -/
def runAt : List TextRun → ℕ → Option TextRun
  | [], _ => none
  | run :: runs, index => if index < run.len then some run else runAt runs (index - run.len)

/-- The style of a run at a byte is the default style with the highlight there, if there is one. -/
structure StyledAt (defaultStyle : TextStyle) (highlights : List Highlight) (index : ℕ)
    (run : TextRun) : Prop where
  highlighted : ∀ h ∈ highlights, h.range.Contains index →
    run = (defaultStyle.highlight h.style).toRun run.len
  plain : (∀ h ∈ highlights, ¬h.range.Contains index) → run = defaultStyle.toRun run.len

/-- Runs that make up the text from a byte on, with what holds of each byte and its run. -/
structure RunsFrom (text : List Char) (P : ℕ → TextRun → Prop) (ix : ℕ) (runs : List TextRun) :
    Prop where
  length : ix + (runs.map TextRun.len).sum = utf8Len text
  accepted : ∀ before rest, splitAtByte text ix = some (before, rest) → skipRuns runs rest = some []
  styled : ∀ index, ix ≤ index → index < utf8Len text →
    ∃ run, runAt runs (index - ix) = some run ∧ P index run

/-! ## Run by run -/

variable {text : List Char} {defaultStyle : TextStyle} {highlights : List Highlight}

theorem le_of_isCharBoundary {index : ℕ} (h : isCharBoundary text index) :
    index ≤ utf8Len text := by
  obtain ⟨⟨before, rest⟩, hsplit⟩ := Option.isSome_iff_exists.mp h
  obtain ⟨rfl, rfl⟩ := splitAtByte_eq_some.mp hsplit
  rw [utf8Len_append]
  omega

namespace RunsFrom

variable {P Q : ℕ → TextRun → Prop} {ix : ℕ} {run : TextRun} {runs : List TextRun}

theorem nil (hix : ix = utf8Len text) : RunsFrom text P ix [] where
  length := hix
  accepted before rest hsplit := by
    obtain ⟨rfl, hlen⟩ := splitAtByte_eq_some.mp hsplit
    rw [utf8Len_append] at hix
    cases rest with
    | nil => rfl
    | cons c rest =>
      have hpos := c.utf8Size_pos
      rw [String.utf8Len_cons] at hix
      omega
  styled index hle hlt := by omega

/-- A run in front, up to where a character starts. -/
theorem cons (hboundary : isCharBoundary text (ix + run.len))
    (hrun : ∀ index, ix ≤ index → index < ix + run.len → P index run)
    (h : RunsFrom text P (ix + run.len) runs) : RunsFrom text P ix (run :: runs) where
  length := by
    have hlength := h.length
    rw [List.map_cons, List.sum_cons]
    omega
  accepted before rest hsplit := by
    obtain ⟨⟨before', rest'⟩, hnext⟩ := Option.isSome_iff_exists.mp hboundary
    have haccepted := h.accepted before' rest' hnext
    rw [splitAtByte_add hsplit] at hnext
    obtain ⟨⟨slice, rest''⟩, hslice, heq⟩ := Option.map_eq_some_iff.mp hnext
    cases heq
    rw [skipRuns, List.foldlM_cons, hslice]
    exact haccepted
  styled index hle hlt := by
    by_cases hin : index - ix < run.len
    · exact ⟨run, by rw [runAt, if_pos hin], hrun index hle (by omega)⟩
    · obtain ⟨found, hfound, hP⟩ := h.styled index (by omega) hlt
      have hsub : index - ix - run.len = index - (ix + run.len) := by omega
      exact ⟨found, by rw [runAt, if_neg hin, hsub, hfound], hP⟩

theorem imp (h : RunsFrom text P ix runs)
    (himp : ∀ index run, ix ≤ index → P index run → Q index run) : RunsFrom text Q ix runs where
  length := h.length
  accepted := h.accepted
  styled index hle hlt := by
    obtain ⟨run, hrun, hP⟩ := h.styled index hle hlt
    exact ⟨run, hrun, himp index run hle hP⟩

end RunsFrom

namespace HighlightsIn

variable {h : Highlight}

theorem of_cons (hin : HighlightsIn text (h :: highlights)) : HighlightsIn text highlights where
  ordered h' hmem := hin.ordered h' (List.mem_cons_of_mem h hmem)
  increasing := hin.increasing.of_cons
  boundary h' hmem := hin.boundary h' (List.mem_cons_of_mem h hmem)

theorem stop_le_start (hin : HighlightsIn text (h :: highlights)) :
    ∀ h' ∈ highlights, h.range.stop ≤ h'.range.start :=
  (List.pairwise_cons.mp hin.increasing).1

end HighlightsIn

/-- The combined highlights come one after another. -/
theorem HighlightsIn.of_combinesFrom {ix : ℕ} {inputs : List Highlight}
    (h : CombinesFrom ix inputs highlights)
    (hboundary : ∀ piece ∈ highlights,
      isCharBoundary text piece.range.start ∧ isCharBoundary text piece.range.stop) :
    HighlightsIn text highlights where
  ordered piece hpiece := (not_not.mp (h.nonempty piece hpiece)).le
  increasing := h.increasing
  boundary := hboundary

/-- Behind a highlight only the other ones matter. -/
theorem StyledAt.cons {h : Highlight} {index : ℕ} {run : TextRun}
    (hstyled : StyledAt defaultStyle highlights index run) (hstop : h.range.stop ≤ index) :
    StyledAt defaultStyle (h :: highlights) index run where
  highlighted := by
    rintro h' hmem ⟨hstart, hlt⟩
    rcases List.mem_cons.mp hmem with rfl | hmem
    · omega
    · exact hstyled.highlighted h' hmem ⟨hstart, hlt⟩
  plain hno := hstyled.plain fun h' hmem => hno h' (List.mem_cons_of_mem h hmem)

theorem styledAt_plain {index len : ℕ} (hno : ∀ h ∈ highlights, ¬h.range.Contains index) :
    StyledAt defaultStyle highlights index (defaultStyle.toRun len) where
  highlighted h hmem hcontains := absurd hcontains (hno h hmem)
  plain _ := rfl

theorem styledAt_highlight {h : Highlight} {index len : ℕ}
    (hin : HighlightsIn text (h :: highlights)) (hcontains : h.range.Contains index) :
    StyledAt defaultStyle (h :: highlights) index
      ((defaultStyle.highlight h.style).toRun len) where
  highlighted := by
    rintro h' hmem ⟨hstart, hlt⟩
    rcases List.mem_cons.mp hmem with rfl | hmem
    · rfl
    · have hstop := hin.stop_le_start h' hmem
      have hbefore := hcontains.2
      omega
  plain hno := absurd hcontains (hno h List.mem_cons_self)

theorem isCharBoundary_utf8Len (text : List Char) : isCharBoundary text (utf8Len text) := by
  have hsplit := splitAtByte_append text []
  rw [List.append_nil] at hsplit
  rw [isCharBoundary, hsplit]
  rfl

/-- The runs from the end of a highlight on. -/
theorem computeRunsFrom_spec (defaultStyle : TextStyle) (hin : HighlightsIn text highlights)
    {ix : ℕ} (hix : isCharBoundary text ix) (hstart : ∀ h ∈ highlights, ix ≤ h.range.start)
    (previous : List TextRun) :
    ∃ runs, computeRunsFrom text defaultStyle highlights ix previous = some (previous ++ runs) ∧
      RunsFrom text (StyledAt defaultStyle highlights) ix runs := by
  induction highlights generalizing ix previous with
  | nil =>
    rw [computeRunsFrom]
    have hle := le_of_isCharBoundary hix
    split_ifs with hlt
    · have hlen : ix + (defaultStyle.toRun (utf8Len text - ix)).len = utf8Len text :=
        Nat.add_sub_of_le hle
      refine ⟨_, rfl, .cons ?_ (fun index _ _ => styledAt_plain (by simp)) (.nil hlen)⟩
      rw [hlen]
      exact isCharBoundary_utf8Len text
    · exact ⟨[], by rw [List.append_nil], .nil (by omega)⟩
  | cons h highlights ih =>
    obtain ⟨hboundary, hboundary'⟩ := hin.boundary h List.mem_cons_self
    have hordered := hin.ordered h List.mem_cons_self
    have hle := hstart h List.mem_cons_self
    let run := (defaultStyle.highlight h.style).toRun (h.range.stop - h.range.start)
    have hlen : h.range.start + run.len = h.range.stop := Nat.add_sub_of_le hordered
    -- the highlight itself and what comes behind it
    have hhighlight (previous : List TextRun) :
        ∃ runs, computeRunsFrom text defaultStyle highlights h.range.stop (previous ++ [run]) =
            some (previous ++ run :: runs) ∧
          RunsFrom text (StyledAt defaultStyle (h :: highlights)) h.range.start (run :: runs) := by
      obtain ⟨runs, hruns, hfrom⟩ := ih hin.of_cons hboundary' hin.stop_le_start (previous ++ [run])
      refine ⟨runs, by rw [hruns, List.append_assoc, List.singleton_append], .cons ?_ ?_ ?_⟩
      · rwa [hlen]
      · intro index hfirst hlast
        exact styledAt_highlight hin ⟨hfirst, by omega⟩
      · rw [hlen]
        exact hfrom.imp fun index run hindex hstyled => hstyled.cons hindex
    rw [computeRunsFrom, if_neg (by simp [hboundary]), if_neg (by simp [hboundary'])]
    by_cases hgap : ix < h.range.start
    · let gap := defaultStyle.toRun (h.range.start - ix)
      have hgaplen : ix + gap.len = h.range.start := Nat.add_sub_of_le hle
      obtain ⟨runs, hruns, hfrom⟩ := hhighlight (previous ++ [gap])
      rw [if_pos hgap]
      refine ⟨gap :: run :: runs, ?_, .cons ?_ ?_ ?_⟩
      · exact hruns.trans (by rw [List.append_assoc, List.singleton_append])
      · rwa [hgaplen]
      · intro index _ hlast
        refine styledAt_plain fun h' hmem hcontains => ?_
        have hbefore := hcontains.1
        rcases List.mem_cons.mp hmem with rfl | hmem
        · omega
        · have hstop := hin.stop_le_start h' hmem
          omega
      · rwa [hgaplen]
    · have heq : ix = h.range.start := by omega
      obtain ⟨runs, hruns, hfrom⟩ := hhighlight previous
      rw [if_neg hgap]
      exact ⟨run :: runs, hruns, heq ▸ hfrom⟩

/-- A highlight that makes a text bold. -/
def boldStyle : HighlightStyle := { HighlightStyle.default with fontWeight := some ⟨700⟩ }

/-- The lengths of the runs add up to the length of the text, which consists of them, and each byte
is in a run with the style of its highlight. -/
theorem computeRuns_covers (defaultStyle : TextStyle) (hin : HighlightsIn text highlights) :
    ∃ runs, computeRuns text defaultStyle highlights = some runs ∧
      (runs.map TextRun.len).sum = utf8Len text ∧
      (∀ s : StyledText, s.text = text → s.withRuns runs = some { s with runs := some runs }) ∧
      ∀ index < utf8Len text, ∃ run, runAt runs index = some run ∧
        StyledAt defaultStyle highlights index run := by
  have hzero : isCharBoundary text 0 := by simp [isCharBoundary]
  obtain ⟨runs, hruns, hfrom⟩ :=
    computeRunsFrom_spec defaultStyle hin hzero (fun h _ => Nat.zero_le _) []
  refine ⟨runs, hruns, ?_, ?_, ?_⟩
  · rw [← hfrom.length, Nat.zero_add]
  · rintro s rfl
    rw [withRuns, hfrom.accepted [] s.text (splitAtByte_zero s.text)]
    rfl
  · intro index hindex
    exact hfrom.styled index (Nat.zero_le index) hindex

/-- The middle character of three is bold. -/
theorem computeRuns_covers_bold :
    ∃ runs, computeRuns ['a', 'é', 'b'] .default [⟨⟨1, 3⟩, boldStyle⟩] = some runs ∧
      (runs.map TextRun.len).sum = utf8Len ['a', 'é', 'b'] ∧
      (∀ s : StyledText, s.text = ['a', 'é', 'b'] →
        s.withRuns runs = some { s with runs := some runs }) ∧
      ∀ index < utf8Len ['a', 'é', 'b'], ∃ run, runAt runs index = some run ∧
        StyledAt .default [⟨⟨1, 3⟩, boldStyle⟩] index run :=
  computeRuns_covers .default ⟨by decide, by decide, by decide⟩

/-- A new text takes its highlights. -/
theorem withDefaultHighlights_new (defaultStyle : TextStyle) (hin : HighlightsIn text highlights) :
    ∃ runs, (new text).withDefaultHighlights defaultStyle highlights =
      some { new text with runs := some runs } := by
  have hzero : isCharBoundary text 0 := by simp [isCharBoundary]
  obtain ⟨runs, hruns, hfrom⟩ :=
    computeRunsFrom_spec defaultStyle hin hzero (fun h _ => Nat.zero_le _) []
  refine ⟨runs, ?_⟩
  have hcompute : computeRuns (new text).text defaultStyle highlights = some runs := hruns
  have hskip : skipRuns runs (new text).text = some [] :=
    hfrom.accepted [] text (splitAtByte_zero text)
  rw [withDefaultHighlights, hcompute, Option.bind_some, withRuns, hskip]
  rfl

end StyledText

end Lucie
