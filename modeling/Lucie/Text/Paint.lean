import Lucie.Style.HighlightStyle
import Lucie.Text.Layout

/-!
# Painting a line of text

A line is painted run by run, glyph by glyph. One counter numbers the glyphs of all runs, and
the truncation of the line says which of them are kept. The decorations of a run are painted
after its glyphs. The text engine places the runs and their glyphs within the layout.
-/

set_option autoImplicit false

namespace Lucie

/-- `Brush`. -/
structure Brush where
  color : Hsla ℚ
  backgroundColor : Option (Hsla ℚ)
  wavy : Bool
  deriving DecidableEq

/-- A decoration of a run, with its offset from the baseline and its size. -/
structure Decoration where
  brush : Brush
  offset : Option ℚ
  size : Option ℚ
  deriving DecidableEq

/-- The style of a run. -/
structure RunStyle where
  brush : Brush
  underline : Option Decoration
  strikethrough : Option Decoration
  deriving DecidableEq

/-- A glyph, at its position in the layout. Its box is what its advance takes of the line; the
code does not read it. -/
structure Glyph where
  id : ℕ
  x : ℚ
  y : ℚ
  advance : ℚ
  box : Bounds ℚ
  deriving DecidableEq

/-- The total advance of glyphs. -/
def totalAdvance (glyphs : List Glyph) : ℚ := (glyphs.map Glyph.advance).sum

/-- `GlyphRun`: glyphs that follow each other in one style, from `x` on and on the baseline `y`.
`R` is the data that the glyphs are rasterized with. A run has glyphs and is as wide as they
are together. -/
structure GlyphRun (R : Type) where
  data : R
  style : RunStyle
  x : ℚ
  y : ℚ
  width : ℚ
  glyphs : List Glyph
  glyphs_ne_nil : glyphs ≠ []
  width_eq : width = totalAdvance glyphs

/-- The layout of an affix, by the box of its line and its first run. -/
structure AffixLayout (R : Type) where
  width : ℚ
  top : ℚ
  lineHeight : ℚ
  run : Option (GlyphRun R)

/-- `Line`, with the metrics of its line. -/
structure Line (R : Type) where
  idx : ℕ
  advance : ℚ
  lineHeight : ℚ
  top : ℚ
  runs : List (GlyphRun R)
  truncation : Option (Truncation ℚ (AffixLayout R))

/-- A call of a `TextPainter`. The painter puts a glyph at its position from the origin. -/
inductive PaintOp (R : Type)
  | createLayer (bounds : Bounds ℚ)
  | paintGlyph (glyph : Glyph) (origin : Point ℚ) (data : R) (color : Hsla ℚ)
  | paintUnderline (origin : Point ℚ) (width : ℚ) (style : UnderlineStyle)
  | paintStrikethrough (origin : Point ℚ) (width : ℚ) (style : StrikethroughStyle)
  | paintBackground (bounds : Bounds ℚ) (background : Hsla ℚ)
  deriving DecidableEq

variable {R : Type}

namespace GlyphRun

/-- The call that paints a glyph of a run. -/
def paintGlyph (run : GlyphRun R) (origin : Point ℚ) (glyph : Glyph) : PaintOp R :=
  .paintGlyph glyph origin run.data run.style.brush.color

/-- The call that underlines a part of a run. -/
def paintUnderline (run : GlyphRun R) (origin : Point ℚ) (x width : ℚ) (underline : Decoration) :
    PaintOp R :=
  .paintUnderline ⟨origin.x + x, origin.y + (run.y - underline.offset.getD 0)⟩ width
    ⟨underline.size.getD 1, some underline.brush.color, underline.brush.wavy⟩

/-- The call that strikes a part of a run through. -/
def paintStrikethrough (run : GlyphRun R) (origin : Point ℚ) (x width : ℚ)
    (strikethrough : Decoration) : PaintOp R :=
  .paintStrikethrough ⟨origin.x + x, origin.y + (run.y - strikethrough.offset.getD 0)⟩ width
    ⟨strikethrough.size.getD 1, some strikethrough.brush.color⟩

/-- The calls for the decorations of a part of a run. -/
def paintDecorations (run : GlyphRun R) (origin : Point ℚ) (x width : ℚ) : List (PaintOp R) :=
  (run.style.underline.map (run.paintUnderline origin x width)).toList ++
    (run.style.strikethrough.map (run.paintStrikethrough origin x width)).toList

end GlyphRun

/-- What `Line::paint` has painted, and its variables. -/
structure PaintState (R : Type) where
  ops : List (PaintOp R)
  itemIdx : ℕ
  advance : ℚ
  truncated : Bool
  runRenderedAny : Bool

/-- Paint the next glyph. -/
def PaintState.paintGlyph (s : PaintState R) (run : GlyphRun R) (origin : Point ℚ)
    (glyph : Glyph) : PaintState R :=
  { s with
    ops := s.ops ++ [run.paintGlyph origin glyph]
    itemIdx := s.itemIdx + 1
    advance := s.advance + glyph.advance
    runRenderedAny := true }

namespace Line

/-- `is_start_truncation`. -/
def isStartTruncation (line : Line R) : Bool :=
  line.truncation.any fun t => t.truncateFrom = .fromStart

/-- The item of the truncation. -/
def item (line : Line R) : Option ℕ := line.truncation.bind (·.item)

/-- The loop of `Line::paint` over the glyphs of a run. It stops where the affix goes. -/
def paintGlyphs (line : Line R) (renderOrigin : Point ℚ) (run : GlyphRun R) :
    List Glyph → PaintState R → PaintState R
  | [], s => s
  | glyph :: glyphs, s =>
    if ¬line.isStartTruncation then
      if line.item.any (· = s.itemIdx) then { s with truncated := true }
      else line.paintGlyphs renderOrigin run glyphs (s.paintGlyph run renderOrigin glyph)
    else if line.item.any (s.itemIdx < ·) then
      line.paintGlyphs renderOrigin run glyphs { s with itemIdx := s.itemIdx + 1 }
    else line.paintGlyphs renderOrigin run glyphs (s.paintGlyph run renderOrigin glyph)

/-- The loop of `Line::paint` over the runs. -/
def paintRuns (line : Line R) (renderOrigin : Point ℚ) :
    List (GlyphRun R) → PaintState R → PaintState R
  | [], s => s
  | run :: runs, s =>
    let s := line.paintGlyphs renderOrigin run run.glyphs { s with runRenderedAny := false }
    if s.truncated then s
    else if ¬line.isStartTruncation ∨ s.runRenderedAny then
      line.paintRuns renderOrigin runs
        { s with ops := s.ops ++ run.paintDecorations renderOrigin run.x run.width }
    else line.paintRuns renderOrigin runs s

/-- The glyphs of the affix, from `x` on. -/
def paintAffix (line : Line R) (origin : Point ℚ) (x : ℚ) : List (PaintOp R) :=
  match line.truncation.bind (·.layout.run) with
  | none => []
  | some run =>
    run.glyphs.map (run.paintGlyph ⟨x, origin.y + line.lineHeight * line.idx⟩)

/-- The origin of what a line paints of its runs. -/
def renderOrigin (line : Line R) (origin : Point ℚ) : Point ℚ :=
  if line.isStartTruncation then
    ⟨origin.x + (line.truncation.elim 0 (·.layout.width)) -
      (line.truncation.elim 0 (·.startAdvance)), origin.y⟩
  else origin

/-- `Line::paint`, as long as the painter does not fail. -/
def paint (line : Line R) (origin : Point ℚ) : List (PaintOp R) :=
  let before :=
    if line.isStartTruncation ∧ line.item.isSome then line.paintAffix origin origin.x else []
  let s := line.paintRuns (line.renderOrigin origin) line.runs
    ⟨.createLayer ⟨origin, ⟨line.advance, line.lineHeight⟩⟩ :: before, 0, 0, false, false⟩
  if s.truncated then s.ops ++ line.paintAffix origin (origin.x + s.advance) else s.ops

/-! ## What is kept -/

/-- The glyphs that are kept of a part of the line that starts with the `n`-th glyph. -/
def kept (line : Line R) (n : ℕ) (glyphs : List Glyph) : List Glyph :=
  line.item.elim glyphs fun i =>
    if line.isStartTruncation then glyphs.drop (i - n) else glyphs.take (i - n)

/-- The runs, each with the number of its first glyph. -/
def numberedRuns : ℕ → List (GlyphRun R) → List (ℕ × GlyphRun R)
  | _, [] => []
  | n, run :: runs => (n, run) :: numberedRuns (n + run.glyphs.length) runs

/-- The line is cut before its `n`-th glyph from the end. -/
def endsBefore (line : Line R) (n : ℕ) : Bool :=
  !line.isStartTruncation && line.item.any (· < n)

/-- The decorations of a run are painted, from the `n`-th glyph on. -/
def decorates (line : Line R) (n : ℕ) (run : GlyphRun R) : Bool :=
  if line.isStartTruncation then !(line.kept n run.glyphs).isEmpty
  else !line.endsBefore (n + run.glyphs.length)

/-- What is painted of a run. -/
def paintRun (line : Line R) (renderOrigin : Point ℚ) (n : ℕ) (run : GlyphRun R) :
    List (PaintOp R) :=
  (line.kept n run.glyphs).map (run.paintGlyph renderOrigin) ++
    if line.decorates n run then run.paintDecorations renderOrigin run.x run.width else []

/-- All glyphs of the line. -/
def glyphs (line : Line R) : List Glyph := line.runs.flatMap GlyphRun.glyphs

/-- The affix that is painted before the runs. -/
def affixBefore (line : Line R) (origin : Point ℚ) : List (PaintOp R) :=
  if line.isStartTruncation ∧ line.item.isSome then line.paintAffix origin origin.x else []

/-- The affix that is painted after the glyphs that are kept. -/
def affixAfter (line : Line R) (origin : Point ℚ) : List (PaintOp R) :=
  if line.endsBefore line.glyphs.length then
    line.paintAffix origin (origin.x + totalAdvance (line.kept 0 line.glyphs))
  else []

variable {line : Line R} {renderOrigin : Point ℚ} {run : GlyphRun R}

@[simp] theorem kept_nil (n : ℕ) : line.kept n [] = [] := by
  rw [kept]
  cases line.item with
  | none => rfl
  | some i => simp

theorem kept_of_lt_item {n i : ℕ} (hstart : line.isStartTruncation = true)
    (hitem : line.item = some i) (hn : n < i) (glyph : Glyph) (glyphs : List Glyph) :
    line.kept n (glyph :: glyphs) = line.kept (n + 1) glyphs := by
  obtain ⟨k, rfl⟩ := Nat.exists_eq_add_of_lt hn
  have hk : n + k + 1 - n = k + 1 := by omega
  have hk' : n + k + 1 - (n + 1) = k := by omega
  simp only [kept, hitem, Option.elim_some, hstart, if_true, hk, hk', List.drop_succ_cons]

theorem kept_of_item_le {n : ℕ} (hstart : line.isStartTruncation = true)
    (hitem : ∀ i, line.item = some i → i ≤ n) (glyphs : List Glyph) :
    line.kept n glyphs = glyphs := by
  rw [kept]
  cases hi : line.item with
  | none => rfl
  | some i => simp [hstart, Nat.sub_eq_zero_of_le (hitem i hi)]

theorem kept_of_endsBefore {n : ℕ} (hend : line.isStartTruncation = false)
    (hn : ∀ i, line.item = some i → n < i) (glyph : Glyph) (glyphs : List Glyph) :
    line.kept n (glyph :: glyphs) = glyph :: line.kept (n + 1) glyphs := by
  rw [kept, kept]
  cases hi : line.item with
  | none => rfl
  | some i =>
    obtain ⟨k, rfl⟩ := Nat.exists_eq_add_of_lt (hn i hi)
    have hk : n + k + 1 - n = k + 1 := by omega
    have hk' : n + k + 1 - (n + 1) = k := by omega
    simp only [hend, Option.elim_some, Bool.false_eq_true, if_false, hk, hk', List.take_succ_cons]

theorem kept_at_item {n : ℕ} (hend : line.isStartTruncation = false)
    (hitem : ∃ i ≤ n, line.item = some i) (glyphs : List Glyph) : line.kept n glyphs = [] := by
  obtain ⟨i, hi, hitem⟩ := hitem
  simp [kept, hitem, hend, Nat.sub_eq_zero_of_le hi]

theorem endsBefore_iff {n : ℕ} : line.endsBefore n = true ↔
    line.isStartTruncation = false ∧ ∃ i < n, line.item = some i := by
  rw [endsBefore, Bool.and_eq_true, Bool.not_eq_true', Option.any_eq_true]
  refine and_congr_right fun _ => exists_congr fun i => ?_
  rw [decide_eq_true_iff, and_comm]

/-! ## What is painted -/

/-- The state of the loop after it has painted some glyphs of a run, up to a number. -/
def afterGlyphs (line : Line R) (renderOrigin : Point ℚ) (run : GlyphRun R)
    (glyphs : List Glyph) (s : PaintState R) : PaintState R where
  ops := s.ops ++ (line.kept s.itemIdx glyphs).map (run.paintGlyph renderOrigin)
  itemIdx := s.itemIdx +
    if line.isStartTruncation then glyphs.length else (line.kept s.itemIdx glyphs).length
  advance := s.advance + totalAdvance (line.kept s.itemIdx glyphs)
  truncated := s.truncated || line.endsBefore (s.itemIdx + glyphs.length)
  runRenderedAny := s.runRenderedAny || !(line.kept s.itemIdx glyphs).isEmpty

/-- Without a cut before them, one glyph is painted and the others follow. -/
theorem afterGlyphs_paintGlyph {s : PaintState R} {glyph : Glyph} {glyphs : List Glyph}
    (hkept : line.kept s.itemIdx (glyph :: glyphs) =
      glyph :: line.kept (s.itemIdx + 1) glyphs) :
    line.afterGlyphs renderOrigin run glyphs (s.paintGlyph run renderOrigin glyph) =
      line.afterGlyphs renderOrigin run (glyph :: glyphs) s := by
  have hlength : s.itemIdx + 1 + glyphs.length = s.itemIdx + (glyphs.length + 1) := by omega
  simp only [afterGlyphs, PaintState.paintGlyph, hkept, List.map_cons, List.append_assoc,
    List.singleton_append, List.length_cons, totalAdvance, List.sum_cons, List.isEmpty_cons,
    hlength, Bool.not_false, Bool.or_true, Bool.true_or, PaintState.mk.injEq, true_and, and_true]
  constructor
  · split <;> omega
  · rw [add_assoc]

theorem lt_item_of_endsBefore {n i : ℕ} (hend : line.isStartTruncation = false)
    (hbefore : line.endsBefore n = false) (hcut : line.item ≠ some n)
    (hitem : line.item = some i) : n < i := by
  have hne : i ≠ n := fun h => hcut (h ▸ hitem)
  have hle : ¬i < n := fun hlt =>
    Bool.false_ne_true (hbefore.symm.trans (endsBefore_iff.mpr ⟨hend, i, hlt, hitem⟩))
  omega

theorem endsBefore_succ {n : ℕ} (hend : line.isStartTruncation = false)
    (hbefore : line.endsBefore n = false) (hcut : line.item ≠ some n) :
    line.endsBefore (n + 1) = false := by
  rw [← Bool.not_eq_true, endsBefore_iff]
  rintro ⟨-, i, hlt, hi⟩
  have hlt' := lt_item_of_endsBefore hend hbefore hcut hi
  omega

/-- The loop over the glyphs of a run, from a number that is not after the cut at the end. -/
theorem paintGlyphs_eq (renderOrigin : Point ℚ) (run : GlyphRun R) (glyphs : List Glyph)
    {s : PaintState R}
    (hbefore : line.endsBefore s.itemIdx = false) :
    line.paintGlyphs renderOrigin run glyphs s =
      line.afterGlyphs renderOrigin run glyphs s := by
  induction glyphs generalizing s with
  | nil =>
    simp [paintGlyphs, afterGlyphs, totalAdvance, hbefore]
  | cons glyph glyphs ih =>
    rw [paintGlyphs]
    cases hstart : line.isStartTruncation with
    | false =>
      rw [if_pos Bool.false_ne_true]
      by_cases hcut : line.item = some s.itemIdx
      · have hkept := kept_at_item hstart ⟨s.itemIdx, le_rfl, hcut⟩ (glyph :: glyphs)
        have hends : line.endsBefore (s.itemIdx + (glyphs.length + 1)) = true :=
          endsBefore_iff.mpr ⟨hstart, s.itemIdx, by omega, hcut⟩
        simp [hcut, afterGlyphs, hkept, hends, hstart, totalAdvance]
      · have hitem : ∀ i, line.item = some i → s.itemIdx < i :=
          fun i => lt_item_of_endsBefore hstart hbefore hcut
        have hno : ¬line.item.any (· = s.itemIdx) = true := by
          rw [Option.any_eq_true]
          rintro ⟨i, hi, heq⟩
          exact (hitem i hi).ne' (of_decide_eq_true heq)
        rw [if_neg hno, ih (endsBefore_succ hstart hbefore hcut)]
        exact afterGlyphs_paintGlyph (kept_of_endsBefore hstart hitem glyph glyphs)
    | true =>
      rw [if_neg (not_not.mpr rfl)]
      have hends : ∀ n, line.endsBefore n = false := fun n => by simp [endsBefore, hstart]
      by_cases hcut : line.item.any (s.itemIdx < ·) = true
      · obtain ⟨i, hi, hlt⟩ := (Option.any_eq_true _ _).mp hcut
        have hkept := kept_of_lt_item hstart hi (of_decide_eq_true hlt) glyph glyphs
        rw [if_pos hcut, ih (hends _)]
        simp only [afterGlyphs, hkept, hstart, hends, if_true, List.length_cons,
          PaintState.mk.injEq, true_and, and_true]
        omega
      · have hitem : ∀ i, line.item = some i → i ≤ s.itemIdx := by
          intro i hi
          by_contra hlt
          exact hcut ((Option.any_eq_true _ _).mpr ⟨i, hi, decide_eq_true (by omega)⟩)
        rw [if_neg hcut, ih (hends _)]
        apply afterGlyphs_paintGlyph
        rw [kept_of_item_le hstart hitem,
          kept_of_item_le hstart fun i hi => (hitem i hi).trans (Nat.le_succ _)]

theorem kept_append (n : ℕ) (before after : List Glyph) :
    line.kept n (before ++ after) = line.kept n before ++ line.kept (n + before.length) after := by
  rw [kept, kept, kept]
  cases line.item with
  | none => rfl
  | some i =>
    simp only [Option.elim_some, Nat.sub_add_eq]
    split
    · rw [List.drop_append]
    · rw [List.take_append]

/-- A part that is not cut is kept. -/
theorem kept_eq_self {n : ℕ} {glyphs : List Glyph} (hend : line.isStartTruncation = false)
    (hbefore : line.endsBefore (n + glyphs.length) = false) : line.kept n glyphs = glyphs := by
  rw [kept]
  cases hi : line.item with
  | none => rfl
  | some i =>
    have hle : n + glyphs.length ≤ i := by
      by_contra hlt
      exact Bool.false_ne_true
        (hbefore.symm.trans (endsBefore_iff.mpr ⟨hend, i, by omega, hi⟩))
    simp only [Option.elim_some, hend, Bool.false_eq_true, if_false]
    exact List.take_of_length_le (by omega)

theorem endsBefore_mono {n n' : ℕ} (hle : n ≤ n') (h : line.endsBefore n = true) :
    line.endsBefore n' = true := by
  obtain ⟨hend, i, hlt, hi⟩ := endsBefore_iff.mp h
  exact endsBefore_iff.mpr ⟨hend, i, by omega, hi⟩

/-- Nothing is painted of the runs after the cut. -/
theorem flatMap_paintRun_of_endsBefore {n : ℕ} (h : line.endsBefore n = true)
    (runs : List (GlyphRun R)) :
    (numberedRuns n runs).flatMap (fun run => line.paintRun renderOrigin run.1 run.2) = [] := by
  induction runs generalizing n with
  | nil => rfl
  | cons run runs ih =>
    obtain ⟨hend, i, hlt, hi⟩ := endsBefore_iff.mp h
    have hkept := kept_at_item hend ⟨i, hlt.le, hi⟩ run.glyphs
    have hafter := endsBefore_mono (Nat.le_add_right n run.glyphs.length) h
    have hdecorates : line.decorates n run = false := by simp [decorates, hend, hafter]
    rw [numberedRuns, List.flatMap_cons, ih hafter]
    simp [paintRun, hkept, hdecorates]

/-- A run before the cut is painted, and the loop goes on behind it. -/
theorem exists_paintRuns_cons (renderOrigin : Point ℚ) (run : GlyphRun R)
    (runs : List (GlyphRun R)) {s : PaintState R} (hs : s.truncated = false)
    (hbefore : line.endsBefore s.itemIdx = false)
    (hafter : line.endsBefore (s.itemIdx + run.glyphs.length) = false) :
    ∃ s', line.paintRuns renderOrigin (run :: runs) s = line.paintRuns renderOrigin runs s' ∧
      s'.ops = s.ops ++ line.paintRun renderOrigin s.itemIdx run ∧
      s'.itemIdx = s.itemIdx + run.glyphs.length ∧
      s'.advance = s.advance + totalAdvance (line.kept s.itemIdx run.glyphs) ∧
      s'.truncated = false := by
  have hglyphs := paintGlyphs_eq renderOrigin run run.glyphs
    (s := { s with runRenderedAny := false }) hbefore
  rw [paintRuns, hglyphs]
  generalize hs' : line.afterGlyphs renderOrigin run run.glyphs
    { s with runRenderedAny := false } = s'
  have hops : s'.ops = s.ops ++
      (line.kept s.itemIdx run.glyphs).map (run.paintGlyph renderOrigin) := hs' ▸ rfl
  have hadvance : s'.advance = s.advance + totalAdvance (line.kept s.itemIdx run.glyphs) :=
    hs' ▸ rfl
  have htruncated : s'.truncated = false := by
    rw [← hs', afterGlyphs]
    simp only [hs, hafter, Bool.or_self]
  have hitemIdx : s'.itemIdx = s.itemIdx + run.glyphs.length := by
    rw [← hs', afterGlyphs]
    cases hstart : line.isStartTruncation with
    | true => rfl
    | false => simp only [Bool.false_eq_true, if_false, kept_eq_self hstart hafter]
  have hdecorates : line.decorates s.itemIdx run = true ↔
      ¬line.isStartTruncation = true ∨ s'.runRenderedAny = true := by
    rw [← hs', afterGlyphs, decorates]
    cases line.isStartTruncation <;> simp [hafter]
  rw [if_neg (by rw [htruncated]; exact Bool.false_ne_true)]
  by_cases hdec : ¬line.isStartTruncation = true ∨ s'.runRenderedAny = true
  · refine ⟨_, if_pos hdec, ?_, hitemIdx, hadvance, htruncated⟩
    rw [paintRun, if_pos (hdecorates.mpr hdec), ← List.append_assoc, ← hops]
  · refine ⟨_, if_neg hdec, ?_, hitemIdx, hadvance, htruncated⟩
    rw [paintRun, if_neg fun h => hdec (hdecorates.mp h), List.append_nil, hops]

/-- The loop ends with the run in which the cut is. -/
theorem paintRuns_cons_of_endsBefore (renderOrigin : Point ℚ) (run : GlyphRun R)
    (runs : List (GlyphRun R)) {s : PaintState R}
    (hbefore : line.endsBefore s.itemIdx = false)
    (hafter : line.endsBefore (s.itemIdx + run.glyphs.length) = true) :
    line.paintRuns renderOrigin (run :: runs) s =
      line.afterGlyphs renderOrigin run run.glyphs { s with runRenderedAny := false } := by
  have hglyphs := paintGlyphs_eq renderOrigin run run.glyphs
    (s := { s with runRenderedAny := false }) hbefore
  rw [paintRuns, hglyphs]
  have htruncated : (line.afterGlyphs renderOrigin run run.glyphs
      { s with runRenderedAny := false }).truncated = true := by
    rw [afterGlyphs]
    simp only [hafter, Bool.or_true]
  exact if_pos htruncated

/-- The loop over the runs, from a number that is not after the cut at the end. -/
theorem paintRuns_eq (line : Line R) (renderOrigin : Point ℚ) (runs : List (GlyphRun R))
    {s : PaintState R}
    (hbefore : line.endsBefore s.itemIdx = false) (hs : s.truncated = false) :
    (line.paintRuns renderOrigin runs s).ops = s.ops ++ (numberedRuns s.itemIdx runs).flatMap
        (fun run => line.paintRun renderOrigin run.1 run.2) ∧
      (line.paintRuns renderOrigin runs s).advance =
        s.advance + totalAdvance (line.kept s.itemIdx (runs.flatMap GlyphRun.glyphs)) ∧
      (line.paintRuns renderOrigin runs s).truncated =
        line.endsBefore (s.itemIdx + (runs.flatMap GlyphRun.glyphs).length) := by
  induction runs generalizing s with
  | nil => simp [paintRuns, numberedRuns, totalAdvance, hbefore, hs]
  | cons run runs ih =>
    simp only [numberedRuns, List.flatMap_cons, kept_append]
    cases hafter : line.endsBefore (s.itemIdx + run.glyphs.length) with
    | true =>
      obtain ⟨hend, i, hlt, hi⟩ := endsBefore_iff.mp hafter
      have hrest := kept_at_item hend ⟨i, hlt.le, hi⟩ (runs.flatMap GlyphRun.glyphs)
      have hdecorates : line.decorates s.itemIdx run = false := by simp [decorates, hend, hafter]
      have hlast : line.endsBefore (s.itemIdx + (run.glyphs ++
          runs.flatMap GlyphRun.glyphs).length) = true :=
        endsBefore_mono (by rw [List.length_append]; omega) hafter
      rw [paintRuns_cons_of_endsBefore renderOrigin run runs hbefore hafter,
        flatMap_paintRun_of_endsBefore hafter, hrest, hlast]
      simp [paintRun, afterGlyphs, hdecorates, hafter]
    | false =>
      obtain ⟨s', hnext, hops, hitemIdx, hadvance, hs'⟩ :=
        exists_paintRuns_cons renderOrigin run runs hs hbefore hafter
      obtain ⟨hops', hadvance', htruncated'⟩ := ih (hitemIdx ▸ hafter) hs'
      rw [hnext, hops', hadvance', htruncated']
      simp only [hops, hitemIdx, hadvance, totalAdvance, List.map_append, List.sum_append,
        List.append_assoc, List.length_append, add_assoc, and_self]

/-- A line opens a layer, and paints the affix on the side where it is cut and what is kept of
its runs. -/
theorem paint_eq (line : Line R) (origin : Point ℚ) :
    line.paint origin = .createLayer ⟨origin, ⟨line.advance, line.lineHeight⟩⟩ ::
      (line.affixBefore origin ++ ((numberedRuns 0 line.runs).flatMap fun run =>
        line.paintRun (line.renderOrigin origin) run.1 run.2) ++ line.affixAfter origin) := by
  have hbefore : line.endsBefore 0 = false := by
    rw [← Bool.not_eq_true, endsBefore_iff]
    rintro ⟨-, i, hlt, -⟩
    omega
  obtain ⟨hops, hadvance, htruncated⟩ := paintRuns_eq line (line.renderOrigin origin) line.runs
    (s := ⟨.createLayer ⟨origin, ⟨line.advance, line.lineHeight⟩⟩ :: line.affixBefore origin, 0, 0,
      false, false⟩) hbefore rfl
  rw [zero_add, ← glyphs] at hadvance htruncated
  have hpaint : line.paint origin =
      let s := line.paintRuns (line.renderOrigin origin) line.runs
        ⟨.createLayer ⟨origin, ⟨line.advance, line.lineHeight⟩⟩ :: line.affixBefore origin, 0, 0,
          false, false⟩
      if s.truncated then s.ops ++ line.paintAffix origin (origin.x + s.advance) else s.ops := rfl
  simp only [hpaint, affixAfter, hops, hadvance, htruncated]
  split
  · simp only [List.cons_append, List.append_assoc]
  · simp only [List.cons_append, List.append_nil]

end Line

end Lucie
