import Lucie.Text.Decorations
import Lucie.Text.Truncated

/-!
# The layer of a line

A line opens a layer with its own size at the origin of the paragraph. What it paints is at the
place of the line in the layout, so only a line at the top left of the layout stays inside.
-/

set_option autoImplicit false

namespace Lucie

namespace Bounds

/-- A rectangle, moved. -/
def translate (b : Bounds ℚ) (p : Point ℚ) : Bounds ℚ :=
  ⟨⟨b.origin.x + p.x, b.origin.y + p.y⟩, b.size⟩

variable {b c : Bounds ℚ}

theorem translate_translate (b : Bounds ℚ) (p q : Point ℚ) :
    (b.translate p).translate q = b.translate ⟨p.x + q.x, p.y + q.y⟩ := by
  simp only [translate, add_assoc]

/-- A rectangle covers another one wherever both are moved. -/
theorem covers_translate_iff (p : Point ℚ) :
    (b.translate p).Covers (c.translate p) ↔ b.Covers c := by
  constructor
  · rintro ⟨hleft, htop, hright, hbottom⟩
    simp only [translate, bottomRight] at hleft htop hright hbottom
    exact ⟨by linarith, by linarith, by simp only [bottomRight]; linarith,
      by simp only [bottomRight]; linarith⟩
  · rintro ⟨hleft, htop, hright, hbottom⟩
    simp only [bottomRight] at hright hbottom
    exact ⟨by simp only [translate]; linarith, by simp only [translate]; linarith,
      by simp only [translate, bottomRight]; linarith,
      by simp only [translate, bottomRight]; linarith⟩

end Bounds

variable {R : Type}

/-- The box of what a call paints: of a glyph, an underline or a strikethrough. -/
def PaintOp.box (scale : ℚ) : PaintOp R → Option (Bounds ℚ)
  | .paintGlyph glyph origin _ _ => some (glyph.box.translate origin)
  | .paintUnderline origin width style =>
    some ⟨origin, ⟨width, (if style.wavy then style.thickness * 3 else style.thickness) * scale⟩⟩
  | .paintStrikethrough origin width style => some ⟨origin, ⟨width, style.thickness * scale⟩⟩
  | _ => none

/-- Glyphs follow each other from the left, in boxes of one height. -/
def Tiles (top height : ℚ) : ℚ → List Glyph → Prop
  | _, [] => True
  | left, glyph :: glyphs => glyph.box = ⟨⟨left, top⟩, ⟨glyph.advance, height⟩⟩ ∧
    0 ≤ glyph.advance ∧ Tiles top height (left + glyph.advance) glyphs

namespace Tiles

variable {top height left : ℚ} {glyphs before after : List Glyph}

theorem append_iff : Tiles top height left (before ++ after) ↔
    Tiles top height left before ∧ Tiles top height (left + totalAdvance before) after := by
  induction before generalizing left with
  | nil => simp [Tiles, totalAdvance]
  | cons glyph before ih =>
    simp only [List.cons_append, Tiles, ih, totalAdvance, List.map_cons, List.sum_cons, add_assoc,
      and_assoc]

theorem totalAdvance_nonneg (h : Tiles top height left glyphs) : 0 ≤ totalAdvance glyphs := by
  induction glyphs generalizing left with
  | nil => exact le_refl 0
  | cons glyph glyphs ih =>
    have hrest := ih h.2.2
    have hadvance := h.2.1
    rw [totalAdvance] at hrest ⊢
    rw [List.map_cons, List.sum_cons]
    linarith

/-- All boxes are inside a rectangle exactly if the box of them all is. -/
theorem forall_covers_iff (h : Tiles top height left glyphs) (hne : glyphs ≠ [])
    (outer : Bounds ℚ) (p : Point ℚ) :
    (∀ glyph ∈ glyphs, outer.Covers (glyph.box.translate p)) ↔
      outer.Covers ⟨⟨left + p.x, top + p.y⟩, ⟨totalAdvance glyphs, height⟩⟩ := by
  induction glyphs generalizing left with
  | nil => exact absurd rfl hne
  | cons glyph glyphs ih =>
    obtain ⟨hbox, hadvance, htiles⟩ := h
    rw [List.forall_mem_cons, hbox, Bounds.translate]
    have htotal : totalAdvance (glyph :: glyphs) = glyph.advance + totalAdvance glyphs := by
      rw [totalAdvance, totalAdvance, List.map_cons, List.sum_cons]
    rcases eq_or_ne glyphs [] with rfl | hrest
    · rw [htotal, totalAdvance, List.map_nil, List.sum_nil, add_zero]
      exact and_iff_left fun _ h => absurd h List.not_mem_nil
    · have hnonneg := htiles.totalAdvance_nonneg
      rw [ih htiles hrest, htotal]
      constructor
      · rintro ⟨hfirst, hlast⟩
        have hright := hlast.right
        have hbottom := hfirst.bottom
        simp only [Bounds.bottomRight] at hright hbottom ⊢
        exact ⟨hfirst.left, hfirst.top, by simp only [Bounds.bottomRight]; linarith,
          by simp only [Bounds.bottomRight]; linarith⟩
      · rintro ⟨hleft, htop, hright, hbottom⟩
        simp only [Bounds.bottomRight] at hleft htop hright hbottom
        constructor <;> refine ⟨?_, ?_, ?_, ?_⟩ <;> simp only [Bounds.bottomRight] <;> linarith

end Tiles

/-- The height of an underline. -/
def Decoration.underlineHeight (d : Decoration) (scale : ℚ) : ℚ :=
  (if d.brush.wavy then d.size.getD 1 * 3 else d.size.getD 1) * scale

/-- The height of a strikethrough. -/
def Decoration.strikethroughHeight (d : Decoration) (scale : ℚ) : ℚ := d.size.getD 1 * scale

/-- The place of a decoration of a run in the layout. -/
def GlyphRun.decorationBox (run : GlyphRun R) (d : Decoration) (height : ℚ) : Bounds ℚ :=
  ⟨⟨run.x, run.y - d.offset.getD 0⟩, ⟨run.width, height⟩⟩

namespace Line

/-- A line paints inside the layer that it opens. -/
def PaintsInside (line : Line R) (scale : ℚ) (origin : Point ℚ) : Prop :=
  ∃ layer ops, line.paint origin = .createLayer layer :: ops ∧
    ∀ op ∈ ops, ∀ box ∈ op.box scale, layer.Covers box

/-- The text engine has laid the glyphs of the line out from `left` on, one after another, and
the affix as well. -/
structure LaidOut (line : Line R) (left : ℚ) : Prop where
  glyphs : Tiles line.top line.lineHeight left line.glyphs
  affix : ∀ t ∈ line.truncation, ∀ run ∈ t.layout.run,
    Tiles t.layout.top t.layout.lineHeight run.x run.glyphs

/-- How far a line that is cut from the start moves, to make room for the affix. -/
def shift (line : Line R) : ℚ :=
  if line.isStartTruncation then
    line.truncation.elim 0 (·.layout.width) - line.truncation.elim 0 (·.startAdvance)
  else 0

/-- The size of the line at the top left of the layout. -/
def atTopLeft (line : Line R) : Bounds ℚ := ⟨⟨0, 0⟩, ⟨line.advance, line.lineHeight⟩⟩

/-- The affix is inside the layer, if it goes to `x`. -/
def AffixInside (line : Line R) (x : ℚ) : Prop :=
  ∀ t ∈ line.truncation, ∀ run ∈ t.layout.run, line.atTopLeft.Covers
    ⟨⟨run.x + x, t.layout.top + line.lineHeight * line.idx⟩, ⟨run.width, t.layout.lineHeight⟩⟩

/-- The line is the first one of its layout, and what is kept of it starts at the left edge of the
layout or after it and ends within the advance of the line. The decorations and the affix are
within the height of a line at the top. -/
structure StaysInside (line : Line R) (scale left : ℚ) : Prop where
  glyphs : line.kept 0 line.glyphs ≠ [] → line.top = 0 ∧
    0 ≤ left + totalAdvance (line.cutBefore 0 line.glyphs) + line.shift ∧
    left + totalAdvance (line.cutBefore 0 line.glyphs) + line.shift +
      totalAdvance (line.kept 0 line.glyphs) ≤ line.advance
  underlines : ∀ run ∈ numberedRuns 0 line.runs, line.decorates run.1 run.2 = true →
    ∀ d ∈ run.2.style.underline, line.atTopLeft.Covers
      ((run.2.decorationBox d (d.underlineHeight scale)).translate ⟨line.shift, 0⟩)
  strikethroughs : ∀ run ∈ numberedRuns 0 line.runs, line.decorates run.1 run.2 = true →
    ∀ d ∈ run.2.style.strikethrough, line.atTopLeft.Covers
      ((run.2.decorationBox d (d.strikethroughHeight scale)).translate ⟨line.shift, 0⟩)
  affix : line.paintsAffix = true →
    line.AffixInside (if line.isStartTruncation then 0 else totalAdvance (line.kept 0 line.glyphs))

variable {line : Line R} {scale left : ℚ} {origin : Point ℚ}

theorem renderOrigin_eq (line : Line R) (origin : Point ℚ) :
    line.renderOrigin origin = ⟨line.shift + origin.x, 0 + origin.y⟩ := by
  rw [renderOrigin, shift]
  split
  · rw [zero_add, add_comm _ origin.x, add_sub_assoc]
  · rw [zero_add, zero_add]

theorem atTopLeft_translate : line.atTopLeft.translate origin =
    ⟨origin, ⟨line.advance, line.lineHeight⟩⟩ := by
  rw [atTopLeft, Bounds.translate, zero_add, zero_add]

/-- A line that is neither truncated nor decorated stays inside exactly if it is the first one
and its alignment does not move it. -/
theorem staysInside_iff_of_plain (htruncation : line.truncation = none)
    (hplain : ∀ run ∈ numberedRuns 0 line.runs,
      run.2.style.underline = none ∧ run.2.style.strikethrough = none)
    (hadvance : line.advance = totalAdvance line.glyphs) :
    line.StaysInside scale left ↔ (line.glyphs ≠ [] → line.top = 0 ∧ left = 0) := by
  have hitem : line.item = none := by rw [item, htruncation, Option.bind_none]
  have hstart : line.isStartTruncation = false := by
    rw [isStartTruncation, htruncation, Option.any_none]
  have hkept := kept_zero_none hitem line.glyphs
  have hcut : line.cutBefore 0 line.glyphs = [] := cutBefore_of_end hstart line.glyphs
  have hshift : line.shift = 0 := by rw [shift, hstart, if_neg Bool.false_ne_true]
  have hzero : totalAdvance [] = 0 := by rw [totalAdvance, List.map_nil, List.sum_nil]
  constructor
  · intro h hne
    have hglyphs := h.glyphs (hkept.symm ▸ hne)
    rw [hkept, hcut, hshift, hzero, hadvance] at hglyphs
    exact ⟨hglyphs.1, by linarith⟩
  · intro h
    refine ⟨fun hne => ?_, fun run hrun _ d hd => ?_, fun run hrun _ d hd => ?_, fun hpaints => ?_⟩
    · rw [hkept] at hne
      rw [hkept, hcut, hshift, hzero, hadvance, (h hne).2]
      exact ⟨(h hne).1, by linarith, by linarith⟩
    · rw [(hplain run hrun).1] at hd
      cases hd
    · rw [(hplain run hrun).2] at hd
      cases hd
    · rw [paintsAffix_of_item_none hitem] at hpaints
      cases hpaints

/-! ## The affix -/

theorem covers_paintAffix_iff (h : line.LaidOut left) (origin : Point ℚ) (scale x : ℚ) :
    (∀ op ∈ line.paintAffix origin (origin.x + x), ∀ box ∈ op.box scale,
        (line.atTopLeft.translate origin).Covers box) ↔ line.AffixInside x := by
  rw [paintAffix, AffixInside]
  cases htruncation : line.truncation with
  | none => simp
  | some t =>
    cases hrun : t.layout.run with
    | none => simp [hrun]
    | some run =>
      have htiles := h.affix t htruncation run hrun
      have hiff := htiles.forall_covers_iff run.glyphs_ne_nil line.atTopLeft
        ⟨x, line.lineHeight * line.idx⟩
      simp only [Option.bind_some, hrun, List.forall_mem_map, GlyphRun.paintGlyph, PaintOp.box,
        Option.mem_some_iff, forall_eq', run.width_eq, ← hiff]
      refine forall₂_congr fun glyph _ => ?_
      have hmove := Bounds.covers_translate_iff (b := line.atTopLeft)
        (c := glyph.box.translate ⟨x, line.lineHeight * line.idx⟩) origin
      rw [← hmove, Bounds.translate_translate, add_comm origin.x, add_comm origin.y]

theorem forall_affixBefore_iff (h : line.LaidOut left) :
    (∀ op ∈ line.affixBefore origin, ∀ box ∈ op.box scale,
        (line.atTopLeft.translate origin).Covers box) ↔
      (line.isStartTruncation = true ∧ line.item.isSome = true → line.AffixInside 0) := by
  rw [affixBefore, ← covers_paintAffix_iff h origin scale, add_zero]
  split
  · rename_i hpaints
    rw [imp_iff_right hpaints]
  · rename_i hpaints
    simp [hpaints]

theorem forall_affixAfter_iff (h : line.LaidOut left) :
    (∀ op ∈ line.affixAfter origin, ∀ box ∈ op.box scale,
        (line.atTopLeft.translate origin).Covers box) ↔
      (line.endsBefore line.glyphs.length = true →
        line.AffixInside (totalAdvance (line.kept 0 line.glyphs))) := by
  rw [affixAfter, ← covers_paintAffix_iff h origin scale]
  split
  · rename_i hpaints
    rw [imp_iff_right hpaints]
  · rename_i hpaints
    simp [hpaints]

/-! ## The runs -/

theorem flatMap_kept (line : Line R) (runs : List (GlyphRun R)) (n : ℕ) :
    ((numberedRuns n runs).flatMap fun run => line.kept run.1 run.2.glyphs) =
      line.kept n (runs.flatMap GlyphRun.glyphs) := by
  induction runs generalizing n with
  | nil => rw [numberedRuns, List.flatMap_nil, List.flatMap_nil, kept_nil]
  | cons run runs ih =>
    rw [numberedRuns, List.flatMap_cons, List.flatMap_cons, kept_append, ih]

/-- What is kept of a line follows what is cut before it. -/
theorem tiles_kept (h : line.LaidOut left) :
    Tiles line.top line.lineHeight (left + totalAdvance (line.cutBefore 0 line.glyphs))
      (line.kept 0 line.glyphs) := by
  cases hstart : line.isStartTruncation with
  | true =>
    have hglyphs := h.glyphs
    rw [← cutBefore_append_kept (n := 0) hstart line.glyphs, Tiles.append_iff] at hglyphs
    exact hglyphs.2
  | false =>
    rw [cutBefore_of_end hstart, totalAdvance, List.map_nil, List.sum_nil, add_zero, kept]
    cases line.item with
    | none => exact h.glyphs
    | some i =>
      have hglyphs := h.glyphs
      rw [← List.take_append_drop i line.glyphs, Tiles.append_iff] at hglyphs
      simpa [hstart] using hglyphs.1

theorem forall_kept_iff (h : line.LaidOut left) :
    (∀ glyph ∈ line.kept 0 line.glyphs, (line.atTopLeft.translate origin).Covers
        (glyph.box.translate (line.renderOrigin origin))) ↔
      (line.kept 0 line.glyphs ≠ [] → line.top = 0 ∧
        0 ≤ left + totalAdvance (line.cutBefore 0 line.glyphs) + line.shift ∧
        left + totalAdvance (line.cutBefore 0 line.glyphs) + line.shift +
          totalAdvance (line.kept 0 line.glyphs) ≤ line.advance) := by
  by_cases hkept : line.kept 0 line.glyphs = []
  · simp [hkept]
  · have hiff := (tiles_kept h).forall_covers_iff hkept line.atTopLeft ⟨line.shift, 0⟩
    have hmove : ∀ glyph : Glyph, (line.atTopLeft.translate origin).Covers
        (glyph.box.translate (line.renderOrigin origin)) ↔
          line.atTopLeft.Covers (glyph.box.translate ⟨line.shift, 0⟩) := by
      intro glyph
      have hmove := Bounds.covers_translate_iff (b := line.atTopLeft)
        (c := glyph.box.translate ⟨line.shift, 0⟩) origin
      rw [← hmove, Bounds.translate_translate, renderOrigin_eq]
    rw [forall₂_congr fun glyph _ => hmove glyph, hiff, imp_iff_right hkept, atTopLeft]
    constructor
    · rintro ⟨hleft, htop, hright, hbottom⟩
      simp only [Bounds.bottomRight] at hleft htop hright hbottom
      exact ⟨by linarith, by linarith, by linarith⟩
    · rintro ⟨htop, hleft, hright⟩
      refine ⟨?_, ?_, ?_, ?_⟩ <;> simp only [Bounds.bottomRight] <;> linarith

theorem forall_decoration_iff {D : Type} (line : Line R) (scale : ℚ) (origin : Point ℚ)
    {paint : GlyphRun R → ℚ → ℚ → D → PaintOp R} (style : GlyphRun R → Option D)
    {place : GlyphRun R → D → Bounds ℚ} (run : ℕ × GlyphRun R)
    (hbox : ∀ run d, (paint run run.x run.width d).box scale =
      some (((place run d).translate ⟨line.shift, 0⟩).translate origin)) :
    (∀ op ∈ line.decoration paint style run, ∀ box ∈ op.box scale,
        (line.atTopLeft.translate origin).Covers box) ↔
      (line.decorates run.1 run.2 = true → ∀ d ∈ style run.2,
        line.atTopLeft.Covers ((place run.2 d).translate ⟨line.shift, 0⟩)) := by
  rw [decoration]
  split
  · rename_i hdecorates
    rw [imp_iff_right hdecorates]
    cases style run.2 with
    | none => simp
    | some d => simp [hbox, Bounds.covers_translate_iff]
  · rename_i hdecorates
    simp [hdecorates]

theorem box_paintUnderline (run : GlyphRun R) (d : Decoration) :
    (run.paintUnderline (line.renderOrigin origin) run.x run.width d).box scale =
      some (((run.decorationBox d (d.underlineHeight scale)).translate ⟨line.shift, 0⟩).translate
        origin) := by
  rw [GlyphRun.paintUnderline, renderOrigin_eq]
  simp only [PaintOp.box, GlyphRun.decorationBox, Decoration.underlineHeight, Bounds.translate]
  congr 3 <;> ring

theorem box_paintStrikethrough (run : GlyphRun R) (d : Decoration) :
    (run.paintStrikethrough (line.renderOrigin origin) run.x run.width d).box scale =
      some (((run.decorationBox d (d.strikethroughHeight scale)).translate
        ⟨line.shift, 0⟩).translate origin) := by
  rw [GlyphRun.paintStrikethrough, renderOrigin_eq]
  simp only [PaintOp.box, GlyphRun.decorationBox, Decoration.strikethroughHeight,
    Bounds.translate]
  congr 3 <;> ring

/-- A run is inside if its kept glyphs and its decorations are. -/
theorem forall_paintRun_iff (line : Line R) (scale : ℚ) (origin : Point ℚ)
    (run : ℕ × GlyphRun R) :
    (∀ op ∈ line.paintRun (line.renderOrigin origin) run.1 run.2, ∀ box ∈ op.box scale,
        (line.atTopLeft.translate origin).Covers box) ↔
      (∀ glyph ∈ line.kept run.1 run.2.glyphs, (line.atTopLeft.translate origin).Covers
        (glyph.box.translate (line.renderOrigin origin))) ∧
      (line.decorates run.1 run.2 = true → ∀ d ∈ run.2.style.underline, line.atTopLeft.Covers
        ((run.2.decorationBox d (d.underlineHeight scale)).translate ⟨line.shift, 0⟩)) ∧
      (line.decorates run.1 run.2 = true → ∀ d ∈ run.2.style.strikethrough, line.atTopLeft.Covers
        ((run.2.decorationBox d (d.strikethroughHeight scale)).translate ⟨line.shift, 0⟩)) := by
  have hunderline := forall_decoration_iff line scale origin (·.style.underline) run
    box_paintUnderline
  have hstrikethrough := forall_decoration_iff line scale origin (·.style.strikethrough) run
    box_paintStrikethrough
  rw [paintRun_eq, List.forall_mem_append, List.forall_mem_append, hunderline, hstrikethrough,
    List.forall_mem_map]
  simp [GlyphRun.paintGlyph, PaintOp.box]

/-- The affix is painted on one side only. -/
theorem affixInside_iff (line : Line R) :
    ((line.isStartTruncation = true ∧ line.item.isSome = true → line.AffixInside 0) ∧
      (line.endsBefore line.glyphs.length = true →
        line.AffixInside (totalAdvance (line.kept 0 line.glyphs)))) ↔
      (line.paintsAffix = true → line.AffixInside
        (if line.isStartTruncation then 0 else totalAdvance (line.kept 0 line.glyphs))) := by
  rw [paintsAffix]
  cases hstart : line.isStartTruncation with
  | true =>
    have hends : line.endsBefore line.glyphs.length = false := by simp [endsBefore, hstart]
    simp [hends]
  | false => simp

/-- A line of one glyph, two wide and one high, at a place in the layout. -/
def singleGlyph (left top : ℚ) : Line Unit where
  idx := 0
  advance := 2
  lineHeight := 1
  top := top
  runs :=
    [{ data := ()
       style := ⟨⟨⟨0, 0, 0, 1⟩, none, false⟩, none, none⟩
       x := left
       y := top + 1
       width := 2
       glyphs := [⟨0, left, top + 1, 2, ⟨⟨left, top⟩, ⟨2, 1⟩⟩⟩]
       glyphs_ne_nil := by simp
       width_eq := by simp [totalAdvance] }]
  truncation := none

theorem laidOut_singleGlyph (left top : ℚ) : (singleGlyph left top).LaidOut left where
  glyphs := ⟨rfl, by norm_num [singleGlyph], trivial⟩
  affix t ht := by cases ht

end Line

end Lucie
