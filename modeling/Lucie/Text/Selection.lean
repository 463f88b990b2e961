import Lucie.Text.CharacterHits
import Lucie.Text.LineForOffset
import Lucie.Text.SelectedLine

/-!
# The rectangles of a selection

A selection is drawn line by line, from the line of one of its cursors to that of the other. The
lines between are drawn as a whole.
-/

set_option autoImplicit false

namespace Lucie.Selection

open Foundation

/-- The lines of a layout, and the height at which `Cursor::position` finds a cursor. -/
structure SelectableLayout where
  lines : List SelectableLine
  cursorTop : TextCursor → ℚ

namespace SelectableLayout

/-- `Cursor::line`. -/
def lineOf (layout : SelectableLayout) (cursor : TextCursor) : Option ℕ :=
  Layout.lineForOffset (layout.lines.map fun line => ⟨line.blockMinCoord, line.blockMaxCoord⟩)
    (layout.cursorTop cursor)

/-- One round of the loop over the lines from `first` to `last`. -/
def lineGeometry (layout : SelectableLayout) (range : TextRange) (first last ix : ℕ) :
    List (Bounds ℚ × ℕ) :=
  match layout.lines[ix]? with
  | none => []
  | some line =>
    if ix = first ∨ ix = last then (line.edgeRects range (ix = last)).map (·, ix)
    else [(line.wholeRect, ix)]

/-- `Selection::geometry_with`, of a selection from `start` to `stop`. -/
def geometryBetween (layout : SelectableLayout) (start stop : TextCursor) :
    List (Bounds ℚ × ℕ) :=
  let first := (layout.lineOf start).getD 0
  let last := (layout.lineOf stop).getD (layout.lines.length + 1)
  (List.range' first (last + 1 - first)).flatMap
    (layout.lineGeometry ⟨start.index, stop.index⟩ first last)

/-- `Selection::geometry_with`. -/
def geometryWith (layout : SelectableLayout) (anchor focus : TextCursor) :
    List (Bounds ℚ × ℕ) :=
  if anchor.index = focus.index then []
  else if anchor.index > focus.index then layout.geometryBetween focus anchor
  else layout.geometryBetween anchor focus

end SelectableLayout

/-! ## The lines of a selection -/

/-- The search finds a line at its top. -/
theorem lineForOffset_top {extents : List (LineExtent ℚ)} (h : Layout.Contiguous extents) {ix : ℕ}
    {extent : LineExtent ℚ} (hextent : extents[ix]? = some extent)
    (hhigh : extent.blockMinCoord < extent.blockMaxCoord) :
    Layout.lineForOffset extents extent.blockMinCoord = some ix := by
  have hne : extents ≠ [] := List.ne_nil_of_mem (List.mem_of_getElem? hextent)
  have hpos := List.length_pos_iff.mpr hne
  have htop : extents[0].blockMinCoord = 0 :=
    h.first _ (by rw [List.head?_eq_getElem?, List.getElem?_eq_getElem hpos]; rfl)
  have hoffset : 0 ≤ extent.blockMinCoord := by
    rw [← htop]
    exact h.blockMin_le (Nat.zero_le ix) (List.getElem?_eq_getElem hpos) hextent
  obtain ⟨index, hsearch, hinv⟩ := h.searchLines_spec (h.searchInvariant hne hoffset)
  have hline := List.getElem?_eq_getElem hinv.le_length
  have hindex : index = ix := by
    rcases Nat.lt_trichotomy index ix with hlt | heq | hlt
    · exact absurd (hinv.lt_behind ix extent hlt hextent) (lt_irrefl _)
    · exact heq
    · have hbefore := (h.blockMax_le hlt hextent hline).trans (hinv.base_le _ hline)
      exact absurd hhigh (not_lt.mpr hbefore)
  subst hindex
  have hcmp : extent.cmp extent.blockMinCoord = .eq := by
    rw [LineExtent.cmp, if_neg (lt_irrefl _), if_neg (not_le.mpr hhigh)]
  rw [Layout.lineForOffset, if_neg (not_lt.mpr hoffset), if_neg hpos.ne', hsearch,
    Option.bind_eq_bind, Option.bind_some, hextent, Option.bind_eq_bind, Option.bind_some, hcmp]
  rfl

namespace SelectableLayout

/-- A selection draws a rectangle of a line over a place. -/
def Highlights (layout : SelectableLayout) (anchor focus : TextCursor) (ix : ℕ) (x : ℚ) : Prop :=
  ∃ bounds, (bounds, ix) ∈ layout.geometryWith anchor focus ∧ SpansX bounds x

/-- What is right for a layout. -/
structure LaidOut (layout : SelectableLayout) : Prop where
  lines : ∀ line ∈ layout.lines, line.LaidOut
  contiguous : Layout.Contiguous (layout.lines.map fun line =>
    (⟨line.blockMinCoord, line.blockMaxCoord⟩ : LineExtent ℚ))

/-- A cursor is at the top of a line: the clusters of the lines above are before it, those of the
lines below are not. -/
structure StandsOn (layout : SelectableLayout) (cursor : TextCursor) (ix : ℕ) : Prop where
  top : ∃ line, layout.lines[ix]? = some line ∧ layout.cursorTop cursor = line.blockMinCoord
  above : ∀ i line, i < ix → layout.lines[i]? = some line →
    ∀ cell ∈ line.cells, cell.cluster.start < cursor.index
  below : ∀ i line, ix < i → layout.lines[i]? = some line →
    ∀ cell ∈ line.cells, cursor.index ≤ cell.cluster.start

variable {layout : SelectableLayout} {cursor start stop anchor focus : TextCursor}

/-- The search finds the line of a cursor. -/
theorem StandsOn.lineOf {ix : ℕ} (h : layout.StandsOn cursor ix) (hlaid : layout.LaidOut) :
    layout.lineOf cursor = some ix := by
  obtain ⟨line, hline, htop⟩ := h.top
  have hextent : (layout.lines.map fun line =>
      (⟨line.blockMinCoord, line.blockMaxCoord⟩ : LineExtent ℚ))[ix]? =
        some ⟨line.blockMinCoord, line.blockMaxCoord⟩ := by
    rw [List.getElem?_map, hline]
    rfl
  rw [SelectableLayout.lineOf, htop]
  exact lineForOffset_top hlaid.contiguous hextent
    (hlaid.lines line (List.mem_of_getElem? hline)).high

/-- The selection from the line `first` to the line `last` draws over a place of a line. -/
def DrawnOver (line : SelectableLine) (range : TextRange) (first last ix : ℕ) (x : ℚ) : Prop :=
  first ≤ ix ∧ ix ≤ last ∧
    if ix = first ∨ ix = last then
      line.InSelected range x ∨ line.DrawsNewline range (ix = last) ∧ line.cellsRight ≤ x ∧
        x < line.cellsRight + line.newlineWhitespace
    else line.left ≤ x ∧ x < line.left + (line.advance + line.newlineWhitespace)

theorem mem_lineGeometry {range : TextRange} {first last ix : ℕ} {rect : Bounds ℚ × ℕ} :
    rect ∈ layout.lineGeometry range first last ix ↔ rect.2 = ix ∧
      ∃ line, layout.lines[ix]? = some line ∧
        if ix = first ∨ ix = last then rect.1 ∈ line.edgeRects range (ix = last)
        else rect.1 = line.wholeRect := by
  obtain ⟨bounds, i⟩ := rect
  unfold lineGeometry
  cases layout.lines[ix]? with
  | none => simp
  | some line =>
    dsimp only
    split_ifs
    · simp only [List.mem_map, Prod.mk.injEq, Option.some.injEq, exists_eq_left']
      constructor
      · rintro ⟨b, hb, rfl, rfl⟩
        exact ⟨rfl, hb⟩
      · rintro ⟨rfl, hb⟩
        exact ⟨bounds, hb, rfl, rfl⟩
    · simp only [List.mem_singleton, Prod.mk.injEq, Option.some.injEq, exists_eq_left']
      exact and_comm

theorem mem_geometryBetween {first last : ℕ} (hstart : layout.lineOf start = some first)
    (hstop : layout.lineOf stop = some last) {bounds : Bounds ℚ} {ix : ℕ} :
    (bounds, ix) ∈ layout.geometryBetween start stop ↔
      first ≤ ix ∧ ix ≤ last ∧ ∃ line, layout.lines[ix]? = some line ∧
        if ix = first ∨ ix = last then
          bounds ∈ line.edgeRects ⟨start.index, stop.index⟩ (ix = last)
        else bounds = line.wholeRect := by
  unfold geometryBetween
  simp only [hstart, hstop, Option.getD_some, List.mem_flatMap, List.mem_range'_1,
    mem_lineGeometry]
  constructor
  · rintro ⟨i, hi, rfl, hline⟩
    exact ⟨hi.1, by omega, hline⟩
  · rintro ⟨hfirst, hlast, hline⟩
    exact ⟨ix, ⟨hfirst, by omega⟩, rfl, hline⟩

/-- The rectangles of a selection cover what it draws over. -/
theorem covers_geometryBetween (hlaid : layout.LaidOut) {first last : ℕ}
    (hstart : layout.lineOf start = some first) (hstop : layout.lineOf stop = some last) (ix : ℕ)
    (x : ℚ) : (∃ bounds, (bounds, ix) ∈ layout.geometryBetween start stop ∧ SpansX bounds x) ↔
      ∃ line, layout.lines[ix]? = some line ∧
        DrawnOver line ⟨start.index, stop.index⟩ first last ix x := by
  simp only [mem_geometryBetween hstart hstop, DrawnOver]
  constructor
  · rintro ⟨bounds, ⟨hfirst, hlast, line, hline, hmem⟩, hx⟩
    refine ⟨line, hline, hfirst, hlast, ?_⟩
    split_ifs at hmem ⊢ with hedge
    · exact ((hlaid.lines line (List.mem_of_getElem? hline)).edgeRects_covers _ _ x).mp
        ⟨bounds, hmem, hx⟩
    · subst hmem
      rwa [SpansX, SelectableLine.wholeRect, SelectableLine.bottomRight_rect] at hx
  · rintro ⟨line, hline, hfirst, hlast, hdrawn⟩
    split_ifs at hdrawn with hedge
    · obtain ⟨bounds, hmem, hx⟩ :=
        ((hlaid.lines line (List.mem_of_getElem? hline)).edgeRects_covers _ _ x).mpr hdrawn
      exact ⟨bounds, ⟨hfirst, hlast, line, hline, by rwa [if_pos hedge]⟩, hx⟩
    · refine ⟨line.wholeRect, ⟨hfirst, hlast, line, hline, by rw [if_neg hedge]⟩, ?_⟩
      rwa [SpansX, SelectableLine.wholeRect, SelectableLine.bottomRight_rect]

/-- Over a cell the selection draws if, and only if, the cell is selected. -/
theorem drawnOver_iff {ix first last : ℕ} {line : SelectableLine} (hlaid : line.LaidOut)
    (hline : layout.lines[ix]? = some line) (hstart : layout.StandsOn start first)
    (hstop : layout.StandsOn stop last) {before : List Cell} {cell : Cell} {after : List Cell}
    (hcells : line.cells = before ++ cell :: after) {x : ℚ} (hx : line.InCell before cell x) :
    DrawnOver line ⟨start.index, stop.index⟩ first last ix x ↔
      TextRange.Contains ⟨start.index, stop.index⟩ cell.cluster.start := by
  have hcell : cell ∈ line.cells := by simp [hcells]
  have hright := hlaid.lt_cellsRight hcells hx
  rw [DrawnOver]
  rcases Nat.lt_or_ge ix first with habove | hfirst
  · have hbefore := hstart.above ix line habove hline cell hcell
    exact iff_of_false (fun h => absurd h.1 (by omega)) fun h =>
      absurd h.1 (not_le.mpr hbefore)
  rcases Nat.lt_or_ge last ix with hbelow | hlast
  · have hbehind := hstop.below ix line hbelow hline cell hcell
    exact iff_of_false (fun h => absurd h.2.1 (by omega)) fun h => absurd h.2 (not_lt.mpr hbehind)
  simp only [hfirst, hlast, true_and]
  split_ifs with hedge
  · rw [hlaid.inSelected_iff _ hcells hx]
    exact or_iff_left fun hnewline => absurd hright (not_lt.mpr hnewline.2.1)
  · have hbehind := hstart.below ix line (by omega) hline cell hcell
    have hbefore := hstop.above ix line (by omega) hline cell hcell
    have hwidth : 0 ≤ (before.map Cell.width).sum := List.sum_nonneg fun width hmem => by
      obtain ⟨c, hc, rfl⟩ := List.mem_map.mp hmem
      exact hlaid.nonneg_cells c (by simp [hcells, hc])
    have hleft := hlaid.left_le_cellsLeft
    have hend := hlaid.cellsRight_le
    have hnewline := SelectableLine.newlineWhitespace_nonneg hlaid
    have hcellLeft := hx.1
    exact iff_of_true ⟨by linarith, by linarith⟩ ⟨hbehind, hbefore⟩

/-- The rectangles of a selection go through the lines from left to right. -/
theorem geometryBetween_ordered (hlaid : layout.LaidOut) (start stop : TextCursor) :
    (layout.geometryBetween start stop).Pairwise fun a b =>
      a.2 < b.2 ∨ a.2 = b.2 ∧ a.1.bottomRight.x ≤ b.1.origin.x := by
  refine List.pairwise_flatMap.mpr ⟨fun ix _ => ?_, ?_⟩
  · unfold lineGeometry
    cases hline : layout.lines[ix]? with
    | none => exact .nil
    | some line =>
      dsimp only
      split_ifs
      · have hordered := (hlaid.lines line (List.mem_of_getElem? hline)).edgeRects_ordered
          ⟨start.index, stop.index⟩
        exact List.pairwise_map.mpr ((hordered _).imp fun hle => .inr ⟨rfl, hle⟩)
      · exact List.pairwise_singleton _ _
  · refine (List.pairwise_lt_range' 1).imp fun {i j} hlt a ha b hb => .inl ?_
    rw [(mem_lineGeometry.mp ha).1, (mem_lineGeometry.mp hb).1]
    exact hlt

/-- A rectangle of a selection is as high as its line. -/
theorem rect_of_mem_geometryBetween (hlaid : layout.LaidOut) {start stop : TextCursor}
    {rect : Bounds ℚ × ℕ} (hmem : rect ∈ layout.geometryBetween start stop) :
    ∃ line, layout.lines[rect.2]? = some line ∧ line.Rect rect.1 := by
  obtain ⟨ix, -, hmem⟩ := List.mem_flatMap.mp hmem
  obtain ⟨rfl, line, hline, hrect⟩ := mem_lineGeometry.mp hmem
  refine ⟨line, hline, ?_⟩
  split_ifs at hrect
  · exact (hlaid.lines line (List.mem_of_getElem? hline)).rect_of_mem_edgeRects hrect
  · rw [hrect]
    exact line.rect_rect _ _

/-- A selection that is not collapsed goes from one of its cursors to the other. -/
theorem exists_geometryBetween {anchorLine focusLine : ℕ}
    (hanchor : layout.StandsOn anchor anchorLine) (hfocus : layout.StandsOn focus focusLine)
    (hne : anchor.index ≠ focus.index) :
    ∃ start stop first last, layout.StandsOn start first ∧ layout.StandsOn stop last ∧
      start.index = min anchor.index focus.index ∧ stop.index = max anchor.index focus.index ∧
      min anchorLine focusLine ≤ first ∧ last ≤ max anchorLine focusLine ∧
      layout.geometryWith anchor focus = layout.geometryBetween start stop := by
  unfold geometryWith
  rw [if_neg hne]
  split_ifs with hgt
  · exact ⟨focus, anchor, focusLine, anchorLine, hfocus, hanchor, by omega, by omega, by omega,
      by omega, rfl⟩
  · exact ⟨anchor, focus, anchorLine, focusLine, hanchor, hfocus, by omega, by omega, by omega,
      by omega, rfl⟩

/-- A collapsed selection has no rectangles. -/
theorem geometryWith_of_eq (layout : SelectableLayout) (heq : anchor.index = focus.index) :
    layout.geometryWith anchor focus = [] := if_pos heq

end SelectableLayout

/-- Two lines with a box in the first one. -/
def twoLines : SelectableLayout where
  lines := [
    ⟨[.glyphRun [⟨0, 10⟩, ⟨1, 10⟩], .inlineBox 5, .glyphRun [⟨2, 10⟩]], 0, 0, 35, 8, 2, 0, 10,
      true⟩,
    ⟨[.glyphRun [⟨3, 10⟩, ⟨4, 10⟩]], 0, 0, 20, 8, 2, 10, 20, false⟩]
  cursorTop cursor := if cursor.index < 3 then 0 else 10

theorem laidOut_twoLines : twoLines.LaidOut where
  lines := by
    intro line hline
    simp only [twoLines, List.mem_cons, List.not_mem_nil, or_false] at hline
    rcases hline with rfl | rfl
    · constructor <;> norm_num [LineItem.Nonneg, LineItem.width]
    · constructor <;> norm_num [LineItem.Nonneg, LineItem.width]
  contiguous := by
    constructor <;> norm_num [twoLines]

theorem standsOn_twoLines_first : twoLines.StandsOn ⟨1, .downstream⟩ 0 where
  top := ⟨_, rfl, rfl⟩
  above i _ hi := absurd hi (Nat.not_lt_zero i)
  below i line hi hline := by
    match i with
    | 1 =>
      obtain rfl := Option.some.inj hline
      decide
    | i + 2 => cases hline

theorem standsOn_twoLines_second : twoLines.StandsOn ⟨4, .downstream⟩ 1 where
  top := ⟨_, rfl, rfl⟩
  above i line hi hline := by
    obtain rfl : i = 0 := by omega
    obtain rfl := Option.some.inj hline
    decide
  below i line hi hline := by
    match i with
    | i + 2 => cases hline

end Lucie.Selection
