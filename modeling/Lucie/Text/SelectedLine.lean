import Lucie.Foundation.Joining
import Lucie.Geometry.Bounds
import Lucie.Style.CombineHighlights
import Mathlib

/-!
# Selected clusters of a line

On the first and on the last line of a selection one pass joins the selected clusters to rectangles.
An inline box is drawn with the cluster behind it. A line that ends with an explicit break has a bit
of space behind its end, where the selection goes on.
-/

set_option autoImplicit false

namespace Lucie.Selection

open Foundation

/-- A cluster of a glyph run. -/
structure VisualCluster where
  start : ℕ
  advance : ℚ

/-- `parley::PositionedLayoutItem`. The clusters of a run stand in visual order. -/
inductive LineItem
  | glyphRun (visualClusters : List VisualCluster)
  | inlineBox (width : ℚ)

/-- A line with its metrics. -/
structure SelectableLine where
  items : List LineItem
  offset : ℚ
  inlineMinCoord : ℚ
  advance : ℚ
  ascent : ℚ
  descent : ℚ
  blockMinCoord : ℚ
  blockMaxCoord : ℚ
  explicitBreak : Bool

/-- `NEWLINE_WHITESPACE_WIDTH_RATIO`. -/
def newlineWhitespaceWidthRatio : ℚ := 1 / 4

namespace SelectableLine

/-- Where the items of the line begin. -/
def left (line : SelectableLine) : ℚ := line.offset + line.inlineMinCoord

/-- A rectangle that is as high as the line. -/
def rect (line : SelectableLine) (left right : ℚ) : Bounds ℚ :=
  ⟨⟨left, line.blockMinCoord⟩, ⟨right - left, line.blockMaxCoord - line.blockMinCoord⟩⟩

def newlineWhitespace (line : SelectableLine) : ℚ :=
  if line.explicitBreak then (line.ascent + line.descent) * newlineWhitespaceWidthRatio else 0

end SelectableLine

/-- What `geometry_with` keeps while it goes through the items of a line. -/
structure LinePass where
  startX : ℚ
  curX : ℚ
  clusterCount : ℕ
  boxAdvance : ℚ
  haveSeenAnyRuns : Bool
  rects : List (Bounds ℚ)

namespace LinePass

/-- The rectangle that is open is done. -/
def close (p : LinePass) (line : SelectableLine) : List (Bounds ℚ) :=
  if p.curX ≠ p.startX then p.rects ++ [line.rect p.startX p.curX] else p.rects

def cluster (line : SelectableLine) (range : TextRange) (p : LinePass) (c : VisualCluster) :
    LinePass :=
  let advance := c.advance + p.boxAdvance
  if range.Contains c.start then
    { p with boxAdvance := 0, clusterCount := p.clusterCount + 1, curX := p.curX + advance }
  else
    { p with
      boxAdvance := 0
      rects := p.close line
      curX := p.curX + advance
      startX := p.curX + advance }

def item (line : SelectableLine) (range : TextRange) (p : LinePass) : LineItem → LinePass
  | .glyphRun visualClusters =>
    visualClusters.foldl (cluster line range) { p with haveSeenAnyRuns := true }
  | .inlineBox width =>
    if p.haveSeenAnyRuns then { p with boxAdvance := p.boxAdvance + width }
    else { p with
      boxAdvance := 0
      curX := p.curX + (p.boxAdvance + width)
      startX := p.curX + (p.boxAdvance + width) }

end LinePass

namespace SelectableLine

/-- The items of the line. -/
def pass (line : SelectableLine) (range : TextRange) : LinePass :=
  line.items.foldl (LinePass.item line range) ⟨line.left, line.left, 0, 0, false, []⟩

/-- The rectangles of the first or the last line. -/
def edgeRects (line : SelectableLine) (range : TextRange) (isLast : Bool) : List (Bounds ℚ) :=
  let p := line.pass range
  let endX := if isLast = false ∨ p.clusterCount ≠ 0 ∧ line.advance = 0
    then p.curX + line.newlineWhitespace else p.curX
  LinePass.close { p with curX := endX } line

/-- The rectangle of a line in the middle. -/
def wholeRect (line : SelectableLine) : Bounds ℚ :=
  line.rect line.left (line.left + (line.advance + line.newlineWhitespace))

end SelectableLine

/-! ## Cells -/

/-- A cluster with the width of the inline boxes right before it. -/
structure Cell where
  cluster : VisualCluster
  boxes : ℚ

def Cell.width (cell : Cell) : ℚ := cell.cluster.advance + cell.boxes

/-- The cells of items, with boxes before them. -/
def cellsOf : ℚ → List LineItem → List Cell
  | _, [] => []
  | boxes, .inlineBox width :: items => cellsOf (boxes + width) items
  | boxes, .glyphRun [] :: items => cellsOf boxes items
  | boxes, .glyphRun (c :: cs) :: items =>
    ⟨c, boxes⟩ :: (cs.map fun c => ⟨c, 0⟩) ++ cellsOf 0 items

namespace LineItem

def isBox : LineItem → Bool
  | .glyphRun _ => false
  | .inlineBox _ => true

def width : LineItem → ℚ
  | .glyphRun visualClusters => (visualClusters.map VisualCluster.advance).sum
  | .inlineBox width => width

/-- No cluster and no box has a negative width. -/
def Nonneg : LineItem → Prop
  | .glyphRun visualClusters => ∀ c ∈ visualClusters, 0 ≤ c.advance
  | .inlineBox width => 0 ≤ width

end LineItem

namespace SelectableLine

/-- The boxes at the start of a line belong to no cell. -/
def cells (line : SelectableLine) : List Cell := cellsOf 0 (line.items.dropWhile LineItem.isBox)

def cellsLeft (line : SelectableLine) : ℚ :=
  line.left + ((line.items.takeWhile LineItem.isBox).map LineItem.width).sum

end SelectableLine

/-- A cell for a pass that joins the selected ones. -/
def Cell.segment (range : TextRange) (cell : Cell) : Segment ℚ :=
  ⟨cell.width, range.Contains cell.cluster.start⟩

/-! ## One line -/

variable {line : SelectableLine} {range : TextRange}

/-- A pass joined these segments. -/
structure Passed (line : SelectableLine) (range : TextRange) (segments : List (Segment ℚ))
    (p : LinePass) : Prop where
  joined : ∃ j, Joined line.cellsLeft segments j ∧ p.startX = j.left ∧ p.curX = j.right ∧
    p.rects = j.closed.map fun interval => line.rect interval.1 interval.2
  count : p.clusterCount ≠ 0 ↔ ∃ segment ∈ segments, segment.marked

/-- The rectangles of a pass are its intervals. -/
theorem LinePass.close_eq {p : LinePass} {j : Joining ℚ} (hleft : p.startX = j.left)
    (hright : p.curX = j.right)
    (hrects : p.rects = j.closed.map fun interval => line.rect interval.1 interval.2) :
    p.close line = j.intervals.map fun interval => line.rect interval.1 interval.2 := by
  unfold LinePass.close Joining.intervals
  rw [hleft, hright, hrects]
  split_ifs
  · rw [List.map_append, List.map_singleton]
  · rfl

namespace Passed

variable {segments : List (Segment ℚ)} {p : LinePass}

theorem of_eq (h : Passed line range segments p) {p' : LinePass} (hstart : p'.startX = p.startX)
    (hcur : p'.curX = p.curX) (hcount : p'.clusterCount = p.clusterCount)
    (hrects : p'.rects = p.rects) : Passed line range segments p' where
  joined := by
    rw [hstart, hcur, hrects]
    exact h.joined
  count := by
    rw [hcount]
    exact h.count

theorem cluster (h : Passed line range segments p) (c : VisualCluster)
    (hwidth : 0 ≤ c.advance + p.boxAdvance) :
    Passed line range (segments ++ [(Cell.mk c p.boxAdvance).segment range])
      (p.cluster line range c) := by
  obtain ⟨j, hjoined, hleft, hright, hrects⟩ := h.joined
  have hdecidable : Decidable ((Cell.mk c p.boxAdvance).segment range).marked :=
    inferInstanceAs (Decidable (range.Contains c.start))
  have hstep := hjoined.step ((Cell.mk c p.boxAdvance).segment range) hwidth
  unfold LinePass.cluster
  by_cases hselected : range.Contains c.start
  · rw [Joining.step, if_pos (show Segment.marked _ from hselected)] at hstep
    dsimp only
    rw [if_pos hselected]
    refine ⟨⟨_, hstep, hleft, congrArg (· + _) hright, hrects⟩, ?_⟩
    exact iff_of_true (Nat.succ_ne_zero _) ⟨(Cell.mk c p.boxAdvance).segment range,
      List.mem_append_right _ (List.mem_singleton_self _), hselected⟩
  · rw [Joining.step, if_neg (show ¬Segment.marked _ from hselected)] at hstep
    dsimp only
    rw [if_neg hselected]
    refine ⟨⟨_, hstep, congrArg (· + _) hright, congrArg (· + _) hright, ?_⟩, ?_⟩
    · exact LinePass.close_eq hleft hright hrects
    · rw [h.count]
      simp only [List.mem_append, List.mem_singleton, or_and_right, exists_or, exists_eq_left]
      exact (or_iff_left hselected).symm

theorem boxAdvance_cluster (p : LinePass) (c : VisualCluster) :
    (p.cluster line range c).boxAdvance = 0 := by
  unfold LinePass.cluster
  split_ifs <;> rfl

theorem haveSeenAnyRuns_cluster (p : LinePass) (c : VisualCluster) :
    (p.cluster line range c).haveSeenAnyRuns = p.haveSeenAnyRuns := by
  unfold LinePass.cluster
  split_ifs <;> rfl

/-- The clusters of a run. The boxes before the run belong to the first one. -/
theorem clusters (h : Passed line range segments p) (cs : List VisualCluster)
    (hnonneg : ∀ c ∈ cs, 0 ≤ c.advance) (hbox : p.boxAdvance = 0) :
    Passed line range (segments ++ cs.map fun c => (Cell.mk c 0).segment range)
        (cs.foldl (LinePass.cluster line range) p) ∧
      (cs.foldl (LinePass.cluster line range) p).boxAdvance = 0 ∧
      (cs.foldl (LinePass.cluster line range) p).haveSeenAnyRuns = p.haveSeenAnyRuns := by
  induction cs generalizing segments p with
  | nil => exact ⟨by rwa [List.map_nil, List.append_nil], hbox, rfl⟩
  | cons c cs ih =>
    have hc := h.cluster c (by
      rw [hbox, add_zero]
      exact hnonneg c List.mem_cons_self)
    obtain ⟨hpassed, hboxes, hseen⟩ := ih hc (fun c hc => hnonneg c (List.mem_cons_of_mem _ hc))
      (boxAdvance_cluster p c)
    rw [hbox, List.append_assoc] at hpassed
    exact ⟨hpassed, hboxes, hseen.trans (haveSeenAnyRuns_cluster p c)⟩

/-- The items behind the first run. -/
theorem items (h : Passed line range segments p) (hseen : p.haveSeenAnyRuns = true)
    (hbox : 0 ≤ p.boxAdvance) {items : List LineItem} (hnonneg : ∀ item ∈ items, item.Nonneg) :
    Passed line range (segments ++ (cellsOf p.boxAdvance items).map (Cell.segment range))
      (items.foldl (LinePass.item line range) p) := by
  induction items generalizing segments p with
  | nil => rwa [cellsOf, List.map_nil, List.append_nil]
  | cons item items ih =>
    have hitem := hnonneg item List.mem_cons_self
    have hrest : ∀ item ∈ items, item.Nonneg := fun item hmem =>
      hnonneg item (List.mem_cons_of_mem _ hmem)
    cases item with
    | inlineBox width =>
      have hp : LinePass.item line range p (.inlineBox width) =
          { p with boxAdvance := p.boxAdvance + width } := if_pos hseen
      have hwider : Passed line range segments { p with boxAdvance := p.boxAdvance + width } :=
        h.of_eq rfl rfl rfl rfl
      rw [List.foldl_cons, hp]
      exact ih hwider hseen (add_nonneg hbox hitem) hrest
    | glyphRun cs =>
      have hp : LinePass.item line range p (.glyphRun cs) =
          cs.foldl (LinePass.cluster line range) p := by
        rw [LinePass.item, ← hseen]
      rw [List.foldl_cons, hp]
      cases cs with
      | nil => exact ih h hseen hbox hrest
      | cons c cs =>
        have hc := h.cluster c (add_nonneg (hitem c List.mem_cons_self) hbox)
        obtain ⟨hpassed, hboxes, hsame⟩ := hc.clusters cs
          (fun c hc => hitem c (List.mem_cons_of_mem _ hc)) (boxAdvance_cluster p c)
        have hitems := ih hpassed
          (hsame.trans ((haveSeenAnyRuns_cluster p c).trans hseen)) hboxes.ge hrest
        rw [hboxes] at hitems
        simpa [cellsOf, List.append_assoc, Function.comp_def] using hitems

end Passed

/-- Boxes before the first run move the start of the line. -/
theorem LinePass.foldl_boxes (x : ℚ) {boxes : List LineItem}
    (hboxes : ∀ item ∈ boxes, item.isBox = true) :
    boxes.foldl (LinePass.item line range) ⟨x, x, 0, 0, false, []⟩ =
      ⟨x + (boxes.map LineItem.width).sum, x + (boxes.map LineItem.width).sum, 0, 0, false,
        []⟩ := by
  induction boxes generalizing x with
  | nil => simp
  | cons item boxes ih =>
    cases item with
    | glyphRun cs => exact absurd (hboxes _ List.mem_cons_self) Bool.false_ne_true
    | inlineBox width =>
      rw [List.foldl_cons]
      have hp : LinePass.item line range ⟨x, x, 0, 0, false, []⟩ (.inlineBox width) =
          ⟨x + width, x + width, 0, 0, false, []⟩ := by
        simp [LinePass.item]
      rw [hp, ih _ fun item hmem => hboxes item (List.mem_cons_of_mem _ hmem)]
      simp only [List.map_cons, List.sum_cons, LineItem.width, add_assoc]

/-- The pass over a line joins its cells. -/
theorem passed_line (hnonneg : ∀ item ∈ line.items, item.Nonneg) :
    Passed line range (line.cells.map (Cell.segment range)) (line.pass range) := by
  have hsplit : line.pass range = (line.items.dropWhile LineItem.isBox).foldl
      (LinePass.item line range) ⟨line.cellsLeft, line.cellsLeft, 0, 0, false, []⟩ := by
    unfold SelectableLine.pass SelectableLine.cellsLeft
    rw [← LinePass.foldl_boxes line.left fun item hmem => List.mem_takeWhile_imp hmem,
      ← List.foldl_append, List.takeWhile_append_dropWhile]
  have hempty : Passed line range [] ⟨line.cellsLeft, line.cellsLeft, 0, 0, false, []⟩ :=
    ⟨⟨_, joined_nil _, rfl, rfl, rfl⟩, by simp⟩
  rw [hsplit, SelectableLine.cells]
  have hrest : ∀ item ∈ line.items.dropWhile LineItem.isBox, item.Nonneg := fun item hmem =>
    hnonneg item ((List.dropWhile_suffix _).subset hmem)
  cases hitems : line.items.dropWhile LineItem.isBox with
  | nil => exact hempty
  | cons item items =>
    cases item with
    | inlineBox width =>
      have hhead := List.head?_dropWhile_not LineItem.isBox line.items
      rw [hitems] at hhead
      simp [LineItem.isBox] at hhead
    | glyphRun cs =>
      -- the first run counts as seen before its clusters
      have hseen : Passed line range [] ⟨line.cellsLeft, line.cellsLeft, 0, 0, true, []⟩ :=
        hempty.of_eq rfl rfl rfl rfl
      rw [hitems] at hrest
      exact hseen.items rfl le_rfl hrest

namespace SelectableLine

/-- A place of the line is in a selected cell. -/
def InSelected (line : SelectableLine) (range : TextRange) (x : ℚ) : Prop :=
  InMarked line.cellsLeft (line.cells.map (Cell.segment range)) x

/-- Where the last cell of the line ends. -/
def cellsRight (line : SelectableLine) : ℚ :=
  line.cellsLeft + (line.cells.map Cell.width).sum

/-- The first or the last line has space for a line break: the selection goes on behind the line,
or the line has nothing but a selected line break. -/
def DrawsNewline (line : SelectableLine) (range : TextRange) (isLast : Bool) : Prop :=
  isLast = false ∨ (∃ cell ∈ line.cells, range.Contains cell.cluster.start) ∧ line.advance = 0

/-- What is right for the metrics and the items of a line. -/
structure LaidOut (line : SelectableLine) : Prop where
  nonneg : ∀ item ∈ line.items, item.Nonneg
  advance : line.advance = (line.items.map LineItem.width).sum
  font : 0 ≤ line.ascent + line.descent
  high : line.blockMinCoord < line.blockMaxCoord

theorem widthOf_segments (range : TextRange) (cells : List Cell) :
    widthOf (cells.map (Cell.segment range)) = (cells.map Cell.width).sum := by
  rw [widthOf, List.map_map]
  rfl

@[simp] theorem bottomRight_rect (line : SelectableLine) (left right : ℚ) :
    (line.rect left right).bottomRight.x = right :=
  add_sub_cancel left right

/-- A rectangle of the line. -/
structure Rect (line : SelectableLine) (bounds : Bounds ℚ) : Prop where
  top : bounds.origin.y = line.blockMinCoord
  bottom : bounds.bottomRight.y = line.blockMaxCoord

theorem rect_rect (line : SelectableLine) (left right : ℚ) : line.Rect (line.rect left right) :=
  ⟨rfl, add_sub_cancel line.blockMinCoord line.blockMaxCoord⟩

theorem newlineWhitespace_nonneg (h : line.LaidOut) : 0 ≤ line.newlineWhitespace := by
  unfold newlineWhitespace newlineWhitespaceWidthRatio
  split_ifs
  · exact mul_nonneg h.font (by norm_num)
  · exact le_rfl

theorem cellsOf_nonneg {boxes : ℚ} (hboxes : 0 ≤ boxes) {items : List LineItem}
    (hnonneg : ∀ item ∈ items, item.Nonneg) : ∀ cell ∈ cellsOf boxes items, 0 ≤ cell.width := by
  induction items generalizing boxes with
  | nil =>
    intro cell hcell
    exact absurd hcell List.not_mem_nil
  | cons item items ih =>
    have hitem := hnonneg item List.mem_cons_self
    have hrest : ∀ item ∈ items, item.Nonneg := fun item hmem =>
      hnonneg item (List.mem_cons_of_mem _ hmem)
    cases item with
    | inlineBox width => exact ih (add_nonneg hboxes hitem) hrest
    | glyphRun cs =>
      cases cs with
      | nil => exact ih hboxes hrest
      | cons c cs =>
        intro cell hcell
        rcases List.mem_append.mp hcell with hcell | hcell
        · rcases List.mem_cons.mp hcell with rfl | hcell
          · exact add_nonneg (hitem c List.mem_cons_self) hboxes
          · obtain ⟨c', hc', rfl⟩ := List.mem_map.mp hcell
            exact add_nonneg (hitem c' (List.mem_cons_of_mem _ hc')) le_rfl
        · exact ih le_rfl hrest cell hcell

/-- The cells are not wider than the items. -/
theorem sum_cellsOf_le {boxes : ℚ} (hboxes : 0 ≤ boxes) {items : List LineItem}
    (hnonneg : ∀ item ∈ items, item.Nonneg) :
    ((cellsOf boxes items).map Cell.width).sum ≤ boxes + (items.map LineItem.width).sum := by
  induction items generalizing boxes with
  | nil => simpa [cellsOf] using hboxes
  | cons item items ih =>
    have hitem := hnonneg item List.mem_cons_self
    have hrest : ∀ item ∈ items, item.Nonneg := fun item hmem =>
      hnonneg item (List.mem_cons_of_mem _ hmem)
    rw [List.map_cons, List.sum_cons]
    cases item with
    | inlineBox width =>
      rw [cellsOf, LineItem.width, ← add_assoc]
      exact ih (add_nonneg hboxes hitem) hrest
    | glyphRun cs =>
      cases cs with
      | nil => simpa [cellsOf, LineItem.width] using ih hboxes hrest
      | cons c cs =>
        have hsum := ih le_rfl hrest
        have hclusters : (cs.map fun c => (Cell.mk c 0).width).sum =
            (cs.map VisualCluster.advance).sum := by simp [Cell.width]
        simp only [cellsOf, List.cons_append, List.map_cons, List.map_append, List.map_map,
          List.sum_cons, List.sum_append, LineItem.width, Function.comp_def, hclusters]
        simp only [Cell.width]
        linarith

theorem LaidOut.nonneg_cells (h : line.LaidOut) : ∀ cell ∈ line.cells, 0 ≤ cell.width :=
  cellsOf_nonneg le_rfl fun item hmem => h.nonneg item ((List.dropWhile_suffix _).subset hmem)

theorem LaidOut.left_le_cellsLeft (h : line.LaidOut) : line.left ≤ line.cellsLeft := by
  refine le_add_of_nonneg_right (List.sum_nonneg fun width hmem => ?_)
  obtain ⟨item, hitem, rfl⟩ := List.mem_map.mp hmem
  have hbox := List.mem_takeWhile_imp hitem
  cases item with
  | glyphRun cs => exact absurd hbox Bool.false_ne_true
  | inlineBox width => exact h.nonneg _ ((List.takeWhile_prefix _).subset hitem)

theorem LaidOut.cellsRight_le (h : line.LaidOut) : line.cellsRight ≤ line.left + line.advance := by
  have hsum := sum_cellsOf_le le_rfl fun item (hmem : item ∈ line.items.dropWhile LineItem.isBox) =>
    h.nonneg item ((List.dropWhile_suffix _).subset hmem)
  have hsplit : (line.items.map LineItem.width).sum =
      ((line.items.takeWhile LineItem.isBox).map LineItem.width).sum +
        ((line.items.dropWhile LineItem.isBox).map LineItem.width).sum := by
    rw [← List.sum_append, ← List.map_append, List.takeWhile_append_dropWhile]
  rw [h.advance, hsplit, cellsRight, cellsLeft, cells]
  linarith

/-- The extent of a cell behind others. -/
def InCell (line : SelectableLine) (before : List Cell) (cell : Cell) (x : ℚ) : Prop :=
  line.cellsLeft + (before.map Cell.width).sum ≤ x ∧
    x < line.cellsLeft + (before.map Cell.width).sum + cell.width

/-- A place in a cell is in no other cell. -/
theorem LaidOut.inSelected_iff (h : line.LaidOut) (range : TextRange) {before : List Cell}
    {cell : Cell} {after : List Cell} (hcells : line.cells = before ++ cell :: after) {x : ℚ}
    (hx : line.InCell before cell x) :
    line.InSelected range x ↔ range.Contains cell.cluster.start := by
  rw [InSelected, hcells, List.map_append, List.map_cons]
  refine inMarked_iff (fun s hs => ?_) ?_ ?_
  · rw [← List.map_cons, ← List.map_append, ← hcells] at hs
    obtain ⟨c, hc, rfl⟩ := List.mem_map.mp hs
    exact h.nonneg_cells c hc
  · rw [widthOf_segments]
    exact hx.1
  · rw [widthOf_segments]
    exact hx.2

theorem LaidOut.lt_cellsRight (h : line.LaidOut) {before : List Cell} {cell : Cell}
    {after : List Cell} (hcells : line.cells = before ++ cell :: after) {x : ℚ}
    (hx : line.InCell before cell x) : x < line.cellsRight := by
  refine hx.2.trans_le ?_
  have hafter : 0 ≤ (after.map Cell.width).sum := List.sum_nonneg fun width hmem => by
    obtain ⟨c, hc, rfl⟩ := List.mem_map.mp hmem
    exact h.nonneg_cells c (by simp [hcells, hc])
  rw [cellsRight, hcells, List.map_append, List.map_cons, List.sum_append, List.sum_cons]
  linarith

/-- The rectangles of the first or the last line are the intervals of a pass. -/
theorem LaidOut.edgeRects_eq (h : line.LaidOut) (range : TextRange) (isLast : Bool) :
    ∃ segments j, Joined line.cellsLeft segments j ∧
      line.edgeRects range isLast =
        (j.intervals.map fun interval => line.rect interval.1 interval.2) ∧
      ∀ x, InMarked line.cellsLeft segments x ↔ line.InSelected range x ∨
        line.DrawsNewline range isLast ∧ line.cellsRight ≤ x ∧
          x < line.cellsRight + line.newlineWhitespace := by
  have hpassed : Passed line range _ _ := passed_line h.nonneg
  obtain ⟨j, hjoined, hleft, hright, hrects⟩ := hpassed.joined
  have hcount : (line.pass range).clusterCount ≠ 0 ↔
      ∃ cell ∈ line.cells, range.Contains cell.cluster.start := by
    rw [hpassed.count]
    simp only [List.mem_map, exists_exists_and_eq_and]
    rfl
  have hcond : line.DrawsNewline range isLast ↔
      isLast = false ∨ (line.pass range).clusterCount ≠ 0 ∧ line.advance = 0 := by
    rw [DrawsNewline, hcount]
  unfold SelectableLine.edgeRects
  dsimp only
  by_cases hdraws : line.DrawsNewline range isLast
  · -- the space for the line break is one more segment
    have hstep := hjoined.step ⟨line.newlineWhitespace, True⟩ (newlineWhitespace_nonneg h)
    rw [Joining.step, if_pos trivial] at hstep
    rw [if_pos (hcond.mp hdraws)]
    refine ⟨_, _, hstep, LinePass.close_eq hleft (congrArg (· + line.newlineWhitespace) hright)
      hrects, fun x => ?_⟩
    rw [inMarked_snoc, widthOf_segments]
    simp only [hdraws, true_and]
    rfl
  · rw [if_neg (mt hcond.mpr hdraws)]
    refine ⟨_, _, hjoined, LinePass.close_eq hleft hright hrects, fun x => ?_⟩
    exact (or_iff_left fun hx => hdraws hx.1).symm

end SelectableLine

/-- The horizontal extent of a rectangle. -/
def SpansX (bounds : Bounds ℚ) (x : ℚ) : Prop := bounds.origin.x ≤ x ∧ x < bounds.bottomRight.x

namespace SelectableLine

theorem LaidOut.edgeRects_covers (h : line.LaidOut) (range : TextRange) (isLast : Bool) (x : ℚ) :
    (∃ bounds ∈ line.edgeRects range isLast, SpansX bounds x) ↔
      line.InSelected range x ∨ line.DrawsNewline range isLast ∧ line.cellsRight ≤ x ∧
        x < line.cellsRight + line.newlineWhitespace := by
  obtain ⟨segments, j, hjoined, heq, hmarked⟩ := h.edgeRects_eq range isLast
  rw [heq, ← hmarked, ← hjoined.mem_intervals]
  simp only [List.mem_map, exists_exists_and_eq_and, SpansX, bottomRight_rect]
  rfl

theorem LaidOut.edgeRects_ordered (h : line.LaidOut) (range : TextRange) (isLast : Bool) :
    (line.edgeRects range isLast).Pairwise fun a b => a.bottomRight.x ≤ b.origin.x := by
  obtain ⟨segments, j, hjoined, heq, -⟩ := h.edgeRects_eq range isLast
  rw [heq, List.pairwise_map]
  refine hjoined.ordered_intervals.imp fun {a b} hle => ?_
  rw [bottomRight_rect]
  exact hle

theorem LaidOut.rect_of_mem_edgeRects (h : line.LaidOut) {isLast : Bool} {bounds : Bounds ℚ}
    (hmem : bounds ∈ line.edgeRects range isLast) : line.Rect bounds := by
  obtain ⟨segments, j, -, heq, -⟩ := h.edgeRects_eq range isLast
  rw [heq] at hmem
  obtain ⟨interval, -, rfl⟩ := List.mem_map.mp hmem
  exact line.rect_rect _ _

end SelectableLine

end Lucie.Selection
