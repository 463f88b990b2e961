import Lucie.Geometry.Points
import Lucie.Text.LineLayer
import Mathlib.Data.Finset.Max

/-!
# The character under the mouse

A text element paints its lines from the origin of its bounds, and its handlers look the mouse up
in the layout. They pass the position in the window, so they find the character that is painted
there only if the layout is painted at the origin of the window.
-/

set_option autoImplicit false

namespace Lucie

/-- `parley::ClusterSide`. -/
inductive ClusterSide
  | left
  | right
  deriving DecidableEq

/-- `Affinity`. -/
inductive Affinity
  | downstream
  | upstream
  deriving DecidableEq

/-- `Cursor` of a text layout. -/
structure TextCursor where
  index : ℕ
  affinity : Affinity
  deriving DecidableEq

/-- A cluster of a line: its text range, its direction, whether it is an explicit line break, its
box in the layout and the numbers of the glyphs of the line that draw it. -/
structure Cluster where
  start : ℕ
  stop : ℕ
  isRtl : Bool
  isExplicitBreak : Bool
  box : Bounds ℚ
  drawnBy : List ℕ
  deriving DecidableEq

/-- A line with its clusters. -/
structure ClusteredLine (R : Type) where
  line : Line R
  clusters : List Cluster

/-- An interactive text in its bounds: the origin of the bounds, the scale factor of the window,
and the layout with what the text engine finds at its points. -/
structure InteractiveText (R : Type) where
  origin : Point ℚ
  scale : ℚ
  scale_pos : 0 < scale
  textLen : ℕ
  lines : List (ClusteredLine R)
  fromPointExact : Point ℚ → Option (Cluster × ClusterSide)
  fromPoint : Point ℚ → Option (Cluster × ClusterSide)

variable {R : Type}

namespace Cluster

/-- The index that a side of a cluster stands for. The position after a line break is on the
next line. -/
def cursorAt (c : Cluster) (side : ClusterSide) : TextCursor :=
  let isLeading := side = .left
  if c.isRtl then
    if isLeading then ⟨c.stop, .upstream⟩ else ⟨c.start, .downstream⟩
  else if isLeading ∨ c.isExplicitBreak then ⟨c.start, .downstream⟩
  else ⟨c.stop, .upstream⟩

end Cluster

namespace InteractiveText

/-- `Layout::cursor_at`. -/
def cursorAt (e : InteractiveText R) (point : Point ℚ) (exact : Bool) : Option TextCursor :=
  match if exact then e.fromPointExact point else e.fromPoint point with
  | some (cluster, side) => some (cluster.cursorAt side)
  | none => if exact then none else some ⟨e.textLen, .downstream⟩

/-- `TextLayout::index_for_position`. -/
def indexForPosition (e : InteractiveText R) (position : Point ℚ) (exact : Bool) : Option ℕ :=
  (e.cursorAt position exact).map TextCursor.index

/-- `Point::scale`, by the scale factor of the window. -/
def scaled (e : InteractiveText R) (p : Point ℚ) : Point ℚ := ⟨p.x * e.scale, p.y * e.scale⟩

/-- `TextLayout::paint`. -/
def paint (e : InteractiveText R) : List (PaintOp R) :=
  e.lines.flatMap fun line => line.line.paint (e.scaled e.origin)

/-- What the handlers of `InteractiveText` find at a position of the mouse. -/
def indexAt (e : InteractiveText R) (p : Point ℚ) : Option ℕ :=
  e.indexForPosition (e.scaled p) true

end InteractiveText

/-! ## What is painted under the mouse -/

/-- A glyph of a line is kept. -/
def Line.KeepsItem (line : Line R) (index : ℕ) : Prop :=
  ∀ i, line.item = some i → if line.isStartTruncation then i ≤ index else index < i

/-- The index of an edge of a cluster that is nearest to a point, with the cluster in a box. -/
def Cluster.IsNearestEdge (c : Cluster) (box : Bounds ℚ) (q : Point ℚ) (index : ℕ) : Prop :=
  index = (c.cursorAt .left).index ∧ q.x - box.origin.x ≤ box.bottomRight.x - q.x ∨
    index = (c.cursorAt .right).index ∧ box.bottomRight.x - q.x ≤ q.x - box.origin.x

namespace InteractiveText

/-- The box that a cluster of a line is painted in. -/
def paintedBox (e : InteractiveText R) (line : ClusteredLine R) (c : Cluster) : Bounds ℚ :=
  c.box.translate (line.line.renderOrigin (e.scaled e.origin))

/-- A cluster of a line is painted under a position. -/
def PaintedUnder (e : InteractiveText R) (line : ClusteredLine R) (c : Cluster) (p : Point ℚ) :
    Prop :=
  (∃ i ∈ c.drawnBy, line.line.KeepsItem i) ∧
    (e.paintedBox line c).contains (e.scaled p) = true

/-- The handlers find the edge of a character that is painted under the mouse, the one that is
nearer, and nothing exactly if no character is painted there. -/
structure HitsPainted (e : InteractiveText R) : Prop where
  nearest : ∀ p index, e.indexAt p = some index → ∃ line ∈ e.lines, ∃ c ∈ line.clusters,
    e.PaintedUnder line c p ∧ c.IsNearestEdge (e.paintedBox line c) (e.scaled p) index
  none_iff : ∀ p, e.indexAt p = none ↔
    ∀ line ∈ e.lines, ∀ c ∈ line.clusters, ¬e.PaintedUnder line c p

/-- The lookup is correct in the coordinates of the layout. -/
structure LooksUp (e : InteractiveText R) : Prop where
  found : ∀ q c side, e.fromPointExact q = some (c, side) →
    (∃ line ∈ e.lines, c ∈ line.clusters) ∧ c.box.contains q = true ∧
      (side = .left ∧ q.x - c.box.origin.x ≤ c.box.bottomRight.x - q.x ∨
        side = .right ∧ c.box.bottomRight.x - q.x ≤ q.x - c.box.origin.x)
  missed : ∀ q, e.fromPointExact q = none →
    ∀ line ∈ e.lines, ∀ c ∈ line.clusters, c.box.contains q = false

/-- The layout is correct: the clusters of a line are as high as the line, and neither two lines
nor two clusters have a point in common. -/
structure LaidOut (e : InteractiveText R) : Prop where
  row : ∀ line ∈ e.lines, ∀ c ∈ line.clusters,
    c.box.origin.y = line.line.top ∧ c.box.size.height = line.line.lineHeight
  line_unique : ∀ line ∈ e.lines, ∀ line' ∈ e.lines, ∀ y,
    line.line.top ≤ y → y < line.line.top + line.line.lineHeight →
      line'.line.top ≤ y → y < line'.line.top + line'.line.lineHeight → line = line'
  cluster_unique : ∀ line ∈ e.lines, ∀ line' ∈ e.lines, ∀ c ∈ line.clusters,
    ∀ c' ∈ line'.clusters, ∀ q, c.box.contains q = true → c'.box.contains q = true → c = c'

/-- A cluster that takes room is painted, and its line is painted at the origin of the window. -/
def AtWindowOrigin (e : InteractiveText R) : Prop :=
  ∀ line ∈ e.lines, ∀ c ∈ line.clusters, 0 < c.box.size.width → 0 < c.box.size.height →
    (∃ i ∈ c.drawnBy, line.line.KeepsItem i) ∧
      line.line.renderOrigin (e.scaled e.origin) = ⟨0, 0⟩

end InteractiveText

/-- The glyphs that a line paints are those that it keeps. -/
theorem Line.mem_kept_iff {line : Line R} {glyph : Glyph} :
    glyph ∈ line.kept 0 line.glyphs ↔
      ∃ i, line.glyphs[i]? = some glyph ∧ line.KeepsItem i := by
  cases hitem : line.item with
  | none =>
    rw [kept_zero_none hitem, List.mem_iff_getElem?]
    refine exists_congr fun i => (and_iff_left ?_).symm
    intro j hj
    rw [hitem] at hj
    cases hj
  | some k =>
    have hkeeps : ∀ i, line.KeepsItem i ↔ if line.isStartTruncation then k ≤ i else i < k := by
      intro i
      simp only [KeepsItem, hitem, Option.some.injEq, forall_eq']
    simp only [hkeeps]
    cases hstart : line.isStartTruncation with
    | true =>
      rw [kept_zero_of_start hstart hitem, List.mem_iff_getElem?]
      constructor
      · rintro ⟨i, hi⟩
        rw [List.getElem?_drop] at hi
        exact ⟨k + i, hi, Nat.le_add_right k i⟩
      · rintro ⟨i, hi, hle⟩
        have hle' : k ≤ i := hle
        refine ⟨i - k, ?_⟩
        rwa [List.getElem?_drop, Nat.add_sub_cancel' hle']
    | false =>
      rw [kept_zero_of_end hstart hitem, List.mem_iff_getElem?]
      constructor
      · rintro ⟨i, hi⟩
        obtain ⟨hlt, hi'⟩ : i < k ∧ line.glyphs[i]? = some glyph := by
          rw [List.getElem?_take] at hi
          split at hi
          · rename_i hlt
            exact ⟨hlt, hi⟩
          · cases hi
        exact ⟨i, hi', hlt⟩
      · rintro ⟨i, hi, hlt⟩
        have hlt' : i < k := hlt
        refine ⟨i, ?_⟩
        rwa [List.getElem?_take_of_lt hlt']

/-- What draws a cluster is painted from the origin of the element, for each kept glyph. -/
theorem InteractiveText.paintGlyph_mem_paint {e : InteractiveText R} {line : ClusteredLine R}
    (hline : line ∈ e.lines) {i : ℕ} {glyph : Glyph} (hglyph : line.line.glyphs[i]? = some glyph)
    (hkeeps : line.line.KeepsItem i) : ∃ data color, .paintGlyph glyph
      (line.line.renderOrigin (e.scaled e.origin)) data color ∈ e.paint := by
  have hkept := Line.mem_kept_iff.mpr ⟨i, hglyph, hkeeps⟩
  rw [Line.glyphs, ← Line.flatMap_kept] at hkept
  obtain ⟨run, hrun, hmem⟩ := List.mem_flatMap.mp hkept
  refine ⟨run.2.data, run.2.style.brush.color, List.mem_flatMap.mpr ⟨line, hline, ?_⟩⟩
  rw [Line.paint_eq]
  refine List.mem_cons_of_mem _ (List.mem_append_left _ (List.mem_append_right _ ?_))
  refine List.mem_flatMap.mpr ⟨run, hrun, List.mem_append_left _ ?_⟩
  exact List.mem_map.mpr ⟨glyph, hmem, rfl⟩

/-! ## Intervals that are moved -/

/-- If intervals are inside themselves when they are moved, they are not moved at all. -/
theorem eq_zero_of_covered_shift (intervals : Finset (ℚ × ℚ)) {d : ℚ}
    (hne : intervals.Nonempty) (hpos : ∀ i ∈ intervals, i.1 < i.2)
    (hcover : ∀ x, (∃ i ∈ intervals, i.1 ≤ x ∧ x < i.2) →
      ∃ i ∈ intervals, i.1 + d ≤ x ∧ x < i.2 + d) : d = 0 := by
  rcases lt_trichotomy d 0 with hneg | hzero | hd
  · -- the last interval has a point behind all of those that are moved back
    obtain ⟨last, hlast, hmax⟩ := intervals.exists_max_image Prod.snd hne
    have hlt : max last.1 (last.2 + d) < last.2 :=
      max_lt (hpos last hlast) (by linarith)
    obtain ⟨i, hi, -, hright⟩ := hcover _ ⟨last, hlast, le_max_left _ _, hlt⟩
    have hle := hmax i hi
    have hle' := le_max_right last.1 (last.2 + d)
    linarith
  · exact hzero
  · -- the first interval starts before all of those that are moved on
    obtain ⟨first, hfirst, hmin⟩ := intervals.exists_min_image Prod.fst hne
    obtain ⟨i, hi, hleft, -⟩ := hcover first.1 ⟨first, hfirst, le_rfl, hpos first hfirst⟩
    have hle := hmin i hi
    linarith

namespace InteractiveText

variable {e : InteractiveText R} {line line' : ClusteredLine R} {c : Cluster} {p : Point ℚ}

theorem contains_iff {b : Bounds ℚ} {q : Point ℚ} : b.contains q = true ↔
    (b.origin.x ≤ q.x ∧ q.x < b.origin.x + b.size.width) ∧
      (b.origin.y ≤ q.y ∧ q.y < b.origin.y + b.size.height) := Bounds.mem_points

/-- Every point is the scaled one of a position. -/
theorem exists_scaled_eq (e : InteractiveText R) (q : Point ℚ) : ∃ p, e.scaled p = q := by
  have hscale := e.scale_pos.ne'
  refine ⟨⟨q.x / e.scale, q.y / e.scale⟩, ?_⟩
  simp only [scaled, div_mul_cancel₀ _ hscale]

theorem indexAt_eq (e : InteractiveText R) (p : Point ℚ) : e.indexAt p =
    (e.fromPointExact (e.scaled p)).map fun found => (found.1.cursorAt found.2).index := by
  rw [indexAt, indexForPosition, cursorAt, if_pos rfl]
  cases e.fromPointExact (e.scaled p) <;> rfl

theorem indexAt_eq_none_iff (hlookup : e.LooksUp) : e.indexAt p = none ↔
    ∀ line ∈ e.lines, ∀ c ∈ line.clusters, c.box.contains (e.scaled p) = false := by
  rw [indexAt_eq, Option.map_eq_none_iff]
  refine ⟨hlookup.missed _, fun h => ?_⟩
  cases hfound : e.fromPointExact (e.scaled p) with
  | none => rfl
  | some found =>
    obtain ⟨⟨line, hline, hc⟩, hcontains, -⟩ := hlookup.found _ found.1 found.2 hfound
    rw [h line hline found.1 hc] at hcontains
    cases hcontains

theorem size_pos_of_contains {b : Bounds ℚ} {q : Point ℚ} (h : b.contains q = true) :
    0 < b.size.width ∧ 0 < b.size.height := by
  obtain ⟨hx, hy⟩ := contains_iff.mp h
  exact ⟨by linarith, by linarith⟩

theorem translate_zero (b : Bounds ℚ) : b.translate ⟨0, 0⟩ = b := by
  simp only [Bounds.translate, add_zero]

/-- At the origin of the window, a cluster is painted where it is in the layout. -/
theorem AtWindowOrigin.paintedUnder_iff (h : e.AtWindowOrigin) (hline : line ∈ e.lines)
    (hc : c ∈ line.clusters) :
    e.PaintedUnder line c p ↔ c.box.contains (e.scaled p) = true := by
  constructor
  · rintro ⟨-, hpainted⟩
    obtain ⟨hwidth, hheight⟩ := size_pos_of_contains hpainted
    obtain ⟨-, horigin⟩ := h line hline c hc hwidth hheight
    rwa [paintedBox, horigin, translate_zero] at hpainted
  · intro hcontains
    obtain ⟨hwidth, hheight⟩ := size_pos_of_contains hcontains
    obtain ⟨hkept, horigin⟩ := h line hline c hc hwidth hheight
    refine ⟨hkept, ?_⟩
    rwa [paintedBox, horigin, translate_zero]

theorem AtWindowOrigin.hitsPainted (h : e.AtWindowOrigin) (hlookup : e.LooksUp) :
    e.HitsPainted where
  nearest p index hindex := by
    rw [indexAt_eq, Option.map_eq_some_iff] at hindex
    obtain ⟨⟨c, side⟩, hfound, rfl⟩ := hindex
    obtain ⟨⟨line, hline, hc⟩, hcontains, hside⟩ := hlookup.found _ c side hfound
    refine ⟨line, hline, c, hc, (h.paintedUnder_iff hline hc).mpr hcontains, ?_⟩
    obtain ⟨hwidth, hheight⟩ := size_pos_of_contains hcontains
    rw [paintedBox, (h line hline c hc hwidth hheight).2, translate_zero]
    rcases hside with ⟨rfl, hnearer⟩ | ⟨rfl, hnearer⟩
    · exact Or.inl ⟨rfl, hnearer⟩
    · exact Or.inr ⟨rfl, hnearer⟩
  none_iff p := by
    rw [indexAt_eq_none_iff hlookup]
    refine forall₂_congr fun line hline => forall₂_congr fun c hc => ?_
    rw [h.paintedUnder_iff hline hc, Bool.not_eq_true]

/-- Where the layout has a cluster, one is painted. -/
theorem HitsPainted.exists_painted (h : e.HitsPainted) (hlookup : e.LooksUp)
    (hline : line ∈ e.lines) (hc : c ∈ line.clusters) {q : Point ℚ}
    (hcontains : c.box.contains q = true) :
    ∃ line' ∈ e.lines, ∃ c' ∈ line'.clusters, (∃ i ∈ c'.drawnBy, line'.line.KeepsItem i) ∧
      (e.paintedBox line' c').contains q = true := by
  obtain ⟨p, rfl⟩ := e.exists_scaled_eq q
  have hsome : e.indexAt p ≠ none := by
    rw [Ne, indexAt_eq_none_iff hlookup]
    intro hnone
    rw [hnone line hline c hc] at hcontains
    cases hcontains
  rw [Ne, h.none_iff] at hsome
  push Not at hsome
  exact hsome

theorem paintedBox_eq (e : InteractiveText R) (line : ClusteredLine R) (c : Cluster) :
    e.paintedBox line c =
      c.box.translate ⟨line.line.shift + (e.scaled e.origin).x, (e.scaled e.origin).y⟩ := by
  rw [paintedBox, Line.renderOrigin_eq, zero_add]

theorem contains_corner {b : Bounds ℚ} (hwidth : 0 < b.size.width) (hheight : 0 < b.size.height) :
    b.contains b.origin = true :=
  contains_iff.mpr ⟨⟨le_rfl, by linarith⟩, le_rfl, by linarith⟩

/-- An element with a cluster that takes room is not moved down. -/
theorem HitsPainted.origin_y (h : e.HitsPainted) (hlookup : e.LooksUp) (hline : line ∈ e.lines)
    (hc : c ∈ line.clusters) (hwidth : 0 < c.box.size.width) (hheight : 0 < c.box.size.height) :
    (e.scaled e.origin).y = 0 := by
  let visible := (e.lines.flatMap ClusteredLine.clusters).filter fun c =>
    0 < c.box.size.width ∧ 0 < c.box.size.height
  let rows := (visible.map fun c => (c.box.origin.y, c.box.origin.y + c.box.size.height)).toFinset
  have hmem : ∀ i, i ∈ rows ↔ ∃ line ∈ e.lines, ∃ c ∈ line.clusters,
      (0 < c.box.size.width ∧ 0 < c.box.size.height) ∧
        (c.box.origin.y, c.box.origin.y + c.box.size.height) = i := by
    intro i
    simp only [rows, visible, List.mem_toFinset, List.mem_map, List.mem_filter, List.mem_flatMap,
      decide_eq_true_eq]
    constructor
    · rintro ⟨c, ⟨⟨line, hline, hc⟩, hvisible⟩, hi⟩
      exact ⟨line, hline, c, hc, hvisible, hi⟩
    · rintro ⟨line, hline, c, hc, hvisible, hi⟩
      exact ⟨c, ⟨⟨line, hline, hc⟩, hvisible⟩, hi⟩
  refine eq_zero_of_covered_shift rows
    ⟨_, (hmem _).mpr ⟨line, hline, c, hc, ⟨hwidth, hheight⟩, rfl⟩⟩ ?_ ?_
  · intro i hi
    obtain ⟨-, -, c, -, hvisible, rfl⟩ := (hmem i).mp hi
    exact lt_add_of_pos_right _ hvisible.2
  · rintro y ⟨i, hi, hy⟩
    obtain ⟨line, hline, c, hc, hvisible, rfl⟩ := (hmem i).mp hi
    have hcontains : c.box.contains ⟨c.box.origin.x, y⟩ = true :=
      contains_iff.mpr ⟨⟨le_rfl, lt_add_of_pos_right _ hvisible.1⟩, hy⟩
    obtain ⟨line', hline', c', hc', -, hpainted⟩ := h.exists_painted hlookup hline hc hcontains
    rw [paintedBox_eq] at hpainted
    have hsize := size_pos_of_contains hpainted
    obtain ⟨-, hy'⟩ := contains_iff.mp hpainted
    refine ⟨_, (hmem _).mpr ⟨line', hline', c', hc', hsize, rfl⟩, ?_⟩
    simp only [Bounds.translate] at hy'
    exact ⟨hy'.1, by linarith [hy'.2]⟩

/-- And where a line has a cluster, one of the same line is painted. -/
theorem HitsPainted.exists_painted_line (h : e.HitsPainted) (hlookup : e.LooksUp)
    (hlaid : e.LaidOut) (hline : line ∈ e.lines) (hc : c ∈ line.clusters) {q : Point ℚ}
    (hcontains : c.box.contains q = true) :
    ∃ c' ∈ line.clusters, (∃ i ∈ c'.drawnBy, line.line.KeepsItem i) ∧
      (c'.box.translate ⟨line.line.shift + (e.scaled e.origin).x, 0⟩).contains q = true := by
  obtain ⟨line', hline', c', hc', hkept, hpainted⟩ :=
    h.exists_painted hlookup hline hc hcontains
  obtain ⟨hwidth, hheight⟩ := size_pos_of_contains hcontains
  rw [paintedBox_eq, h.origin_y hlookup hline hc hwidth hheight] at hpainted
  have hy := (contains_iff.mp hcontains).2
  have hy' := (contains_iff.mp hpainted).2
  simp only [Bounds.translate, add_zero] at hy'
  rw [(hlaid.row line hline c hc).1, (hlaid.row line hline c hc).2] at hy
  rw [(hlaid.row line' hline' c' hc').1, (hlaid.row line' hline' c' hc').2] at hy'
  obtain rfl := hlaid.line_unique line hline line' hline' q.y hy.1 hy.2 hy'.1 hy'.2
  exact ⟨c', hc', hkept, hpainted⟩

/-- A line with a cluster that takes room is not moved along. -/
theorem HitsPainted.origin_x (h : e.HitsPainted) (hlookup : e.LooksUp) (hlaid : e.LaidOut)
    (hline : line ∈ e.lines) (hc : c ∈ line.clusters) (hwidth : 0 < c.box.size.width)
    (hheight : 0 < c.box.size.height) : line.line.shift + (e.scaled e.origin).x = 0 := by
  let visible := line.clusters.filter fun c => 0 < c.box.size.width ∧ 0 < c.box.size.height
  let columns := (visible.map fun c => (c.box.origin.x, c.box.origin.x + c.box.size.width)).toFinset
  have hmem : ∀ i, i ∈ columns ↔ ∃ c ∈ line.clusters,
      (0 < c.box.size.width ∧ 0 < c.box.size.height) ∧
        (c.box.origin.x, c.box.origin.x + c.box.size.width) = i := by
    intro i
    simp only [columns, visible, List.mem_toFinset, List.mem_map, List.mem_filter,
      decide_eq_true_eq, and_assoc]
  refine eq_zero_of_covered_shift columns
    ⟨_, (hmem _).mpr ⟨c, hc, ⟨hwidth, hheight⟩, rfl⟩⟩ ?_ ?_
  · intro i hi
    obtain ⟨c, -, hvisible, rfl⟩ := (hmem i).mp hi
    exact lt_add_of_pos_right _ hvisible.1
  · rintro x ⟨i, hi, hx⟩
    obtain ⟨c, hc, hvisible, rfl⟩ := (hmem i).mp hi
    have hcontains : c.box.contains ⟨x, c.box.origin.y⟩ = true :=
      contains_iff.mpr ⟨hx, le_rfl, lt_add_of_pos_right _ hvisible.2⟩
    obtain ⟨c', hc', -, hpainted⟩ := h.exists_painted_line hlookup hlaid hline hc hcontains
    have hsize := size_pos_of_contains hpainted
    obtain ⟨hx', -⟩ := contains_iff.mp hpainted
    refine ⟨_, (hmem _).mpr ⟨c', hc', hsize, rfl⟩, ?_⟩
    simp only [Bounds.translate] at hx'
    exact ⟨hx'.1, by linarith [hx'.2]⟩

theorem HitsPainted.atWindowOrigin (h : e.HitsPainted) (hlookup : e.LooksUp)
    (hlaid : e.LaidOut) : e.AtWindowOrigin := by
  intro line hline c hc hwidth hheight
  have hx := h.origin_x hlookup hlaid hline hc hwidth hheight
  have hy := h.origin_y hlookup hline hc hwidth hheight
  constructor
  · have hcorner := contains_corner hwidth hheight
    obtain ⟨c', hc', hkept, hpainted⟩ := h.exists_painted_line hlookup hlaid hline hc hcorner
    rw [hx, translate_zero] at hpainted
    rwa [hlaid.cluster_unique line hline line hline c hc c' hc' _ hcorner hpainted]
  · rw [Line.renderOrigin_eq, hx, hy, zero_add]

/-- The only cluster of a line of one glyph, two wide and one high. -/
def singleCluster : Cluster := ⟨0, 1, false, false, ⟨⟨0, 0⟩, ⟨2, 1⟩⟩, [0]⟩

/-- An element with one character, two wide and one high. -/
def singleCharacter (origin : Point ℚ) : InteractiveText Unit where
  origin := origin
  scale := 1
  scale_pos := one_pos
  textLen := 1
  lines := [⟨Line.singleGlyph 0 0, [singleCluster]⟩]
  fromPointExact q :=
    if singleCluster.box.contains q then
      some (singleCluster, if q.x ≤ 1 then .left else .right)
    else none
  fromPoint q := some (singleCluster, if q.x ≤ 1 then .left else .right)

theorem keepsItem_singleGlyph : ∃ i ∈ singleCluster.drawnBy, (Line.singleGlyph 0 0).KeepsItem i :=
  ⟨0, List.mem_cons_self, fun _ hi => by cases hi⟩

theorem looksUp_singleCharacter (origin : Point ℚ) : (singleCharacter origin).LooksUp where
  found q c side h := by
    by_cases hcontains : singleCluster.box.contains q = true
    · have hfound : some (singleCluster, if q.x ≤ 1 then ClusterSide.left else .right) =
          some (c, side) := (if_pos hcontains).symm.trans h
      obtain ⟨rfl, hside⟩ := Prod.mk.inj (Option.some.inj hfound)
      refine ⟨⟨_, List.mem_cons_self, List.mem_cons_self⟩, hcontains, ?_⟩
      simp only [singleCluster, Bounds.bottomRight]
      by_cases hleft : q.x ≤ 1
      · rw [if_pos hleft] at hside
        exact Or.inl ⟨hside.symm, by linarith⟩
      · rw [if_neg hleft] at hside
        exact Or.inr ⟨hside.symm, by linarith⟩
    · have hfound : none = some (c, side) := (if_neg hcontains).symm.trans h
      cases hfound
  missed q h line hline c hc := by
    obtain rfl := List.mem_singleton.mp hline
    obtain rfl := List.mem_singleton.mp hc
    rw [← Bool.not_eq_true]
    intro hcontains
    have hfound := (if_pos hcontains).symm.trans h
    cases hfound

theorem laidOut_singleCharacter (origin : Point ℚ) : (singleCharacter origin).LaidOut where
  row line hline c hc := by
    obtain rfl := List.mem_singleton.mp hline
    obtain rfl := List.mem_singleton.mp hc
    exact ⟨rfl, rfl⟩
  line_unique line hline line' hline' _ _ _ _ _ :=
    (List.mem_singleton.mp hline).trans (List.mem_singleton.mp hline').symm
  cluster_unique line hline line' hline' c hc c' hc' _ _ _ := by
    obtain rfl := List.mem_singleton.mp hline
    obtain rfl := List.mem_singleton.mp hline'
    exact (List.mem_singleton.mp hc).trans (List.mem_singleton.mp hc').symm

end InteractiveText

end Lucie
