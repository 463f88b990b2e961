import Lucie.Text.Paint

/-!
# The decorations of a line

Each run with a kept glyph is to have its background, underline and strikethrough on exactly its
kept glyphs. No background is painted. A run that is cut from the end loses its decorations, and
one that is cut from the start has them on all of its glyphs.
-/

set_option autoImplicit false

namespace Lucie

/-- If no part is longer, two concatenations are equal part by part. -/
theorem flatMap_eq_flatMap_iff {α β : Type} {f g : α → List β} {l : List α}
    (hle : ∀ x ∈ l, (f x).length ≤ (g x).length) :
    l.flatMap f = l.flatMap g ↔ ∀ x ∈ l, f x = g x := by
  refine ⟨fun h => ?_, List.flatMap_congr⟩
  induction l with
  | nil => exact fun x hx => absurd hx List.not_mem_nil
  | cons x l ih =>
    rw [List.forall_mem_cons] at hle
    have htail : ∀ l' : List α, (∀ y ∈ l', (f y).length ≤ (g y).length) →
        (l'.flatMap f).length ≤ (l'.flatMap g).length := by
      intro l' hl'
      rw [List.length_flatMap, List.length_flatMap]
      exact List.sum_le_sum hl'
    have hlength := congrArg List.length h
    have hle' := htail l hle.2
    simp only [List.flatMap_cons, List.length_append] at h hlength
    obtain ⟨hx, hl⟩ := List.append_inj h (by have := hle.1; omega)
    exact List.forall_mem_cons.mpr ⟨hx, ih hle.2 hl⟩

variable {R : Type}

namespace PaintOp

def isGlyph : PaintOp R → Bool
  | .paintGlyph .. => true
  | _ => false

def underline : PaintOp R → List (PaintOp R)
  | .paintUnderline origin width style => [.paintUnderline origin width style]
  | _ => []

def strikethrough : PaintOp R → List (PaintOp R)
  | .paintStrikethrough origin width style => [.paintStrikethrough origin width style]
  | _ => []

/-- Where a background starts, how wide it is and its color. -/
def background : PaintOp R → List (ℚ × ℚ × Hsla ℚ)
  | .paintBackground bounds color => [(bounds.origin.x, bounds.size.width, color)]
  | _ => []

end PaintOp

namespace Line

/-- The glyphs that are cut from the start of a run. -/
def cutBefore (line : Line R) (n : ℕ) (glyphs : List Glyph) : List Glyph :=
  line.item.elim [] fun i => if line.isStartTruncation then glyphs.take (i - n) else []

/-- The position of the first kept glyph of a run. -/
def keptX (line : Line R) (n : ℕ) (run : GlyphRun R) : ℚ :=
  run.x + totalAdvance (line.cutBefore n run.glyphs)

/-- The width of the kept glyphs of a run. -/
def keptWidth (line : Line R) (n : ℕ) (run : GlyphRun R) : ℚ :=
  totalAdvance (line.kept n run.glyphs)

/-- A decoration of a run, on its kept glyphs. -/
def onKept {α D : Type} (line : Line R) (paint : GlyphRun R → ℚ → ℚ → D → α)
    (style : GlyphRun R → Option D) (run : ℕ × GlyphRun R) : List α :=
  if line.kept run.1 run.2.glyphs = [] then []
  else ((style run.2).map
    (paint run.2 (line.keptX run.1 run.2) (line.keptWidth run.1 run.2))).toList

/-- The kept glyphs of each run are painted in the color of the run, and so are its background,
underline and strikethrough, on the kept glyphs. -/
structure PaintsKept (line : Line R) (origin : Point ℚ) : Prop where
  glyphs : (line.paint origin).filter PaintOp.isGlyph =
    line.affixBefore origin ++ ((numberedRuns 0 line.runs).flatMap fun run =>
      (line.kept run.1 run.2.glyphs).map (run.2.paintGlyph (line.renderOrigin origin))) ++
      line.affixAfter origin
  backgrounds : (line.paint origin).flatMap PaintOp.background =
    (numberedRuns 0 line.runs).flatMap (line.onKept
      (fun _ x width color => ((line.renderOrigin origin).x + x, width, color))
      (·.style.brush.backgroundColor))
  underlines : (line.paint origin).flatMap PaintOp.underline =
    (numberedRuns 0 line.runs).flatMap
      (line.onKept (·.paintUnderline (line.renderOrigin origin)) (·.style.underline))
  strikethroughs : (line.paint origin).flatMap PaintOp.strikethrough =
    (numberedRuns 0 line.runs).flatMap
      (line.onKept (·.paintStrikethrough (line.renderOrigin origin)) (·.style.strikethrough))

/-- No glyph of a run is cut, or those that are cut from its start have no width. -/
def KeepsWidth (line : Line R) (n : ℕ) (run : GlyphRun R) : Prop :=
  line.kept n run.glyphs = run.glyphs ∨
    line.isStartTruncation = true ∧ totalAdvance (line.cutBefore n run.glyphs) = 0

/-- No run with a kept glyph has a background, and those whose width is cut are not decorated. -/
def DecoratesKept (line : Line R) : Prop :=
  ∀ run ∈ numberedRuns 0 line.runs, line.kept run.1 run.2.glyphs ≠ [] →
    run.2.style.brush.backgroundColor = none ∧
      (line.KeepsWidth run.1 run.2 ∨
        run.2.style.underline = none ∧ run.2.style.strikethrough = none)

variable {line : Line R} {origin : Point ℚ} {n : ℕ} {run : GlyphRun R}

/-! ## The width of a run -/

theorem cutBefore_append_kept (hstart : line.isStartTruncation = true) (glyphs : List Glyph) :
    line.cutBefore n glyphs ++ line.kept n glyphs = glyphs := by
  rw [cutBefore, kept]
  cases line.item with
  | none => rfl
  | some i => simp only [Option.elim_some, hstart, if_true, List.take_append_drop]

theorem cutBefore_of_end (hend : line.isStartTruncation = false) (glyphs : List Glyph) :
    line.cutBefore n glyphs = [] := by
  rw [cutBefore]
  cases line.item with
  | none => rfl
  | some i => simp [hend]

theorem width_eq_of_start (n : ℕ) (run : GlyphRun R) (hstart : line.isStartTruncation = true) :
    run.width = totalAdvance (line.cutBefore n run.glyphs) + line.keptWidth n run := by
  rw [run.width_eq, keptWidth, totalAdvance, totalAdvance, totalAdvance, ← List.sum_append,
    ← List.map_append, cutBefore_append_kept hstart]

/-- A run that is cut from the end loses a glyph. -/
theorem kept_ne_of_endsBefore (h : line.endsBefore (n + run.glyphs.length) = true) :
    line.kept n run.glyphs ≠ run.glyphs := by
  obtain ⟨hend, i, hlt, hi⟩ := endsBefore_iff.mp h
  have hpos := List.length_pos_iff.mpr run.glyphs_ne_nil
  intro heq
  have hlength := congrArg List.length heq
  simp only [kept, hi, hend, Option.elim_some, Bool.false_eq_true, if_false,
    List.length_take] at hlength
  omega

theorem kept_ne_nil_of_decorates (h : line.decorates n run = true) :
    line.kept n run.glyphs ≠ [] := by
  rw [decorates] at h
  cases hstart : line.isStartTruncation with
  | true => simpa [hstart] using h
  | false =>
    rw [kept_eq_self hstart (by simpa [hstart] using h)]
    exact run.glyphs_ne_nil

/-- A run with a kept glyph is decorated on exactly its kept glyphs. -/
theorem keepsWidth_iff (hkept : line.kept n run.glyphs ≠ []) :
    line.KeepsWidth n run ↔ line.decorates n run = true ∧
      run.x = line.keptX n run ∧ run.width = line.keptWidth n run := by
  cases hstart : line.isStartTruncation with
  | true =>
    have hdecorates : line.decorates n run = true := by simp [decorates, hstart, hkept]
    have hwidth := width_eq_of_start n run hstart
    have hsame : line.kept n run.glyphs = run.glyphs →
        totalAdvance (line.cutBefore n run.glyphs) = 0 := by
      intro h
      rw [keptWidth, h, ← run.width_eq] at hwidth
      linarith
    simp only [KeepsWidth, hstart, true_and, hdecorates, or_iff_right_of_imp hsame, keptX]
    constructor
    · intro h
      exact ⟨by linarith, by linarith⟩
    · rintro ⟨hx, -⟩
      linarith
  | false =>
    have hx : run.x = line.keptX n run := by
      rw [keptX, cutBefore_of_end hstart, totalAdvance, List.map_nil, List.sum_nil, add_zero]
    simp only [KeepsWidth, hstart, Bool.false_eq_true, false_and, or_false, decorates, if_false,
      hx.symm, true_and]
    cases hafter : line.endsBefore (n + run.glyphs.length) with
    | true => simp [kept_ne_of_endsBefore hafter]
    | false =>
      have hself := kept_eq_self hstart hafter
      simp [keptWidth, hself, run.width_eq]

/-! ## The calls of one kind -/

/-- A decoration of a run as it is painted, on all of its glyphs. -/
def decoration {α D : Type} (line : Line R) (paint : GlyphRun R → ℚ → ℚ → D → α)
    (style : GlyphRun R → Option D) (run : ℕ × GlyphRun R) : List α :=
  if line.decorates run.1 run.2 then
    ((style run.2).map (paint run.2 run.2.x run.2.width)).toList
  else []

theorem length_decoration_le {α D : Type} (paint : GlyphRun R → ℚ → ℚ → D → α)
    (style : GlyphRun R → Option D) (run : ℕ × GlyphRun R) :
    (line.decoration paint style run).length ≤ (line.onKept paint style run).length := by
  rw [decoration, onKept]
  split
  · rename_i h
    rw [if_neg (kept_ne_nil_of_decorates h), Option.length_toList, Option.length_toList,
      Option.isSome_map, Option.isSome_map]
  · exact Nat.zero_le _

theorem decoration_eq_onKept_iff {α D : Type} {paint : GlyphRun R → ℚ → ℚ → D → α}
    {style : GlyphRun R → Option D} {run : ℕ × GlyphRun R}
    (hpaint : ∀ x width x' width' d, paint run.2 x width d = paint run.2 x' width' d ↔
      x = x' ∧ width = width') :
    line.decoration paint style run = line.onKept paint style run ↔
      (line.kept run.1 run.2.glyphs ≠ [] → line.KeepsWidth run.1 run.2 ∨ style run.2 = none) := by
  rw [decoration, onKept]
  by_cases hkept : line.kept run.1 run.2.glyphs = []
  · have hdecorates : ¬line.decorates run.1 run.2 = true :=
      fun h => kept_ne_nil_of_decorates h hkept
    simp [hkept, hdecorates]
  · have hwidth := keepsWidth_iff hkept
    rw [if_neg hkept, imp_iff_right hkept, hwidth]
    by_cases hdecorates : line.decorates run.1 run.2 = true
    · rw [if_pos hdecorates]
      cases style run.2 with
      | none => simp
      | some d => simp [hdecorates, hpaint]
    · rw [if_neg hdecorates]
      cases style run.2 with
      | none => simp
      | some d => simp [hdecorates]

theorem isGlyph_of_mem_paintAffix {x : ℚ} {op : PaintOp R} (h : op ∈ line.paintAffix origin x) :
    op.isGlyph = true := by
  rw [paintAffix] at h
  split at h
  · cases h
  · obtain ⟨glyph, -, rfl⟩ := List.mem_map.mp h
    rfl

theorem isGlyph_of_mem_affixBefore {op : PaintOp R} (h : op ∈ line.affixBefore origin) :
    op.isGlyph = true := by
  rw [affixBefore] at h
  split at h
  · exact isGlyph_of_mem_paintAffix h
  · cases h

theorem isGlyph_of_mem_affixAfter {op : PaintOp R} (h : op ∈ line.affixAfter origin) :
    op.isGlyph = true := by
  rw [affixAfter] at h
  split at h
  · exact isGlyph_of_mem_paintAffix h
  · cases h

/-- What is painted of a run are its glyphs, its underline and its strikethrough. -/
theorem paintRun_eq (renderOrigin : Point ℚ) (run : ℕ × GlyphRun R) :
    line.paintRun renderOrigin run.1 run.2 =
      (line.kept run.1 run.2.glyphs).map (run.2.paintGlyph renderOrigin) ++
        (line.decoration (·.paintUnderline renderOrigin) (·.style.underline) run ++
          line.decoration (·.paintStrikethrough renderOrigin) (·.style.strikethrough) run) := by
  rw [paintRun, decoration, decoration]
  split
  · rfl
  · simp only [List.append_nil]

/-- The calls of a kind other than glyphs and layers. -/
theorem flatMap_paint {α : Type} (f : PaintOp R → List α)
    (hlayer : ∀ bounds, f (.createLayer bounds) = [])
    (hglyph : ∀ op, op.isGlyph = true → f op = []) :
    (line.paint origin).flatMap f = (numberedRuns 0 line.runs).flatMap fun run =>
      (line.decoration (·.paintUnderline (line.renderOrigin origin)) (·.style.underline) run ++
        line.decoration (·.paintStrikethrough (line.renderOrigin origin)) (·.style.strikethrough)
          run).flatMap f := by
  have hnil : ∀ ops : List (PaintOp R), (∀ op ∈ ops, op.isGlyph = true) → ops.flatMap f = [] :=
    fun ops hops => List.flatMap_eq_nil_iff.mpr fun op hop => hglyph op (hops op hop)
  rw [paint_eq, List.flatMap_cons, hlayer, List.nil_append, List.flatMap_append,
    List.flatMap_append, hnil _ fun _ => isGlyph_of_mem_affixBefore,
    hnil _ fun _ => isGlyph_of_mem_affixAfter, List.nil_append, List.append_nil,
    List.flatMap_assoc]
  refine List.flatMap_congr fun run _ => ?_
  rw [paintRun_eq, List.flatMap_append, hnil, List.nil_append]
  intro op hop
  obtain ⟨glyph, -, rfl⟩ := List.mem_map.mp hop
  rfl

theorem flatMap_decoration_self {D : Type} {paint : GlyphRun R → ℚ → ℚ → D → PaintOp R}
    {style : GlyphRun R → Option D} {f : PaintOp R → List (PaintOp R)}
    (hf : ∀ run x width d, f (paint run x width d) = [paint run x width d])
    (run : ℕ × GlyphRun R) :
    (line.decoration paint style run).flatMap f = line.decoration paint style run := by
  rw [decoration]
  split
  · cases style run.2 with
    | none => rfl
    | some d => simp [hf]
  · rfl

theorem flatMap_decoration_nil {α D : Type} {paint : GlyphRun R → ℚ → ℚ → D → PaintOp R}
    {style : GlyphRun R → Option D} {f : PaintOp R → List α}
    (hf : ∀ run x width d, f (paint run x width d) = []) (run : ℕ × GlyphRun R) :
    (line.decoration paint style run).flatMap f = [] := by
  rw [decoration]
  split
  · cases style run.2 with
    | none => rfl
    | some d => simp [hf]
  · rfl

theorem underline_paint : (line.paint origin).flatMap PaintOp.underline =
    (numberedRuns 0 line.runs).flatMap
      (line.decoration (·.paintUnderline (line.renderOrigin origin)) (·.style.underline)) := by
  rw [flatMap_paint PaintOp.underline (fun _ => rfl) fun op hop => by
    cases op <;> first | rfl | cases hop]
  refine List.flatMap_congr fun run _ => ?_
  rw [List.flatMap_append, flatMap_decoration_self fun _ _ _ _ => rfl,
    flatMap_decoration_nil fun _ _ _ _ => rfl, List.append_nil]

theorem strikethrough_paint : (line.paint origin).flatMap PaintOp.strikethrough =
    (numberedRuns 0 line.runs).flatMap
      (line.decoration (·.paintStrikethrough (line.renderOrigin origin))
        (·.style.strikethrough)) := by
  rw [flatMap_paint PaintOp.strikethrough (fun _ => rfl) fun op hop => by
    cases op <;> first | rfl | cases hop]
  refine List.flatMap_congr fun run _ => ?_
  rw [List.flatMap_append, flatMap_decoration_nil fun _ _ _ _ => rfl,
    flatMap_decoration_self fun _ _ _ _ => rfl, List.nil_append]

/-- No background is painted. -/
theorem background_paint : (line.paint origin).flatMap PaintOp.background = [] := by
  rw [flatMap_paint PaintOp.background (fun _ => rfl) fun op hop => by
    cases op <;> first | rfl | cases hop]
  refine List.flatMap_eq_nil_iff.mpr fun run _ => ?_
  rw [List.flatMap_append, flatMap_decoration_nil fun _ _ _ _ => rfl,
    flatMap_decoration_nil fun _ _ _ _ => rfl, List.nil_append]

theorem glyph_paint : (line.paint origin).filter PaintOp.isGlyph =
    line.affixBefore origin ++ ((numberedRuns 0 line.runs).flatMap fun run =>
      (line.kept run.1 run.2.glyphs).map (run.2.paintGlyph (line.renderOrigin origin))) ++
      line.affixAfter origin := by
  have hdecoration : ∀ {D : Type} (paint : GlyphRun R → ℚ → ℚ → D → PaintOp R)
      (style : GlyphRun R → Option D) (run : ℕ × GlyphRun R),
      (∀ run x width d, (paint run x width d).isGlyph = false) →
        (line.decoration paint style run).filter PaintOp.isGlyph = [] := by
    intro D paint style run hpaint
    rw [decoration]
    split
    · cases style run.2 <;> simp [hpaint]
    · rfl
  rw [paint_eq, List.filter_cons_of_neg Bool.false_ne_true, List.filter_append,
    List.filter_append, List.filter_eq_self.mpr fun op => isGlyph_of_mem_affixBefore,
    List.filter_eq_self.mpr fun op => isGlyph_of_mem_affixAfter, List.filter_flatMap]
  congr 2
  refine List.flatMap_congr fun run _ => ?_
  rw [paintRun_eq, List.filter_append, List.filter_append, hdecoration _ _ _ fun _ _ _ _ => rfl,
    hdecoration _ _ _ fun _ _ _ _ => rfl, List.append_nil, List.append_nil,
    List.filter_eq_self.mpr]
  intro op hop
  obtain ⟨glyph, -, rfl⟩ := List.mem_map.mp hop
  rfl

/-! ## When the decorations are right -/

theorem onKept_eq_nil_iff {α D : Type} {paint : GlyphRun R → ℚ → ℚ → D → α}
    {style : GlyphRun R → Option D} {run : ℕ × GlyphRun R} :
    line.onKept paint style run = [] ↔
      (line.kept run.1 run.2.glyphs ≠ [] → style run.2 = none) := by
  rw [onKept]
  split
  · rename_i h
    simp [h]
  · rename_i h
    cases style run.2 <;> simp [h]

theorem paintUnderline_inj (run : GlyphRun R) (origin : Point ℚ) (x width x' width' : ℚ)
    (d : Decoration) : run.paintUnderline origin x width d =
      run.paintUnderline origin x' width' d ↔ x = x' ∧ width = width' := by
  simp [GlyphRun.paintUnderline]

theorem paintStrikethrough_inj (run : GlyphRun R) (origin : Point ℚ) (x width x' width' : ℚ)
    (d : Decoration) : run.paintStrikethrough origin x width d =
      run.paintStrikethrough origin x' width' d ↔ x = x' ∧ width = width' := by
  simp [GlyphRun.paintStrikethrough]

/-- The decorations of one kind are right if no run that has one is cut. -/
theorem decorations_eq_iff {α D : Type} (line : Line R) {paint : GlyphRun R → ℚ → ℚ → D → α}
    (style : GlyphRun R → Option D)
    (hpaint : ∀ run x width x' width' d, paint run x width d = paint run x' width' d ↔
      x = x' ∧ width = width') :
    (numberedRuns 0 line.runs).flatMap (line.decoration paint style) =
        (numberedRuns 0 line.runs).flatMap (line.onKept paint style) ↔
      ∀ run ∈ numberedRuns 0 line.runs, line.kept run.1 run.2.glyphs ≠ [] →
        line.KeepsWidth run.1 run.2 ∨ style run.2 = none := by
  rw [flatMap_eq_flatMap_iff fun run _ => length_decoration_le paint style run]
  exact forall₂_congr fun run _ => decoration_eq_onKept_iff (hpaint run.2)

/-- A run of two glyphs of width 1 with a background and an underline. -/
def decoratedRun : GlyphRun Unit where
  data := ()
  style :=
    { brush := ⟨⟨0, 0, 0, 1⟩, some ⟨0, 0, 1, 1⟩, false⟩
      underline := some ⟨⟨⟨0, 0, 0, 1⟩, none, false⟩, none, none⟩
      strikethrough := none }
  x := 0
  y := 1
  width := 2
  glyphs := [⟨0, 0, 1, 1, ⟨⟨0, 0⟩, ⟨1, 1⟩⟩⟩, ⟨1, 1, 1, 1, ⟨⟨1, 0⟩, ⟨1, 1⟩⟩⟩]
  glyphs_ne_nil := by decide
  width_eq := by norm_num [totalAdvance]

/-- A line with the run, as it is or cut before its second glyph. -/
def decoratedLine (truncateFrom : Option TruncateFrom) : Line Unit where
  idx := 0
  advance := 2
  lineHeight := 1
  top := 0
  runs := [decoratedRun]
  truncation := truncateFrom.map fun truncateFrom =>
    ⟨"", 0, some 1, truncateFrom, if truncateFrom = .fromStart then 1 else 0, 16, 1,
      ⟨0, 0, 1, none⟩⟩

end Line

end Lucie
