import Lucie.Text.Measure

/-!
# Text elements that share a layout

The layout of a text element is kept under an id that depends on its text, its runs and parts
of its style, but not on the element. Elements with equal ids share one layout, and each
measure call shapes it anew. What an element paints is what the layout holds at that time.
-/

set_option autoImplicit false

namespace Lucie

open Foundation

/-- The text system, and the hash of the ids; `maxValue` is `f32::MAX`. -/
structure TextSystem (U Lines Breaker Affix Style Source Key : Type) where
  build : Source → U → U → WhiteSpace → Style → TextEngine U Lines Breaker Affix Style
  hash : U → Source → WhiteSpace → Option ℕ+ → Option TextOverflow → Key
  maxValue : U

/-- A layout that is shared, with the element that it was built for. -/
structure SharedLayout (U Lines Affix Source Style : Type) where
  builtFor : TextElement U Source Style
  layout : AlignedLayout U Lines Affix

/-- The layouts by their ids, and for each element the id of the layout that its last measure
call in the frame has left with it. -/
structure TextFrame (U Lines Affix Source Style Key I : Type) where
  layouts : Key → Option (SharedLayout U Lines Affix Source Style)
  measured : I → Option Key

/-- What happens to the text elements; a new frame keeps some layouts. -/
inductive TextEvent (U Key I : Type)
  | measure (i : I) (p : Probe U)
  | paint (i : I)
  | nextFrame (kept : Key → Bool)

variable {U Lines Breaker Affix Style Source Key I : Type} [Field U] [LinearOrder U]
  [DecidableEq Key] [DecidableEq I]

namespace TextSystem

variable (sys : TextSystem U Lines Breaker Affix Style Source Key)

/-- `global_id`. -/
def globalId (e : TextElement U Source Style) : Key :=
  sys.hash e.scaleFactor e.source e.style.whiteSpace e.style.lineClamp e.style.textOverflow

/-- The layout that is built for an element. -/
def engine (e : TextElement U Source Style) : TextEngine U Lines Breaker Affix Style :=
  sys.build e.source e.fontSize e.scaleFactor e.style.whiteSpace e.style.base

/-- The layout of an id, or a new one for the element. -/
def layoutFor (e : TextElement U Source Style) :
    Option (SharedLayout U Lines Affix Source Style) → SharedLayout U Lines Affix Source Style
  | some shared => shared
  | none => ⟨e, .built (sys.engine e)⟩

end TextSystem

namespace TextFrame

variable (sys : TextSystem U Lines Breaker Affix Style Source Key)
  (elements : I → TextElement U Source Style)

/-- No element has been measured. -/
def new : TextFrame U Lines Affix Source Style Key I := ⟨fun _ => none, fun _ => none⟩

/-- One event; `none` is a panic. -/
def step (s : TextFrame U Lines Affix Source Style Key I) :
    TextEvent U Key I → Option (TextFrame U Lines Affix Source Style Key I)
  | .measure i p => do
    let id := sys.globalId (elements i)
    let shared := sys.layoutFor (elements i) (s.layouts id)
    let (_, layout) ← shared.layout.measure (sys.engine shared.builtFor) sys.maxValue (elements i) p
    some ⟨Function.update s.layouts id (some { shared with layout }),
      Function.update s.measured i (some id)⟩
  | .paint i => if (s.measured i).isSome then some s else none
  | .nextFrame kept => some ⟨fun id => if kept id then s.layouts id else none, fun _ => none⟩

/-- What `TextLayout::paint` paints: the lines, their alignment and their truncation. -/
def painted (s : TextFrame U Lines Affix Source Style Key I) (i : I) :
    Option (Lines × Option TextAlign × Option (Truncation U Affix)) := do
  let id ← s.measured i
  let shared ← s.layouts id
  some (shared.layout.layout.layout, shared.layout.aligned, shared.layout.layout.truncation)

/-- What an element would paint after a measure call of a layout of its own. -/
def paintedAlone (e : TextElement U Source Style) (p : Probe U) :
    Lines × Option TextAlign × Option (Truncation U Affix) :=
  let l := (Layout.fresh (sys.engine e)).apply (sys.engine e) (e.call sys.maxValue p)
  (l.layout, some e.style.textAlign, l.truncation)

end TextFrame

/-- The last measure call of each element in the frame. -/
def lastProbes (events : List (TextEvent U Key I)) : I → Option (Probe U) :=
  events.foldl (fun probes event =>
    match event with
    | .measure i p => Function.update probes i (some p)
    | .paint _ => probes
    | .nextFrame _ => fun _ => none) fun _ => none

namespace TextElement

/-- Two elements differ at most in their alignment. -/
structure Alike (e e' : TextElement U Source Style) : Prop where
  source : e.source = e'.source
  fontSize : e.fontSize = e'.fontSize
  scaleFactor : e.scaleFactor = e'.scaleFactor
  whiteSpace : e.style.whiteSpace = e'.style.whiteSpace
  lineClamp : e.style.lineClamp = e'.style.lineClamp
  textOverflow : e.style.textOverflow = e'.style.textOverflow
  base : e.style.base = e'.style.base

omit [Field U] [LinearOrder U] in
theorem Alike.refl (e : TextElement U Source Style) : Alike e e :=
  ⟨rfl, rfl, rfl, rfl, rfl, rfl, rfl⟩

variable {e e' : TextElement U Source Style}

omit [Field U] [LinearOrder U] [DecidableEq Key] in
theorem Alike.engine (h : Alike e e') (sys : TextSystem U Lines Breaker Affix Style Source Key) :
    sys.engine e = sys.engine e' := by
  simp only [TextSystem.engine, h.source, h.fontSize, h.scaleFactor, h.whiteSpace, h.base]

omit [LinearOrder U] in
theorem Alike.call (h : Alike e e') (maxValue : U) (p : Probe U) :
    e.call maxValue p = e'.call maxValue p := by
  simp only [TextElement.call, TextElement.wrapWidth, h.scaleFactor, h.whiteSpace, h.lineClamp,
    h.textOverflow, h.base]

theorem Alike.made (h : Alike e e') {engine : TextEngine U Lines Breaker Affix Style}
    {maxValue : U} {l : AlignedLayout U Lines Affix} :
    Made engine maxValue e l ↔ Made engine maxValue e' l := by
  constructor
  · intro hmade
    refine ⟨hmade.kept, hmade.alignment, ?_⟩
    simpa only [h.call] using hmade.shaped
  · intro hmade
    refine ⟨hmade.kept, hmade.alignment, ?_⟩
    simpa only [h.call] using hmade.shaped

end TextElement

namespace TextFrame

open TextElement

variable {sys : TextSystem U Lines Breaker Affix Style Source Key}
  {elements : I → TextElement U Source Style}
  {s : TextFrame U Lines Affix Source Style Key I}

/-- An element is measured on a layout that was built for one like it. -/
def SharesAlike (sys : TextSystem U Lines Breaker Affix Style Source Key)
    (elements : I → TextElement U Source Style)
    (s : TextFrame U Lines Affix Source Style Key I) : TextEvent U Key I → Prop
  | .measure i _ => ∀ shared, s.layouts (sys.globalId (elements i)) = some shared →
    Alike (elements i) shared.builtFor
  | _ => True

/-- The layouts are made for their elements, and the measured elements hold one that was built
for an element like them. -/
structure Holds (sys : TextSystem U Lines Breaker Affix Style Source Key)
    (elements : I → TextElement U Source Style) (events : List (TextEvent U Key I))
    (s : TextFrame U Lines Affix Source Style Key I) : Prop where
  made : ∀ id shared, s.layouts id = some shared →
    Made (sys.engine shared.builtFor) sys.maxValue shared.builtFor shared.layout
  held : ∀ i p, lastProbes events i = some p →
    s.measured i = some (sys.globalId (elements i)) ∧
      ∃ shared, s.layouts (sys.globalId (elements i)) = some shared ∧
        Alike (elements i) shared.builtFor

omit [Field U] [LinearOrder U] [DecidableEq Key] in
theorem lastProbes_append (events : List (TextEvent U Key I)) (event : TextEvent U Key I) :
    lastProbes (events ++ [event]) =
      match event with
      | .measure i p => Function.update (lastProbes events) i (some p)
      | .paint _ => lastProbes events
      | .nextFrame _ => fun _ => none := by
  rw [lastProbes, List.foldl_append]
  rfl

omit [DecidableEq Key] in
theorem holds_new : Holds sys elements [] new := by
  constructor
  · intro id shared hshared
    cases hshared
  · intro i p hprobe
    cases hprobe

/-- A measure call shapes the layout of its element. -/
theorem Holds.measure (hone : ∀ e, (sys.engine e).OneLine) {events : List (TextEvent U Key I)}
    (h : Holds sys elements events s) {i : I} {p : Probe U}
    (halike : s.SharesAlike sys elements (.measure i p))
    {s' : TextFrame U Lines Affix Source Style Key I}
    (hstep : s.step sys elements (.measure i p) = some s') :
    Holds sys elements (events ++ [.measure i p]) s' := by
  have hshared : Alike (elements i)
      (sys.layoutFor (elements i) (s.layouts (sys.globalId (elements i)))).builtFor ∧
      Made (sys.engine (elements i)) sys.maxValue (elements i)
        (sys.layoutFor (elements i) (s.layouts (sys.globalId (elements i)))).layout := by
    cases hlayout : s.layouts (sys.globalId (elements i)) with
    | none => exact ⟨.refl _, made_built⟩
    | some shared =>
      have hbuilt := halike shared hlayout
      refine ⟨hbuilt, hbuilt.made.mpr ?_⟩
      rw [hbuilt.engine sys]
      exact h.made _ _ hlayout
  obtain ⟨hbuilt, hmade⟩ := hshared
  obtain ⟨size, l, hmeasure, hmeasured⟩ := hmade.measure (hone _) p
  simp only [step, ← hbuilt.engine sys, hmeasure, Option.bind_eq_bind, Option.bind_some] at hstep
  obtain rfl := Option.some.inj hstep
  constructor
  · intro id shared
    dsimp only
    by_cases hid : id = sys.globalId (elements i)
    · subst hid
      rw [Function.update_self, Option.some.injEq]
      rintro rfl
      rw [← hbuilt.engine sys]
      exact hbuilt.made.mp hmeasured.made
    · rw [Function.update_of_ne hid]
      exact h.made id shared
  · intro j p' hprobe
    rw [lastProbes_append] at hprobe
    dsimp only at hprobe ⊢
    by_cases hj : j = i
    · subst hj
      rw [Function.update_self, Function.update_self]
      exact ⟨rfl, _, rfl, hbuilt⟩
    · rw [Function.update_of_ne hj] at hprobe ⊢
      obtain ⟨hheld, shared, hlayout, hlike⟩ := h.held j p' hprobe
      refine ⟨hheld, ?_⟩
      by_cases hid : sys.globalId (elements j) = sys.globalId (elements i)
      · rw [hid, Function.update_self]
        refine ⟨_, rfl, ?_⟩
        rw [hid] at hlayout
        simp only [hlayout, TextSystem.layoutFor]
        exact hlike
      · rw [Function.update_of_ne hid]
        exact ⟨shared, hlayout, hlike⟩

theorem holds_of_run (hone : ∀ e, (sys.engine e).OneLine) {events : List (TextEvent U Key I)}
    (run : Run (step sys elements) (SharesAlike sys elements) new events s) :
    Holds sys elements events s := by
  refine run.invariant (Holds sys elements) holds_new ?_
  intro events s event s' h halike hstep
  cases event with
  | measure i p => exact h.measure hone halike hstep
  | paint i =>
    simp only [step] at hstep
    split_ifs at hstep
    obtain rfl := Option.some.inj hstep
    exact ⟨h.made, by rw [lastProbes_append]; exact h.held⟩
  | nextFrame kept =>
    obtain rfl := Option.some.inj hstep
    constructor
    · intro id shared hshared
      dsimp only at hshared
      split_ifs at hshared
      exact h.made id shared hshared
    · intro i p hprobe
      rw [lastProbes_append] at hprobe
      cases hprobe

/-- The layout was last shaped in the mode that the element asked for, and with its
alignment. -/
def ShapedFor (sys : TextSystem U Lines Breaker Affix Style Source Key)
    (e : TextElement U Source Style) (p : Probe U)
    (shared : SharedLayout U Lines Affix Source Style) : Prop :=
  shared.layout.layout.shapeMode = some (e.call sys.maxValue p).mode ∧
    shared.layout.aligned = some e.style.textAlign

/-- As long as only elements that are alike share a layout, an element paints what it would
paint alone if the layout was last shaped for its last measure call. -/
theorem painted_of_run (hone : ∀ e, (sys.engine e).OneLine) {events : List (TextEvent U Key I)}
    (run : Run (step sys elements) (SharesAlike sys elements) new events s) {i : I} {p : Probe U}
    (hprobe : lastProbes events i = some p) :
    ∃ shared, s.layouts (sys.globalId (elements i)) = some shared ∧
      (ShapedFor sys (elements i) p shared →
        s.painted i = some (paintedAlone sys (elements i) p)) := by
  have h := holds_of_run hone run
  obtain ⟨hheld, shared, hlayout, halike⟩ := h.held i p hprobe
  refine ⟨shared, hlayout, ?_⟩
  rintro ⟨hmode, haligned⟩
  have hmade := halike.made.mpr (h.made _ shared hlayout)
  rw [← halike.engine sys] at hmade
  obtain ⟨p', hcall, hsame⟩ := hmade.shaped _ hmode
  rw [call_eq_of_mode hcall] at hsame
  simp only [painted, hheld, hlayout, Option.bind_eq_bind, Option.bind_some, paintedAlone,
    hsame.lines, hsame.truncation, haligned]

instance [DecidableEq Source] [DecidableEq Style] (e e' : TextElement U Source Style) :
    Decidable (Alike e e') :=
  decidable_of_iff (e.source = e'.source ∧ e.fontSize = e'.fontSize ∧
    e.scaleFactor = e'.scaleFactor ∧ e.style.whiteSpace = e'.style.whiteSpace ∧
    e.style.lineClamp = e'.style.lineClamp ∧ e.style.textOverflow = e'.style.textOverflow ∧
    e.style.base = e'.style.base)
    ⟨fun ⟨h₁, h₂, h₃, h₄, h₅, h₆, h₇⟩ => ⟨h₁, h₂, h₃, h₄, h₅, h₆, h₇⟩,
      fun ⟨h₁, h₂, h₃, h₄, h₅, h₆, h₇⟩ => ⟨h₁, h₂, h₃, h₄, h₅, h₆, h₇⟩⟩

instance [DecidableEq Source] [DecidableEq Style] (s : TextFrame U Lines Affix Source Style Key I)
    (event : TextEvent U Key I) : Decidable (s.SharesAlike sys elements event) :=
  match event with
  | .measure i _ => decidable_of_iff
      ((s.layouts (sys.globalId (elements i))).all fun shared =>
        Alike (elements i) shared.builtFor) (by
      simp [SharesAlike, Option.all_eq_true])
  | .paint _ => .isTrue trivial
  | .nextFrame _ => .isTrue trivial

/-- A text system around `twoWords`. -/
def twoWordsSystem : TextSystem ℚ (List (List ℚ)) Bool ℚ Unit Unit
    (WhiteSpace × Option ℕ+ × Option TextOverflow) :=
  ⟨fun _ _ _ _ _ => twoWords, fun _ _ whiteSpace lineClamp textOverflow =>
    (whiteSpace, lineClamp, textOverflow), 1000⟩

/-- Elements that are all equal. -/
def equalElements (_ : ℕ) : TextElement ℚ Unit Unit := twoWordsElement .normal .left

/-- Two equal elements at the same width, after a frame in which they were wider. -/
theorem painted_equalElements : ∃ s,
    Run (step twoWordsSystem equalElements) (SharesAlike twoWordsSystem equalElements) new
      [.measure 0 (.definite 20), .measure 1 (.definite 20), .paint 0, .paint 1,
        .nextFrame fun _ => true, .measure 0 (.definite 8), .measure 1 (.definite 8)] s ∧
    s.painted 0 = some ([[6], [6]], some .left, none) := by
  have hrun : (execute (step twoWordsSystem equalElements)
      (SharesAlike twoWordsSystem equalElements) new
      [.measure 0 (.definite 20), .measure 1 (.definite 20), .paint 0, .paint 1,
        .nextFrame fun _ => true, .measure 0 (.definite 8), .measure 1 (.definite 8)]).any fun s =>
        (s.layouts (twoWordsSystem.globalId (equalElements 0))).all fun shared =>
          shared.layout.layout.shapeMode = some ((equalElements 0).call 1000 (.definite 8)).mode ∧
            shared.layout.aligned = some .left := by decide +kernel
  obtain ⟨s, hs, hshaped⟩ := (Option.any_eq_true _ _).mp hrun
  have run := Run.of_execute hs
  obtain ⟨shared, hlayout, hpainted⟩ := @painted_of_run _ _ _ _ _ _ _ _ _ _ _ _ twoWordsSystem
    equalElements s (fun _ => oneLine_twoWords) _ run 0 (.definite 8) rfl
  rw [hlayout, Option.all_some, decide_eq_true_eq] at hshaped
  refine ⟨s, run, (hpainted hshaped).trans ?_⟩
  decide +kernel

/-- An element paints what another one, which is measured after it, has made of the layout. -/
theorem not_painted_equalElements : ∃ s,
    Run (step twoWordsSystem equalElements) (fun _ _ => True) new
      [.measure 0 (.definite 8), .measure 1 (.definite 20), .paint 0] s ∧
    s.painted 0 = some ([[6, 6]], some .left, none) ∧
    paintedAlone twoWordsSystem (equalElements 0) (.definite 8) =
      ([[6], [6]], some .left, none) := by
  have hrun : (execute (step twoWordsSystem equalElements) (fun _ _ => True) new
      [.measure 0 (.definite 8), .measure 1 (.definite 20), .paint 0]).any fun s =>
        s.painted 0 = some ([[6, 6]], some .left, none) := by decide +kernel
  obtain ⟨s, hs, hpainted⟩ := (Option.any_eq_true _ _).mp hrun
  exact ⟨s, .of_execute hs, of_decide_eq_true hpainted, by decide +kernel⟩

end TextFrame

end Lucie
