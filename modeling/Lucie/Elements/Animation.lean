import Lucie.Foundation.Exact
import Lucie.Window.ElementFrames

/-!
# Chains of animations

An animation element keeps the index of the animation that it plays and the time at which it has
started this one, while its list of animations is made anew for every frame. A one-shot animation
that has run out ends at one and hands over to the next one. The index is in range as long as the
list is not shortened, and the time that has passed is a part of the duration as long as the
duration is not zero.
-/

set_option autoImplicit false

namespace Lucie

open Foundation Drawing

/-- A quotient of two durations as a floating point number. -/
inductive Delta
  | finite (value : ℚ)
  | infinity
  | nan
  deriving DecidableEq

namespace Delta

/-- The quotient of two durations in nanoseconds. -/
def ofDiv (elapsed duration : ℕ) : Delta :=
  if duration = 0 then (if elapsed = 0 then nan else infinity)
  else finite (elapsed / duration)

/-- The comparison `delta > 1.0`. -/
def gtOne : Delta → Bool
  | finite value => 1 < value
  | infinity => true
  | nan => false

/-- The remainder `delta % 1.0`. -/
def remOne : Delta → Delta
  | finite value => finite (Int.fract value)
  | infinity => nan
  | nan => nan

/-- A number between zero and one. -/
def InUnit : Delta → Prop
  | finite value => 0 ≤ value ∧ value ≤ 1
  | _ => False

end Delta

/-- `Animation`. -/
structure Animation where
  duration : ℕ
  oneshot : Bool
  easing : Delta → Delta

/-- `Animation::new`, with the linear easing. -/
def Animation.new (duration : ℕ) : Animation := ⟨duration, true, id⟩

/-- The easing maps the numbers between zero and one to such numbers. -/
def Animation.EasesUnit (animation : Animation) : Prop :=
  ∀ delta : Delta, delta.InUnit → (animation.easing delta).InUnit

/-- `AnimationState`. -/
structure AnimationState where
  start : ℕ
  animationIx : ℕ

namespace AnimationElement

/-- What the clock shows where a layout reads it: for a new state, for the time that has passed,
and where an animation hands over. -/
structure Clock where
  created : ℕ
  read : ℕ
  handedOver : ℕ

/-- What is passed to the animator, the delta before it is eased, and whether another animation
frame is requested. -/
structure Played where
  index : ℕ
  value : Delta
  delta : Delta
  requestsFrame : Bool

/-- `AnimationElement::request_layout`; `none` is an index out of bounds. -/
def requestLayout (animations : List Animation) (state : Option AnimationState) (clock : Clock) :
    Option (Played × AnimationState) := do
  let state := state.getD ⟨clock.created, 0⟩
  let animationIx := state.animationIx
  let animation ← animations[animationIx]?
  let delta := Delta.ofDiv (clock.read - state.start) animation.duration
  let (delta, done, state) :=
    if delta.gtOne then
      if animation.oneshot then
        if animationIx ≥ animations.length - 1 then (.finite 1, true, state)
        else (.finite 1, false,
          { state with start := clock.handedOver, animationIx := state.animationIx + 1 })
      else (delta.remOne, false, state)
    else (delta, false, state)
  some (⟨animationIx, animation.easing delta, delta, !done⟩, state)

/-! ## Frames -/

/-- A frame of the element with its animations, or one that is drawn without it. -/
inductive Frame
  | draw (animations : List Animation) (clock : Clock)
  | without

/-- A frame that was played: what the animator got, and what was to be played. -/
structure Shown where
  played : Played
  animation : Animation
  elapsed : ℕ
  length : ℕ

/-- A one-shot animation that is not the last one has run out. -/
def Shown.RunsOut (shown : Shown) : Prop :=
  shown.animation.duration < shown.elapsed ∧ shown.animation.oneshot ∧
    shown.played.index + 1 < shown.length

instance (shown : Shown) : Decidable shown.RunsOut := inferInstanceAs (Decidable (_ ∧ _))

/-- The animation of a frame after another one: the next one if this has run out, which has then
ended at one, or else the same. -/
def Follows (later earlier : Shown) : Prop :=
  if earlier.RunsOut then
    later.played.index = earlier.played.index + 1 ∧ earlier.played.delta = .finite 1
  else later.played.index = earlier.played.index

/-- The animations are played in their order. The last frame comes first. -/
def InOrder : List Shown → Prop
  | [] => True
  | [first] => first.played.index = 0
  | later :: earlier :: rest => Follows later earlier ∧ InOrder (earlier :: rest)

/-- The frames of an element: the window, the frames that were played since the element was last
inserted, the last one first, and whether a frame has panicked. -/
structure AnimationRun where
  window : StateWindow Unit AnimationState
  shown : List Shown
  panicked : Bool

namespace AnimationRun

/-- A window without the element. -/
def start : AnimationRun := ⟨.new, [], false⟩

/-- The animation that is to be played. -/
def animationIx (s : AnimationRun) : ℕ := (s.window.elementState ()).elim 0 (·.animationIx)

/-- The state that a layout starts from. -/
def state (s : AnimationRun) (clock : Clock) : AnimationState :=
  (s.window.elementState ()).getD ⟨clock.created, 0⟩

/-- The time that has passed since the animation has started. -/
def elapsed (s : AnimationRun) (clock : Clock) : ℕ := clock.read - (s.state clock).start

/-- One frame. After a panic there are no more. -/
def step (s : AnimationRun) (a : Frame) : Option AnimationRun :=
  if s.panicked then none
  else match a with
    | .draw animations clock =>
      match requestLayout animations (s.window.elementState ()) clock,
        animations[s.animationIx]? with
      | some (played, state), some animation =>
        (s.window.drawWith () state).map fun window =>
          ⟨window, ⟨played, animation, s.elapsed clock, animations.length⟩ :: s.shown, false⟩
      | _, _ => some { s with panicked := true }
    | .without => s.window.draw.map fun window => ⟨window, [], false⟩

/-- The list has animations, which ease the unit interval to itself. -/
def Given (_ : AnimationRun) : Frame → Prop
  | .draw animations _ => animations ≠ [] ∧ ∀ animation ∈ animations, animation.EasesUnit
  | .without => True

/-- A list that is shorter than the one before still has the animation that is to be played, and
an animation without a duration is a one-shot one that has been waited for. -/
def Keeps (s : AnimationRun) : Frame → Prop
  | .draw animations clock =>
    (∀ last, s.shown.head? = some last → animations.length < last.length →
      s.animationIx < animations.length) ∧
    ∀ animation, animations[s.animationIx]? = some animation → animation.duration = 0 →
      animation.oneshot ∧ 0 < s.elapsed clock
  | .without => True

/-- No frame has panicked, the animators got indices of their lists and numbers between zero and
one, as did the easings, and the animations were played in their order. -/
structure PlaysInOrder (s : AnimationRun) : Prop where
  indexed : s.panicked = false
  inRange : ∀ frame ∈ s.shown, frame.played.index < frame.length
  inUnit : ∀ frame ∈ s.shown, frame.played.delta.InUnit ∧ frame.played.value.InUnit
  inOrder : InOrder s.shown

end AnimationRun

/-! ## One frame -/

theorem gtOne_ofDiv_iff {elapsed duration : ℕ} :
    (Delta.ofDiv elapsed duration).gtOne = true ↔ duration < elapsed := by
  unfold Delta.ofDiv
  split_ifs with hduration helapsed
  · simp [Delta.gtOne, helapsed]
  · exact iff_of_true rfl (by omega)
  · have hpos : (0 : ℚ) < duration := by
      exact_mod_cast Nat.pos_of_ne_zero hduration
    rw [Delta.gtOne, decide_eq_true_iff, one_lt_div hpos, Nat.cast_lt]

/-- The delta that is eased. -/
def endDelta (animation : Animation) (elapsed : ℕ) : Delta :=
  let delta := Delta.ofDiv elapsed animation.duration
  if delta.gtOne then if animation.oneshot then .finite 1 else delta.remOne else delta

theorem endDelta_of_lt {animation : Animation} {elapsed : ℕ} (hlt : animation.duration < elapsed)
    (honeshot : animation.oneshot = true) : endDelta animation elapsed = .finite 1 := by
  unfold endDelta
  dsimp only
  rw [if_pos (gtOne_ofDiv_iff.mpr hlt), if_pos honeshot]

/-- The delta is between zero and one unless a duration of zero is the divisor. -/
theorem inUnit_endDelta_iff {animation : Animation} {elapsed : ℕ} :
    (endDelta animation elapsed).InUnit ↔
      (animation.duration = 0 → animation.oneshot = true ∧ 0 < elapsed) := by
  unfold endDelta
  dsimp only
  by_cases hduration : animation.duration = 0
  · rw [forall_prop_of_true hduration, hduration]
    by_cases helapsed : elapsed = 0
    · rw [helapsed]
      exact iff_of_false id fun h => absurd h.2 (lt_irrefl 0)
    · have hdiv : Delta.ofDiv elapsed 0 = .infinity := by
        rw [Delta.ofDiv, if_pos rfl, if_neg helapsed]
      rw [hdiv, and_iff_left (Nat.pos_of_ne_zero helapsed)]
      cases animation.oneshot with
      | true => exact iff_of_true ⟨zero_le_one, le_rfl⟩ rfl
      | false => exact iff_of_false id Bool.false_ne_true
  · refine iff_of_true ?_ fun hzero => absurd hzero hduration
    have hdiv : Delta.ofDiv elapsed animation.duration =
        .finite (elapsed / animation.duration) := if_neg hduration
    rw [hdiv]
    split_ifs with hgt honeshot
    · exact ⟨zero_le_one, le_rfl⟩
    · exact ⟨Int.fract_nonneg _, (Int.fract_lt_one _).le⟩
    · exact ⟨by positivity, not_lt.mp fun hlt => hgt (decide_eq_true hlt)⟩

section Layout

variable {animations : List Animation} {state : Option AnimationState} {known : AnimationState}
  {clock : Clock}

/-- A layout of an animation that is there. -/
theorem requestLayout_of_some {animation : Animation}
    (hknown : state.getD ⟨clock.created, 0⟩ = known)
    (hget : animations[known.animationIx]? = some animation) :
    ∃ played state', requestLayout animations state clock = some (played, state') ∧
      played.index = known.animationIx ∧
      played.delta = endDelta animation (clock.read - known.start) ∧
      played.value = animation.easing played.delta ∧
      state'.animationIx = if animation.duration < clock.read - known.start ∧
          animation.oneshot = true ∧ known.animationIx + 1 < animations.length
        then known.animationIx + 1 else known.animationIx := by
  have hlt := (List.getElem?_eq_some_iff.mp hget).1
  have hgt := @gtOne_ofDiv_iff (clock.read - known.start) animation.duration
  simp only [requestLayout, hknown, hget, Option.bind_eq_bind, Option.bind_some]
  refine ⟨_, _, rfl, rfl, ?_, rfl, ?_⟩
  · unfold endDelta
    dsimp only
    split_ifs <;> rfl
  · by_cases hover : animation.duration < clock.read - known.start
    · rw [if_pos (hgt.mpr hover)]
      cases animation.oneshot with
      | false => simp
      | true =>
        by_cases hlast : known.animationIx + 1 < animations.length
        · have hnot : ¬known.animationIx ≥ animations.length - 1 := by omega
          simp [hover, hlast, hnot]
        · have hge : known.animationIx ≥ animations.length - 1 := by omega
          simp [hlast, hge]
    · rw [if_neg (mt hgt.mp hover), if_neg fun h => hover h.1]

theorem requestLayout_of_none (hknown : state.getD ⟨clock.created, 0⟩ = known)
    (hget : animations[known.animationIx]? = none) :
    requestLayout animations state clock = none := by
  simp [requestLayout, hknown, hget]

end Layout

namespace AnimationRun

variable {s s' : AnimationRun} {animations : List Animation} {clock : Clock}

theorem animationIx_state (s : AnimationRun) (clock : Clock) :
    (s.state clock).animationIx = s.animationIx := by
  rw [state, animationIx]
  cases s.window.elementState () with
  | none => rfl
  | some state => rfl

/-- The index for the frame after another one. -/
def nextIx (shown : Shown) : ℕ :=
  if shown.RunsOut then shown.played.index + 1 else shown.played.index

/-- A frame of an animation that is there. -/
theorem step_of_lt (clock : Clock) (hidle : s.window.Idle) (hruns : s.panicked = false)
    (hlt : s.animationIx < animations.length) :
    ∃ window played, s.step (.draw animations clock) = some ⟨window,
        ⟨played, animations[s.animationIx], s.elapsed clock, animations.length⟩ :: s.shown, false⟩ ∧
      window.Idle ∧ played.index = s.animationIx ∧
      played.delta = endDelta animations[s.animationIx] (s.elapsed clock) ∧
      played.value = animations[s.animationIx].easing played.delta ∧
      (window.elementState ()).elim 0 (·.animationIx) =
        nextIx ⟨played, animations[s.animationIx], s.elapsed clock, animations.length⟩ := by
  have hget : animations[s.animationIx]? = some animations[s.animationIx] :=
    List.getElem?_eq_getElem hlt
  have hget' : animations[(s.state clock).animationIx]? = some animations[s.animationIx] := by
    rw [animationIx_state]
    exact hget
  have hknown : (s.window.elementState ()).getD ⟨clock.created, 0⟩ = s.state clock := rfl
  obtain ⟨played, state', hlayout, hindex, hdelta, hvalue, hnext⟩ :=
    requestLayout_of_some hknown hget'
  obtain ⟨window, hdraw, hidle', hstored⟩ := hidle.drawWith () state'
  rw [animationIx_state] at hindex hnext
  refine ⟨window, played, ?_, hidle', hindex, hdelta, hvalue, ?_⟩
  · unfold step
    rw [hruns, if_neg Bool.false_ne_true]
    simp only [hlayout, hget, hdraw, Option.map_some]
  · rw [hstored]
    simp only [Option.elim_some, hnext, nextIx, Shown.RunsOut, hindex]
    rfl

/-- A frame of an animation that is not there panics. -/
theorem step_of_le (hruns : s.panicked = false) (hle : animations.length ≤ s.animationIx) :
    s.step (.draw animations clock) = some { s with panicked := true } := by
  have hlayout : requestLayout animations (s.window.elementState ()) clock = none := by
    refine requestLayout_of_none rfl (List.getElem?_eq_none ?_)
    exact hle.trans_eq (s.animationIx_state clock).symm
  unfold step
  rw [hruns, if_neg Bool.false_ne_true]
  simp only [hlayout]

/-- Between two frames, the stored index is the one that follows the last frame, and is in range of
the list of this one. -/
structure Inv (s : AnimationRun) : Prop where
  idle : s.window.Idle
  anew : s.shown = [] → s.animationIx = 0
  next : ∀ last, s.shown.head? = some last → s.animationIx = nextIx last ∧
    s.animationIx < last.length ∧ (last.RunsOut → last.played.delta = .finite 1)

theorem inv_start : Inv start := ⟨StateWindow.idle_new, fun _ => rfl, by simp [start]⟩

theorem Inv.step {a : Frame} (h : s.Inv) (hstep : s.step a = some s') : s'.Inv := by
  cases hruns : s.panicked with
  | true => simp [AnimationRun.step, hruns] at hstep
  | false =>
    cases a with
    | draw animations clock =>
      by_cases hlt : s.animationIx < animations.length
      · obtain ⟨window, played, hdraw, hidle, hindex, hdelta, -, hnext⟩ :=
          step_of_lt clock h.idle hruns hlt
        obtain rfl := Option.some.inj (hdraw.symm.trans hstep)
        refine ⟨hidle, fun hnil => (by cases hnil), fun last hlast => ?_⟩
        obtain rfl := Option.some.inj hlast
        refine ⟨hnext, ?_, fun hout => ?_⟩
        · rw [animationIx, hnext, nextIx]
          split_ifs with hout
          · exact hout.2.2
          · exact hindex.trans_lt hlt
        · rw [hdelta]
          exact endDelta_of_lt hout.1 hout.2.1
      · rw [step_of_le hruns (not_lt.mp hlt)] at hstep
        obtain rfl := Option.some.inj hstep
        exact ⟨h.idle, h.anew, h.next⟩
    | without =>
      obtain ⟨window, hdraw, hidle, hgone⟩ := h.idle.draw ()
      simp only [AnimationRun.step, hruns, hdraw, Option.map_some] at hstep
      obtain rfl := Option.some.inj hstep
      refine ⟨hidle, fun _ => ?_, by simp⟩
      rw [animationIx, hgone]
      rfl

/-- The order of the frames goes on. -/
theorem Inv.inOrder (h : s.Inv) (hinOrder : InOrder s.shown) {shown : Shown}
    (hindex : shown.played.index = s.animationIx) : InOrder (shown :: s.shown) := by
  cases hshown : s.shown with
  | nil => exact hindex.trans (h.anew hshown)
  | cons last rest =>
    obtain ⟨hnext, -, hends⟩ := h.next last (by rw [hshown]; rfl)
    rw [hshown] at hinOrder
    refine ⟨?_, hinOrder⟩
    rw [Follows, hindex, hnext, nextIx]
    split_ifs with hout
    · exact ⟨rfl, hends hout⟩
    · rfl

/-- A frame plays as it should exactly if it keeps the animation and no duration of zero is
divided by. -/
theorem playsInOrder_step_iff {a : Frame} (h : s.Inv) (hs : s.PlaysInOrder) (hgiven : s.Given a)
    (hstep : s.step a = some s') : s'.PlaysInOrder ↔ s.Keeps a := by
  cases a with
  | draw animations clock =>
    obtain ⟨hne, heases⟩ := hgiven
    by_cases hlt : s.animationIx < animations.length
    · obtain ⟨window, played, hdraw, -, hindex, hdelta, hvalue, -⟩ :=
        step_of_lt clock h.idle hs.indexed hlt
      obtain rfl := Option.some.inj (hdraw.symm.trans hstep)
      have hget : animations[s.animationIx]? = some animations[s.animationIx] :=
        List.getElem?_eq_getElem hlt
      have hinUnit : played.delta.InUnit ↔ s.Keeps (.draw animations clock) := by
        rw [hdelta, inUnit_endDelta_iff, Keeps, hget,
          and_iff_right fun _ _ _ => hlt]
        simp only [Option.some.injEq, forall_eq']
      rw [← hinUnit]
      constructor
      · intro h'
        exact (h'.inUnit _ List.mem_cons_self).1
      · intro hunit
        refine ⟨rfl, ?_, ?_, h.inOrder hs.inOrder hindex⟩
        · rintro frame (_ | ⟨_, hframe⟩)
          · exact hindex.trans_lt hlt
          · exact hs.inRange frame hframe
        · rintro frame (_ | ⟨_, hframe⟩)
          · refine ⟨hunit, ?_⟩
            dsimp only
            rw [hvalue]
            exact heases _ (List.getElem_mem hlt) _ hunit
          · exact hs.inUnit frame hframe
    · have hle := not_lt.mp hlt
      rw [step_of_le hs.indexed hle] at hstep
      obtain rfl := Option.some.inj hstep
      refine iff_of_false (fun h' => Bool.noConfusion h'.indexed) fun hkeeps => ?_
      cases hshown : s.shown with
      | nil =>
        rw [h.anew hshown, Nat.le_zero, List.length_eq_zero_iff] at hle
        exact hne hle
      | cons last rest =>
        have hhead : s.shown.head? = some last := by rw [hshown]; rfl
        exact hlt (hkeeps.1 last hhead (hle.trans_lt (h.next last hhead).2.1))
  | without =>
    obtain ⟨window, hdraw, hidle, hgone⟩ := h.idle.draw ()
    simp only [AnimationRun.step, hs.indexed, hdraw, Option.map_some] at hstep
    obtain rfl := Option.some.inj hstep
    exact iff_of_true ⟨rfl, by simp, by simp, trivial⟩ trivial

theorem playsInOrder_start : start.PlaysInOrder := ⟨rfl, by simp [start], by simp [start], trivial⟩

/-- In a run of frames the animations are played in order, with numbers between zero and one,
exactly if no shorter list lacks the animation that is to be played, and no duration of zero is
that of a repeated animation or of one that has only just started. -/
theorem playsInOrder_iff {frames : List Frame} (hgiven : AllSteps step Given start frames) :
    AllStates step PlaysInOrder start frames ↔ AllSteps step Keeps start frames :=
  hgiven.allStates_iff Inv (fun _ _ _ h hstep => h.step hstep)
    (fun _ _ _ h hs hG hstep => playsInOrder_step_iff h hs hG hstep) inv_start playsInOrder_start

/-- Frames with one list of animations, which all take some time, keep what is to be played. The
induction is on the frames. -/
theorem keeps_of_constant (hne : animations ≠ [])
    (hdurations : ∀ animation ∈ animations, animation.duration ≠ 0) (clocks : List Clock)
    (h : s.Inv) (hlength : ∀ last, s.shown.head? = some last → last.length = animations.length) :
    AllSteps AnimationRun.step Keeps s (clocks.map (.draw animations ·)) := by
  induction clocks generalizing s with
  | nil => trivial
  | cons clock clocks ih =>
    intro s' hstep
    have hlt : s.animationIx < animations.length := by
      cases hshown : s.shown with
      | nil => exact (h.anew hshown).trans_lt (List.length_pos_iff.mpr hne)
      | cons last rest =>
        have hhead : s.shown.head? = some last := by rw [hshown]; rfl
        exact (h.next last hhead).2.1.trans_eq (hlength last hhead)
    refine ⟨⟨fun _ _ _ => hlt, fun animation hget hzero => ?_⟩, ih (h.step hstep) ?_⟩
    · exact absurd hzero (hdurations animation (List.mem_of_getElem? hget))
    · have hruns : s.panicked = false := by
        by_contra hpanicked
        simp [AnimationRun.step, hpanicked] at hstep
      obtain ⟨window, played, hdraw, -⟩ := step_of_lt clock h.idle hruns hlt
      obtain rfl := Option.some.inj (hdraw.symm.trans hstep)
      intro last hlast
      obtain rfl := Option.some.inj hlast
      rfl

theorem given_of_constant (hne : animations ≠ [])
    (heases : ∀ animation ∈ animations, animation.EasesUnit) (clocks : List Clock) :
    AllSteps step Given s (clocks.map (.draw animations ·)) := by
  induction clocks generalizing s with
  | nil => trivial
  | cons clock clocks ih => exact fun s' _ => ⟨⟨hne, heases⟩, ih⟩

/-- A chain of two animations of ten nanoseconds. -/
def twoAnimations : List Animation := [.new 10, .new 10]

theorem eq_new_of_mem {animation : Animation} (h : animation ∈ twoAnimations) :
    animation = .new 10 := by
  simpa [twoAnimations] using h

/-- The first of two animations runs out, and the second one is played. -/
theorem playsInOrder_twoAnimations : AllStates step PlaysInOrder start
    (([⟨0, 0, 0⟩, ⟨0, 11, 11⟩, ⟨0, 15, 15⟩] : List Clock).map (.draw twoAnimations ·)) := by
  refine (playsInOrder_iff (given_of_constant (by decide) (fun animation hmem => ?_) _)).mpr
    (keeps_of_constant (by decide) (fun animation hmem => ?_) _ inv_start (by simp [start]))
  · rw [eq_new_of_mem hmem]
    exact fun _ h => h
  · rw [eq_new_of_mem hmem]
    decide

/-- The list is shortened while its second animation is to be played; and an animation without a
duration is played as soon as it starts. -/
theorem not_playsInOrder_shortened :
    ¬AllStates step PlaysInOrder start
        [.draw twoAnimations ⟨0, 0, 0⟩, .draw twoAnimations ⟨0, 11, 11⟩,
          .draw [.new 10] ⟨0, 15, 15⟩] ∧
      ¬AllStates step PlaysInOrder start [.draw [.new 0] ⟨0, 0, 0⟩] := by
  constructor
  · intro h
    have hpanics : (execute step (fun _ _ => True) start [.draw twoAnimations ⟨0, 0, 0⟩,
        .draw twoAnimations ⟨0, 11, 11⟩, .draw [.new 10] ⟨0, 15, 15⟩]).map (·.panicked) =
          some true := by decide +kernel
    obtain ⟨s, hs, hpanicked⟩ := Option.map_eq_some_iff.mp hpanics
    exact absurd ((h.of_execute hs).indexed.symm.trans hpanicked) Bool.false_ne_true
  · intro h
    have hfirst := (h.2 _ rfl).head
    exact (hfirst.inUnit _ List.mem_cons_self).1

end AnimationRun

end AnimationElement

end Lucie
