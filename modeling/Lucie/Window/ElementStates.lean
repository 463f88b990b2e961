import Lucie.Window.Frame
import Lucie.Foundation.Run

/-!
# Element states over the frames

An element state is taken from the next frame, or else from the rendered one, while the closure
of its element runs, and is put into the next frame afterwards. The states that a reused part
of the rendered frame has accessed are moved to the next frame when this is finished. A call
is split into two events, between which the closure may make other calls.
-/

set_option autoImplicit false

namespace Lucie.Drawing

open Foundation

/-- The element states of a `Frame`, by their keys, and the keys that were accessed. -/
@[ext] structure StateFrame (K V : Type) where
  elementStates : K → Option V
  accessedElementStates : List K

/-- The element states of a window, and the keys of the calls of `with_element_state` that are
running, last one first. -/
@[ext] structure StateWindow (K V : Type) where
  nextFrame : StateFrame K V
  renderedFrame : StateFrame K V
  running : List K

/-- What happens to the element states. -/
inductive StateEvent (K V : Type)
  | enter (key : K)
  | leave (value : V)
  | reuse (start stop : ℕ)
  | draw

variable {K V : Type} [DecidableEq K]

namespace StateFrame

/-- `Frame::new`; `clear` leaves the same. -/
def new : StateFrame K V := ⟨fun _ => none, []⟩

/-- One key in `Frame::finish`: move its state from the previous frame. -/
def moveState (frames : StateFrame K V × StateFrame K V) (key : K) :
    StateFrame K V × StateFrame K V :=
  match frames.2.elementStates key with
  | none => frames
  | some value =>
    ({ frames.1 with elementStates := Function.update frames.1.elementStates key (some value) },
      { frames.2 with elementStates := Function.update frames.2.elementStates key none })

/-- `Frame::finish`, with the previous frame that it leaves. -/
def finish (frame prevFrame : StateFrame K V) : StateFrame K V × StateFrame K V :=
  frame.accessedElementStates.foldl moveState (frame, prevFrame)

end StateFrame

namespace StateWindow

/-- A window that has drawn nothing. -/
def new : StateWindow K V := ⟨.new, .new, []⟩

/-- The state that `with_element_state` passes to the closure. -/
def elementState (w : StateWindow K V) (key : K) : Option V :=
  (w.nextFrame.elementStates key).or (w.renderedFrame.elementStates key)

/-- `Window::with_element_state` before it calls the closure. -/
def enter (w : StateWindow K V) (key : K) : StateWindow K V where
  nextFrame := ⟨Function.update w.nextFrame.elementStates key none,
    w.nextFrame.accessedElementStates ++ [key]⟩
  renderedFrame := { w.renderedFrame with
    elementStates :=
      if (w.nextFrame.elementStates key).isSome then w.renderedFrame.elementStates
      else Function.update w.renderedFrame.elementStates key none }
  running := key :: w.running

/-- `Window::with_element_state` after the closure has returned a value. -/
def leave (w : StateWindow K V) (value : V) : Option (StateWindow K V) :=
  match w.running with
  | [] => none
  | key :: running => some { w with
    nextFrame := { w.nextFrame with
      elementStates := Function.update w.nextFrame.elementStates key (some value) }
    running }

/-- `Window::reuse_prepaint` and `Window::reuse_paint`; `none` is a range out of bounds. -/
def reuse (w : StateWindow K V) (start stop : ℕ) : Option (StateWindow K V) := do
  let accessed ← slice w.renderedFrame.accessedElementStates start stop
  some { w with nextFrame := { w.nextFrame with
    accessedElementStates := w.nextFrame.accessedElementStates ++ accessed } }

/-- The end of `Window::draw`: the next frame is finished and becomes the rendered one. -/
def draw (w : StateWindow K V) : Option (StateWindow K V) :=
  if w.running = [] then
    some ⟨.new, (w.nextFrame.finish w.renderedFrame).1, []⟩
  else none

/-- One event. -/
def step (w : StateWindow K V) : StateEvent K V → Option (StateWindow K V)
  | .enter key => some (w.enter key)
  | .leave value => w.leave value
  | .reuse start stop => w.reuse start stop
  | .draw => w.draw

/-- A call for a key is not made while another one for it is running. -/
def NotReentrant (w : StateWindow K V) : StateEvent K V → Prop
  | .enter key => key ∉ w.running
  | _ => True

end StateWindow

/-- What the elements know of their states: the keys of the running calls, the values that were
last returned in this frame and in the earlier ones, and the keys that were accessed in this
frame and in the previous one. -/
structure Returned (K V : Type) where
  running : List K
  now : K → Option V
  earlier : K → Option V
  accessed : List K
  previous : List K

namespace Returned

/-- Nothing has been returned. -/
def new : Returned K V := ⟨[], fun _ => none, fun _ => none, [], []⟩

/-- The keys that are accessed, and the values that are returned. -/
def step (r : Returned K V) : StateEvent K V → Returned K V
  | .enter key => { r with running := key :: r.running, accessed := r.accessed ++ [key] }
  | .leave value =>
    match r.running with
    | [] => r
    | key :: running => { r with running, now := Function.update r.now key (some value) }
  | .reuse start stop => { r with
    accessed := r.accessed ++ (slice r.previous start stop).getD [] }
  | .draw => ⟨[], fun _ => none, fun key => (r.now key).or (r.earlier key), [], r.accessed⟩

/-- What the events have returned. -/
def after (events : List (StateEvent K V)) : Returned K V := events.foldl step new

/-- The value that was last returned for a key in this frame, or else the one from the earlier
frames if the key was accessed in the previous one. -/
def expected (r : Returned K V) (key : K) : Option V :=
  (r.now key).or (if key ∈ r.previous then r.earlier key else none)

end Returned

namespace StateFrame

variable {frame prevFrame : StateFrame K V}

/-- What is moved for a list of keys. The induction is on the list. -/
theorem elementStates_foldl_moveState (keys : List K) (key : K) :
    (keys.foldl moveState (frame, prevFrame)).1.elementStates key =
      if key ∈ keys then (prevFrame.elementStates key).or (frame.elementStates key)
      else frame.elementStates key := by
  induction keys generalizing frame prevFrame with
  | nil => rfl
  | cons first keys ih =>
    rw [List.foldl_cons]
    cases hfirst : prevFrame.elementStates first with
    | none =>
      have hsame : moveState (frame, prevFrame) first = (frame, prevFrame) := by
        simp only [moveState, hfirst]
      rw [hsame, ih]
      by_cases hkey : key = first
      · subst hkey
        simp [hfirst]
      · simp [hkey]
    | some value =>
      simp only [moveState, hfirst]
      rw [ih]
      by_cases hkey : key = first
      · subst hkey
        simp [hfirst]
      · simp [hkey]

/-- A finished frame has the states of the previous frame that it accessed. -/
theorem elementStates_finish (key : K) :
    (frame.finish prevFrame).1.elementStates key =
      if key ∈ frame.accessedElementStates then
        (prevFrame.elementStates key).or (frame.elementStates key)
      else frame.elementStates key :=
  elementStates_foldl_moveState frame.accessedElementStates key

theorem accessedElementStates_finish :
    (frame.finish prevFrame).1.accessedElementStates = frame.accessedElementStates := by
  have hfold : ∀ (keys : List K) (frames : StateFrame K V × StateFrame K V),
      (keys.foldl moveState frames).1.accessedElementStates = frames.1.accessedElementStates := by
    intro keys
    induction keys with
    | nil =>
      intro frames
      rfl
    | cons first keys ih =>
      intro frames
      rw [List.foldl_cons, ih]
      unfold moveState
      split <;> rfl
  exact hfold frame.accessedElementStates (frame, prevFrame)

end StateFrame

/-- The frames of a window hold what has been returned: the states of running calls are in
neither, the next frame has those of this frame, and the rendered one those that were accessed
in the previous frame and not yet in this one. -/
structure Follows (r : Returned K V) (w : StateWindow K V) : Prop where
  running : w.running = r.running
  accessed : w.nextFrame.accessedElementStates = r.accessed
  previous : w.renderedFrame.accessedElementStates = r.previous
  nodup : r.running.Nodup
  taken : ∀ key ∈ r.running, w.nextFrame.elementStates key = none ∧
    w.renderedFrame.elementStates key = none ∧ key ∈ r.accessed
  next : ∀ key ∉ r.running, w.nextFrame.elementStates key = r.now key
  moved : ∀ key ∉ r.running, (r.now key).isSome → w.renderedFrame.elementStates key = none
  rendered : ∀ key ∉ r.running, r.now key = none → key ∈ r.previous →
    w.renderedFrame.elementStates key = r.earlier key
  forgotten : ∀ key ∉ r.running, key ∉ r.previous → w.renderedFrame.elementStates key = none
  returned : ∀ key, (r.now key).isSome → key ∈ r.accessed
  reached : ∀ key ∈ r.accessed, key ∈ r.running ∨ (r.now key).isSome ∨ key ∈ r.previous

namespace Follows

variable {r : Returned K V} {w : StateWindow K V}

omit [DecidableEq K] in
theorem new : Follows .new (.new : StateWindow K V) :=
  ⟨rfl, rfl, rfl, List.nodup_nil, by simp [Returned.new], fun _ _ => rfl, fun _ _ _ => rfl,
    fun _ _ _ _ => rfl, fun _ _ _ => rfl, by simp [Returned.new], by simp [Returned.new]⟩

/-- The state that a call finds. -/
theorem elementState (h : Follows r w) {key : K} (hkey : key ∉ r.running) :
    w.elementState key = r.expected key := by
  rw [StateWindow.elementState, Returned.expected, h.next key hkey]
  cases hnow : r.now key with
  | none =>
    rw [Option.none_or, Option.none_or]
    split_ifs with hprevious
    · exact h.rendered key hkey hnow hprevious
    · exact h.forgotten key hkey hprevious
  | some value => rfl

theorem enter (h : Follows r w) {key : K} (hkey : key ∉ w.running) :
    Follows (r.step (.enter key)) (w.enter key) := by
  rw [h.running] at hkey
  have hrendered : (w.enter key).renderedFrame.elementStates key = none := by
    simp only [StateWindow.enter]
    split_ifs with hnext
    · rw [h.next key hkey] at hnext
      exact h.moved key hkey hnext
    · exact Function.update_self ..
  have hothers : ∀ other, other ≠ key →
      (w.enter key).renderedFrame.elementStates other = w.renderedFrame.elementStates other := by
    intro other hother
    simp only [StateWindow.enter]
    split_ifs
    · rfl
    · exact Function.update_of_ne hother ..
  constructor
  · simp [StateWindow.enter, Returned.step, h.running]
  · simp [StateWindow.enter, Returned.step, h.accessed]
  · exact h.previous
  · exact List.nodup_cons.mpr ⟨hkey, h.nodup⟩
  · intro other hother
    by_cases heq : other = key
    · subst heq
      exact ⟨Function.update_self .., hrendered, by simp [Returned.step]⟩
    · obtain ⟨hnext, hempty, haccessed⟩ := h.taken other (List.mem_of_ne_of_mem heq hother)
      refine ⟨(Function.update_of_ne heq ..).trans hnext, (hothers other heq).trans hempty, ?_⟩
      exact List.mem_append_left _ haccessed
  · intro other hother
    obtain ⟨heq, hother⟩ := List.ne_and_not_mem_of_not_mem_cons hother
    exact (Function.update_of_ne heq ..).trans (h.next other hother)
  · intro other hother hnow
    obtain ⟨heq, hother⟩ := List.ne_and_not_mem_of_not_mem_cons hother
    exact (hothers other heq).trans (h.moved other hother hnow)
  · intro other hother hnow hprevious
    obtain ⟨heq, hother⟩ := List.ne_and_not_mem_of_not_mem_cons hother
    exact (hothers other heq).trans (h.rendered other hother hnow hprevious)
  · intro other hother hprevious
    obtain ⟨heq, hother⟩ := List.ne_and_not_mem_of_not_mem_cons hother
    exact (hothers other heq).trans (h.forgotten other hother hprevious)
  · intro other hother
    exact List.mem_append_left _ (h.returned other hother)
  · intro other hother
    obtain hother | hother := List.mem_append.mp hother
    · exact (h.reached other hother).imp_left (List.mem_cons_of_mem key)
    · rw [List.mem_singleton.mp hother]
      exact .inl List.mem_cons_self

theorem leave (h : Follows r w) {value : V} {w' : StateWindow K V}
    (hleave : w.leave value = some w') : Follows (r.step (.leave value)) w' := by
  unfold StateWindow.leave at hleave
  cases hrunning : w.running with
  | nil => simp [hrunning] at hleave
  | cons key running =>
    simp only [hrunning] at hleave
    obtain rfl := Option.some.inj hleave
    have hkeys := h.running.symm.trans hrunning
    have hnodup := h.nodup
    rw [hkeys, List.nodup_cons] at hnodup
    have htaken := h.taken key (by simp [hkeys])
    simp only [Returned.step, hkeys]
    constructor
    · rfl
    · exact h.accessed
    · exact h.previous
    · exact hnodup.2
    · intro other hother
      have hne : other ≠ key := fun heq => hnodup.1 (heq ▸ hother)
      obtain ⟨hnext, hrest⟩ := h.taken other (by simp [hkeys, hother])
      exact ⟨(Function.update_of_ne hne ..).trans hnext, hrest⟩
    · intro other hother
      dsimp only
      by_cases heq : other = key
      · rw [heq, Function.update_self, Function.update_self]
      · rw [Function.update_of_ne heq, Function.update_of_ne heq]
        exact h.next other (by simp [hkeys, heq, hother])
    · intro other hother hnow
      by_cases heq : other = key
      · rw [heq]
        exact htaken.2.1
      · dsimp only at hnow
        rw [Function.update_of_ne heq] at hnow
        exact h.moved other (by simp [hkeys, heq, hother]) hnow
    · intro other hother hnow hprevious
      dsimp only at hnow
      by_cases heq : other = key
      · rw [heq, Function.update_self] at hnow
        cases hnow
      · rw [Function.update_of_ne heq] at hnow
        exact h.rendered other (by simp [hkeys, heq, hother]) hnow hprevious
    · intro other hother hprevious
      by_cases heq : other = key
      · rw [heq]
        exact htaken.2.1
      · exact h.forgotten other (by simp [hkeys, heq, hother]) hprevious
    · intro other hother
      dsimp only at hother ⊢
      by_cases heq : other = key
      · rw [heq]
        exact htaken.2.2
      · rw [Function.update_of_ne heq] at hother
        exact h.returned other hother
    · intro other hother
      dsimp only
      by_cases heq : other = key
      · rw [heq, Function.update_self]
        exact .inr (.inl rfl)
      · rw [Function.update_of_ne heq]
        have hreached := h.reached other hother
        rw [hkeys, List.mem_cons] at hreached
        tauto

theorem reuse (h : Follows r w) {start stop : ℕ} {w' : StateWindow K V}
    (hreuse : w.reuse start stop = some w') : Follows (r.step (.reuse start stop)) w' := by
  unfold StateWindow.reuse at hreuse
  obtain ⟨accessed, hslice, hw'⟩ := Option.bind_eq_some_iff.mp hreuse
  obtain rfl := Option.some.inj hw'
  rw [h.previous] at hslice
  have hmem : ∀ key ∈ accessed, key ∈ r.previous := by
    intro key hkey
    unfold slice at hslice
    split_ifs at hslice
    obtain rfl := Option.some.inj hslice
    exact List.mem_of_mem_take (List.mem_of_mem_drop hkey)
  simp only [Returned.step, hslice, Option.getD_some]
  constructor
  · exact h.running
  · simp [h.accessed]
  · exact h.previous
  · exact h.nodup
  · intro key hkey
    obtain ⟨hnext, hrendered, haccessed⟩ := h.taken key hkey
    exact ⟨hnext, hrendered, List.mem_append_left _ haccessed⟩
  · exact h.next
  · exact h.moved
  · exact h.rendered
  · exact h.forgotten
  · intro key hkey
    exact List.mem_append_left _ (h.returned key hkey)
  · intro key hkey
    obtain hkey | hkey := List.mem_append.mp hkey
    · exact h.reached key hkey
    · exact .inr (.inr (hmem key hkey))

theorem draw (h : Follows r w) {w' : StateWindow K V} (hdraw : w.draw = some w') :
    Follows (r.step .draw) w' := by
  unfold StateWindow.draw at hdraw
  split_ifs at hdraw with hrunning
  obtain rfl := Option.some.inj hdraw
  have hnone : r.running = [] := h.running.symm.trans hrunning
  have hidle : ∀ key, key ∉ r.running := by simp [hnone]
  have hnow : ∀ key, r.now key = w.nextFrame.elementStates key := fun key =>
    (h.next key (hidle key)).symm
  constructor
  · rfl
  · rfl
  · exact StateFrame.accessedElementStates_finish.trans h.accessed
  · exact List.nodup_nil
  · intro key hkey
    cases hkey
  · intro key _
    rfl
  · intro key _ hreturned
    cases hreturned
  · intro key _ _ hprevious
    have haccessed : key ∈ r.accessed := hprevious
    rw [StateFrame.elementStates_finish, h.accessed, if_pos haccessed, ← hnow]
    change _ = (r.now key).or (r.earlier key)
    cases hreturned : r.now key with
    | none =>
      -- a key that returned nothing was accessed through a reused range
      have hprevious : key ∈ r.previous := by
        have hreached := h.reached key haccessed
        simpa [hnone, hreturned] using hreached
      rw [h.rendered key (hidle key) hreturned hprevious, Option.or_none, Option.none_or]
    | some value =>
      rw [h.moved key (hidle key) (by rw [hreturned]; rfl), Option.none_or, Option.some_or]
  · intro key _ hprevious
    have haccessed : key ∉ r.accessed := hprevious
    rw [StateFrame.elementStates_finish, h.accessed, if_neg haccessed, ← hnow]
    by_contra hreturned
    exact haccessed (h.returned key (Option.isSome_iff_ne_none.mpr hreturned))
  · intro key hkey
    cases hkey
  · intro key hkey
    cases hkey

end Follows

namespace StateWindow

/-- The frames follow what the events return, as long as no call is reentrant. -/
theorem follows_of_run {events : List (StateEvent K V)} {w : StateWindow K V}
    (run : Run step NotReentrant new events w) : Follows (.after events) w := by
  refine run.invariant (fun events w => Follows (.after events) w) .new ?_
  intro events w event w' h hguard hstep
  have hafter : Returned.after (events ++ [event]) = (Returned.after events).step event := by
    rw [Returned.after, List.foldl_append]
    rfl
  rw [hafter]
  cases event with
  | enter key =>
    obtain rfl := Option.some.inj hstep
    exact h.enter hguard
  | leave value => exact h.leave hstep
  | reuse start stop => exact h.reuse hstep
  | draw => exact h.draw hstep

/-- In every run of calls, each call receives the value that was last returned for its key in
the frame, or else the one from the earlier frames if its key was accessed in the previous one.
At the end of a frame the values of this frame remain, and a key that was not accessed is
forgotten. -/
theorem elementState_of_run {events : List (StateEvent K V)} {w : StateWindow K V}
    (run : Run step NotReentrant new events w) :
    (∀ key ∉ w.running, w.elementState key = (Returned.after events).expected key) ∧
    ∀ w', w.step .draw = some w' → ∀ key,
      (∀ value, w.nextFrame.elementStates key = some value → w'.elementState key = some value) ∧
      (key ∉ (Returned.after events).accessed → w'.elementState key = none) := by
  have h := follows_of_run run
  constructor
  · intro key hkey
    exact h.elementState (h.running ▸ hkey)
  · intro w' hdraw key
    have hnext := h.draw hdraw
    have hkey : key ∉ ((Returned.after events).step .draw).running := by simp [Returned.step]
    rw [hnext.elementState hkey]
    have hrunning : (Returned.after events).running = [] := by
      rw [← h.running]
      unfold step StateWindow.draw at hdraw
      split_ifs at hdraw with hidle
      exact hidle
    have hidle : key ∉ (Returned.after events).running := by simp [hrunning]
    constructor
    · intro value hvalue
      rw [h.next key hidle] at hvalue
      have haccessed := h.returned key (by rw [hvalue]; rfl)
      refine (if_pos haccessed).trans ?_
      change ((Returned.after events).now key).or _ = some value
      rw [hvalue, Option.some_or]
    · intro haccessed
      exact if_neg haccessed

instance (w : StateWindow K V) (event : StateEvent K V) : Decidable (w.NotReentrant event) :=
  match event with
  | .enter key => inferInstanceAs (Decidable (key ∉ w.running))
  | .leave _ => .isTrue trivial
  | .reuse _ _ => .isTrue trivial
  | .draw => .isTrue trivial

/-- Two calls, one within the other; in the next frame, the inner one is reused and the outer
one is made again. -/
def reusedCall : List (StateEvent ℕ ℕ) :=
  [.enter 0, .enter 1, .leave 11, .leave 10, .draw, .enter 0, .reuse 1 2, .leave 20, .draw]

/-- The state of a reused call and that of a repeated one are there in the third frame. -/
theorem elementState_reusedCall : ∃ w, Run step NotReentrant new reusedCall w ∧
    w.elementState 1 = some 11 ∧ w.elementState 0 = some 20 ∧ w.elementState 2 = none := by
  have hrun : (execute step NotReentrant new reusedCall).any fun w => w.running = [] := by
    decide +kernel
  obtain ⟨w, hw, hrunning⟩ := (Option.any_eq_true _ _).mp hrun
  rw [decide_eq_true_eq] at hrunning
  have run := Run.of_execute hw
  have hstate : ∀ key, w.elementState key = (Returned.after reusedCall).expected key := by
    intro key
    exact (elementState_of_run run).1 key (by simp [hrunning])
  refine ⟨w, run, (hstate 1).trans ?_, (hstate 0).trans ?_, (hstate 2).trans ?_⟩
  · decide +kernel
  · decide +kernel
  · decide +kernel

end StateWindow

namespace Window

variable {D C : Type}

/-- The element states of the views of a window that is drawing. -/
def viewStates (w : Window D C) (running : List GlobalElementId) :
    StateWindow GlobalElementId (AnyViewState C) :=
  ⟨⟨w.nextFrame.elementStates, w.nextFrame.accessedElementStates⟩,
    ⟨w.renderedFrame.elementStates, w.renderedFrame.accessedElementStates⟩, running⟩

variable {w w' : Window D C} {running : List GlobalElementId}

theorem viewStates_takeElementState (id : GlobalElementId) :
    (w.takeElementState id).viewStates (id :: running) = (w.viewStates running).enter id := rfl

theorem viewStates_putElementState (id : GlobalElementId) (state : AnyViewState C) :
    (w.viewStates (id :: running)).leave state =
      some ((w.putElementState id state).viewStates running) := rfl

theorem viewStates_reusePrepaint {range : Span PrepaintStateIndex}
    (h : w.reusePrepaint range = some w') :
    (w.viewStates running).reuse range.start.accessedElementStatesIndex
      range.stop.accessedElementStatesIndex = some (w'.viewStates running) := by
  unfold reusePrepaint at h
  obtain ⟨hitboxes, -, h⟩ := Option.bind_eq_some_iff.mp h
  obtain ⟨tooltips, -, h⟩ := Option.bind_eq_some_iff.mp h
  obtain ⟨accessed, haccessed, h⟩ := Option.bind_eq_some_iff.mp h
  obtain ⟨deferred, -, h⟩ := Option.bind_eq_some_iff.mp h
  obtain rfl := Option.some.inj h
  simp only [StateWindow.reuse, viewStates, haccessed, Option.bind_eq_bind, Option.bind_some]

theorem viewStates_reusePaint {range : Span PaintIndex} (h : w.reusePaint range = some w') :
    (w.viewStates running).reuse range.start.accessedElementStatesIndex
      range.stop.accessedElementStatesIndex = some (w'.viewStates running) := by
  unfold reusePaint at h
  obtain ⟨cursorStyles, -, h⟩ := Option.bind_eq_some_iff.mp h
  obtain ⟨inputHandlers, -, h⟩ := Option.bind_eq_some_iff.mp h
  obtain ⟨mouseListeners, -, h⟩ := Option.bind_eq_some_iff.mp h
  obtain ⟨accessed, haccessed, h⟩ := Option.bind_eq_some_iff.mp h
  obtain ⟨tabStops, -, h⟩ := Option.bind_eq_some_iff.mp h
  obtain ⟨scene, -, h⟩ := Option.bind_eq_some_iff.mp h
  obtain rfl := Option.some.inj h
  simp only [StateWindow.reuse, viewStates, haccessed, Option.bind_eq_bind, Option.bind_some]

end Window

end Lucie.Drawing
