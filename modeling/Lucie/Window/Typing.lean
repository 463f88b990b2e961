import Lucie.Keymap.Segments
import Lucie.Window.Activation

/-!
# Typing

A window keeps the keystrokes that may become a longer binding, with the focus that they were typed
at and a timer. Each further keystroke, the timer, and changes of the focus decide what becomes of
them. Every keystroke is replayed, dispatched, discarded or still pending, once and in order, and
only a change of the focus discards any. Interceptors, listeners and observers may change the focus;
they do not dispatch events themselves.
-/

set_option autoImplicit false

namespace Lucie

open Foundation Drawing

/-- `Modifiers::number_of_modifiers`. -/
def Modifiers.numberOfModifiers (modifiers : Modifiers) : ℕ :=
  modifiers.control.toNat + modifiers.alt.toNat + modifiers.shift.toNat +
    modifiers.platform.toNat + modifiers.function.toNat

/-- The keyboard events of a platform. -/
inductive KeyEvent
  | keyDown (keystroke : Keystroke) (preferCharacterInput : Bool)
  | keyUp (keystroke : Keystroke)
  | modifiersChanged (modifiers : Modifiers)

/-- `ModifierState`. -/
structure ModifierState where
  modifiers : Modifiers
  sawKeystroke : Bool

/-- `PendingInput`. The timer is cancelled when it is dropped, so it is here or it does not fire. -/
structure PendingInput where
  keystrokes : List Keystroke := []
  focus : Option FocusId := none
  timer : Bool := false
  needsTimeout : Bool := false

/-- What key dispatch reads of a rendered frame. -/
structure KeyFrame (α : Type) where
  tree : Lucie.DispatchTree α
  /-- The dispatch path of a focus, or of the root without a node for it. -/
  dispatchPath : Option FocusId → List tree.NodeId

/-- What is called for a keystroke: the interceptors with whether they stop it, what replays call,
and an input handler that accepts text or not. -/
structure KeyAnswers where
  interceptors : List FocusAction := []
  stop : Bool := false
  replays : List FocusAction := []
  acceptsTextInput : Bool := false

/-- What a window does with keystrokes: in a frame, at the dispatch path of a focus. -/
inductive TypingOutput (α : Type)
  /-- The replay is dispatched on the node of another focus, the present one. -/
  | replay (frame : KeyFrame α) (focus target : Option FocusId) (replay : Replay α)
  /-- The bindings are skipped if text input is preferred. -/
  | dispatch (frame : KeyFrame α) (focus : Option FocusId) (keystroke : Keystroke)
      (bindings : List (KeyBinding α)) (skipBindings : Bool)
  | discard (keystrokes : List Keystroke)

/-- The fields of `Window` for keystrokes, with the keystrokes that passed the interceptors and
what was done with them so far. -/
structure Typing (α : Type) where
  frame : KeyFrame α
  window : WindowFocus
  pendingModifier : ModifierState
  pendingInput : Option PendingInput
  typed : List Keystroke
  outputs : List (TypingOutput α)

/-- An event of a window. -/
inductive TypingAction (α : Type)
  | key (event : KeyEvent) (answers : KeyAnswers)
  /-- The timer of the pending input fires, and the observers are called. -/
  | timeout (observers : List FocusAction)
  | changeFocus (a : FocusAction)
  | redraw (frame : KeyFrame α)

/-- The keystroke of an event: a key that is pressed, or a modifier that was pressed and released
by itself. -/
def ModifierState.keystroke (state : ModifierState) : KeyEvent → Option Keystroke × ModifierState
  | .keyDown keystroke _ => (some keystroke, { state with sawKeystroke := true })
  | .keyUp _ => (none, state)
  | .modifiersChanged modifiers =>
    let alone := modifiers.numberOfModifiers = 0 ∧ state.modifiers.numberOfModifiers = 1 ∧
      state.sawKeystroke = false
    let key :=
      if state.modifiers.shift then some "shift"
      else if state.modifiers.control then some "control"
      else if state.modifiers.alt then some "alt"
      else if state.modifiers.platform then some "platform"
      else if state.modifiers.function then some "function"
      else none
    let sawKeystroke :=
      if state.modifiers.numberOfModifiers = 0 ∧ modifiers.numberOfModifiers = 1 then false
      else state.sawKeystroke
    (if alone then key.map fun key => ⟨{}, key, none⟩ else none, ⟨modifiers, sawKeystroke⟩)

namespace KeyEvent

/-- Interceptors are called for keys only. -/
def answers (event : KeyEvent) (answers : KeyAnswers) : KeyAnswers :=
  match event with
  | .keyDown _ _ => answers
  | .keyUp _ | .modifiersChanged _ => { answers with interceptors := [], stop := false }

/-- `text_input_requires_timeout`. -/
def textInputRequiresTimeout (acceptsTextInput : Bool) : KeyEvent → Bool
  | .keyDown keystroke _ => keystroke.keyChar.isSome && acceptsTextInput
  | .keyUp _ | .modifiersChanged _ => false

/-- `skip_bindings`. -/
def skipBindings (acceptsTextInput : Bool) : KeyEvent → Bool
  | .keyDown _ preferCharacterInput => preferCharacterInput && acceptsTextInput
  | .keyUp _ | .modifiersChanged _ => false

end KeyEvent

namespace Typing

variable {α : Type}

/-- A window that was just made. -/
def new (frame : KeyFrame α) (active : Bool) : Typing α :=
  ⟨frame, .new active, ⟨{}, false⟩, none, [], []⟩

/-- The pending input is dropped. -/
def discard (s : Typing α) : Typing α :=
  { s with
    pendingInput := none
    outputs := s.outputs ++ (s.pendingInput.map fun pending => .discard pending.keystrokes).toList }

/-- A change of the focus; `focus` clears the pending keystrokes. -/
def changeFocus (s : Typing α) : FocusAction → Typing α
  | .focus handle =>
    if !s.window.focusEnabled ∨ s.window.focus = some handle then s
    else { s.discard with window := s.window.setFocus handle }
  | .blur => { s with window := s.window.blur }
  | .disableFocus => { s with window := s.window.disableFocus }
  | .activeStatusChange active => { s with window := s.window.onActiveStatusChange active }

/-- The outputs for replays. -/
def replayed (s : Typing α) (focus : Option FocusId) (toReplay : List (Replay α)) :
    List (TypingOutput α) :=
  toReplay.map (.replay s.frame focus s.window.focus)

/-- The pending input is taken, and dropped if it was typed at another focus. -/
def takePending (s : Typing α) : PendingInput × Typing α :=
  let currentlyPending := s.pendingInput.getD {}
  if currentlyPending.focus ≠ none ∧ currentlyPending.focus ≠ s.window.focus then ({}, s.discard)
  else (currentlyPending, { s with pendingInput := none })

/-- `dispatch_key_event`, from where the pending input was taken: `focus` is the focus before the
interceptors, whose dispatch path is used. -/
def typeKeystroke (s : Typing α) (currentlyPending : PendingInput) (focus : Option FocusId)
    (keystroke : Keystroke) (event : KeyEvent) (answers : KeyAnswers) : Option (Typing α) := do
  let result ←
    s.frame.tree.dispatchKey (s.frame.dispatchPath focus) currentlyPending.keystrokes keystroke
  let s := { s with
    typed := s.typed ++ [keystroke]
    outputs := s.outputs ++ s.replayed focus result.toReplay }
  let s := if result.toReplay.isEmpty then s else answers.replays.foldl changeFocus s
  if !result.pending.isEmpty then
    let needsTimeout := currentlyPending.needsTimeout ||
      (result.pendingHasBinding || event.textInputRequiresTimeout answers.acceptsTextInput)
    some { s with pendingInput := some {
      keystrokes := result.pending
      focus := s.window.focus
      timer := needsTimeout
      needsTimeout } }
  else some { s with outputs := s.outputs ++
    [.dispatch s.frame focus keystroke result.bindings
      (event.skipBindings answers.acceptsTextInput)] }

/-- `dispatch_key_event` in a window that is not dirty. -/
def dispatchKeyEvent (s : Typing α) (event : KeyEvent) (answers : KeyAnswers) :
    Option (Typing α) :=
  let focus := s.window.focus
  let (keystroke, pendingModifier) := s.pendingModifier.keystroke event
  let s := { s with pendingModifier }
  match keystroke with
  | none => some s
  | some keystroke =>
    let answers := event.answers answers
    let s := answers.interceptors.foldl changeFocus s
    if answers.stop then some s
    else
      let (currentlyPending, s) := s.takePending
      s.typeKeystroke currentlyPending focus keystroke event answers

/-- The closure of the timer. -/
def timeout (s : Typing α) (observers : List FocusAction) : Option (Typing α) :=
  match s.pendingInput with
  | none => some s
  | some pending =>
    if pending.focus ≠ s.window.focus then some s.discard
    else do
      let focus := s.window.focus
      let toReplay ← s.frame.tree.flushDispatch (s.frame.dispatchPath focus) pending.keystrokes
      let s := observers.foldl changeFocus { s with pendingInput := none }
      some { s with outputs := s.outputs ++ s.replayed focus toReplay }

/-- One event; `none` is a panic, or a timer that does not run. -/
def step (s : Typing α) : TypingAction α → Option (Typing α)
  | .key event answers => s.dispatchKeyEvent event answers
  | .timeout observers =>
    if s.pendingInput.any PendingInput.timer then s.timeout observers else none
  | .changeFocus a => some (s.changeFocus a)
  | .redraw frame => some { s with frame }

/-- The keystrokes that are pending. -/
def pending (s : Typing α) : List Keystroke := (s.pendingInput.map PendingInput.keystrokes).getD []

end Typing

/-- What an output says of the keystrokes that it is for. -/
def TypingOutput.Accounts {α : Type} (segment : List Keystroke) : TypingOutput α → Prop
  | .replay frame focus _ r => segment.getLast? = some r.keystroke ∧
      r.bindings = frame.tree.found (frame.dispatchPath focus) segment ∧
      (r.bindings = [] → segment.length = 1)
  | .dispatch frame focus keystroke bindings _ => segment.getLast? = some keystroke ∧
      bindings = frame.tree.found (frame.dispatchPath focus) segment ∧
      (bindings = [] → segment.length = 1)
  | .discard keystrokes => segment = keystrokes ∧ segment ≠ []

namespace TypingOutput

/-- An output that replays or dispatches. -/
def isResolved {α : Type} : TypingOutput α → Bool
  | .discard _ => false
  | _ => true

end TypingOutput

namespace DispatchTree

variable {α : Type} {tree : Lucie.DispatchTree α} {dispatchPath : List tree.NodeId}
  {input : List Keystroke} {keystroke : Keystroke}

theorem dispatchKey_of_mayContinue
    (h : tree.mayContinue dispatchPath (input ++ [keystroke]) = true) :
    tree.dispatchKey dispatchPath input keystroke = some {
      pending := input ++ [keystroke]
      pendingHasBinding := !(tree.found dispatchPath (input ++ [keystroke])).isEmpty
      contextStack := tree.contextStack dispatchPath } := by
  rw [dispatchKey]
  exact if_pos h

theorem dispatchKey_of_found
    (h : tree.mayContinue dispatchPath (input ++ [keystroke]) = false)
    (hfound : tree.found dispatchPath (input ++ [keystroke]) ≠ []) :
    tree.dispatchKey dispatchPath input keystroke = some {
      bindings := tree.found dispatchPath (input ++ [keystroke])
      contextStack := tree.contextStack dispatchPath } := by
  rw [dispatchKey]
  refine (if_neg (Bool.eq_false_iff.mp h)).trans (if_pos ?_)
  simpa [found, List.isEmpty_iff] using hfound

end DispatchTree

namespace Typing

variable {α : Type} {s s' : Typing α}

/-! ## What becomes of the keystrokes -/

/-- The outputs stand for consecutive segments of what was typed, up to what is pending. -/
structure Accounted (s : Typing α) : Prop where
  ledger : ∃ segments, List.Forall₂ (fun segment output => output.Accounts segment) segments
    s.outputs ∧ s.typed = segments.flatten ++ s.pending
  pending : ∀ p, s.pendingInput = some p → p.keystrokes ≠ [] ∧ p.timer = p.needsTimeout

theorem accounted_new (frame : KeyFrame α) (active : Bool) : (new frame active).Accounted :=
  ⟨⟨[], .nil, rfl⟩, nofun⟩

theorem Accounted.discard (h : s.Accounted) : s.discard.Accounted := by
  obtain ⟨⟨segments, hsegments, htyped⟩, hpending⟩ := h
  refine ⟨?_, nofun⟩
  cases hinput : s.pendingInput with
  | none =>
    refine ⟨segments, ?_, ?_⟩
    · simpa [Typing.discard, hinput] using hsegments
    · simpa [Typing.discard, Typing.pending, hinput] using htyped
  | some p =>
    refine ⟨segments ++ [p.keystrokes], ?_, ?_⟩
    · have hlast : List.Forall₂ (fun segment (output : TypingOutput α) => output.Accounts segment)
          [p.keystrokes] [.discard p.keystrokes] :=
        .cons ⟨rfl, (hpending p hinput).1⟩ .nil
      simpa [Typing.discard, hinput] using List.rel_append hsegments hlast
    · simpa [Typing.discard, Typing.pending, hinput] using htyped

/-- Changes of fields that no keystroke is kept in. -/
theorem Accounted.of_eq (h : s.Accounted) (hinput : s'.pendingInput = s.pendingInput)
    (htyped : s'.typed = s.typed) (houtputs : s'.outputs = s.outputs) : s'.Accounted := by
  obtain ⟨hledger, hpending⟩ := h
  rw [Typing.pending, ← hinput, ← htyped, ← houtputs] at hledger
  exact ⟨hledger, by rwa [hinput]⟩

theorem Accounted.changeFocus (h : s.Accounted) (a : FocusAction) :
    (s.changeFocus a).Accounted := by
  cases a with
  | focus handle =>
    simp only [Typing.changeFocus]
    split_ifs
    · exact h
    · exact h.discard.of_eq rfl rfl rfl
  | blur | disableFocus | activeStatusChange active => exact h.of_eq rfl rfl rfl

theorem Accounted.changeFocuses (h : s.Accounted) (as : List FocusAction) :
    (as.foldl Typing.changeFocus s).Accounted := by
  induction as generalizing s with
  | nil => exact h
  | cons a as ih => exact ih (h.changeFocus a)

/-- Replays stand for segments. -/
theorem accounts_of_replayed {frame : KeyFrame α} {focus : Option FocusId}
    {remaining rest : List Keystroke} {segments : List (List Keystroke)} {replays : List (Replay α)}
    (h : DispatchTree.Replayed frame.tree (frame.dispatchPath focus) remaining segments replays
      rest) (target : Option FocusId) :
    List.Forall₂ (fun segment output => output.Accounts segment) segments
      (replays.map (TypingOutput.replay frame focus target)) := by
  induction h with
  | nil rest => exact .nil
  | cons hsegment _ ih =>
    refine .cons ⟨hsegment.keystroke, hsegment.bindings, fun hnone => ?_⟩ ih
    rcases hsegment.longest with ⟨hne, -⟩ | ⟨hlength, -⟩
    · exact absurd hnone hne
    · exact hlength

/-- The outputs are for what was typed, but for some last keystrokes. -/
def AccountedUpTo (s : Typing α) (last : List Keystroke) : Prop :=
  s.pendingInput = none ∧ ∃ segments,
    List.Forall₂ (fun segment output => output.Accounts segment) segments s.outputs ∧
    s.typed = segments.flatten ++ last

theorem Accounted.takePending (h : s.Accounted) :
    s.takePending.2.AccountedUpTo s.takePending.1.keystrokes := by
  unfold Typing.takePending
  dsimp only
  split_ifs with hstale
  · obtain ⟨⟨segments, hsegments, htyped⟩, -⟩ := h.discard
    exact ⟨rfl, segments, hsegments, htyped⟩
  · obtain ⟨⟨segments, hsegments, htyped⟩, -⟩ := h
    refine ⟨rfl, segments, hsegments, ?_⟩
    cases hinput : s.pendingInput <;> simpa [Typing.pending, hinput] using htyped

/-- Without pending input a change of the focus changes nothing else. -/
theorem changeFocuses_of_none (hinput : s.pendingInput = none) (as : List FocusAction) :
    ∃ window, as.foldl Typing.changeFocus s = { s with window } := by
  induction as generalizing s with
  | nil => exact ⟨s.window, rfl⟩
  | cons a as ih =>
    have hone : ∃ window, s.changeFocus a = { s with window } := by
      cases a with
      | focus handle =>
        simp only [Typing.changeFocus]
        split_ifs
        · exact ⟨s.window, rfl⟩
        · exact ⟨s.window.setFocus handle, by simp [Typing.discard, hinput]⟩
      | blur | disableFocus | activeStatusChange active => exact ⟨_, rfl⟩
    obtain ⟨window, hwindow⟩ := hone
    obtain ⟨window', hwindow'⟩ := ih (show (s.changeFocus a).pendingInput = none by
      rw [hwindow]
      exact hinput)
    refine ⟨window', ?_⟩
    rw [List.foldl_cons, hwindow', hwindow]

/-- A keystroke is dispatched after what is pending, and does not panic. -/
theorem AccountedUpTo.typeKeystroke {input : PendingInput} (h : s.AccountedUpTo input.keystrokes)
    (focus : Option FocusId) (keystroke : Keystroke) (event : KeyEvent) (answers : KeyAnswers) :
    ∃ s', s.typeKeystroke input focus keystroke event answers = some s' ∧ s'.Accounted := by
  obtain ⟨hinput, segments, hsegments, htyped⟩ := h
  obtain ⟨result, segments', rest, hresult, -, hreplayed, houtcome⟩ :=
    DispatchTree.dispatchKey_spec s.frame.tree (s.frame.dispatchPath focus) input.keystrokes
      keystroke
  have hall : List.Forall₂ (fun segment output => output.Accounts segment) (segments ++ segments')
      (s.outputs ++ s.replayed focus result.toReplay) :=
    List.rel_append hsegments (accounts_of_replayed hreplayed s.window.focus)
  have htyped' : s.typed ++ [keystroke] =
      (segments ++ segments').flatten ++ (rest ++ [keystroke]) := by
    rw [htyped, hreplayed.flatten]
    simp
  -- what the replays call changes the focus only
  let resolved : Typing α := { s with
    typed := s.typed ++ [keystroke]
    outputs := s.outputs ++ s.replayed focus result.toReplay }
  obtain ⟨window, hwindow⟩ : ∃ window, (if result.toReplay.isEmpty then resolved
      else answers.replays.foldl Typing.changeFocus resolved) = { resolved with window } := by
    split_ifs
    · exact ⟨s.window, rfl⟩
    · have hresolved : resolved.pendingInput = none := hinput
      exact changeFocuses_of_none hresolved answers.replays
  simp only [Typing.typeKeystroke, hresult, Option.bind_eq_bind, Option.bind_some]
  rw [hwindow]
  have hdispatch : result.bindings = s.frame.tree.found (s.frame.dispatchPath focus)
        (rest ++ [keystroke]) → (result.bindings = [] → (rest ++ [keystroke]).length = 1) →
      Accounted { resolved with
        window
        outputs := resolved.outputs ++ [.dispatch s.frame focus keystroke result.bindings
          (event.skipBindings answers.acceptsTextInput)] } := by
    intro hbindings hlength
    refine ⟨⟨(segments ++ segments') ++ [rest ++ [keystroke]], List.rel_append hall
      (.cons ⟨by simp, hbindings, hlength⟩ .nil), ?_⟩, fun p hp => ?_⟩
    · simpa [Typing.pending, hinput, resolved] using htyped'
    · rw [show resolved.pendingInput = none from hinput] at hp
      cases hp
  cases houtcome with
  | pending hcontinue hpending hhas hbindings =>
    have hne : result.pending ≠ [] := by simp [hpending]
    rw [if_pos (by simpa [List.isEmpty_iff] using hne)]
    refine ⟨_, rfl, ⟨segments ++ segments', hall, ?_⟩, ?_⟩
    · rw [← hpending] at htyped'
      exact htyped'
    · intro p hp
      cases hp
      exact ⟨hne, rfl⟩
  | bound hcontinue hpending hbindings hne =>
    rw [if_neg (by simp [hpending])]
    exact ⟨_, rfl, hdispatch hbindings fun hnone => absurd hnone hne⟩
  | unbound hcontinue hpending hfound hbindings hlength =>
    rw [if_neg (by simp [hpending])]
    exact ⟨_, rfl, hdispatch (hbindings.trans hfound.symm) fun _ => hlength⟩

theorem Accounted.dispatchKeyEvent (h : s.Accounted) (event : KeyEvent) (answers : KeyAnswers) :
    ∃ s', s.dispatchKeyEvent event answers = some s' ∧ s'.Accounted := by
  unfold Typing.dispatchKeyEvent
  dsimp only
  cases (s.pendingModifier.keystroke event).1 with
  | none => exact ⟨_, rfl, h.of_eq rfl rfl rfl⟩
  | some keystroke =>
    have hfocused := Accounted.changeFocuses (h.of_eq rfl rfl rfl :
      Accounted { s with pendingModifier := (s.pendingModifier.keystroke event).2 })
      (event.answers answers).interceptors
    dsimp only
    split_ifs
    · exact ⟨_, rfl, hfocused⟩
    · exact hfocused.takePending.typeKeystroke _ _ _ _

theorem Accounted.timeout (h : s.Accounted) (observers : List FocusAction) :
    ∃ s', s.timeout observers = some s' ∧ s'.Accounted := by
  unfold Typing.timeout
  cases hinput : s.pendingInput with
  | none => exact ⟨s, rfl, h⟩
  | some p =>
    dsimp only
    split_ifs with hstale
    · exact ⟨_, rfl, h.discard⟩
    · obtain ⟨⟨segments, hsegments, htyped⟩, hpending⟩ := h
      obtain ⟨replays, segments', hreplays, hreplayed⟩ := DispatchTree.flushDispatch_spec
        s.frame.tree (s.frame.dispatchPath s.window.focus) (hpending p hinput).1
      obtain ⟨window, hwindow⟩ := changeFocuses_of_none
        (rfl : ({ s with pendingInput := none } : Typing α).pendingInput = none) observers
      simp only [hreplays, hwindow, Option.bind_eq_bind, Option.bind_some]
      refine ⟨_, rfl, ⟨segments ++ segments',
        List.rel_append hsegments (accounts_of_replayed hreplayed window.focus), ?_⟩, nofun⟩
      have hflatten := hreplayed.flatten
      simp only [Typing.pending, hinput, Option.map_some, Option.getD_some] at htyped
      rw [htyped, hflatten]
      simp [Typing.pending]

/-- An event keeps the account, and panics in no case. -/
theorem Accounted.step (h : s.Accounted) {a : TypingAction α} (hstep : s.step a = some s') :
    s'.Accounted := by
  cases a with
  | key event answers =>
    obtain ⟨next, hnext, haccounted⟩ := h.dispatchKeyEvent event answers
    obtain rfl := Option.some.inj (hnext.symm.trans hstep)
    exact haccounted
  | timeout observers =>
    simp only [Typing.step] at hstep
    split_ifs at hstep
    obtain ⟨next, hnext, haccounted⟩ := h.timeout observers
    obtain rfl := Option.some.inj (hnext.symm.trans hstep)
    exact haccounted
  | changeFocus a =>
    cases hstep
    exact h.changeFocus a
  | redraw frame =>
    cases hstep
    exact h.of_eq rfl rfl rfl

theorem Accounted.step_eq_none (h : s.Accounted) (a : TypingAction α) : s.step a = none ↔
    (∃ observers, a = .timeout observers) ∧
      ∀ p, s.pendingInput = some p → p.needsTimeout = false := by
  cases a with
  | key event answers =>
    obtain ⟨next, hnext, -⟩ := h.dispatchKeyEvent event answers
    exact iff_of_false (by simp [Typing.step, hnext]) (by simp)
  | timeout observers =>
    obtain ⟨next, hnext, -⟩ := h.timeout observers
    cases hinput : s.pendingInput with
    | none => simp [Typing.step, hinput]
    | some p =>
      have htimer := (h.pending p hinput).2
      cases hneeds : p.needsTimeout <;> simp [Typing.step, hinput, htimer, hneeds, hnext]
  | changeFocus a => exact iff_of_false nofun (by simp)
  | redraw frame => exact iff_of_false nofun (by simp)

/-! ## Without changes of the focus -/

/-- Nothing that the event calls changes the focus. -/
def KeepsFocus (_ : Typing α) : TypingAction α → Prop
  | .key _ answers => answers.interceptors = [] ∧ answers.replays = []
  | .timeout observers => observers = []
  | .changeFocus _ => False
  | .redraw _ => True

/-- What is pending was typed at the present focus, and nothing was discarded. -/
structure Attached (s : Typing α) : Prop where
  focus : ∀ p, s.pendingInput = some p → p.focus = s.window.focus
  resolved : ∀ output ∈ s.outputs, output.isResolved

theorem attached_new (frame : KeyFrame α) (active : Bool) : (new frame active).Attached :=
  ⟨fun _ hsome => absurd hsome (Option.some_ne_none _).symm,
    fun _ hmem => absurd hmem List.not_mem_nil⟩

theorem Attached.append (h : ∀ output ∈ s.outputs, output.isResolved) {more : List (TypingOutput α)}
    (hmore : ∀ output ∈ more, output.isResolved) :
    ∀ output ∈ s.outputs ++ more, output.isResolved := by
  intro output hmem
  rcases List.mem_append.mp hmem with hmem | hmem
  · exact h output hmem
  · exact hmore output hmem

/-- What was typed at the present focus is not stale. -/
theorem takePending_of_focus (s : Typing α)
    (h : ∀ p, s.pendingInput = some p → p.focus = s.window.focus) :
    s.takePending = (s.pendingInput.getD {}, { s with pendingInput := none }) := by
  refine if_neg ?_
  rintro ⟨hsome, hne⟩
  cases hinput : s.pendingInput with
  | none => simp [hinput] at hsome
  | some p => exact hne (by simpa [hinput] using h p hinput)

theorem isResolved_of_replayed (s : Typing α) (focus : Option FocusId)
    (toReplay : List (Replay α)) :
    ∀ output ∈ s.replayed focus toReplay, output.isResolved := by
  intro output hmem
  obtain ⟨replay, -, rfl⟩ := List.mem_map.mp hmem
  rfl

theorem Attached.typeKeystroke (h : s.Attached) {input : PendingInput} {focus : Option FocusId}
    {keystroke : Keystroke} {event : KeyEvent} {answers : KeyAnswers}
    (hreplays : answers.replays = []) (hinput : s.pendingInput = none)
    (hstep : s.typeKeystroke input focus keystroke event answers = some s') : s'.Attached := by
  obtain ⟨result, -, hstep⟩ := Option.bind_eq_some_iff.mp hstep
  simp only [hreplays, List.foldl_nil, ite_self] at hstep
  have hresolved := Attached.append h.resolved (s.isResolved_of_replayed focus result.toReplay)
  split_ifs at hstep
  · cases hstep
    refine ⟨fun p hp => ?_, hresolved⟩
    cases hp
    rfl
  · cases hstep
    refine ⟨fun p hp => ?_, ?_⟩
    · rw [show s.pendingInput = none from hinput] at hp
      cases hp
    · intro output hmem
      rcases List.mem_append.mp hmem with hmem | hmem
      · exact hresolved output hmem
      · rw [List.mem_singleton.mp hmem]
        rfl

theorem Attached.step (h : s.Attached) {a : TypingAction α} (ha : s.KeepsFocus a)
    (hstep : s.step a = some s') : s'.Attached := by
  cases a with
  | key event answers =>
    obtain ⟨hinterceptors, hreplays⟩ := ha
    have hnone : (event.answers answers).interceptors = [] := by
      cases event <;> first | exact hinterceptors | rfl
    have hreplays' : (event.answers answers).replays = [] := by
      cases event <;> exact hreplays
    simp only [Typing.step, dispatchKeyEvent] at hstep
    cases hkeystroke : (s.pendingModifier.keystroke event).1 with
    | none =>
      rw [hkeystroke] at hstep
      cases hstep
      exact ⟨h.focus, h.resolved⟩
    | some keystroke =>
      simp only [hkeystroke, hnone, List.foldl_nil] at hstep
      split_ifs at hstep
      · cases hstep
        exact ⟨h.focus, h.resolved⟩
      · rw [takePending_of_focus { s with
          pendingModifier := (s.pendingModifier.keystroke event).2 } h.focus] at hstep
        have hattached : Attached { s with
            pendingModifier := (s.pendingModifier.keystroke event).2
            pendingInput := none } := ⟨nofun, h.resolved⟩
        exact hattached.typeKeystroke hreplays' rfl hstep
  | timeout observers =>
    obtain rfl : observers = [] := ha
    simp only [Typing.step] at hstep
    split_ifs at hstep
    simp only [Typing.timeout] at hstep
    cases hinput : s.pendingInput with
    | none =>
      rw [hinput] at hstep
      cases hstep
      exact h
    | some p =>
      simp only [hinput, h.focus p hinput, ne_eq, not_true_eq_false, if_false] at hstep
      obtain ⟨toReplay, -, hstep⟩ := Option.bind_eq_some_iff.mp hstep
      cases hstep
      exact ⟨nofun, Attached.append h.resolved (isResolved_of_replayed _ _ _)⟩
  | changeFocus a => exact ha.elim
  | redraw frame =>
    cases hstep
    exact ⟨h.focus, h.resolved⟩

/-! ## Typing a binding -/

/-- A key is pressed, and no interceptor stops it. -/
def press (key : Keystroke × Bool × Bool) : TypingAction α :=
  .key (.keyDown key.1 key.2.1) { acceptsTextInput := key.2.2 }

theorem step_press (h : ∀ p, s.pendingInput = some p → p.focus = s.window.focus)
    (key : Keystroke × Bool × Bool) :
    s.step (press key) = typeKeystroke { s with
        pendingInput := none
        pendingModifier := { s.pendingModifier with sawKeystroke := true } }
      (s.pendingInput.getD {}) s.window.focus key.1 (.keyDown key.1 key.2.1)
      { acceptsTextInput := key.2.2 } := by
  simp only [Typing.step, press, dispatchKeyEvent, ModifierState.keystroke, KeyEvent.answers,
    List.foldl_nil, Bool.false_eq_true, if_false]
  rw [takePending_of_focus { s with
    pendingModifier := { s.pendingModifier with sawKeystroke := true } } h]

/-- What is pending while a binding is typed. -/
structure Partly (s t : Typing α) (keystrokes : List Keystroke) : Prop where
  frame : t.frame = s.frame
  window : t.window = s.window
  outputs : t.outputs = s.outputs
  keystrokes : (t.pendingInput.getD {}).keystrokes = keystrokes
  focus : ∀ p, t.pendingInput = some p → p.focus = s.window.focus

/-- A keystroke is pending as long as there may be a longer binding. -/
theorem Partly.press_pending {t : Typing α} {keystrokes : List Keystroke}
    (h : s.Partly t keystrokes) (key : Keystroke × Bool × Bool)
    (hcontinue : s.frame.tree.mayContinue (s.frame.dispatchPath s.window.focus)
      (keystrokes ++ [key.1]) = true) :
    ∃ t', t.step (press key) = some t' ∧ s.Partly t' (keystrokes ++ [key.1]) := by
  obtain ⟨frame, window, modifier, input, typed, outputs⟩ := t
  obtain ⟨rfl, rfl, rfl, hkeystrokes, hfocus⟩ := h
  rw [step_press hfocus]
  dsimp only at hkeystrokes ⊢
  simp only [typeKeystroke, hkeystrokes, DispatchTree.dispatchKey_of_mayContinue hcontinue,
    Option.bind_eq_bind, Option.bind_some]
  rw [if_pos (by simp)]
  refine ⟨_, rfl, rfl, rfl, by simp [replayed], rfl, fun p hp => ?_⟩
  cases hp
  rfl

/-- The last keystroke of a binding dispatches it. -/
theorem Partly.press_bound {t : Typing α} {keystrokes : List Keystroke}
    (h : s.Partly t keystrokes) (key : Keystroke × Bool × Bool)
    (hcontinue : s.frame.tree.mayContinue (s.frame.dispatchPath s.window.focus)
      (keystrokes ++ [key.1]) = false)
    (hfound : s.frame.tree.found (s.frame.dispatchPath s.window.focus)
      (keystrokes ++ [key.1]) ≠ []) :
    ∃ t', t.step (press key) = some t' ∧ t'.pendingInput = none ∧
      t'.outputs = s.outputs ++ [.dispatch s.frame s.window.focus key.1
        (s.frame.tree.found (s.frame.dispatchPath s.window.focus) (keystrokes ++ [key.1]))
        (key.2.1 && key.2.2)] := by
  obtain ⟨frame, window, modifier, input, typed, outputs⟩ := t
  obtain ⟨rfl, rfl, rfl, hkeystrokes, hfocus⟩ := h
  rw [step_press hfocus]
  dsimp only at hkeystrokes ⊢
  simp only [typeKeystroke, hkeystrokes, DispatchTree.dispatchKey_of_found hcontinue hfound,
    Option.bind_eq_bind, Option.bind_some]
  rw [if_neg (by simp)]
  exact ⟨_, rfl, rfl, by simp [replayed, KeyEvent.skipBindings]⟩

/-- While a binding is typed, everything is pending. -/
theorem exists_partly (hinput : s.pendingInput = none) (keys : List (Keystroke × Bool × Bool))
    (hcontinue : ∀ front, front <+: keys → front ≠ [] → s.frame.tree.mayContinue
      (s.frame.dispatchPath s.window.focus) (front.map Prod.fst) = true) :
    ∃ t, Run step KeepsFocus s (keys.map press) t ∧ s.Partly t (keys.map Prod.fst) := by
  induction keys using List.reverseRecOn with
  | nil => exact ⟨s, .nil, rfl, rfl, rfl, by simp [hinput], by simp [hinput]⟩
  | append_singleton keys key ih =>
    obtain ⟨t, run, hpartly⟩ := ih fun front hfront =>
      hcontinue front (hfront.trans (List.prefix_append _ _))
    obtain ⟨t', hstep, hpartly'⟩ := hpartly.press_pending key (by
      have := hcontinue (keys ++ [key]) (List.prefix_refl _) (by simp)
      rwa [List.map_append] at this)
    refine ⟨t', ?_, ?_⟩
    · rw [List.map_append]
      exact run.snoc _ ⟨rfl, rfl⟩ hstep
    · rwa [List.map_append]

end Typing

/-- A frame whose only binding is `a b`. -/
def chordFrame : KeyFrame Unit where
  tree := ⟨[⟨none⟩], ⟨[⟨.act (), [⟨⟨{}, "a", none⟩⟩, ⟨⟨{}, "b", none⟩⟩], none, none⟩]⟩⟩
  dispatchPath _ := [⟨0, by decide⟩]

/-- Where nothing is pending, the keystrokes of a binding, typed one after the other, dispatch it:
if its parts may be continued and the whole may not, the bindings that are found for the whole are
dispatched with the last keystroke, and nothing else happens and nothing is pending. -/
theorem typing_dispatches {α : Type} (s : Typing α) (hinput : s.pendingInput = none)
    (keys : List (Keystroke × Bool × Bool)) (last : Keystroke × Bool × Bool)
    (hcontinue : ∀ front, front <+: keys → front ≠ [] → s.frame.tree.mayContinue
      (s.frame.dispatchPath s.window.focus) (front.map Prod.fst) = true)
    (hend : s.frame.tree.mayContinue (s.frame.dispatchPath s.window.focus)
      ((keys ++ [last]).map Prod.fst) = false)
    (hfound : s.frame.tree.found (s.frame.dispatchPath s.window.focus)
      ((keys ++ [last]).map Prod.fst) ≠ []) :
    ∃ t, Run Typing.step Typing.KeepsFocus s ((keys ++ [last]).map Typing.press) t ∧
      t.pendingInput = none ∧ t.outputs = s.outputs ++ [.dispatch s.frame s.window.focus last.1
        (s.frame.tree.found (s.frame.dispatchPath s.window.focus)
          ((keys ++ [last]).map Prod.fst)) (last.2.1 && last.2.2)] := by
  simp only [List.map_append, List.map_cons, List.map_nil] at hend hfound ⊢
  obtain ⟨t, run, hpartly⟩ := Typing.exists_partly hinput keys hcontinue
  obtain ⟨t', hstep, hnone, houtputs⟩ := hpartly.press_bound last hend hfound
  exact ⟨t', run.snoc _ ⟨rfl, rfl⟩ hstep, hnone, houtputs⟩

theorem typing_dispatches_chord : ∃ t, Run Typing.step Typing.KeepsFocus (.new chordFrame true)
      (([((⟨{}, "a", none⟩ : Keystroke), false, false)] ++
        [((⟨{}, "b", none⟩ : Keystroke), false, false)]).map Typing.press) t ∧
      t.pendingInput = none ∧ t.outputs = [] ++ [.dispatch chordFrame none ⟨{}, "b", none⟩
        (chordFrame.tree.found (chordFrame.dispatchPath none)
          [⟨{}, "a", none⟩, ⟨{}, "b", none⟩]) false] :=
  typing_dispatches (.new chordFrame true) rfl [(⟨{}, "a", none⟩, false, false)]
    (⟨{}, "b", none⟩, false, false)
    (fun front hfront hne => by
      obtain rfl | ⟨rest, rfl, hrest⟩ := List.prefix_cons_iff.mp hfront
      · exact absurd rfl hne
      · obtain rfl := List.prefix_nil.mp hrest
        decide)
    (by decide) (by decide)

end Lucie
