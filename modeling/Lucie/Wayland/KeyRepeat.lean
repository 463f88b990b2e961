import Lucie.Foundation.Exact
import Lucie.Foundation.Journal
import Lucie.Keymap.Keystroke
import Mathlib.Algebra.Group.Nat.Hom
import Mathlib.Data.List.Nodup

/-!
# Key repeat

A key that is pressed starts a timer of its own, and nothing stops the timers of earlier keys. A
timer that fires looks whether its key is still the last one and has not been released. Timers keep
to the schedule of the press, whenever they fire.
-/

set_option autoImplicit false

namespace Lucie.Wayland

open Foundation

/-- A key that is pressed in a focused window, with the time and the settings of the repeat. Times
are nanoseconds. -/
structure KeyPress where
  window : ℕ
  keycode : ℕ
  keystroke : Keystroke
  rate : ℕ
  delay : ℕ
  now : ℕ

/-- The timer of a key, with what its closure holds. -/
structure RepeatTimer where
  id : ℕ
  keystroke : Keystroke
  rate : ℕ
  deadline : ℕ
  deriving DecidableEq

/-- What the keyboard does, to windows or to a timer. -/
inductive KeyboardOutput
  | keyDown (press : KeyPress)
  | keyUp (window keycode : ℕ)
  | leave
  /-- A key down event with `is_held`, at the deadline of a timer. -/
  | held (window : ℕ) (keystroke : Keystroke) (deadline : ℕ)
  /-- A timer is dropped, while a window is focused or not. -/
  | stopped (keystroke : Keystroke) (rate : ℕ) (focused : Bool)

/-- `KeyRepeat` and the focus of the keyboard, with the timers of the loop and what happened. -/
structure Keyboard where
  charactersPerSecond : ℕ
  delay : ℕ
  currentId : ℕ
  currentKeycode : Option ℕ
  windows : List ℕ
  keyboardFocusedWindow : Option ℕ
  timers : List RepeatTimer
  outputs : List KeyboardOutput

/-- What happens to a keyboard. -/
inductive KeyboardAction
  | repeatInfo (rate delay : ℕ)
  | enter (surface : ℕ)
  | leave
  | pressed (keycode : ℕ) (keystroke : Keystroke) (modifier : Bool) (now : ℕ)
  | released (keycode : ℕ) (modifier : Bool)
  | fire (timer : RepeatTimer) (now : ℕ)
  | openWindow (surface : ℕ)
  | dropWindow (surface : ℕ)

/-- `repeat_interval`. -/
def repeatInterval (rate : ℕ) : ℕ := 10 ^ 9 / max rate 1

namespace Keyboard

/-- The keyboard of a new client. -/
def new : Keyboard := ⟨16, 500 * 10 ^ 6, 0, none, [], none, [], []⟩

/-- The callback of a timer. -/
def fire (s : Keyboard) (timer : RepeatTimer) : Keyboard :=
  let rest := s.timers.erase timer
  match s.keyboardFocusedWindow with
  | some window =>
    if ¬(timer.id = s.currentId ∧ s.currentKeycode.isSome) ∨ timer.rate = 0 then { s with
      timers := rest
      outputs := s.outputs ++ [.stopped timer.keystroke timer.rate true] }
    else { s with
      timers := { timer with deadline := timer.deadline + repeatInterval timer.rate } :: rest
      outputs := s.outputs ++ [.held window timer.keystroke timer.deadline] }
  | none => { s with
      timers := rest
      outputs := s.outputs ++ [.stopped timer.keystroke timer.rate false] }

/-- A key that is pressed in a focused window. -/
def press (s : Keyboard) (press : KeyPress) : Keyboard :=
  { s with
    currentId := s.currentId + 1
    currentKeycode := some press.keycode
    timers := ⟨s.currentId + 1, press.keystroke, press.rate, press.now + press.delay⟩ :: s.timers
    outputs := s.outputs ++ [.keyDown press] }

/-- One event; `none` is a timer that does not fire. -/
def step (s : Keyboard) : KeyboardAction → Option Keyboard
  | .repeatInfo rate delay =>
    some { s with charactersPerSecond := rate, delay := delay * 10 ^ 6 }
  | .enter surface => some { s with
      keyboardFocusedWindow := if surface ∈ s.windows then some surface else none }
  | .leave => some { s with
      keyboardFocusedWindow := none
      currentId := s.currentId + 1
      outputs := s.outputs ++ [.leave] }
  | .pressed keycode keystroke modifier now =>
    match s.keyboardFocusedWindow with
    | some window =>
      if modifier then some s
      else some (s.press ⟨window, keycode, keystroke, s.charactersPerSecond, s.delay, now⟩)
    | none => some s
  | .released keycode modifier =>
    match s.keyboardFocusedWindow with
    | some window =>
      if modifier then some s
      else some { s with
        currentKeycode := if s.currentKeycode = some keycode then none else s.currentKeycode
        outputs := s.outputs ++ [.keyUp window keycode] }
    | none => some s
  | .fire timer now =>
    if timer ∈ s.timers ∧ timer.deadline ≤ now then some (s.fire timer) else none
  | .openWindow surface => some { s with windows := surface :: s.windows }
  | .dropWindow surface => some { s with
      windows := s.windows.filter (· ≠ surface)
      keyboardFocusedWindow :=
        if s.keyboardFocusedWindow = some surface then none else s.keyboardFocusedWindow }

end Keyboard

namespace KeyboardOutput

/-- Another key is pressed, or the focus of the keyboard leaves. -/
def replaces : KeyboardOutput → Bool
  | .keyDown _ | .leave => true
  | _ => false

/-- The key is released. -/
def releases (keycode : ℕ) : KeyboardOutput → Bool
  | .keyUp _ other => other = keycode
  | _ => false

def isHeld : KeyboardOutput → Bool
  | .held _ _ _ => true
  | _ => false

/-- The key of a press is held down after these outputs. -/
def HeldDown (press : KeyPress) (later : List KeyboardOutput) : Prop :=
  (∀ output ∈ later, output.replaces = false) ∧ later.any (releases press.keycode) = false

/-- What justifies that a timer repeats its key, or not. -/
def Justified (before : List KeyboardOutput) : KeyboardOutput → Prop
  | .held _ keystroke deadline => ∃ earlier press later,
      before = earlier ++ .keyDown press :: later ∧ press.keystroke = keystroke ∧
      press.rate ≠ 0 ∧ HeldDown press later ∧
      deadline = press.now + press.delay + later.countP isHeld * repeatInterval press.rate
  | .stopped keystroke rate focused => ∃ earlier press later,
      before = earlier ++ .keyDown press :: later ∧ press.keystroke = keystroke ∧
      press.rate = rate ∧ (rate = 0 ∨ focused = false ∨ ¬HeldDown press later)
  | _ => True

end KeyboardOutput

namespace Keyboard

open KeyboardOutput

variable {s s' : Keyboard}

/-- The press of a timer: the timer is the current one as long as no other key is pressed and the
focus does not leave. The current timer is on the schedule of its press, and its key is the current
one until it is released. -/
def StartedBy (s : Keyboard) (timer : RepeatTimer) (press : KeyPress)
    (later : List KeyboardOutput) : Prop :=
  press.keystroke = timer.keystroke ∧ press.rate = timer.rate ∧
  (timer.id = s.currentId ↔ ∀ output ∈ later, output.replaces = false) ∧
  (timer.id = s.currentId →
    s.currentKeycode =
      (if later.any (releases press.keycode) then none else some press.keycode) ∧
    timer.deadline =
      press.now + press.delay + later.countP isHeld * repeatInterval press.rate)

/-- Every timer was started by a press, and no two of them have the same id. -/
structure Timed (s : Keyboard) : Prop where
  le : ∀ timer ∈ s.timers, timer.id ≤ s.currentId
  nodup : (s.timers.map RepeatTimer.id).Nodup
  started : ∀ timer ∈ s.timers, ∃ earlier press later,
    s.outputs = earlier ++ .keyDown press :: later ∧ s.StartedBy timer press later
  journal : Journal (fun before output => output.Justified before) s.outputs

theorem timed_new : new.Timed :=
  ⟨fun _ hmem => absurd hmem List.not_mem_nil, List.nodup_nil,
    fun _ hmem => absurd hmem List.not_mem_nil, journal_nil⟩

/-- Changes of fields that timers do not depend on. -/
theorem Timed.of_eq (h : s.Timed) (hid : s'.currentId = s.currentId)
    (hkeycode : s'.currentKeycode = s.currentKeycode) (htimers : s'.timers = s.timers)
    (houtputs : s'.outputs = s.outputs) : s'.Timed := by
  obtain ⟨hle, hnodup, hstarted, hjournal⟩ := h
  refine ⟨?_, ?_, ?_, ?_⟩
  · rwa [htimers, hid]
  · rwa [htimers]
  · intro timer hmem
    obtain ⟨earlier, press, later, heq, hby⟩ := hstarted timer (htimers ▸ hmem)
    refine ⟨earlier, press, later, houtputs.trans heq, ?_⟩
    rwa [StartedBy, hid, hkeycode]
  · rwa [houtputs]

/-- A timer that is not the current one stays so. -/
theorem StartedBy.replaced {timer : RepeatTimer} {press : KeyPress} {later : List KeyboardOutput}
    {output : KeyboardOutput} (h : s.StartedBy timer press later)
    (hne : timer.id ≠ s'.currentId)
    (hold : timer.id = s.currentId → output.replaces = true) :
    s'.StartedBy timer press (later ++ [output]) := by
  obtain ⟨hkeystroke, hrate, hcurrent, -⟩ := h
  refine ⟨hkeystroke, hrate, iff_of_false hne fun hall => ?_, fun heq => absurd heq hne⟩
  rw [List.forall_mem_append] at hall
  have hreplaces := hold (hcurrent.mpr hall.1)
  rw [hall.2 output List.mem_cons_self] at hreplaces
  cases hreplaces

/-- Another key is pressed, or the focus leaves. -/
theorem Timed.replace (h : s.Timed) {output : KeyboardOutput} (hreplaces : output.replaces = true)
    (hid : s'.currentId = s.currentId + 1) (houtputs : s'.outputs = s.outputs ++ [output])
    (timer : RepeatTimer) (hmem : timer ∈ s.timers) : ∃ earlier press later,
      s'.outputs = earlier ++ .keyDown press :: later ∧ s'.StartedBy timer press later := by
  obtain ⟨earlier, press, later, heq, hby⟩ := h.started timer hmem
  have hle := h.le timer hmem
  refine ⟨earlier, press, later ++ [output], ?_, hby.replaced (by omega) fun _ => hreplaces⟩
  rw [houtputs, heq, List.append_assoc, List.cons_append]

theorem Timed.leave (h : s.Timed) : Timed { s with
    keyboardFocusedWindow := none
    currentId := s.currentId + 1
    outputs := s.outputs ++ [.leave] } where
  le timer hmem := Nat.le_succ_of_le (h.le timer hmem)
  nodup := h.nodup
  started := h.replace rfl rfl rfl
  journal := h.journal.snoc trivial

theorem Timed.press (h : s.Timed) (press : KeyPress) : (s.press press).Timed where
  le timer hmem := by
    rcases List.mem_cons.mp hmem with rfl | hmem
    · exact Nat.le_refl _
    · exact Nat.le_succ_of_le (h.le timer hmem)
  nodup := by
    refine List.nodup_cons.mpr ⟨fun hmem => ?_, h.nodup⟩
    obtain ⟨timer, htimer, hid⟩ := List.mem_map.mp hmem
    have hle := h.le timer htimer
    dsimp only at hid
    omega
  started timer hmem := by
    rcases List.mem_cons.mp hmem with rfl | hmem
    · have hnone : ∀ output ∈ ([] : List KeyboardOutput), output.replaces = false :=
        fun _ hmem => absurd hmem List.not_mem_nil
      refine ⟨s.outputs, press, [], rfl, rfl, rfl, iff_of_true rfl hnone, fun _ => ⟨rfl, ?_⟩⟩
      simp
    · exact h.replace rfl rfl rfl timer hmem
  journal := h.journal.snoc trivial

theorem Timed.release (h : s.Timed) (window keycode : ℕ) : Timed { s with
    currentKeycode := if s.currentKeycode = some keycode then none else s.currentKeycode
    outputs := s.outputs ++ [.keyUp window keycode] } where
  le := h.le
  nodup := h.nodup
  started timer hmem := by
    obtain ⟨earlier, press, later, heq, hkeystroke, hrate, hcurrent, hschedule⟩ :=
      h.started timer hmem
    refine ⟨earlier, press, later ++ [.keyUp window keycode], ?_, hkeystroke, hrate, ?_, ?_⟩
    · rw [heq, List.append_assoc, List.cons_append]
    · rw [hcurrent, List.forall_mem_append, List.forall_mem_singleton]
      exact (and_iff_left rfl).symm
    · intro hid
      obtain ⟨hkeycode, hdeadline⟩ := hschedule hid
      refine ⟨?_, ?_⟩
      · dsimp only
        rw [hkeycode, List.any_append]
        cases later.any (releases press.keycode) with
        | true => simp
        | false =>
          simp only [Bool.false_eq_true, if_false, Bool.false_or, Option.some.injEq,
            List.any_cons, List.any_nil, Bool.or_false, releases]
          by_cases hsame : press.keycode = keycode
          · simp [hsame]
          · simp [hsame, Ne.symm hsame]
      · rw [hdeadline, List.countP_append]
        rfl
  journal := h.journal.snoc trivial

/-- The timers other than one. -/
theorem Timed.id_notMem_erase (h : s.Timed) {timer : RepeatTimer} (hmem : timer ∈ s.timers) :
    timer.id ∉ (s.timers.erase timer).map RepeatTimer.id ∧
      ((s.timers.erase timer).map RepeatTimer.id).Nodup := by
  have hnodup := ((List.perm_cons_erase hmem).map RepeatTimer.id).nodup_iff.mp h.nodup
  exact List.nodup_cons.mp hnodup

/-- A timer that fires while its key is held down. -/
theorem Timed.hold (h : s.Timed) {timer : RepeatTimer} (hmem : timer ∈ s.timers) (window : ℕ)
    (hid : timer.id = s.currentId) (hkeycode : s.currentKeycode.isSome) (hrate : timer.rate ≠ 0) :
    Timed { s with
      timers := { timer with deadline := timer.deadline + repeatInterval timer.rate } ::
        s.timers.erase timer
      outputs := s.outputs ++ [.held window timer.keystroke timer.deadline] } := by
  obtain ⟨hnotMem, hnodup⟩ := h.id_notMem_erase hmem
  obtain ⟨earlier, press, later, heq, hkeystroke, hpress, hcurrent, hschedule⟩ :=
    h.started timer hmem
  obtain ⟨hdown, hdeadline⟩ := hschedule hid
  have hreleased : later.any (releases press.keycode) = false := by
    cases hany : later.any (releases press.keycode) with
    | true =>
      rw [hdown, hany] at hkeycode
      cases hkeycode
    | false => rfl
  refine ⟨?_, List.nodup_cons.mpr ⟨hnotMem, hnodup⟩, ?_, h.journal.snoc ?_⟩
  · intro other hother
    rcases List.mem_cons.mp hother with rfl | hother
    · exact h.le timer hmem
    · exact h.le other (List.mem_of_mem_erase hother)
  · intro other hother
    rcases List.mem_cons.mp hother with rfl | hother
    · refine ⟨earlier, press, later ++ [.held window timer.keystroke timer.deadline], ?_,
        hkeystroke, hpress, ?_, fun _ => ⟨?_, ?_⟩⟩
      · rw [heq, List.append_assoc, List.cons_append]
      · rw [List.forall_mem_append, List.forall_mem_singleton]
        exact hcurrent.trans (and_iff_left rfl).symm
      · rw [List.any_append]
        simpa [releases] using hdown
      · have hcount : [held window timer.keystroke timer.deadline].countP isHeld = 1 := rfl
        rw [List.countP_append, hcount, hdeadline, hpress, Nat.succ_mul, Nat.add_assoc]
    · obtain ⟨earlier', press', later', heq', hby⟩ :=
        h.started other (List.mem_of_mem_erase hother)
      have hne : other.id ≠ s.currentId := fun heq =>
        hnotMem (List.mem_map.mpr ⟨other, hother, heq.trans hid.symm⟩)
      refine ⟨earlier', press', later' ++ [.held window timer.keystroke timer.deadline], ?_,
        hby.replaced hne fun heq => absurd heq hne⟩
      rw [heq', List.append_assoc, List.cons_append]
  · exact ⟨earlier, press, later, heq, hkeystroke, hpress ▸ hrate, ⟨hcurrent.mp hid, hreleased⟩,
      hdeadline⟩

/-- A timer that fires for a key that is not held down, or while nothing is focused. -/
theorem Timed.stop (h : s.Timed) {timer : RepeatTimer} (hmem : timer ∈ s.timers) (focused : Bool)
    (hstop : timer.rate = 0 ∨ focused = false ∨
      ¬(timer.id = s.currentId ∧ s.currentKeycode.isSome)) : Timed { s with
        timers := s.timers.erase timer
        outputs := s.outputs ++ [.stopped timer.keystroke timer.rate focused] } := by
  obtain ⟨-, hnodup⟩ := h.id_notMem_erase hmem
  refine ⟨fun other hother => h.le other (List.mem_of_mem_erase hother), hnodup, ?_,
    h.journal.snoc ?_⟩
  · intro other hother
    obtain ⟨earlier, press, later, heq, hkeystroke, hpress, hcurrent, hschedule⟩ :=
      h.started other (List.mem_of_mem_erase hother)
    refine ⟨earlier, press, later ++ [.stopped timer.keystroke timer.rate focused], ?_,
      hkeystroke, hpress, ?_, fun hid => ?_⟩
    · rw [heq, List.append_assoc, List.cons_append]
    · rw [List.forall_mem_append, List.forall_mem_singleton]
      exact hcurrent.trans (and_iff_left rfl).symm
    · obtain ⟨hkeycode, hdeadline⟩ := hschedule hid
      refine ⟨?_, ?_⟩
      · have hany : [stopped timer.keystroke timer.rate focused].any (releases press.keycode) =
            false := rfl
        rw [List.any_append, hany, Bool.or_false]
        exact hkeycode
      · rw [List.countP_append]
        exact hdeadline
  · obtain ⟨earlier, press, later, heq, hkeystroke, hpress, hcurrent, hschedule⟩ :=
      h.started timer hmem
    refine ⟨earlier, press, later, heq, hkeystroke, hpress, ?_⟩
    refine hstop.imp_right (Or.imp_right fun hnot hdown => hnot ?_)
    have hid := hcurrent.mpr hdown.1
    refine ⟨hid, ?_⟩
    rw [(hschedule hid).1, hdown.2]
    rfl

theorem Timed.fire (h : s.Timed) {timer : RepeatTimer} (hmem : timer ∈ s.timers) :
    (s.fire timer).Timed := by
  unfold Keyboard.fire
  cases s.keyboardFocusedWindow with
  | none =>
    dsimp only
    exact (h.stop hmem false (.inr (.inl rfl))).of_eq rfl rfl rfl rfl
  | some window =>
    dsimp only
    split_ifs with hstop
    · have hreason : timer.rate = 0 ∨ true = false ∨
          ¬(timer.id = s.currentId ∧ s.currentKeycode.isSome) :=
        hstop.elim (fun hnot => .inr (.inr hnot)) .inl
      exact (h.stop hmem true hreason).of_eq rfl rfl rfl rfl
    · rw [not_or, not_not] at hstop
      exact (h.hold hmem window hstop.1.1 hstop.1.2 hstop.2).of_eq rfl rfl rfl rfl

theorem Timed.step (h : s.Timed) {a : KeyboardAction} (hstep : s.step a = some s') : s'.Timed := by
  cases a with
  | repeatInfo | enter | openWindow | dropWindow =>
    cases hstep
    exact h.of_eq rfl rfl rfl rfl
  | leave =>
    cases hstep
    exact h.leave
  | pressed keycode keystroke modifier now =>
    simp only [Keyboard.step] at hstep
    split at hstep
    · split_ifs at hstep
      · cases hstep
        exact h
      · cases hstep
        exact h.press _
    · cases hstep
      exact h
  | released keycode modifier =>
    simp only [Keyboard.step] at hstep
    split at hstep
    · cases modifier with
      | true =>
        cases hstep
        exact h
      | false =>
        cases hstep
        exact h.release _ _
    · cases hstep
      exact h
  | fire timer now =>
    simp only [Keyboard.step] at hstep
    split_ifs at hstep with hfire
    cases hstep
    exact h.fire hfire.1

end Keyboard

end Lucie.Wayland
