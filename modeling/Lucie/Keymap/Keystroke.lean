import Mathlib.Tactic.Common

/-!
# Keystrokes

What was typed and what the keymap holds. The build is the one for every platform but
Windows.
-/

set_option autoImplicit false

namespace Lucie

/-- The state of the modifier keys. -/
structure Modifiers where
  control : Bool := false
  alt : Bool := false
  shift : Bool := false
  platform : Bool := false
  function : Bool := false
  deriving DecidableEq

/-- A keystroke generated by the platform. -/
structure Keystroke where
  modifiers : Modifiers
  key : String
  keyChar : Option String
  deriving DecidableEq

/-- A keystroke of a key binding. -/
structure KeybindingKeystroke where
  inner : Keystroke
  deriving DecidableEq

/-- `Keystroke::should_match`: the typed key or the character that it produces is the
target. -/
def Keystroke.shouldMatch (typed : Keystroke) (target : KeybindingKeystroke) : Bool :=
  let imeModifiers : Modifiers :=
    { control := typed.modifiers.control, platform := typed.modifiers.platform }
  match typed.keyChar.filter (· ≠ typed.key) with
  | some keyChar =>
    (target.inner.key == keyChar && target.inner.modifiers == imeModifiers) ||
      (target.inner.modifiers == typed.modifiers && target.inner.key == typed.key)
  | none => target.inner.modifiers == typed.modifiers && target.inner.key == typed.key

/-- A keystroke of a binding matches itself. -/
theorem Keystroke.shouldMatch_inner (target : KeybindingKeystroke) :
    target.inner.shouldMatch target = true := by
  unfold Keystroke.shouldMatch
  split <;> simp

end Lucie
