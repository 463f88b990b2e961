import Lucie.Keymap.Context
import Lucie.Keymap.Keystroke
import Mathlib.Data.List.Sort

/-!
# The keymap

Which bindings an input sequence triggers in a stack of contexts, in order of
precedence, and whether a longer input could trigger more. The stable sort of the
source is insertion sort here. Actions are arbitrary apart from `NoAction`.
-/

set_option autoImplicit false

namespace Lucie

/-- What a binding does. `NoAction` removes bindings. -/
inductive Action (α : Type)
  | noAction
  | act (a : α)
  deriving DecidableEq

/-- `is_no_action`. -/
def Action.isNoAction {α : Type} : Action α → Bool
  | noAction => true
  | act _ => false

/-- A key binding. The metadata index is 0 for bindings of the user. -/
structure KeyBinding (α : Type) where
  action : Action α
  keystrokes : List KeybindingKeystroke
  contextPredicate : Option KeyBindingContextPredicate
  metaIndex : Option ℕ
  deriving DecidableEq

/-- `KeyBinding::match_keystrokes`: whether the typed keystrokes begin the binding, and
if so, whether they leave some of it. -/
def KeyBinding.matchKeystrokes {α : Type} (binding : KeyBinding α) (typed : List Keystroke) :
    Option Bool :=
  if binding.keystrokes.length < typed.length then none
  else if (binding.keystrokes.zip typed).all fun (target, typed) => typed.shouldMatch target then
    some (binding.keystrokes.length > typed.length)
  else none

/-- The bindings of a keymap in the order in which they were added. -/
structure Keymap (α : Type) where
  bindings : List (KeyBinding α)

namespace Keymap

variable {α : Type}

/-- `Keymap::add_bindings`. -/
def addBindings (keymap : Keymap α) (bindings : List (KeyBinding α)) : Keymap α :=
  ⟨keymap.bindings ++ bindings⟩

/-- `Keymap::binding_enabled`: the deepest depth at which a binding is enabled. -/
def bindingEnabled (binding : KeyBinding α) (contexts : List KeyContext) : Option ℕ :=
  match binding.contextPredicate with
  | some predicate => predicate.depthOf contexts
  | none => some contexts.length

/-- The enabled bindings that match the input, the last one first, each with its depth,
its index and whether it is pending. -/
def candidates (keymap : Keymap α) (input : List Keystroke) (contexts : List KeyContext) :
    List (ℕ × ℕ × KeyBinding α × Bool) :=
  keymap.bindings.zipIdx.reverse.filterMap fun (binding, ix) => do
    let depth ← bindingEnabled binding contexts
    let pending ← binding.matchKeystrokes input
    some (depth, ix, binding, pending)

/-- The order of precedence: depth, then index, both descending. -/
def PrecedesOrEq (a b : ℕ × ℕ × KeyBinding α) : Prop :=
  b.1 < a.1 ∨ (b.1 = a.1 ∧ b.2.1 ≤ a.2.1)

instance : DecidableRel (PrecedesOrEq (α := α)) :=
  fun _ _ => inferInstanceAs (Decidable (_ ∨ _))

/-- The full matches in order of precedence. -/
def sortedMatches (keymap : Keymap α) (input : List Keystroke) (contexts : List KeyContext) :
    List (ℕ × ℕ × KeyBinding α) :=
  ((keymap.candidates input contexts).filterMap fun (depth, ix, binding, pending) =>
    if pending then none else some (depth, ix, binding)).insertionSort PrecedesOrEq

/-- The loop over the sorted matches: a `NoAction` binding without metadata or of the
user ends it, and others are skipped. -/
def untilDisabled : List (ℕ × ℕ × KeyBinding α) → List (ℕ × ℕ × KeyBinding α)
  | [] => []
  | (depth, ix, binding) :: rest =>
    if binding.action.isNoAction then
      match binding.metaIndex with
      | some source => if source = 0 then [] else untilDisabled rest
      | none => []
    else (depth, ix, binding) :: untilDisabled rest

/-- The bindings that an input triggers, with their depths and indices. -/
def triggered (keymap : Keymap α) (input : List Keystroke) (contexts : List KeyContext) :
    List (ℕ × ℕ × KeyBinding α) :=
  untilDisabled (keymap.sortedMatches input contexts)

/-- The bindings that the input begins, the last one first. -/
def pendingBindings (keymap : Keymap α) (input : List Keystroke) (contexts : List KeyContext) :
    List (ℕ × KeyBinding α) :=
  (keymap.candidates input contexts).filterMap fun (_, ix, binding, pending) =>
    if pending then some (ix, binding) else none

/-- The loop over the pending bindings in the order of their indices. It maintains the
set of keystroke sequences that would still do something. -/
def pendingKeystrokes (firstBindingIndex : Option ℕ) :
    List (ℕ × KeyBinding α) → List (List KeybindingKeystroke) → List (List KeybindingKeystroke)
  | [], pending => pending
  | (ix, binding) :: rest, pending =>
    if firstBindingIndex.any fun bindingIx => bindingIx > ix then
      pendingKeystrokes firstBindingIndex rest pending
    else if binding.action.isNoAction then
      pendingKeystrokes firstBindingIndex rest (pending.filter (· ≠ binding.keystrokes))
    else pendingKeystrokes firstBindingIndex rest (pending.insert binding.keystrokes)

/-- `Keymap::bindings_for_input`: the bindings in order of precedence, and whether a
longer input may match more. -/
def bindingsForInput (keymap : Keymap α) (input : List Keystroke) (contexts : List KeyContext) :
    List (KeyBinding α) × Bool :=
  let bindings := keymap.triggered input contexts
  let firstBindingIndex := bindings.head?.map fun (_, ix, _) => ix
  let pending := pendingKeystrokes firstBindingIndex
    (keymap.pendingBindings input contexts).reverse []
  (bindings.map fun (_, _, binding) => binding, !pending.isEmpty)

end Keymap

end Lucie
