import Lucie.Keymap.Keymap

/-!
# Key dispatch

A typed keystroke extends the pending ones. When the whole no longer matches anything,
the pending keystrokes are replayed piece by piece, each piece the longest prefix that
triggers something, and the new keystroke is dispatched after what is left. An empty
input to the replay is a panic and returns `none`.
-/

set_option autoImplicit false

namespace Lucie

/-- The part of a node that key dispatch reads. -/
structure DispatchNode where
  context : Option KeyContext

/-- The part of the dispatch tree that key dispatch reads. -/
structure DispatchTree (α : Type) where
  nodes : List DispatchNode
  keymap : Keymap α

/-- A keystroke to replay, with the bindings that it completes. -/
structure Replay (α : Type) where
  keystroke : Keystroke
  bindings : List (KeyBinding α)

/-- Instructions to the input handler. -/
structure DispatchResult (α : Type) where
  pending : List Keystroke := []
  pendingHasBinding : Bool := false
  bindings : List (KeyBinding α) := []
  toReplay : List (Replay α) := []
  contextStack : List KeyContext

namespace DispatchTree

variable {α : Type} (tree : DispatchTree α)

/-- The ids of the nodes of a tree. -/
abbrev NodeId := Fin tree.nodes.length

variable (dispatchPath : List tree.NodeId)

/-- The contexts on a dispatch path. -/
def contextStack : List KeyContext := dispatchPath.filterMap fun id => tree.nodes[id].context

/-- `DispatchTree::bindings_for_input`. -/
def bindingsForInput (input : List Keystroke) : List (KeyBinding α) × Bool × List KeyContext :=
  let contextStack := tree.contextStack dispatchPath
  let (bindings, pending) := tree.keymap.bindingsForInput input contextStack
  (bindings, pending, contextStack)

/-- `DispatchTree::replay_prefix`: the rest of the input and the replay of its longest
prefix that triggers something, or of its first keystroke. -/
def replayPrefix (input : List Keystroke) : Option (List Keystroke × List (Replay α)) :=
  let found := (List.range input.length).reverse.find? fun last =>
    !(tree.bindingsForInput dispatchPath (input.take (last + 1))).1.isEmpty
  match found with
  | some last => do
    let keystroke ← input[last]?
    some (input.drop (last + 1),
      [⟨keystroke, (tree.bindingsForInput dispatchPath (input.take (last + 1))).1⟩])
  | none =>
    match input with
    | [] => none
    | first :: rest => some (rest, [⟨first, []⟩])

/-- The replay makes progress. -/
theorem length_lt_of_replayPrefix {input suffix : List Keystroke} {toReplay : List (Replay α)}
    (h : tree.replayPrefix dispatchPath input = some (suffix, toReplay)) :
    suffix.length < input.length := by
  simp only [replayPrefix] at h
  split at h
  · rename_i last hfind
    have hlt : last < input.length := by
      simpa using List.mem_of_find?_eq_some hfind
    simp only [List.getElem?_eq_getElem hlt, Option.bind_eq_bind, Option.bind_some,
      Option.some.injEq, Prod.mk.injEq] at h
    rw [← h.1, List.length_drop]
    omega
  · split at h
    · exact nomatch h
    · simp only [Option.some.injEq, Prod.mk.injEq] at h
      simp [h.1]

/-- `DispatchTree::dispatch_key`. -/
def dispatchKey (input : List Keystroke) (keystroke : Keystroke) : Option (DispatchResult α) :=
  let found := tree.bindingsForInput dispatchPath (input ++ [keystroke])
  let bindings := found.1
  let pending := found.2.1
  let contextStack := found.2.2
  if pending then
    some { pending := input ++ [keystroke], pendingHasBinding := !bindings.isEmpty, contextStack }
  else if !bindings.isEmpty then some { bindings, contextStack }
  else if (input ++ [keystroke]).length = 1 then some { contextStack }
  else
    match _h : tree.replayPrefix dispatchPath input with
    | none => none
    | some (suffix, toReplay) => do
      let result ← dispatchKey suffix keystroke
      some { result with toReplay := toReplay ++ result.toReplay }
termination_by input.length
decreasing_by exact tree.length_lt_of_replayPrefix dispatchPath _h

/-- `DispatchTree::flush_dispatch`. -/
def flushDispatch (input : List Keystroke) : Option (List (Replay α)) :=
  match _h : tree.replayPrefix dispatchPath input with
  | none => none
  | some (suffix, toReplay) =>
    if suffix.isEmpty then some toReplay
    else do
      let rest ← flushDispatch suffix
      some (toReplay ++ rest)
termination_by input.length
decreasing_by exact tree.length_lt_of_replayPrefix dispatchPath _h

end DispatchTree

end Lucie
