import Mathlib.Tactic.Common

/-!
# Key contexts and predicates

A predicate is evaluated against a stack of contexts, from the root to the focused
element. `!` ranges over the whole stack, and the child of `>` sees only the contexts
below its parent.
-/

set_option autoImplicit false

namespace Lucie

/-- An entry in a key context. -/
structure ContextEntry where
  key : String
  value : Option String
  deriving DecidableEq

/-- The entries of one element. -/
abbrev KeyContext := List ContextEntry

namespace KeyContext

/-- `KeyContext::contains`. -/
def contains (context : KeyContext) (key : String) : Bool :=
  context.any fun entry => entry.key == key

/-- `KeyContext::get`. -/
def get (context : KeyContext) (key : String) : Option String :=
  (context.find? fun entry => entry.key == key).bind ContextEntry.value

/-- `KeyContext::add`. -/
def add (context : KeyContext) (identifier : String) : KeyContext :=
  if context.contains identifier then context else context ++ [⟨identifier, none⟩]

/-- `KeyContext::set`. -/
def set (context : KeyContext) (key value : String) : KeyContext :=
  if context.contains key then context else context ++ [⟨key, some value⟩]

end KeyContext

/-- A predicate over a stack of contexts. -/
inductive KeyBindingContextPredicate
  | identifier (name : String)
  | equal (left right : String)
  | notEqual (left right : String)
  | descendant (parent child : KeyBindingContextPredicate)
  | not (pred : KeyBindingContextPredicate)
  | and (left right : KeyBindingContextPredicate)
  | or (left right : KeyBindingContextPredicate)
  deriving DecidableEq

namespace KeyBindingContextPredicate

/-- `KeyBindingContextPredicate::eval_inner`. The recursion is on the predicate. -/
def evalInner : KeyBindingContextPredicate → List KeyContext → List KeyContext → Bool
  | identifier name, contexts, _ =>
    match contexts.getLast? with
    | none => false
    | some context => context.contains name
  | equal left right, contexts, _ =>
    match contexts.getLast? with
    | none => false
    | some context => ((context.get left).map (· == right)).getD false
  | notEqual left right, contexts, _ =>
    match contexts.getLast? with
    | none => false
    | some context => ((context.get left).map (· != right)).getD true
  | not pred, contexts, allContexts =>
    match contexts.getLast? with
    | none => false
    | some _ =>
      !(List.range allContexts.length).any fun i =>
        pred.evalInner (allContexts.take (i + 1)) allContexts
  | descendant parent child, contexts, allContexts =>
    match contexts.getLast? with
    | none => false
    | some _ =>
      -- the first match of the parent decides
      match (List.range (contexts.length - 1)).find? fun i =>
          parent.evalInner (contexts.take (i + 1)) allContexts with
      | some i => child.evalInner (contexts.drop (i + 1)) (contexts.drop (i + 1))
      | none => false
  | and left right, contexts, allContexts =>
    match contexts.getLast? with
    | none => false
    | some _ => left.evalInner contexts allContexts && right.evalInner contexts allContexts
  | or left right, contexts, allContexts =>
    match contexts.getLast? with
    | none => false
    | some _ => left.evalInner contexts allContexts || right.evalInner contexts allContexts

/-- `KeyBindingContextPredicate::eval`. -/
def eval (pred : KeyBindingContextPredicate) (contexts : List KeyContext) : Bool :=
  pred.evalInner contexts contexts

/-- `KeyBindingContextPredicate::depth_of`: the deepest depth at which the predicate
matches. -/
def depthOf (pred : KeyBindingContextPredicate) (contexts : List KeyContext) : Option ℕ :=
  (List.range (contexts.length + 1)).reverse.find? fun depth =>
    pred.evalInner (contexts.take depth) contexts

/-- `KeyBindingContextPredicate::is_superset`. A disjunction is taken apart first; the
inner function is the recursion over the other predicate for one that is none. -/
def isSuperset : KeyBindingContextPredicate → KeyBindingContextPredicate → Bool
  | or left right, other => or left right == other || left.isSuperset other || right.isSuperset other
  | self, other => go self other
where
  go (self : KeyBindingContextPredicate) : KeyBindingContextPredicate → Bool
    | descendant parent child => self == descendant parent child || go self child
    | and left right => self == and left right || go self left || go self right
    | other => self == other

end KeyBindingContextPredicate

end Lucie
