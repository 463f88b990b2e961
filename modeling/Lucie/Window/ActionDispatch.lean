import Lucie.Window.DispatchTree
import Lucie.Window.MouseDispatch

/-!
# Dispatch of actions

While the global listeners for an action are called, their list is not in the map. What is
registered meanwhile starts another list, and a nested dispatch takes that one out in turn. Each of
them puts back what it took with what it finds in the map behind it, so no listener is lost, and the
listeners stay in the order of their registration.
-/

set_option autoImplicit false

namespace Lucie.Drawing

/-- The `TypeId` of an action. -/
abbrev ActionType := ℕ

variable {A L WL W : Type}

/-- The fields of `App` that the dispatch of an action uses, with everything else that a listener
can see and change, and the global listeners in the order they were registered in. -/
structure DispatchApp (L W : Type) where
  globalActionListeners : ActionType → Option (List L)
  propagateEvent : Bool
  world : W
  registered : List (ActionType × L)

/-- What a listener does when it is called. What it does next may depend on anything it sees. -/
inductive ListenerProgram (A L W : Type)
  | done
  | onAction (type : ActionType) (listener : L) (next : ListenerProgram A L W)
  | setPropagation (propagate : Bool) (next : ListenerProgram A L W)
  | dispatchOnNode (window node : ℕ) (action : A) (next : ListenerProgram A L W)
  | dispatchGlobal (action : A) (next : ListenerProgram A L W)
  | other (change : W → W) (next : DispatchApp L W → ListenerProgram A L W)

/-- The actions and what their listeners do, with the dispatch tree of the rendered frame of each
window. -/
structure ActionListeners (A L WL W : Type) where
  typeId : A → ActionType
  tree : W → ℕ → DispatchTree (ActionType × WL)
  globalListener : L → A → DispatchPhase → ListenerProgram A L W
  windowListener : WL → A → DispatchPhase → ListenerProgram A L W

namespace DispatchApp

/-- `App::on_action`. -/
def onAction (s : DispatchApp L W) (type : ActionType) (listener : L) : DispatchApp L W :=
  { s with
    globalActionListeners := Function.update s.globalActionListeners type
      (some ((s.globalActionListeners type).getD [] ++ [listener]))
    registered := s.registered ++ [(type, listener)] }

/-- The list of a type is taken out of the map. -/
def remove (s : DispatchApp L W) (type : ActionType) : DispatchApp L W :=
  { s with globalActionListeners := Function.update s.globalActionListeners type none }

/-- A list that was taken out is put back, in front of what is there now. -/
def putBack (s : DispatchApp L W) (type : ActionType) (listeners : List L) : DispatchApp L W :=
  { s with
    globalActionListeners := Function.update s.globalActionListeners type
      (some (listeners ++ (s.globalActionListeners type).getD [])) }

/-- The loop over some listeners, and whether it was left early. -/
def callEach {X : Type} (call : X → DispatchApp L W → Option (DispatchApp L W)) :
    List X → DispatchApp L W → Option (Bool × DispatchApp L W)
  | [], s => some (false, s)
  | listener :: listeners, s =>
    match call listener s with
    | none => none
    | some s => if s.propagateEvent then callEach call listeners s else some (true, s)

/-- One of the phases for global actions. -/
def globalPhase (call : L → DispatchApp L W → Option (DispatchApp L W)) (order : List L → List L)
    (type : ActionType) (s : DispatchApp L W) : Option (DispatchApp L W) :=
  match s.globalActionListeners type with
  | none => some s
  | some listeners =>
    (callEach call (order listeners) (s.remove type)).map fun result =>
      result.2.putBack type listeners

end DispatchApp

namespace ActionListeners

variable (env : ActionListeners A L WL W)

/-- One of the phases for window actions, and whether it returned early. -/
def windowPhase (call : WL → DispatchApp L W → Option (DispatchApp L W)) (window : ℕ)
    (type : ActionType) : List ℕ → DispatchApp L W → Option (Bool × DispatchApp L W)
  | [], s => some (false, s)
  | id :: path, s =>
    match (env.tree s.world window).nodes[id]? with
    | none => none
    | some node =>
      match DispatchApp.callEach call
        ((node.actionListeners.filter (·.1 = type)).map Prod.snd) s with
      | none => none
      | some (true, s) => some (true, s)
      | some (false, s) => windowPhase call window type path s

/-- `Window::dispatch_action_on_node`, with a way to run what listeners do. -/
def dispatchActionOnNode
    (run : ListenerProgram A L W → DispatchApp L W → Option (DispatchApp L W)) (window node : ℕ)
    (action : A) (s : DispatchApp L W) : Option (DispatchApp L W) := do
  let tree := env.tree s.world window
  let path ← tree.dispatchPath tree.nodes.length node
  let s ← DispatchApp.globalPhase (fun l => run (env.globalListener l action .capture)) id
    (env.typeId action) { s with propagateEvent := true }
  if !s.propagateEvent then some s
  else
    let (returned, s) ← env.windowPhase (fun l => run (env.windowListener l action .capture)) window
      (env.typeId action) path s
    if returned then some s
    else
      let (returned, s) ← env.windowPhase (fun l s =>
        run (env.windowListener l action .bubble) { s with propagateEvent := false }) window
        (env.typeId action) path.reverse s
      if returned then some s
      else
        DispatchApp.globalPhase (fun l s =>
          run (env.globalListener l action .bubble) { s with propagateEvent := false })
          List.reverse (env.typeId action) s

/-- `App::dispatch_global_action`. -/
def dispatchGlobalAction
    (run : ListenerProgram A L W → DispatchApp L W → Option (DispatchApp L W)) (action : A)
    (s : DispatchApp L W) : Option (DispatchApp L W) := do
  let s ← DispatchApp.globalPhase (fun l => run (env.globalListener l action .capture)) id
    (env.typeId action) { s with propagateEvent := true }
  if s.propagateEvent then
    DispatchApp.globalPhase (fun l => run (env.globalListener l action .bubble)) List.reverse
      (env.typeId action) s
  else some s

/-- What a listener does, up to some number of steps. -/
def runProgram : ℕ → ListenerProgram A L W → DispatchApp L W → Option (DispatchApp L W)
  | 0, _, _ => none
  | _ + 1, .done, s => some s
  | fuel + 1, .onAction type listener next, s => runProgram fuel next (s.onAction type listener)
  | fuel + 1, .setPropagation propagate next, s =>
    runProgram fuel next { s with propagateEvent := propagate }
  | fuel + 1, .dispatchOnNode window node action next, s =>
    (env.dispatchActionOnNode (runProgram fuel) window node action s).bind (runProgram fuel next)
  | fuel + 1, .dispatchGlobal action next, s =>
    (env.dispatchGlobalAction (runProgram fuel) action s).bind (runProgram fuel next)
  | fuel + 1, .other change next, s =>
    runProgram fuel (next s) { s with world := change s.world }

end ActionListeners

namespace DispatchApp

/-- The list for a type of actions. -/
def listenersOf (s : DispatchApp L W) (type : ActionType) : List L :=
  (s.globalActionListeners type).getD []

/-- The listeners for a type among those that were registered. -/
def ofType (type : ActionType) (registered : List (ActionType × L)) : List L :=
  (registered.filter (·.1 = type)).map Prod.snd

/-- Every list is as before, with the listeners behind it that were registered since. -/
def Extends (s s' : DispatchApp L W) : Prop :=
  ∃ log, s'.registered = s.registered ++ log ∧
    ∀ type, s'.listenersOf type = s.listenersOf type ++ ofType type log

variable {s s' s'' : DispatchApp L W}

@[simp] theorem listenersOf_remove_self (s : DispatchApp L W) (type : ActionType) :
    (s.remove type).listenersOf type = [] := by
  simp [remove, listenersOf]

@[simp] theorem listenersOf_remove_of_ne (s : DispatchApp L W) {type other : ActionType}
    (h : other ≠ type) : (s.remove type).listenersOf other = s.listenersOf other := by
  simp [remove, listenersOf, h]

@[simp] theorem listenersOf_putBack_self (s : DispatchApp L W) (type : ActionType)
    (listeners : List L) :
    (s.putBack type listeners).listenersOf type = listeners ++ s.listenersOf type := by
  simp [putBack, listenersOf]

@[simp] theorem listenersOf_putBack_of_ne (s : DispatchApp L W) {type other : ActionType}
    (h : other ≠ type) (listeners : List L) :
    (s.putBack type listeners).listenersOf other = s.listenersOf other := by
  simp [putBack, listenersOf, h]

theorem Extends.refl (s : DispatchApp L W) : s.Extends s := ⟨[], by simp, by simp [ofType]⟩

theorem Extends.trans (h : s.Extends s') (h' : s'.Extends s'') : s.Extends s'' := by
  obtain ⟨log, hregistered, hlists⟩ := h
  obtain ⟨log', hregistered', hlists'⟩ := h'
  refine ⟨log ++ log', ?_, fun type => ?_⟩
  · rw [hregistered', hregistered, List.append_assoc]
  · rw [hlists' type, hlists type, List.append_assoc, ofType, ofType, ofType, List.filter_append,
      List.map_append]

/-- What else a listener changes does not matter. -/
theorem Extends.setPropagation (s : DispatchApp L W) (propagate : Bool) :
    s.Extends { s with propagateEvent := propagate } :=
  .refl s

theorem Extends.change (s : DispatchApp L W) (world : W) : s.Extends { s with world } := .refl s

theorem Extends.onAction (s : DispatchApp L W) (type : ActionType) (listener : L) :
    s.Extends (s.onAction type listener) := by
  refine ⟨[(type, listener)], rfl, fun other => ?_⟩
  obtain rfl | hne := eq_or_ne other type
  · simp [DispatchApp.onAction, listenersOf, ofType]
  · simp [DispatchApp.onAction, listenersOf, ofType, Function.update_of_ne hne, Ne.symm hne]

/-- A list that was taken out is put back in front of what was registered meanwhile. -/
theorem Extends.putBack {type : ActionType} {listeners : List L}
    (hlisteners : s.globalActionListeners type = some listeners)
    (h : (s.remove type).Extends s') : s.Extends (s'.putBack type listeners) := by
  obtain ⟨log, hregistered, hlists⟩ := h
  refine ⟨log, hregistered, fun other => ?_⟩
  obtain rfl | hne := eq_or_ne other type
  · have hmeanwhile : s'.listenersOf other = ofType other log := by
      rw [hlists other, listenersOf_remove_self, List.nil_append]
    have hbefore : s.listenersOf other = listeners := by rw [listenersOf, hlisteners]; rfl
    rw [listenersOf_putBack_self, hmeanwhile, hbefore]
  · rw [listenersOf_putBack_of_ne s' hne, hlists other, listenersOf_remove_of_ne s hne]

/-- A loop extends the lists when each call does. -/
theorem Extends.callEach {X : Type} {call : X → DispatchApp L W → Option (DispatchApp L W)}
    (hcall : ∀ x s s', call x s = some s' → s.Extends s') {listeners : List X} {returned : Bool}
    (h : DispatchApp.callEach call listeners s = some (returned, s')) : s.Extends s' := by
  induction listeners generalizing s with
  | nil =>
    cases h
    exact .refl _
  | cons listener listeners ih =>
    rw [DispatchApp.callEach] at h
    cases hfirst : call listener s with
    | none => simp [hfirst] at h
    | some next =>
      rw [hfirst] at h
      have hnext := hcall listener s next hfirst
      dsimp only at h
      split_ifs at h
      · exact hnext.trans (ih h)
      · cases h
        exact hnext

theorem Extends.globalPhase {call : L → DispatchApp L W → Option (DispatchApp L W)}
    (hcall : ∀ x s s', call x s = some s' → s.Extends s') {order : List L → List L}
    {type : ActionType} (h : DispatchApp.globalPhase call order type s = some s') :
    s.Extends s' := by
  unfold DispatchApp.globalPhase at h
  cases hlisteners : s.globalActionListeners type with
  | none =>
    rw [hlisteners] at h
    cases h
    exact .refl s
  | some listeners =>
    rw [hlisteners] at h
    obtain ⟨⟨returned, after⟩, hloop, rfl⟩ := Option.map_eq_some_iff.mp h
    exact .putBack hlisteners (.callEach hcall hloop)

end DispatchApp

namespace ActionListeners

open DispatchApp

variable {env : ActionListeners A L WL W} {s s' : DispatchApp L W}

/-- A phase for window actions extends the lists when each call does. -/
theorem windowPhase_extends {call : WL → DispatchApp L W → Option (DispatchApp L W)}
    (hcall : ∀ x s s', call x s = some s' → s.Extends s') {window : ℕ} {type : ActionType}
    {path : List ℕ} {returned : Bool}
    (h : env.windowPhase call window type path s = some (returned, s')) : s.Extends s' := by
  induction path generalizing s with
  | nil =>
    cases h
    exact .refl _
  | cons id path ih =>
    rw [windowPhase] at h
    cases hnode : (env.tree s.world window).nodes[id]? with
    | none => simp [hnode] at h
    | some node =>
      rw [hnode] at h
      dsimp only at h
      split at h
      next => cases h
      next after hloop =>
        cases h
        exact .callEach hcall hloop
      next after hloop => exact (Extends.callEach hcall hloop).trans (ih h)

/-- A dispatch extends the lists when everything that listeners do does. -/
theorem dispatchActionOnNode_extends
    {run : ListenerProgram A L W → DispatchApp L W → Option (DispatchApp L W)}
    (hrun : ∀ program s s', run program s = some s' → s.Extends s') {window node : ℕ} {action : A}
    (h : env.dispatchActionOnNode run window node action s = some s') : s.Extends s' := by
  have hcall (s s' : DispatchApp L W) (program : ListenerProgram A L W)
      (h : run program { s with propagateEvent := false } = some s') : s.Extends s' :=
    (Extends.setPropagation s false).trans (hrun _ _ _ h)
  unfold dispatchActionOnNode at h
  obtain ⟨path, -, h⟩ := Option.bind_eq_some_iff.mp h
  obtain ⟨captured, hcapture, h⟩ := Option.bind_eq_some_iff.mp h
  have hcaptured : s.Extends captured := (Extends.setPropagation s true).trans
    (.globalPhase (fun _ _ _ h => hrun _ _ _ h) hcapture)
  split_ifs at h with hstopped
  · cases h
    exact hcaptured
  obtain ⟨⟨returned, down⟩, hdown, h⟩ := Option.bind_eq_some_iff.mp h
  have hwindow := hcaptured.trans (windowPhase_extends (fun _ _ _ h => hrun _ _ _ h) hdown)
  dsimp only at h
  split_ifs at h with hreturned
  · cases h
    exact hwindow
  obtain ⟨⟨returned', up⟩, hup, h⟩ := Option.bind_eq_some_iff.mp h
  have hbubble := hwindow.trans (windowPhase_extends (fun _ _ _ h => hcall _ _ _ h) hup)
  dsimp only at h
  split_ifs at h with hreturned'
  · cases h
    exact hbubble
  · exact hbubble.trans (.globalPhase (fun _ _ _ h => hcall _ _ _ h) h)

theorem dispatchGlobalAction_extends
    {run : ListenerProgram A L W → DispatchApp L W → Option (DispatchApp L W)}
    (hrun : ∀ program s s', run program s = some s' → s.Extends s') {action : A}
    (h : env.dispatchGlobalAction run action s = some s') : s.Extends s' := by
  unfold dispatchGlobalAction at h
  obtain ⟨captured, hcapture, h⟩ := Option.bind_eq_some_iff.mp h
  have hcaptured : s.Extends captured := (Extends.setPropagation s true).trans
    (.globalPhase (fun _ _ _ h => hrun _ _ _ h) hcapture)
  split_ifs at h
  · exact hcaptured.trans (.globalPhase (fun _ _ _ h => hrun _ _ _ h) h)
  · cases h
    exact hcaptured

/-- Whatever a listener does extends the lists. The induction is on the number of steps, which goes
down with each nested dispatch. -/
theorem runProgram_extends (fuel : ℕ) (program : ListenerProgram A L W) (s s' : DispatchApp L W)
    (h : env.runProgram fuel program s = some s') : s.Extends s' := by
  induction fuel generalizing program s s' with
  | zero => cases h
  | succ fuel ih =>
    cases program with
    | done =>
      cases h
      exact .refl s
    | onAction type listener next => exact (Extends.onAction s type listener).trans (ih _ _ _ h)
    | setPropagation propagate next =>
      exact (Extends.setPropagation s propagate).trans (ih _ _ _ h)
    | dispatchOnNode window node action next =>
      obtain ⟨after, hdispatch, h⟩ := Option.bind_eq_some_iff.mp h
      exact (dispatchActionOnNode_extends ih hdispatch).trans (ih _ _ _ h)
    | dispatchGlobal action next =>
      obtain ⟨after, hdispatch, h⟩ := Option.bind_eq_some_iff.mp h
      exact (dispatchGlobalAction_extends ih hdispatch).trans (ih _ _ _ h)
    | other change next => exact (Extends.change s (change s.world)).trans (ih _ _ _ h)

/-- After a dispatch the list for each type of actions is the one before, followed by the listeners
that were registered during the call in this order. -/
theorem dispatchActionOnNode_keepsListeners (env : ActionListeners A L WL W) (fuel window node : ℕ)
    (action : A) (s s' : DispatchApp L W)
    (h : env.dispatchActionOnNode (env.runProgram fuel) window node action s = some s') :
    ∃ log, s'.registered = s.registered ++ log ∧
      ∀ type, s'.listenersOf type = s.listenersOf type ++ ofType type log :=
  dispatchActionOnNode_extends (env.runProgram_extends fuel) h

/-- Two actions of one type, and a window with one node. When the first action is captured, the
first listener registers others and dispatches the second one, for which the second listener
registers another. -/
def redispatching : ActionListeners Bool ℕ ℕ Unit where
  typeId _ := 0
  tree _ _ := DispatchTree.new.pushNode
  globalListener
    | 1, false, .capture => .onAction 0 2 (.onAction 5 3 (.dispatchOnNode 0 0 true .done))
    | 2, true, .capture => .onAction 0 4 .done
    | _, _, _ => .done
  windowListener _ _ _ := .done

/-- The first listener is there. -/
def firstListener : DispatchApp ℕ Unit := DispatchApp.onAction ⟨fun _ => none, true, (), []⟩ 0 1

/-- The listeners that are registered while their list is out of the map. -/
theorem keepsListeners_redispatching :
    ∃ s', redispatching.dispatchActionOnNode (redispatching.runProgram 9) 0 0 false firstListener =
        some s' ∧ s'.listenersOf 0 = [1, 2, 4] ∧
      ∃ log, s'.registered = firstListener.registered ++ log ∧
        ∀ type, s'.listenersOf type = firstListener.listenersOf type ++ ofType type log :=
  ⟨_, rfl, rfl, dispatchActionOnNode_keepsListeners redispatching 9 0 0 false firstListener _ rfl⟩

end ActionListeners

end Lucie.Drawing
