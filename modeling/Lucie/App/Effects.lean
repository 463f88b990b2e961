import Lucie.Entity.EntityMap

/-!
# Effects of an update

Updates queue effects, and the outermost update flushes the queue when it finishes. The
flush loop runs callbacks, which may update, notify and queue effects in turn. What the
callbacks do is left open: a run is any interleaving of the calls that the code on top of
the stack may make.
-/

set_option autoImplicit false

namespace Lucie

/-- The `TypeId` of a global. -/
abbrev GlobalType := ℕ

/-- `WindowId`. -/
abbrev WindowId := ℕ

/-- `Effect`. The payloads of events and deferred callbacks are not observed here. -/
inductive Effect
  | notify (emitter : EntityId)
  | emit (emitter : EntityId) (eventType : ℕ)
  | refreshWindows
  | notifyGlobalObservers (globalType : GlobalType)
  | defer
  | entityCreated (entity : EntityId) (tid : ℕ) (window : Option WindowId)
  deriving DecidableEq

/-- `DrawPhase`. -/
inductive DrawPhase
  | none
  | prepaint
  | paint
  | focus
  deriving DecidableEq

/-- `WindowInvalidatorInner`. -/
structure WindowInvalidator where
  dirty : Bool
  drawPhase : DrawPhase
  dirtyViews : Finset EntityId

/-- The fields of `App` that updates and effects use. -/
structure App where
  flushingEffects : Bool
  pendingUpdates : ℕ
  pendingEffects : List Effect
  pendingNotifications : Finset EntityId
  pendingGlobalNotifications : Finset GlobalType
  windowInvalidatorsByEntity : EntityId → List WindowId
  invalidators : WindowId → WindowInvalidator

namespace App

/-- A new app, with the windows in some state. -/
def new (invalidators : WindowId → WindowInvalidator) : App :=
  ⟨false, 0, [], ∅, ∅, fun _ => [], invalidators⟩

/-- `App::push_effect`. -/
def pushEffect (app : App) (effect : Effect) : App :=
  match effect with
  | .notify emitter =>
    if emitter ∈ app.pendingNotifications then app
    else { app with
      pendingNotifications := insert emitter app.pendingNotifications
      pendingEffects := app.pendingEffects ++ [effect] }
  | .notifyGlobalObservers globalType =>
    if globalType ∈ app.pendingGlobalNotifications then app
    else { app with
      pendingGlobalNotifications := insert globalType app.pendingGlobalNotifications
      pendingEffects := app.pendingEffects ++ [effect] }
  | effect => { app with pendingEffects := app.pendingEffects ++ [effect] }

/-- `WindowInvalidator::invalidate_view`. -/
def invalidateView (app : App) (entity : EntityId) (window : WindowId) : App :=
  let inner := app.invalidators window
  let inner := { inner with dirtyViews := insert entity inner.dirtyViews }
  if inner.drawPhase = .none then
    pushEffect { app with
      invalidators := Function.update app.invalidators window { inner with dirty := true } }
      (.notify entity)
  else { app with invalidators := Function.update app.invalidators window inner }

/-- `App::notify`. An entity that windows track is invalidated in each of them. -/
def notify (app : App) (entity : EntityId) : App :=
  match app.windowInvalidatorsByEntity entity with
  | [] =>
    if entity ∈ app.pendingNotifications then app
    else { app with
      pendingNotifications := insert entity app.pendingNotifications
      pendingEffects := app.pendingEffects ++ [.notify entity] }
  | windows => windows.foldl (fun app window => app.invalidateView entity window) app

/-- `App::apply_refresh_effect`. -/
def applyRefreshEffect (app : App) : App :=
  { app with invalidators := fun window => { app.invalidators window with dirty := true } }

end App

/-- What is running, innermost first: an update, the flush loop of the outermost update,
or callbacks that the flush loop called. -/
inductive Frame
  | update
  | flush
  | callback
  deriving DecidableEq

/-- What observers are told about. -/
inductive Topic
  | entity (id : EntityId)
  | global (globalType : GlobalType)
  deriving DecidableEq

/-- What happens to a topic: it is notified, or a pass over its observers starts. -/
inductive TopicEvent
  | notify
  | pass
  deriving DecidableEq

/-- The app with its stack of running code and the notifications and passes so far. -/
structure AppRun where
  app : App
  stack : List Frame
  trace : List (Topic × TopicEvent)

/-- A call of running code, or a step of the flush loop. -/
inductive AppAction
  /-- Enter `App::update`. -/
  | startUpdate
  /-- Return from the closure of an update. -/
  | finishUpdate
  /-- The flush loop takes the next effect, or ends. -/
  | flushEffect
  /-- The flush loop calls a release listener or drops a focus handle. -/
  | release
  /-- The callbacks that the flush loop called return. -/
  | returnCallback
  /-- `App::notify`. -/
  | notify (entity : EntityId)
  /-- `App::set_global` and the other writes of a global. -/
  | setGlobal (globalType : GlobalType)
  /-- `Context::emit`. -/
  | emit (emitter : EntityId) (eventType : ℕ)
  /-- `App::defer`. -/
  | defer
  /-- `App::refresh_windows`. -/
  | refreshWindows
  /-- The effect of `App::new`. -/
  | entityCreated (entity : EntityId) (tid : ℕ) (window : Option WindowId)
  /-- Other windows track an entity. -/
  | track (entity : EntityId) (windows : List WindowId)
  /-- A window enters a phase of drawing, or none. -/
  | setPhase (window : WindowId) (phase : DrawPhase)
  deriving DecidableEq

namespace AppRun

/-- Nothing runs. -/
def new (invalidators : WindowId → WindowInvalidator) : AppRun := ⟨.new invalidators, [], []⟩

/-- Code of the application is running, so it may call the app. -/
def calling (s : AppRun) : Bool :=
  match s.stack with
  | .update :: _ | .callback :: _ => true
  | _ => false

/-- `App::finish_update`, up to the flush. -/
def finishUpdate (s : AppRun) (rest : List Frame) : AppRun :=
  if !s.app.flushingEffects && s.app.pendingUpdates = 1 then
    { s with app := { s.app with flushingEffects := true }, stack := .flush :: rest }
  else { s with app := { s.app with pendingUpdates := s.app.pendingUpdates - 1 }, stack := rest }

/-- The effects that `flush_effects` applies by calling back. A pass over the observers
of a topic starts with the topic no longer pending. -/
def applyEffect (s : AppRun) (effect : Effect) : AppRun :=
  match effect with
  | .notify emitter => { s with
      app := { s.app with pendingNotifications := s.app.pendingNotifications.erase emitter }
      stack := .callback :: s.stack
      trace := s.trace ++ [(.entity emitter, .pass)] }
  | .notifyGlobalObservers globalType => { s with
      app := { s.app with
        pendingGlobalNotifications := s.app.pendingGlobalNotifications.erase globalType }
      stack := .callback :: s.stack
      trace := s.trace ++ [(.global globalType, .pass)] }
  | .refreshWindows => { s with app := s.app.applyRefreshEffect }
  | .emit _ _ | .defer | .entityCreated _ _ _ => { s with stack := .callback :: s.stack }

/-- One step; `none` when the code on top of the stack does not take it. -/
def step (s : AppRun) : AppAction → Option AppRun
  | .startUpdate =>
    if s.calling || s.stack.isEmpty then some { s with
      app := { s.app with pendingUpdates := s.app.pendingUpdates + 1 }
      stack := .update :: s.stack }
    else none
  | .finishUpdate =>
    match s.stack with
    | .update :: rest => some (s.finishUpdate rest)
    | _ => none
  | .flushEffect =>
    match s.stack, s.app.pendingEffects with
    | .flush :: _, effect :: effects =>
      some (applyEffect { s with app := { s.app with pendingEffects := effects } } effect)
    | .flush :: rest, [] => some { s with
        app := { s.app with
          flushingEffects := false
          pendingUpdates := s.app.pendingUpdates - 1 }
        stack := rest }
    | _, _ => none
  | .release =>
    match s.stack with
    | .flush :: _ => some { s with stack := .callback :: s.stack }
    | _ => none
  | .returnCallback =>
    match s.stack with
    | .callback :: rest => some { s with stack := rest }
    | _ => none
  | .notify entity =>
    if s.calling then some { s with
      app := s.app.notify entity
      trace := s.trace ++ [(.entity entity, .notify)] }
    else none
  | .setGlobal globalType =>
    if s.calling then some { s with
      app := s.app.pushEffect (.notifyGlobalObservers globalType)
      trace := s.trace ++ [(.global globalType, .notify)] }
    else none
  | .emit emitter eventType =>
    if s.calling then some { s with
      app := { s.app with
        pendingEffects := s.app.pendingEffects ++ [.emit emitter eventType] } }
    else none
  | .defer => if s.calling then some { s with app := s.app.pushEffect .defer } else none
  | .refreshWindows =>
    if s.calling then some { s with
      app := { s.app with pendingEffects := s.app.pendingEffects ++ [.refreshWindows] } }
    else none
  | .entityCreated entity tid window =>
    if s.calling then some { s with app := s.app.pushEffect (.entityCreated entity tid window) }
    else none
  | .track entity windows =>
    if s.calling then some { s with
      app := { s.app with
        windowInvalidatorsByEntity :=
          Function.update s.app.windowInvalidatorsByEntity entity windows } }
    else none
  | .setPhase window phase =>
    if s.calling then some { s with
      app := { s.app with
        invalidators := Function.update s.app.invalidators window
          { s.app.invalidators window with drawPhase := phase } } }
    else none

/-- The step is taken while no window is drawing. -/
def NotDrawing (s : AppRun) (a : AppAction) : Prop :=
  (∀ window phase, a ≠ .setPhase window phase) →
    ∀ window, (s.app.invalidators window).drawPhase = .none

end AppRun

end Lucie
