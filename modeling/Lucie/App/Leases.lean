import Lucie.App.Effects
import Lucie.Foundation.Nesting

/-!
# Windows and entities on the stack

An update of an entity or a window takes it out of its map and puts it back when its closure
returns. In the meantime other code may run, and update others. The outermost update flushes the
effects, which calls the release listeners of dropped entities, visits windows, and runs other
callbacks. What the closures and callbacks do is left open: a run is any interleaving of the calls
that the code on top of the stack may make.
-/

set_option autoImplicit false

namespace Lucie

open Foundation

variable {E : Type}

namespace EntityMap

/-- `EntityMap::lease`; `none` is the panic of a double lease. -/
def lease (m : EntityMap E) (id : EntityId) : Option (E × EntityMap E) :=
  (m.entities.remove id).map fun (entity, entities) =>
    (entity, { m with
      accessedEntities := Insert.insert id m.accessedEntities
      entities })

/-- `EntityMap::end_lease`. -/
def endLease (m : EntityMap E) (id : EntityId) (entity : E) : EntityMap E :=
  { m with entities := m.entities.insert id entity }

/-- `EntityMap::read`; `none` is the panic of a double lease. -/
def read (m : EntityMap E) (id : EntityId) : Option (E × EntityMap E) :=
  (m.entities.get id).map fun entity =>
    (entity, { m with accessedEntities := Insert.insert id m.accessedEntities })

end EntityMap

/-- What an update has on the stack. -/
inductive UpdateLease (E : Type)
  /-- Nothing, or what it had is put back. -/
  | nothing
  /-- The entity of `update_entity`, or of a `BorrowedEntity`. -/
  | entity (id : EntityId) (entity : E) (borrowed : Bool)
  /-- The slot for an entity that is built, by `App::new` or for a reservation. -/
  | building (id : EntityId) (created : Bool)
  /-- The window of `update_window_id`. -/
  | window (id : WindowId) (removed : Bool)
  /-- The window of `open_window`, while its root view is built or after that. -/
  | opening (id : WindowId) (removed building : Bool)
  /-- A window was closed, and its observers are called. -/
  | closing

/-- Where an iteration of `flush_effects` is. -/
inductive FlushPhase (E : Type)
  /-- `release_dropped_entities`, with the entities that were taken and are not released. -/
  | entities (dropped : List (EntityId × E))
  | focusHandles
  | effects

/-- What `flush_effects` calls. -/
inductive FlushCall
  | code
  /-- Updates of windows that have to succeed. -/
  | visit (windows : List WindowId)

/-- A frame of the stack. -/
abbrev AppFrame (E : Type) := NestedFrame (UpdateLease E) (FlushPhase E) FlushCall

/-- `SlotMap<WindowId, Option<Box<Window>>>`: its keys, and the windows that are not on the stack,
with their `removed`. -/
structure WindowMap where
  keys : Finset WindowId
  stored : WindowId → Option Bool

/-- The fields of `App` for updates, entities and windows, with the stack and with what was
opened, closed, released and quit so far. An entity stands for its box, whose contents the updates
change. That an effect may be pending already is left to the choice of the effects that are
pushed. -/
structure LeasingApp (E : Type) where
  pendingUpdates : ℕ
  flushingEffects : Bool
  pendingEffects : List Effect
  world : EntityWorld E
  windows : WindowMap
  windowHandles : Finset WindowId
  windowUpdateStack : List WindowId
  frames : List (AppFrame E)
  opened : Finset WindowId
  closed : List WindowId
  released : List (EntityId × E)
  quits : ℕ

/-- A call of the code on top of the stack, its return, or a step of `flush_effects`. -/
inductive LeasingAction (E : Type)
  | startUpdate
  | finishUpdate
  /-- What is done with slots and handles. -/
  | handles (a : EntityAction E)
  | pushEffect (effect : Effect)
  | newEntity (key : EntityId)
  | insertEntity (id : EntityId)
  /-- The entity of a type is built. -/
  | finishBuild (entity : E) (tid : ℕ)
  | updateEntity (id : EntityId)
  | borrowEntity (id : EntityId)
  /-- The closure of `update_entity` returns, or a `BorrowedEntity` is dropped. -/
  | endLease
  | readEntity (id : EntityId)
  | updateWindow (id : WindowId)
  | finishWindow
  /-- The observers of a closed window were called. -/
  | finishClosing (quitOnEmpty : Bool)
  | openWindow (id : WindowId) (ok : Bool)
  /-- `build_root_view` returns. -/
  | finishRootView
  | finishOpen
  | removeWindow (id : WindowId)
  | readWindow (id : WindowId)
  /-- The next dropped entity is released, or the dropped entities are taken. -/
  | flushEntities
  /-- A focus handle was dropped, and the windows are looked at in some order. -/
  | dropFocusHandle (windows : List WindowId)
  | finishFocusHandles
  /-- The next effect, with the number of its observers if an entity was created. -/
  | flushEffect (observers : ℕ)
  | visit
  | returnCall
  | shutdown

namespace UpdateLease

/-- The entity that is on the stack. -/
def entity? : UpdateLease E → Option (EntityId × E)
  | .entity id e _ => some (id, e)
  | _ => none

/-- The slot that an entity is built for. -/
def building? : UpdateLease E → Option EntityId
  | .building id _ => some id
  | _ => none

/-- The window that is on the stack. -/
def window? : UpdateLease E → Option WindowId
  | .window id _ | .opening id _ _ => some id
  | _ => none

/-- The window that is in `window_update_stack`. -/
def updating? : UpdateLease E → Option WindowId
  | .window id _ => some id
  | .opening id _ inUpdate => if inUpdate then some id else none
  | _ => none

/-- The window that has no handle in `window_handles`. -/
def opening? : UpdateLease E → Option WindowId
  | .opening id _ _ => some id
  | _ => none

/-- `Window::remove_window`. -/
def remove (id : WindowId) : UpdateLease E → UpdateLease E
  | .window id' removed => .window id' (removed || decide (id' = id))
  | .opening id' removed inUpdate => .opening id' (removed || decide (id' = id)) inUpdate
  | lease => lease

end UpdateLease

/-- What an update of the frame has on the stack. -/
def AppFrame.lease? : AppFrame E → Option (UpdateLease E)
  | .scope lease => some lease
  | _ => none

/-- `Window::remove_window` of a window, in a frame. -/
def AppFrame.remove (id : WindowId) : AppFrame E → AppFrame E
  | .scope lease => .scope (lease.remove id)
  | frame => frame

/-- The entities of the frame that were taken and are not released. -/
def AppFrame.dropped : AppFrame E → List (EntityId × E)
  | .loop _ (.entities dropped) => dropped
  | _ => []

namespace LeasingApp

/-- An app without windows and entities. -/
def new : LeasingApp E := ⟨0, false, [], .new, ⟨∅, fun _ => none⟩, ∅, [], [], ∅, [], [], 0⟩

/-- What the updates have on the stack, the innermost first. -/
def leases (s : LeasingApp E) : List (UpdateLease E) := s.frames.filterMap AppFrame.lease?

/-- Code of the application is running, so it may call the app. -/
def calling (s : LeasingApp E) : Bool :=
  match s.frames with
  | [] | .scope _ :: _ | .call .code :: _ => true
  | _ => false

/-- `App::start_update`. -/
def startUpdate (s : LeasingApp E) (lease : UpdateLease E) : LeasingApp E :=
  { s with pendingUpdates := s.pendingUpdates + 1, frames := .scope lease :: s.frames }

/-- `App::finish_update`, up to the flush. -/
def finishUpdate (s : LeasingApp E) (rest : List (AppFrame E)) : LeasingApp E :=
  if !s.flushingEffects && s.pendingUpdates = 1 then
    { s with flushingEffects := true, frames := .loop true (.entities []) :: rest }
  else { s with pendingUpdates := s.pendingUpdates - 1, frames := rest }

/-- `update_window_id` up to its closure; `none` is that the window is not found. -/
def takeWindow (s : LeasingApp E) (id : WindowId) : Option (LeasingApp E) :=
  if id ∈ s.windows.keys then
    (s.windows.stored id).map fun removed => { s.startUpdate (.window id removed) with
      windows := { s.windows with stored := Function.update s.windows.stored id none }
      windowUpdateStack := s.windowUpdateStack ++ [id] }
  else none

/-- The `trail` of `update_window_id`, up to the observers of a closed window. -/
def trail (s : LeasingApp E) (id : WindowId) (removed : Bool) (rest : List (AppFrame E)) :
    LeasingApp E :=
  let s := { s with windowUpdateStack := s.windowUpdateStack.dropLast }
  if removed then { s with
    windowHandles := s.windowHandles.erase id
    windows := ⟨s.windows.keys.erase id, Function.update s.windows.stored id none⟩
    closed := s.closed ++ [id]
    frames := .scope .closing :: rest }
  else if id ∈ s.windows.keys then { s with
    windows := { s.windows with stored := Function.update s.windows.stored id (some removed) }
    frames := .scope .nothing :: rest }
  else { s with frames := .scope .nothing :: rest }

/-- The frames that the flush of an effect adds. -/
def flushCalls (observers : ℕ) : Effect → List (AppFrame E)
  | .entityCreated _ _ (some window) => [.call (.visit (List.replicate observers window))]
  | .refreshWindows => []
  | .notify _ | .emit _ _ | .notifyGlobalObservers _ | .defer | .entityCreated _ _ none =>
    [.call .code]

/-- One step; `none` is a panic. -/
def step (s : LeasingApp E) : LeasingAction E → Option (LeasingApp E)
  | .startUpdate => some (s.startUpdate .nothing)
  | .finishUpdate => some (s.finishUpdate s.frames.tail)
  | .handles a => (s.world.step a).map fun world => { s with world }
  | .pushEffect effect => some { s with pendingEffects := s.pendingEffects ++ [effect] }
  | .newEntity key => do
    let world ← s.world.step (.reserve key)
    let world ← world.step (.cloneHandle key)
    some ({ s with world }.startUpdate (.building key true))
  | .insertEntity id => some (s.startUpdate (.building id false))
  | .finishBuild entity tid =>
    match s.frames with
    | .scope (.building id created) :: rest =>
      if created then do
        -- the effect has a handle, and the one of the slot is dropped
        let world ← s.world.step (.cloneHandle id)
        let world ← world.step (.insert id entity)
        let world ← world.step (.dropHandle id)
        some { s with
          world
          pendingEffects := s.pendingEffects ++
            [.entityCreated id tid s.windowUpdateStack.getLast?]
          frames := .scope .nothing :: rest }
      else do
        let world ← s.world.step (.insert id entity)
        some { s with world, frames := .scope .nothing :: rest }
    | _ => some s
  | .updateEntity id => do
    let (entity, map) ← s.world.map.lease id
    some ({ s with world := { s.world with map } }.startUpdate (.entity id entity false))
  | .borrowEntity id => do
    let (entity, map) ← s.world.map.lease id
    some ({ s with world := { s.world with map } }.startUpdate (.entity id entity true))
  | .endLease =>
    match s.frames with
    | .scope (.entity id entity borrowed) :: rest => some { s with
        world := { s.world with map := s.world.map.endLease id entity }
        pendingEffects := s.pendingEffects ++ if borrowed then [.notify id] else []
        frames := .scope .nothing :: rest }
    | _ => some s
  | .readEntity id => do
    let (_, map) ← s.world.map.read id
    some { s with world := { s.world with map } }
  | .updateWindow id => some ((s.takeWindow id).getD (s.startUpdate .nothing))
  | .finishWindow =>
    match s.frames with
    | .scope (.window id removed) :: rest => some (s.trail id removed rest)
    | _ => some s
  | .finishClosing quitOnEmpty =>
    match s.frames with
    | .scope .closing :: rest => some { s with
        quits := s.quits + (quitOnEmpty && s.windows.keys = ∅).toNat
        frames := .scope .nothing :: rest }
    | _ => some s
  | .openWindow id ok =>
    let s := { s with opened := insert id s.opened }
    if ok then some { s.startUpdate (.opening id false true) with
      windows := { s.windows with keys := insert id s.windows.keys }
      windowUpdateStack := s.windowUpdateStack ++ [id] }
    else some (s.startUpdate .nothing)
  | .finishRootView =>
    match s.frames with
    | .scope (.opening id removed true) :: rest => some { s with
        windowUpdateStack := s.windowUpdateStack.dropLast
        pendingEffects := s.pendingEffects ++ [.defer]
        frames := .scope (.opening id removed false) :: rest }
    | _ => some s
  | .finishOpen =>
    match s.frames with
    | .scope (.opening id removed false) :: rest =>
      if id ∈ s.windows.keys then some { s with
        windowHandles := insert id s.windowHandles
        windows := { s.windows with
          stored := Function.update s.windows.stored id (some removed) }
        frames := .scope .nothing :: rest }
      else none
    | _ => some s
  | .removeWindow id => some { s with frames := s.frames.map (AppFrame.remove id) }
  | .readWindow id =>
    if id ∈ s.windows.keys then (s.windows.stored id).map fun _ => s else some s
  | .flushEntities =>
    match s.frames with
    | .loop ofUpdate (.entities []) :: rest => do
      let (map, dropped) ← s.world.map.takeDropped
      some { s with
        world := { s.world with map, taken := s.world.taken ++ dropped }
        frames := .loop ofUpdate
          (if dropped.isEmpty then .focusHandles else .entities dropped) :: rest }
    | .loop ofUpdate (.entities (entity :: dropped)) :: rest => some { s with
        released := s.released ++ [entity]
        frames := .call .code :: .loop ofUpdate (.entities dropped) :: rest }
    | _ => some s
  | .dropFocusHandle windows => some { s with frames := .call (.visit windows) :: s.frames }
  | .finishFocusHandles =>
    match s.frames with
    | .loop ofUpdate .focusHandles :: rest =>
      some { s with frames := .loop ofUpdate .effects :: rest }
    | _ => some s
  | .flushEffect observers =>
    match s.frames, s.pendingEffects with
    | .loop ofUpdate .effects :: rest, effect :: effects => some { s with
        pendingEffects := effects
        frames := flushCalls observers effect ++ .loop ofUpdate (.entities []) :: rest }
    | .loop true .effects :: rest, [] => some { s with
        flushingEffects := false
        pendingUpdates := s.pendingUpdates - 1
        frames := rest }
    | .loop false .effects :: rest, [] => some { s with frames := rest }
    | _, _ => some s
  | .visit =>
    match s.frames with
    | .call (.visit (id :: windows)) :: rest =>
      { s with frames := .call (.visit windows) :: rest }.takeWindow id
    | _ => some s
  | .returnCall => some { s with frames := s.frames.tail }
  | .shutdown => some { s with
      windows := ⟨∅, fun _ => none⟩
      windowHandles := ∅
      frames := [.loop false (.entities [])] }

/-- The code on top of the stack may take the step. -/
def Allowed (s : LeasingApp E) : LeasingAction E → Prop
  | .startUpdate | .pushEffect _ | .updateWindow _ | .readWindow _ => s.calling
  | .finishUpdate => ∃ rest, s.frames = .scope .nothing :: rest
  | .handles a => s.world.Allowed a ∧ match a with
    | .insert _ _ | .takeDropped => False
    | .dropSlot id => id ∉ s.leases.filterMap UpdateLease.building?
    | _ => True
  | .newEntity key => s.calling ∧ s.world.map.counts.Fresh key
  | .insertEntity id =>
    s.calling ∧ id ∈ s.world.slots ∧ id ∉ s.leases.filterMap UpdateLease.building?
  | .finishBuild _ _ =>
    ∃ id created rest, s.frames = .scope (.building id created) :: rest ∧ id ∈ s.world.slots
  | .updateEntity id | .borrowEntity id | .readEntity id => s.calling ∧ id ∈ s.world.strong
  | .endLease => ∃ id entity borrowed rest, s.frames = .scope (.entity id entity borrowed) :: rest
  | .finishWindow => ∃ id removed rest, s.frames = .scope (.window id removed) :: rest
  | .finishClosing _ => ∃ rest, s.frames = .scope .closing :: rest
  | .openWindow id _ => s.calling ∧ id ∉ s.opened
  | .finishRootView => ∃ id removed rest, s.frames = .scope (.opening id removed true) :: rest
  | .finishOpen => ∃ id removed rest, s.frames = .scope (.opening id removed false) :: rest
  | .removeWindow id => s.calling ∧ id ∈ s.leases.filterMap UpdateLease.window?
  | .flushEntities => ∃ ofUpdate dropped rest, s.frames = .loop ofUpdate (.entities dropped) :: rest
  | .dropFocusHandle windows => (∃ ofUpdate rest, s.frames = .loop ofUpdate .focusHandles :: rest) ∧
      windows.Nodup ∧ windows.toFinset = s.windows.keys ∩ s.windowHandles
  | .finishFocusHandles => ∃ ofUpdate rest, s.frames = .loop ofUpdate .focusHandles :: rest
  | .flushEffect _ => ∃ ofUpdate rest, s.frames = .loop ofUpdate .effects :: rest
  | .visit => ∃ id windows rest, s.frames = .call (.visit (id :: windows)) :: rest
  | .returnCall => (∃ rest, s.frames = .call .code :: rest) ∨
      ∃ rest, s.frames = .call (.visit []) :: rest
  | .shutdown => s.frames = []

end LeasingApp

end Lucie
