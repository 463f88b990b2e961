import Lucie.App.Leases

/-!
# What a step of the app does

A step that the code on top of the stack may take, and that does not panic, is one of the changes
below. It is said once here, so that an invariant looks at the changes and not at the code.
-/

set_option autoImplicit false

namespace Lucie

open Foundation

variable {E : Type}

namespace EntityWorld

/-- The steps that look at handles only. -/
def OnHandles : EntityAction E → Prop
  | .insert _ _ | .takeDropped => False
  | _ => True

end EntityWorld

namespace LeasingApp

variable {s s' : LeasingApp E}

/-- What an allowed step that does not panic does, with what it finds. -/
inductive Stepped (s : LeasingApp E) : LeasingApp E → Prop
  | unchanged : Stepped s s
  | startUpdate : Stepped s (s.startUpdate .nothing)
  | finishUpdate {rest : List (AppFrame E)} (hframes : s.frames = .scope .nothing :: rest) :
      Stepped s (s.finishUpdate rest)
  | handles {a : EntityAction E} {world : EntityWorld E} (hallowed : s.world.Allowed a)
      (hhandles : EntityWorld.OnHandles a) (hworld : s.world.step a = some world) :
      Stepped s { s with world }
  | pushEffect (effect : Effect) :
      Stepped s { s with pendingEffects := s.pendingEffects ++ [effect] }
  | newEntity {key : EntityId} {reserved world : EntityWorld E}
      (hfresh : s.world.map.counts.Fresh key)
      (hreserved : s.world.step (.reserve key) = some reserved)
      (hworld : reserved.step (.cloneHandle key) = some world) :
      Stepped s ({ s with world }.startUpdate (.building key true))
  | insertEntity (id : EntityId) : Stepped s (s.startUpdate (.building id false))
  | finishCreated {id : EntityId} {rest : List (AppFrame E)} {entity : E}
      {cloned built world : EntityWorld E} (tid : ℕ)
      (hframes : s.frames = .scope (.building id true) :: rest) (hid : id ∈ s.world.slots)
      (hcloned : s.world.step (.cloneHandle id) = some cloned)
      (hbuilt : cloned.step (.insert id entity) = some built)
      (hworld : built.step (.dropHandle id) = some world) :
      Stepped s { s with
        world
        pendingEffects := s.pendingEffects ++
          [.entityCreated id tid s.windowUpdateStack.getLast?]
        frames := .scope .nothing :: rest }
  | finishInserted {id : EntityId} {rest : List (AppFrame E)} {entity : E} {world : EntityWorld E}
      (hframes : s.frames = .scope (.building id false) :: rest) (hid : id ∈ s.world.slots)
      (hworld : s.world.step (.insert id entity) = some world) :
      Stepped s { s with world, frames := .scope .nothing :: rest }
  | leaseEntity {id : EntityId} {entity : E} {map : EntityMap E} (borrowed : Bool)
      (hlease : s.world.map.lease id = some (entity, map)) :
      Stepped s ({ s with world := { s.world with map } }.startUpdate
        (.entity id entity borrowed))
  | endLease {id : EntityId} {entity : E} {borrowed : Bool} {rest : List (AppFrame E)}
      (hframes : s.frames = .scope (.entity id entity borrowed) :: rest) :
      Stepped s { s with
        world := { s.world with map := s.world.map.endLease id entity }
        pendingEffects := s.pendingEffects ++ if borrowed then [.notify id] else []
        frames := .scope .nothing :: rest }
  | readEntity {id : EntityId} {entity : E} {map : EntityMap E}
      (hread : s.world.map.read id = some (entity, map)) :
      Stepped s { s with world := { s.world with map } }
  | takeWindow {id : WindowId} {s' : LeasingApp E} (htake : s.takeWindow id = some s') :
      Stepped s s'
  | finishWindow {id : WindowId} {removed : Bool} {rest : List (AppFrame E)}
      (hframes : s.frames = .scope (.window id removed) :: rest) :
      Stepped s (s.trail id removed rest)
  | finishClosing {rest : List (AppFrame E)} (quitOnEmpty : Bool)
      (hframes : s.frames = .scope .closing :: rest) :
      Stepped s { s with
        quits := s.quits + (quitOnEmpty && s.windows.keys = ∅).toNat
        frames := .scope .nothing :: rest }
  | openWindow {id : WindowId} (hid : id ∉ s.opened) :
      Stepped s { { s with opened := insert id s.opened }.startUpdate (.opening id false true) with
        windows := { s.windows with keys := insert id s.windows.keys }
        windowUpdateStack := s.windowUpdateStack ++ [id] }
  | openFailed (id : WindowId) :
      Stepped s ({ s with opened := insert id s.opened }.startUpdate .nothing)
  | finishRootView {id : WindowId} {removed : Bool} {rest : List (AppFrame E)}
      (hframes : s.frames = .scope (.opening id removed true) :: rest) :
      Stepped s { s with
        windowUpdateStack := s.windowUpdateStack.dropLast
        pendingEffects := s.pendingEffects ++ [.defer]
        frames := .scope (.opening id removed false) :: rest }
  | finishOpen {id : WindowId} {removed : Bool} {rest : List (AppFrame E)}
      (hframes : s.frames = .scope (.opening id removed false) :: rest)
      (hkey : id ∈ s.windows.keys) :
      Stepped s { s with
        windowHandles := insert id s.windowHandles
        windows := { s.windows with
          stored := Function.update s.windows.stored id (some removed) }
        frames := .scope .nothing :: rest }
  | removeWindow (id : WindowId) :
      Stepped s { s with frames := s.frames.map (AppFrame.remove id) }
  | takeDropped {ofUpdate : Bool} {rest : List (AppFrame E)} {map : EntityMap E}
      {dropped : List (EntityId × E)} (hframes : s.frames = .loop ofUpdate (.entities []) :: rest)
      (htake : s.world.map.takeDropped = some (map, dropped)) :
      Stepped s { s with
        world := { s.world with map, taken := s.world.taken ++ dropped }
        frames := .loop ofUpdate
          (if dropped.isEmpty then .focusHandles else .entities dropped) :: rest }
  | release {ofUpdate : Bool} {rest : List (AppFrame E)} {entity : EntityId × E}
      {dropped : List (EntityId × E)}
      (hframes : s.frames = .loop ofUpdate (.entities (entity :: dropped)) :: rest) :
      Stepped s { s with
        released := s.released ++ [entity]
        frames := .call .code :: .loop ofUpdate (.entities dropped) :: rest }
  | dropFocusHandle {ofUpdate : Bool} {rest : List (AppFrame E)} (windows : List WindowId)
      (hframes : s.frames = .loop ofUpdate .focusHandles :: rest) :
      Stepped s { s with frames := .call (.visit windows) :: s.frames }
  | finishFocusHandles {ofUpdate : Bool} {rest : List (AppFrame E)}
      (hframes : s.frames = .loop ofUpdate .focusHandles :: rest) :
      Stepped s { s with frames := .loop ofUpdate .effects :: rest }
  | flushEffect {ofUpdate : Bool} {rest : List (AppFrame E)} {effect : Effect}
      {effects : List Effect} (observers : ℕ)
      (hframes : s.frames = .loop ofUpdate .effects :: rest)
      (heffects : s.pendingEffects = effect :: effects) :
      Stepped s { s with
        pendingEffects := effects
        frames := flushCalls observers effect ++ .loop ofUpdate (.entities []) :: rest }
  | finishFlush {rest : List (AppFrame E)} (hframes : s.frames = .loop true .effects :: rest)
      (heffects : s.pendingEffects = []) :
      Stepped s { s with
        flushingEffects := false
        pendingUpdates := s.pendingUpdates - 1
        frames := rest }
  | finishFlushAlone {rest : List (AppFrame E)}
      (hframes : s.frames = .loop false .effects :: rest) (heffects : s.pendingEffects = []) :
      Stepped s { s with frames := rest }
  | visit {id : WindowId} {windows : List WindowId} {rest : List (AppFrame E)}
      {s' : LeasingApp E} (hframes : s.frames = .call (.visit (id :: windows)) :: rest)
      (htake : { s with frames := .call (.visit windows) :: rest }.takeWindow id = some s') :
      Stepped s s'
  | returnCall {called : FlushCall} {rest : List (AppFrame E)}
      (hframes : s.frames = .call called :: rest) : Stepped s { s with frames := rest }
  | shutdown (hframes : s.frames = []) :
      Stepped s { s with
        windows := ⟨∅, fun _ => none⟩
        windowHandles := ∅
        frames := [.loop false (.entities [])] }

theorem stepped_of_step {a : LeasingAction E} (ha : s.Allowed a) (hstep : s.step a = some s') :
    s.Stepped s' := by
  cases a with
  | startUpdate =>
    cases hstep
    exact .startUpdate
  | finishUpdate =>
    obtain ⟨rest, hframes⟩ := ha
    simp only [step, hframes, List.tail_cons, Option.some.injEq] at hstep
    subst hstep
    exact .finishUpdate hframes
  | handles a =>
    obtain ⟨hallowed, hhandles⟩ := ha
    obtain ⟨world, hworld, rfl⟩ := Option.map_eq_some_iff.mp hstep
    refine .handles hallowed ?_ hworld
    cases a <;> first | exact hhandles | trivial
  | pushEffect effect =>
    cases hstep
    exact .pushEffect effect
  | newEntity key =>
    obtain ⟨world, hworld, hstep⟩ := Option.bind_eq_some_iff.mp hstep
    cases hstep
    exact .newEntity ha.2 rfl hworld
  | insertEntity id =>
    cases hstep
    exact .insertEntity id
  | finishBuild entity tid =>
    obtain ⟨id, created, rest, hframes, hid⟩ := ha
    simp only [step, hframes] at hstep
    cases created with
    | true =>
      obtain ⟨cloned, hcloned, hstep⟩ := Option.bind_eq_some_iff.mp hstep
      obtain ⟨built, hbuilt, hstep⟩ := Option.bind_eq_some_iff.mp hstep
      obtain ⟨world, hworld, hstep⟩ := Option.bind_eq_some_iff.mp hstep
      cases hstep
      exact .finishCreated _ hframes hid hcloned hbuilt hworld
    | false =>
      rw [if_neg Bool.false_ne_true] at hstep
      obtain ⟨world, hworld, hstep⟩ := Option.bind_eq_some_iff.mp hstep
      cases hstep
      exact .finishInserted hframes hid hworld
  | updateEntity id | borrowEntity id =>
    obtain ⟨⟨entity, map⟩, hlease, hstep⟩ := Option.bind_eq_some_iff.mp hstep
    cases hstep
    exact .leaseEntity _ hlease
  | endLease =>
    obtain ⟨id, entity, borrowed, rest, hframes⟩ := ha
    simp only [step, hframes, Option.some.injEq] at hstep
    subst hstep
    exact .endLease hframes
  | readEntity id =>
    obtain ⟨⟨entity, map⟩, hread, hstep⟩ := Option.bind_eq_some_iff.mp hstep
    cases hstep
    exact .readEntity hread
  | updateWindow id =>
    cases hstep
    cases htake : s.takeWindow id with
    | none => exact .startUpdate
    | some taken => exact .takeWindow htake
  | finishWindow =>
    obtain ⟨id, removed, rest, hframes⟩ := ha
    simp only [step, hframes, Option.some.injEq] at hstep
    subst hstep
    exact .finishWindow hframes
  | finishClosing quitOnEmpty =>
    obtain ⟨rest, hframes⟩ := ha
    simp only [step, hframes, Option.some.injEq] at hstep
    subst hstep
    exact .finishClosing _ hframes
  | openWindow id ok =>
    cases ok with
    | true =>
      cases hstep
      exact .openWindow ha.2
    | false =>
      cases hstep
      exact .openFailed id
  | finishRootView =>
    obtain ⟨id, removed, rest, hframes⟩ := ha
    simp only [step, hframes, Option.some.injEq] at hstep
    subst hstep
    exact .finishRootView hframes
  | finishOpen =>
    obtain ⟨id, removed, rest, hframes⟩ := ha
    simp only [step, hframes] at hstep
    split_ifs at hstep with hkey
    cases hstep
    exact .finishOpen hframes hkey
  | removeWindow id =>
    cases hstep
    exact .removeWindow id
  | readWindow id =>
    simp only [step] at hstep
    split_ifs at hstep
    · obtain ⟨removed, -, rfl⟩ := Option.map_eq_some_iff.mp hstep
      exact .unchanged
    · cases hstep
      exact .unchanged
  | flushEntities =>
    obtain ⟨ofUpdate, dropped, rest, hframes⟩ := ha
    cases dropped with
    | nil =>
      simp only [step, hframes] at hstep
      obtain ⟨⟨map, dropped⟩, htake, hstep⟩ := Option.bind_eq_some_iff.mp hstep
      cases hstep
      exact .takeDropped hframes htake
    | cons entity dropped =>
      simp only [step, hframes, Option.some.injEq] at hstep
      subst hstep
      exact .release hframes
  | dropFocusHandle windows =>
    obtain ⟨⟨ofUpdate, rest, hframes⟩, -⟩ := ha
    cases hstep
    exact .dropFocusHandle windows hframes
  | finishFocusHandles =>
    obtain ⟨ofUpdate, rest, hframes⟩ := ha
    simp only [step, hframes, Option.some.injEq] at hstep
    subst hstep
    exact .finishFocusHandles hframes
  | flushEffect observers =>
    obtain ⟨ofUpdate, rest, hframes⟩ := ha
    cases heffects : s.pendingEffects with
    | nil =>
      cases ofUpdate
      all_goals
        simp only [step, hframes, heffects, Option.some.injEq] at hstep
        subst hstep
        rw [← heffects]
      · exact .finishFlushAlone hframes heffects
      · exact .finishFlush hframes heffects
    | cons effect effects =>
      simp only [step, hframes, heffects, Option.some.injEq] at hstep
      subst hstep
      exact .flushEffect observers hframes heffects
  | visit =>
    obtain ⟨id, windows, rest, hframes⟩ := ha
    simp only [step, hframes] at hstep
    exact .visit hframes hstep
  | returnCall =>
    rcases ha with ⟨rest, hframes⟩ | ⟨rest, hframes⟩
    all_goals
      simp only [step, hframes, List.tail_cons, Option.some.injEq] at hstep
      subst hstep
      exact .returnCall hframes
  | shutdown =>
    cases hstep
    exact .shutdown ha

end LeasingApp

end Lucie
