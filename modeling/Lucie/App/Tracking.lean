import Lucie.App.Notifications
import Lucie.Foundation.ReverseIndex

/-!
# Tracked entities

A draw of a window records the entities that it accessed. The app keeps these entities for each
window, and the windows for each entity, so that a notification finds the windows to draw again.
-/

set_option autoImplicit false

namespace Lucie

open Foundation

/-- An app that runs, with the `tracked_entities` of its windows in some order. -/
structure TrackingRun where
  run : AppRun
  trackedEntities : WindowId → List EntityId

/-- A draw of a window, or any other action of the app. -/
inductive TrackingAction
  | recordEntitiesAccessed (window : WindowId) (entities : List EntityId)
  | app (action : AppAction)

namespace TrackingRun

/-- A new app. -/
def new (invalidators : WindowId → WindowInvalidator) : TrackingRun :=
  ⟨.new invalidators, fun _ => []⟩

/-- `App::record_entities_accessed`. The sets of entities are gone through in the order of the
lists. -/
def recordEntitiesAccessed (s : TrackingRun) (window : WindowId) (entities : List EntityId) :
    TrackingRun :=
  let trackedEntities := s.trackedEntities window
  let index := trackedEntities.foldl (removeAt window) s.run.app.windowInvalidatorsByEntity
  let index := entities.foldl (insertAt window) index
  { run := { s.run with app := { s.run.app with windowInvalidatorsByEntity := index } }
    trackedEntities := Function.update s.trackedEntities window entities }

/-- One step. What windows track is written by draws only. -/
def step (s : TrackingRun) : TrackingAction → Option TrackingRun
  | .recordEntitiesAccessed window entities => some (s.recordEntitiesAccessed window entities)
  | .app (.track _ _) => none
  | .app action => (s.run.step action).map fun run => { s with run }

/-- The entities that the last draw of a window accessed. -/
def lastAccessed (actions : List TrackingAction) : WindowId → List EntityId :=
  actions.foldl
    (fun accessed action =>
      match action with
      | .recordEntitiesAccessed window entities => Function.update accessed window entities
      | .app _ => accessed)
    fun _ => []

end TrackingRun

/-! ## Notifications -/

/-- What a notification of an entity does to a window that accessed it. -/
def WindowInvalidator.invalidated (inner : WindowInvalidator) (entity : EntityId) :
    WindowInvalidator :=
  { inner with
    dirty := inner.dirty || inner.drawPhase = .none
    dirtyViews := insert entity inner.dirtyViews }

theorem WindowInvalidator.invalidated_twice (inner : WindowInvalidator) (entity : EntityId) :
    (inner.invalidated entity).invalidated entity = inner.invalidated entity := by
  cases h : inner.dirty <;> simp [invalidated, h]

namespace App

/-- No effect changes which windows track an entity. -/
theorem windowInvalidatorsByEntity_pushEffect (app : App) (effect : Effect) :
    (app.pushEffect effect).windowInvalidatorsByEntity = app.windowInvalidatorsByEntity := by
  cases effect <;> simp only [pushEffect] <;> split_ifs <;> rfl

theorem windowInvalidatorsByEntity_invalidateView (app : App) (entity : EntityId)
    (window : WindowId) : (app.invalidateView entity window).windowInvalidatorsByEntity =
      app.windowInvalidatorsByEntity := by
  simp only [invalidateView]
  split_ifs
  · exact windowInvalidatorsByEntity_pushEffect _ _
  · rfl

theorem windowInvalidatorsByEntity_notify (app : App) (entity : EntityId) :
    (app.notify entity).windowInvalidatorsByEntity = app.windowInvalidatorsByEntity := by
  have hfold : ∀ (windows : List WindowId) (app : App),
      (windows.foldl (fun app window => app.invalidateView entity window)
        app).windowInvalidatorsByEntity = app.windowInvalidatorsByEntity := by
    intro windows
    induction windows with
    | nil => exact fun _ => rfl
    | cons window windows ih =>
      intro app
      rw [List.foldl_cons, ih, windowInvalidatorsByEntity_invalidateView]
  rw [notify]
  split
  · split_ifs <;> rfl
  · exact hfold _ app

theorem invalidators_invalidateView (app : App) (entity : EntityId) (window : WindowId) :
    (app.invalidateView entity window).invalidators =
      Function.update app.invalidators window ((app.invalidators window).invalidated entity) := by
  simp only [invalidateView]
  split_ifs with hphase
  · rw [invalidators_pushEffect]
    simp [WindowInvalidator.invalidated, hphase]
  · simp [WindowInvalidator.invalidated, hphase]

/-- A notification invalidates the windows that track the entity, and no other one. -/
theorem invalidators_notify (app : App) (entity : EntityId) (window : WindowId) :
    (app.notify entity).invalidators window =
      if window ∈ app.windowInvalidatorsByEntity entity then
        (app.invalidators window).invalidated entity
      else app.invalidators window := by
  have hfold : ∀ (windows : List WindowId) (app : App),
      (windows.foldl (fun app window => app.invalidateView entity window)
        app).invalidators window =
        if window ∈ windows then (app.invalidators window).invalidated entity
        else app.invalidators window := by
    intro windows
    induction windows with
    | nil => exact fun _ => rfl
    | cons w windows ih =>
      intro app
      rw [List.foldl_cons, ih, invalidators_invalidateView]
      by_cases hw : window = w
      · subst hw
        simp [WindowInvalidator.invalidated_twice]
      · simp [hw]
  rw [notify]
  split
  next hnil =>
    rw [hnil, if_neg (List.not_mem_nil)]
    split_ifs <;> rfl
  next windows hwindows => exact hfold _ app

end App

namespace AppRun

/-- The other actions do not change which windows track an entity. -/
theorem windowInvalidatorsByEntity_of_step {s s' : AppRun} {a : AppAction}
    (htrack : ∀ entity windows, a ≠ .track entity windows) (h : s.step a = some s') :
    s'.app.windowInvalidatorsByEntity = s.app.windowInvalidatorsByEntity := by
  cases a with
  | track entity windows => exact absurd rfl (htrack entity windows)
  | finishUpdate =>
    simp only [step] at h
    split at h
    · cases h
      rw [finishUpdate]
      split_ifs <;> rfl
    · cases h
  | flushEffect =>
    simp only [step] at h
    split at h
    · cases h
      rename_i effect effects hstack hqueue
      cases effect <;> rfl
    · cases h
      rfl
    · cases h
  | release | returnCallback =>
    simp only [step] at h
    split at h
    · cases h
      rfl
    · cases h
  | notify entity =>
    simp only [step] at h
    split_ifs at h
    cases h
    exact App.windowInvalidatorsByEntity_notify s.app entity
  | setGlobal | defer | entityCreated =>
    simp only [step] at h
    split_ifs at h
    cases h
    exact App.windowInvalidatorsByEntity_pushEffect s.app _
  | startUpdate | emit | refreshWindows | setPhase =>
    simp only [step] at h
    split_ifs at h
    cases h
    rfl

end AppRun

namespace TrackingRun

/-- What holds after the actions. -/
structure Inv (actions : List TrackingAction) (s : TrackingRun) : Prop where
  inverse : Inverse s.run.app.windowInvalidatorsByEntity s.trackedEntities
  lastAccessed : s.trackedEntities = lastAccessed actions

theorem Inv.step {actions : List TrackingAction} {s s' : TrackingRun} (h : Inv actions s)
    {a : TrackingAction} (hstep : s.step a = some s') : Inv (actions ++ [a]) s' := by
  cases a with
  | recordEntitiesAccessed window entities =>
    cases hstep
    refine ⟨h.inverse.reindex window entities, ?_⟩
    change Function.update s.trackedEntities window entities = _
    rw [h.lastAccessed, TrackingRun.lastAccessed, TrackingRun.lastAccessed, List.foldl_append]
    rfl
  | app action =>
    have hlast : TrackingRun.lastAccessed (actions ++ [.app action]) =
        TrackingRun.lastAccessed actions := by
      rw [TrackingRun.lastAccessed, TrackingRun.lastAccessed, List.foldl_append]
      rfl
    have htrack : ∀ entity windows, action ≠ .track entity windows := by
      rintro entity windows rfl
      cases hstep
    have hstep' : (s.run.step action).map (fun run => { s with run }) = some s' := by
      rw [← hstep]
      cases action with
      | track entity windows => exact absurd rfl (htrack entity windows)
      | _ => rfl
    obtain ⟨run, hrun, rfl⟩ := Option.map_eq_some_iff.mp hstep'
    refine ⟨?_, hlast.symm ▸ h.lastAccessed⟩
    change Inverse run.app.windowInvalidatorsByEntity s.trackedEntities
    rw [AppRun.windowInvalidatorsByEntity_of_step htrack hrun]
    exact h.inverse

/-- In every run an entity leads to a window exactly when the window tracks the entity, and so
exactly when its last draw accessed it. A notification invalidates these windows and no other. -/
theorem tracking_of_run {invalidators : WindowId → WindowInvalidator}
    {actions : List TrackingAction} {s : TrackingRun}
    (run : Run step (fun _ _ => True) (new invalidators) actions s) :
    (∀ entity window, window ∈ s.run.app.windowInvalidatorsByEntity entity ↔
      entity ∈ s.trackedEntities window) ∧
    (∀ window, s.trackedEntities window = lastAccessed actions window) ∧
    ∀ entity window, (s.run.app.notify entity).invalidators window =
      if entity ∈ lastAccessed actions window then
        (s.run.app.invalidators window).invalidated entity
      else s.run.app.invalidators window := by
  have hinv : Inv actions s := by
    refine run.invariant Inv ⟨?_, rfl⟩ fun _ _ _ _ h _ hstep => h.step hstep
    intro entity window
    simp [new, AppRun.new, App.new]
  refine ⟨hinv.inverse, congrFun hinv.lastAccessed, ?_⟩
  intro entity window
  rw [App.invalidators_notify]
  simp only [hinv.inverse entity window, hinv.lastAccessed]

/-- Two windows access an entity, and the first one no more when it is drawn again. -/
def sharedDraws : List TrackingAction :=
  [.recordEntitiesAccessed 0 [⟨0, 1⟩, ⟨1, 1⟩], .recordEntitiesAccessed 1 [⟨0, 1⟩],
    .recordEntitiesAccessed 0 [⟨1, 1⟩], .app .startUpdate, .app (.notify ⟨1, 1⟩)]

theorem tracking_of_run_sharedDraws :
    ∃ s, Run step (fun _ _ => True) (new fun _ => ⟨false, .none, ∅⟩) sharedDraws s ∧
      s.run.app.windowInvalidatorsByEntity ⟨0, 1⟩ = [1] ∧
      (∀ entity window, window ∈ s.run.app.windowInvalidatorsByEntity entity ↔
        entity ∈ s.trackedEntities window) ∧
      (∀ window, s.trackedEntities window = lastAccessed sharedDraws window) ∧
      ∀ entity window, (s.run.app.notify entity).invalidators window =
        if entity ∈ lastAccessed sharedDraws window then
          (s.run.app.invalidators window).invalidated entity
        else s.run.app.invalidators window := by
  have run : Run step (fun _ _ => True) (new fun _ => ⟨false, .none, ∅⟩) sharedDraws _ :=
    .of_execute rfl
  exact ⟨_, run, by decide, tracking_of_run run⟩

end TrackingRun

end Lucie
