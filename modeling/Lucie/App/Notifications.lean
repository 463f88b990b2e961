import Mathlib
import Lucie.App.Effects
import Lucie.Foundation.Run

/-!
# Notifications are coalesced into passes

A topic is pending exactly when one effect for it is queued. Each pass over the observers
of a topic serves all of the notifications since the pass before, and a notification
during a pass leads to another one. When the outermost update returns, nothing is left.
-/

set_option autoImplicit false

namespace Lucie

open Foundation

/-- The effect that starts a pass over the observers of a topic. -/
def Topic.effect : Topic → Effect
  | .entity id => .notify id
  | .global globalType => .notifyGlobalObservers globalType

theorem Topic.effect_inj {t u : Topic} : t.effect = u.effect ↔ t = u := by
  cases t <;> cases u <;> simp [effect]

/-- The topic is in its pending set. -/
def App.pending (app : App) : Topic → Prop
  | .entity id => id ∈ app.pendingNotifications
  | .global globalType => globalType ∈ app.pendingGlobalNotifications

instance (app : App) (t : Topic) : Decidable (app.pending t) :=
  match t with
  | .entity id => inferInstanceAs (Decidable (id ∈ app.pendingNotifications))
  | .global globalType =>
    inferInstanceAs (Decidable (globalType ∈ app.pendingGlobalNotifications))

namespace App

/-- The topic is queued unless it is pending, and pending from then on. -/
structure Requested (app : App) (t : Topic) (app' : App) : Prop where
  queue : app'.pendingEffects =
    if app.pending t then app.pendingEffects else app.pendingEffects ++ [t.effect]
  pending : ∀ u, app'.pending u ↔ u = t ∨ app.pending u
  updates : app'.pendingUpdates = app.pendingUpdates
  flushing : app'.flushingEffects = app.flushingEffects

/-- A topic is queued once even if it is requested repeatedly. -/
theorem Requested.again {app next app' : App} {t : Topic} (h : Requested app t next)
    (h' : Requested next t app') : Requested app t app' := by
  have hpending : next.pending t := (h.pending t).mpr (Or.inl rfl)
  constructor
  · rw [h'.queue, if_pos hpending, h.queue]
  · intro u
    rw [h'.pending, h.pending]
    tauto
  · rw [h'.updates, h.updates]
  · rw [h'.flushing, h.flushing]

theorem pushEffect_of_pending {app : App} {t : Topic} (h : app.pending t) :
    app.pushEffect t.effect = app := by
  cases t with
  | entity id => exact if_pos h
  | global globalType => exact if_pos h

/-- Pushing the effect of a topic that is not pending. -/
theorem requested_of_not_pending {app : App} {t : Topic} (h : ¬app.pending t) :
    Requested app t (app.pushEffect t.effect) := by
  cases t with
  | entity id =>
    have hpush : app.pushEffect (Topic.entity id).effect = { app with
        pendingNotifications := insert id app.pendingNotifications
        pendingEffects := app.pendingEffects ++ [.notify id] } := if_neg h
    rw [hpush]
    refine ⟨(if_neg h).symm, ?_, rfl, rfl⟩
    intro u
    cases u <;> simp [pending]
  | global globalType =>
    have hpush : app.pushEffect (Topic.global globalType).effect = { app with
        pendingGlobalNotifications := insert globalType app.pendingGlobalNotifications
        pendingEffects := app.pendingEffects ++ [.notifyGlobalObservers globalType] } := if_neg h
    rw [hpush]
    refine ⟨(if_neg h).symm, ?_, rfl, rfl⟩
    intro u
    cases u <;> simp [pending]

theorem requested_pushEffect (app : App) (t : Topic) :
    Requested app t (app.pushEffect t.effect) := by
  by_cases h : app.pending t
  · rw [pushEffect_of_pending h]
    refine ⟨(if_pos h).symm, ?_, rfl, rfl⟩
    intro u
    constructor
    · exact Or.inr
    · rintro (rfl | hu)
      · exact h
      · exact hu
  · exact requested_of_not_pending h

theorem invalidators_pushEffect (app : App) (effect : Effect) :
    (app.pushEffect effect).invalidators = app.invalidators := by
  cases effect <;> simp only [pushEffect] <;> split_ifs <;> rfl

/-- A window that is not drawing requests the entity and stays as it is. -/
theorem requested_invalidateView {app : App} (entity : EntityId) (window : WindowId)
    (hphase : ∀ w, (app.invalidators w).drawPhase = .none) :
    Requested app (.entity entity) (app.invalidateView entity window) ∧
      ∀ w, ((app.invalidateView entity window).invalidators w).drawPhase = .none := by
  let inner := app.invalidators window
  let invalidated : App := { app with
    invalidators := Function.update app.invalidators window
      { inner with dirtyViews := insert entity inner.dirtyViews, dirty := true } }
  have hview : app.invalidateView entity window =
      invalidated.pushEffect (Topic.entity entity).effect := if_pos (hphase window)
  rw [hview]
  constructor
  · have h := requested_pushEffect invalidated (.entity entity)
    exact ⟨h.queue, h.pending, h.updates, h.flushing⟩
  · intro w
    rw [invalidators_pushEffect]
    by_cases hw : w = window
    · subst hw
      simp only [invalidated, Function.update_self]
      exact hphase w
    · simp only [invalidated, Function.update_of_ne hw]
      exact hphase w

theorem requested_foldl_invalidateView (entity : EntityId) (windows : List WindowId) :
    ∀ app : App, (∀ w, (app.invalidators w).drawPhase = .none) → windows ≠ [] →
      Requested app (.entity entity)
        (windows.foldl (fun app window => app.invalidateView entity window) app) := by
  induction windows with
  | nil =>
    intro app _ hne
    exact absurd rfl hne
  | cons window windows ih =>
    intro app hphase _
    obtain ⟨hfirst, hphase'⟩ := requested_invalidateView entity window hphase
    by_cases hwindows : windows = []
    · subst hwindows
      exact hfirst
    · exact hfirst.again (ih _ hphase' hwindows)

/-- Outside of drawing, a notification requests its entity whether windows track it or not. -/
theorem requested_notify {app : App} (entity : EntityId)
    (hphase : ∀ w, (app.invalidators w).drawPhase = .none) :
    Requested app (.entity entity) (app.notify entity) := by
  unfold notify
  cases hwindows : app.windowInvalidatorsByEntity entity with
  | nil => exact requested_pushEffect app (.entity entity)
  | cons window windows =>
    exact requested_foldl_invalidateView entity (window :: windows) app hphase (by simp)

end App

namespace AppRun

/-- What a step does to the queue, the pending topics and the trace. -/
inductive Served (s : AppRun) (a : AppAction) (s' : AppRun) : Prop
  /-- Other effects are queued, at most. -/
  | quiet (more : List Effect) (hsilent : ∀ t : Topic, t.effect ∉ more)
      (hqueue : s'.app.pendingEffects = s.app.pendingEffects ++ more)
      (hpending : ∀ t, s'.app.pending t ↔ s.app.pending t) (htrace : s'.trace = s.trace)
      (hflush : a = .flushEffect → s.app.pendingEffects = [])
  /-- A topic is notified. -/
  | request (t : Topic) (hqueue : s'.app.pendingEffects =
        if s.app.pending t then s.app.pendingEffects else s.app.pendingEffects ++ [t.effect])
      (hpending : ∀ u, s'.app.pending u ↔ u = t ∨ s.app.pending u)
      (htrace : s'.trace = s.trace ++ [(t, .notify)]) (hflush : a ≠ .flushEffect)
  /-- The flush loop starts a pass. -/
  | pass (t : Topic) (hqueue : s.app.pendingEffects = t.effect :: s'.app.pendingEffects)
      (hpending : ∀ u, s'.app.pending u ↔ u ≠ t ∧ s.app.pending u)
      (htrace : s'.trace = s.trace ++ [(t, .pass)])
  /-- The flush loop applies another effect. -/
  | apply (effect : Effect) (hsilent : ∀ t : Topic, t.effect ≠ effect)
      (hqueue : s.app.pendingEffects = effect :: s'.app.pendingEffects)
      (hpending : ∀ t, s'.app.pending t ↔ s.app.pending t) (htrace : s'.trace = s.trace)

/-- What a step does to the stack and the counters. -/
inductive Stacked (s s' : AppRun) : Prop
  /-- The code on top of the stack, or nothing, enters an update. -/
  | enter (hcaller : s.stack.head? ≠ some .flush) (hstack : s'.stack = .update :: s.stack)
      (hupdates : s'.app.pendingUpdates = s.app.pendingUpdates + 1)
      (hflushing : s'.app.flushingEffects = s.app.flushingEffects)
  /-- The outermost update starts to flush. -/
  | flush (rest : List Frame) (hstack : s.stack = .update :: rest)
      (hstack' : s'.stack = .flush :: rest) (hidle : s.app.flushingEffects = false)
      (hone : s.app.pendingUpdates = 1)
      (hupdates : s'.app.pendingUpdates = s.app.pendingUpdates)
      (hflushing : s'.app.flushingEffects = true)
  /-- Another update returns. -/
  | leave (hstack : s.stack = .update :: s'.stack)
      (hinner : s.app.flushingEffects = true ∨ s.app.pendingUpdates ≠ 1)
      (hupdates : s'.app.pendingUpdates = s.app.pendingUpdates - 1)
      (hflushing : s'.app.flushingEffects = s.app.flushingEffects)
  /-- The flush loop ends and its update returns. -/
  | drained (hstack : s.stack = .flush :: s'.stack) (hqueue : s'.app.pendingEffects = [])
      (hupdates : s'.app.pendingUpdates = s.app.pendingUpdates - 1)
      (hflushing : s'.app.flushingEffects = false)
  /-- The flush loop calls callbacks. -/
  | call (rest : List Frame) (hstack : s.stack = .flush :: rest)
      (hstack' : s'.stack = .callback :: s.stack)
      (hupdates : s'.app.pendingUpdates = s.app.pendingUpdates)
      (hflushing : s'.app.flushingEffects = s.app.flushingEffects)
  /-- Callbacks return. -/
  | back (hstack : s.stack = .callback :: s'.stack)
      (hupdates : s'.app.pendingUpdates = s.app.pendingUpdates)
      (hflushing : s'.app.flushingEffects = s.app.flushingEffects)
  /-- The stack stays, and something is on it. -/
  | stay (hnonempty : s.stack ≠ []) (hstack : s'.stack = s.stack)
      (hupdates : s'.app.pendingUpdates = s.app.pendingUpdates)
      (hflushing : s'.app.flushingEffects = s.app.flushingEffects)

/-- Applying an effect starts the pass of its topic, if it has one. -/
theorem served_applyEffect {s : AppRun} {effect : Effect} {effects : List Effect}
    (hqueue : s.app.pendingEffects = effect :: effects) : Served s .flushEffect
      (applyEffect { s with app := { s.app with pendingEffects := effects } } effect) := by
  cases effect with
  | notify emitter =>
    refine .pass (.entity emitter) hqueue ?_ rfl
    intro u
    cases u <;> simp [applyEffect, App.pending]
  | notifyGlobalObservers globalType =>
    refine .pass (.global globalType) hqueue ?_ rfl
    intro u
    cases u <;> simp [applyEffect, App.pending]
  | emit emitter eventType =>
    exact .apply _ (by rintro (_ | _) <;> simp [Topic.effect]) hqueue
      (fun t => by cases t <;> rfl) rfl
  | refreshWindows =>
    exact .apply _ (by rintro (_ | _) <;> simp [Topic.effect]) hqueue
      (fun t => by cases t <;> rfl) rfl
  | defer =>
    exact .apply _ (by rintro (_ | _) <;> simp [Topic.effect]) hqueue
      (fun t => by cases t <;> rfl) rfl
  | entityCreated entity tid window =>
    exact .apply _ (by rintro (_ | _) <;> simp [Topic.effect]) hqueue
      (fun t => by cases t <;> rfl) rfl

/-- A guarded step does one of these things to the queue. -/
theorem served_of_step {s s' : AppRun} {a : AppAction} (hguard : s.NotDrawing a)
    (h : s.step a = some s') : Served s a s' := by
  have hquiet : ∀ s', a ≠ .flushEffect → s'.app.pendingEffects = s.app.pendingEffects →
      s'.app.pendingNotifications = s.app.pendingNotifications →
      s'.app.pendingGlobalNotifications = s.app.pendingGlobalNotifications →
      s'.trace = s.trace → Served s a s' := by
    intro s' ha hqueue hlocal hglobal htrace
    refine .quiet [] (by simp) (by simp [hqueue]) ?_ htrace fun heq => absurd heq ha
    intro t
    cases t <;> simp [App.pending, hlocal, hglobal]
  have hpush : ∀ effect, (∀ t : Topic, t.effect ≠ effect) → a ≠ .flushEffect →
      Served s a { s with app := { s.app with
        pendingEffects := s.app.pendingEffects ++ [effect] } } := by
    intro effect hsilent ha
    refine .quiet [effect] ?_ rfl (fun t => by cases t <;> rfl) rfl fun heq => absurd heq ha
    intro t ht
    exact hsilent t (List.mem_singleton.mp ht)
  cases a with
  | startUpdate =>
    simp only [step, Option.ite_none_right_eq_some, Option.some.injEq] at h
    obtain ⟨_, rfl⟩ := h
    exact hquiet _ (by simp) rfl rfl rfl rfl
  | finishUpdate =>
    simp only [step] at h
    split at h
    · obtain rfl := Option.some.inj h
      unfold finishUpdate
      split_ifs
      · exact hquiet _ (by simp) rfl rfl rfl rfl
      · exact hquiet _ (by simp) rfl rfl rfl rfl
    · simp at h
  | flushEffect =>
    simp only [step] at h
    split at h
    · rename_i rest effect effects hstack hqueue
      obtain rfl := Option.some.inj h
      exact served_applyEffect hqueue
    · rename_i hqueue
      obtain rfl := Option.some.inj h
      exact .quiet [] (by simp) (by simp) (fun t => by cases t <;> rfl) rfl fun _ => hqueue
    · simp at h
  | release =>
    simp only [step] at h
    split at h
    · obtain rfl := Option.some.inj h
      exact hquiet _ (by simp) rfl rfl rfl rfl
    · simp at h
  | returnCallback =>
    simp only [step] at h
    split at h
    · obtain rfl := Option.some.inj h
      exact hquiet _ (by simp) rfl rfl rfl rfl
    · simp at h
  | notify entity =>
    simp only [step, Option.ite_none_right_eq_some, Option.some.injEq] at h
    obtain ⟨_, rfl⟩ := h
    have hrequested := App.requested_notify entity (hguard (by simp))
    exact .request (.entity entity) hrequested.queue hrequested.pending rfl (by simp)
  | setGlobal globalType =>
    simp only [step, Option.ite_none_right_eq_some, Option.some.injEq] at h
    obtain ⟨_, rfl⟩ := h
    have hrequested := App.requested_pushEffect s.app (.global globalType)
    exact .request (.global globalType) hrequested.queue hrequested.pending rfl (by simp)
  | emit emitter eventType =>
    simp only [step, Option.ite_none_right_eq_some, Option.some.injEq] at h
    obtain ⟨_, rfl⟩ := h
    exact hpush _ (by rintro (_ | _) <;> simp [Topic.effect]) (by simp)
  | defer =>
    simp only [step, Option.ite_none_right_eq_some, Option.some.injEq] at h
    obtain ⟨_, rfl⟩ := h
    exact hpush _ (by rintro (_ | _) <;> simp [Topic.effect]) (by simp)
  | refreshWindows =>
    simp only [step, Option.ite_none_right_eq_some, Option.some.injEq] at h
    obtain ⟨_, rfl⟩ := h
    exact hpush _ (by rintro (_ | _) <;> simp [Topic.effect]) (by simp)
  | entityCreated entity tid window =>
    simp only [step, Option.ite_none_right_eq_some, Option.some.injEq] at h
    obtain ⟨_, rfl⟩ := h
    exact hpush _ (by rintro (_ | _) <;> simp [Topic.effect]) (by simp)
  | track | setPhase =>
    simp only [step, Option.ite_none_right_eq_some, Option.some.injEq] at h
    obtain ⟨_, rfl⟩ := h
    exact hquiet _ (by simp) rfl rfl rfl rfl

/-- A step does one of these things to the stack. -/
theorem stacked_of_step {s s' : AppRun} {a : AppAction} (hguard : s.NotDrawing a)
    (h : s.step a = some s') : Stacked s s' := by
  have hcaller : ∀ {s : AppRun}, s.calling = true → s.stack ≠ [] := by
    rintro s hcalling heq
    simp [calling, heq] at hcalling
  cases a with
  | startUpdate =>
    simp only [step, Option.ite_none_right_eq_some, Option.some.injEq, Bool.or_eq_true] at h
    obtain ⟨hstart, rfl⟩ := h
    refine .enter ?_ rfl rfl rfl
    cases hstack : s.stack with
    | nil => simp
    | cons frame rest => cases frame <;> simp [calling, hstack] at hstart ⊢
  | finishUpdate =>
    simp only [step] at h
    split at h
    · rename_i rest hstack
      obtain rfl := Option.some.inj h
      unfold finishUpdate
      split_ifs with hlast
      · simp only [Bool.and_eq_true, Bool.not_eq_true', decide_eq_true_eq] at hlast
        exact .flush rest hstack rfl hlast.1 hlast.2 rfl rfl
      · simp only [Bool.and_eq_true, Bool.not_eq_true', decide_eq_true_eq, not_and_or,
          Bool.not_eq_false] at hlast
        exact .leave hstack hlast rfl rfl
    · simp at h
  | flushEffect =>
    simp only [step] at h
    split at h
    · rename_i rest effect effects hstack hqueue
      obtain rfl := Option.some.inj h
      cases effect with
      | refreshWindows => exact .stay (by simp [hstack]) rfl rfl rfl
      | _ => exact .call rest hstack rfl rfl rfl
    · rename_i rest hstack hqueue
      obtain rfl := Option.some.inj h
      exact .drained hstack hqueue rfl rfl
    · simp at h
  | release =>
    simp only [step] at h
    split at h
    · rename_i rest hstack
      obtain rfl := Option.some.inj h
      exact .call rest hstack rfl rfl rfl
    · simp at h
  | returnCallback =>
    simp only [step] at h
    split at h
    · rename_i rest hstack
      obtain rfl := Option.some.inj h
      exact .back hstack rfl rfl
    · simp at h
  | notify entity =>
    simp only [step, Option.ite_none_right_eq_some, Option.some.injEq] at h
    obtain ⟨hcalling, rfl⟩ := h
    have hrequested := App.requested_notify entity (hguard (by simp))
    exact .stay (hcaller hcalling) rfl hrequested.updates hrequested.flushing
  | setGlobal globalType =>
    simp only [step, Option.ite_none_right_eq_some, Option.some.injEq] at h
    obtain ⟨hcalling, rfl⟩ := h
    have hrequested := App.requested_pushEffect s.app (.global globalType)
    exact .stay (hcaller hcalling) rfl hrequested.updates hrequested.flushing
  | emit | defer | refreshWindows | entityCreated | track | setPhase =>
    simp only [step, Option.ite_none_right_eq_some, Option.some.injEq] at h
    obtain ⟨hcalling, rfl⟩ := h
    exact .stay (hcaller hcalling) rfl rfl rfl

end AppRun

/-- The outermost frame is an update or its flush loop, and no other frame flushes. -/
def Nested (stack : List Frame) : Prop :=
  stack = [] ∨ ∃ inner outer, stack = inner ++ [outer] ∧ .flush ∉ inner ∧ outer ≠ .callback

theorem Nested.push {stack : List Frame} {frame : Frame} (h : Nested stack)
    (hne : stack ≠ []) (hframe : frame ≠ .flush) : Nested (frame :: stack) := by
  obtain rfl | ⟨inner, outer, rfl, hinner, houter⟩ := h
  · exact absurd rfl hne
  · refine Or.inr ⟨frame :: inner, outer, rfl, ?_, houter⟩
    simp [hinner, hframe.symm]

theorem Nested.pop {stack : List Frame} {frame : Frame} (h : Nested (frame :: stack)) :
    Nested stack ∧ (stack = [] → frame ≠ .callback) ∧ (frame = .flush → stack = []) := by
  obtain h | ⟨inner, outer, h, hinner, houter⟩ := h
  · simp at h
  · cases inner with
    | nil =>
      obtain ⟨rfl, rfl⟩ : frame = outer ∧ stack = [] := by simpa using h
      exact ⟨Or.inl rfl, fun _ => houter, fun _ => rfl⟩
    | cons first inner =>
      obtain ⟨rfl, rfl⟩ : frame = first ∧ stack = inner ++ [outer] := by simpa using h
      simp only [List.mem_cons, not_or] at hinner
      refine ⟨Or.inr ⟨inner, outer, rfl, hinner.2, houter⟩, ?_, ?_⟩
      · simp
      · rintro rfl
        exact absurd rfl hinner.1

/-- The counters describe the stack, and nothing is queued unless something runs. -/
structure WellNested (s : AppRun) : Prop where
  nested : Nested s.stack
  updates : s.app.pendingUpdates = s.stack.countP (· ≠ .callback)
  flushing : s.app.flushingEffects = true ↔ .flush ∈ s.stack
  queue : s.stack = [] → s.app.pendingEffects = []

theorem WellNested.step {s s' : AppRun} {a : AppAction} (h : WellNested s)
    (hguard : s.NotDrawing a) (hstep : s.step a = some s') : WellNested s' := by
  obtain ⟨hnested, hupdates, hflushing, hqueue⟩ := h
  cases AppRun.stacked_of_step hguard hstep with
  | enter hcaller hstack hupdates' hflushing' =>
    refine ⟨?_, ?_, ?_, ?_⟩
    · rw [hstack]
      by_cases hempty : s.stack = []
      · rw [hempty]
        exact Or.inr ⟨[], .update, rfl, by simp, by simp⟩
      · exact hnested.push hempty (by simp)
    · rw [hupdates', hstack, hupdates]
      simp
    · rw [hflushing', hstack, hflushing]
      simp
    · simp [hstack]
  | flush rest hstack hstack' hidle hone hupdates' hflushing' =>
    have hrest : rest = [] := by
      obtain ⟨hnested', hlast, _⟩ := (hstack ▸ hnested).pop
      obtain hrest | ⟨inner, outer, rfl, _, houter⟩ := hnested'
      · exact hrest
      · rw [hstack] at hupdates
        have hcount : [outer].countP (· ≠ .callback) = 1 := by simpa using houter
        simp only [List.countP_cons, List.countP_append, hone, hcount] at hupdates
        simp at hupdates
    subst hrest
    refine ⟨?_, ?_, ?_, ?_⟩
    · rw [hstack']
      exact Or.inr ⟨[], .flush, rfl, by simp, by simp⟩
    · rw [hupdates', hstack', hone]
      rfl
    · simp [hflushing', hstack']
    · simp [hstack']
  | leave hstack hinner hupdates' hflushing' =>
    obtain ⟨hnested', _, _⟩ := (hstack ▸ hnested).pop
    rw [hstack] at hupdates hflushing
    refine ⟨hnested', ?_, ?_, ?_⟩
    · rw [hupdates', hupdates]
      simp
    · rw [hflushing', hflushing]
      simp
    · intro hempty
      rw [hempty] at hupdates hflushing
      obtain hflush | hone := hinner
      · simp [hflush] at hflushing
      · simp [hupdates] at hone
  | drained hstack hqueue' hupdates' hflushing' =>
    obtain ⟨hnested', _, hempty⟩ := (hstack ▸ hnested).pop
    have hrest : s'.stack = [] := hempty rfl
    rw [hstack, hrest] at hupdates
    refine ⟨hnested', ?_, ?_, fun _ => hqueue'⟩
    · rw [hupdates', hupdates, hrest]
      rfl
    · simp [hflushing', hrest]
  | call rest hstack hstack' hupdates' hflushing' =>
    refine ⟨?_, ?_, ?_, ?_⟩
    · rw [hstack']
      exact hnested.push (by simp [hstack]) (by simp)
    · rw [hupdates', hupdates, hstack']
      simp
    · rw [hflushing', hflushing, hstack']
      simp
    · simp [hstack']
  | back hstack hupdates' hflushing' =>
    obtain ⟨hnested', hlast, _⟩ := (hstack ▸ hnested).pop
    refine ⟨hnested', ?_, ?_, ?_⟩
    · rw [hupdates', hupdates, hstack]
      simp
    · rw [hflushing', hflushing, hstack]
      simp
    · intro hempty
      exact absurd rfl (hlast hempty)
  | stay hnonempty hstack hupdates' hflushing' =>
    refine ⟨?_, ?_, ?_, ?_⟩
    · rw [hstack]
      exact hnested
    · rw [hupdates', hupdates, hstack]
    · rw [hflushing', hflushing, hstack]
    · intro hempty
      exact absurd (hstack ▸ hempty) hnonempty

/-- Batches of notifications, each followed by the one pass that serves it. -/
inductive Batched : List TopicEvent → Prop
  | nil : Batched []
  | pass {events : List TopicEvent} (n : ℕ) (h : Batched events) :
      Batched (events ++ List.replicate (n + 1) .notify ++ [.pass])

namespace AppRun

/-- The events of a topic. -/
def events (s : AppRun) (t : Topic) : List TopicEvent :=
  (s.trace.filter (·.1 = t)).map Prod.snd

theorem events_of_trace {s s' : AppRun} {u : Topic} {event : TopicEvent}
    (htrace : s'.trace = s.trace ++ [(u, event)]) (t : Topic) :
    s'.events t = s.events t ++ if u = t then [event] else [] := by
  by_cases h : u = t
  · simp [events, htrace, h]
  · simp [events, htrace, h]

/-- The state of a topic: its effect is queued once if it is pending and not at all
otherwise, and the notifications since the last pass are those that wait for this effect. -/
structure Waiting (s : AppRun) (t : Topic) : Prop where
  queued : s.app.pendingEffects.count t.effect = if s.app.pending t then 1 else 0
  batched : ∃ past n, Batched past ∧ s.events t = past ++ List.replicate n .notify ∧
    (0 < n ↔ s.app.pending t)

/-- A step that does not concern the topic. -/
theorem Waiting.frame {s s' : AppRun} {t : Topic} (h : Waiting s t)
    (hcount : s'.app.pendingEffects.count t.effect = s.app.pendingEffects.count t.effect)
    (hpending : s'.app.pending t ↔ s.app.pending t) (hevents : s'.events t = s.events t) :
    Waiting s' t := by
  obtain ⟨hqueued, past, n, hpast, hwaiting, hn⟩ := h
  constructor
  · simp only [hcount, hqueued, hpending]
  · refine ⟨past, n, hpast, ?_, ?_⟩
    · rw [hevents, hwaiting]
    · rw [hpending, hn]

/-- A notification joins those that wait. -/
theorem Waiting.request {s s' : AppRun} {t : Topic} (h : Waiting s t)
    (hqueue : s'.app.pendingEffects =
      if s.app.pending t then s.app.pendingEffects else s.app.pendingEffects ++ [t.effect])
    (hpending : s'.app.pending t) (hevents : s'.events t = s.events t ++ [.notify]) :
    Waiting s' t := by
  obtain ⟨hqueued, past, n, hpast, hwaiting, hn⟩ := h
  constructor
  · rw [hqueue, if_pos hpending]
    split_ifs with ht
    · rw [hqueued, if_pos ht]
    · rw [List.count_append, hqueued, if_neg ht]
      simp
  · refine ⟨past, n + 1, hpast, ?_, ?_⟩
    · rw [hevents, hwaiting, List.replicate_succ']
      simp
    · simp [hpending]

/-- The one queued effect serves all notifications that wait. -/
theorem Waiting.pass {s s' : AppRun} {t : Topic} (h : Waiting s t)
    (hqueue : s.app.pendingEffects = t.effect :: s'.app.pendingEffects)
    (hpending : ¬s'.app.pending t) (hevents : s'.events t = s.events t ++ [.pass]) :
    Waiting s' t := by
  obtain ⟨hqueued, past, n, hpast, hwaiting, hn⟩ := h
  rw [hqueue, List.count_cons_self] at hqueued
  have ht : s.app.pending t := by
    by_contra ht
    rw [if_neg ht] at hqueued
    omega
  rw [if_pos ht] at hqueued
  have hpos : 0 < n := hn.mpr ht
  obtain ⟨m, rfl⟩ : ∃ m, n = m + 1 := ⟨n - 1, by omega⟩
  constructor
  · rw [if_neg hpending]
    omega
  · refine ⟨_, 0, hpast.pass m, ?_, by simp [hpending]⟩
    rw [hevents, hwaiting]
    simp

theorem Waiting.step {s s' : AppRun} {a : AppAction} {t : Topic} (h : Waiting s t)
    (hserved : Served s a s') : Waiting s' t := by
  cases hserved with
  | quiet more hsilent hqueue hpending htrace _ =>
    apply h.frame
    · rw [hqueue, List.count_append, List.count_eq_zero_of_not_mem (hsilent t), Nat.add_zero]
    · exact hpending t
    · rw [events, htrace, ← events]
  | request u hqueue hpending htrace _ =>
    by_cases heq : u = t
    · subst heq
      apply h.request hqueue ((hpending u).mpr (Or.inl rfl))
      rw [events_of_trace htrace, if_pos rfl]
    · have hne : u.effect ≠ t.effect := fun h => heq (Topic.effect_inj.mp h)
      apply h.frame
      · rw [hqueue]
        split_ifs
        · rfl
        · simp [hne]
      · simp [hpending t, Ne.symm heq]
      · rw [events_of_trace htrace, if_neg heq, List.append_nil]
  | pass u hqueue hpending htrace =>
    by_cases heq : u = t
    · subst heq
      apply h.pass hqueue fun hu => ((hpending u).mp hu).1 rfl
      rw [events_of_trace htrace, if_pos rfl]
    · have hne : u.effect ≠ t.effect := fun h => heq (Topic.effect_inj.mp h)
      apply h.frame
      · rw [hqueue, List.count_cons_of_ne hne]
      · simp [hpending t, Ne.symm heq]
      · rw [events_of_trace htrace, if_neg heq, List.append_nil]
  | apply effect hsilent hqueue hpending htrace =>
    apply h.frame
    · rw [hqueue, List.count_cons_of_ne (hsilent t).symm]
    · exact hpending t
    · rw [events, htrace, ← events]

/-- The topic had its pass since a state in which its effect was queued, or the effect has
come closer to the front of the queue with each step of the flush loop. -/
structure Nearing (s : AppRun) (t : Topic) (actions : List AppAction) (s' : AppRun) : Prop where
  nearing : ∃ later, s'.events t = s.events t ++ later ∧ (.pass ∈ later ∨
    ∃ ahead behind, s'.app.pendingEffects = ahead ++ t.effect :: behind ∧ t.effect ∉ ahead ∧
      ahead.length + actions.count .flushEffect ≤ s.app.pendingEffects.idxOf t.effect)

theorem Nearing.step {s s' s'' : AppRun} {t : Topic} {actions : List AppAction} {a : AppAction}
    (h : Nearing s t actions s') (hserved : Served s' a s'') :
    Nearing s t (actions ++ [a]) s'' := by
  obtain ⟨later, hevents, hlater⟩ := h
  obtain ⟨more, hmore⟩ : ∃ more, s''.events t = s'.events t ++ more := by
    cases hserved with
    | quiet _ _ _ _ htrace _ => exact ⟨[], by rw [events, htrace, ← events, List.append_nil]⟩
    | request u _ _ htrace _ => exact ⟨_, events_of_trace htrace t⟩
    | pass u _ _ htrace => exact ⟨_, events_of_trace htrace t⟩
    | apply _ _ _ _ htrace => exact ⟨[], by rw [events, htrace, ← events, List.append_nil]⟩
  refine ⟨later ++ more, by rw [hmore, hevents, List.append_assoc], ?_⟩
  obtain hpassed | ⟨ahead, behind, hqueue', hnot, hcount⟩ := hlater
  · exact Or.inl (List.mem_append_left _ hpassed)
  have hidle : ∀ tail, a ≠ .flushEffect → s''.app.pendingEffects = s'.app.pendingEffects ++ tail →
      ∃ ahead behind, s''.app.pendingEffects = ahead ++ t.effect :: behind ∧ t.effect ∉ ahead ∧
        ahead.length + (actions ++ [a]).count .flushEffect ≤
          s.app.pendingEffects.idxOf t.effect := by
    intro tail ha htail
    refine ⟨ahead, behind ++ tail, by simp [htail, hqueue'], hnot, ?_⟩
    simpa [ha] using hcount
  have hpop : ∀ effect, s'.app.pendingEffects = effect :: s''.app.pendingEffects →
      effect ≠ t.effect →
      ∃ ahead behind, s''.app.pendingEffects = ahead ++ t.effect :: behind ∧ t.effect ∉ ahead ∧
        ahead.length + (actions ++ [a]).count .flushEffect ≤
          s.app.pendingEffects.idxOf t.effect := by
    intro effect heffect hne
    rw [hqueue'] at heffect
    cases ahead with
    | nil => exact absurd (List.cons.inj heffect).1.symm hne
    | cons first ahead =>
      refine ⟨ahead, behind, (List.cons.inj heffect).2.symm, ?_, ?_⟩
      · exact fun hmem => hnot (List.mem_cons_of_mem _ hmem)
      · have hone : [a].count .flushEffect ≤ 1 := List.count_le_length
        rw [List.count_append]
        simp only [List.length_cons] at hcount
        omega
  cases hserved with
  | quiet tail _ htail _ _ hflush =>
    refine Or.inr (hidle tail ?_ htail)
    intro ha
    simp [hqueue'] at hflush
    exact hflush ha
  | request u htail _ _ ha =>
    right
    split_ifs at htail with hu
    · exact hidle [] ha (by simp [htail])
    · exact hidle [u.effect] ha htail
  | pass u heffect _ htrace =>
    by_cases heq : u = t
    · left
      rw [events_of_trace htrace, if_pos heq] at hmore
      rw [← List.append_cancel_left hmore]
      simp
    · exact Or.inr (hpop _ heffect fun h => heq (Topic.effect_inj.mp h))
  | apply effect hsilent heffect _ _ => exact Or.inr (hpop _ heffect (hsilent t).symm)

/-- Notifications are coalesced into passes and none is lost. -/
structure Coalesced (s : AppRun) : Prop where
  waiting : ∀ t, Waiting s t
  /-- As many steps of the flush loop as effects are queued up to the topic's lead to a pass. -/
  served : ∀ t actions s', s.app.pending t → Run step NotDrawing s actions s' →
    s.app.pendingEffects.idxOf t.effect < actions.count .flushEffect →
    ∃ later, s'.events t = s.events t ++ later ∧ .pass ∈ later
  /-- The outermost update returned. -/
  returned : s.stack = [] → s.app.pendingEffects = [] ∧ s.app.pendingNotifications = ∅ ∧
    s.app.pendingGlobalNotifications = ∅ ∧ ∀ t, Batched (s.events t)

theorem Waiting.served {s s' : AppRun} {t : Topic} {actions : List AppAction} (h : Waiting s t)
    (hpending : s.app.pending t) (run : Run AppRun.step NotDrawing s actions s')
    (hsteps : s.app.pendingEffects.idxOf t.effect < actions.count .flushEffect) :
    ∃ later, s'.events t = s.events t ++ later ∧ .pass ∈ later := by
  have hmem : t.effect ∈ s.app.pendingEffects := by
    apply List.count_pos_iff.mp
    rw [h.queued, if_pos hpending]
    exact Nat.one_pos
  have hinit : Nearing s t [] s := by
    obtain ⟨ahead, behind, hqueue, hnot⟩ := List.eq_append_cons_of_mem hmem
    refine ⟨[], by simp, Or.inr ⟨ahead, behind, hqueue, hnot, ?_⟩⟩
    rw [hqueue, List.idxOf_append_of_notMem hnot]
    simp
  obtain ⟨later, hevents, hlater⟩ := run.invariant (Nearing s t) hinit
    fun actions s' a s'' h hguard hstep => h.step (served_of_step hguard hstep)
  obtain hpassed | ⟨ahead, behind, _, _, hcount⟩ := hlater
  · exact ⟨later, hevents, hpassed⟩
  · omega

theorem Waiting.idle {s : AppRun} {t : Topic} (h : Waiting s t)
    (hqueue : s.app.pendingEffects = []) : ¬s.app.pending t ∧ Batched (s.events t) := by
  obtain ⟨hqueued, past, n, hpast, hevents, hn⟩ := h
  have hnot : ¬s.app.pending t := by
    intro ht
    simp [hqueue, ht] at hqueued
  obtain rfl : n = 0 := by
    by_contra hne
    exact hnot (hn.mp (Nat.pos_of_ne_zero hne))
  refine ⟨hnot, ?_⟩
  rw [hevents]
  simpa using hpast

/-- Over every run outside of drawing, notifications are coalesced into passes. -/
theorem coalesced_of_run (invalidators : WindowId → WindowInvalidator)
    {actions : List AppAction} {s : AppRun}
    (run : Run step NotDrawing (new invalidators) actions s) : Coalesced s := by
  have hinv : WellNested s ∧ ∀ t, Waiting s t := by
    apply run.invariant fun _ s => WellNested s ∧ ∀ t, Waiting s t
    · refine ⟨⟨Or.inl rfl, rfl, by simp [new, App.new], fun _ => rfl⟩, ?_⟩
      intro t
      refine ⟨?_, [], 0, .nil, rfl, ?_⟩
      · cases t <;> simp [new, App.new, App.pending]
      · cases t <;> simp [new, App.new, App.pending]
    · rintro actions s a s' ⟨hnested, hwaiting⟩ hguard hstep
      refine ⟨hnested.step hguard hstep, ?_⟩
      intro t
      exact (hwaiting t).step (served_of_step hguard hstep)
  obtain ⟨hnested, hwaiting⟩ := hinv
  refine ⟨hwaiting, fun t actions s' ht run => (hwaiting t).served ht run, ?_⟩
  intro hempty
  have hqueue := hnested.queue hempty
  refine ⟨hqueue, ?_, ?_, fun t => ((hwaiting t).idle hqueue).2⟩
  · exact Finset.eq_empty_of_forall_notMem fun id => ((hwaiting (.entity id)).idle hqueue).1
  · exact Finset.eq_empty_of_forall_notMem fun g => ((hwaiting (.global g)).idle hqueue).1

/-- An observer that notifies its own entity gets a second pass for it. -/
def observerNotifies : List AppAction :=
  [.startUpdate, .notify ⟨0, 1⟩, .notify ⟨0, 1⟩, .finishUpdate, .flushEffect, .notify ⟨0, 1⟩,
    .returnCallback, .flushEffect, .returnCallback, .flushEffect]

theorem coalesced_of_run_observerNotifies :
    ∃ s, Run step NotDrawing (new fun _ => ⟨false, .none, ∅⟩) observerNotifies s ∧
      Coalesced s ∧ s.events (.entity ⟨0, 1⟩) = [.notify, .notify, .pass, .notify, .pass] := by
  have run := @Run.nil _ _ step NotDrawing (new fun _ => ⟨false, .none, ∅⟩)
    |>.snoc .startUpdate (fun _ _ => rfl) rfl
    |>.snoc (.notify ⟨0, 1⟩) (fun _ _ => rfl) rfl
    |>.snoc (.notify ⟨0, 1⟩) (fun _ _ => rfl) rfl
    |>.snoc .finishUpdate (fun _ _ => rfl) rfl
    |>.snoc .flushEffect (fun _ _ => rfl) rfl
    |>.snoc (.notify ⟨0, 1⟩) (fun _ _ => rfl) rfl
    |>.snoc .returnCallback (fun _ _ => rfl) rfl
    |>.snoc .flushEffect (fun _ _ => rfl) rfl
    |>.snoc .returnCallback (fun _ _ => rfl) rfl
    |>.snoc .flushEffect (fun _ _ => rfl) rfl
  exact ⟨_, run, coalesced_of_run _ run, by decide⟩

end AppRun

end Lucie
