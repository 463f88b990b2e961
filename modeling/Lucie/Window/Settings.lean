import Lucie.Foundation.Register
import Lucie.Window.Prepaint

/-!
# What a prepaint sets

The calls of a prepaint that visits no cached view, seen as settings of focus ids and of view
ids on dispatch nodes. They are determined by the calls, the active node, the number of
nodes and the view stack.
-/

set_option autoImplicit false

namespace Lucie.Drawing

open Foundation.Register

variable {D K : Type}

namespace Prepaint

mutual

/-- The call visits no cached view. -/
def cacheFree : Prepaint D K → Bool
  | element _ children => cacheFreeAll children
  | cachedView _ _ _ => false
  | _ => true

/-- The calls visit no cached view. -/
def cacheFreeAll : List (Prepaint D K) → Bool
  | [] => true
  | call :: calls => cacheFree call && cacheFreeAll calls

end

mutual

/-- The number of nodes that a call pushes. -/
def created : Prepaint D K → ℕ
  | element _ children => createdAll children + 1
  | _ => 0

/-- The number of nodes that calls push. -/
def createdAll : List (Prepaint D K) → ℕ
  | [] => 0
  | call :: calls => created call + createdAll calls

end

mutual

/-- The focus handles that a call sets. -/
def handles : Prepaint D K → List FocusId
  | setFocusHandle id => [id]
  | element _ children => handlesAll children
  | _ => []

/-- The focus handles that calls set. -/
def handlesAll : List (Prepaint D K) → List FocusId
  | [] => []
  | call :: calls => handles call ++ handlesAll calls

end

mutual

/-- The focus ids that a call sets, each with its node; the first node that it pushes has
the number `next`. -/
def focusSettings : Prepaint D K → Option ℕ → ℕ → List (FocusId × ℕ)
  | setFocusHandle id, active, _ => active.toList.map (id, ·)
  | element _ children, _, next => focusSettingsAll children (some next) (next + 1)
  | _, _, _ => []

/-- The focus ids that calls set, each with its node. -/
def focusSettingsAll : List (Prepaint D K) → Option ℕ → ℕ → List (FocusId × ℕ)
  | [], _, _ => []
  | call :: calls, active, next =>
    focusSettings call active next ++ focusSettingsAll calls active (next + created call)

end

/-- A view id that is on top of the view stack already is not set. -/
def viewSetting (id : EntityId) (active : Option ℕ) (stack : List EntityId) :
    List (EntityId × ℕ) × List EntityId :=
  if stack.head? = some id then ([], stack)
  else active.elim ([], stack) fun node => ([(id, node)], id :: stack)

/-- Closing a node pops one view id if some was set on it. -/
def closeView (node : ℕ) (settings : List (EntityId × ℕ)) (stack : List EntityId) :
    List EntityId :=
  if (lastId node settings).isSome then stack.tail else stack

mutual

/-- The view ids that a call sets, each with its node, and the view stack afterwards. -/
def viewSettings : Prepaint D K → Option ℕ → ℕ → List EntityId →
    List (EntityId × ℕ) × List EntityId
  | setViewId id, active, _, stack => viewSetting id active stack
  | element _ children, _, next, stack =>
    let inner := viewSettingsAll children (some next) (next + 1) stack
    (inner.1, closeView next inner.1 inner.2)
  | _, _, _, stack => ([], stack)

/-- The view ids that calls set, each with its node, and the view stack afterwards. -/
def viewSettingsAll : List (Prepaint D K) → Option ℕ → ℕ → List EntityId →
    List (EntityId × ℕ) × List EntityId
  | [], _, _, stack => ([], stack)
  | call :: calls, active, next, stack =>
    let first := viewSettings call active next stack
    let rest := viewSettingsAll calls active (next + created call) first.2
    (first.1 ++ rest.1, rest.2)

end

end Prepaint

/-! ## The view stack -/

section ViewStack

/-- The settings on the active node. -/
def ownSettings (active : Option ℕ) (settings : List (EntityId × ℕ)) : List (EntityId × ℕ) :=
  settings.filter fun setting => active = some setting.2

variable {active : Option ℕ} {next mid last : ℕ} {stack middle after : List EntityId}
  {settings later : List (EntityId × ℕ)} {setting : EntityId × ℕ}

theorem mem_ownSettings :
    setting ∈ ownSettings active settings ↔ setting ∈ settings ∧ active = some setting.2 := by
  rw [ownSettings, List.mem_filter, decide_eq_true_iff]

theorem ownSettings_append :
    ownSettings active (settings ++ later) =
      ownSettings active settings ++ ownSettings active later :=
  List.filter_append ..

/-- No setting is on the active node if all of them are on new ones. -/
theorem ownSettings_eq_nil (hactive : ∀ node, active = some node → node < next)
    (hnew : ∀ setting ∈ settings, next ≤ setting.2) : ownSettings active settings = [] := by
  rw [List.eq_nil_iff_forall_not_mem]
  intro setting hmem
  obtain ⟨hmem, hown⟩ := mem_ownSettings.mp hmem
  have := hactive _ hown
  have := hnew _ hmem
  omega

/-- There is at most one setting on a node if no node is set twice. -/
theorem length_ownSettings_le_one (h : (settings.map Prod.snd).Nodup) :
    (ownSettings active settings).length ≤ 1 := by
  induction settings with
  | nil => simp [ownSettings]
  | cons first rest ih =>
    obtain ⟨hfirst, hrest⟩ := List.nodup_cons.mp h
    have hcons : ownSettings active (first :: rest) =
        ownSettings active [first] ++ ownSettings active rest :=
      @ownSettings_append _ [first] rest
    have hone : (ownSettings active [first]).length ≤ 1 := List.length_filter_le _ _
    rw [hcons, List.length_append]
    by_cases hactive : active = some first.2
    · have hnone : ownSettings active rest = [] := by
        rw [List.eq_nil_iff_forall_not_mem]
        intro setting hmem
        obtain ⟨hmem, hown⟩ := mem_ownSettings.mp hmem
        apply hfirst
        have : first.2 = setting.2 := Option.some.inj (hactive.symm.trans hown)
        exact List.mem_map.mpr ⟨setting, hmem, this.symm⟩
      rw [hnone]
      exact hone
    · have hnone : ownSettings active [first] = [] := by simp [ownSettings, hactive]
      rw [hnone]
      simpa using ih hrest

/-- A node shows an id exactly if it is set. -/
theorem lastId_isSome_iff :
    (lastId next settings).isSome ↔ 0 < (ownSettings (some next) settings).length := by
  constructor
  · intro hsome
    obtain ⟨id, hid⟩ := Option.isSome_iff_exists.mp hsome
    exact List.length_pos_of_mem (mem_ownSettings.mpr ⟨lastId_mem hid, rfl⟩)
  · intro hpos
    obtain ⟨setting, hmem⟩ := List.exists_mem_of_length_pos hpos
    obtain ⟨hset, hown⟩ := mem_ownSettings.mp hmem
    obtain ⟨rfl⟩ := hown
    exact lastId_isSome hset

/-- What settings of view ids on the active node and on new nodes do to the view stack: it
grows by the settings on the active node, and by what is left of the new nodes. -/
structure Stacked (active : Option ℕ) (next last : ℕ) (stack : List EntityId)
    (settings : List (EntityId × ℕ)) (after : List EntityId) : Prop where
  range : ∀ setting ∈ settings,
    active = some setting.2 ∨ next ≤ setting.2 ∧ setting.2 < last
  grows : ∃ extra, after.length = stack.length + (ownSettings active settings).length + extra ∧
    (extra = 0 → (ownSettings active settings).length ≤ 1 → (settings.map Prod.snd).Nodup)
  tidy : (settings.map Prod.snd).Nodup →
    after = (ownSettings active settings).map Prod.fst ++ stack

namespace Stacked

theorem nil : Stacked active next last stack [] stack where
  range := by simp
  grows := ⟨0, by simp [ownSettings], by simp⟩
  tidy := by simp [ownSettings]

theorem viewSetting (id : EntityId) :
    Stacked active next next stack (Prepaint.viewSetting id active stack).1
      (Prepaint.viewSetting id active stack).2 := by
  unfold Prepaint.viewSetting
  split_ifs
  · exact nil
  · cases active with
    | none => exact nil
    | some node =>
      exact {
        range := by simp
        grows := ⟨0, by simp [ownSettings], by simp⟩
        tidy := by simp [ownSettings] }

theorem append (h : Stacked active next mid stack settings middle)
    (hlater : Stacked active mid last middle later after)
    (hactive : ∀ node, active = some node → node < next)
    (hnext : next ≤ mid) (hmid : mid ≤ last) :
    Stacked active next last stack (settings ++ later) after where
  range := by
    intro setting hmem
    obtain hmem | hmem := List.mem_append.mp hmem
    · exact (h.range setting hmem).imp_right fun hrange => by omega
    · exact (hlater.range setting hmem).imp_right fun hrange => by omega
  grows := by
    obtain ⟨extra, hlength, hnodup⟩ := h.grows
    obtain ⟨extra', hlength', hnodup'⟩ := hlater.grows
    rw [ownSettings_append, List.length_append]
    refine ⟨extra + extra', by omega, ?_⟩
    intro hextra hone
    rw [List.map_append, List.nodup_append]
    refine ⟨hnodup (by omega) (by omega), hnodup' (by omega) (by omega), ?_⟩
    intro a ha b hb hab
    obtain ⟨s, hs, rfl⟩ := List.mem_map.mp ha
    obtain ⟨s', hs', rfl⟩ := List.mem_map.mp hb
    -- the two parts share no node but the active one
    obtain hr | hr := h.range s hs <;> obtain hr' | hr' := hlater.range s' hs'
    · have hpos := List.length_pos_of_mem (mem_ownSettings.mpr ⟨hs, hr⟩)
      have hpos' := List.length_pos_of_mem (mem_ownSettings.mpr ⟨hs', hr'⟩)
      omega
    · have := hactive _ hr
      omega
    · have := hactive _ hr'
      omega
    · omega
  tidy := by
    intro hnodup
    rw [List.map_append, List.nodup_append] at hnodup
    rw [hlater.tidy hnodup.2.1, h.tidy hnodup.1, ownSettings_append, List.map_append]
    have hempty : ownSettings active settings = [] ∨ ownSettings active later = [] := by
      by_contra hne
      rw [not_or] at hne
      obtain ⟨s, hs⟩ := List.exists_mem_of_ne_nil _ hne.1
      obtain ⟨s', hs'⟩ := List.exists_mem_of_ne_nil _ hne.2
      obtain ⟨hs, hown⟩ := mem_ownSettings.mp hs
      obtain ⟨hs', hown'⟩ := mem_ownSettings.mp hs'
      exact hnodup.2.2 _ (List.mem_map.mpr ⟨s, hs, rfl⟩) _ (List.mem_map.mpr ⟨s', hs', rfl⟩)
        (Option.some.inj (hown.symm.trans hown'))
    obtain hempty | hempty := hempty <;> simp [hempty]

theorem close (h : Stacked (some next) (next + 1) last stack settings after)
    (hactive : ∀ node, active = some node → node < next) (hlast : next < last) :
    Stacked active next last stack settings (Prepaint.closeView next settings after) := by
  have hnew : ∀ setting ∈ settings, next ≤ setting.2 := by
    intro setting hmem
    obtain hown | hrange := h.range setting hmem
    · exact (Option.some.inj hown).le
    · omega
  have hnone := ownSettings_eq_nil hactive hnew
  refine ⟨?_, ?_, ?_⟩
  · intro setting hmem
    obtain hown | hrange := h.range setting hmem
    · obtain ⟨rfl⟩ := hown
      exact .inr ⟨le_rfl, hlast⟩
    · exact .inr ⟨by omega, hrange.2⟩
  · obtain ⟨extra, hlength, hnodup⟩ := h.grows
    rw [hnone, List.length_nil]
    unfold Prepaint.closeView
    split_ifs with hset
    · rw [lastId_isSome_iff] at hset
      refine ⟨extra + ((ownSettings (some next) settings).length - 1), ?_, ?_⟩
      · rw [List.length_tail]
        omega
      · intro hextra _
        exact hnodup (by omega) (by omega)
    · rw [lastId_isSome_iff] at hset
      exact ⟨extra, by omega, fun hextra _ => hnodup hextra (by omega)⟩
  · intro hnodup
    have hone := @length_ownSettings_le_one (some next) _ hnodup
    rw [hnone]
    unfold Prepaint.closeView
    rw [h.tidy hnodup]
    split_ifs with hset
    · rw [lastId_isSome_iff] at hset
      obtain ⟨setting, hsetting⟩ := List.length_eq_one_iff.mp (Nat.le_antisymm hone hset)
      rw [hsetting]
      rfl
    · rw [lastId_isSome_iff] at hset
      have hnil : ownSettings (some next) settings = [] :=
        List.eq_nil_of_length_eq_zero (by omega)
      rw [hnil]

end Stacked

theorem viewSettings_stacked :
    (∀ (call : Prepaint D K) (active : Option ℕ) (next : ℕ) (stack : List EntityId),
      (∀ node, active = some node → node < next) →
      Stacked active next (next + call.created) stack (call.viewSettings active next stack).1
        (call.viewSettings active next stack).2) ∧
    ∀ (calls : List (Prepaint D K)) (active : Option ℕ) (next : ℕ) (stack : List EntityId),
      (∀ node, active = some node → node < next) →
      Stacked active next (next + Prepaint.createdAll calls) stack
        (Prepaint.viewSettingsAll calls active next stack).1
        (Prepaint.viewSettingsAll calls active next stack).2 := by
  apply Prepaint.induction
  · intro data active next stack _
    exact .nil
  · intro tooltip active next stack _
    exact .nil
  · intro content inherited priority active next stack _
    exact .nil
  · intro id active next stack _
    exact .nil
  · intro id active next stack _
    exact .viewSetting id
  · intro id children ih active next stack hactive
    have hinner := ih (some next) (next + 1) stack (by simp)
    rw [Prepaint.viewSettings, Prepaint.created]
    rw [show next + 1 + Prepaint.createdAll children =
      next + (Prepaint.createdAll children + 1) by omega] at hinner
    exact hinner.close hactive (by omega)
  · intro entity cacheKey children _ active next stack _
    exact .nil
  · intro active next stack _
    exact .nil
  · intro call calls ih ihs active next stack hactive
    rw [Prepaint.viewSettingsAll, Prepaint.createdAll]
    have hlater := ihs active (next + call.created) (call.viewSettings active next stack).2
      (fun node h => by have := hactive node h; omega)
    rw [show next + call.created + Prepaint.createdAll calls =
      next + (call.created + Prepaint.createdAll calls) by omega] at hlater
    exact (ih active next stack hactive).append hlater hactive (by omega) (by omega)

/-- The view stack ends as it began exactly if only new nodes are set, each at most once. -/
theorem viewStack_eq_iff (calls : List (Prepaint D K))
    (hactive : ∀ node, active = some node → node < next) :
    (Prepaint.viewSettingsAll calls active next stack).2 = stack ↔
      ((Prepaint.viewSettingsAll calls active next stack).1.map Prod.snd).Nodup ∧
      ∀ setting ∈ (Prepaint.viewSettingsAll calls active next stack).1, next ≤ setting.2 := by
  have h := viewSettings_stacked.2 calls active next stack hactive
  constructor
  · intro heq
    obtain ⟨extra, hlength, hnodup⟩ := h.grows
    rw [heq] at hlength
    refine ⟨hnodup (by omega) (by omega), ?_⟩
    intro setting hmem
    obtain hown | hnew := h.range setting hmem
    · have := List.length_pos_of_mem (mem_ownSettings.mpr ⟨hmem, hown⟩)
      omega
    · exact hnew.1
  · rintro ⟨hnodup, hnew⟩
    rw [h.tidy hnodup, ownSettings_eq_nil hactive hnew]
    rfl

end ViewStack

end Lucie.Drawing
