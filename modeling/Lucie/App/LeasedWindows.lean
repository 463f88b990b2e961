import Lucie.App.LeasedEntities

/-!
# Windows on the stack

A window without a value in the map is on the stack, once, and `window_update_stack` lists the
windows whose updates are under way. When effects are flushed all windows are off the stack, so the
updates that the flush expects to succeed fail only for windows that were closed.
-/

set_option autoImplicit false

namespace Lucie

open Foundation

variable {E : Type}

/-- The windows of an app next to what its updates have on the stack. -/
structure WindowTable (windows : WindowMap) (windowHandles : Finset WindowId)
    (windowUpdateStack : List WindowId) (opened : Finset WindowId) (closed : List WindowId)
    (leases : List (UpdateLease E)) : Prop where
  updating : windowUpdateStack = (leases.filterMap UpdateLease.updating?).reverse
  keys : ∀ id, id ∈ windows.keys ↔
    windows.stored id ≠ none ∨ id ∈ leases.filterMap UpdateLease.window?
  free : ∀ id ∈ leases.filterMap UpdateLease.window?, windows.stored id = none
  nodup : (leases.filterMap UpdateLease.window?).Nodup
  handles : ∀ id, id ∈ windowHandles ↔
    id ∈ windows.keys ∧ id ∉ leases.filterMap UpdateLease.opening?
  issued : ∀ id, id ∈ windows.keys ∨ id ∈ closed → id ∈ opened
  gone : ∀ id ∈ closed, id ∉ windows.keys
  once : closed.Nodup

namespace WindowTable

variable {windows : WindowMap} {windowHandles opened : Finset WindowId}
  {windowUpdateStack closed : List WindowId} {leases leases' : List (UpdateLease E)}
  {id : WindowId} {removed building : Bool}

theorem new : WindowTable ⟨∅, fun _ => none⟩ ∅ [] ∅ [] ([] : List (UpdateLease E)) := by
  constructor <;> simp

/-- Only the windows on the stack matter. -/
theorem congr (h : WindowTable windows windowHandles windowUpdateStack opened closed leases)
    (hwindow : leases'.filterMap UpdateLease.window? = leases.filterMap UpdateLease.window?)
    (hupdating : leases'.filterMap UpdateLease.updating? =
      leases.filterMap UpdateLease.updating?)
    (hopening : leases'.filterMap UpdateLease.opening? =
      leases.filterMap UpdateLease.opening?) :
    WindowTable windows windowHandles windowUpdateStack opened closed leases' := by
  obtain ⟨h₁, h₂, h₃, h₄, h₅, h₆, h₇, h₈⟩ := h
  exact ⟨by rwa [hupdating], by rwa [hwindow], by rwa [hwindow], by rwa [hwindow],
    by rwa [hopening], h₆, h₇, h₈⟩

/-- A window that has no handle yet is on the stack. -/
theorem mem_window_of_opening (hmem : id ∈ leases.filterMap UpdateLease.opening?) :
    id ∈ leases.filterMap UpdateLease.window? := by
  obtain ⟨lease, hlease, hid⟩ := List.mem_filterMap.mp hmem
  refine List.mem_filterMap.mpr ⟨lease, hlease, ?_⟩
  cases lease <;> first | exact hid | cases hid

/-- A window is moved to the stack. -/
theorem take (h : WindowTable windows windowHandles windowUpdateStack opened closed leases)
    (hstored : windows.stored id = some removed) :
    WindowTable { windows with stored := Function.update windows.stored id none } windowHandles
      (windowUpdateStack ++ [id]) opened closed (.window id removed :: leases) := by
  have hkey : id ∈ windows.keys := (h.keys id).mpr (.inl (by simp [hstored]))
  have hnot : id ∉ leases.filterMap UpdateLease.window? := fun hmem => by
    rw [h.free id hmem] at hstored
    cases hstored
  refine ⟨?_, fun other => ?_, fun other hmem => ?_, List.nodup_cons.mpr ⟨hnot, h.nodup⟩,
    h.handles, h.issued, h.gone, h.once⟩
  · rw [h.updating]
    exact (List.reverse_cons).symm
  · by_cases heq : other = id
    · subst heq
      exact iff_of_true hkey (.inr List.mem_cons_self)
    · have hmem : other ∈ id :: leases.filterMap UpdateLease.window? ↔
          other ∈ leases.filterMap UpdateLease.window? := by simp [heq]
      simp only [Function.update_of_ne heq]
      exact (h.keys other).trans (or_congr_right hmem.symm)
  · by_cases heq : other = id
    · exact heq ▸ Function.update_self _ _ _
    · rcases List.mem_cons.mp hmem with rfl | hmem
      · exact absurd rfl heq
      · exact (Function.update_of_ne heq _ _).trans (h.free other hmem)

/-- The window of an update is in the map of windows and has no value there. -/
theorem key_of_window
    (h : WindowTable windows windowHandles windowUpdateStack opened closed leases)
    (hid : id ∈ leases.filterMap UpdateLease.window?) : id ∈ windows.keys :=
  (h.keys id).mpr (.inr hid)

/-- A window is put back. -/
theorem putBack (h : WindowTable windows windowHandles windowUpdateStack opened closed
      (.window id removed :: leases)) :
    WindowTable { windows with stored := Function.update windows.stored id (some removed) }
      windowHandles windowUpdateStack.dropLast opened closed leases := by
  obtain ⟨hnot, hnodup⟩ := List.nodup_cons.mp h.nodup
  have hkey : id ∈ windows.keys := h.key_of_window List.mem_cons_self
  refine ⟨?_, fun other => ?_, fun other hmem => ?_, hnodup, h.handles, h.issued, h.gone,
    h.once⟩
  · rw [h.updating]
    exact (congrArg List.dropLast List.reverse_cons).trans (List.dropLast_concat)
  · by_cases heq : other = id
    · subst heq
      exact iff_of_true hkey (.inl (by simp))
    · have hmem : other ∈ id :: leases.filterMap UpdateLease.window? ↔
          other ∈ leases.filterMap UpdateLease.window? := by simp [heq]
      simp only [Function.update_of_ne heq]
      exact (h.keys other).trans (or_congr_right hmem)
  · have hne : other ≠ id := by
      rintro rfl
      exact hnot hmem
    exact (Function.update_of_ne hne _ _).trans (h.free other (List.mem_cons_of_mem _ hmem))

/-- A window that was removed is closed. -/
theorem close (h : WindowTable windows windowHandles windowUpdateStack opened closed
      (.window id removed :: leases)) :
    WindowTable ⟨windows.keys.erase id, Function.update windows.stored id none⟩
      (windowHandles.erase id) windowUpdateStack.dropLast opened (closed ++ [id])
      (.closing :: leases) := by
  obtain ⟨hnot, hnodup⟩ := List.nodup_cons.mp h.nodup
  have hkey : id ∈ windows.keys := h.key_of_window List.mem_cons_self
  refine ⟨?_, fun other => ?_, fun other hmem => ?_, hnodup, fun other => ?_, fun other hmem => ?_,
    fun other hmem => ?_, ?_⟩
  · rw [h.updating]
    exact (congrArg List.dropLast List.reverse_cons).trans (List.dropLast_concat)
  · by_cases heq : other = id
    · subst heq
      refine iff_of_false (Finset.notMem_erase _ _) ?_
      rw [not_or]
      exact ⟨by simp, hnot⟩
    · have hmem : other ∈ id :: leases.filterMap UpdateLease.window? ↔
          other ∈ leases.filterMap UpdateLease.window? := by simp [heq]
      simp only [Finset.mem_erase, ne_eq, heq, not_false_eq_true, true_and,
        Function.update_of_ne heq]
      exact (h.keys other).trans (or_congr_right hmem)
  · by_cases heq : other = id
    · exact heq ▸ Function.update_self _ _ _
    · exact (Function.update_of_ne heq _ _).trans (h.free other (List.mem_cons_of_mem _ hmem))
  · rw [Finset.mem_erase, Finset.mem_erase, h.handles, and_assoc]
    exact Iff.rfl
  · rw [Finset.mem_erase, List.mem_append, List.mem_singleton] at hmem
    refine h.issued other ?_
    rcases hmem with ⟨-, hmem⟩ | hmem | rfl
    · exact .inl hmem
    · exact .inr hmem
    · exact .inl hkey
  · rw [Finset.mem_erase, not_and]
    intro hne
    rcases List.mem_append.mp hmem with hmem | hmem
    · exact h.gone other hmem
    · exact absurd (List.mem_singleton.mp hmem) hne
  · refine List.nodup_append.mpr ⟨h.once, List.nodup_singleton id, ?_⟩
    rintro other hother _ hid rfl
    obtain rfl := List.mem_singleton.mp hid
    exact h.gone other hother hkey

/-- A new window is opened on the stack. -/
theorem openNew (h : WindowTable windows windowHandles windowUpdateStack opened closed leases)
    (hid : id ∉ opened) :
    WindowTable { windows with keys := insert id windows.keys } windowHandles
      (windowUpdateStack ++ [id]) (insert id opened) closed (.opening id false true :: leases) := by
  have hkey : id ∉ windows.keys := fun hmem => hid (h.issued id (.inl hmem))
  have hnot : id ∉ leases.filterMap UpdateLease.window? := fun hmem => hkey (h.key_of_window hmem)
  refine ⟨?_, fun other => ?_, fun other hmem => ?_, List.nodup_cons.mpr ⟨hnot, h.nodup⟩,
    fun other => ?_, fun other hmem => ?_, fun other hmem => ?_, h.once⟩
  · rw [h.updating]
    exact (List.reverse_cons).symm
  · have hmem : other ∈ id :: leases.filterMap UpdateLease.window? ↔
        other = id ∨ other ∈ leases.filterMap UpdateLease.window? := List.mem_cons
    rw [Finset.mem_insert, h.keys]
    exact or_left_comm.trans (or_congr_right hmem.symm)
  · rcases List.mem_cons.mp hmem with rfl | hmem
    · by_contra hstored
      exact hkey ((h.keys other).mpr (.inl hstored))
    · exact h.free other hmem
  · have hopening : other ∈ id :: leases.filterMap UpdateLease.opening? ↔
        other = id ∨ other ∈ leases.filterMap UpdateLease.opening? := List.mem_cons
    rw [h.handles, Finset.mem_insert]
    refine Iff.trans ?_ (and_congr_right' (not_congr hopening).symm)
    by_cases heq : other = id
    · subst heq
      simp [hkey]
    · simp [heq]
  · rw [Finset.mem_insert] at hmem ⊢
    rcases hmem with (heq | hmem) | hmem
    · exact .inl heq
    · exact .inr (h.issued other (.inl hmem))
    · exact .inr (h.issued other (.inr hmem))
  · rw [Finset.mem_insert, not_or]
    refine ⟨?_, h.gone other hmem⟩
    rintro rfl
    exact hid (h.issued other (.inr hmem))

/-- A window that could not be created was never in the map. -/
theorem openFailed (h : WindowTable windows windowHandles windowUpdateStack opened closed leases)
    (id : WindowId) :
    WindowTable windows windowHandles windowUpdateStack (insert id opened) closed leases :=
  ⟨h.updating, h.keys, h.free, h.nodup, h.handles,
    fun other hmem => Finset.mem_insert_of_mem (h.issued other hmem), h.gone, h.once⟩

/-- The root view of a window was built. -/
theorem finishRootView (h : WindowTable windows windowHandles windowUpdateStack opened closed
      (.opening id removed true :: leases)) :
    WindowTable windows windowHandles windowUpdateStack.dropLast opened closed
      (.opening id removed false :: leases) := by
  refine ⟨?_, h.keys, h.free, h.nodup, h.handles, h.issued, h.gone, h.once⟩
  rw [h.updating]
  exact (congrArg List.dropLast List.reverse_cons).trans (List.dropLast_concat)

/-- A new window is put into the map. -/
theorem finishOpen (h : WindowTable windows windowHandles windowUpdateStack opened closed
      (.opening id removed false :: leases)) :
    WindowTable { windows with stored := Function.update windows.stored id (some removed) }
      (insert id windowHandles) windowUpdateStack opened closed leases := by
  obtain ⟨hnot, hnodup⟩ := List.nodup_cons.mp h.nodup
  have hkey : id ∈ windows.keys := h.key_of_window List.mem_cons_self
  refine ⟨h.updating, fun other => ?_, fun other hmem => ?_, hnodup, fun other => ?_, h.issued,
    h.gone, h.once⟩
  · by_cases heq : other = id
    · subst heq
      exact iff_of_true hkey (.inl (by simp))
    · have hmem : other ∈ id :: leases.filterMap UpdateLease.window? ↔
          other ∈ leases.filterMap UpdateLease.window? := by simp [heq]
      simp only [Function.update_of_ne heq]
      exact (h.keys other).trans (or_congr_right hmem)
  · have hne : other ≠ id := by
      rintro rfl
      exact hnot hmem
    exact (Function.update_of_ne hne _ _).trans (h.free other (List.mem_cons_of_mem _ hmem))
  · rw [Finset.mem_insert, h.handles]
    by_cases heq : other = id
    · subst heq
      exact iff_of_true (.inl rfl) ⟨hkey, fun hmem => hnot (mem_window_of_opening hmem)⟩
    · have hopening : other ∈ id :: leases.filterMap UpdateLease.opening? ↔
          other ∈ leases.filterMap UpdateLease.opening? := by simp [heq]
      rw [or_iff_right heq]
      exact and_congr_right' (not_congr hopening)

/-- All windows go away while none is on the stack. -/
theorem shutdown (h : WindowTable windows windowHandles windowUpdateStack opened closed
      ([] : List (UpdateLease E))) :
    WindowTable ⟨∅, fun _ => none⟩ ∅ windowUpdateStack opened closed
      ([] : List (UpdateLease E)) := by
  refine ⟨h.updating, by simp, by simp, h.nodup, by simp, fun other hmem => ?_, by simp,
    h.once⟩
  rcases hmem with hmem | hmem
  · simp at hmem
  · exact h.issued other (.inr hmem)

end WindowTable

namespace LeasingApp

variable {s s' : LeasingApp E}

/-- The windows of an app fit the stack. -/
def Tabled (s : LeasingApp E) : Prop :=
  WindowTable s.windows s.windowHandles s.windowUpdateStack s.opened s.closed s.leases

theorem tabled_new : (new : LeasingApp E).Tabled := .new

theorem leases_cons {lease : UpdateLease E} {rest : List (AppFrame E)}
    (hframes : s.frames = .scope lease :: rest) :
    s.leases = lease :: rest.filterMap AppFrame.lease? := by
  rw [leases, hframes]
  rfl

/-- Without a window on the stack an update is as good as none. -/
theorem Tabled.addTop (h : s.Tabled) {lease : UpdateLease E} (hwindow : lease.window? = none)
    (hupdating : lease.updating? = none) (hopening : lease.opening? = none) :
    WindowTable s.windows s.windowHandles s.windowUpdateStack s.opened s.closed
      (lease :: s.leases) :=
  WindowTable.congr h (List.filterMap_cons_none hwindow) (List.filterMap_cons_none hupdating)
    (List.filterMap_cons_none hopening)

theorem Tabled.dropTop (h : s.Tabled) {lease : UpdateLease E} {rest : List (AppFrame E)}
    (hframes : s.frames = .scope lease :: rest) (hwindow : lease.window? = none)
    (hupdating : lease.updating? = none) (hopening : lease.opening? = none) :
    WindowTable s.windows s.windowHandles s.windowUpdateStack s.opened s.closed
      (rest.filterMap AppFrame.lease?) := by
  unfold Tabled at h
  rw [leases_cons hframes] at h
  exact h.congr (List.filterMap_cons_none hwindow).symm (List.filterMap_cons_none hupdating).symm
    (List.filterMap_cons_none hopening).symm

/-- An update goes on without a window on the stack. -/
theorem Tabled.setTop (h : s.Tabled) {lease : UpdateLease E} {rest : List (AppFrame E)}
    (hframes : s.frames = .scope lease :: rest) (hwindow : lease.window? = none)
    (hupdating : lease.updating? = none) (hopening : lease.opening? = none) :
    WindowTable s.windows s.windowHandles s.windowUpdateStack s.opened s.closed
      (.nothing :: rest.filterMap AppFrame.lease?) :=
  (h.dropTop hframes hwindow hupdating hopening).congr rfl rfl rfl

/-- Frames of a flush do not matter. -/
theorem Tabled.of_leases (h : s.Tabled) (hwindows : s'.windows = s.windows)
    (hhandles : s'.windowHandles = s.windowHandles)
    (hupdating : s'.windowUpdateStack = s.windowUpdateStack) (hopened : s'.opened = s.opened)
    (hclosed : s'.closed = s.closed) (hleases : s'.leases = s.leases) : s'.Tabled := by
  unfold Tabled at h ⊢
  rwa [hwindows, hhandles, hupdating, hopened, hclosed, hleases]

theorem Tabled.takeWindow (h : s.Tabled) {id : WindowId} (htake : s.takeWindow id = some s') :
    s'.Tabled := by
  unfold LeasingApp.takeWindow at htake
  split_ifs at htake
  obtain ⟨removed, hstored, rfl⟩ := Option.map_eq_some_iff.mp htake
  exact WindowTable.take h hstored

theorem Tabled.stepped (h : s.Tabled) (hstep : s.Stepped s') : s'.Tabled := by
  cases hstep with
  | unchanged | handles | pushEffect | readEntity | dropFocusHandle => exact h
  | startUpdate | newEntity | insertEntity | leaseEntity => exact h.addTop rfl rfl rfl
  | finishUpdate hframes =>
    have hdrop := h.dropTop hframes rfl rfl rfl
    unfold finishUpdate
    split_ifs <;> exact hdrop
  | finishCreated _ hframes | finishInserted hframes | endLease hframes
  | finishClosing _ hframes => exact h.setTop hframes rfl rfl rfl
  | takeWindow htake => exact h.takeWindow htake
  | finishWindow hframes =>
    unfold Tabled at h
    rw [leases_cons hframes] at h
    have hkey := h.key_of_window List.mem_cons_self
    unfold trail
    dsimp only
    rw [if_pos hkey]
    split_ifs
    · exact h.close
    · exact h.putBack.congr rfl rfl rfl
  | openWindow hid => exact h.openNew hid
  | openFailed id => exact (h.openFailed id).congr rfl rfl rfl
  | finishRootView hframes =>
    unfold Tabled at h
    rw [leases_cons hframes] at h
    exact h.finishRootView
  | finishOpen hframes =>
    unfold Tabled at h
    rw [leases_cons hframes] at h
    exact h.finishOpen.congr rfl rfl rfl
  | removeWindow id =>
    have hlease : ∀ {α : Type} (f : UpdateLease E → Option α),
        (∀ lease : UpdateLease E, f (lease.remove id) = f lease) →
        ((s.frames.map (AppFrame.remove id)).filterMap AppFrame.lease?).filterMap f =
          s.leases.filterMap f := by
      intro α f hf
      simp only [leases, List.filterMap_map, List.filterMap_filterMap]
      refine List.filterMap_congr fun frame _ => ?_
      rcases frame with lease | _ | _
      · exact hf lease
      · rfl
      · rfl
    refine WindowTable.congr h (hlease _ ?_) (hlease _ ?_) (hlease _ ?_)
    all_goals
      intro lease
      cases lease <;> rfl
  | @flushEffect _ _ effect _ _ hframes =>
    refine h.of_leases rfl rfl rfl rfl rfl ?_
    rw [leases, leases, hframes]
    cases effect with
    | entityCreated entity tid window => cases window <;> rfl
    | refreshWindows | notify | emit | notifyGlobalObservers | defer => rfl
  | visit hframes htake =>
    refine Tabled.takeWindow ?_ htake
    exact h.of_leases rfl rfl rfl rfl rfl (by rw [leases, leases, hframes]; rfl)
  | takeDropped hframes | release hframes | finishFocusHandles hframes | finishFlush hframes
  | finishFlushAlone hframes | returnCall hframes =>
    exact h.of_leases rfl rfl rfl rfl rfl (by rw [leases, leases, hframes]; rfl)
  | shutdown hframes =>
    have hleases : s.leases = [] := by
      rw [leases, hframes]
      rfl
    unfold Tabled at h
    rw [hleases] at h
    exact h.shutdown

/-! ## What a run keeps -/

/-- The stack, the entities and the windows fit each other. -/
structure Sound (s : LeasingApp E) : Prop where
  nested : s.Nested
  balanced : s.Balanced
  tabled : s.Tabled

theorem sound_of_run {actions : List (LeasingAction E)} (run : Run step Allowed new actions s) :
    s.Sound :=
  run.invariant (fun _ s => s.Sound) ⟨nested_new, balanced_new, tabled_new⟩
    fun _ _ _ _ h ha hstep =>
      have hstepped := stepped_of_step ha hstep
      ⟨h.nested.stepped hstepped, h.balanced.stepped h.nested hstepped,
        h.tabled.stepped hstepped⟩

/-- What the code asks for is on the stack, or was never built or closed. -/
def Panics (s : LeasingApp E) : LeasingAction E → Prop
  | .updateEntity id | .borrowEntity id | .readEntity id =>
    id ∈ s.entityLeases.map Prod.fst ∨ id ∉ s.world.inserted.map Prod.fst
  | .readWindow id => id ∈ s.leases.filterMap UpdateLease.window?
  | .visit => ∃ id windows rest, s.frames = .call (.visit (id :: windows)) :: rest ∧
      id ∉ s.windows.keys
  | _ => False

theorem takeWindow_eq_none (h : s.Tabled) (id : WindowId) :
    s.takeWindow id = none ↔
      id ∉ s.windows.keys ∨ id ∈ s.leases.filterMap UpdateLease.window? := by
  unfold takeWindow
  split_ifs with hkey
  · rw [Option.map_eq_none_iff]
    constructor
    · intro hnone
      exact .inr (((h.keys id).mp hkey).resolve_left fun hsome => hsome hnone)
    · rintro (hnot | hmem)
      · exact absurd hkey hnot
      · exact h.free id hmem
  · exact iff_of_true rfl (.inl hkey)

theorem EntityMap.lease_eq_none (m : EntityMap E) (id : EntityId) :
    m.lease id = none ↔ m.entities.get id = none := by
  rw [EntityMap.lease, Option.map_eq_none_iff, SecondaryMap.remove, Option.map_eq_none_iff]

/-- An allowed step panics exactly then. -/
theorem step_eq_none_iff (h : s.Sound) {a : LeasingAction E} (ha : s.Allowed a) :
    s.step a = none ↔ s.Panics a := by
  cases a with
  | updateEntity id | borrowEntity id =>
    rw [Panics, ← h.balanced.leased.get_eq_none_iff ha.2,
      ← EntityMap.lease_eq_none, step]
    cases s.world.map.lease id <;> simp
  | readEntity id =>
    rw [Panics, ← h.balanced.leased.get_eq_none_iff ha.2, step, EntityMap.read]
    cases s.world.map.entities.get id <;> simp
  | readWindow id =>
    simp only [step, Panics]
    split_ifs with hkey
    · rw [Option.map_eq_none_iff]
      constructor
      · intro hnone
        exact ((h.tabled.keys id).mp hkey).resolve_left fun hsome => hsome hnone
      · exact h.tabled.free id
    · exact iff_of_false not_false fun hmem => hkey (h.tabled.key_of_window hmem)
  | visit =>
    obtain ⟨id, windows, rest, hframes⟩ := ha
    -- no window is on the stack below what a flush calls
    have hleases : s.leases = [] := h.nested.leases_eq_nil hframes rfl
    let visiting : LeasingApp E := { s with frames := .call (.visit windows) :: rest }
    have hvisiting : visiting.leases = s.leases := by
      rw [leases, leases, hframes]
      rfl
    have htabled : visiting.Tabled := h.tabled.of_leases rfl rfl rfl rfl rfl hvisiting
    simp only [step, hframes]
    rw [takeWindow_eq_none htabled, hvisiting, hleases]
    constructor
    · rintro (hnot | hmem)
      · exact ⟨id, windows, rest, hframes, hnot⟩
      · cases hmem
    · rintro ⟨id', windows', rest', heq, hnot⟩
      rw [hframes] at heq
      cases heq
      exact .inl hnot
  | handles a =>
    have honHandles : EntityWorld.OnHandles a := by
      cases a <;> first | exact ha.2 | trivial
    obtain ⟨world, hworld, -⟩ := h.balanced.leased.handles honHandles ha.1
    exact iff_of_false (by simp [step, hworld]) id
  | newEntity key =>
    obtain ⟨reserved, world, hreserved, hworld, -⟩ := h.balanced.leased.reserve ha.2
    exact iff_of_false (by simp [step, hreserved, hworld]) id
  | finishBuild entity tid =>
    obtain ⟨id, created, rest, hframes, hid⟩ := ha
    obtain ⟨cloned, built, world, hcloned, hbuilt, hworld, -⟩ :=
      h.balanced.leased.build hid entity
    refine iff_of_false ?_ False.elim
    cases created
    · simp [step, hframes, EntityWorld.step]
    · simp [step, hframes, hcloned, hbuilt, hworld]
  | finishOpen =>
    obtain ⟨id, removed, rest, hframes⟩ := ha
    have htabled := h.tabled
    unfold Tabled at htabled
    rw [leases_cons hframes] at htabled
    have hkey := htabled.key_of_window List.mem_cons_self
    exact iff_of_false (by simp [step, hframes, hkey]) False.elim
  | flushEntities =>
    obtain ⟨ofUpdate, dropped, rest, hframes⟩ := ha
    refine iff_of_false ?_ False.elim
    cases dropped with
    | nil =>
      have hleased := h.balanced.leased
      rw [entityLeases, h.nested.leases_eq_nil hframes rfl] at hleased
      obtain ⟨map, taken, hrun, -⟩ := Leased.takeDropped hleased
      simp [step, hframes, hrun]
    | cons entity dropped => simp [step, hframes]
  | flushEffect observers =>
    obtain ⟨ofUpdate, rest, hframes⟩ := ha
    refine iff_of_false ?_ False.elim
    cases heffects : s.pendingEffects <;> cases ofUpdate <;> simp [step, hframes, heffects]
  | openWindow id ok => cases ok <;> exact iff_of_false (Option.some_ne_none _) False.elim
  | endLease =>
    obtain ⟨id, entity, borrowed, rest, hframes⟩ := ha
    exact iff_of_false (by simp [step, hframes]) False.elim
  | finishWindow | finishRootView =>
    obtain ⟨id, removed, rest, hframes⟩ := ha
    exact iff_of_false (by simp [step, hframes]) False.elim
  | finishClosing quitOnEmpty =>
    obtain ⟨rest, hframes⟩ := ha
    exact iff_of_false (by simp [step, hframes]) False.elim
  | finishFocusHandles =>
    obtain ⟨ofUpdate, rest, hframes⟩ := ha
    exact iff_of_false (by simp [step, hframes]) False.elim
  | startUpdate | finishUpdate | pushEffect | insertEntity | updateWindow | removeWindow
  | dropFocusHandle | returnCall | shutdown => exact iff_of_false (Option.some_ne_none _) False.elim

end LeasingApp

open LeasingApp in
/-- In every run, when a flush or what it calls is on top of the stack, or nothing is: no update is
below it. Every window has its value in the map and a handle, and every entity that was built and
has a handle has its value in the map. -/
theorem flush_off_the_stack {actions : List (LeasingAction E)} {s : LeasingApp E}
    (run : Run LeasingApp.step Allowed .new actions s)
    (htop : ∀ lease rest, s.frames ≠ .scope lease :: rest) :
    s.leases = [] ∧ s.windowUpdateStack = [] ∧ s.windowHandles = s.windows.keys ∧
    (∀ id ∈ s.windows.keys, s.windows.stored id ≠ none) ∧
    ∀ id ∈ s.world.strong, id ∈ s.world.inserted.map Prod.fst →
      s.world.map.entities.get id ≠ none := by
  have h := sound_of_run run
  have hleases : s.leases = [] := by
    cases hframes : s.frames with
    | nil =>
      rw [leases, hframes]
      rfl
    | cons frame rest =>
      refine h.nested.leases_eq_nil hframes ?_
      cases frame with
      | scope lease => exact absurd hframes (htop lease rest)
      | loop | call => rfl
  have htabled := h.tabled
  unfold Tabled at htabled
  rw [hleases] at htabled
  refine ⟨hleases, htabled.updating, ?_, fun id hid => ?_, fun id hid hinserted hnone => ?_⟩
  · ext id
    rw [htabled.handles]
    exact and_iff_left List.not_mem_nil
  · exact ((htabled.keys id).mp hid).resolve_right List.not_mem_nil
  · rcases (h.balanced.leased.get_eq_none_iff hid).mp hnone with hmem | hnot
    · rw [entityLeases, hleases] at hmem
      cases hmem
    · exact hnot hinserted

open LeasingApp in
/-- A window is opened, and an entity is built with its root view. -/
theorem flush_off_the_stack_opened :
    ∃ s : LeasingApp ℕ, s.frames = [.loop true (.entities [])] ∧ s.windows.keys = {3} ∧
      s.leases = [] ∧ s.windowHandles = s.windows.keys := by
  have run : Run LeasingApp.step Allowed (new : LeasingApp ℕ) [] new := .nil
  have run := run.snoc (LeasingAction.openWindow 3 true) ⟨rfl, by decide⟩ rfl
  have run := run.snoc (LeasingAction.newEntity ⟨1, 1⟩) ⟨rfl, by decide⟩ rfl
  have run := run.snoc (LeasingAction.finishBuild 7 0) ⟨_, _, _, rfl, by decide⟩ rfl
  have run := run.snoc LeasingAction.finishUpdate ⟨_, rfl⟩ rfl
  have run := run.snoc LeasingAction.finishRootView ⟨_, _, _, rfl⟩ rfl
  have run := run.snoc LeasingAction.finishOpen ⟨_, _, _, rfl⟩ rfl
  have run := run.snoc LeasingAction.finishUpdate ⟨_, rfl⟩ rfl
  obtain ⟨hleases, -, hhandles, -⟩ := flush_off_the_stack run nofun
  exact ⟨_, rfl, rfl, hleases, hhandles⟩

open LeasingApp in
/-- In every run, a step that the running code may take panics exactly if it is for an entity that
is on the stack or not built yet, reads a window that is on the stack, or is an update that a flush
expects to succeed of a window that was closed. -/
theorem leasing_panics_iff {actions : List (LeasingAction E)} {s : LeasingApp E}
    (run : Run LeasingApp.step Allowed .new actions s) {a : LeasingAction E} (ha : s.Allowed a) :
    s.step a = none ↔ s.Panics a :=
  step_eq_none_iff (sound_of_run run) ha

open LeasingApp in
/-- An entity is updated while it is on the stack. -/
theorem leasing_panics_iff_twice :
    ∃ s : LeasingApp ℕ, s.entityLeases = [(⟨1, 1⟩, 7)] ∧ s.step (.updateEntity ⟨1, 1⟩) = none := by
  have run : Run LeasingApp.step Allowed (new : LeasingApp ℕ) [] new := .nil
  have run := run.snoc LeasingAction.startUpdate rfl rfl
  have run := run.snoc (LeasingAction.newEntity ⟨1, 1⟩) ⟨rfl, by decide⟩ rfl
  have run := run.snoc (LeasingAction.finishBuild 7 0) ⟨_, _, _, rfl, by decide⟩ rfl
  have run := run.snoc LeasingAction.finishUpdate ⟨_, rfl⟩ rfl
  have run := run.snoc (LeasingAction.updateEntity ⟨1, 1⟩) ⟨rfl, by decide⟩ rfl
  have hpanics := leasing_panics_iff run (show Allowed _ (.updateEntity ⟨1, 1⟩) from
    ⟨rfl, by decide⟩)
  exact ⟨_, rfl, hpanics.mpr (.inl (by decide))⟩

open LeasingApp in
/-- In every run the release listeners of an entity are called at most once, after its last handle
went away, and at rest they were called for every entity that was taken out of the map. A window is
closed at most once, and is then neither in the map nor on the stack. -/
theorem released_once {actions : List (LeasingAction E)} {s : LeasingApp E}
    (run : Run LeasingApp.step Allowed .new actions s) :
    s.world.taken.Perm (s.released ++ s.unreleased) ∧
    (s.frames = [] → s.released.Perm s.world.taken) ∧ (s.released.map Prod.fst).Nodup ∧
    (∀ p ∈ s.released, p ∈ s.world.inserted ∧ p.1 ∉ s.world.strong ∧
      p.1 ∉ s.entityLeases.map Prod.fst) ∧
    s.closed.Nodup ∧
    ∀ id ∈ s.closed, id ∉ s.windows.keys ∧ id ∉ s.leases.filterMap UpdateLease.window? := by
  have h := sound_of_run run
  have hcounted := h.balanced.leased.counted
  have htaken := h.balanced.taken
  refine ⟨htaken, fun hframes => ?_, ?_, fun p hp => ?_, h.tabled.once, fun id hid => ?_⟩
  · have hnone : s.unreleased = [] := by
      rw [unreleased, hframes]
      rfl
    rw [hnone, List.append_nil] at htaken
    exact htaken.symm
  · have hnodup : ((s.released ++ s.unreleased).map Prod.fst).Nodup :=
      (htaken.map Prod.fst).nodup_iff.mp hcounted.taken_nodup
    rw [List.map_append] at hnodup
    exact hnodup.of_append_left
  · have hp' : p ∈ s.world.taken := htaken.mem_iff.mpr (List.mem_append_left _ hp)
    obtain ⟨hinserted, hfreed⟩ := (hcounted.taken_iff p.1 p.2).mp hp'
    refine ⟨hinserted, fun hstrong => hcounted.live p.1 hstrong hfreed, fun hmem => ?_⟩
    -- a leased entity is in the map with the leases put back
    obtain ⟨q, hq, heq⟩ := List.mem_map.mp hmem
    have hstored := get_restore s.world.map.entities h.balanced.leased.apart hq
    rw [heq] at hstored
    exact ((hcounted.stored_iff p.1 q.2).mp hstored).2 hfreed
  · have hkey := h.tabled.gone id hid
    exact ⟨hkey, fun hmem => hkey (h.tabled.key_of_window hmem)⟩

open LeasingApp in
/-- The last handle of an entity goes away, and the update ends. -/
theorem released_once_dropped :
    ∃ s : LeasingApp ℕ, s.released = [(⟨1, 1⟩, 7)] ∧ s.frames = [] ∧
      s.released.Perm s.world.taken := by
  have run : Run LeasingApp.step Allowed (new : LeasingApp ℕ) [] new := .nil
  have run := run.snoc (LeasingAction.handles (.reserve ⟨1, 1⟩)) ⟨by decide, trivial⟩ rfl
  have run := run.snoc (LeasingAction.insertEntity ⟨1, 1⟩) ⟨rfl, by decide, by decide⟩ rfl
  have run := run.snoc (LeasingAction.finishBuild 7 0) ⟨_, _, _, rfl, by decide⟩ rfl
  have run := run.snoc (LeasingAction.handles (.dropHandle ⟨1, 1⟩)) ⟨by decide, trivial⟩ rfl
  have run := run.snoc LeasingAction.finishUpdate ⟨_, rfl⟩ rfl
  have run := run.snoc LeasingAction.flushEntities ⟨_, _, _, rfl⟩ rfl
  have run := run.snoc LeasingAction.flushEntities ⟨_, _, _, rfl⟩ rfl
  have run := run.snoc LeasingAction.returnCall (.inl ⟨_, rfl⟩) rfl
  have run := run.snoc LeasingAction.flushEntities ⟨_, _, _, rfl⟩ rfl
  have run := run.snoc LeasingAction.finishFocusHandles ⟨_, _, rfl⟩ rfl
  have run := run.snoc (LeasingAction.flushEffect 0) ⟨_, _, rfl⟩ rfl
  exact ⟨_, rfl, rfl, (released_once run).2.1 rfl⟩

end Lucie
