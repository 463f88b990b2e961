import Lucie.App.LeaseSteps
import Lucie.Entity.RefCounts

/-!
# Entities on the stack

With the leased entities put back the entity map is as it is without leases, so its counts are as
reliable. When effects are flushed nothing is on the stack, and the map of the code is this map.
-/

set_option autoImplicit false

namespace Lucie

open Foundation

variable {E : Type}

namespace EntityWorld

/-- The world with another map of entities. -/
def withEntities (w : EntityWorld E) (entities : SecondaryMap E) : EntityWorld E :=
  { w with map := { w.map with entities } }

variable {w w' : EntityWorld E}

/-- A step on handles does the same whatever the entities are. -/
theorem step_withEntities {a : EntityAction E} (ha : OnHandles a) (entities : SecondaryMap E) :
    (w.withEntities entities).step a = (w.step a).map fun w' => w'.withEntities entities := by
  cases a with
  | reserve key | downgrade id => rfl
  | insert id entity | takeDropped => exact ha.elim
  | cloneHandle id =>
    simp only [step, withEntities, EntityMap.cloneHandle]
    cases w.map.counts.get id with
    | none => rfl
    | some n => by_cases hn : n = 0 <;> simp [hn]
  | dropSlot id | dropHandle id =>
    simp only [step, withEntities, EntityMap.dropHandle]
    cases w.map.counts.get id with
    | none => rfl
    | some n =>
      by_cases hn : n = 0
      · simp [hn]
      · by_cases hone : n = 1 <;> simp [hn, hone]
  | upgrade id =>
    simp only [step, withEntities, EntityMap.upgrade]
    cases w.map.counts.get id with
    | none => rfl
    | some n => by_cases hn : n = 0 <;> simp [hn]

theorem entities_of_step {a : EntityAction E} (ha : OnHandles a) (hstep : w.step a = some w') :
    w'.map.entities = w.map.entities := by
  have heq : (w.withEntities w.map.entities).step a = some w' := hstep
  rw [step_withEntities ha, hstep] at heq
  have := congrArg (fun w => w.map.entities) (Option.some.inj heq)
  exact this.symm

theorem taken_of_step {a : EntityAction E} (ha : a ≠ .takeDropped) (hstep : w.step a = some w') :
    w'.taken = w.taken := by
  cases a with
  | reserve | insert | downgrade =>
    cases hstep
    rfl
  | takeDropped => exact absurd rfl ha
  | cloneHandle id | dropSlot id | dropHandle id =>
    obtain ⟨map, -, hstep⟩ := Option.bind_eq_some_iff.mp hstep
    cases hstep
    rfl
  | upgrade id =>
    simp only [step] at hstep
    split at hstep <;> cases hstep <;> rfl

end EntityWorld

/-! ## Entities that are put back -/

/-- The map with leased entities put back. -/
def restore (m : SecondaryMap E) : List (EntityId × E) → SecondaryMap E
  | [] => m
  | (id, entity) :: leases =>
    ⟨Function.update (restore m leases).slots id.index (some (id.version, entity))⟩

theorem slots_restore_cons (m : SecondaryMap E) (id : EntityId) (entity : E)
    (leases : List (EntityId × E)) : (restore m ((id, entity) :: leases)).slots =
      Function.update (restore m leases).slots id.index (some (id.version, entity)) := rfl

/-- The slot of no lease can be changed before or after. -/
theorem restore_update (m : SecondaryMap E) {leases : List (EntityId × E)} {i : ℕ}
    (h : i ∉ leases.map fun p => p.1.index) (entry : Option (ℕ × E)) :
    restore ⟨Function.update m.slots i entry⟩ leases =
      ⟨Function.update (restore m leases).slots i entry⟩ := by
  induction leases with
  | nil => rfl
  | cons p leases ih =>
    obtain ⟨id, entity⟩ := p
    rw [List.map_cons, List.mem_cons, not_or] at h
    rw [restore, ih h.2, restore]
    exact congrArg SecondaryMap.mk (Function.update_comm h.1 _ _ _)

theorem slots_restore (m : SecondaryMap E) {leases : List (EntityId × E)} {i : ℕ}
    (h : i ∉ leases.map fun p => p.1.index) : (restore m leases).slots i = m.slots i := by
  induction leases with
  | nil => rfl
  | cons p leases ih =>
    rw [List.map_cons, List.mem_cons, not_or] at h
    rw [slots_restore_cons, Function.update_of_ne h.1, ih h.2]

/-- Of leases with slots of their own each is found. -/
theorem get_restore (m : SecondaryMap E) {leases : List (EntityId × E)}
    (hapart : (leases.map fun p => p.1.index).Nodup) {p : EntityId × E} (hp : p ∈ leases) :
    (restore m leases).get p.1 = some p.2 := by
  rw [SecondaryMap.get_eq_some]
  induction leases with
  | nil => cases hp
  | cons q leases ih =>
    obtain ⟨hnot, hapart⟩ := List.nodup_cons.mp hapart
    rw [slots_restore_cons]
    rcases List.mem_cons.mp hp with rfl | hmem
    · exact Function.update_self _ _ _
    · have hne : p.1.index ≠ q.1.index := fun heq => hnot (List.mem_map.mpr ⟨p, hmem, heq⟩)
      rw [Function.update_of_ne hne]
      exact ih hapart hmem

/-- A slot that is free after that has no lease and was free. -/
theorem free_of_restore {m : SecondaryMap E} {leases : List (EntityId × E)} {i : ℕ}
    (h : (restore m leases).slots i = none) :
    i ∉ leases.map (fun p => p.1.index) ∧ m.slots i = none := by
  induction leases with
  | nil => exact ⟨List.not_mem_nil, h⟩
  | cons p leases ih =>
    obtain ⟨id, entity⟩ := p
    by_cases hi : i = id.index
    · rw [slots_restore_cons, hi, Function.update_self] at h
      cases h
    · rw [slots_restore_cons, Function.update_of_ne hi] at h
      rw [List.map_cons, List.mem_cons, not_or]
      exact ⟨⟨hi, (ih h).1⟩, (ih h).2⟩

/-- The leases have slots of their own that are free in the map, and with them the counts are
right. -/
structure Leased (w : EntityWorld E) (leases : List (EntityId × E)) : Prop where
  counted : (w.withEntities (restore w.map.entities leases)).Counted
  apart : (leases.map fun p => p.1.index).Nodup
  free : ∀ i ∈ leases.map fun p => p.1.index, w.map.entities.slots i = none

namespace Leased

variable {w w' : EntityWorld E} {leases : List (EntityId × E)} {id : EntityId} {entity : E}
  {map : EntityMap E}

theorem new : Leased (.new : EntityWorld E) [] :=
  ⟨EntityWorld.counted_new, List.nodup_nil, fun _ h => nomatch h⟩

/-- What was accessed does not matter. -/
theorem accessed (h : Leased w leases) (accessedEntities : Finset EntityId) :
    Leased { w with map := { w.map with accessedEntities } } leases := by
  obtain ⟨hc, hapart, hfree⟩ := h
  exact ⟨⟨hc.count, hc.live, hc.dropped_iff, hc.dropped_nodup, hc.issued, hc.index, hc.slots_nodup,
    hc.slots_new, hc.inserted_nodup, hc.inserted_issued, hc.stored_iff, hc.taken_iff,
    hc.taken_nodup⟩, hapart, hfree⟩

theorem handles (h : Leased w leases) {a : EntityAction E} (ha : EntityWorld.OnHandles a)
    (hallowed : w.Allowed a) : ∃ w', w.step a = some w' ∧ Leased w' leases := by
  have hallowed' : (w.withEntities (restore w.map.entities leases)).Allowed a := by
    cases a <;> exact hallowed
  obtain ⟨restored, hstep, hcounted⟩ := h.counted.step hallowed'
  rw [EntityWorld.step_withEntities ha] at hstep
  obtain ⟨w', hw', rfl⟩ := Option.map_eq_some_iff.mp hstep
  have hentities := EntityWorld.entities_of_step ha hw'
  exact ⟨w', hw', by rwa [hentities], h.apart, by rw [hentities]; exact h.free⟩

/-- An entity is put into its slot for the first time. -/
theorem insert (h : Leased w leases) (hid : id ∈ w.slots)
    (hstep : w.step (.insert id entity) = some w') : Leased w' leases := by
  cases hstep
  obtain ⟨hnot, hnone⟩ := free_of_restore (h.counted.slots_free hid)
  have hentities : (w.map.entities.insert id entity) =
      ⟨Function.update w.map.entities.slots id.index (some (id.version, entity))⟩ := by
    rw [SecondaryMap.insert, hnone]
  have hrestored : (restore w.map.entities leases).insert id entity =
      restore (w.map.entities.insert id entity) leases := by
    rw [hentities, restore_update _ hnot, SecondaryMap.insert, slots_restore _ hnot, hnone]
  refine ⟨?_, h.apart, fun i hi => ?_⟩
  · have hcounted := h.counted.insert hid entity
    have heq : restore (w.map.insert id entity).entities leases =
        (restore w.map.entities leases).insert id entity := hrestored.symm
    change EntityWorld.Counted ({ w with
      map := { w.map.insert id entity with
        entities := restore (w.map.insert id entity).entities leases }
      slots := w.slots.erase id
      handles := id :: w.handles
      inserted := (id, entity) :: w.inserted } : EntityWorld E)
    rw [heq]
    exact hcounted
  · change (w.map.entities.insert id entity).slots i = none
    have hne : i ≠ id.index := fun heq => hnot (heq ▸ hi)
    rw [hentities]
    exact (Function.update_of_ne hne _ _).trans (h.free i hi)

/-- The steps of `App::new` before the entity is built. -/
theorem reserve (h : Leased w leases) (hfresh : w.map.counts.Fresh id) :
    ∃ reserved w', w.step (.reserve id) = some reserved ∧
      reserved.step (.cloneHandle id) = some w' ∧ Leased w' leases ∧ w'.taken = w.taken := by
  obtain ⟨reserved, hreserved, hleased⟩ :=
    h.handles (show EntityWorld.OnHandles (.reserve id) from trivial) hfresh
  have hslot : id ∈ reserved.slots := by
    cases hreserved
    exact List.mem_cons_self
  obtain ⟨w', hw', hleased'⟩ :=
    hleased.handles (show EntityWorld.OnHandles (.cloneHandle id) from trivial)
      (List.mem_append_left _ hslot)
  refine ⟨reserved, w', hreserved, hw', hleased', ?_⟩
  rw [EntityWorld.taken_of_step (by simp) hw', EntityWorld.taken_of_step (by simp) hreserved]

/-- The steps of `App::new` after that. -/
theorem build (h : Leased w leases) (hid : id ∈ w.slots) (entity : E) :
    ∃ cloned built w', w.step (.cloneHandle id) = some cloned ∧
      cloned.step (.insert id entity) = some built ∧ built.step (.dropHandle id) = some w' ∧
      Leased w' leases ∧ w'.taken = w.taken := by
  obtain ⟨cloned, hcloned, hleased⟩ := h.handles
    (show EntityWorld.OnHandles (.cloneHandle id) from trivial) (List.mem_append_left _ hid)
  have hslot : id ∈ cloned.slots := by
    obtain ⟨map, -, heq⟩ := Option.bind_eq_some_iff.mp hcloned
    cases heq
    exact hid
  obtain ⟨built, hbuilt⟩ : ∃ built, cloned.step (.insert id entity) = some built := ⟨_, rfl⟩
  have hhandle : id ∈ built.handles := by
    cases hbuilt
    exact List.mem_cons_self
  obtain ⟨w', hw', hleased'⟩ := (hleased.insert hslot hbuilt).handles
    (show EntityWorld.OnHandles (.dropHandle id) from trivial) hhandle
  refine ⟨cloned, built, w', hcloned, hbuilt, hw', hleased', ?_⟩
  rw [EntityWorld.taken_of_step (by simp) hw', EntityWorld.taken_of_step (by simp) hbuilt,
    EntityWorld.taken_of_step (by simp) hcloned]

/-- An entity is moved to the stack. -/
theorem lease (h : Leased w leases) (hlease : w.map.lease id = some (entity, map)) :
    Leased { w with map } ((id, entity) :: leases) := by
  obtain ⟨⟨entity', entities⟩, hremove, heq⟩ := Option.map_eq_some_iff.mp hlease
  cases heq
  obtain ⟨entity', hget, heq⟩ := Option.map_eq_some_iff.mp hremove
  cases heq
  have hslot := SecondaryMap.get_eq_some.mp hget
  have hnot : id.index ∉ leases.map fun p => p.1.index := fun hmem => by
    rw [h.free _ hmem] at hslot
    cases hslot
  have hrestored : restore ⟨Function.update w.map.entities.slots id.index none⟩
      ((id, entity) :: leases) = restore w.map.entities leases := by
    rw [restore, restore_update _ hnot]
    simp only [Function.update_idem]
    rw [← hslot, ← slots_restore _ hnot, Function.update_eq_self]
  refine ⟨?_, List.nodup_cons.mpr ⟨hnot, h.apart⟩, fun i hi => ?_⟩
  · have hcounted := (h.accessed (Insert.insert id w.map.accessedEntities)).counted
    unfold EntityWorld.withEntities at hcounted ⊢
    dsimp only at hcounted ⊢
    rwa [hrestored]
  · by_cases hid : i = id.index
    · exact hid ▸ Function.update_self _ _ _
    · rcases List.mem_cons.mp hi with heq | hmem
      · exact absurd heq hid
      · exact (Function.update_of_ne hid _ _).trans (h.free i hmem)

/-- An entity is put back. -/
theorem endLease (h : Leased w ((id, entity) :: leases)) :
    Leased { w with map := w.map.endLease id entity } leases := by
  obtain ⟨hnot, hapart⟩ := List.nodup_cons.mp h.apart
  have hnone := h.free id.index List.mem_cons_self
  have hentities : (w.map.entities.insert id entity) =
      ⟨Function.update w.map.entities.slots id.index (some (id.version, entity))⟩ := by
    rw [SecondaryMap.insert, hnone]
  refine ⟨?_, hapart, fun i hi => ?_⟩
  · have hcounted := h.counted
    unfold EntityWorld.withEntities EntityMap.endLease at *
    dsimp only at hcounted ⊢
    rwa [hentities, restore_update _ hnot]
  · change (w.map.entities.insert id entity).slots i = none
    have hne : i ≠ id.index := by
      rintro rfl
      exact hnot hi
    rw [hentities]
    exact (Function.update_of_ne hne _ _).trans (h.free i (List.mem_cons_of_mem _ hi))

/-- Without leases the dropped entities are those of the map. -/
theorem takeDropped (h : Leased w []) :
    ∃ map taken, w.map.takeDropped = some (map, taken) ∧
      Leased { w with map, taken := w.taken ++ taken } [] := by
  obtain ⟨map, taken, hrun, hcounted, -, -⟩ := h.counted.takeDropped
  exact ⟨map, taken, hrun, hcounted, List.nodup_nil, fun _ h => nomatch h⟩

/-- An entity that a handle is for is missing while it is on the stack, and before it is built. -/
theorem get_eq_none_iff (h : Leased w leases) (hid : id ∈ w.strong) :
    w.map.entities.get id = none ↔
      id ∈ leases.map Prod.fst ∨ id ∉ w.inserted.map Prod.fst := by
  have hlive := h.counted.live id hid
  have hstored := h.counted.stored_iff
  by_cases hindex : id.index ∈ leases.map fun p => p.1.index
  · -- the slot is the one of a lease, so the id is
    obtain ⟨p, hp, heq⟩ := List.mem_map.mp hindex
    have hcount := ((hstored p.1 p.2).mp (get_restore _ h.apart hp)).2
    obtain rfl := h.counted.index p.1 id hcount hlive heq
    refine iff_of_true ?_ (.inl (List.mem_map_of_mem hp))
    rw [SecondaryMap.get, h.free _ hindex]
  · have hget : (restore w.map.entities leases).get id = w.map.entities.get id := by
      rw [SecondaryMap.get, SecondaryMap.get, slots_restore _ hindex]
    have hnot : id ∉ leases.map Prod.fst := fun hmem => by
      obtain ⟨p, hp, rfl⟩ := List.mem_map.mp hmem
      exact hindex (List.mem_map.mpr ⟨p, hp, rfl⟩)
    rw [← hget, or_iff_right hnot]
    constructor
    · rintro hnone hinserted
      obtain ⟨p, hp, rfl⟩ := List.mem_map.mp hinserted
      have hsome := (hstored p.1 p.2).mpr ⟨hp, hlive⟩
      cases hnone.symm.trans hsome
    · intro hinserted
      by_contra hsome
      obtain ⟨e, he⟩ := Option.ne_none_iff_exists'.mp hsome
      exact hinserted (List.mem_map.mpr ⟨(id, e), ((hstored id e).mp he).1, rfl⟩)

end Leased

namespace LeasingApp

variable {s s' : LeasingApp E}

/-! ## The stack -/

/-- The number of updates and the flag fit the stack. -/
def Nested (s : LeasingApp E) : Prop := Nesting s.pendingUpdates s.flushingEffects s.frames

theorem nested_new : (new : LeasingApp E).Nested := .nil

theorem Nested.startUpdate (h : s.Nested) (lease : UpdateLease E) : (s.startUpdate lease).Nested :=
  h.openScope lease

theorem Nested.takeWindow (h : s.Nested) {id : WindowId} (htake : s.takeWindow id = some s') :
    s'.Nested := by
  unfold LeasingApp.takeWindow at htake
  split_ifs at htake
  obtain ⟨removed, -, rfl⟩ := Option.map_eq_some_iff.mp htake
  exact h.startUpdate _

theorem Nested.finishUpdate (h : s.Nested) {lease : UpdateLease E} {rest : List (AppFrame E)}
    (hframes : s.frames = .scope lease :: rest) : (s.finishUpdate rest).Nested := by
  unfold Nested at h
  rw [hframes] at h
  unfold LeasingApp.finishUpdate
  split_ifs with hlast
  · simp only [Bool.and_eq_true, Bool.not_eq_true', decide_eq_true_eq] at hlast
    rw [hlast.2] at h
    have hflush := h.startLoop (FlushPhase.entities ([] : List (EntityId × E)))
    rwa [← hlast.2] at hflush
  · exact h.endScope

/-- An update changes what it has on the stack. -/
theorem Nested.setTop (h : s.Nested) {lease : UpdateLease E} {rest : List (AppFrame E)}
    (hframes : s.frames = .scope lease :: rest) (lease' : UpdateLease E) :
    Nesting s.pendingUpdates s.flushingEffects (.scope lease' :: rest) := by
  unfold Nested at h
  rw [hframes] at h
  exact h.congr_head rfl rfl rfl rfl

/-- A flush goes to another phase. -/
theorem Nested.setPhase (h : s.Nested) {ofUpdate : Bool} {phase : FlushPhase E}
    {rest : List (AppFrame E)} (hframes : s.frames = .loop ofUpdate phase :: rest)
    (phase' : FlushPhase E) :
    Nesting s.pendingUpdates s.flushingEffects (.loop ofUpdate phase' :: rest) := by
  unfold Nested at h
  rw [hframes] at h
  exact h.congr_head rfl rfl rfl rfl

theorem Nested.stepped (h : s.Nested) (hstep : s.Stepped s') : s'.Nested := by
  cases hstep with
  | unchanged | handles | pushEffect | readEntity => exact h
  | startUpdate | newEntity | insertEntity | leaseEntity | openWindow | openFailed =>
    exact h.openScope _
  | finishUpdate hframes => exact h.finishUpdate hframes
  | takeWindow htake => exact h.takeWindow htake
  | finishCreated _ hframes | finishInserted hframes | endLease hframes
  | finishClosing _ hframes | finishRootView hframes | finishOpen hframes =>
    exact h.setTop hframes _
  | finishWindow hframes =>
    unfold trail
    dsimp only
    split_ifs <;> exact h.setTop hframes _
  | removeWindow id => refine Nesting.map h ?_ ?_ ?_ ?_ <;> rintro (_ | _ | _) <;> rfl
  | takeDropped hframes | finishFocusHandles hframes => exact h.setPhase hframes _
  | release hframes => exact (h.setPhase hframes _).call _
  | dropFocusHandle windows hframes =>
    have hcall := (h.setPhase hframes .focusHandles).call (FlushCall.visit windows)
    rwa [← hframes] at hcall
  | @flushEffect _ _ effect _ _ hframes =>
    have hphase := h.setPhase hframes (.entities [])
    cases effect with
    | refreshWindows => exact hphase
    | entityCreated entity tid window => cases window <;> exact hphase.call _
    | notify | emit | notifyGlobalObservers | defer => exact hphase.call _
  | finishFlush hframes => exact (h.setPhase hframes .effects).endLoop
  | finishFlushAlone hframes => exact (h.setPhase hframes .effects).endAlone
  | visit hframes htake =>
    refine Nested.takeWindow ?_ htake
    unfold Nested at h ⊢
    rw [hframes] at h
    exact h.congr_head rfl rfl rfl rfl
  | returnCall hframes =>
    unfold Nested at h
    rw [hframes] at h
    exact h.endCall
  | shutdown hframes =>
    unfold Nested at h ⊢
    rw [hframes] at h
    rw [h.depth_eq, h.looping_eq]
    exact .startAlone _

/-- When a flush is on top of the stack, or what it calls, no update is below it. -/
theorem Nested.leases_eq_nil {frame : AppFrame E} {rest : List (AppFrame E)} (h : s.Nested)
    (hframes : s.frames = frame :: rest) (hframe : frame.isScope = false) : s.leases = [] := by
  unfold Nested at h
  rw [hframes] at h
  have hrest : ∀ frame ∈ rest, frame.isScope = false := by
    cases frame with
    | scope lease => cases hframe
    | loop ofUpdate phase => exact h.isScope_of_loop
    | call called => exact h.isScope_of_call
  rw [leases, hframes, List.filterMap_eq_nil_iff]
  intro frame' hmem
  rcases List.mem_cons.mp hmem with rfl | hmem
  · cases frame' <;> first | rfl | cases hframe
  · have := hrest frame' hmem
    cases frame' <;> first | rfl | cases this

/-! ## Leases along a run -/

/-- The entities on the stack. -/
def entityLeases (s : LeasingApp E) : List (EntityId × E) := s.leases.filterMap UpdateLease.entity?

/-- The entities that were taken and are not released, by all flushes that are under way. -/
def unreleased (s : LeasingApp E) : List (EntityId × E) := s.frames.flatMap AppFrame.dropped

/-- The entity map is the one without leases, less what is on the stack. Every entity that was taken
is released or will be. -/
structure Balanced (s : LeasingApp E) : Prop where
  leased : Leased s.world s.entityLeases
  taken : s.world.taken.Perm (s.released ++ s.unreleased)

theorem balanced_new : (new : LeasingApp E).Balanced := ⟨.new, .nil⟩

/-- Steps that change neither entities nor the entities on the stack. -/
theorem Balanced.of_eq (h : s.Balanced) (hworld : s'.world = s.world)
    (hreleased : s'.released = s.released) (hleases : s'.entityLeases = s.entityLeases)
    (hunreleased : s'.unreleased = s.unreleased) : s'.Balanced := by
  obtain ⟨hleased, htaken⟩ := h
  exact ⟨by rwa [hworld, hleases], by rwa [hworld, hreleased, hunreleased]⟩

/-- Steps of the entity map alone. -/
theorem Balanced.of_world (h : s.Balanced) (hleased : Leased s'.world s.entityLeases)
    (htaken : s'.world.taken = s.world.taken) (hreleased : s'.released = s.released)
    (hleases : s'.entityLeases = s.entityLeases) (hunreleased : s'.unreleased = s.unreleased) :
    s'.Balanced :=
  ⟨by rwa [hleases], by rw [htaken, hreleased, hunreleased]; exact h.taken⟩

theorem entityLeases_cons (lease : UpdateLease E) (rest : List (AppFrame E)) :
    ((NestedFrame.scope lease :: rest).filterMap AppFrame.lease?).filterMap UpdateLease.entity? =
      lease.entity?.toList ++ (rest.filterMap AppFrame.lease?).filterMap UpdateLease.entity? := by
  have hlease : AppFrame.lease? (.scope lease) = some lease := rfl
  rw [List.filterMap_cons_some hlease]
  cases h : lease.entity? with
  | none => rw [List.filterMap_cons_none h]; rfl
  | some p => rw [List.filterMap_cons_some h]; rfl

/-- An update begins or goes on without an entity on the stack. -/
theorem Balanced.setTop (h : s.Balanced) {lease : UpdateLease E} {rest : List (AppFrame E)}
    (hframes : s.frames = .scope lease :: rest) (hlease : lease.entity? = none)
    {lease' : UpdateLease E} (hframes' : s'.frames = .scope lease' :: rest)
    (hlease' : lease'.entity? = none) (hworld : s'.world = s.world)
    (hreleased : s'.released = s.released) : s'.Balanced := by
  refine h.of_eq hworld hreleased ?_ ?_
  · simp only [entityLeases, leases, hframes, hframes', entityLeases_cons, hlease, hlease']
  · rw [unreleased, unreleased, hframes, hframes']
    rfl

theorem Balanced.startUpdate (h : s.Balanced) {lease : UpdateLease E}
    (hlease : lease.entity? = none) (hworld : s'.world = s.world)
    (hreleased : s'.released = s.released) (hframes : s'.frames = .scope lease :: s.frames) :
    s'.Balanced := by
  refine h.of_eq hworld hreleased ?_ ?_
  · simp only [entityLeases, leases, hframes, entityLeases_cons, hlease]
    rfl
  · rw [unreleased, unreleased, hframes]
    rfl

theorem Balanced.takeWindow (h : s.Balanced) {id : WindowId} (htake : s.takeWindow id = some s') :
    s'.Balanced := by
  unfold LeasingApp.takeWindow at htake
  split_ifs at htake
  obtain ⟨removed, -, rfl⟩ := Option.map_eq_some_iff.mp htake
  exact h.startUpdate rfl rfl rfl rfl

/-- A flush adds or removes frames without leases and without dropped entities. -/
theorem Balanced.of_frames (h : s.Balanced) (hworld : s'.world = s.world)
    (hreleased : s'.released = s.released)
    (hleases : s'.frames.filterMap AppFrame.lease? = s.frames.filterMap AppFrame.lease?)
    (hdropped : s'.frames.flatMap AppFrame.dropped = s.frames.flatMap AppFrame.dropped) :
    s'.Balanced :=
  h.of_eq hworld hreleased (by rw [entityLeases, leases, hleases]; rfl) hdropped

/-- An entity is put into its slot, and the update goes on without it. -/
theorem Balanced.built (h : s.Balanced) {lease : UpdateLease E} {rest : List (AppFrame E)}
    (hframes : s.frames = .scope lease :: rest) (hlease : lease.entity? = none)
    (hframes' : s'.frames = .scope .nothing :: rest) (hleased : Leased s'.world s.entityLeases)
    (htaken : s'.world.taken = s.world.taken) (hreleased : s'.released = s.released) :
    s'.Balanced := by
  refine h.of_world hleased htaken hreleased ?_ ?_
  · simp only [entityLeases, leases, hframes, hframes', entityLeases_cons, hlease]
    rfl
  · rw [unreleased, unreleased, hframes, hframes']
    rfl

theorem Balanced.stepped (h : s.Balanced) (hnested : s.Nested) (hstep : s.Stepped s') :
    s'.Balanced := by
  cases hstep with
  | unchanged | pushEffect => exact h.of_eq rfl rfl rfl rfl
  | startUpdate | insertEntity | openWindow | openFailed => exact h.startUpdate rfl rfl rfl rfl
  | finishUpdate hframes =>
    unfold finishUpdate
    split_ifs
    all_goals
      refine h.of_eq rfl rfl ?_ ?_
      · simp only [entityLeases, leases, hframes, entityLeases_cons]
        rfl
      · rw [unreleased, unreleased, hframes]
        rfl
  | handles hallowed hhandles hworld =>
    obtain ⟨world, hworld', hleased⟩ := h.leased.handles hhandles hallowed
    obtain rfl := Option.some.inj (hworld.symm.trans hworld')
    refine h.of_world hleased (EntityWorld.taken_of_step ?_ hworld) rfl rfl rfl
    rintro rfl
    exact hhandles
  | newEntity hfresh hreserved hworld =>
    obtain ⟨reserved, world, hreserved', hworld', hleased, htaken⟩ := h.leased.reserve hfresh
    obtain rfl := Option.some.inj (hreserved.symm.trans hreserved')
    obtain rfl := Option.some.inj (hworld.symm.trans hworld')
    exact h.of_world hleased htaken rfl rfl rfl
  | @finishCreated id rest entity _ _ _ _ hframes hid hcloned hbuilt hworld =>
    obtain ⟨cloned, built, world, hcloned', hbuilt', hworld', hleased, htaken⟩ :=
      h.leased.build hid entity
    obtain rfl := Option.some.inj (hcloned.symm.trans hcloned')
    obtain rfl := Option.some.inj (hbuilt.symm.trans hbuilt')
    obtain rfl := Option.some.inj (hworld.symm.trans hworld')
    exact h.built hframes rfl rfl hleased htaken rfl
  | finishInserted hframes hid hworld =>
    exact h.built hframes rfl rfl (h.leased.insert hid hworld)
      (EntityWorld.taken_of_step (by simp) hworld) rfl
  | leaseEntity _ hlease => exact ⟨h.leased.lease hlease, h.taken⟩
  | endLease hframes =>
    have hleased := h.leased
    have htaken := h.taken
    simp only [entityLeases, leases, hframes, entityLeases_cons] at hleased
    simp only [unreleased, hframes] at htaken
    exact ⟨hleased.endLease, htaken⟩
  | readEntity hread =>
    obtain ⟨entity, -, heq⟩ := Option.map_eq_some_iff.mp hread
    cases heq
    exact ⟨h.leased.accessed _, h.taken⟩
  | takeWindow htake => exact h.takeWindow htake
  | finishWindow hframes =>
    unfold trail
    dsimp only
    split_ifs
    all_goals exact h.setTop hframes rfl rfl rfl rfl rfl
  | finishClosing _ hframes | finishRootView hframes | finishOpen hframes =>
    exact h.setTop hframes rfl rfl rfl rfl rfl
  | removeWindow id =>
    refine h.of_eq rfl rfl ?_ ?_
    · simp only [entityLeases, leases, List.filterMap_map, List.filterMap_filterMap]
      refine List.filterMap_congr fun frame _ => ?_
      rcases frame with lease | _ | _
      · cases lease <;> rfl
      · rfl
      · rfl
    · rw [unreleased, unreleased, List.flatMap_map]
      refine List.flatMap_congr fun frame _ => ?_
      cases frame <;> rfl
  | @takeDropped _ _ _ dropped hframes htake =>
    -- nothing is on the stack
    have hleases : s.entityLeases = [] := by
      rw [entityLeases, hnested.leases_eq_nil hframes rfl]
      rfl
    have hleased := h.leased
    rw [hleases] at hleased
    obtain ⟨map, taken, htake', hleased'⟩ := hleased.takeDropped
    cases htake.symm.trans htake'
    refine ⟨?_, ?_⟩
    · rw [← hleases, entityLeases, leases, hframes] at hleased'
      exact hleased'
    · have htaken := h.taken
      simp only [unreleased, hframes, List.flatMap_cons] at htaken ⊢
      cases dropped with
      | nil => simpa [AppFrame.dropped] using htaken
      | cons p dropped =>
        have hperm := htaken.append_right (p :: dropped)
        refine hperm.trans ?_
        rw [List.append_assoc]
        exact List.Perm.append_left _ List.perm_append_comm
  | release hframes =>
    refine ⟨?_, ?_⟩
    · have hleased := h.leased
      rw [entityLeases, leases, hframes] at hleased
      exact hleased
    · have htaken := h.taken
      simp only [unreleased, hframes] at htaken ⊢
      simpa [AppFrame.dropped] using htaken
  | dropFocusHandle => exact h.of_frames rfl rfl rfl rfl
  | @flushEffect _ _ effect _ _ hframes =>
    cases effect with
    | entityCreated entity tid window =>
      cases window
      all_goals exact h.of_frames rfl rfl (by rw [hframes]; rfl) (by rw [hframes]; rfl)
    | refreshWindows | notify | emit | notifyGlobalObservers | defer =>
      exact h.of_frames rfl rfl (by rw [hframes]; rfl) (by rw [hframes]; rfl)
  | visit hframes htake =>
    refine Balanced.takeWindow ?_ htake
    exact h.of_frames rfl rfl (by rw [hframes]; rfl) (by rw [hframes]; rfl)
  | finishFocusHandles hframes | finishFlush hframes | finishFlushAlone hframes
  | returnCall hframes | shutdown hframes =>
    exact h.of_frames rfl rfl (by rw [hframes]; rfl) (by rw [hframes]; rfl)

end LeasingApp

end Lucie
