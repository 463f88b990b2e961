import Lucie.Entity.EntityMap

/-!
# Reference counts and released entities

The counts, the queue of dropped ids and the stored entities stay in step: a count is the
number of strong handles, an id is queued exactly when its count is zero, and an entity is
stored as long as its slot is not freed.
-/

set_option autoImplicit false

namespace Lucie

open Foundation

variable {E : Type}

namespace EntityMap

/-- What the loop of `take_dropped` does with the drained ids. -/
structure Released (m : EntityMap E) (ids : List EntityId) (m' : EntityMap E)
    (taken : List (EntityId × E)) : Prop where
  counts : ∀ k, m'.counts.get k = if k ∈ ids then none else m.counts.get k
  issued : m'.counts.issued = m.counts.issued
  entities : ∀ k, m'.entities.get k = if k ∈ ids then none else m.entities.get k
  dropped : m'.droppedEntityIds = m.droppedEntityIds
  taken_iff : ∀ k e, (k, e) ∈ taken ↔ k ∈ ids ∧ m.entities.get k = some e
  sublist : (taken.map Prod.fst).Sublist ids

/-- One id is released before the others. -/
theorem Released.cons {m next m' : EntityMap E} {id : EntityId} {ids : List EntityId}
    {taken : List (EntityId × E)} (h : Released next ids m' taken) (hnot : id ∉ ids)
    (hcounts : ∀ k, next.counts.get k = if k = id then none else m.counts.get k)
    (hissued : next.counts.issued = m.counts.issued)
    (hentities : ∀ k, next.entities.get k = if k = id then none else m.entities.get k)
    (hdropped : next.droppedEntityIds = m.droppedEntityIds) :
    Released m (id :: ids) m' (((m.entities.get id).map (Prod.mk id)).toList ++ taken) := by
  constructor
  · intro k
    rw [h.counts, hcounts]
    by_cases heq : k = id
    · simp [heq]
    · simp [heq]
  · rw [h.issued, hissued]
  · intro k
    rw [h.entities, hentities]
    by_cases heq : k = id
    · simp [heq]
    · simp [heq]
  · rw [h.dropped, hdropped]
  · intro k e
    rw [List.mem_append, h.taken_iff, hentities]
    by_cases heq : k = id
    · subst heq
      simp [hnot]
    · simp [heq, Ne.symm heq]
  · cases m.entities.get id with
    | none => exact h.sublist.cons id
    | some e => exact h.sublist.cons_cons id

/-- Distinct ids of count zero are all released. -/
theorem release_spec (m : EntityMap E) {ids : List EntityId} (hnodup : ids.Nodup)
    (hzero : ∀ id ∈ ids, m.counts.get id = some 0) :
    ∃ m' taken, m.release ids = some (m', taken) ∧ Released m ids m' taken := by
  induction ids generalizing m with
  | nil => exact ⟨m, [], rfl, by simp, rfl, by simp, rfl, by simp, by simp⟩
  | cons id ids ih =>
    obtain ⟨hnot, hnodup⟩ := List.nodup_cons.mp hnodup
    set counts : SlotMap ℕ := { m.counts with get := Function.update m.counts.get id none }
      with hcounts
    have hremove : m.counts.remove id = some (0, counts) := by
      rw [SlotMap.remove, hzero id List.mem_cons_self]
      rfl
    have hget : ∀ k, counts.get k = if k = id then none else m.counts.get k :=
      fun k => Function.update_apply _ _ _ _
    have hzero' : ∀ k ∈ ids, counts.get k = some 0 := by
      intro k hk
      have hne : k ≠ id := fun heq => hnot (heq ▸ hk)
      rw [hget, if_neg hne, hzero k (List.mem_cons_of_mem _ hk)]
    cases hentity : m.entities.remove id with
    | none =>
      have hnone : m.entities.get id = none := by
        simpa [SecondaryMap.remove] using hentity
      have hentities : ∀ k, m.entities.get k = if k = id then none else m.entities.get k := by
        intro k
        split_ifs with heq
        · rw [heq, hnone]
        · rfl
      obtain ⟨m', taken, hrun, hreleased⟩ := ih
        { m with counts, accessedEntities := m.accessedEntities.erase id } hnodup hzero'
      have hcons := hreleased.cons (m := m) hnot hget rfl hentities rfl
      rw [hnone] at hcons
      exact ⟨m', taken, by simp [release, hremove, hentity, hrun], hcons⟩
    | some result =>
      obtain ⟨entity, entities⟩ := result
      obtain ⟨m', taken, hrun, hreleased⟩ := ih
        { m with counts, accessedEntities := m.accessedEntities.erase id, entities } hnodup hzero'
      have hcons := hreleased.cons (m := m) hnot hget rfl
        (fun k => (SecondaryMap.get_of_remove hentity k).2) rfl
      rw [(SecondaryMap.get_of_remove hentity id).1] at hcons
      exact ⟨m', (id, entity) :: taken, by simp [release, hremove, hentity, hrun], hcons⟩

/-- The count of an id that is in use was changed, and nothing else of its slot. -/
structure Recounted (m : EntityMap E) (id : EntityId) (m' : EntityMap E) : Prop where
  used : ∃ n, n ≠ 0 ∧ m.counts.get id = some n
  counts : ∃ n, m'.counts = m.counts.set id n
  entities : m'.entities = m.entities

theorem recounted_of_cloneHandle {m m' : EntityMap E} {id : EntityId}
    (h : m.cloneHandle id = some m') : Recounted m id m' := by
  obtain ⟨n, hget, h⟩ := Option.bind_eq_some_iff.mp h
  split_ifs at h with hzero
  obtain rfl := Option.some.inj h
  exact ⟨⟨n, hzero, hget⟩, ⟨_, rfl⟩, rfl⟩

theorem recounted_of_dropHandle {m m' : EntityMap E} {id : EntityId}
    (h : m.dropHandle id = some m') : Recounted m id m' := by
  obtain ⟨n, hget, h⟩ := Option.bind_eq_some_iff.mp h
  split_ifs at h with hzero hone
  all_goals
    obtain rfl := Option.some.inj h
    exact ⟨⟨n, hzero, hget⟩, ⟨_, rfl⟩, rfl⟩

theorem recounted_of_upgrade {m m' : EntityMap E} {id : EntityId}
    (h : m.upgrade id = some m') : Recounted m id m' := by
  obtain ⟨n, hget, h⟩ := Option.bind_eq_some_iff.mp h
  split_ifs at h with hzero
  obtain rfl := Option.some.inj h
  exact ⟨⟨n, hzero, hget⟩, ⟨_, rfl⟩, rfl⟩

/-- What every step but `take_dropped` keeps: freed ids stay free, queued ids stay queued,
and a slot in use stays in use with the entity in it. -/
structure Keeps (m m' : EntityMap E) : Prop where
  issued : m.counts.issued ⊆ m'.counts.issued
  free : ∀ id ∈ m.counts.issued, m.counts.get id = none → m'.counts.get id = none
  zero : ∀ id, m.counts.get id = some 0 → m'.counts.get id = some 0
  used : ∀ id, m.counts.get id ≠ none → m'.counts.get id ≠ none
  stored : ∀ id e, m.entities.get id = some e → m'.entities.get id = some e

theorem Keeps.refl (m : EntityMap E) : Keeps m m :=
  ⟨fun _ h => h, fun _ _ h => h, fun _ h => h, fun _ h => h, fun _ _ h => h⟩

theorem Recounted.keeps {m m' : EntityMap E} {id : EntityId} (h : Recounted m id m') :
    Keeps m m' := by
  obtain ⟨⟨n, hzero, hget⟩, ⟨n', hcounts⟩, hentities⟩ := h
  have hget' : ∀ k, m'.counts.get k = if k = id then some n' else m.counts.get k := by
    intro k
    rw [hcounts]
    exact Function.update_apply _ _ _ _
  constructor
  · rw [hcounts]
    exact fun _ h => h
  · intro k _ hk
    have hne : k ≠ id := fun heq => by simp [heq, hget] at hk
    rw [hget', if_neg hne, hk]
  · intro k hk
    have hne : k ≠ id := fun heq => by
      rw [heq, hget] at hk
      exact hzero (Option.some.inj hk)
    rw [hget', if_neg hne, hk]
  · intro k hk
    rw [hget']
    split_ifs
    · simp
    · exact hk
  · rw [hentities]
    exact fun _ _ h => h

end EntityMap

namespace EntityWorld

variable {s s' : EntityWorld E}

/-- The counts, the queue, the stored entities and the values of the callers agree. -/
structure Counted (s : EntityWorld E) : Prop where
  count : ∀ id n, s.map.counts.get id = some n → n = s.strong.count id
  live : ∀ id ∈ s.strong, s.map.counts.get id ≠ none
  dropped_iff : ∀ id, id ∈ s.map.droppedEntityIds ↔ s.map.counts.get id = some 0
  dropped_nodup : s.map.droppedEntityIds.Nodup
  issued : ∀ id, s.map.counts.get id ≠ none → id ∈ s.map.counts.issued
  index : ∀ id id', s.map.counts.get id ≠ none → s.map.counts.get id' ≠ none →
    id.index = id'.index → id = id'
  slots_nodup : s.slots.Nodup
  slots_new : ∀ id ∈ s.slots, id ∉ s.inserted.map Prod.fst
  inserted_nodup : (s.inserted.map Prod.fst).Nodup
  inserted_issued : ∀ id ∈ s.inserted.map Prod.fst, id ∈ s.map.counts.issued
  stored_iff : ∀ id e, s.map.entities.get id = some e ↔
    (id, e) ∈ s.inserted ∧ s.map.counts.get id ≠ none
  taken_iff : ∀ id e, (id, e) ∈ s.taken ↔ (id, e) ∈ s.inserted ∧ s.map.counts.get id = none
  taken_nodup : (s.taken.map Prod.fst).Nodup

theorem counted_new : Counted (new : EntityWorld E) := by
  constructor <;> simp [new, EntityMap.new, SlotMap.empty, SecondaryMap.empty, strong,
    SecondaryMap.get]

namespace Counted

/-- A strong handle is counted. -/
theorem exists_count (hcounted : Counted s) {id : EntityId} (hid : id ∈ s.strong) :
    s.map.counts.get id = some (s.strong.count id) ∧ 0 < s.strong.count id := by
  refine ⟨?_, List.count_pos_iff.mpr hid⟩
  cases hget : s.map.counts.get id with
  | none => exact absurd hget (hcounted.live id hid)
  | some n => rw [hcounted.count id n hget]

/-- The count of one id changes along with its handles. -/
theorem setCount (hcounted : Counted s) {id : EntityId} (hid : s.map.counts.get id ≠ none)
    {n : ℕ} {slots handles dropped : List EntityId} (hslots : slots.Sublist s.slots)
    (hcount : ∀ k, (slots ++ handles).count k = if k = id then n else s.strong.count k)
    (hdropped : ∀ k, k ∈ dropped ↔ if k = id then n = 0 else k ∈ s.map.droppedEntityIds)
    (hnodup : dropped.Nodup) :
    Counted { s with
      map := { s.map with counts := s.map.counts.set id n, droppedEntityIds := dropped }
      slots := slots
      handles := handles } := by
  have hget : ∀ k, (s.map.counts.set id n).get k =
      if k = id then some n else s.map.counts.get k := fun k => Function.update_apply _ _ _ _
  have hnone : ∀ k, (s.map.counts.set id n).get k = none ↔ s.map.counts.get k = none := by
    intro k
    rw [hget]
    split_ifs with heq
    · simp [heq, hid]
    · rfl
  constructor
  · intro k m hm
    rw [strong, hcount]
    dsimp only at hm
    rw [hget] at hm
    split_ifs at hm ⊢ with heq
    · exact (Option.some.inj hm).symm
    · exact hcounted.count k m hm
  · intro k hk
    rw [Ne, hnone]
    by_cases heq : k = id
    · rw [heq]
      exact hid
    · have hpos := List.count_pos_iff.mpr hk
      rw [strong, hcount, if_neg heq] at hpos
      exact hcounted.live k (List.count_pos_iff.mp hpos)
  · intro k
    rw [hdropped, hget]
    split_ifs with heq
    · simp
    · exact hcounted.dropped_iff k
  · exact hnodup
  · intro k hk
    exact hcounted.issued k (fun h => hk ((hnone k).mpr h))
  · intro k k' hk hk' hindex
    exact hcounted.index k k' (fun h => hk ((hnone k).mpr h)) (fun h => hk' ((hnone k').mpr h))
      hindex
  · exact hcounted.slots_nodup.sublist hslots
  · intro k hk
    exact hcounted.slots_new k (hslots.subset hk)
  · exact hcounted.inserted_nodup
  · exact hcounted.inserted_issued
  · intro k e
    rw [Ne, hnone]
    exact hcounted.stored_iff k e
  · intro k e
    rw [hnone]
    exact hcounted.taken_iff k e
  · exact hcounted.taken_nodup

/-- A reserved slot has one handle. -/
theorem reserve (hcounted : Counted s) {key : EntityId} (hfresh : s.map.counts.Fresh key) :
    Counted { s with map := s.map.reserve key, slots := key :: s.slots } := by
  have hnone : s.map.counts.get key = none := by
    by_contra hsome
    exact hfresh.1 (hcounted.issued key hsome)
  have hnot : key ∉ s.strong := fun hkey => hcounted.live key hkey hnone
  have hget : ∀ k, (s.map.counts.insert key 1).get k =
      if k = key then some 1 else s.map.counts.get k := fun k => Function.update_apply _ _ _ _
  have hindex : ∀ k, s.map.counts.get k ≠ none → k.index ≠ key.index := fun k hk =>
    hfresh.2 k (hcounted.issued k hk) (Option.isSome_iff_ne_none.mpr hk)
  have hinserted : key ∉ s.inserted.map Prod.fst := fun hkey =>
    hfresh.1 (hcounted.inserted_issued key hkey)
  have hpair : ∀ e, (key, e) ∉ s.inserted := fun e he => hinserted (List.mem_map_of_mem he)
  constructor
  · intro k n hn
    dsimp only [EntityMap.reserve] at hn
    rw [hget] at hn
    rw [strong, List.cons_append, List.count_cons]
    split_ifs at hn with heq
    · rw [heq, ← strong, List.count_eq_zero_of_not_mem hnot]
      simpa using (Option.some.inj hn).symm
    · rw [← strong, ← hcounted.count k n hn]
      simp [Ne.symm heq]
  · intro k hk
    dsimp only [EntityMap.reserve]
    rw [hget]
    split_ifs with heq
    · simp
    · rcases List.mem_cons.mp hk with hk | hk
      · exact absurd hk heq
      · exact hcounted.live k hk
  · intro k
    dsimp only [EntityMap.reserve]
    rw [hget, hcounted.dropped_iff]
    split_ifs with heq
    · simp [heq, hnone]
    · rfl
  · exact hcounted.dropped_nodup
  · intro k hk
    dsimp only [EntityMap.reserve] at hk ⊢
    rw [hget] at hk
    split_ifs at hk with heq
    · rw [heq]
      exact List.mem_cons_self
    · exact List.mem_cons_of_mem _ (hcounted.issued k hk)
  · intro k k' hk hk' heq
    dsimp only [EntityMap.reserve] at hk hk'
    rw [hget] at hk hk'
    split_ifs at hk hk' with hkey hkey' hkey'
    · rw [hkey, hkey']
    · exact absurd (hkey ▸ heq.symm) (hindex k' hk')
    · exact absurd (hkey' ▸ heq) (hindex k hk)
    · exact hcounted.index k k' hk hk' heq
  · exact List.nodup_cons.mpr ⟨fun hkey => hnot (List.mem_append_left _ hkey), hcounted.slots_nodup⟩
  · intro k hk
    rcases List.mem_cons.mp hk with rfl | hk
    · exact hinserted
    · exact hcounted.slots_new k hk
  · exact hcounted.inserted_nodup
  · intro k hk
    exact List.mem_cons_of_mem _ (hcounted.inserted_issued k hk)
  · intro k e
    dsimp only [EntityMap.reserve]
    rw [hcounted.stored_iff, hget]
    split_ifs with heq
    · simp [heq, hpair]
    · rfl
  · intro k e
    dsimp only [EntityMap.reserve]
    rw [hcounted.taken_iff, hget]
    split_ifs with heq
    · simp [heq, hpair]
    · rfl
  · exact hcounted.taken_nodup

/-- No other entity is stored at the index of a slot. -/
theorem slots_free (hcounted : Counted s) {id : EntityId} (hid : id ∈ s.slots) :
    s.map.entities.slots id.index = none := by
  cases hslot : s.map.entities.slots id.index with
  | none => rfl
  | some entry =>
    obtain ⟨version, e⟩ := entry
    have hget : s.map.entities.get ⟨id.index, version⟩ = some e :=
      SecondaryMap.get_eq_some.mpr hslot
    obtain ⟨hinserted, hlive⟩ := (hcounted.stored_iff _ e).mp hget
    have heq := hcounted.index _ id hlive (hcounted.live id (List.mem_append_left _ hid)) rfl
    rw [heq] at hinserted
    exact absurd (List.mem_map_of_mem hinserted) (hcounted.slots_new id hid)

/-- An insertion turns a slot into a handle. -/
theorem insert (hcounted : Counted s) {id : EntityId} (hid : id ∈ s.slots) (entity : E) :
    Counted { s with
      map := s.map.insert id entity
      slots := s.slots.erase id
      handles := id :: s.handles
      inserted := (id, entity) :: s.inserted } := by
  have hperm : (s.slots.erase id ++ id :: s.handles).Perm s.strong :=
    List.perm_middle.trans ((List.perm_cons_erase hid).symm.append_right s.handles)
  have hlive := hcounted.live id (List.mem_append_left _ hid)
  have hnew := hcounted.slots_new id hid
  have hget := SecondaryMap.get_insert entity (hcounted.slots_free hid)
  constructor
  · intro k n hn
    rw [strong, hperm.count_eq]
    exact hcounted.count k n hn
  · intro k hk
    exact hcounted.live k (hperm.mem_iff.mp hk)
  · exact hcounted.dropped_iff
  · exact hcounted.dropped_nodup
  · exact hcounted.issued
  · exact hcounted.index
  · exact hcounted.slots_nodup.erase id
  · intro k hk hmem
    rcases List.mem_cons.mp hmem with rfl | hmem
    · exact (hcounted.slots_nodup.not_mem_erase) hk
    · exact hcounted.slots_new k (List.mem_of_mem_erase hk) hmem
  · exact List.nodup_cons.mpr ⟨hnew, hcounted.inserted_nodup⟩
  · intro k hk
    rcases List.mem_cons.mp hk with rfl | hk
    · exact hcounted.issued _ hlive
    · exact hcounted.inserted_issued k hk
  · intro k e
    dsimp only [EntityMap.insert]
    rw [hget, List.mem_cons, Prod.mk.injEq]
    split_ifs with heq
    · subst heq
      have hpair : (k, e) ∉ s.inserted := fun he => hnew (List.mem_map_of_mem he)
      simp [hpair, hlive, eq_comm]
    · simp [heq, hcounted.stored_iff]
  · intro k e
    dsimp only [EntityMap.insert]
    rw [hcounted.taken_iff, List.mem_cons, Prod.mk.injEq]
    by_cases heq : k = id
    · simp [heq, hlive]
    · simp [heq]
  · exact hcounted.taken_nodup

/-- A cloned or upgraded handle is counted. -/
theorem grow (hcounted : Counted s) {id : EntityId} {n : ℕ} (hget : s.map.counts.get id = some n)
    (hpos : n ≠ 0) :
    Counted { s with
      map := { s.map with counts := s.map.counts.set id (n + 1) }
      handles := id :: s.handles } := by
  have hid : s.map.counts.get id ≠ none := by simp [hget]
  refine hcounted.setCount hid (List.Sublist.refl _) (fun k => ?_) (fun k => ?_)
    hcounted.dropped_nodup
  · rw [List.perm_middle.count_eq, List.count_cons, ← strong]
    split_ifs with hbeq heq heq
    · rw [heq, ← hcounted.count id n hget]
    · exact absurd (eq_of_beq hbeq).symm heq
    · exact absurd (by simp [heq]) hbeq
    · rfl
  · rw [hcounted.dropped_iff]
    split_ifs with heq
    · simp [heq, hget, hpos]
    · rfl

/-- A handle that goes away is no longer counted, and the last one queues the id. -/
theorem shrink (hcounted : Counted s) {id : EntityId} {slots handles : List EntityId}
    (hperm : s.strong.Perm (id :: (slots ++ handles))) (hslots : slots.Sublist s.slots) :
    ∃ map, s.map.dropHandle id = some map ∧
      Counted { s with map, slots := slots, handles := handles } := by
  obtain ⟨hget, hpos⟩ := hcounted.exists_count (hperm.mem_iff.mpr List.mem_cons_self)
  have hid : s.map.counts.get id ≠ none := by simp [hget]
  have hcount : ∀ k, (slots ++ handles).count k =
      if k = id then s.strong.count id - 1 else s.strong.count k := by
    intro k
    rw [hperm.count_eq, hperm.count_eq, List.count_cons_self, Nat.add_sub_cancel]
    by_cases heq : k = id
    · rw [if_pos heq, heq]
    · rw [if_neg heq, List.count_cons_of_ne (Ne.symm heq)]
  have hnot : id ∉ s.map.droppedEntityIds := by
    rw [hcounted.dropped_iff, hget]
    simp only [Option.some.injEq]
    omega
  simp only [EntityMap.dropHandle, hget, Option.bind_eq_bind, Option.bind_some,
    if_neg (Nat.ne_of_gt hpos)]
  split_ifs with hone
  · refine ⟨_, rfl, hcounted.setCount hid hslots hcount (fun k => ?_) ?_⟩
    · rw [List.mem_append, List.mem_singleton, hone]
      split_ifs with heq
      · simp [heq]
      · simp [heq]
    · exact List.nodup_append.mpr ⟨hcounted.dropped_nodup, List.nodup_singleton _, by
        intro k hk k' hk' heq
        rw [List.mem_singleton.mp hk'] at heq
        exact hnot (heq ▸ hk)⟩
  · refine ⟨_, rfl, hcounted.setCount hid hslots hcount (fun k => ?_) hcounted.dropped_nodup⟩
    split_ifs with heq
    · rw [heq]
      exact ⟨fun h => absurd h hnot, fun h => by omega⟩
    · rfl

/-- Releasing the queued ids frees their slots and hands out their entities. -/
theorem takeDropped (hcounted : Counted s) :
    ∃ map released, s.map.takeDropped = some (map, released) ∧
      Counted { s with map, taken := s.taken ++ released } ∧
      map.counts.issued = s.map.counts.issued ∧
      ∀ id, map.counts.get id = if id ∈ s.map.droppedEntityIds then none
        else s.map.counts.get id := by
  obtain ⟨map, released, hrun, hreleased⟩ :=
    EntityMap.release_spec { s.map with droppedEntityIds := [] } hcounted.dropped_nodup
      fun id hid => (hcounted.dropped_iff id).mp hid
  have hget : ∀ id, map.counts.get id = if id ∈ s.map.droppedEntityIds then none
      else s.map.counts.get id := hreleased.counts
  have hentities : ∀ id, map.entities.get id = if id ∈ s.map.droppedEntityIds then none
      else s.map.entities.get id := hreleased.entities
  have hreleased_iff : ∀ id e, (id, e) ∈ released ↔
      id ∈ s.map.droppedEntityIds ∧ (id, e) ∈ s.inserted := by
    intro id e
    rw [hreleased.taken_iff, hcounted.stored_iff]
    constructor
    · rintro ⟨hid, hinserted, -⟩
      exact ⟨hid, hinserted⟩
    · rintro ⟨hid, hinserted⟩
      exact ⟨hid, hinserted, by simp [(hcounted.dropped_iff id).mp hid]⟩
  have hissued : map.counts.issued = s.map.counts.issued := hreleased.issued
  have hkept : ∀ id, map.counts.get id ≠ none → s.map.counts.get id ≠ none := by
    intro id hid
    rw [hget] at hid
    split_ifs at hid with hdropped
    · exact absurd rfl hid
    · exact hid
  refine ⟨map, released, hrun, ?_, hissued, hget⟩
  constructor
  · intro id n hn
    dsimp only at hn
    rw [hget] at hn
    split_ifs at hn
    exact hcounted.count id n hn
  · intro id hid
    dsimp only
    rw [hget, if_neg]
    · exact hcounted.live id hid
    · rw [hcounted.dropped_iff, (hcounted.exists_count hid).1]
      have := (hcounted.exists_count hid).2
      simp only [Option.some.injEq]
      omega
  · intro id
    dsimp only
    rw [hreleased.dropped, hget]
    split_ifs with hdropped
    · simp
    · rw [← hcounted.dropped_iff]
      simp [hdropped]
  · dsimp only
    rw [hreleased.dropped]
    exact List.nodup_nil
  · intro id hid
    dsimp only
    rw [hissued]
    exact hcounted.issued id (hkept id hid)
  · intro id id' hid hid' hindex
    exact hcounted.index id id' (hkept id hid) (hkept id' hid') hindex
  · exact hcounted.slots_nodup
  · exact hcounted.slots_new
  · exact hcounted.inserted_nodup
  · intro id hid
    dsimp only
    rw [hissued]
    exact hcounted.inserted_issued id hid
  · intro id e
    dsimp only
    rw [hentities, hget]
    split_ifs with hdropped
    · simp
    · exact hcounted.stored_iff id e
  · intro id e
    dsimp only
    rw [List.mem_append, hreleased_iff, hcounted.taken_iff, hget]
    split_ifs with hdropped
    · simp only [hdropped, true_and, and_true]
      exact ⟨fun h => h.elim And.left (fun h => h), .inr⟩
    · simp [hdropped]
  · rw [List.map_append, List.nodup_append]
    refine ⟨hcounted.taken_nodup, hcounted.dropped_nodup.sublist hreleased.sublist, ?_⟩
    intro id hid id' hid' heq
    have hzero := (hcounted.dropped_iff id).mp (heq ▸ hreleased.sublist.subset hid')
    obtain ⟨p, hp, rfl⟩ := List.mem_map.mp hid
    have hfreed := ((hcounted.taken_iff p.1 p.2).mp hp).2
    rw [hzero] at hfreed
    cases hfreed

/-- No allowed step panics, and every one keeps the agreement. -/
theorem step (hcounted : Counted s) {a : EntityAction E} (hallowed : s.Allowed a) :
    ∃ s', s.step a = some s' ∧ Counted s' := by
  cases a with
  | reserve key => exact ⟨_, rfl, hcounted.reserve hallowed⟩
  | insert id entity => exact ⟨_, rfl, hcounted.insert hallowed entity⟩
  | cloneHandle id =>
    obtain ⟨hget, hpos⟩ := hcounted.exists_count hallowed
    refine ⟨_, ?_, hcounted.grow hget (Nat.ne_of_gt hpos)⟩
    simp [EntityWorld.step, EntityMap.cloneHandle, hget, Nat.ne_of_gt hpos]
  | dropSlot id =>
    obtain ⟨map, hdrop, hcounted'⟩ := hcounted.shrink
      ((List.perm_cons_erase hallowed).append_right s.handles) List.erase_sublist
    exact ⟨_, by simp [EntityWorld.step, hdrop], hcounted'⟩
  | dropHandle id =>
    obtain ⟨map, hdrop, hcounted'⟩ := hcounted.shrink
      (((List.perm_cons_erase hallowed).append_left s.slots).trans List.perm_middle)
      (List.Sublist.refl _)
    exact ⟨_, by simp [EntityWorld.step, hdrop], hcounted'⟩
  | downgrade id => exact ⟨_, rfl, ⟨hcounted.count, hcounted.live, hcounted.dropped_iff,
      hcounted.dropped_nodup, hcounted.issued, hcounted.index, hcounted.slots_nodup,
      hcounted.slots_new, hcounted.inserted_nodup, hcounted.inserted_issued, hcounted.stored_iff,
      hcounted.taken_iff, hcounted.taken_nodup⟩⟩
  | upgrade id =>
    cases hget : s.map.counts.get id with
    | none => exact ⟨s, by simp [EntityWorld.step, EntityMap.upgrade, hget], hcounted⟩
    | some n =>
      by_cases hzero : n = 0
      · exact ⟨s, by simp [EntityWorld.step, EntityMap.upgrade, hget, hzero], hcounted⟩
      · refine ⟨_, ?_, hcounted.grow hget hzero⟩
        simp [EntityWorld.step, EntityMap.upgrade, hget, hzero]
  | takeDropped =>
    obtain ⟨map, released, hrun, hcounted', -, -⟩ := hcounted.takeDropped
    exact ⟨_, by simp [EntityWorld.step, hrun], hcounted'⟩

end Counted

/-- The agreement holds throughout every run. -/
theorem counted_of_run {actions : List (EntityAction E)} (hstart : Counted s)
    (run : Run step Allowed s actions s') : Counted s' :=
  run.invariant (fun _ s => Counted s) hstart fun _ s a next hcounted hallowed hstep => by
    obtain ⟨next', hstep', hcounted'⟩ := hcounted.step hallowed
    obtain rfl := Option.some.inj (hstep.symm.trans hstep')
    exact hcounted'

/-- Only `take_dropped` frees a slot. -/
theorem Counted.keeps (hcounted : Counted s) {a : EntityAction E} (hallowed : s.Allowed a)
    (hne : a ≠ .takeDropped) (hstep : s.step a = some s') : s.map.Keeps s'.map := by
  cases a with
  | reserve key =>
    obtain rfl := Option.some.inj hstep
    obtain ⟨hnot, -⟩ : s.map.counts.Fresh key := hallowed
    have hget : ∀ k, (s.map.reserve key).counts.get k =
        if k = key then some 1 else s.map.counts.get k := fun k => Function.update_apply _ _ _ _
    have hnone : s.map.counts.get key = none := by
      by_contra hsome
      exact hnot (hcounted.issued key hsome)
    constructor
    · exact List.subset_cons_self _ _
    · intro id hid hfree
      have hkey : id ≠ key := fun heq => hnot (heq ▸ hid)
      rw [hget, if_neg hkey, hfree]
    · intro id hzero
      have hkey : id ≠ key := fun heq => by simp [heq, hnone] at hzero
      rw [hget, if_neg hkey, hzero]
    · intro id hused
      rw [hget]
      split_ifs
      · simp
      · exact hused
    · exact fun _ _ h => h
  | insert id entity =>
    obtain rfl := Option.some.inj hstep
    refine ⟨fun _ h => h, fun _ _ h => h, fun _ h => h, fun _ h => h, fun k e hk => ?_⟩
    have hid : id ∈ s.slots := hallowed
    have hkey : k ≠ id := fun heq => by
      subst heq
      have hinserted := ((hcounted.stored_iff k e).mp hk).1
      exact hcounted.slots_new k hid (List.mem_map_of_mem hinserted)
    dsimp only [EntityMap.insert]
    rw [SecondaryMap.get_insert entity (hcounted.slots_free hid), if_neg hkey, hk]
  | cloneHandle id =>
    obtain ⟨map, hmap, hstep⟩ := Option.bind_eq_some_iff.mp hstep
    obtain rfl := Option.some.inj hstep
    exact (EntityMap.recounted_of_cloneHandle hmap).keeps
  | dropSlot id | dropHandle id =>
    obtain ⟨map, hmap, hstep⟩ := Option.bind_eq_some_iff.mp hstep
    obtain rfl := Option.some.inj hstep
    exact (EntityMap.recounted_of_dropHandle hmap).keeps
  | downgrade id =>
    obtain rfl := Option.some.inj hstep
    exact .refl _
  | upgrade id =>
    rw [EntityWorld.step] at hstep
    cases hmap : s.map.upgrade id with
    | none =>
      rw [hmap] at hstep
      obtain rfl := Option.some.inj hstep
      exact .refl _
    | some map =>
      rw [hmap] at hstep
      obtain rfl := Option.some.inj hstep
      exact (EntityMap.recounted_of_upgrade hmap).keeps
  | takeDropped => exact absurd rfl hne

/-- The last strong handle of an id went away. -/
def Gone (s : EntityWorld E) (id : EntityId) : Prop :=
  id ∈ s.map.counts.issued ∧ (s.map.counts.get id = none ∨ s.map.counts.get id = some 0)

/-- A weak handle of such an id cannot be upgraded. -/
theorem Gone.upgrade_eq_none {id : EntityId} (hgone : s.Gone id) : s.map.upgrade id = none := by
  rcases hgone.2 with hget | hget
  · simp [EntityMap.upgrade, hget]
  · simp [EntityMap.upgrade, hget]

/-- An id whose count reached zero is not counted again. -/
theorem Gone.step (hcounted : Counted s) {id : EntityId} (hgone : s.Gone id)
    {a : EntityAction E} (hallowed : s.Allowed a) (hstep : s.step a = some s') : s'.Gone id := by
  by_cases htake : a = .takeDropped
  · subst htake
    obtain ⟨map, released, hrun, -, hissued, hget⟩ := hcounted.takeDropped
    simp only [EntityWorld.step, hrun, Option.bind_eq_bind, Option.bind_some,
      Option.some.injEq] at hstep
    subst hstep
    refine ⟨by rw [hissued]; exact hgone.1, ?_⟩
    dsimp only
    rw [hget]
    split_ifs
    · exact .inl rfl
    · exact hgone.2
  · have hkeeps := hcounted.keeps hallowed htake hstep
    refine ⟨hkeeps.issued hgone.1, ?_⟩
    rcases hgone.2 with hfree | hzero
    · exact .inl (hkeeps.free id hgone.1 hfree)
    · exact .inr (hkeeps.zero id hzero)

/-- In every continuation an id whose count reached zero stays without handles. -/
theorem Gone.of_run (hcounted : Counted s) {id : EntityId} (hgone : s.Gone id)
    {more : List (EntityAction E)} (run : Run EntityWorld.step Allowed s more s') : s'.Gone id :=
  (run.invariant (fun _ s => Counted s ∧ s.Gone id) ⟨hcounted, hgone⟩
    fun _ s a next hinv hallowed hstep => by
      obtain ⟨next', hstep', hcounted'⟩ := hinv.1.step hallowed
      obtain rfl := Option.some.inj (hstep.symm.trans hstep')
      exact ⟨hcounted', hinv.2.step hinv.1 hallowed hstep⟩).2

/-- Without a `take_dropped`, the slot of an id is not freed, its entity stays, and no
other id gets its index. -/
theorem Counted.occupied_of_run (hcounted : Counted s) {id : EntityId}
    (hid : s.map.counts.get id ≠ none) {more : List (EntityAction E)}
    (run : Run EntityWorld.step Allowed s more s') (htake : .takeDropped ∉ more) :
    s'.map.counts.get id ≠ none ∧
      (∀ e, s.map.entities.get id = some e → s'.map.entities.get id = some e) ∧
      ∀ key, .reserve key ∈ more → key.index ≠ id.index := by
  refine (run.invariant (fun more s' => .takeDropped ∉ more → Counted s' ∧
    s'.map.counts.get id ≠ none ∧
    (∀ e, s.map.entities.get id = some e → s'.map.entities.get id = some e) ∧
    ∀ key, .reserve key ∈ more → key.index ≠ id.index)
    (fun _ => ⟨hcounted, hid, fun _ h => h, by simp⟩) ?_ htake).2
  intro more s₁ a s₂ hinv hallowed hstep htake
  rw [List.mem_append, List.mem_singleton, not_or] at htake
  obtain ⟨hcounted₁, hid₁, hstored, hkeys⟩ := hinv htake.1
  obtain ⟨s₃, hstep', hcounted₂⟩ := hcounted₁.step hallowed
  obtain rfl := Option.some.inj (hstep.symm.trans hstep')
  have hkeeps := hcounted₁.keeps hallowed (Ne.symm htake.2) hstep
  refine ⟨hcounted₂, hkeeps.used id hid₁, fun e he => hkeeps.stored id e (hstored e he), ?_⟩
  intro key hkey
  rcases List.mem_append.mp hkey with hkey | hkey
  · exact hkeys key hkey
  · -- the slot map hands out an index only when it is not in use
    obtain rfl := List.mem_singleton.mp hkey
    obtain ⟨-, hfresh⟩ : s₁.map.counts.Fresh key := hallowed
    exact (hfresh id (hcounted₁.issued id hid₁) (Option.isSome_iff_ne_none.mpr hid₁)).symm

/-- What the callers of an entity map can rely on. -/
structure Reliable (s : EntityWorld E) : Prop where
  /-- The stored count is the number of strong handles, and a freed id has none. -/
  count : ∀ id, s.map.counts.get id = some (s.strong.count id) ∨
    s.map.counts.get id = none ∧ s.strong.count id = 0
  /-- An id is queued at most once, and exactly when its count is zero. -/
  dropped_iff : ∀ id, id ∈ s.map.droppedEntityIds ↔ s.map.counts.get id = some 0
  dropped_nodup : s.map.droppedEntityIds.Nodup
  /-- Once the count reached zero, no upgrade succeeds any more. -/
  upgrade : ∀ id, s.map.counts.get id = some 0 → ∀ more s', Run step Allowed s more s' →
    s'.map.upgrade id = none
  /-- A slot is not freed or reused before the next `take_dropped`. -/
  occupied : ∀ id, s.map.counts.get id ≠ none → ∀ more s', Run step Allowed s more s' →
    .takeDropped ∉ more → s'.map.counts.get id ≠ none ∧
      (∀ e, s.map.entities.get id = some e → s'.map.entities.get id = some e) ∧
      ∀ key, .reserve key ∈ more → key.index ≠ id.index
  /-- No step panics. -/
  step : ∀ a, s.Allowed a → s.step a ≠ none
  /-- An entity was taken at most once, and only after its last strong handle went away. -/
  taken_nodup : (s.taken.map Prod.fst).Nodup
  taken : ∀ id e, (id, e) ∈ s.taken → (id, e) ∈ s.inserted ∧ s.strong.count id = 0
  /-- The next `take_dropped` takes all entities without strong handles. -/
  takeDropped : ∀ s', s.step .takeDropped = some s' → ∀ id e, (id, e) ∈ s.inserted →
    s.strong.count id = 0 → (id, e) ∈ s'.taken

/-- Every run of the entity map is reliable. -/
theorem reliable_of_run {actions : List (EntityAction E)} (run : Run step Allowed new actions s) :
    Reliable s := by
  have hcounted := counted_of_run counted_new run
  have hcount : ∀ id, s.map.counts.get id = some (s.strong.count id) ∨
      s.map.counts.get id = none ∧ s.strong.count id = 0 := by
    intro id
    cases hget : s.map.counts.get id with
    | none =>
      exact .inr ⟨rfl, List.count_eq_zero.mpr fun hid => hcounted.live id hid hget⟩
    | some n => exact .inl (congrArg some (hcounted.count id n hget))
  constructor
  · exact hcount
  · exact hcounted.dropped_iff
  · exact hcounted.dropped_nodup
  · intro id hzero more s' run'
    have hgone : s.Gone id := ⟨hcounted.issued id (by simp [hzero]), .inr hzero⟩
    exact (hgone.of_run hcounted run').upgrade_eq_none
  · intro id hid more s' run' htake
    exact hcounted.occupied_of_run hid run' htake
  · intro a hallowed
    obtain ⟨s', hstep, -⟩ := hcounted.step hallowed
    simp [hstep]
  · exact hcounted.taken_nodup
  · intro id e htaken
    obtain ⟨hinserted, hfreed⟩ := (hcounted.taken_iff id e).mp htaken
    rcases hcount id with hget | hget
    · simp [hget] at hfreed
    · exact ⟨hinserted, hget.2⟩
  · intro s' hstep id e hinserted hzero
    obtain ⟨map, released, hrun, hcounted', -, hget⟩ := hcounted.takeDropped
    simp only [EntityWorld.step, hrun, Option.bind_eq_bind, Option.bind_some,
      Option.some.injEq] at hstep
    subst hstep
    refine (hcounted'.taken_iff id e).mpr ⟨hinserted, ?_⟩
    dsimp only
    rw [hget]
    split_ifs with hdropped
    · rfl
    · rcases hcount id with hget | hget
      · rw [hzero] at hget
        exact absurd ((hcounted.dropped_iff id).mpr hget) hdropped
      · exact hget.1

/-- A weak handle does not keep its entity. -/
def upgradeActions : List (EntityAction ℕ) :=
  [.reserve ⟨1, 1⟩, .insert ⟨1, 1⟩ 7, .downgrade ⟨1, 1⟩, .cloneHandle ⟨1, 1⟩, .dropHandle ⟨1, 1⟩,
    .dropHandle ⟨1, 1⟩, .upgrade ⟨1, 1⟩, .takeDropped]

theorem reliable_of_run_upgrade :
    ∃ s, execute step Allowed new upgradeActions = some s ∧ s.handles = [] ∧
      s.taken = [(⟨1, 1⟩, 7)] ∧ Reliable s :=
  ⟨_, rfl, rfl, rfl,
    reliable_of_run (Run.of_execute (rfl : execute step Allowed new upgradeActions = some _))⟩

end EntityWorld

end Lucie
