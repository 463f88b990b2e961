import Lucie.Foundation.SlotMap
import Lucie.Foundation.Run

/-!
# The entity map

Entities live in a secondary map under ids of a slot map of reference counts. A handle
that goes away as the last one of its entity only queues the id; `take_dropped` frees
the queued ids and hands out their entities. The counters are natural numbers: every
handle that they count occupies memory, so a `usize` does not overflow.
-/

set_option autoImplicit false

namespace Lucie

open Foundation

/-- `EntityId`, a key of the slot map of reference counts. -/
abbrev EntityId := SlotKey

/-- `EntityMap` with its `EntityRefCounts`. -/
structure EntityMap (E : Type) where
  entities : SecondaryMap E
  accessedEntities : Finset EntityId
  counts : SlotMap ℕ
  droppedEntityIds : List EntityId

namespace EntityMap

variable {E : Type}

/-- `EntityMap::new`. -/
def new : EntityMap E := ⟨.empty, ∅, .empty, []⟩

/-- `EntityMap::reserve`, given the key that the slot map hands out. -/
def reserve (m : EntityMap E) (key : EntityId) : EntityMap E :=
  { m with counts := m.counts.insert key 1 }

/-- `EntityMap::insert` into the slot of an id. -/
def insert (m : EntityMap E) (id : EntityId) (entity : E) : EntityMap E :=
  { m with
    accessedEntities := Insert.insert id m.accessedEntities
    entities := m.entities.insert id entity }

/-- `AnyEntity::clone`; `none` is a failed `expect` or `assert_ne`. -/
def cloneHandle (m : EntityMap E) (id : EntityId) : Option (EntityMap E) := do
  let prevCount ← m.counts.get id
  if prevCount = 0 then none
  else some { m with counts := m.counts.set id (prevCount + 1) }

/-- `AnyEntity::drop`; `none` is a failed `expect` or `assert_ne`. -/
def dropHandle (m : EntityMap E) (id : EntityId) : Option (EntityMap E) := do
  let prevCount ← m.counts.get id
  if prevCount = 0 then none
  else
    let m := { m with counts := m.counts.set id (prevCount - 1) }
    if prevCount = 1 then some { m with droppedEntityIds := m.droppedEntityIds ++ [id] }
    else some m

/-- `AnyWeakEntity::upgrade`; `none` is the answer `None`. -/
def upgrade (m : EntityMap E) (id : EntityId) : Option (EntityMap E) := do
  let refCount ← m.counts.get id
  if refCount = 0 then none
  else some { m with counts := m.counts.set id (refCount + 1) }

/-- The loop of `take_dropped` over the drained ids; `none` is a failed `unwrap` or
`debug_assert_eq`. An id that was reserved and not used has no entity. -/
def release (m : EntityMap E) : List EntityId → Option (EntityMap E × List (EntityId × E))
  | [] => some (m, [])
  | id :: ids => do
    let (count, counts) ← m.counts.remove id
    if count = 0 then
      let m := { m with counts, accessedEntities := m.accessedEntities.erase id }
      match m.entities.remove id with
      | none => release m ids
      | some (entity, entities) =>
        let (m, taken) ← release { m with entities } ids
        some (m, (id, entity) :: taken)
    else none

/-- `EntityMap::take_dropped`. -/
def takeDropped (m : EntityMap E) : Option (EntityMap E × List (EntityId × E)) :=
  release { m with droppedEntityIds := [] } m.droppedEntityIds

end EntityMap

/-- The map and the values that its callers hold: the slots and handles that are alive,
the weak handles, and what was inserted and taken so far. -/
structure EntityWorld (E : Type) where
  map : EntityMap E
  slots : List EntityId
  handles : List EntityId
  weakHandles : List EntityId
  inserted : List (EntityId × E)
  taken : List (EntityId × E)

/-- A step of the callers. A slot dereferences to its handle, so it can be cloned and
downgraded too. -/
inductive EntityAction (E : Type)
  | reserve (key : EntityId)
  | insert (id : EntityId) (entity : E)
  | cloneHandle (id : EntityId)
  | dropSlot (id : EntityId)
  | dropHandle (id : EntityId)
  | downgrade (id : EntityId)
  | upgrade (id : EntityId)
  | takeDropped

namespace EntityWorld

variable {E : Type}

/-- No values around a new map. -/
def new : EntityWorld E := ⟨.new, [], [], [], [], []⟩

/-- The strong handles that are alive, those inside of slots included. -/
def strong (s : EntityWorld E) : List EntityId := s.slots ++ s.handles

/-- The callers have the value that a step is about, and the slot map keeps its promise
on new keys. -/
def Allowed (s : EntityWorld E) : EntityAction E → Prop
  | .reserve key => s.map.counts.Fresh key
  | .insert id _ => id ∈ s.slots
  | .cloneHandle id => id ∈ s.strong
  | .dropSlot id => id ∈ s.slots
  | .dropHandle id => id ∈ s.handles
  | .downgrade id => id ∈ s.strong
  | .upgrade id => id ∈ s.weakHandles
  | .takeDropped => True

instance (s : EntityWorld E) : (a : EntityAction E) → Decidable (s.Allowed a)
  | .reserve key => inferInstanceAs (Decidable (s.map.counts.Fresh key))
  | .insert id _ | .dropSlot id => inferInstanceAs (Decidable (id ∈ s.slots))
  | .cloneHandle id | .downgrade id => inferInstanceAs (Decidable (id ∈ s.strong))
  | .dropHandle id => inferInstanceAs (Decidable (id ∈ s.handles))
  | .upgrade id => inferInstanceAs (Decidable (id ∈ s.weakHandles))
  | .takeDropped => inferInstanceAs (Decidable True)

/-- One step; `none` is a panic. -/
def step (s : EntityWorld E) : EntityAction E → Option (EntityWorld E)
  | .reserve key => some { s with map := s.map.reserve key, slots := key :: s.slots }
  | .insert id entity => some { s with
      map := s.map.insert id entity
      slots := s.slots.erase id
      handles := id :: s.handles
      inserted := (id, entity) :: s.inserted }
  | .cloneHandle id => do
    let map ← s.map.cloneHandle id
    some { s with map, handles := id :: s.handles }
  | .dropSlot id => do
    let map ← s.map.dropHandle id
    some { s with map, slots := s.slots.erase id }
  | .dropHandle id => do
    let map ← s.map.dropHandle id
    some { s with map, handles := s.handles.erase id }
  | .downgrade id => some { s with weakHandles := id :: s.weakHandles }
  | .upgrade id =>
    match s.map.upgrade id with
    | none => some s
    | some map => some { s with map, handles := id :: s.handles }
  | .takeDropped => do
    let (map, released) ← s.map.takeDropped
    some { s with map, taken := s.taken ++ released }

end EntityWorld

end Lucie
