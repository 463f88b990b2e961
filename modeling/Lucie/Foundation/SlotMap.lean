import Mathlib

/-!
# Slot maps

Maps with versioned keys. A slot map hands out its keys itself: a new key was never
handed out before and its index is not in use. A secondary map stores at most one value
for each index, under one version of it.
-/

set_option autoImplicit false

namespace Lucie.Foundation

variable {V : Type}

/-- A key of a slot map: an index and the version of the slot at that index. -/
@[ext] structure SlotKey where
  index : ℕ
  version : ℕ
  deriving DecidableEq

/-- `SlotMap`: the values, and the keys handed out so far. -/
structure SlotMap (V : Type) where
  get : SlotKey → Option V
  issued : List SlotKey

namespace SlotMap

/-- A map without values that never handed out a key. -/
def empty : SlotMap V := ⟨fun _ => none, []⟩

/-- What the map promises of the next key. -/
def Fresh (m : SlotMap V) (key : SlotKey) : Prop :=
  key ∉ m.issued ∧ ∀ k ∈ m.issued, (m.get k).isSome → k.index ≠ key.index

instance (m : SlotMap V) (key : SlotKey) : Decidable (m.Fresh key) := inferInstanceAs
  (Decidable (_ ∧ _))

/-- Store a value under a new key. -/
def insert (m : SlotMap V) (key : SlotKey) (v : V) : SlotMap V :=
  ⟨Function.update m.get key (some v), key :: m.issued⟩

/-- Change the value of a key. -/
def set (m : SlotMap V) (key : SlotKey) (v : V) : SlotMap V :=
  { m with get := Function.update m.get key (some v) }

/-- Free the slot of a key. -/
def remove (m : SlotMap V) (key : SlotKey) : Option (V × SlotMap V) :=
  (m.get key).map fun v => (v, { m with get := Function.update m.get key none })

end SlotMap

/-- `SecondaryMap`: at every index the version and the value stored there. -/
structure SecondaryMap (V : Type) where
  slots : ℕ → Option (ℕ × V)

namespace SecondaryMap

/-- A map without values. -/
def empty : SecondaryMap V := ⟨fun _ => none⟩

/-- The value of a key, if its version is the stored one. -/
def get (m : SecondaryMap V) (key : SlotKey) : Option V :=
  match m.slots key.index with
  | some (version, v) => if version = key.version then some v else none
  | none => none

/-- Store a value; it takes the place of an older version and not of a newer one. -/
def insert (m : SecondaryMap V) (key : SlotKey) (v : V) : SecondaryMap V :=
  match m.slots key.index with
  | some (version, _) =>
    if key.version < version then m
    else ⟨Function.update m.slots key.index (some (key.version, v))⟩
  | none => ⟨Function.update m.slots key.index (some (key.version, v))⟩

/-- Take the value of a key out of the map. -/
def remove (m : SecondaryMap V) (key : SlotKey) : Option (V × SecondaryMap V) :=
  (m.get key).map fun v => (v, ⟨Function.update m.slots key.index none⟩)

theorem get_eq_some {m : SecondaryMap V} {key : SlotKey} {v : V} :
    m.get key = some v ↔ m.slots key.index = some (key.version, v) := by
  unfold get
  cases m.slots key.index with
  | none => simp
  | some entry =>
    obtain ⟨version, w⟩ := entry
    by_cases heq : version = key.version
    · simp [heq]
    · simp [heq]

/-- A key of another index is not affected. -/
theorem get_update_of_ne {m : SecondaryMap V} {key key' : SlotKey} (hne : key'.index ≠ key.index)
    (entry : Option (ℕ × V)) : get ⟨Function.update m.slots key.index entry⟩ key' = m.get key' := by
  simp only [get, Function.update_of_ne hne]

/-- Where no index is shared, an insertion is seen under its key only. -/
theorem get_insert {m : SecondaryMap V} {key : SlotKey} (v : V)
    (hfree : m.slots key.index = none) (key' : SlotKey) :
    (m.insert key v).get key' = if key' = key then some v else m.get key' := by
  rw [insert, hfree]
  by_cases hindex : key'.index = key.index
  · have hnone : m.get key' = none := by rw [get, hindex, hfree]
    rw [hnone, get]
    simp only [hindex, Function.update_self]
    by_cases hversion : key.version = key'.version
    · rw [if_pos hversion, if_pos (SlotKey.ext hindex hversion.symm)]
    · rw [if_neg hversion, if_neg fun heq => hversion (by rw [heq])]
  · rw [get_update_of_ne hindex, if_neg fun heq => hindex (by rw [heq])]

/-- A key that is removed was stored, and is the only one that goes. -/
theorem get_of_remove {m m' : SecondaryMap V} {key : SlotKey} {v : V}
    (h : m.remove key = some (v, m')) (key' : SlotKey) :
    m.get key = some v ∧ m'.get key' = if key' = key then none else m.get key' := by
  simp only [remove, Option.map_eq_some_iff, Prod.mk.injEq] at h
  obtain ⟨w, hget, rfl, rfl⟩ := h
  refine ⟨hget, ?_⟩
  by_cases hindex : key'.index = key.index
  · simp only [get, hindex, Function.update_self, get_eq_some.mp hget]
    by_cases hversion : key.version = key'.version
    · rw [if_pos (SlotKey.ext hindex hversion.symm)]
    · rw [if_neg hversion, ite_self]
  · rw [get_update_of_ne hindex, if_neg fun heq => hindex (by rw [heq])]

end SecondaryMap

end Lucie.Foundation
