import Mathlib.Data.List.Basic
import Mathlib.Logic.Function.Basic
import Mathlib.Tactic.Tauto

/-!
# A map and its reverse index

Each value has a list of keys, and the index has the values of each key. When a value gets other
keys, it is removed from the index at the old ones and inserted at the new ones.
-/

set_option autoImplicit false

namespace Lucie.Foundation

variable {K V : Type} [DecidableEq K] [DecidableEq V]

/-- Remove a value at a key. -/
def removeAt (value : V) (index : K → List V) (key : K) : K → List V :=
  Function.update index key ((index key).filter fun v => v ≠ value)

/-- Insert a value at a key. -/
def insertAt (value : V) (index : K → List V) (key : K) : K → List V :=
  Function.update index key ((index key).insert value)

theorem mem_removeAt {value v : V} {index : K → List V} {key k : K} :
    v ∈ removeAt value index key k ↔ v ∈ index k ∧ ¬(v = value ∧ k = key) := by
  by_cases hk : k = key
  · subst hk
    simp [removeAt]
  · simp [removeAt, hk]

theorem mem_insertAt {value v : V} {index : K → List V} {key k : K} :
    v ∈ insertAt value index key k ↔ v ∈ index k ∨ (v = value ∧ k = key) := by
  by_cases hk : k = key
  · subst hk
    simp [insertAt, or_comm]
  · simp [insertAt, hk]

theorem mem_foldl_removeAt {value v : V} {index : K → List V} {keys : List K} {k : K} :
    v ∈ keys.foldl (removeAt value) index k ↔ v ∈ index k ∧ ¬(v = value ∧ k ∈ keys) := by
  induction keys generalizing index with
  | nil => simp
  | cons key keys ih =>
    rw [List.foldl_cons, ih, mem_removeAt, List.mem_cons]
    tauto

theorem mem_foldl_insertAt {value v : V} {index : K → List V} {keys : List K} {k : K} :
    v ∈ keys.foldl (insertAt value) index k ↔ v ∈ index k ∨ (v = value ∧ k ∈ keys) := by
  induction keys generalizing index with
  | nil => simp
  | cons key keys ih =>
    rw [List.foldl_cons, ih, mem_insertAt, List.mem_cons]
    tauto

/-- A value is in the index at a key when the key is one of its keys. -/
def Inverse (index : K → List V) (keysOf : V → List K) : Prop :=
  ∀ k v, v ∈ index k ↔ k ∈ keysOf v

/-- Other keys for a value. -/
theorem Inverse.reindex {index : K → List V} {keysOf : V → List K} (h : Inverse index keysOf)
    (value : V) (keys : List K) :
    Inverse (keys.foldl (insertAt value) ((keysOf value).foldl (removeAt value) index))
      (Function.update keysOf value keys) := by
  intro k v
  rw [mem_foldl_insertAt, mem_foldl_removeAt]
  by_cases hv : v = value
  · -- only the new keys are left
    subst hv
    rw [Function.update_self]
    have := h k v
    tauto
  · rw [Function.update_of_ne hv]
    have := h k v
    tauto

end Lucie.Foundation
