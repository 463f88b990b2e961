import Lucie.Window.ElementStates

/-!
# The identifiers of elements

An element is known by the ids of the elements around it and its own, outermost first. Their
hashes are mixed into the one number under which the state of the element is kept from frame to
frame; nothing else of the path is compared.
-/

set_option autoImplicit false

namespace Lucie.Identity

/-- `mix_hashes`: the low and the high half of the product of two hashes. -/
def mixHashes (a b : BitVec 64) : BitVec 64 :=
  let r := a.setWidth 128 * b.setWidth 128
  r.setWidth 64 ^^^ (r >>> 64).setWidth 64

/-- An `ElementId`, which is a hash. -/
structure ElementId where
  asU64 : BitVec 64
deriving DecidableEq

/-- A `GlobalElementId`. -/
structure GlobalElementId where
  hash : BitVec 64
deriving DecidableEq

/-- `GlobalElementId::new`; there is none for an empty stack. -/
def GlobalElementId.new : List ElementId → Option GlobalElementId
  | [] => none
  | id :: idStack => some ⟨idStack.foldl (fun hash x => mixHashes hash x.asU64) id.asU64⟩

/-! ## The mixer -/

theorem mixHashes_comm (a b : BitVec 64) : mixHashes a b = mixHashes b a := by
  simp only [mixHashes, BitVec.mul_comm (a.setWidth 128)]

@[simp] theorem zero_mixHashes (a : BitVec 64) : mixHashes 0 a = 0 := by
  simp [mixHashes]

@[simp] theorem mixHashes_zero (a : BitVec 64) : mixHashes a 0 = 0 := by
  rw [mixHashes_comm, zero_mixHashes]

/-- One leaves a hash as it is. -/
@[simp] theorem mixHashes_one (a : BitVec 64) : mixHashes a 1 = a := by
  have hone : (1 : BitVec 64).setWidth 128 = 1 := by decide
  have hhigh : (a.setWidth 128 >>> 64).setWidth 64 = 0 := by
    apply BitVec.eq_of_toNat_eq
    have ha := a.isLt
    simp only [BitVec.toNat_setWidth, BitVec.toNat_ushiftRight, Nat.shiftRight_eq_div_pow]
    simp
    omega
  have hlow : (a.setWidth 128).setWidth 64 = a :=
    BitVec.setWidth_setWidth_of_le a (by decide) |>.trans (BitVec.setWidth_eq a)
  have hmul : a.setWidth 128 * 1 = a.setWidth 128 := BitVec.mul_one _
  rw [mixHashes, hone, hmul, hhigh, hlow]
  exact BitVec.xor_zero

/-! ## The path of an element -/

namespace GlobalElementId

/-- What `new` mixes into the identifier of a path. -/
def extend (id : GlobalElementId) (below : List ElementId) : GlobalElementId :=
  ⟨below.foldl (fun hash x => mixHashes hash x.asU64) id.hash⟩

@[simp] theorem extend_nil (id : GlobalElementId) : id.extend [] = id := rfl

@[simp] theorem extend_cons (id : GlobalElementId) (x : ElementId) (below : List ElementId) :
    id.extend (x :: below) = extend ⟨mixHashes id.hash x.asU64⟩ below := rfl

@[simp] theorem new_cons (id : ElementId) (below : List ElementId) :
    new (id :: below) = some (extend ⟨id.asU64⟩ below) := rfl

/-- The identifier of a path is all that the elements below it depend on. -/
theorem new_append {path : List ElementId} {id : GlobalElementId} (hpath : new path = some id)
    (below : List ElementId) : new (path ++ below) = some (id.extend below) := by
  cases path with
  | nil => cases hpath
  | cons outer path =>
    obtain rfl := Option.some.inj hpath
    simp only [List.cons_append, new_cons, extend, List.foldl_append]

theorem exists_new {path : List ElementId} (hpath : path ≠ []) : ∃ id, new path = some id := by
  cases path with
  | nil => exact absurd rfl hpath
  | cons outer path => exact ⟨_, rfl⟩

/-- The outermost two elements can be exchanged. -/
theorem new_swap (a b : ElementId) (below : List ElementId) :
    new (a :: b :: below) = new (b :: a :: below) := by
  simp only [new_cons, extend_cons, mixHashes_comm a.asU64]

/-- Some pair of elements can be exchanged under any path. -/
theorem exists_swap (path : List ElementId) :
    ∃ a b : ElementId, a ≠ b ∧
      ∀ below, new (path ++ a :: b :: below) = new (path ++ b :: a :: below) := by
  refine ⟨⟨0⟩, ⟨1⟩, by decide, fun below => ?_⟩
  by_cases hpath : path = []
  · subst hpath
    exact new_swap _ _ below
  · obtain ⟨id, hid⟩ := exists_new hpath
    simp only [new_append hid, extend_cons, mixHashes_zero, zero_mixHashes]

/-- All elements in a path are the same one exactly when the path is mixed to zero. -/
theorem forall_new_eq_iff {path : List ElementId} {id : GlobalElementId}
    (hpath : new path = some id) :
    (∀ a b, new (path ++ [a]) = new (path ++ [b])) ↔ id.hash = 0 := by
  simp only [new_append hpath, extend_cons, extend_nil, Option.some.injEq, mk.injEq]
  constructor
  · intro hsame
    have h := hsame ⟨1⟩ ⟨0⟩
    rwa [mixHashes_one, mixHashes_zero] at h
  · intro hzero a b
    rw [hzero, zero_mixHashes, zero_mixHashes]

/-- Elements are told apart under a path: two that are nested in each other from the other
nesting, whatever is below them, and one from some other. -/
structure Distinguishes (path : List ElementId) : Prop where
  nestings : ∀ a b : ElementId, a ≠ b → ∀ below,
    new (path ++ a :: b :: below) ≠ new (path ++ b :: a :: below)
  elements : ∃ a b, new (path ++ [a]) ≠ new (path ++ [b])

end GlobalElementId

/-! ## The state of an element -/

variable {S V : Type} [DecidableEq S]

/-- What an element returns as its state is what an element that is nested the other way finds. -/
theorem elementState_swap (w w' : Drawing.StateWindow (Option GlobalElementId × S) V)
    (a b : ElementId) (below : List ElementId) (type : S) (value : V)
    (hleave : (w.enter (GlobalElementId.new (a :: b :: below), type)).leave value = some w') :
    w'.elementState (GlobalElementId.new (b :: a :: below), type) = some value := by
  rw [GlobalElementId.new_swap] at hleave
  obtain rfl := Option.some.inj hleave
  simp [Drawing.StateWindow.elementState, Drawing.StateWindow.enter]

end Lucie.Identity
