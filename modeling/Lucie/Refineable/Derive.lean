import Mathlib.Data.List.ReduceOption

/-!
# The code of `#[derive(Refineable)]`

A refinement has, for every field of its struct, a value that replaces the one of the struct or
none. The macro writes each method field by field, for the struct and again for its refinement,
with the code that fits the kind of the field.
-/

set_option autoImplicit false

namespace Lucie.Refineable

/-- The methods of an implementation of `Refineable`. -/
structure Impl (S R : Type) where
  refine : S → R → S
  refined : S → R → S
  isSupersetOf : S → R → Bool
  subtract : S → R → R

/-! ## The code of a field -/

section Fields

variable (T : Type) [DecidableEq T]

/-- A field of a struct that is neither optional nor refineable. -/
def plainField : Impl T (Option T) where
  refine self refinement :=
    match refinement with
    | some value => value
    | none => self
  refined self refinement :=
    match refinement with
    | some value => value
    | none => self
  isSupersetOf self refinement :=
    match refinement with
    | some refinementValue => if self ≠ refinementValue then false else true
    | none => true
  subtract self refinement :=
    match refinement with
    | some refinementValue => if self = refinementValue then none else some self
    | none => some self

/-- An optional field of a struct. -/
def optionalField : Impl (Option T) (Option T) where
  refine self refinement :=
    match refinement with
    | some value => some value
    | none => self
  refined self refinement :=
    match refinement with
    | some value => some value
    | none => self
  isSupersetOf self refinement := if refinement.isSome ∧ self ≠ refinement then false else true
  subtract self refinement := if self = refinement then none else self

/-- A field of a refinement that is not refineable. -/
def refinementField : Impl (Option T) (Option T) where
  refine self refinement :=
    match refinement with
    | some value => some value
    | none => self
  refined self refinement :=
    match refinement with
    | some value => some value
    | none => self
  isSupersetOf self refinement := if refinement.isSome ∧ self ≠ refinement then false else true
  subtract self refinement := if self = refinement then none else self

/-- An optional field is treated in its struct as in the refinement. -/
theorem optionalField_eq : optionalField T = refinementField T := rfl

end Fields

/-- The methods behind the last field. -/
def noField : Impl Unit Unit where
  refine self _ := self
  refined self _ := self
  isSupersetOf _ _ := true
  subtract _ _ := ()

/-- The methods with the code of one more field. -/
def Impl.field {S R S' R' : Type} (first : Impl S R) (rest : Impl S' R') :
    Impl (S × S') (R × R') where
  refine self refinement :=
    (first.refine self.1 refinement.1, rest.refine self.2 refinement.2)
  refined self refinement :=
    (first.refined self.1 refinement.1, rest.refined self.2 refinement.2)
  isSupersetOf self refinement :=
    if !first.isSupersetOf self.1 refinement.1 then false
    else rest.isSupersetOf self.2 refinement.2
  subtract self refinement :=
    (first.subtract self.1 refinement.1, rest.subtract self.2 refinement.2)

/-! ## The implementations for a struct -/

/-- The fields of a struct, first one first. A refineable field has a struct or a refinement as
its type. -/
inductive Shape : Type 1
  | nil
  | plain (T : Type) (eq : DecidableEq T) (rest : Shape)
  | optional (T : Type) (eq : DecidableEq T) (rest : Shape)
  | nestedStruct (inner rest : Shape)
  | nestedRefinement (inner rest : Shape)

/-- The refinement type. -/
def Refinement : Shape → Type
  | .nil => Unit
  | .plain T _ rest => Option T × Refinement rest
  | .optional T _ rest => Option T × Refinement rest
  | .nestedStruct inner rest => Refinement inner × Refinement rest
  | .nestedRefinement inner rest => Refinement inner × Refinement rest

/-- The struct. -/
def Struct : Shape → Type
  | .nil => Unit
  | .plain T _ rest => T × Struct rest
  | .optional T _ rest => Option T × Struct rest
  | .nestedStruct inner rest => Struct inner × Struct rest
  | .nestedRefinement inner rest => Refinement inner × Struct rest

/-- `impl Refineable` for the refinement. -/
def refinementImpl : (shape : Shape) → Impl (Refinement shape) (Refinement shape)
  | .nil => noField
  | .plain T _ rest => (refinementField T).field (refinementImpl rest)
  | .optional T _ rest => (refinementField T).field (refinementImpl rest)
  | .nestedStruct inner rest => (refinementImpl inner).field (refinementImpl rest)
  | .nestedRefinement inner rest => (refinementImpl inner).field (refinementImpl rest)

/-- `impl Refineable` for the struct. -/
def structImpl : (shape : Shape) → Impl (Struct shape) (Refinement shape)
  | .nil => noField
  | .plain T _ rest => (plainField T).field (structImpl rest)
  | .optional T _ rest => (optionalField T).field (structImpl rest)
  | .nestedStruct inner rest => (structImpl inner).field (structImpl rest)
  | .nestedRefinement inner rest => (refinementImpl inner).field (structImpl rest)

/-- `IsEmpty::is_empty` of the refinement. -/
def isEmpty : (shape : Shape) → Refinement shape → Bool
  | .nil, _ => true
  | .plain _ _ rest, a => a.1.isNone && isEmpty rest a.2
  | .optional _ _ rest, a => a.1.isNone && isEmpty rest a.2
  | .nestedStruct inner rest, a => isEmpty inner a.1 && isEmpty rest a.2
  | .nestedRefinement inner rest, a => isEmpty inner a.1 && isEmpty rest a.2

/-- `Default::default` of the refinement. -/
def defaultRefinement : (shape : Shape) → Refinement shape
  | .nil => ()
  | .plain _ _ rest => (none, defaultRefinement rest)
  | .optional _ _ rest => (none, defaultRefinement rest)
  | .nestedStruct inner rest => (defaultRefinement inner, defaultRefinement rest)
  | .nestedRefinement inner rest => (defaultRefinement inner, defaultRefinement rest)

/-! ## Cascades -/

/-- A `Cascade`: its first slot has a refinement. -/
structure Cascade (R : Type) where
  slots : List (Option R)
  isSome_base : slots.head?.join.isSome

/-- A `CascadeSlot`, which is never the first one. -/
structure CascadeSlot where
  index : ℕ
  index_pos : 0 < index

namespace Cascade

variable {R : Type}

/-- `Cascade::default`. -/
def default (refinement : R) : Cascade R := ⟨[some refinement], rfl⟩

/-- `Cascade::base`: the refinement of the first slot. -/
def base (cascade : Cascade R) : R := cascade.slots.head?.join.get cascade.isSome_base

theorem slots_eq (cascade : Cascade R) :
    cascade.slots = some cascade.base :: cascade.slots.tail := by
  obtain ⟨slots, hbase⟩ := cascade
  cases slots with
  | nil => simp at hbase
  | cons slot slots =>
    cases slot with
    | none => simp at hbase
    | some refinement => rfl

theorem length_pos (cascade : Cascade R) : 0 < cascade.slots.length := by
  rw [cascade.slots_eq]
  exact Nat.zero_lt_succ _

/-- Write through `Cascade::base`. -/
def setBase (cascade : Cascade R) (refinement : R) : Cascade R :=
  ⟨some refinement :: cascade.slots.tail, rfl⟩

/-- `Cascade::reserve`. -/
def reserve (cascade : Cascade R) : Cascade R × CascadeSlot where
  fst := ⟨cascade.slots ++ [none], by rw [cascade.slots_eq]; rfl⟩
  snd := ⟨cascade.slots.length, cascade.length_pos⟩

theorem isSome_base_set (cascade : Cascade R) (slot : CascadeSlot) (refinement : Option R) :
    (cascade.slots.set slot.index refinement).head?.join.isSome := by
  obtain ⟨index, hpos⟩ := Nat.exists_eq_succ_of_ne_zero
    (Nat.ne_of_gt slot.index_pos)
  rw [cascade.slots_eq, hpos]
  rfl

/-- `Cascade::set`; `none` is a slot out of bounds. -/
def set (cascade : Cascade R) (slot : CascadeSlot) (refinement : Option R) :
    Option (Cascade R) :=
  if slot.index < cascade.slots.length then
    some ⟨cascade.slots.set slot.index refinement, cascade.isSome_base_set slot refinement⟩
  else none

/-- `Cascade::merged`. -/
def merged (impl : Impl R R) (cascade : Cascade R) : R :=
  (cascade.slots.drop 1).reduceOption.foldl impl.refine cascade.base

end Cascade

/-- `Refineable::from_cascade`, with the default value. -/
def fromCascade {S R : Type} (impl : Impl S R) (onRefinement : Impl R R) (default : S)
    (cascade : Cascade R) : S := impl.refined default (cascade.merged onRefinement)

end Lucie.Refineable
