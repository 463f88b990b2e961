import Lucie.Refineable.Derive

/-!
# The laws of refinements

A refinement that is applied after another one is applied together with it, a value is a
superset of the refinements that do not change it, and a difference leads from the one refinement
to the other. The laws hold of the code of each field, pass from fields to structs, and so hold
of every struct, however its fields are nested.
-/

set_option autoImplicit false

namespace Lucie.Refineable

/-- What the methods of an implementation owe to those of its refinements. -/
structure Laws {S R : Type} (impl : Impl S R) (onRefinement : Impl R R) (isEmpty : R → Bool) :
    Prop where
  refine_eq : ∀ s a, impl.refine s a = impl.refined s a
  refined_refined : ∀ s a b,
    impl.refined (impl.refined s a) b = impl.refined s (onRefinement.refined a b)
  isSupersetOf_iff : ∀ s a, impl.isSupersetOf s a = true ↔ impl.refined s a = s
  isSupersetOf_refined : ∀ s a, impl.isSupersetOf (impl.refined s a) a = true
  refined_of_isEmpty : ∀ s a, isEmpty a = true → impl.refined s a = s

/-- What the difference of two refinements is good for. -/
structure SubtractLaws {R : Type} (onRefinement : Impl R R) (isEmpty : R → Bool) : Prop where
  isSupersetOf_subtract : ∀ s a,
    onRefinement.isSupersetOf (onRefinement.refined a (onRefinement.subtract s a)) s = true
  isEmpty_subtract_iff : ∀ s a,
    isEmpty (onRefinement.subtract s a) = true ↔ onRefinement.isSupersetOf a s = true

/-! ## The code of a field -/

section Fields

variable (T : Type) [DecidableEq T]

theorem plainField_laws : Laws (plainField T) (refinementField T) Option.isNone where
  refine_eq _ _ := rfl
  refined_refined s a b := by cases b <;> rfl
  isSupersetOf_iff s a := by
    cases a with
    | none => simp [plainField]
    | some value => simp [plainField, eq_comm]
  isSupersetOf_refined s a := by cases a <;> simp [plainField]
  refined_of_isEmpty s a hempty := by
    obtain rfl := Option.isNone_iff_eq_none.mp hempty
    rfl

theorem refinementField_laws : Laws (refinementField T) (refinementField T) Option.isNone where
  refine_eq _ _ := rfl
  refined_refined s a b := by cases b <;> rfl
  isSupersetOf_iff s a := by
    cases a with
    | none => simp [refinementField]
    | some value =>
      have hcomm : s = some value ↔ some value = s := eq_comm
      simp [refinementField, hcomm]
  isSupersetOf_refined s a := by cases a <;> simp [refinementField]
  refined_of_isEmpty s a hempty := by
    obtain rfl := Option.isNone_iff_eq_none.mp hempty
    rfl

theorem refinementField_subtractLaws : SubtractLaws (refinementField T) Option.isNone where
  isSupersetOf_subtract s a := by
    by_cases hsame : s = a
    · subst hsame
      cases s <;> simp [refinementField]
    · cases s <;> simp [refinementField, hsame]
  isEmpty_subtract_iff s a := by
    by_cases hsame : s = a
    · simp [refinementField, hsame]
    · have hsame' : a ≠ s := fun h => hsame h.symm
      cases s <;> simp [refinementField, hsame, hsame']

end Fields

theorem noField_laws : Laws noField noField fun _ => true where
  refine_eq _ _ := rfl
  refined_refined _ _ _ := rfl
  isSupersetOf_iff _ _ := iff_of_true rfl rfl
  isSupersetOf_refined _ _ := rfl
  refined_of_isEmpty _ _ _ := rfl

theorem noField_subtractLaws : SubtractLaws noField fun _ => true where
  isSupersetOf_subtract _ _ := rfl
  isEmpty_subtract_iff _ _ := iff_of_true rfl rfl

/-! ## One more field -/

section Field

variable {S R S' R' : Type} {impl : Impl S R} {impl' : Impl S' R'} {onRefinement : Impl R R}
  {onRefinement' : Impl R' R'} {isEmpty : R → Bool} {isEmpty' : R' → Bool}

/-- A value is a superset if the fields are. -/
theorem Impl.isSupersetOf_field (s : S × S') (a : R × R') :
    (impl.field impl').isSupersetOf s a = true ↔
      impl.isSupersetOf s.1 a.1 = true ∧ impl'.isSupersetOf s.2 a.2 = true := by
  cases hfirst : impl.isSupersetOf s.1 a.1 <;> simp [Impl.field, hfirst]

theorem Laws.field (hfirst : Laws impl onRefinement isEmpty)
    (hrest : Laws impl' onRefinement' isEmpty') :
    Laws (impl.field impl') (onRefinement.field onRefinement')
      fun a => isEmpty a.1 && isEmpty' a.2 where
  refine_eq s a := Prod.ext (hfirst.refine_eq s.1 a.1) (hrest.refine_eq s.2 a.2)
  refined_refined s a b := Prod.ext (hfirst.refined_refined s.1 a.1 b.1)
    (hrest.refined_refined s.2 a.2 b.2)
  isSupersetOf_iff s a := by
    rw [Impl.isSupersetOf_field, hfirst.isSupersetOf_iff, hrest.isSupersetOf_iff]
    exact ⟨fun h => Prod.ext h.1 h.2, fun h => ⟨congrArg Prod.fst h, congrArg Prod.snd h⟩⟩
  isSupersetOf_refined s a := (Impl.isSupersetOf_field _ _).mpr
    ⟨hfirst.isSupersetOf_refined s.1 a.1, hrest.isSupersetOf_refined s.2 a.2⟩
  refined_of_isEmpty s a hempty := by
    obtain ⟨hempty, hempty'⟩ := Bool.and_eq_true_iff.mp hempty
    exact Prod.ext (hfirst.refined_of_isEmpty s.1 a.1 hempty)
      (hrest.refined_of_isEmpty s.2 a.2 hempty')

theorem SubtractLaws.field (hfirst : SubtractLaws onRefinement isEmpty)
    (hrest : SubtractLaws onRefinement' isEmpty') :
    SubtractLaws (onRefinement.field onRefinement') fun a => isEmpty a.1 && isEmpty' a.2 where
  isSupersetOf_subtract s a := (Impl.isSupersetOf_field _ _).mpr
    ⟨hfirst.isSupersetOf_subtract s.1 a.1, hrest.isSupersetOf_subtract s.2 a.2⟩
  isEmpty_subtract_iff s a := by
    rw [Bool.and_eq_true, Impl.isSupersetOf_field, ← hfirst.isEmpty_subtract_iff,
      ← hrest.isEmpty_subtract_iff]
    rfl

end Field

/-! ## Structs -/

theorem refinementImpl_laws (shape : Shape) :
    Laws (refinementImpl shape) (refinementImpl shape) (isEmpty shape) := by
  induction shape with
  | nil => exact noField_laws
  | plain T eq rest ih => exact (refinementField_laws T).field ih
  | optional T eq rest ih => exact (refinementField_laws T).field ih
  | nestedStruct inner rest ihinner ih => exact ihinner.field ih
  | nestedRefinement inner rest ihinner ih => exact ihinner.field ih

theorem structImpl_laws (shape : Shape) :
    Laws (structImpl shape) (refinementImpl shape) (isEmpty shape) := by
  induction shape with
  | nil => exact noField_laws
  | plain T eq rest ih => exact (plainField_laws T).field ih
  | optional T eq rest ih => exact (refinementField_laws T).field ih
  | nestedStruct inner rest ihinner ih => exact ihinner.field ih
  | nestedRefinement inner rest ihinner ih => exact (refinementImpl_laws inner).field ih

theorem refinementImpl_subtractLaws (shape : Shape) :
    SubtractLaws (refinementImpl shape) (isEmpty shape) := by
  induction shape with
  | nil => exact noField_subtractLaws
  | plain T eq rest ih => exact (refinementField_subtractLaws T).field ih
  | optional T eq rest ih => exact (refinementField_subtractLaws T).field ih
  | nestedStruct inner rest ihinner ih => exact ihinner.field ih
  | nestedRefinement inner rest ihinner ih => exact ihinner.field ih

/-- The default refinement is empty. -/
theorem isEmpty_defaultRefinement (shape : Shape) :
    isEmpty shape (defaultRefinement shape) = true := by
  induction shape with
  | nil => rfl
  | plain T eq rest ih => exact ih
  | optional T eq rest ih => exact ih
  | nestedStruct inner rest ihinner ih => exact Bool.and_eq_true_iff.mpr ⟨ihinner, ih⟩
  | nestedRefinement inner rest ihinner ih => exact Bool.and_eq_true_iff.mpr ⟨ihinner, ih⟩

/-! ## Cascades -/

section Cascade

variable {S R : Type} {impl : Impl S R} {onRefinement : Impl R R} {isEmpty : R → Bool}

/-- Refinements can be collected before they are applied. -/
theorem Laws.refined_foldl (h : Laws impl onRefinement isEmpty)
    (h' : Laws onRefinement onRefinement isEmpty) (s : S) (base : R) (refinements : List R) :
    impl.refined s (refinements.foldl onRefinement.refine base) =
      refinements.foldl impl.refined (impl.refined s base) := by
  induction refinements generalizing base with
  | nil => rfl
  | cons a refinements ih =>
    rw [List.foldl_cons, List.foldl_cons, ih, h'.refine_eq, h.refined_refined]

/-- Applying a cascade is applying its slots in order. -/
theorem Laws.refined_merged (h : Laws impl onRefinement isEmpty)
    (h' : Laws onRefinement onRefinement isEmpty) (s : S) (cascade : Cascade R) :
    impl.refined s (cascade.merged onRefinement) =
      cascade.slots.reduceOption.foldl impl.refined s := by
  have hslots : cascade.slots.reduceOption =
      cascade.base :: (cascade.slots.drop 1).reduceOption := by
    conv_lhs => rw [cascade.slots_eq]
    rw [List.reduceOption_cons_of_some, List.drop_one]
  rw [Cascade.merged, h.refined_foldl h', hslots, List.foldl_cons]

/-- A value from a cascade is the default one with the slots applied in order. -/
theorem Laws.fromCascade_eq (h : Laws impl onRefinement isEmpty)
    (h' : Laws onRefinement onRefinement isEmpty) (default : S) (cascade : Cascade R) :
    fromCascade impl onRefinement default cascade =
      cascade.slots.reduceOption.foldl impl.refined default :=
  h.refined_merged h' default cascade

end Cascade

/-- The laws of every struct that derives `Refineable`, of its refinement and of cascades. -/
theorem derive_laws (shape : Shape) :
    Laws (structImpl shape) (refinementImpl shape) (isEmpty shape) ∧
      Laws (refinementImpl shape) (refinementImpl shape) (isEmpty shape) ∧
      SubtractLaws (refinementImpl shape) (isEmpty shape) ∧
      ∀ cascade : Cascade (Refinement shape),
        (∀ s, (structImpl shape).refined s (cascade.merged (refinementImpl shape)) =
          cascade.slots.reduceOption.foldl (structImpl shape).refined s) ∧
        ∀ s, (refinementImpl shape).refined s (cascade.merged (refinementImpl shape)) =
          cascade.slots.reduceOption.foldl (refinementImpl shape).refined s := by
  have hstruct := structImpl_laws shape
  have hrefinement := refinementImpl_laws shape
  exact ⟨hstruct, hrefinement, refinementImpl_subtractLaws shape, fun cascade =>
    ⟨fun s => hstruct.refined_merged hrefinement s cascade,
      fun s => hrefinement.refined_merged hrefinement s cascade⟩⟩

end Lucie.Refineable
