import Lucie.Keymap.Pending
import Lucie.Keymap.Dispatch

/-!
# Bindings for an action

To show how an action is triggered, the bindings with this action are collected, and each
one is looked up by its own keystrokes. The lookup compares the actions only: a binding that
is disabled or shadowed is kept if what it is shadowed by has an equal action.
-/

set_option autoImplicit false

namespace Lucie

variable {α : Type} [BEq α]

/-- `Action::partial_eq`: actions of different types are not equal. -/
def Action.partialEq : Action α → Action α → Bool
  | noAction, noAction => true
  | act a, act b => a == b
  | _, _ => false

namespace Keymap

/-- Whether a `NoAction` binding that was added later removes a binding: it has the same
keystrokes, and no predicate or one that is a superset. -/
def nullBindingMatches (nullBinding binding : KeyBinding α) : Bool :=
  nullBinding.keystrokes == binding.keystrokes &&
    match nullBinding.contextPredicate, binding.contextPredicate with
    | none, _ => true
    | some _, none => false
    | some nullPredicate, some predicate => nullPredicate.isSuperset predicate

/-- `Keymap::bindings_for_action`. Bindings to `NoAction` are not indexed by their action. -/
def bindingsForAction (keymap : Keymap α) (action : Action α) : List (KeyBinding α) :=
  keymap.bindings.zipIdx.filterMap fun (binding, ix) =>
    if binding.action.isNoAction || !binding.action.partialEq action then none
    else if keymap.bindings.zipIdx.any fun (nullBinding, nullIx) =>
        nullBinding.action.isNoAction && decide (ix < nullIx) &&
          nullBindingMatches nullBinding binding then none
    else some binding

end Keymap

namespace DispatchTree

/-- `DispatchTree::binding_matches_predicate_and_not_shadowed`. -/
def bindingMatchesPredicateAndNotShadowed (keymap : Keymap α) (binding : KeyBinding α)
    (contextStack : List KeyContext) : Bool :=
  match (keymap.bindingsForInput binding.fullInput contextStack).1.head? with
  | some found => found.action.partialEq binding.action
  | none => false

/-- `DispatchTree::bindings_for_action`. -/
def bindingsForAction (tree : DispatchTree α) (action : Action α)
    (contextStack : List KeyContext) : List (KeyBinding α) :=
  (tree.keymap.bindingsForAction action).filter fun binding =>
    bindingMatchesPredicateAndNotShadowed tree.keymap binding contextStack

end DispatchTree

namespace Keymap

variable {keymap : Keymap α} {input : List Keystroke} {contexts : List KeyContext}

omit [BEq α] in
/-- The binding that an input fires first: an action that matches it in full and precedes every
other action and every binding that disables it. -/
def FiresFirst (keymap : Keymap α) (input : List Keystroke) (contexts : List KeyContext)
    (found : ℕ × ℕ × KeyBinding α) : Prop :=
  Matches keymap input contexts false found ∧ found.2.2.action.isNoAction = false ∧
    ∀ other, Matches keymap input contexts false other → other ≠ found →
      (Disables other.2.2 ∨ other.2.2.action.isNoAction = false) → Precedes found other

omit [BEq α] in
/-- What fires first is the head of the bindings for the input. -/
theorem firesFirst_iff_head? {found : ℕ × ℕ × KeyBinding α} :
    FiresFirst keymap input contexts found ↔
      (keymap.triggered input contexts).head? = some found := by
  have hsorted : (keymap.triggered input contexts).Pairwise Precedes :=
    sortedMatches_pairwise.sublist (untilDisabled_sublist _)
  constructor
  · rintro ⟨hmatch, hact, hall⟩
    have hmem : found ∈ keymap.triggered input contexts := by
      refine mem_triggered.mpr ⟨hmatch, hact, fun other hother hdis => ?_⟩
      have hne : other ≠ found := by
        rintro rfl
        exact Bool.noConfusion (hdis.1.symm.trans hact)
      exact hall other hother hne (.inl hdis)
    obtain ⟨first, rest, heq⟩ := List.exists_cons_of_ne_nil (List.ne_nil_of_mem hmem)
    rw [heq] at hmem hsorted ⊢
    rcases List.mem_cons.mp hmem with rfl | hrest
    · rfl
    -- the head would precede `found` and be preceded by it
    have hbefore : Precedes first found := (List.pairwise_cons.mp hsorted).1 found hrest
    obtain ⟨hfirst, hfirstAct, -⟩ := mem_triggered.mp (heq ▸ List.mem_cons_self)
    have hne : first ≠ found := by
      rintro rfl
      exact Precedes.irrefl _ hbefore
    exact absurd (hbefore.trans (hall first hfirst hne (.inr hfirstAct))) (Precedes.irrefl _)
  · intro hhead
    obtain ⟨rest, heq⟩ := List.head?_eq_some_iff.mp hhead
    obtain ⟨hmatch, hact, hdis⟩ := mem_triggered.mp (heq ▸ List.mem_cons_self)
    rw [heq] at hsorted
    refine ⟨hmatch, hact, fun other hother hne hkind => ?_⟩
    by_cases hother' : other ∈ keymap.triggered input contexts
    · rw [heq] at hother'
      rcases List.mem_cons.mp hother' with rfl | hrest
      · exact absurd rfl hne
      · exact (List.pairwise_cons.mp hsorted).1 other hrest
    · rcases hkind with hdisables | hotherAct
      · exact hdis other hother hdisables
      -- an action that does not fire is not before a binding that disables it
      rw [mem_triggered] at hother'
      push Not at hother'
      obtain ⟨third, hthird, hdisables, hnot⟩ := hother' hother hotherAct
      have hlast := hdis third hthird hdisables
      unfold Precedes at *
      omega

/-- A later `NoAction` binding removes the binding at an index. -/
def Nulled (keymap : Keymap α) (ix : ℕ) (binding : KeyBinding α) : Prop :=
  ∃ nullIx nullBinding, keymap.bindings[nullIx]? = some nullBinding ∧
    nullBinding.action.isNoAction = true ∧ ix < nullIx ∧
      nullBindingMatches nullBinding binding = true

/-- The bindings for an action are those with an equal action that no later `NoAction` binding
removes. -/
theorem mem_bindingsForAction {action : Action α} {binding : KeyBinding α} :
    binding ∈ keymap.bindingsForAction action ↔
      ∃ ix : ℕ, keymap.bindings[ix]? = some binding ∧ binding.action.isNoAction = false ∧
        binding.action.partialEq action = true ∧ ¬ keymap.Nulled ix binding := by
  have hnulled : ∀ ix (binding : KeyBinding α),
      (keymap.bindings.zipIdx.any fun (nullBinding, nullIx) =>
        nullBinding.action.isNoAction && decide (ix < nullIx) &&
          nullBindingMatches nullBinding binding) = true ↔ keymap.Nulled ix binding := by
    intro ix binding
    simp only [List.any_eq_true, Prod.exists, List.mem_zipIdx_iff_getElem?, Bool.and_eq_true,
      decide_eq_true_eq, Nulled, and_assoc]
    exact exists_comm
  simp only [bindingsForAction, List.mem_filterMap, Prod.exists, List.mem_zipIdx_iff_getElem?]
  constructor
  · rintro ⟨found, ix, hget, hsome⟩
    split_ifs at hsome with hkind hnull
    obtain rfl : found = binding := by simpa using hsome
    simp only [Bool.or_eq_true, Bool.not_eq_true', not_or, Bool.not_eq_true,
      Bool.not_eq_false] at hkind
    exact ⟨ix, hget, hkind.1, hkind.2, fun h => hnull ((hnulled ix found).mpr h)⟩
  · rintro ⟨ix, hget, hact, heq, hnot⟩
    refine ⟨binding, ix, hget, ?_⟩
    rw [if_neg (by simp [hact, heq]), if_neg fun h => hnot ((hnulled ix binding).mp h)]

/-- The lookup keeps a binding if what its keystrokes fire first has an equal action. -/
theorem bindingMatchesPredicateAndNotShadowed_iff {binding : KeyBinding α} :
    DispatchTree.bindingMatchesPredicateAndNotShadowed keymap binding contexts = true ↔
      ∃ found, FiresFirst keymap binding.fullInput contexts found ∧
        found.2.2.action.partialEq binding.action = true := by
  simp only [DispatchTree.bindingMatchesPredicateAndNotShadowed, bindingsForInput, List.head?_map,
    firesFirst_iff_head?]
  rcases (keymap.triggered binding.fullInput contexts).head? with _ | found
  · simp
  · simp

/-- A binding fires first for its own keystrokes, and its predicate matches the stack. -/
def FiresItself (keymap : Keymap α) (contexts : List KeyContext) (binding : KeyBinding α) : Prop :=
  (bindingEnabled binding contexts).isSome = true ∧
    (keymap.bindingsForInput binding.fullInput contexts).1.head? = some binding

/-- Some binding with the action is not removed, but its keystrokes fire another binding with an
equal action first. -/
def ShadowedByEqual (keymap : Keymap α) (action : Action α) (contexts : List KeyContext) : Prop :=
  ∃ (ix : ℕ) (binding : KeyBinding α), keymap.bindings[ix]? = some binding ∧
    binding.action.isNoAction = false ∧ binding.action.partialEq action = true ∧
    ¬ keymap.Nulled ix binding ∧
    ∃ found, FiresFirst keymap binding.fullInput contexts found ∧
      found.2.2.action.partialEq binding.action = true ∧ found.2.2 ≠ binding

omit [BEq α] in
theorem firesItself_iff {binding : KeyBinding α} :
    FiresItself keymap contexts binding ↔
      ∃ found, FiresFirst keymap binding.fullInput contexts found ∧ found.2.2 = binding := by
  have hhead : (keymap.bindingsForInput binding.fullInput contexts).1.head? = some binding ↔
      ∃ found, FiresFirst keymap binding.fullInput contexts found ∧ found.2.2 = binding := by
    simp only [bindingsForInput, List.head?_map, Option.map_eq_some_iff, firesFirst_iff_head?]
  rw [FiresItself, hhead]
  refine and_iff_right_of_imp ?_
  rintro ⟨found, hfires, rfl⟩
  exact hfires.1.enabled ▸ rfl

/-- An action bound to one keystroke in the editor and in the workspace. -/
def boundTwice : Keymap Unit :=
  ⟨[⟨.act (), [⟨⟨{}, "a", none⟩⟩], some (.identifier "Editor"), none⟩,
    ⟨.act (), [⟨⟨{}, "a", none⟩⟩], some (.identifier "Workspace"), none⟩]⟩

end Keymap

end Lucie
