import Lucie.Keymap.Context
import Mathlib.Data.Nat.Find

/-!
# Supersets of predicates

`isSuperset` looks for a disjunct of one predicate among the parts of the other. A part
below `>` was evaluated against a shorter stack, so it need not hold of the whole stack
when it contains `!`. It does when every `!` in it is cancelled by another.
-/

set_option autoImplicit false

namespace Lucie.KeyBindingContextPredicate

/-- The equation of `isSuperset` in the order of the source. -/
theorem isSuperset_eq (self other : KeyBindingContextPredicate) :
    self.isSuperset other = (self == other ||
      match self, other with
      | or left right, other => left.isSuperset other || right.isSuperset other
      | self, descendant _ child => self.isSuperset child
      | self, and left right => self.isSuperset left || self.isSuperset right
      | _, _ => false) := by
  cases self <;> cases other <;> simp [isSuperset, isSuperset.go, Bool.or_assoc]

/-- The predicates that `isSuperset` takes a predicate apart into. -/
def disjuncts : KeyBindingContextPredicate → List KeyBindingContextPredicate
  | or left right => or left right :: (left.disjuncts ++ right.disjuncts)
  | self => [self]

/-- The parts of a predicate that are evaluated against the same stack. -/
def conjuncts : KeyBindingContextPredicate → List KeyBindingContextPredicate
  | and left right => and left right :: (left.conjuncts ++ right.conjuncts)
  | self => [self]

/-- The parts of a predicate that are evaluated below a `>`. -/
def nested : KeyBindingContextPredicate → List KeyBindingContextPredicate
  | descendant _ child => child.conjuncts ++ child.nested
  | and left right => left.nested ++ right.nested
  | _ => []

/-- Whether every `!` of a predicate is cancelled by another one; `positive` is false
right below a `!`. -/
def balanced (positive : Bool) : KeyBindingContextPredicate → Bool
  | identifier _ | equal _ _ | notEqual _ _ => positive
  | descendant parent child => positive && parent.balanced true && child.balanced true
  | not pred => pred.balanced !positive
  | and left right | or left right => left.balanced positive && right.balanced positive

/-- If a disjunct of one predicate occurs in the other below a `>`, then some disjunct
occurs there without a `>` above it or with all its negations cancelled. -/
def Clear (a b : KeyBindingContextPredicate) : Prop :=
  (∃ d ∈ a.disjuncts, d ∈ b.nested) →
    ∃ d ∈ a.disjuncts, d ∈ b.conjuncts ∨ (d ∈ b.nested ∧ d.balanced true = true)

instance (a b : KeyBindingContextPredicate) : Decidable (Clear a b) :=
  inferInstanceAs (Decidable (_ → _))

theorem self_mem_disjuncts (a : KeyBindingContextPredicate) : a ∈ a.disjuncts := by
  cases a <;> simp [disjuncts]

theorem self_mem_conjuncts (a : KeyBindingContextPredicate) : a ∈ a.conjuncts := by
  cases a <;> simp [conjuncts]

/-- What the search over the parts finds. -/
theorem mem_of_go {a b : KeyBindingContextPredicate} (h : isSuperset.go a b = true) :
    a ∈ b.conjuncts ∨ a ∈ b.nested := by
  induction b with
  | descendant parent child _ ih =>
    simp only [isSuperset.go, Bool.or_eq_true, beq_iff_eq] at h
    rcases h with rfl | h
    · exact .inl (self_mem_conjuncts _)
    · exact .inr (List.mem_append.mpr (ih h))
  | and left right ihl ihr =>
    simp only [isSuperset.go, Bool.or_eq_true, beq_iff_eq] at h
    simp only [conjuncts, nested, List.mem_cons, List.mem_append]
    rcases h with (rfl | h) | h
    · exact .inl (.inl rfl)
    · exact (ihl h).imp (fun h => .inr (.inl h)) .inl
    · exact (ihr h).imp (fun h => .inr (.inr h)) .inr
  | identifier | equal | notEqual | not | or =>
    simp only [isSuperset.go, beq_iff_eq] at h
    exact .inl (h ▸ self_mem_conjuncts _)

/-- What `isSuperset` finds: a disjunct among the parts. -/
theorem mem_of_isSuperset {a b : KeyBindingContextPredicate} (h : a.isSuperset b = true) :
    ∃ d ∈ a.disjuncts, d ∈ b.conjuncts ∨ d ∈ b.nested := by
  induction a with
  | or left right ihl ihr =>
    simp only [isSuperset, Bool.or_eq_true, beq_iff_eq] at h
    simp only [disjuncts, List.mem_cons, List.mem_append]
    rcases h with (rfl | h) | h
    · exact ⟨_, .inl rfl, .inl (self_mem_conjuncts _)⟩
    · obtain ⟨d, hd, hmem⟩ := ihl h
      exact ⟨d, .inr (.inl hd), hmem⟩
    · obtain ⟨d, hd, hmem⟩ := ihr h
      exact ⟨d, .inr (.inr hd), hmem⟩
  | identifier | equal | notEqual | descendant | not | and =>
    exact ⟨_, self_mem_disjuncts _, mem_of_go h⟩

section Eval

variable {p q : KeyBindingContextPredicate} {contexts all : List KeyContext}

attribute [local simp] evalInner

/-- A predicate holds of a stack that is not empty. -/
theorem ne_nil_of_evalInner (h : p.evalInner contexts all = true) : contexts ≠ [] := by
  rintro rfl
  cases p <;> simp at h

theorem evalInner_not (h : contexts ≠ []) : (not p).evalInner contexts all = true ↔
    ∀ i < all.length, p.evalInner (all.take (i + 1)) all = false := by
  simp [List.getLast?_eq_some_getLast h]

theorem evalInner_and (h : contexts ≠ []) : (and p q).evalInner contexts all = true ↔
    p.evalInner contexts all = true ∧ q.evalInner contexts all = true := by
  simp [List.getLast?_eq_some_getLast h]

theorem evalInner_or (h : contexts ≠ []) : (or p q).evalInner contexts all = true ↔
    p.evalInner contexts all = true ∨ q.evalInner contexts all = true := by
  simp [List.getLast?_eq_some_getLast h]

/-- `>` splits the stack below the first match of the parent. -/
theorem evalInner_descendant (h : contexts ≠ []) :
    (descendant p q).evalInner contexts all = true ↔
      ∃ i < contexts.length - 1, p.evalInner (contexts.take (i + 1)) all = true ∧
        (∀ j < i, p.evalInner (contexts.take (j + 1)) all = false) ∧
        q.evalInner (contexts.drop (i + 1)) (contexts.drop (i + 1)) = true := by
  simp only [evalInner, List.getLast?_eq_some_getLast h]
  cases hfind : (List.range (contexts.length - 1)).find? fun i =>
      p.evalInner (contexts.take (i + 1)) all with
  | none =>
    simp only [List.find?_eq_none, List.mem_range] at hfind
    simp only [Bool.false_eq_true, false_iff]
    rintro ⟨i, hi, hp, -⟩
    exact hfind i hi hp
  | some i =>
    obtain ⟨hp, hi, hfirst⟩ := List.find?_range_eq_some.mp hfind
    constructor
    · intro hq
      exact ⟨i, List.mem_range.mp hi, hp, fun j hj => by simpa using hfirst j hj, hq⟩
    · rintro ⟨k, hk, hpk, hfirstk, hq⟩
      rcases Nat.lt_trichotomy i k with hlt | rfl | hgt
      · simp [hfirstk i hlt] at hp
      · exact hq
      · exact absurd hpk (by simpa using hfirst k hgt)

/-- A match of the parent suffices when the child holds below every earlier place. -/
theorem evalInner_descendant_of_match (h : contexts ≠ []) {i : ℕ} (hi : i < contexts.length - 1)
    (hp : p.evalInner (contexts.take (i + 1)) all = true)
    (hq : ∀ j ≤ i, q.evalInner (contexts.drop (j + 1)) (contexts.drop (j + 1)) = true) :
    (descendant p q).evalInner contexts all = true := by
  have hex : ∃ k, p.evalInner (contexts.take (k + 1)) all = true := ⟨i, hp⟩
  have hle : Nat.find hex ≤ i := Nat.find_min' hex hp
  refine (evalInner_descendant h).mpr ⟨Nat.find hex, by omega, Nat.find_spec hex,
    fun j hj => ?_, hq _ hle⟩
  simpa using Nat.find_min hex hj

end Eval

/-- What the balance of negations buys. A balanced predicate stays true when contexts
are added above the stack; one that is balanced below a `!` does not depend on the
place in the stack and stays false. -/
def Persists (positive : Bool) (p : KeyBindingContextPredicate) : Prop :=
  match positive with
  | true => ∀ pre contexts all, all ≠ [] → p.evalInner contexts all = true →
      p.evalInner (pre ++ contexts) (pre ++ all) = true
  | false => ∀ pre contexts contexts' all, all ≠ [] → contexts ≠ [] →
      p.evalInner contexts' (pre ++ all) = true → p.evalInner contexts all = true

theorem getLast?_append_of_ne_nil (pre : List KeyContext) {contexts : List KeyContext}
    (h : contexts ≠ []) : (pre ++ contexts).getLast? = contexts.getLast? := by
  simp [List.getLast?_append, List.getLast?_eq_some_getLast h]

/-- Balanced predicates persist. -/
theorem persists_of_balanced (p : KeyBindingContextPredicate) (positive : Bool)
    (h : p.balanced positive = true) : Persists positive p := by
  induction p generalizing positive with
  | identifier | equal | notEqual =>
    obtain rfl : positive = true := h
    intro pre contexts all _ hp
    rw [evalInner, getLast?_append_of_ne_nil _ (ne_nil_of_evalInner hp)]
    exact hp
  | not p ih =>
    cases positive with
    | true =>
      intro pre contexts all hall hp
      have hne := ne_nil_of_evalInner hp
      rw [evalInner_not hne] at hp
      rw [evalInner_not (by simp [hne])]
      intro j _
      rw [← Bool.not_eq_true]
      intro htrue
      have hpos : 0 < all.length := List.length_pos_iff.mpr hall
      have hfirst := ih false h pre (all.take 1) _ all hall (by simp [hall]) htrue
      rw [hp 0 hpos] at hfirst
      exact Bool.noConfusion hfirst
    | false =>
      intro pre contexts contexts' all hall hne hp
      rw [evalInner_not (ne_nil_of_evalInner hp)] at hp
      rw [evalInner_not hne]
      intro i hi
      rw [← Bool.not_eq_true]
      intro htrue
      have hlonger := ih true h pre _ all hall htrue
      have hfalse := hp (pre.length + i) (by rw [List.length_append]; omega)
      rw [Nat.add_assoc, List.take_length_add_append, hlonger] at hfalse
      exact Bool.noConfusion hfalse
  | and p q ihp ihq =>
    obtain ⟨hbp, hbq⟩ : p.balanced positive = true ∧ q.balanced positive = true := by
      simpa [balanced] using h
    cases positive with
    | true =>
      intro pre contexts all hall hpq
      have hne := ne_nil_of_evalInner hpq
      obtain ⟨hp, hq⟩ := (evalInner_and hne).mp hpq
      exact (evalInner_and (by simp [hne])).mpr
        ⟨ihp true hbp pre _ all hall hp, ihq true hbq pre _ all hall hq⟩
    | false =>
      intro pre contexts contexts' all hall hne hpq
      obtain ⟨hp, hq⟩ := (evalInner_and (ne_nil_of_evalInner hpq)).mp hpq
      exact (evalInner_and hne).mpr
        ⟨ihp false hbp pre _ _ all hall hne hp, ihq false hbq pre _ _ all hall hne hq⟩
  | or p q ihp ihq =>
    obtain ⟨hbp, hbq⟩ : p.balanced positive = true ∧ q.balanced positive = true := by
      simpa [balanced] using h
    cases positive with
    | true =>
      intro pre contexts all hall hpq
      have hne := ne_nil_of_evalInner hpq
      exact (evalInner_or (by simp [hne])).mpr (((evalInner_or hne).mp hpq).imp
        (ihp true hbp pre _ all hall) (ihq true hbq pre _ all hall))
    | false =>
      intro pre contexts contexts' all hall hne hpq
      exact (evalInner_or hne).mpr (((evalInner_or (ne_nil_of_evalInner hpq)).mp hpq).imp
        (ihp false hbp pre _ _ all hall hne) (ihq false hbq pre _ _ all hall hne))
  | descendant p q ihp ihq =>
    obtain ⟨⟨rfl, hbp⟩, hbq⟩ : (positive = true ∧ p.balanced true = true) ∧
        q.balanced true = true := by
      simpa [balanced] using h
    intro pre contexts all hall hpq
    have hne := ne_nil_of_evalInner hpq
    obtain ⟨i, hi, hp, -, hq⟩ := (evalInner_descendant hne).mp hpq
    -- the parent still matches where it did, so its first match is there or above
    have hlonger := ihp true hbp pre _ all hall hp
    rw [← List.take_length_add_append, ← Nat.add_assoc] at hlonger
    refine evalInner_descendant_of_match (by simp [hne]) (by rw [List.length_append]; omega)
      hlonger fun j hj => ?_
    have hsplit : (pre ++ contexts).drop (j + 1) =
        ((pre ++ contexts).drop (j + 1)).take (pre.length + i - j) ++ contexts.drop (i + 1) := by
      conv_lhs => rw [← List.take_append_drop (pre.length + i - j) ((pre ++ contexts).drop (j + 1))]
      rw [List.drop_drop, show j + 1 + (pre.length + i - j) = pre.length + (i + 1) by omega,
        List.drop_length_add_append]
    rw [hsplit]
    exact ihq true hbq _ _ _ (ne_nil_of_evalInner hq) hq

/-- A disjunct implies the whole. -/
theorem evalInner_of_disjunct {a d : KeyBindingContextPredicate} (hd : d ∈ a.disjuncts)
    {contexts all : List KeyContext} (h : d.evalInner contexts all = true) :
    a.evalInner contexts all = true := by
  induction a with
  | or left right ihl ihr =>
    simp only [disjuncts, List.mem_cons, List.mem_append] at hd
    rcases hd with rfl | hd | hd
    · exact h
    · exact (evalInner_or (ne_nil_of_evalInner h)).mpr (.inl (ihl hd))
    · exact (evalInner_or (ne_nil_of_evalInner h)).mpr (.inr (ihr hd))
  | identifier | equal | notEqual | descendant | not | and =>
    obtain rfl := List.mem_singleton.mp hd
    exact h

/-- The whole implies its parts on the same stack. -/
theorem evalInner_of_conjunct {b d : KeyBindingContextPredicate} (hd : d ∈ b.conjuncts)
    {contexts all : List KeyContext} (h : b.evalInner contexts all = true) :
    d.evalInner contexts all = true := by
  induction b with
  | and left right ihl ihr =>
    simp only [conjuncts, List.mem_cons, List.mem_append] at hd
    have hboth := (evalInner_and (ne_nil_of_evalInner h)).mp h
    rcases hd with rfl | hd | hd
    exacts [h, ihl hd hboth.1, ihr hd hboth.2]
  | identifier | equal | notEqual | descendant | not | or =>
    exact List.mem_singleton.mp hd ▸ h

/-- The parts below a `>` hold of the end of the stack. -/
theorem evalInner_of_nested {b d : KeyBindingContextPredicate} (hd : d ∈ b.nested)
    {contexts all : List KeyContext} (h : b.evalInner contexts all = true) :
    ∃ below, below <:+ contexts ∧ d.evalInner below below = true := by
  induction b generalizing contexts all with
  | descendant parent child _ ih =>
    obtain ⟨i, -, -, -, hchild⟩ := (evalInner_descendant (ne_nil_of_evalInner h)).mp h
    rcases List.mem_append.mp hd with hd | hd
    · exact ⟨_, List.drop_suffix _ _, evalInner_of_conjunct hd hchild⟩
    · obtain ⟨below, hsuffix, hbelow⟩ := ih hd hchild
      exact ⟨below, hsuffix.trans (List.drop_suffix _ _), hbelow⟩
  | and left right ihl ihr =>
    have hboth := (evalInner_and (ne_nil_of_evalInner h)).mp h
    rcases List.mem_append.mp hd with hd | hd
    exacts [ihl hd hboth.1, ihr hd hboth.2]
  | identifier | equal | notEqual | not | or => exact absurd hd (by simp [nested])

end Lucie.KeyBindingContextPredicate
