import Lucie.Keymap.Keymap

/-!
# Precedence of bindings

The bindings for an input are the enabled ones that match it in full, in order of
precedence, up to the first `NoAction` binding that disables what follows.
-/

set_option autoImplicit false

namespace Lucie.Keymap

variable {α : Type} {keymap : Keymap α} {input : List Keystroke} {contexts : List KeyContext}

/-- A binding of the keymap is enabled at a depth and matches the input, in full or
leaving some of its keystrokes. -/
structure Matches (keymap : Keymap α) (input : List Keystroke) (contexts : List KeyContext)
    (pending : Bool) (found : ℕ × ℕ × KeyBinding α) : Prop where
  get : keymap.bindings[found.2.1]? = some found.2.2
  enabled : bindingEnabled found.2.2 contexts = some found.1
  matched : found.2.2.matchKeystrokes input = some pending

/-- Strict precedence: depth, then index, both descending. -/
def Precedes (a b : ℕ × ℕ × KeyBinding α) : Prop :=
  b.1 < a.1 ∨ (b.1 = a.1 ∧ b.2.1 < a.2.1)

/-- A `NoAction` binding of the user, or of unknown origin. -/
def Disables (binding : KeyBinding α) : Prop :=
  binding.action.isNoAction = true ∧ (binding.metaIndex = none ∨ binding.metaIndex = some 0)

theorem Precedes.trans {a b c : ℕ × ℕ × KeyBinding α} (hab : Precedes a b) (hbc : Precedes b c) :
    Precedes a c := by
  unfold Precedes at *
  omega

theorem Precedes.irrefl (a : ℕ × ℕ × KeyBinding α) : ¬ Precedes a a := by
  unfold Precedes
  omega

/-- The candidates are the enabled bindings that match. -/
theorem mem_candidates {depth ix : ℕ} {binding : KeyBinding α} {pending : Bool} :
    (depth, ix, binding, pending) ∈ keymap.candidates input contexts ↔
      Matches keymap input contexts pending (depth, ix, binding) := by
  simp only [candidates, List.mem_filterMap, List.mem_reverse, Option.bind_eq_bind,
    Option.bind_eq_some_iff]
  constructor
  · rintro ⟨⟨binding', ix'⟩, hmem, depth', henabled, pending', hmatch, heq⟩
    obtain ⟨rfl, rfl, rfl, rfl⟩ : depth' = depth ∧ ix' = ix ∧ binding' = binding ∧
        pending' = pending := by simpa using heq
    exact ⟨List.mem_zipIdx_iff_getElem?.mp hmem, henabled, hmatch⟩
  · rintro ⟨hget, henabled, hmatch⟩
    exact ⟨(binding, ix), List.mem_zipIdx_iff_getElem?.mpr hget, depth, henabled, pending, hmatch,
      rfl⟩

/-- Candidates come in descending order of their indices. -/
theorem candidates_pairwise :
    (keymap.candidates input contexts).Pairwise fun a b => b.2.1 < a.2.1 := by
  have hindices : (keymap.bindings.zipIdx.map Prod.snd).Pairwise (· < ·) := by
    rw [List.zipIdx_map_snd]
    exact List.pairwise_lt_range'
  unfold candidates
  rw [List.pairwise_filterMap, List.pairwise_reverse]
  refine (List.pairwise_map.mp hindices).imp fun {a b} hlt => ?_
  simp only [Option.bind_eq_bind, Option.bind_eq_some_iff, Option.some.injEq]
  rintro _ ⟨_, _, _, _, rfl⟩ _ ⟨_, _, _, _, rfl⟩
  exact hlt

/-- The sorted matches are the full matches. -/
theorem mem_sortedMatches {found : ℕ × ℕ × KeyBinding α} :
    found ∈ keymap.sortedMatches input contexts ↔ Matches keymap input contexts false found := by
  obtain ⟨depth, ix, binding⟩ := found
  rw [sortedMatches, List.mem_insertionSort, ← mem_candidates]
  simp [List.mem_filterMap]

instance : Std.Total (PrecedesOrEq (α := α)) :=
  ⟨fun a b => by unfold PrecedesOrEq; omega⟩

instance : IsTrans (ℕ × ℕ × KeyBinding α) PrecedesOrEq :=
  ⟨fun a b c => by unfold PrecedesOrEq; omega⟩

/-- The sorted matches are in strict order of precedence. -/
theorem sortedMatches_pairwise : (keymap.sortedMatches input contexts).Pairwise Precedes := by
  have hsorted : (keymap.sortedMatches input contexts).Pairwise PrecedesOrEq :=
    List.pairwise_insertionSort _ _
  have hne : (keymap.sortedMatches input contexts).Pairwise fun a b => a.2.1 ≠ b.2.1 := by
    refine ((List.perm_insertionSort _ _).pairwise_iff fun h => h.symm).mpr ?_
    rw [List.pairwise_filterMap]
    refine candidates_pairwise.imp fun {a b} hlt x hx y hy => ?_
    obtain ⟨depth, ix, binding, _ | _⟩ := a <;> obtain ⟨depth', ix', binding', _ | _⟩ := b <;>
      simp at hx hy
    rw [← hx, ← hy]
    exact hlt.ne'
  refine hsorted.imp₂ (fun a b hle hne => ?_) hne
  unfold PrecedesOrEq at hle
  unfold Precedes
  omega

/-- The three branches of the loop. -/
theorem untilDisabled_cons (found : ℕ × ℕ × KeyBinding α) (l : List (ℕ × ℕ × KeyBinding α)) :
    (Disables found.2.2 ∧ untilDisabled (found :: l) = []) ∨
    (¬ Disables found.2.2 ∧ found.2.2.action.isNoAction = true ∧
      untilDisabled (found :: l) = untilDisabled l) ∨
    (found.2.2.action.isNoAction = false ∧
      untilDisabled (found :: l) = found :: untilDisabled l) := by
  obtain ⟨depth, ix, binding⟩ := found
  cases haction : binding.action.isNoAction with
  | false => exact .inr (.inr ⟨rfl, by simp [untilDisabled, haction]⟩)
  | true =>
    rcases hmeta : binding.metaIndex with _ | source
    · exact .inl ⟨⟨haction, .inl hmeta⟩, by simp [untilDisabled, haction, hmeta]⟩
    · rcases eq_or_ne source 0 with rfl | hne
      · exact .inl ⟨⟨haction, .inr hmeta⟩, by simp [untilDisabled, haction, hmeta]⟩
      · exact .inr (.inl ⟨by simp [Disables, hmeta, hne], rfl,
          by simp [untilDisabled, haction, hmeta, hne]⟩)

/-- The loop keeps the order. -/
theorem untilDisabled_sublist (l : List (ℕ × ℕ × KeyBinding α)) : (untilDisabled l).Sublist l := by
  induction l with
  | nil => exact .slnil
  | cons found l ih =>
    rcases untilDisabled_cons found l with ⟨-, h⟩ | ⟨-, -, h⟩ | ⟨-, h⟩ <;> rw [h]
    exacts [List.nil_sublist _, ih.cons _, ih.cons_cons _]

/-- The loop keeps the actions that precede every binding that disables. -/
theorem mem_untilDisabled {l : List (ℕ × ℕ × KeyBinding α)} (hl : l.Pairwise Precedes)
    {found : ℕ × ℕ × KeyBinding α} :
    found ∈ untilDisabled l ↔ found ∈ l ∧ found.2.2.action.isNoAction = false ∧
      ∀ other ∈ l, Disables other.2.2 → Precedes found other := by
  induction l with
  | nil => simp [untilDisabled]
  | cons first l ih =>
    obtain ⟨hfirst, hl⟩ := List.pairwise_cons.mp hl
    have ih := ih hl
    rcases untilDisabled_cons first l with ⟨hdis, h⟩ | ⟨hdis, hno, h⟩ | ⟨hact, h⟩ <;> rw [h]
    · -- nothing after a binding that disables precedes it
      simp only [List.not_mem_nil, List.mem_cons, false_iff]
      rintro ⟨rfl | hmem, hact, hall⟩
      · rw [hdis.1] at hact
        exact Bool.noConfusion hact
      · exact Precedes.irrefl _ ((hfirst found hmem).trans (hall first (.inl rfl) hdis))
    · rw [ih]
      constructor
      · rintro ⟨hmem, hact, hall⟩
        refine ⟨.tail _ hmem, hact, fun other hother hother' => ?_⟩
        rcases List.mem_cons.mp hother with rfl | hother
        exacts [absurd hother' hdis, hall other hother hother']
      · rintro ⟨hmem, hact, hall⟩
        rcases List.mem_cons.mp hmem with rfl | hmem
        · rw [hno] at hact
          exact Bool.noConfusion hact
        · exact ⟨hmem, hact, fun other hother => hall other (.tail _ hother)⟩
    · have hnot : ¬ Disables first.2.2 := fun hdis => by simp [hdis.1] at hact
      rw [List.mem_cons, ih]
      constructor
      · rintro (rfl | ⟨hmem, hact', hall⟩)
        · refine ⟨.head _, hact, fun other hother hdis => ?_⟩
          rcases List.mem_cons.mp hother with rfl | hother
          exacts [absurd hdis hnot, hfirst other hother]
        · refine ⟨.tail _ hmem, hact', fun other hother hdis => ?_⟩
          rcases List.mem_cons.mp hother with rfl | hother
          exacts [absurd hdis hnot, hall other hother hdis]
      · rintro ⟨hmem, hact', hall⟩
        refine (List.mem_cons.mp hmem).imp_right fun hmem => ⟨hmem, hact', ?_⟩
        exact fun other hother => hall other (.tail _ hother)

/-- What an input triggers: the actions that match it in full and precede every
binding that disables it. -/
theorem mem_triggered {found : ℕ × ℕ × KeyBinding α} :
    found ∈ keymap.triggered input contexts ↔ Matches keymap input contexts false found ∧
      found.2.2.action.isNoAction = false ∧
      ∀ other, Matches keymap input contexts false other → Disables other.2.2 →
        Precedes found other := by
  simp only [triggered, mem_untilDisabled sortedMatches_pairwise, mem_sortedMatches]

/-- The bindings for an input are those that it triggers, in strict order of
precedence. -/
theorem bindingsForInput_spec (keymap : Keymap α) (input : List Keystroke)
    (contexts : List KeyContext) :
    ∃ found : List (ℕ × ℕ × KeyBinding α),
      (keymap.bindingsForInput input contexts).1 = found.map (fun f => f.2.2) ∧
      found.Pairwise Precedes ∧
      ∀ f, f ∈ found ↔ Matches keymap input contexts false f ∧
        f.2.2.action.isNoAction = false ∧
        ∀ other, Matches keymap input contexts false other → Disables other.2.2 →
          Precedes f other :=
  ⟨keymap.triggered input contexts, rfl,
    sortedMatches_pairwise.sublist (untilDisabled_sublist _), fun _ => mem_triggered⟩

end Lucie.Keymap
