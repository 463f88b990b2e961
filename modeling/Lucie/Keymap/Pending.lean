import Lucie.Keymap.Precedence

/-!
# Pending chords

When an input triggers nothing, the keymap asks to wait if some chord beyond the input
is not removed by a later `NoAction` binding with equal keystrokes. Whether a chord
fires when it is completed follows the order of precedence instead, with depths, the
origin of the `NoAction` binding and matching keystrokes. The two rules differ.
-/

set_option autoImplicit false

namespace Lucie

variable {α : Type}

/-- What is typed to complete a binding. -/
def KeyBinding.fullInput (binding : KeyBinding α) : List Keystroke :=
  binding.keystrokes.map KeybindingKeystroke.inner

/-- A binding matches its own keystrokes in full. -/
theorem KeyBinding.matchKeystrokes_fullInput (binding : KeyBinding α) :
    binding.matchKeystrokes binding.fullInput = some false := by
  have hall : ∀ keystrokes : List KeybindingKeystroke,
      ((keystrokes.zip (keystrokes.map KeybindingKeystroke.inner)).all
        fun pair => pair.2.shouldMatch pair.1) = true := by
    intro keystrokes
    induction keystrokes with
    | nil => rfl
    | cons target keystrokes ih => simpa [Keystroke.shouldMatch_inner] using ih
  simp only [matchKeystrokes, fullInput, List.length_map, Nat.lt_irrefl, if_false, gt_iff_lt,
    decide_false]
  rw [if_pos (hall _)]

namespace Keymap

variable {keymap : Keymap α} {input : List Keystroke} {contexts : List KeyContext}

/-- The set that the loop ends with: the keystrokes of the actions without a later
`NoAction` binding, and what was there before unless a `NoAction` binding removes it. -/
theorem mem_pendingKeystrokes {l : List (ℕ × KeyBinding α)} (hl : l.Pairwise fun a b => a.1 < b.1)
    (pending : List (List KeybindingKeystroke)) (keystrokes : List KeybindingKeystroke) :
    keystrokes ∈ pendingKeystrokes none l pending ↔
      (∃ f ∈ l, f.2.keystrokes = keystrokes ∧ f.2.action.isNoAction = false ∧
        ∀ other ∈ l, f.1 < other.1 → other.2.keystrokes = keystrokes →
          other.2.action.isNoAction = false) ∨
      (keystrokes ∈ pending ∧ ∀ other ∈ l, other.2.keystrokes = keystrokes →
        other.2.action.isNoAction = false) := by
  induction l generalizing pending with
  | nil => simp [pendingKeystrokes]
  | cons first l ih =>
    obtain ⟨ix, binding⟩ := first
    obtain ⟨hfirst, hl⟩ := List.pairwise_cons.mp hl
    -- no element of the rest comes before the first one
    have hback : ∀ f ∈ l, ¬ f.1 < ix := fun f hf => Nat.lt_asymm (hfirst f hf)
    have hlater : ∀ f ∈ l, ix < f.1 := hfirst
    cases haction : binding.action.isNoAction with
    | true =>
      simp only [pendingKeystrokes, Option.any_none, Bool.false_eq_true, if_false, haction, if_true,
        ih hl, List.mem_filter, decide_eq_true_eq]
      constructor
      · rintro (⟨f, hf, hkeys, hact, hall⟩ | ⟨⟨hmem, hne⟩, hall⟩)
        · refine .inl ⟨f, .tail _ hf, hkeys, hact, fun other hother hlt => ?_⟩
          rcases List.mem_cons.mp hother with rfl | hother
          exacts [absurd hlt (hback f hf), hall other hother hlt]
        · refine .inr ⟨hmem, fun other hother hkeys => ?_⟩
          rcases List.mem_cons.mp hother with rfl | hother
          exacts [absurd hkeys.symm hne, hall other hother hkeys]
      · rintro (⟨f, hf, hkeys, hact, hall⟩ | ⟨hmem, hall⟩)
        · rcases List.mem_cons.mp hf with rfl | hf
          · exact absurd (haction.symm.trans hact) (by decide)
          · exact .inl ⟨f, hf, hkeys, hact, fun other hother => hall other (.tail _ hother)⟩
        · refine .inr ⟨⟨hmem, fun heq => ?_⟩, fun other hother => hall other (.tail _ hother)⟩
          exact absurd (haction.symm.trans (hall _ (.head _) heq.symm)) (by decide)
    | false =>
      simp only [pendingKeystrokes, Option.any_none, Bool.false_eq_true, if_false, haction,
        ih hl, List.mem_insert_iff]
      constructor
      · rintro (⟨f, hf, hkeys, hact, hall⟩ | ⟨rfl | hmem, hall⟩)
        · refine .inl ⟨f, .tail _ hf, hkeys, hact, fun other hother hlt => ?_⟩
          rcases List.mem_cons.mp hother with rfl | hother
          exacts [absurd hlt (hback f hf), hall other hother hlt]
        · refine .inl ⟨_, .head _, rfl, haction, fun other hother hlt => ?_⟩
          rcases List.mem_cons.mp hother with rfl | hother
          exacts [absurd hlt (Nat.lt_irrefl _), hall other hother]
        · refine .inr ⟨hmem, fun other hother hkeys => ?_⟩
          rcases List.mem_cons.mp hother with rfl | hother
          exacts [haction, hall other hother hkeys]
      · rintro (⟨f, hf, hkeys, hact, hall⟩ | ⟨hmem, hall⟩)
        · rcases List.mem_cons.mp hf with rfl | hf
          · exact .inr ⟨.inl hkeys.symm, fun other hother =>
              hall other (.tail _ hother) (hlater other hother)⟩
          · exact .inl ⟨f, hf, hkeys, hact, fun other hother => hall other (.tail _ hother)⟩
        · exact .inr ⟨.inr hmem, fun other hother => hall other (.tail _ hother)⟩

/-- A chord: an action whose keystrokes go beyond the input. -/
def Chord (keymap : Keymap α) (input : List Keystroke) (contexts : List KeyContext)
    (f : ℕ × ℕ × KeyBinding α) : Prop :=
  Matches keymap input contexts true f ∧ f.2.2.action.isNoAction = false

/-- A `NoAction` binding with equal keystrokes was added after the chord. -/
def Masked (keymap : Keymap α) (input : List Keystroke) (contexts : List KeyContext)
    (f : ℕ × ℕ × KeyBinding α) : Prop :=
  ∃ other, Matches keymap input contexts true other ∧ other.2.2.action.isNoAction = true ∧
    f.2.1 < other.2.1 ∧ other.2.2.keystrokes = f.2.2.keystrokes

/-- A `NoAction` binding that disables the chord matches its keystrokes, and the chord
does not precede it. -/
def Overridden (keymap : Keymap α) (contexts : List KeyContext) (f : ℕ × ℕ × KeyBinding α) : Prop :=
  ∃ other, Matches keymap f.2.2.fullInput contexts false other ∧ Disables other.2.2 ∧
    ¬ Precedes f other

/-- Some chord would fire, but every chord is masked. -/
def Overlooked (keymap : Keymap α) (input : List Keystroke) (contexts : List KeyContext) : Prop :=
  (∃ f, Chord keymap input contexts f ∧ ¬ Overridden keymap contexts f) ∧
    ∀ f, Chord keymap input contexts f → Masked keymap input contexts f

/-- Some chord is not masked, but every chord is overridden. -/
def Phantom (keymap : Keymap α) (input : List Keystroke) (contexts : List KeyContext) : Prop :=
  (∃ f, Chord keymap input contexts f ∧ ¬ Masked keymap input contexts f) ∧
    ∀ f, Chord keymap input contexts f → Overridden keymap contexts f

theorem mem_pendingBindings {ix : ℕ} {binding : KeyBinding α} :
    (ix, binding) ∈ keymap.pendingBindings input contexts ↔
      ∃ depth, Matches keymap input contexts true (depth, ix, binding) := by
  simp [pendingBindings, List.mem_filterMap, ← mem_candidates]

theorem pendingBindings_pairwise :
    (keymap.pendingBindings input contexts).reverse.Pairwise fun a b => a.1 < b.1 := by
  rw [List.pairwise_reverse, pendingBindings, List.pairwise_filterMap]
  refine candidates_pairwise.imp fun {a b} hlt x hx y hy => ?_
  obtain ⟨depth, ix, binding, _ | _⟩ := a <;> obtain ⟨depth', ix', binding', _ | _⟩ := b <;>
    simp at hx hy
  rw [← hx, ← hy]
  exact hlt

/-- Without a triggered binding, the keymap waits if some chord is not masked. -/
theorem pending_iff (h : (keymap.bindingsForInput input contexts).1 = []) :
    (keymap.bindingsForInput input contexts).2 = true ↔
      ∃ f, Chord keymap input contexts f ∧ ¬ Masked keymap input contexts f := by
  have hnone : keymap.triggered input contexts = [] := List.map_eq_nil_iff.mp h
  have hmem : ∀ {f : ℕ × KeyBinding α},
      f ∈ (keymap.pendingBindings input contexts).reverse ↔
        ∃ depth, Matches keymap input contexts true (depth, f) :=
    List.mem_reverse.trans mem_pendingBindings
  have hflag : (keymap.bindingsForInput input contexts).2 = true ↔
      ∃ keystrokes, keystrokes ∈ pendingKeystrokes none
        (keymap.pendingBindings input contexts).reverse [] := by
    simp only [bindingsForInput, hnone, List.head?_nil, Option.map_none, Bool.not_eq_true',
      List.isEmpty_eq_false_iff_exists_mem]
  simp only [hflag, mem_pendingKeystrokes pendingBindings_pairwise, List.not_mem_nil, false_and,
    or_false]
  constructor
  · rintro ⟨_, f, hf, rfl, hact, hall⟩
    obtain ⟨depth, hmatch⟩ := hmem.mp hf
    refine ⟨(depth, f), ⟨hmatch, hact⟩, ?_⟩
    rintro ⟨⟨depth', other⟩, hother, hno, hlt, hkeys⟩
    exact absurd (hno.symm.trans (hall other (hmem.mpr ⟨depth', hother⟩) hlt hkeys)) (by decide)
  · rintro ⟨⟨depth, f⟩, ⟨hmatch, hact⟩, hmasked⟩
    refine ⟨_, f, hmem.mpr ⟨depth, hmatch⟩, rfl, hact, fun other hother hlt hkeys => ?_⟩
    obtain ⟨depth', hmatch'⟩ := hmem.mp hother
    by_contra hno
    exact hmasked ⟨(depth', other), hmatch', Bool.not_eq_false _ ▸ hno, hlt, hkeys⟩

/-- A chord fires when it is completed, unless it is overridden. -/
theorem mem_triggered_fullInput {f : ℕ × ℕ × KeyBinding α} (hf : Chord keymap input contexts f) :
    f ∈ keymap.triggered f.2.2.fullInput contexts ↔ ¬ Overridden keymap contexts f := by
  have hself : Matches keymap f.2.2.fullInput contexts false f :=
    ⟨hf.1.get, hf.1.enabled, f.2.2.matchKeystrokes_fullInput⟩
  rw [mem_triggered, Overridden]
  push Not
  exact ⟨fun h => h.2.2, fun h => ⟨hself, hf.2, h⟩⟩

/-- A chord of the editor, and a `NoAction` binding of the workspace that was added
after it. -/
def shadowed : Keymap Unit :=
  ⟨[⟨.act (), [⟨⟨{}, "a", none⟩⟩, ⟨⟨{}, "b", none⟩⟩], some (.identifier "Editor"), none⟩,
    ⟨.noAction, [⟨⟨{}, "a", none⟩⟩, ⟨⟨{}, "b", none⟩⟩], some (.identifier "Workspace"), none⟩]⟩

end Keymap

end Lucie
