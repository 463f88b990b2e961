import Lucie.Foundation.Run

/-!
# Exact conditions on runs

Where a property of the states is kept by a step exactly when the step meets a condition, it holds
in all states of a run exactly when all steps of the run meet the condition.
-/

set_option autoImplicit false

namespace Lucie.Foundation

variable {σ α : Type} (step : σ → α → Option σ)

/-- The property holds in all states that the actions go through. -/
def AllStates (P : σ → Prop) : σ → List α → Prop
  | s, [] => P s
  | s, a :: actions => P s ∧ ∀ s', step s a = some s' → AllStates P s' actions

/-- All steps of the actions meet the condition. -/
def AllSteps (C : σ → α → Prop) : σ → List α → Prop
  | _, [] => True
  | s, a :: actions => ∀ s', step s a = some s' → C s a ∧ AllSteps C s' actions

variable {step}

theorem AllStates.head {P : σ → Prop} {s : σ} {actions : List α}
    (h : AllStates step P s actions) : P s := by
  cases actions with
  | nil => exact h
  | cons a actions => exact h.1

/-- The property holds where the actions lead to. -/
theorem AllStates.of_execute {P : σ → Prop} {guard : σ → α → Prop}
    [∀ s a, Decidable (guard s a)] {s s' : σ} {actions : List α} (h : AllStates step P s actions)
    (hexecute : execute step guard s actions = some s') : P s' := by
  induction actions generalizing s with
  | nil =>
    obtain rfl := Option.some.inj hexecute
    exact h
  | cons a actions ih =>
    unfold execute at hexecute
    split_ifs at hexecute
    cases hstep : step s a with
    | none => simp [hstep] at hexecute
    | some next =>
      rw [hstep] at hexecute
      exact ih (h.2 next hstep) hexecute

/-- The step after those that were executed meets the condition. -/
theorem AllSteps.of_execute {C : σ → α → Prop} {guard : σ → α → Prop}
    [∀ s a, Decidable (guard s a)] {s s' : σ} {actions : List α} {a : α}
    (h : AllSteps step C s (actions ++ [a])) (hexecute : execute step guard s actions = some s')
    (hstep : (step s' a).isSome) : C s' a := by
  induction actions generalizing s with
  | nil =>
    obtain rfl := Option.some.inj hexecute
    obtain ⟨t, ht⟩ := Option.isSome_iff_exists.mp hstep
    exact (h t ht).1
  | cons b actions ih =>
    unfold execute at hexecute
    split_ifs at hexecute
    cases hnext : step s b with
    | none => simp [hnext] at hexecute
    | some next =>
      rw [hnext] at hexecute
      exact ih (h next hnext).2 hexecute

theorem AllSteps.imp {C C' : σ → α → Prop} (himp : ∀ s a, C s a → C' s a) {s : σ}
    {actions : List α} (h : AllSteps step C s actions) : AllSteps step C' s actions := by
  induction actions generalizing s with
  | nil => trivial
  | cons a actions ih =>
    intro s' hstep
    obtain ⟨hC, hrest⟩ := h s' hstep
    exact ⟨himp s a hC, ih hrest⟩

/-- A step that meets the condition, and the steps after it. -/
theorem AllSteps.cons {C : σ → α → Prop} {s s' : σ} {a : α} {actions : List α}
    (hstep : step s a = some s') (hC : C s a) (h : AllSteps step C s' actions) :
    AllSteps step C s (a :: actions) := by
  intro t ht
  obtain rfl := Option.some.inj (hstep.symm.trans ht)
  exact ⟨hC, h⟩

/-- A property that follows from an invariant holds in all states if all steps meet a condition
under which the invariant is kept. -/
theorem AllSteps.allStates {P : σ → Prop} {C : σ → α → Prop} {Inv : σ → Prop}
    (hinv : ∀ s a s', Inv s → C s a → step s a = some s' → Inv s')
    (hP : ∀ s, Inv s → P s) {s : σ} (hs : Inv s) {actions : List α}
    (h : AllSteps step C s actions) : AllStates step P s actions := by
  induction actions generalizing s with
  | nil => exact hP s hs
  | cons a actions ih =>
    refine ⟨hP s hs, fun s' hstep => ?_⟩
    obtain ⟨hC, hrest⟩ := h s' hstep
    exact ih (hinv s a s' hs hC hstep) hrest

/-- Where a condition keeps an invariant, and is as good as another one in states that satisfy it,
the steps meet both or none. -/
theorem allSteps_iff_allSteps {C C' : σ → α → Prop} (Inv : σ → Prop)
    (hinv : ∀ s a s', Inv s → C' s a → step s a = some s' → Inv s')
    (hiff : ∀ s a, Inv s → (C s a ↔ C' s a)) {s : σ} (hs : Inv s) (actions : List α) :
    AllSteps step C s actions ↔ AllSteps step C' s actions := by
  induction actions generalizing s with
  | nil => exact Iff.rfl
  | cons a actions ih =>
    refine forall_congr' fun s' => imp_congr_right fun hstep => ?_
    rw [hiff s a hs]
    exact and_congr_right fun hC => ih (hinv s a s' hs hC hstep)

/-- Steps that meet a guard decide, in states that satisfy an invariant and have the property. -/
theorem AllSteps.allStates_iff {P : σ → Prop} {G C : σ → α → Prop} (Inv : σ → Prop)
    (hinv : ∀ s a s', Inv s → step s a = some s' → Inv s')
    (hexact : ∀ s a s', Inv s → P s → G s a → step s a = some s' → (P s' ↔ C s a)) {s : σ}
    (hs : Inv s) (hP : P s) {actions : List α} (h : AllSteps step G s actions) :
    AllStates step P s actions ↔ AllSteps step C s actions := by
  induction actions generalizing s with
  | nil => exact iff_of_true hP trivial
  | cons a actions ih =>
    constructor
    · intro hall s' hstep
      have hrest := hall.2 s' hstep
      obtain ⟨hG, hguards⟩ := h s' hstep
      exact ⟨(hexact s a s' hs hP hG hstep).mp hrest.head,
        (ih (hinv s a s' hs hstep) hrest.head hguards).mp hrest⟩
    · intro hall
      refine ⟨hP, fun s' hstep => ?_⟩
      obtain ⟨hC, hrest⟩ := hall s' hstep
      obtain ⟨hG, hguards⟩ := h s' hstep
      have hP' := (hexact s a s' hs hP hG hstep).mpr hC
      exact (ih (hinv s a s' hs hstep) hP' hguards).mpr hrest

theorem allSteps_true (s : σ) (actions : List α) : AllSteps step (fun _ _ => True) s actions := by
  induction actions generalizing s with
  | nil => trivial
  | cons a actions ih => exact fun s' _ => ⟨trivial, ih s'⟩

/-- The step decides, in states that satisfy an invariant and have the property. -/
theorem allStates_iff_allSteps {P : σ → Prop} {C : σ → α → Prop} (Inv : σ → Prop)
    (hinv : ∀ s a s', Inv s → step s a = some s' → Inv s')
    (hexact : ∀ s a s', Inv s → P s → step s a = some s' → (P s' ↔ C s a)) {s : σ} (hs : Inv s)
    (hP : P s) (actions : List α) :
    AllStates step P s actions ↔ AllSteps step C s actions :=
  (allSteps_true s actions).allStates_iff Inv hinv
    (fun s a s' hs hP _ hstep => hexact s a s' hs hP hstep) hs hP

/-! ## Runs to a state -/

theorem Run.exists_of_snoc {guard : σ → α → Prop} {init s : σ} {actions : List α} {a : α}
    (run : Run step guard init (actions ++ [a]) s) :
    ∃ t, Run step guard init actions t ∧ guard t a ∧ step t a = some s := by
  generalize hactions : actions ++ [a] = all at run
  cases run with
  | nil => simp at hactions
  | snoc b run hguard hstep =>
    obtain ⟨rfl, hlast⟩ := List.append_inj' hactions rfl
    obtain rfl := List.singleton_inj.mp hlast
    exact ⟨_, run, hguard, hstep⟩

/-- A run meets a weaker guard. -/
theorem Run.imp {guard guard' : σ → α → Prop} (himp : ∀ s a, guard s a → guard' s a) {init s : σ}
    {actions : List α} (run : Run step guard init actions s) :
    Run step guard' init actions s := by
  induction run with
  | nil => exact .nil
  | snoc a _ hguard hstep ih => exact .snoc a ih (himp _ _ hguard) hstep

/-- The actions decide where a run ends, whatever its guard is. -/
theorem Run.unique {guard guard' : σ → α → Prop} {init s t : σ} {actions : List α}
    (run : Run step guard init actions s) (run' : Run step guard' init actions t) : s = t := by
  induction run generalizing t with
  | nil =>
    generalize hactions : ([] : List α) = all at run'
    cases run' with
    | nil => rfl
    | snoc b run _ _ => simp at hactions
  | snoc a _ _ hstep ih =>
    obtain ⟨u, run', -, hstep'⟩ := run'.exists_of_snoc
    obtain rfl := ih run'
    exact Option.some.inj (hstep.symm.trans hstep')

/-- Where a step keeps a property, and brings none back, exactly when it meets a condition, the
property holds at the end of a run exactly when all of its steps meet the condition. -/
theorem Run.guarded_iff {guard C : σ → α → Prop} {init : σ} (Inv P : σ → Prop)
    (hinit : Inv init) (hP : P init)
    (hinv : ∀ s a s', Inv s → guard s a → step s a = some s' → Inv s')
    (hexact : ∀ s a s', Inv s → guard s a → step s a = some s' → (P s' ↔ P s ∧ C s a))
    {actions : List α} {s : σ} (run : Run step guard init actions s) :
    P s ↔ Run step (fun s a => guard s a ∧ C s a) init actions s := by
  induction run with
  | nil => exact iff_of_true hP .nil
  | @snoc actions s s' a run hguard hstep ih =>
    have hs : Inv s := run.invariant (fun _ s => Inv s) hinit
      fun _ s a s' h hguard hstep => hinv s a s' h hguard hstep
    rw [hexact s a s' hs hguard hstep, ih]
    constructor
    · rintro ⟨run', hC⟩
      exact .snoc a run' ⟨hguard, hC⟩ hstep
    · intro run'
      obtain ⟨t, run', ⟨-, hC⟩, -⟩ := run'.exists_of_snoc
      obtain rfl := run.unique run'
      exact ⟨run', hC⟩

end Lucie.Foundation
