import Lucie.Wayland.Configure

/-!
# The size of a floating window

A window remembers its size for the time when it is neither maximized nor fullscreen. A resize by
the application, a skipped configure, or the end of the fullscreen state without a size separate
what it remembers from the size that it has. Otherwise a window that was maximized comes back with
the size that it had before.
-/

set_option autoImplicit false

namespace Lucie.Wayland

open Foundation

namespace WaylandWindow

variable {s s' : WaylandWindow}

/-- A window that floats remembers its size. -/
def Remembers (s : WaylandWindow) : Prop := s.floats → s.windowBounds.size = s.bounds.size

/-- A configure for a floating window is applied, and has a size or ends the maximized state. -/
def KeepsSize (s : WaylandWindow) (configure : InProgressConfigure) : Prop :=
  configure.floats → (¬(configure.resizing && s.resizeThrottle) ∧
    (s.maximized ∨ configure.size.isSome)) ∨ s.windowBounds.size = s.bounds.size

/-- What the window remembers is not separated from its size. -/
def Undisturbed (s : WaylandWindow) : WaylandWindowAction → Prop
  | .surfaceConfigure _ => ∀ configure, s.inProgressConfigure = some configure →
      s.KeepsSize configure
  | .layerConfigure width height _ => s.KeepsSize (.ofLayer width height)
  | .spawnedResize size => s.floats → s.windowBounds.size = size
  | _ => True

theorem bounds_setSizeAndScale (s : WaylandWindow) (size : Option (Size ℚ)) (scale : Option ℚ) :
    (s.setSizeAndScale size scale).bounds.size = size.getD s.bounds.size := by
  unfold setSizeAndScale
  split_ifs with hsame
  · cases size with
    | none => rfl
    | some size => exact (hsame.1 size rfl).symm
  · rfl

/-- The other fields for the size. -/
theorem fields_setSizeAndScale (s : WaylandWindow) (size : Option (Size ℚ)) (scale : Option ℚ) :
    (s.setSizeAndScale size scale).windowBounds = s.windowBounds ∧
      (s.setSizeAndScale size scale).floats = s.floats := by
  unfold setSizeAndScale
  split_ifs <;> exact ⟨rfl, rfl⟩

theorem fields_acknowledge (s : WaylandWindow) (serial : ℕ)
    (configure : Option InProgressConfigure) :
    (s.acknowledge serial configure).bounds = s.bounds ∧
      (s.acknowledge serial configure).windowBounds = s.windowBounds ∧
      (s.acknowledge serial configure).floats = s.floats := by
  unfold acknowledge
  dsimp only
  split_ifs <;> exact ⟨rfl, rfl, rfl⟩

/-- What a configure that is applied does to the sizes. -/
theorem fields_apply (s : WaylandWindow) (configure : InProgressConfigure) :
    (s.apply configure).bounds.size = (s.configuredSize configure).getD s.bounds.size ∧
      (s.apply configure).windowBounds.size =
        (if configure.floats then (s.configuredSize configure).getD s.windowBounds.size
          else s.windowBounds.size) ∧
      (s.apply configure).floats = configure.floats := by
  unfold apply
  dsimp only
  cases s.configuredSize configure with
  | none =>
    refine ⟨rfl, ?_, rfl⟩
    dsimp only [Option.map_none, Option.getD_none]
    split_ifs <;> rfl
  | some size =>
    dsimp only
    rw [bounds_setSizeAndScale, (fields_setSizeAndScale _ _ _).1, (fields_setSizeAndScale _ _ _).2]
    refine ⟨rfl, ?_, rfl⟩
    dsimp only [Option.map_some, Option.getD_some]
    split_ifs <;> rfl

/-- The size of a configure for a floating window. -/
theorem configuredSize_of_floats {configure : InProgressConfigure} (hfloats : configure.floats) :
    s.configuredSize configure =
      if s.maximized then some s.windowBounds.size
      else computeOuterSize s.inset configure.size configure.tiling := by
  have hmaximized : configure.maximized = false := by
    simpa using (Bool.and_eq_true_iff.mp hfloats).2
  simp [configuredSize, hfloats, hmaximized]

theorem remembers_acknowledge_iff (s : WaylandWindow) (serial : ℕ)
    (configure : Option InProgressConfigure) :
    (s.acknowledge serial configure).Remembers ↔ s.Remembers := by
  obtain ⟨hbounds, hwindow, hfloats⟩ := s.fields_acknowledge serial configure
  rw [Remembers, Remembers, hbounds, hwindow, hfloats]

/-- After a configure that is applied, the window remembers its size if it has one from the
configure or is restored. -/
theorem remembers_apply_iff (s : WaylandWindow) (configure : InProgressConfigure) :
    (s.apply configure).Remembers ↔ (configure.floats →
      (s.maximized ∨ configure.size.isSome) ∨ s.windowBounds.size = s.bounds.size) := by
  obtain ⟨hbounds, hwindow, hfloats⟩ := s.fields_apply configure
  rw [Remembers, hfloats, hbounds, hwindow]
  refine imp_congr_right fun h => ?_
  rw [if_pos h, configuredSize_of_floats h]
  cases hmaximized : s.maximized with
  | true => simp
  | false => cases hsize : configure.size <;> simp [computeOuterSize]

theorem remembers_handle_iff (hremembers : s.Remembers) (serial : ℕ) :
    (s.handleXdgSurfaceEvent serial).Remembers ↔
      ∀ configure, s.inProgressConfigure = some configure → s.KeepsSize configure := by
  unfold handleXdgSurfaceEvent
  cases hconfigure : s.inProgressConfigure with
  | none =>
    refine iff_of_true ?_ fun _ hsome => absurd hsome (Option.some_ne_none _).symm
    exact (s.remembers_acknowledge_iff serial none).mpr hremembers
  | some configure =>
    simp only [Option.some.injEq, forall_eq', KeepsSize]
    split_ifs with hskip
    · refine imp_congr_right fun _ => ?_
      simp [hskip]
    · rw [remembers_acknowledge_iff, remembers_apply_iff]
      refine imp_congr_right fun _ => ?_
      rw [and_iff_right hskip]

/-- A step separates what the window remembers from its size exactly if it is disturbed. -/
theorem remembers_step_iff (hremembers : s.Remembers) {a : WaylandWindowAction}
    (hstep : s.step a = some s') : s'.Remembers ↔ s.Undisturbed a := by
  cases a with
  | surfaceConfigure serial =>
    cases hstep
    exact remembers_handle_iff hremembers serial
  | layerConfigure width height serial =>
    cases hstep
    have hiff := @remembers_handle_iff
      { s with inProgressConfigure := some (.ofLayer width height) } hremembers serial
    simp only [Option.some.injEq, forall_eq'] at hiff
    exact hiff
  | frameDone =>
    simp only [step] at hstep
    split_ifs at hstep
    cases hstep
    exact iff_of_true hremembers trivial
  | toplevelConfigure | decorationConfigure | requestDecorations | setClientInset | resize =>
    cases hstep
    exact iff_of_true hremembers trivial
  | spawnedResize size =>
    simp only [step] at hstep
    split_ifs at hstep
    cases hstep
    rw [Remembers, bounds_setSizeAndScale, (fields_setSizeAndScale _ _ _).1,
      (fields_setSizeAndScale _ _ _).2]
    rfl
  | rescale scale =>
    cases hstep
    refine iff_of_true ?_ trivial
    rw [Remembers, bounds_setSizeAndScale, (fields_setSizeAndScale _ _ _).1,
      (fields_setSizeAndScale _ _ _).2]
    exact hremembers

theorem windowBounds_handle {serial : ℕ}
    (hfloats : (s.handleXdgSurfaceEvent serial).floats = false) :
    (s.handleXdgSurfaceEvent serial).windowBounds.size = s.windowBounds.size := by
  unfold handleXdgSurfaceEvent at hfloats ⊢
  cases hconfigure : s.inProgressConfigure with
  | none =>
    dsimp only
    rw [(s.fields_acknowledge serial none).2.1]
  | some configure =>
    simp only [hconfigure] at hfloats ⊢
    split_ifs at hfloats ⊢
    · rfl
    · rw [(fields_acknowledge _ _ _).2.2, (fields_apply _ _).2.2] at hfloats
      rw [(fields_acknowledge _ _ _).2.1, (fields_apply _ _).2.1, hfloats]
      rfl

/-- What a window remembers changes only when it floats. -/
theorem windowBounds_of_not_floats {a : WaylandWindowAction} (hstep : s.step a = some s')
    (hfloats : s'.floats = false) : s'.windowBounds.size = s.windowBounds.size := by
  cases a with
  | surfaceConfigure serial | layerConfigure width height serial =>
    cases hstep
    exact windowBounds_handle hfloats
  | frameDone =>
    simp only [step] at hstep
    split_ifs at hstep
    cases hstep
    rfl
  | toplevelConfigure | decorationConfigure | requestDecorations | setClientInset | resize =>
    cases hstep
    rfl
  | spawnedResize size =>
    simp only [step] at hstep
    split_ifs at hstep
    cases hstep
    rw [(fields_setSizeAndScale _ _ _).1]
  | rescale scale =>
    cases hstep
    rw [(fields_setSizeAndScale _ _ _).1]

/-- The end of the maximized state. -/
theorem handle_of_maximized {configure : InProgressConfigure} (hmaximized : s.maximized)
    (hconfigure : s.inProgressConfigure = some configure) (hfloats : configure.floats)
    (happlied : ¬(configure.resizing && s.resizeThrottle)) (serial : ℕ) :
    (s.handleXdgSurfaceEvent serial).bounds.size = s.windowBounds.size ∧
      (s.handleXdgSurfaceEvent serial).floats := by
  unfold handleXdgSurfaceEvent
  simp only [hconfigure]
  rw [if_neg happlied, (fields_acknowledge _ _ _).1, (fields_acknowledge _ _ _).2.2,
    (fields_apply _ _).1, (fields_apply _ _).2.2, configuredSize_of_floats hfloats]
  exact ⟨by rw [if_pos hmaximized]; rfl, hfloats⟩

/-- What happens leaves the window maximized or fullscreen. -/
def StaysAway (s : WaylandWindow) (a : WaylandWindowAction) : Prop :=
  ∀ s', s.step a = some s' → s'.floats = false

theorem windowBounds_of_run {t : WaylandWindow} {actions : List WaylandWindowAction}
    (run : Run step StaysAway s actions t) : t.windowBounds.size = s.windowBounds.size :=
  run.invariant (fun _ t => t.windowBounds.size = s.windowBounds.size) rfl
    fun _ _ _ _ h haway hstep => (windowBounds_of_not_floats hstep (haway _ hstep)).trans h

end WaylandWindow

end Lucie.Wayland
