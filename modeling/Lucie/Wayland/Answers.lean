import Lucie.Wayland.Configure

/-!
# Answering configures

Every configure is acknowledged or skipped, in order. A configure is skipped exactly if it belongs
to an interactive resize and another one of these was acknowledged since the last frame. The
geometry that goes with an answer has the size that the compositor asked for, unless the window
leaves the maximized state. From the first answer on there is always one frame callback.
-/

set_option autoImplicit false

namespace Lucie.Wayland

open Foundation

/-- The serial of a configure. -/
def WaylandWindowAction.serial? : WaylandWindowAction → Option ℕ
  | .surfaceConfigure serial | .layerConfigure _ _ serial => some serial
  | _ => none

/-- The sizes of configures are those of the protocol. -/
def WaylandWindowAction.WellFormed : WaylandWindowAction → Prop
  | .toplevelConfigure width height _ | .layerConfigure width height _ =>
    (0 ≤ width ∧ width < 2 ^ 31) ∧ 0 ≤ height ∧ height < 2 ^ 31
  | _ => True

instance (a : WaylandWindowAction) : Decidable a.WellFormed := by
  unfold WaylandWindowAction.WellFormed
  split <;> infer_instance

/-- A configure has a positive size or none, and all edges of a maximized or fullscreen window are
tiled. -/
structure InProgressConfigure.WellFormed (configure : InProgressConfigure) : Prop where
  size : ∀ size, configure.size = some size → ∃ width height : ℤ, (0 < width ∧ width < 2 ^ 31) ∧
    (0 < height ∧ height < 2 ^ 31) ∧ size = ⟨width, height⟩
  tiling : configure.floats = false → configure.tiling = .tiled

namespace WaylandOutput

/-- The serial that is answered, or not. -/
def serial? : WaylandOutput → Option ℕ
  | .acknowledge serial _ _ | .skip serial _ => some serial
  | _ => none

def isAcknowledge : WaylandOutput → Bool
  | .acknowledge _ _ _ => true
  | _ => false

/-- Nothing that concerns configures. -/
def isQuiet : WaylandOutput → Bool
  | .setGeometry _ | .resize _ _ => true
  | _ => false

/-- Whether an interactive resize was acknowledged after the last frame. -/
def resizedSinceFrame (outputs : List WaylandOutput) : Bool :=
  outputs.foldl (fun resized output =>
    match output with
    | .acknowledge _ (some configure) _ => resized || configure.resizing
    | .frame => false
    | _ => resized) false

/-- Whether the last configure was for a maximized window. -/
def maximizedAfter (outputs : List WaylandOutput) : Bool :=
  outputs.foldl (fun maximized output =>
    match output with
    | .acknowledge _ (some configure) _ | .skip _ configure => configure.maximized
    | _ => maximized) false

/-- What justifies an answer. -/
def Answers (before : List WaylandOutput) : WaylandOutput → Prop
  | .acknowledge _ configure geometry => 0 < geometry.size.width ∧ 0 < geometry.size.height ∧
      ∀ applied, configure = some applied →
        (applied.resizing → resizedSinceFrame before = false) ∧
        ∀ size, applied.size = some size → ¬(applied.floats ∧ maximizedAfter before) →
          geometry.size.width = size.width ∧ geometry.size.height = size.height
  | .skip _ configure => configure.resizing ∧ resizedSinceFrame before
  | _ => True

theorem resizedSinceFrame_snoc (outputs : List WaylandOutput) (output : WaylandOutput) :
    resizedSinceFrame (outputs ++ [output]) = match output with
      | .acknowledge _ (some configure) _ => resizedSinceFrame outputs || configure.resizing
      | .frame => false
      | _ => resizedSinceFrame outputs := by
  rw [resizedSinceFrame, List.foldl_append]
  rfl

theorem maximizedAfter_snoc (outputs : List WaylandOutput) (output : WaylandOutput) :
    maximizedAfter (outputs ++ [output]) = match output with
      | .acknowledge _ (some configure) _ | .skip _ configure => configure.maximized
      | _ => maximizedAfter outputs := by
  rw [maximizedAfter, List.foldl_append]
  rfl

/-- The same configures were answered. -/
structure SameAnswers (outputs outputs' : List WaylandOutput) : Prop where
  serials : outputs'.filterMap serial? = outputs.filterMap serial?
  resized : resizedSinceFrame outputs' = resizedSinceFrame outputs
  maximized : maximizedAfter outputs' = maximizedAfter outputs

theorem answers_quiet {outputs more : List WaylandOutput}
    (h : Journal (fun before output => output.Answers before) outputs)
    (hmore : more = [] ∨ ∃ output : WaylandOutput, output.isQuiet ∧ more = [output]) :
    SameAnswers outputs (outputs ++ more) ∧
      Journal (fun before output => output.Answers before) (outputs ++ more) ∧
      (outputs ++ more).any isAcknowledge = outputs.any isAcknowledge := by
  rcases hmore with rfl | ⟨output, hquiet, rfl⟩
  · rw [List.append_nil]
    exact ⟨⟨rfl, rfl, rfl⟩, h, rfl⟩
  · cases output with
    | setGeometry | resize =>
      refine ⟨⟨?_, resizedSinceFrame_snoc _ _, maximizedAfter_snoc _ _⟩, h.snoc trivial, ?_⟩
      · simp [serial?]
      · simp [isAcknowledge]
    | acknowledge | skip | frame => cases hquiet

end WaylandOutput

open WaylandOutput

theorem configureSize_wellFormed {width height : ℤ} (hwidth : 0 ≤ width ∧ width < 2 ^ 31)
    (hheight : 0 ≤ height ∧ height < 2 ^ 31) : ∀ size, configureSize width height = some size →
    ∃ width height : ℤ, (0 < width ∧ width < 2 ^ 31) ∧ (0 < height ∧ height < 2 ^ 31) ∧
      size = ⟨width, height⟩ := by
  intro size hsize
  unfold configureSize at hsize
  split_ifs at hsize with hzero
  · obtain rfl := Option.some.inj hsize
    exact ⟨width, height, by omega, by omega, rfl⟩

theorem InProgressConfigure.wellFormed_ofToplevel {width height : ℤ}
    (hwidth : 0 ≤ width ∧ width < 2 ^ 31) (hheight : 0 ≤ height ∧ height < 2 ^ 31)
    (states : List ToplevelState) : (ofToplevel width height states).WellFormed := by
  refine ⟨configureSize_wellFormed hwidth hheight, fun hfloats => if_pos ?_⟩
  rw [← Bool.not_eq_false', Bool.not_or]
  exact hfloats

theorem InProgressConfigure.wellFormed_ofLayer {width height : ℤ}
    (hwidth : 0 ≤ width ∧ width < 2 ^ 31) (hheight : 0 ≤ height ∧ height < 2 ^ 31) :
    (ofLayer width height).WellFormed :=
  ⟨configureSize_wellFormed hwidth hheight, fun hfloats => Bool.noConfusion hfloats⟩

theorem toI32_intCast {n : ℤ} (hlow : -2 ^ 31 ≤ n) (hhigh : n < 2 ^ 31) : toI32 n = n := by
  have htruncated : (if (0 : ℚ) ≤ n then ⌊(n : ℚ)⌋ else ⌈(n : ℚ)⌉) = n := by simp
  rw [toI32, htruncated]
  omega

/-- The insets that are added to the size of a window are not in its geometry. -/
theorem size_insetByTiling_of_outer {inset : ℚ} {size outer : Size ℚ} {tiling : Tiling}
    (origin : Point ℚ) (h : computeOuterSize inset (some size) tiling = some outer) :
    (insetByTiling ⟨origin, outer⟩ inset tiling).size = size := by
  obtain rfl := Option.some.inj h
  obtain ⟨width, height⟩ := size
  simp only [insetByTiling, Size.mk.injEq]
  constructor <;> ring

theorem insetByTiling_tiled (bounds : Bounds ℚ) (inset : ℚ) :
    insetByTiling bounds inset .tiled = bounds := by
  simp [insetByTiling, Tiling.tiled]

namespace WaylandWindow

variable {s : WaylandWindow}

theorem setSizeAndScale_eq (s : WaylandWindow) (size : Option (Size ℚ)) (scale : Option ℚ) :
    ∃ more, (more = [] ∨ ∃ output : WaylandOutput, output.isQuiet ∧ more = [output]) ∧
      s.setSizeAndScale size scale = { s with
        bounds := { s.bounds with size := size.getD s.bounds.size }
        scale := scale.getD s.scale
        outputs := s.outputs ++ more } := by
  unfold setSizeAndScale
  split_ifs with hsame
  · refine ⟨[], .inl rfl, ?_⟩
    have hsize : size.getD s.bounds.size = s.bounds.size := by
      cases size with
      | none => rfl
      | some size => exact hsame.1 size rfl
    have hscale : scale.getD s.scale = s.scale := by
      cases scale with
      | none => rfl
      | some scale => exact hsame.2 scale rfl
    rw [hsize, hscale, List.append_nil]
  · exact ⟨_, .inr ⟨_, rfl, rfl⟩, rfl⟩

/-- What a configure that is applied changes. -/
theorem apply_eq (s : WaylandWindow) (configure : InProgressConfigure) :
    ∃ more, (more = [] ∨ ∃ output : WaylandOutput, output.isQuiet ∧ more = [output]) ∧
      s.apply configure = { s with
        fullscreen := configure.fullscreen
        maximized := configure.maximized
        tiling := configure.tiling
        resizeThrottle := s.resizeThrottle || configure.resizing
        windowBounds :=
          if configure.floats then
            ((s.configuredSize configure).map fun size => ⟨⟨0, 0⟩, size⟩).getD s.windowBounds
          else s.windowBounds
        bounds := { s.bounds with size := (s.configuredSize configure).getD s.bounds.size }
        outputs := s.outputs ++ more } := by
  unfold apply
  cases s.configuredSize configure with
  | none => exact ⟨[], .inl rfl, by simp⟩
  | some size => exact setSizeAndScale_eq _ (some size) none

/-- Where the outputs are answers, there is one frame callback from the first acknowledgement on,
and the fields are what the outputs say. `applied` is a configure that is not acknowledged yet. -/
structure Conforms (s : WaylandWindow) (applied : Option InProgressConfigure) : Prop where
  journal : Journal (fun before output => output.Answers before) s.outputs
  throttle : s.resizeThrottle =
    (resizedSinceFrame s.outputs || applied.any InProgressConfigure.resizing)
  maximized : s.maximized =
    (applied.map InProgressConfigure.maximized).getD (maximizedAfter s.outputs)
  acknowledged : s.acknowledgedFirstConfigure = s.outputs.any isAcknowledge
  frames : s.frameCallbacks = s.acknowledgedFirstConfigure.toNat
  configure : ∀ configure, s.inProgressConfigure = some configure → configure.WellFormed

theorem conforms_new (bounds : Bounds ℚ) : (new bounds).Conforms none :=
  ⟨journal_nil, rfl, rfl, rfl, rfl, fun _ hsome => absurd hsome (Option.some_ne_none _).symm⟩

/-- Nothing that concerns configures happens. -/
theorem Conforms.quiet {s' : WaylandWindow} {applied : Option InProgressConfigure}
    (h : s.Conforms applied) {more : List WaylandOutput}
    (hmore : more = [] ∨ ∃ output : WaylandOutput, output.isQuiet ∧ more = [output])
    (houtputs : s'.outputs = s.outputs ++ more)
    (hacknowledged : s'.acknowledgedFirstConfigure = s.acknowledgedFirstConfigure)
    (hthrottle : s'.resizeThrottle = s.resizeThrottle) (hmaximized : s'.maximized = s.maximized)
    (hframes : s'.frameCallbacks = s.frameCallbacks)
    (hconfigure : ∀ configure, s'.inProgressConfigure = some configure → configure.WellFormed) :
    s'.Conforms applied ∧ SameAnswers s.outputs s'.outputs := by
  obtain ⟨hsame, hjournal, hany⟩ := answers_quiet h.journal hmore
  rw [← houtputs] at hsame hjournal hany
  exact ⟨⟨hjournal, by rw [hthrottle, hsame.resized, h.throttle],
    by rw [hmaximized, hsame.maximized, h.maximized], by rw [hacknowledged, hany, h.acknowledged],
    by rw [hframes, hacknowledged, h.frames], hconfigure⟩, hsame⟩

/-- A frame is drawn, and the next callback is requested. -/
theorem Conforms.frame (h : Journal (fun before output => output.Answers before) s.outputs)
    (hmaximized : s.maximized = maximizedAfter s.outputs)
    (hacknowledged : s.acknowledgedFirstConfigure = true)
    (hany : s.outputs.any isAcknowledge = true) (hframes : s.frameCallbacks = 0)
    (hconfigure : ∀ configure, s.inProgressConfigure = some configure → configure.WellFormed) :
    s.frame.Conforms none where
  journal := h.snoc trivial
  throttle := by
    simp only [WaylandWindow.frame, resizedSinceFrame_snoc]
    rfl
  maximized := by
    simp only [WaylandWindow.frame, maximizedAfter_snoc]
    exact hmaximized
  acknowledged := by
    simp [WaylandWindow.frame, hacknowledged, hany]
  frames := by
    simp [WaylandWindow.frame, hacknowledged, hframes]
  configure := hconfigure

theorem Conforms.acknowledge {configure : Option InProgressConfigure} (h : s.Conforms configure)
    (serial : ℕ)
    (hanswers : (WaylandOutput.acknowledge serial configure s.geometry).Answers s.outputs) :
    (s.acknowledge serial configure).Conforms none ∧
      (s.acknowledge serial configure).outputs.filterMap serial? =
        s.outputs.filterMap serial? ++ [serial] := by
  have hjournal := h.journal.snoc hanswers
  have hmaximized : s.maximized =
      maximizedAfter (s.outputs ++ [.acknowledge serial configure s.geometry]) := by
    rw [h.maximized, maximizedAfter_snoc]
    cases configure <;> rfl
  have hserials : List.filterMap serial?
      (s.outputs ++ [WaylandOutput.acknowledge serial configure s.geometry]) =
        s.outputs.filterMap serial? ++ [serial] := by
    rw [List.filterMap_append]
    rfl
  unfold WaylandWindow.acknowledge
  dsimp only
  split_ifs with hfirst
  · refine ⟨⟨hjournal, ?_, hmaximized, by simp [isAcknowledge], ?_, h.configure⟩, hserials⟩
    · simp only [h.throttle, resizedSinceFrame_snoc]
      cases configure <;> simp
    · simp only [h.frames, hfirst]
  · refine ⟨Conforms.frame hjournal hmaximized rfl (by simp [isAcknowledge]) ?_ h.configure, ?_⟩
    · simp [h.frames, hfirst]
    · simp only [WaylandWindow.frame, List.filterMap_append]
      rw [← List.filterMap_append, hserials]
      simp [serial?]

theorem size_geometry_pos (s : WaylandWindow) :
    0 < s.geometry.size.width ∧ 0 < s.geometry.size.height := by
  simp only [geometry]
  constructor
  all_goals
    split_ifs with hpos
    · exact Int.one_pos
    · exact not_le.mp hpos

/-- The geometry of an applied configure has the size that it asks for. -/
theorem size_geometry_apply {configure : InProgressConfigure} (hwell : configure.WellFormed)
    {size : Size ℚ} (hsize : configure.size = some size)
    (hkept : ¬(configure.floats ∧ s.maximized)) :
    (s.apply configure).geometry.size.width = size.width ∧
      (s.apply configure).geometry.size.height = size.height := by
  obtain ⟨more, -, happly⟩ := s.apply_eq configure
  have hinset : (s.apply configure).inset = s.inset := by
    rw [happly]
    rfl
  have htiling : (s.apply configure).tiling = configure.tiling := by rw [happly]
  have hinner : (insetByTiling ⟨⟨0, 0⟩, (s.apply configure).bounds.size⟩
      (s.apply configure).inset (s.apply configure).tiling).size = size := by
    rw [hinset, htiling]
    simp only [happly]
    cases hfloats : configure.floats with
    | true =>
      have houter : s.configuredSize configure =
          computeOuterSize s.inset (some size) configure.tiling := by
        simp only [configuredSize, hfloats, if_true]
        rw [if_neg, ← hsize]
        intro hmaximized
        exact hkept ⟨hfloats, (Bool.and_eq_true_iff.mp hmaximized).1⟩
      rw [houter]
      exact size_insetByTiling_of_outer _ rfl
    | false =>
      have hconfigured : s.configuredSize configure = some size := by
        simp only [configuredSize, hfloats]
        exact hsize
      rw [hconfigured, hwell.tiling hfloats, insetByTiling_tiled]
      rfl
  obtain ⟨width, height, hwidth, hheight, rfl⟩ := hwell.size size hsize
  simp only [geometry, hinner]
  rw [toI32_intCast (by omega) hwidth.2, toI32_intCast (by omega) hheight.2, if_neg (by omega),
    if_neg (by omega)]
  exact ⟨rfl, rfl⟩

/-- A configure is applied, unless it is skipped. -/
theorem Conforms.apply (h : s.Conforms none) (configure : InProgressConfigure) :
    (s.apply configure).Conforms (some configure) ∧
      SameAnswers s.outputs (s.apply configure).outputs := by
  obtain ⟨more, hmore, happly⟩ := s.apply_eq configure
  let applied : WaylandWindow := { s with
    resizeThrottle := s.resizeThrottle || configure.resizing
    maximized := configure.maximized }
  have happlied : applied.Conforms (some configure) :=
    ⟨h.journal, by simp [applied, h.throttle], rfl, h.acknowledged, h.frames, h.configure⟩
  rw [happly]
  exact happlied.quiet hmore rfl rfl rfl rfl rfl h.configure

theorem Conforms.handle (h : s.Conforms none) (serial : ℕ) :
    (s.handleXdgSurfaceEvent serial).Conforms none ∧
      (s.handleXdgSurfaceEvent serial).outputs.filterMap serial? =
        s.outputs.filterMap serial? ++ [serial] := by
  unfold handleXdgSurfaceEvent
  cases hconfigure : s.inProgressConfigure with
  | none =>
    obtain ⟨hwidth, hheight⟩ := s.size_geometry_pos
    refine h.acknowledge serial ⟨hwidth, hheight, ?_⟩
    exact fun _ hsome => absurd hsome (Option.some_ne_none _).symm
  | some configure =>
    have hwell := h.configure configure hconfigure
    have hthrottle : s.resizeThrottle = resizedSinceFrame s.outputs := by
      simpa using h.throttle
    have hmaximized : s.maximized = maximizedAfter s.outputs := h.maximized
    dsimp only
    split_ifs with hskip
    · obtain ⟨hresizing, hthrottled⟩ := Bool.and_eq_true_iff.mp hskip
      rw [hthrottle] at hthrottled
      refine ⟨⟨h.journal.snoc ⟨hresizing, hthrottled⟩, ?_, ?_, ?_, h.frames, ?_⟩, ?_⟩
      · simp [resizedSinceFrame_snoc, hthrottle]
      · simp [maximizedAfter_snoc]
      · simp [h.acknowledged, isAcknowledge]
      · exact fun _ hsome => absurd hsome (Option.some_ne_none _).symm
      · simp [serial?]
    · have hnone : Conforms { s with inProgressConfigure := none } none :=
        { h with configure := fun _ hsome => absurd hsome (Option.some_ne_none _).symm }
      obtain ⟨happlied, hsame⟩ := hnone.apply configure
      rw [← hsame.serials]
      refine happlied.acknowledge serial ⟨(size_geometry_pos _).1, (size_geometry_pos _).2, ?_⟩
      rintro _ ⟨rfl⟩
      rw [hsame.resized, hsame.maximized, ← hmaximized, ← hthrottle]
      refine ⟨fun hresizing => ?_, fun size hsize hkept => ?_⟩
      · rwa [hresizing, Bool.true_and, Bool.not_eq_true] at hskip
      · exact size_geometry_apply hwell hsize hkept

theorem Conforms.step (h : s.Conforms none) {s' : WaylandWindow} {a : WaylandWindowAction}
    (ha : a.WellFormed) (hstep : s.step a = some s') :
    s'.Conforms none ∧
      s'.outputs.filterMap serial? = s.outputs.filterMap serial? ++ a.serial?.toList := by
  cases a with
  | toplevelConfigure width height states =>
    cases hstep
    refine ⟨{ h with configure := ?_ }, (List.append_nil _).symm⟩
    rintro _ ⟨rfl⟩
    exact InProgressConfigure.wellFormed_ofToplevel ha.1 ha.2 states
  | surfaceConfigure serial =>
    cases hstep
    exact h.handle serial
  | layerConfigure width height serial =>
    cases hstep
    have hlayer : Conforms { s with inProgressConfigure := some (.ofLayer width height) } none := by
      refine { h with configure := ?_ }
      rintro _ ⟨rfl⟩
      exact InProgressConfigure.wellFormed_ofLayer ha.1 ha.2
    exact hlayer.handle serial
  | frameDone =>
    simp only [WaylandWindow.step] at hstep
    split_ifs at hstep with hnone
    cases hstep
    have hfirst : s.acknowledgedFirstConfigure = true := by
      have hframes := h.frames
      cases hfirst : s.acknowledgedFirstConfigure with
      | true => rfl
      | false =>
        rw [hfirst] at hframes
        exact absurd hframes hnone
    refine ⟨Conforms.frame h.journal h.maximized hfirst ?_ ?_ h.configure, ?_⟩
    · rw [← h.acknowledged, hfirst]
    · simp only [h.frames, hfirst, Bool.toNat_true, Nat.sub_self]
    · simp [WaylandWindow.frame, serial?, WaylandWindowAction.serial?]
  | decorationConfigure | requestDecorations | setClientInset =>
    cases hstep
    exact ⟨{ h with }, (List.append_nil _).symm⟩
  | resize size =>
    cases hstep
    exact And.imp_right (fun hsame => hsame.serials.trans (List.append_nil _).symm)
      (h.quiet (.inr ⟨_, rfl, rfl⟩) rfl rfl rfl rfl rfl h.configure)
  | spawnedResize size =>
    simp only [WaylandWindow.step] at hstep
    split_ifs at hstep
    cases hstep
    obtain ⟨more, hmore, heq⟩ := setSizeAndScale_eq { s with
      spawnedResizes := s.spawnedResizes.erase size } (some size) none
    rw [heq]
    exact And.imp_right (fun hsame => hsame.serials.trans (List.append_nil _).symm)
      (h.quiet hmore rfl rfl rfl rfl rfl h.configure)
  | rescale scale =>
    cases hstep
    obtain ⟨more, hmore, heq⟩ := s.setSizeAndScale_eq none (some scale)
    rw [heq]
    exact And.imp_right (fun hsame => hsame.serials.trans (List.append_nil _).symm)
      (h.quiet hmore rfl rfl rfl rfl rfl h.configure)

end WaylandWindow

end Lucie.Wayland
