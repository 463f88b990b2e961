import Lucie.Window.Contents

/-!
# Slices of the vectors

A slice stays what it is when entries are appended, and when the entries of a range apart from
it are taken. The part of a frame in a recorded range is the slices of all its vectors.
-/

set_option autoImplicit false

namespace Lucie.Drawing

variable {D K : Type}

section Lists

variable {α β : Type} {entries others : List α} {start stop : ℕ}

theorem slice_eq_some_iff {part : List α} : slice entries start stop = some part ↔
    ∃ before after, entries = before ++ part ++ after ∧ before.length = start ∧
      start + part.length = stop := by
  unfold slice
  constructor
  · intro h
    split_ifs at h with hrange
    obtain rfl := Option.some.inj h
    refine ⟨entries.take start, entries.drop stop, ?_, ?_, ?_⟩
    · have hstart : entries.take start = (entries.take stop).take start := by
        rw [List.take_take, Nat.min_eq_left hrange.1]
      rw [hstart, List.take_append_drop, List.take_append_drop]
    · rw [List.length_take]
      omega
    · rw [List.length_drop, List.length_take]
      omega
  · rintro ⟨before, after, rfl, rfl, rfl⟩
    rw [if_pos (by simp)]
    congr 1
    rw [← List.length_append, List.take_left, List.drop_left]

/-- The slice of what was appended. -/
theorem slice_appended (entries others : List α) :
    slice (entries ++ others) entries.length (entries.length + others.length) = some others :=
  slice_eq_some_iff.mpr ⟨entries, [], by simp, rfl, rfl⟩

theorem slice_grown {part : List α} (more : List α) (h : slice entries start stop = some part) :
    slice (entries ++ more) start stop = some part := by
  obtain ⟨before, after, rfl, hstart, hstop⟩ := slice_eq_some_iff.mp h
  exact slice_eq_some_iff.mpr ⟨before, after ++ more, by simp, hstart, hstop⟩

theorem slice_map (f : α → β) :
    slice (entries.map f) start stop = (slice entries start stop).map (List.map f) := by
  unfold slice
  rw [List.length_map]
  split_ifs
  · rw [Option.map_some, List.map_drop, List.map_take]
  · rfl

theorem slice_congr (hlength : entries.length = others.length)
    (hsame : ∀ i, start ≤ i → i < stop → entries[i]? = others[i]?) :
    slice entries start stop = slice others start stop := by
  unfold slice
  rw [hlength]
  split_ifs with hrange
  · congr 1
    apply List.ext_getElem?
    intro i
    rw [List.getElem?_drop, List.getElem?_drop, List.getElem?_take, List.getElem?_take]
    split_ifs with hi
    · exact hsame (start + i) (by omega) hi
    · rfl
  · rfl

theorem length_takeRange {entries : List (Option α)} {start stop : ℕ} (h : start ≤ stop) :
    (takeRange entries start stop).length = entries.length := by
  simp only [takeRange, List.length_append, List.length_take, List.length_map, List.length_drop]
  omega

/-- Taking leaves what is outside the range. -/
theorem getElem?_takeRange {entries : List (Option α)} {start stop i : ℕ} (h : start ≤ stop)
    (hstop : stop ≤ entries.length) (hi : i < start ∨ stop ≤ i) :
    (takeRange entries start stop)[i]? = entries[i]? := by
  have htake : (entries.take start).length = start := by
    rw [List.length_take]
    omega
  have hmiddle : (((entries.take stop).drop start).map fun _ => (none : Option α)).length =
      stop - start := by
    rw [List.length_map, List.length_drop, List.length_take]
    omega
  unfold takeRange
  obtain hi | hi := hi
  · rw [List.getElem?_append_left (by rw [List.length_append]; omega),
      List.getElem?_append_left (by omega), List.getElem?_take, if_pos hi]
  · rw [List.getElem?_append_right (by rw [List.length_append]; omega), List.getElem?_drop,
      List.length_append, htake, hmiddle]
    congr 1
    omega

/-- A slice apart from the range that was taken. -/
theorem slice_takeRange {entries : List (Option α)} {start stop first last : ℕ}
    (h : start ≤ stop) (hstop : stop ≤ entries.length) (hapart : last ≤ start ∨ stop ≤ first) :
    slice (takeRange entries start stop) first last = slice entries first last := by
  apply slice_congr (length_takeRange h)
  intro i hfirst hlast
  exact getElem?_takeRange h hstop (by omega)

theorem bounds_of_slice {part : List α} (h : slice entries start stop = some part) :
    start ≤ stop ∧ stop ≤ entries.length := by
  unfold slice at h
  split_ifs at h with hrange
  exact hrange

end Lists

/-- The part of what was prepainted in a range. -/
def Prepainted.slice (p : Prepainted D) (range : Span PrepaintStateIndex) :
    Option (Prepainted D) := do
  let hitboxes ← Drawing.slice p.hitboxes range.start.hitboxesIndex range.stop.hitboxesIndex
  let tooltipRequests ← Drawing.slice p.tooltipRequests
    range.start.tooltipsIndex range.stop.tooltipsIndex
  some ⟨hitboxes, tooltipRequests⟩

/-- The part of what was painted in a range. -/
def Painted.slice (p : Painted D) (range : Span PaintIndex) : Option (Painted D) := do
  let scene ← Drawing.slice p.scene range.start.sceneIndex range.stop.sceneIndex
  let mouseListeners ← Drawing.slice p.mouseListeners
    range.start.mouseListenersIndex range.stop.mouseListenersIndex
  let inputHandlers ← Drawing.slice p.inputHandlers
    range.start.inputHandlersIndex range.stop.inputHandlersIndex
  let cursorStyles ← Drawing.slice p.cursorStyles
    range.start.cursorStylesIndex range.stop.cursorStylesIndex
  let tabStops ← Drawing.slice p.tabStops range.start.tabHandleIndex range.stop.tabHandleIndex
  some ⟨scene, mouseListeners, inputHandlers, cursorStyles, tabStops⟩

theorem Prepainted.slice_eq_some_iff {p part : Prepainted D} {range : Span PrepaintStateIndex} :
    p.slice range = some part ↔
      Drawing.slice p.hitboxes range.start.hitboxesIndex range.stop.hitboxesIndex =
        some part.hitboxes ∧
      Drawing.slice p.tooltipRequests range.start.tooltipsIndex range.stop.tooltipsIndex =
        some part.tooltipRequests := by
  obtain ⟨hitboxes, tooltipRequests⟩ := part
  simp only [slice, Option.bind_eq_bind, Option.bind_eq_some_iff, Option.some.injEq, mk.injEq]
  constructor
  · rintro ⟨_, hhitboxes, _, htooltips, rfl, rfl⟩
    exact ⟨hhitboxes, htooltips⟩
  · rintro ⟨hhitboxes, htooltips⟩
    exact ⟨_, hhitboxes, _, htooltips, rfl, rfl⟩

theorem Painted.slice_eq_some_iff {p part : Painted D} {range : Span PaintIndex} :
    p.slice range = some part ↔
      Drawing.slice p.scene range.start.sceneIndex range.stop.sceneIndex = some part.scene ∧
      Drawing.slice p.mouseListeners range.start.mouseListenersIndex
        range.stop.mouseListenersIndex = some part.mouseListeners ∧
      Drawing.slice p.inputHandlers range.start.inputHandlersIndex
        range.stop.inputHandlersIndex = some part.inputHandlers ∧
      Drawing.slice p.cursorStyles range.start.cursorStylesIndex
        range.stop.cursorStylesIndex = some part.cursorStyles ∧
      Drawing.slice p.tabStops range.start.tabHandleIndex range.stop.tabHandleIndex =
        some part.tabStops := by
  obtain ⟨scene, mouseListeners, inputHandlers, cursorStyles, tabStops⟩ := part
  simp only [slice, Option.bind_eq_bind, Option.bind_eq_some_iff, Option.some.injEq, mk.injEq]
  constructor
  · rintro ⟨_, hscene, _, hlisteners, _, hhandlers, _, hstyles, _, hstops, rfl, rfl, rfl, rfl, rfl⟩
    exact ⟨hscene, hlisteners, hhandlers, hstyles, hstops⟩
  · rintro ⟨hscene, hlisteners, hhandlers, hstyles, hstops⟩
    exact ⟨_, hscene, _, hlisteners, _, hhandlers, _, hstyles, _, hstops, rfl, rfl, rfl, rfl, rfl⟩

theorem Prepainted.slice_grown {p part : Prepainted D} {range : Span PrepaintStateIndex}
    (more : Prepainted D) (h : p.slice range = some part) :
    (p ++ more).slice range = some part := by
  obtain ⟨hhitboxes, htooltips⟩ := slice_eq_some_iff.mp h
  exact slice_eq_some_iff.mpr ⟨Drawing.slice_grown _ hhitboxes, Drawing.slice_grown _ htooltips⟩

theorem Painted.slice_grown {p part : Painted D} {range : Span PaintIndex}
    (more : Painted D) (h : p.slice range = some part) :
    (p ++ more).slice range = some part := by
  obtain ⟨hscene, hlisteners, hhandlers, hstyles, hstops⟩ := slice_eq_some_iff.mp h
  exact slice_eq_some_iff.mpr ⟨Drawing.slice_grown _ hscene, Drawing.slice_grown _ hlisteners,
    Drawing.slice_grown _ hhandlers, Drawing.slice_grown _ hstyles, Drawing.slice_grown _ hstops⟩

/-- A frame has a prepainted part in a range: that of a view, with the ids in it. -/
structure Frame.HasPrepainted (f : Frame D K) (range : Span PrepaintStateIndex)
    (id : GlobalElementId) (part : Prepainted D) : Prop where
  prepainted : f.prepainted.slice range = some part
  accessed : ∃ ids, slice f.accessedElementStates range.start.accessedElementStatesIndex
    range.stop.accessedElementStatesIndex = some ids ∧ ∀ other ∈ ids, id <:+ other
  deferred : slice f.deferredDraws range.start.deferredDrawsIndex
    range.stop.deferredDrawsIndex = some []

/-- A frame has a painted part in a range: that of a view, with the ids in it. -/
structure Frame.HasPainted (f : Frame D K) (range : Span PaintIndex)
    (id : GlobalElementId) (part : Painted D) : Prop where
  painted : f.painted.slice range = some part
  accessed : ∃ ids, slice f.accessedElementStates range.start.accessedElementStatesIndex
    range.stop.accessedElementStatesIndex = some ids ∧ ∀ other ∈ ids, id <:+ other

/-- Of two ranges one ends before the other one starts, so that the tooltip requests of one
may be taken. -/
def PrepaintApart (range other : Span PrepaintStateIndex) : Prop :=
  range.stop.tooltipsIndex ≤ other.start.tooltipsIndex ∨
    other.stop.tooltipsIndex ≤ range.start.tooltipsIndex

/-- Of two ranges one ends before the other one starts, so that the listeners and input
handlers of one may be taken. -/
def PaintApart (range other : Span PaintIndex) : Prop :=
  (range.stop.mouseListenersIndex ≤ other.start.mouseListenersIndex ∨
    other.stop.mouseListenersIndex ≤ range.start.mouseListenersIndex) ∧
  (range.stop.inputHandlersIndex ≤ other.start.inputHandlersIndex ∨
    other.stop.inputHandlersIndex ≤ range.start.inputHandlersIndex)

theorem PrepaintApart.symm {range other : Span PrepaintStateIndex}
    (h : PrepaintApart range other) : PrepaintApart other range := Or.symm h

theorem PaintApart.symm {range other : Span PaintIndex} (h : PaintApart range other) :
    PaintApart other range := ⟨Or.symm h.1, Or.symm h.2⟩

/-- The other prepainted parts when the tooltip requests of a range are taken. -/
theorem slice_prepainted_takeRange {f f' : Frame D K} {range other : Span PrepaintStateIndex}
    {part : Prepainted D} (h : f.prepainted.slice range = some part)
    (hapart : PrepaintApart range other) (hhitboxes : f'.hitboxes = f.hitboxes)
    (htaken : f'.tooltipRequests = takeRange f.tooltipRequests range.start.tooltipsIndex
      range.stop.tooltipsIndex) :
    f'.prepainted.slice other = f.prepainted.slice other := by
  obtain ⟨-, htooltips⟩ := Prepainted.slice_eq_some_iff.mp h
  obtain ⟨hrange, hstop⟩ := bounds_of_slice htooltips
  have hlength : range.stop.tooltipsIndex ≤ f.tooltipRequests.length := by
    simpa [Frame.prepainted] using hstop
  have hsame := slice_takeRange hrange hlength (Or.symm hapart)
  simp only [Prepainted.slice, Frame.prepainted, slice_map, hhitboxes, htaken, hsame]

/-- The other painted parts when the listeners and input handlers of a range are taken. -/
theorem slice_painted_takeRange {p p' part : Painted D} {range other : Span PaintIndex}
    (h : p.slice range = some part) (hapart : PaintApart range other)
    (htaken : p' = { p with
      mouseListeners := takeRange p.mouseListeners range.start.mouseListenersIndex
        range.stop.mouseListenersIndex
      inputHandlers := takeRange p.inputHandlers range.start.inputHandlersIndex
        range.stop.inputHandlersIndex }) :
    p'.slice other = p.slice other := by
  obtain ⟨-, hlisteners, hhandlers, -, -⟩ := Painted.slice_eq_some_iff.mp h
  obtain ⟨hrange, hstop⟩ := bounds_of_slice hlisteners
  obtain ⟨hrange', hstop'⟩ := bounds_of_slice hhandlers
  have hsame := slice_takeRange hrange hstop (Or.symm hapart.1)
  have hsame' := slice_takeRange hrange' hstop' (Or.symm hapart.2)
  simp only [Painted.slice, htaken, hsame, hsame']

end Lucie.Drawing
