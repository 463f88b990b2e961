import Mathlib.Data.List.Basic
import Lucie.X11.Clipboard

/-!
# Targets of a selection

Other clients ask for the targets that a selection can be converted to, and then for a conversion.
The list has names that nothing is stored under: a stored text is listed under three names and
found under one.
-/

set_option autoImplicit false

namespace Lucie.X11

/-- `SelectionRequestEvent`. The property may be none. -/
structure SelectionRequestEvent where
  sequence : ℕ
  time : ℕ
  requestor : ℕ
  selection : Atom
  target : Atom
  property : Option Atom

/-- `SelectionNotifyEvent`. -/
structure SelectionNotifyEvent where
  sequence : ℕ
  time : ℕ
  requestor : ℕ
  selection : Atom
  target : Atom
  property : Option Atom

/-- What the clipboard server sends. -/
inductive ServerCall
  | changeProperty8 (window : ℕ) (property : Option Atom) (type : Atom) (data : ByteArray)
  | changeProperty32 (window : ℕ) (property : Option Atom) (type : Atom) (data : List Atom)
  | sendEvent (event : SelectionNotifyEvent)

namespace Inner

/-- The targets that some data is listed under. -/
def targetsOf (data : ClipboardData) : List Atom :=
  if data.format = .utf8String then [data.format, .utf8Mime0, .utf8Mime1] else [data.format]

/-- The list of targets for what a selection has. -/
def targets (data : Option (List ClipboardData)) : List Atom :=
  [.targets, .saveTargets] ++ (data.getD []).flatMap targetsOf

/-- `Inner::handle_selection_request`. -/
def handleSelectionRequest (inner : Inner) (event : SelectionRequestEvent) : List ServerCall :=
  match kindOf event.selection with
  | none => []
  | some selection =>
    let notify (property : Option Atom) : ServerCall := .sendEvent ⟨event.sequence, event.time,
      event.requestor, event.selection, event.target, property⟩
    if event.target = .targets then
      [.changeProperty32 event.requestor event.property .atom
        (targets (inner.selectionOf selection)), notify event.property]
    else
      match inner.selectionOf selection with
      | some dataList =>
        match dataList.find? fun d => d.format = event.target with
        | some data =>
          [.changeProperty8 event.requestor event.property event.target data.bytes,
            notify event.property]
        | none => [notify none]
      | none => [notify none]

end Inner

/-- The requestor is notified of a property that has data of the target. -/
def Answered (event : SelectionRequestEvent) (calls : List ServerCall) : Prop :=
  ∃ property bytes,
    ServerCall.changeProperty8 event.requestor (some property) event.target bytes ∈ calls ∧
    ∃ notify : SelectionNotifyEvent, .sendEvent notify ∈ calls ∧
      notify.requestor = event.requestor ∧ notify.property = some property

/-- The requestor is notified of a property with a list of targets that has the target. -/
def Listed (event : SelectionRequestEvent) (target : Atom) (calls : List ServerCall) : Prop :=
  ∃ property targets,
    ServerCall.changeProperty32 event.requestor (some property) .atom targets ∈ calls ∧
    target ∈ targets ∧ ∃ notify : SelectionNotifyEvent, .sendEvent notify ∈ calls ∧
      notify.requestor = event.requestor ∧ notify.property = some property

namespace Inner

/-- The answer is what a list of the targets for the same selection promised. -/
def AnsweredAsListed (inner : Inner) (event : SelectionRequestEvent) : Prop :=
  ∀ request : SelectionRequestEvent, request.selection = event.selection →
    request.target = .targets → request.property ≠ none →
    (Answered event (inner.handleSelectionRequest event) ↔
      Listed request event.target (inner.handleSelectionRequest request))

/-- Some data of the selection has the format. -/
def Stores (inner : Inner) (kind : ClipboardKind) (format : Atom) : Prop :=
  ∃ data ∈ (inner.selectionOf kind).getD [], data.format = format

/-- A request for a format that is stored has a property. One for another format is not for
`SAVE_TARGETS`, and not for one of the names for a text that is stored. -/
structure Convertible (inner : Inner) (kind : ClipboardKind) (event : SelectionRequestEvent) :
    Prop where
  stored : inner.Stores kind event.target → event.property ≠ none
  added : ¬inner.Stores kind event.target → event.target ≠ .saveTargets ∧
    (inner.Stores kind .utf8String → event.target ≠ .utf8Mime0 ∧ event.target ≠ .utf8Mime1)

/-! ## Answers -/

variable {inner : Inner} {kind : ClipboardKind} {event : SelectionRequestEvent}

/-- A request for something else than the list is looked up in the data. -/
theorem handleSelectionRequest_of_ne (hkind : kindOf event.selection = some kind)
    (htarget : event.target ≠ .targets) :
    inner.handleSelectionRequest event =
      match ((inner.selectionOf kind).getD []).find? fun d => d.format = event.target with
      | some data => [.changeProperty8 event.requestor event.property event.target data.bytes,
          .sendEvent ⟨event.sequence, event.time, event.requestor, event.selection, event.target,
            event.property⟩]
      | none => [.sendEvent ⟨event.sequence, event.time, event.requestor, event.selection,
          event.target, none⟩] := by
  rw [handleSelectionRequest, hkind]
  dsimp only
  rw [if_neg htarget]
  cases inner.selectionOf kind with
  | none => rfl
  | some data => rfl

/-- The formats that are stored are converted, if there is a property for them. -/
theorem answered_iff (hkind : kindOf event.selection = some kind)
    (htarget : event.target ≠ .targets) :
    Answered event (inner.handleSelectionRequest event) ↔
      inner.Stores kind event.target ∧ event.property ≠ none := by
  rw [handleSelectionRequest_of_ne hkind htarget]
  cases hfind : ((inner.selectionOf kind).getD []).find? fun d => d.format = event.target with
  | none =>
    have hnone := List.find?_eq_none.mp hfind
    refine iff_of_false (fun hanswered => ?_) fun hstores => ?_
    · obtain ⟨property, bytes, hchange, -⟩ := hanswered
      simp at hchange
    · obtain ⟨⟨data, hdata, hformat⟩, -⟩ := hstores
      exact hnone data hdata (decide_eq_true hformat)
  | some data =>
    have hformat : data.format = event.target := by simpa using List.find?_some hfind
    have hstores : inner.Stores kind event.target :=
      ⟨data, List.mem_of_find?_eq_some hfind, hformat⟩
    constructor
    · rintro ⟨property, bytes, hchange, -⟩
      refine ⟨hstores, fun hnone => ?_⟩
      simp [hnone] at hchange
    · rintro ⟨-, hproperty⟩
      obtain ⟨property, hproperty⟩ := Option.ne_none_iff_exists'.mp hproperty
      rw [hproperty]
      refine ⟨property, data.bytes, List.mem_cons_self, ⟨event.sequence, event.time,
        event.requestor, event.selection, event.target, some property⟩, ?_, rfl, rfl⟩
      exact List.mem_cons_of_mem _ (List.mem_singleton_self _)

theorem mem_targets (target : Atom) : target ∈ targets (inner.selectionOf kind) ↔
    target = .targets ∨ target = .saveTargets ∨ inner.Stores kind target ∨
      inner.Stores kind .utf8String ∧ (target = .utf8Mime0 ∨ target = .utf8Mime1) := by
  have htargetsOf (data : ClipboardData) : target ∈ targetsOf data ↔ data.format = target ∨
      data.format = .utf8String ∧ (target = .utf8Mime0 ∨ target = .utf8Mime1) := by
    unfold targetsOf
    split_ifs with htext
    · simp [htext, eq_comm]
    · simp [htext, eq_comm]
  simp only [targets, Stores, List.mem_append, List.mem_cons, List.not_mem_nil, or_false,
    List.mem_flatMap, htargetsOf, or_assoc]
  refine or_congr_right (or_congr_right ?_)
  constructor
  · rintro ⟨data, hdata, hformat | ⟨htext, hname⟩⟩
    · exact .inl ⟨data, hdata, hformat⟩
    · exact .inr ⟨⟨data, hdata, htext⟩, hname⟩
  · rintro (⟨data, hdata, hformat⟩ | ⟨⟨data, hdata, htext⟩, hname⟩)
    · exact ⟨data, hdata, .inl hformat⟩
    · exact ⟨data, hdata, .inr ⟨htext, hname⟩⟩

/-- The targets that are listed. -/
theorem listed_iff (hkind : kindOf event.selection = some kind) (htarget : event.target = .targets)
    (hproperty : event.property ≠ none) (target : Atom) :
    Listed event target (inner.handleSelectionRequest event) ↔
      target ∈ targets (inner.selectionOf kind) := by
  obtain ⟨property, hproperty⟩ := Option.ne_none_iff_exists'.mp hproperty
  have hcalls : inner.handleSelectionRequest event =
      [.changeProperty32 event.requestor (some property) .atom (targets (inner.selectionOf kind)),
        .sendEvent ⟨event.sequence, event.time, event.requestor, event.selection, event.target,
          some property⟩] := by
    rw [handleSelectionRequest, hkind]
    dsimp only
    rw [if_pos htarget, hproperty]
  rw [hcalls]
  constructor
  · rintro ⟨other, list, hchange, hmem, -⟩
    simp only [List.mem_cons, ServerCall.changeProperty32.injEq, reduceCtorEq, List.not_mem_nil,
      or_false] at hchange
    rw [← hchange.2.2.2]
    exact hmem
  · intro hmem
    refine ⟨property, _, List.mem_cons_self, hmem, ⟨event.sequence, event.time, event.requestor,
      event.selection, event.target, some property⟩, ?_, rfl, rfl⟩
    exact List.mem_cons_of_mem _ (List.mem_singleton_self _)

/-- What is listed is converted, and nothing else, exactly if the request is for a format that is
stored and has a property, or is for another format that was not added to the list. -/
theorem answeredAsListed_iff (inner : Inner) {kind : ClipboardKind} {event : SelectionRequestEvent}
    (hkind : kindOf event.selection = some kind) (htarget : event.target ≠ .targets) :
    inner.AnsweredAsListed event ↔ inner.Convertible kind event := by
  have hlisted (request : SelectionRequestEvent) (hselection : request.selection = event.selection)
      (hrequest : request.target = .targets) (hproperty : request.property ≠ none) :
      Listed request event.target (inner.handleSelectionRequest request) ↔
        event.target = .saveTargets ∨ inner.Stores kind event.target ∨
          inner.Stores kind .utf8String ∧
            (event.target = .utf8Mime0 ∨ event.target = .utf8Mime1) := by
    rw [listed_iff (hselection ▸ hkind) hrequest hproperty, mem_targets, or_iff_right htarget]
  have hanswered : Answered event (inner.handleSelectionRequest event) ↔
      inner.Stores kind event.target ∧ event.property ≠ none := answered_iff hkind htarget
  constructor
  · intro hsame
    let request : SelectionRequestEvent :=
      ⟨0, 0, 0, event.selection, .targets, some .arboardClipboard⟩
    have hproperty : request.property ≠ none := Option.some_ne_none _
    have hiff := hsame request rfl rfl hproperty
    rw [hanswered, hlisted request rfl rfl hproperty] at hiff
    constructor
    · exact fun hstores => (hiff.mpr (.inr (.inl hstores))).2
    · intro hstores
      refine ⟨fun hsave => hstores (hiff.mpr (.inl hsave)).1, fun htext => ?_⟩
      refine ⟨fun hname => ?_, fun hname => ?_⟩
      · exact hstores (hiff.mpr (.inr (.inr ⟨htext, .inl hname⟩))).1
      · exact hstores (hiff.mpr (.inr (.inr ⟨htext, .inr hname⟩))).1
  · rintro ⟨hstored, hadded⟩ request hselection hrequest hproperty
    rw [hanswered, hlisted request hselection hrequest hproperty]
    by_cases hstores : inner.Stores kind event.target
    · exact iff_of_true ⟨hstores, hstored hstores⟩ (.inr (.inl hstores))
    · obtain ⟨hsave, hnames⟩ := hadded hstores
      refine iff_of_false (fun h => hstores h.1) ?_
      rintro (h | h | ⟨htext, h | h⟩)
      · exact hsave h
      · exact hstores h
      · exact (hnames htext).1 h
      · exact (hnames htext).2 h

/-- A clipboard with a text. -/
def storedText : Inner := ⟨some [⟨"hi".toByteArray, .utf8String⟩], none, none⟩

/-- A request for the contents of the clipboard. -/
def requestFor (target : Atom) : SelectionRequestEvent :=
  ⟨1, 0, 77, .clipboard, target, some (.other 5)⟩

/-- The text is asked for as it is stored. -/
theorem answeredAsListed_utf8String :
    storedText.AnsweredAsListed (requestFor .utf8String) := by
  have hkind : kindOf (requestFor .utf8String).selection = some .clipboard := rfl
  refine (answeredAsListed_iff storedText hkind (by decide)).mpr ⟨fun _ => nofun, fun h => ?_⟩
  exact absurd ⟨⟨_, .utf8String⟩, List.mem_singleton_self _, rfl⟩ h

/-- The text is listed as `text/plain;charset=utf-8`, and the conversion is refused. -/
theorem not_answeredAsListed_utf8Mime : ¬∀ (inner : Inner) (event : SelectionRequestEvent),
    (kindOf event.selection).isSome → event.target ≠ .targets → inner.AnsweredAsListed event := by
  intro h
  have hanswered := (h storedText (requestFor .utf8Mime0) rfl (by decide) (requestFor .targets)
    rfl rfl nofun).mpr ⟨.other 5, _, List.mem_cons_self, by decide, _,
      List.mem_cons_of_mem _ (List.mem_singleton_self _), rfl, rfl⟩
  obtain ⟨property, bytes, hchange, -⟩ := hanswered
  simp [storedText, requestFor, handleSelectionRequest, kindOf, selectionOf] at hchange

end Inner

end Lucie.X11
