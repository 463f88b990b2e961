import Lucie.Foundation.Exact
import Lucie.Foundation.Journal
import Lucie.Window.Activation
import Lucie.Window.Walks

/-!
# Focus events

A draw compares the path of the focus in the new frame with that in the frame before, and calls the
listeners for the focus if the paths or the activation of the window differ. A window that is not
active counts as one without a path. What a listener is called for is an edge of what the frames
show.
-/

set_option autoImplicit false

namespace Lucie.Drawing

open Foundation

variable {D : Type}

/-- A tree that was built for a frame. -/
structure DrawnTree (D : Type) where
  tree : DispatchTree D
  stacked : tree.WellStacked
  inRange : ∀ id node, tree.focusableNodeIds id = some node → node < tree.nodes.length

/-- A frame with what it keeps for the focus. It only has a focus that was drawn. -/
structure FocusFrame (D : Type) extends DrawnTree D where
  focus : Option FocusId
  windowActive : Bool
  drawn : ∀ id ∈ focus, (tree.focusableNodeIds id).isSome = true

/-- `WindowFocusEvent`. -/
structure WindowFocusEvent where
  previousFocusPath : List FocusId
  currentFocusPath : List FocusId

/-- The listeners for the focus. -/
inductive FocusListenerKind
  | focusIn
  | focusOut
  | focus
  | blur
  | focusLost
  deriving DecidableEq

structure FocusListener where
  id : ℕ
  kind : FocusListenerKind
  handle : FocusId
  active : Bool
  deriving DecidableEq

/-- A frame that was drawn, with the listeners that were called for it. -/
structure FocusRound (D : Type) where
  frame : FocusFrame D
  called : List ℕ

/-- A window with its listeners and what it has drawn. -/
structure FocusWindow (D : Type) where
  window : WindowFocus
  rendered : FocusFrame D
  listeners : List FocusListener
  nextListenerId : ℕ
  rounds : List (FocusRound D)

/-- What happens to a window. -/
inductive FocusWindowAction (D : Type)
  | change (action : FocusAction)
  | subscribe (kind : FocusListenerKind) (handle : FocusId)
  | activate (id : ℕ)
  | drop (id : ℕ)
  | draw (drawn : DrawnTree D)

namespace WindowFocusEvent

/-- `is_focus_in`. -/
def isFocusIn (event : WindowFocusEvent) (handle : FocusId) : Bool :=
  !event.previousFocusPath.contains handle && event.currentFocusPath.contains handle

/-- `is_focus_out`. -/
def isFocusOut (event : WindowFocusEvent) (handle : FocusId) : Bool :=
  event.previousFocusPath.contains handle && !event.currentFocusPath.contains handle

/-- The condition of a listener for an event. The listeners for a lost focus do not see events. -/
def concerns (event : WindowFocusEvent) (handle : FocusId) : FocusListenerKind → Bool
  | .focusIn => event.isFocusIn handle
  | .focusOut => event.previousFocusPath.getLast?.isSome && event.isFocusOut handle
  | .focus => event.previousFocusPath.getLast? != some handle &&
      event.currentFocusPath.getLast? == some handle
  | .blur => event.previousFocusPath.getLast? == some handle &&
      event.currentFocusPath.getLast? != some handle
  | .focusLost => false

end WindowFocusEvent

namespace FocusFrame

/-- `Frame::focus_path`. -/
def focusPath (frame : FocusFrame D) : List FocusId :=
  match frame.focus with
  | some id => (frame.tree.focusPath frame.tree.nodes.length id).getD []
  | none => []

/-- The path as the listeners see it. -/
def activePath (frame : FocusFrame D) : List FocusId :=
  if frame.windowActive then frame.focusPath else []

/-- The frame that a window draws. -/
def ofDraw (window : WindowFocus) (drawn : DrawnTree D) : FocusFrame D where
  toDrawnTree := drawn
  focus := window.focus.filter fun id => (drawn.tree.focusableNodeIds id).isSome
  windowActive := window.active
  drawn _ hid := (Option.mem_filter_iff.mp hid).2

/-- The frame of a new window. -/
def empty : FocusFrame D where
  tree := .new
  stacked := DispatchTree.wellStacked_new
  inRange _ _ hnode := absurd hnode (by simp [DispatchTree.new])
  focus := none
  windowActive := false
  drawn id hid := absurd hid (by simp)

end FocusFrame

namespace FocusWindow

/-- The listeners that `Window::draw` calls between the old and the new frame, in order. -/
def called (listeners : List FocusListener) (previous current : FocusFrame D) : List ℕ :=
  if previous.focusPath ≠ current.focusPath ∨ previous.windowActive ≠ current.windowActive then
    (if previous.focusPath ≠ [] ∧ current.focusPath = [] then
        (listeners.filter fun l => l.active && l.kind == .focusLost).map FocusListener.id
      else []) ++
    (listeners.filter fun l => l.active &&
      WindowFocusEvent.concerns ⟨previous.activePath, current.activePath⟩ l.handle l.kind).map
        FocusListener.id
  else []

def new (active : Bool) : FocusWindow D := ⟨.new active, .empty, [], 0, []⟩

/-- `Window::focus` and the other functions that change the focus. -/
def change (window : WindowFocus) : FocusAction → WindowFocus
  | .focus handle => window.setFocus handle
  | .blur => window.blur
  | .disableFocus => window.disableFocus
  | .activeStatusChange active => window.onActiveStatusChange active

/-- `Window::draw`, for the focus. -/
def draw (s : FocusWindow D) (drawn : DrawnTree D) : FocusRound D :=
  let frame := FocusFrame.ofDraw s.window drawn
  ⟨frame, called s.listeners s.rendered frame⟩

def step (s : FocusWindow D) : FocusWindowAction D → Option (FocusWindow D)
  | .change action => some { s with window := change s.window action }
  | .subscribe kind handle => some { s with
      listeners := s.listeners ++ [⟨s.nextListenerId, kind, handle, false⟩]
      nextListenerId := s.nextListenerId + 1 }
  | .activate id => some { s with
      listeners := s.listeners.map fun l => if l.id = id then { l with active := true } else l }
  | .drop id => some { s with listeners := s.listeners.filter fun l => l.id ≠ id }
  | .draw drawn => some { s with
      rendered := (s.draw drawn).frame
      rounds := s.rounds ++ [s.draw drawn] }

end FocusWindow

/-! ## What frames show -/

/-- What a listener watches: whether the focus is within the element of its handle, whether the
handle has the focus itself, or whether any focus is drawn. -/
def FocusFrame.shows (frame : FocusFrame D) (handle : FocusId) : FocusListenerKind → Bool
  | .focusIn | .focusOut => frame.activePath.contains handle
  | .focus | .blur => frame.activePath.getLast? == some handle
  | .focusLost => !frame.focusPath.isEmpty

/-- Whether a listener waits for what it watches to begin or to end. -/
def FocusListenerKind.rises : FocusListenerKind → Bool
  | .focusIn | .focus => true
  | .focusOut | .blur | .focusLost => false

namespace FocusListener

/-- Between two frames what the listener waits for happens. -/
def Happens (l : FocusListener) (previous current : FocusFrame D) : Prop :=
  previous.shows l.handle l.kind = !l.kind.rises ∧ current.shows l.handle l.kind = l.kind.rises

variable {l : FocusListener} {previous current : FocusFrame D}

/-- An event concerns a listener if what it waits for happens. -/
theorem concerns_iff (hkind : l.kind ≠ .focusLost) :
    WindowFocusEvent.concerns ⟨previous.activePath, current.activePath⟩ l.handle l.kind = true ↔
      l.Happens previous current := by
  obtain ⟨id, kind, handle, active⟩ := l
  cases kind with
  | focusIn => simp [WindowFocusEvent.concerns, WindowFocusEvent.isFocusIn, Happens,
      FocusFrame.shows, FocusListenerKind.rises]
  | focusOut =>
    -- a path with the handle is not empty
    have hlast : handle ∈ previous.activePath → previous.activePath.getLast?.isSome = true :=
      fun hmem => by
        rw [List.getLast?_isSome]
        exact List.ne_nil_of_mem hmem
    simp only [WindowFocusEvent.concerns, WindowFocusEvent.isFocusOut, Happens, FocusFrame.shows,
      FocusListenerKind.rises, Bool.and_eq_true, List.contains_iff_mem, Bool.not_eq_true',
      Bool.not_false]
    exact ⟨fun h => h.2, fun h => ⟨hlast h.1, h⟩⟩
  | focus => simp [WindowFocusEvent.concerns, Happens, FocusFrame.shows, FocusListenerKind.rises]
  | blur => simp [WindowFocusEvent.concerns, Happens, FocusFrame.shows, FocusListenerKind.rises]
  | focusLost => exact absurd rfl hkind

/-- Frames with the same path and activation show the same. -/
theorem not_happens (hpath : previous.focusPath = current.focusPath)
    (hactive : previous.windowActive = current.windowActive) : ¬l.Happens previous current := by
  have hshows : previous.shows l.handle l.kind = current.shows l.handle l.kind := by
    have hactivePath : previous.activePath = current.activePath := by
      rw [FocusFrame.activePath, FocusFrame.activePath, hpath, hactive]
    cases l.kind <;> simp only [FocusFrame.shows, hpath, hactivePath]
  rintro ⟨hprevious, hcurrent⟩
  rw [hshows, hcurrent] at hprevious
  exact absurd hprevious.symm (Bool.not_ne_self _)

end FocusListener

namespace FocusWindow

/-- The ids of listeners tell them apart. -/
theorem mem_ids_filter {listeners : List FocusListener}
    (hnodup : (listeners.map FocusListener.id).Nodup) {l : FocusListener} (hl : l ∈ listeners)
    (p : FocusListener → Bool) :
    l.id ∈ (listeners.filter p).map FocusListener.id ↔ p l = true := by
  constructor
  · intro hmem
    obtain ⟨l', hl', hid⟩ := List.mem_map.mp hmem
    obtain ⟨hmem', hp⟩ := List.mem_filter.mp hl'
    rwa [← List.inj_on_of_nodup_map hnodup hmem' hl hid]
  · intro hp
    exact List.mem_map_of_mem (List.mem_filter.mpr ⟨hl, hp⟩)

/-- A draw calls the active listeners for which it happens what they wait for. -/
theorem mem_called {listeners : List FocusListener}
    (hnodup : (listeners.map FocusListener.id).Nodup) {l : FocusListener} (hl : l ∈ listeners)
    (hactive : l.active = true) (previous current : FocusFrame D) :
    l.id ∈ called listeners previous current ↔ l.Happens previous current := by
  unfold called
  split_ifs with hdiffer hlost
  · rw [List.mem_append, mem_ids_filter hnodup hl, mem_ids_filter hnodup hl, hactive,
      Bool.true_and, Bool.true_and]
    by_cases hkind : l.kind = .focusLost
    · refine iff_of_true (.inl (by rw [hkind]; rfl)) ?_
      simp [FocusListener.Happens, hkind, FocusFrame.shows, FocusListenerKind.rises, hlost.1,
        hlost.2]
    · rw [FocusListener.concerns_iff hkind]
      exact or_iff_right fun h => hkind (beq_iff_eq.mp h)
  · rw [List.nil_append, mem_ids_filter hnodup hl, hactive, Bool.true_and]
    by_cases hkind : l.kind = .focusLost
    · refine iff_of_false (by rw [hkind]; exact Bool.false_ne_true) ?_
      simpa [FocusListener.Happens, hkind, FocusFrame.shows, FocusListenerKind.rises] using hlost
    · exact FocusListener.concerns_iff hkind
  · rw [not_or, not_not, not_not] at hdiffer
    exact iff_of_false List.not_mem_nil (FocusListener.not_happens hdiffer.1 hdiffer.2)

/-! ## Runs -/

/-- Listeners have different ids, which were handed out. -/
structure Numbered (s : FocusWindow D) : Prop where
  nodup : (s.listeners.map FocusListener.id).Nodup
  lt : ∀ l ∈ s.listeners, l.id < s.nextListenerId

variable {s s' : FocusWindow D}

theorem numbered_new (active : Bool) : (new active : FocusWindow D).Numbered :=
  ⟨List.nodup_nil, fun _ hl => absurd hl List.not_mem_nil⟩

theorem Numbered.step (h : s.Numbered) {a : FocusWindowAction D} (hstep : s.step a = some s') :
    s'.Numbered := by
  cases a with
  | change | draw =>
    cases hstep
    exact ⟨h.nodup, h.lt⟩
  | subscribe kind handle =>
    cases hstep
    refine ⟨?_, fun l hl => ?_⟩
    · rw [List.map_append, List.nodup_append]
      refine ⟨h.nodup, List.nodup_singleton _, fun id hid other hother => ?_⟩
      obtain ⟨l, hl, rfl⟩ := List.mem_map.mp hid
      obtain rfl := List.mem_singleton.mp hother
      exact (h.lt l hl).ne
    · rcases List.mem_append.mp hl with hl | hl
      · exact (h.lt l hl).trans (Nat.lt_succ_self _)
      · obtain rfl := List.mem_singleton.mp hl
        exact Nat.lt_succ_self _
  | activate id =>
    cases hstep
    have hids : ∀ l : FocusListener, (if l.id = id then { l with active := true } else l).id =
        l.id := fun l => by split_ifs <;> rfl
    refine ⟨?_, fun l hl => ?_⟩
    · rw [List.map_map]
      exact (List.map_congr_left fun l _ => hids l) ▸ h.nodup
    · obtain ⟨l', hl', rfl⟩ := List.mem_map.mp hl
      rw [hids]
      exact h.lt l' hl'
  | drop id =>
    cases hstep
    exact ⟨(List.filter_sublist.map _).nodup h.nodup,
      fun l hl => h.lt l (List.mem_of_mem_filter hl)⟩

/-- An active listener stays until it is dropped. -/
theorem mem_listeners_step {l : FocusListener} (hl : l ∈ s.listeners) (hactive : l.active = true)
    {a : FocusWindowAction D} (hkeeps : a ≠ .drop l.id) (hstep : s.step a = some s') :
    l ∈ s'.listeners := by
  cases a with
  | change | draw =>
    cases hstep
    exact hl
  | subscribe kind handle =>
    cases hstep
    exact List.mem_append_left _ hl
  | activate id =>
    cases hstep
    refine List.mem_map.mpr ⟨l, hl, ?_⟩
    split_ifs
    · rw [← hactive]
    · rfl
  | drop id =>
    cases hstep
    refine List.mem_filter.mpr ⟨hl, decide_eq_true fun hid => hkeeps ?_⟩
    rw [hid]

/-- The frame that was drawn last, after some rounds. -/
def frameAfter (s : FocusWindow D) (rounds : List (FocusRound D)) : FocusFrame D :=
  (rounds.getLast?.map FocusRound.frame).getD s.rendered

/-- What a listener has been called for. -/
def Heard (s : FocusWindow D) (l : FocusListener) (rounds : List (FocusRound D)) : Prop :=
  Journal (fun before round => l.id ∈ round.called ↔ l.Happens (s.frameAfter before) round.frame)
    rounds

/-- A listener has been watching from `s` on. -/
structure Watched (s : FocusWindow D) (l : FocusListener) (s' : FocusWindow D)
    (rounds : List (FocusRound D)) : Prop where
  numbered : s'.Numbered
  listens : l ∈ s'.listeners
  drawn : s'.rounds = s.rounds ++ rounds
  rendered : s'.rendered = s.frameAfter rounds
  heard : s.Heard l rounds

theorem Watched.step {l : FocusListener} {t t' : FocusWindow D} {rounds : List (FocusRound D)}
    (h : s.Watched l t rounds) (hactive : l.active = true) {a : FocusWindowAction D}
    (hkeeps : a ≠ .drop l.id) (hstep : t.step a = some t') : ∃ more, s.Watched l t' more := by
  have hnumbered := h.numbered.step hstep
  have hlistens := mem_listeners_step h.listens hactive hkeeps hstep
  cases a with
  | change | subscribe | activate | drop =>
    cases hstep
    exact ⟨rounds, hnumbered, hlistens, h.drawn, h.rendered, h.heard⟩
  | draw drawn =>
    cases hstep
    refine ⟨rounds ++ [t.draw drawn], hnumbered, hlistens, ?_, ?_, h.heard.snoc ?_⟩
    · rw [h.drawn, List.append_assoc]
    · rw [frameAfter, List.getLast?_append]
      rfl
    · rw [← h.rendered]
      exact mem_called h.numbered.nodup h.listens hactive _ _

theorem watched_of_run {l : FocusListener} (hnumbered : s.Numbered) (hl : l ∈ s.listeners)
    (hactive : l.active = true) {actions : List (FocusWindowAction D)}
    (run : Run step (fun _ a => a ≠ .drop l.id) s actions s') :
    ∃ rounds, s.Watched l s' rounds :=
  run.invariant (fun _ t => ∃ rounds, s.Watched l t rounds)
    ⟨[], hnumbered, hl, (List.append_nil _).symm, rfl, journal_nil⟩
    fun _ _ _ _ ⟨_, h⟩ hkeeps hstep => h.step hactive hkeeps hstep

/-- The calls of two listeners, one for a beginning and one for an end. -/
def callsOf (rise fall : FocusListener) (rounds : List (FocusRound D)) : List Bool :=
  rounds.flatMap fun round =>
    (if rise.id ∈ round.called then [true] else []) ++
      if fall.id ∈ round.called then [false] else []

end FocusWindow

/-- Two listeners for the beginning and the end of the same. -/
structure FocusListener.Opposite (rise fall : FocusListener) : Prop where
  handle : rise.handle = fall.handle
  kind : rise.kind = .focusIn ∧ fall.kind = .focusOut ∨ rise.kind = .focus ∧ fall.kind = .blur

namespace FocusListener.Opposite

variable {rise fall : FocusListener}

theorem rises (h : rise.Opposite fall) : rise.kind.rises = true := by
  rcases h.kind with ⟨hrise, -⟩ | ⟨hrise, -⟩ <;> rw [hrise] <;> rfl

theorem falls (h : rise.Opposite fall) : fall.kind.rises = false := by
  rcases h.kind with ⟨-, hfall⟩ | ⟨-, hfall⟩ <;> rw [hfall] <;> rfl

theorem shows (h : rise.Opposite fall) (frame : FocusFrame D) :
    frame.shows fall.handle fall.kind = frame.shows rise.handle rise.kind := by
  rw [← h.handle]
  rcases h.kind with ⟨hrise, hfall⟩ | ⟨hrise, hfall⟩ <;> rw [hrise, hfall] <;> rfl

end FocusListener.Opposite

namespace FocusWindow

variable {s : FocusWindow D}

/-- The calls alternate, and the last one tells what is shown. -/
theorem calls_alternate {rise fall : FocusListener} (hopposite : rise.Opposite fall)
    {rounds : List (FocusRound D)} (hrise : s.Heard rise rounds) (hfall : s.Heard fall rounds) :
    (s.rendered.shows rise.handle rise.kind :: callsOf rise fall rounds).IsChain (· ≠ ·) ∧
      (s.rendered.shows rise.handle rise.kind :: callsOf rise fall rounds).getLast? =
        some ((s.frameAfter rounds).shows rise.handle rise.kind) := by
  induction rounds using List.reverseRecOn with
  | nil => exact ⟨List.isChain_singleton _, rfl⟩
  | append_singleton rounds round ih =>
    obtain ⟨hchain, hlast⟩ := ih hrise.of_append hfall.of_append
    have hcalled := hrise rounds round [] rfl
    have hcalled' := hfall rounds round [] rfl
    have hafter : s.frameAfter (rounds ++ [round]) = round.frame := by
      rw [frameAfter, List.getLast?_append]
      rfl
    -- at most one of the two listeners is called
    have hcalls : callsOf rise fall (rounds ++ [round]) = callsOf rise fall rounds ++
        if (s.frameAfter rounds).shows rise.handle rise.kind =
          round.frame.shows rise.handle rise.kind then []
        else [round.frame.shows rise.handle rise.kind] := by
      rw [callsOf, List.flatMap_append, ← callsOf, List.flatMap_singleton]
      simp only [hcalled, hcalled', FocusListener.Happens, hopposite.rises, hopposite.falls,
        hopposite.shows]
      cases (s.frameAfter rounds).shows rise.handle rise.kind <;>
        cases round.frame.shows rise.handle rise.kind <;> simp
    rw [hcalls, hafter, ← List.cons_append]
    split_ifs with hsame
    · rw [List.append_nil]
      exact ⟨hchain, hsame ▸ hlast⟩
    · refine ⟨List.isChain_append.mpr ⟨hchain, List.isChain_singleton _, ?_⟩,
        List.getLast?_concat⟩
      rw [hlast]
      rintro _ ⟨rfl⟩ _ ⟨rfl⟩
      exact hsame

end FocusWindow

/-- A handle is on the path of a frame if its element contains the focused one. -/
theorem FocusFrame.mem_focusPath (frame : FocusFrame D) (handle : FocusId) :
    handle ∈ frame.focusPath ↔ ∃ focus node path, frame.focus = some focus ∧
      frame.tree.focusableNodeIds focus = some node ∧ frame.tree.Walks node path ∧
      ∃ ancestor ∈ path, frame.tree.focusIdAt ancestor = some handle := by
  unfold focusPath
  cases hfocus : frame.focus with
  | none => simp
  | some focus =>
    obtain ⟨node, hnode⟩ := Option.isSome_iff_exists.mp (frame.drawn focus hfocus)
    have hrange := frame.inRange focus node hnode
    have hpath : ∀ path, frame.tree.Walks node path →
        frame.tree.focusPath frame.tree.nodes.length focus =
          some (path.filterMap frame.tree.focusIdAt).reverse := fun path hwalks => by
      rw [DispatchTree.focusPath, hnode, hwalks.focus _ hrange, Option.map_some]
    obtain ⟨path, hwalks⟩ := frame.stacked.exists_walks hrange
    dsimp only
    rw [hpath path hwalks, Option.getD_some, List.mem_reverse, List.mem_filterMap]
    constructor
    · intro hmem
      exact ⟨focus, node, path, rfl, hnode, hwalks, hmem⟩
    · rintro ⟨focus', node', path', hfocus', hnode', hwalks', hmem⟩
      obtain rfl := Option.some.inj hfocus'
      obtain rfl := Option.some.inj (hnode.symm.trans hnode')
      have hsame := Option.some.inj ((hpath path hwalks).symm.trans (hpath path' hwalks'))
      have hmem' := List.mem_filterMap.mpr hmem
      rw [← List.reverse_inj.mp hsame] at hmem'
      exact List.mem_filterMap.mp hmem'

open FocusWindow in
/-- In every run of a window, whatever happens to its focus and its activation and whatever is
drawn: a listener that is active and not dropped is called at a draw if, and only if, what it waits
for happens between the frame before and the frame that is drawn. The calls to the listeners for
focus and blur of a handle alternate, those for focus in and focus out as well, and the last call
tells whether the last frame shows the focus there. A handle is on the path of a frame if its
element contains the one that has the focus. -/
theorem focus_events {active : Bool} {prior : List (FocusWindowAction D)} {s : FocusWindow D}
    (hprior : Run FocusWindow.step (fun _ _ => True) (.new active) prior s) :
    (∀ l ∈ s.listeners, l.active = true → ∀ actions s',
      Run FocusWindow.step (fun _ a => a ≠ .drop l.id) s actions s' →
      ∃ rounds, s'.rounds = s.rounds ++ rounds ∧
        ∀ before round after, rounds = before ++ round :: after →
          (l.id ∈ round.called ↔ l.Happens (s.frameAfter before) round.frame)) ∧
    (∀ rise ∈ s.listeners, ∀ fall ∈ s.listeners, rise.active = true → fall.active = true →
      rise.Opposite fall → ∀ actions s',
      Run FocusWindow.step (fun _ a => a ≠ .drop rise.id ∧ a ≠ .drop fall.id) s actions s' →
      ∃ rounds, s'.rounds = s.rounds ++ rounds ∧
        (s.rendered.shows rise.handle rise.kind :: callsOf rise fall rounds).IsChain (· ≠ ·) ∧
        (s.rendered.shows rise.handle rise.kind :: callsOf rise fall rounds).getLast? =
          some (s'.rendered.shows rise.handle rise.kind)) ∧
    ∀ handle, handle ∈ s.rendered.focusPath ↔ ∃ focus node path,
      s.rendered.focus = some focus ∧ s.rendered.tree.focusableNodeIds focus = some node ∧
      s.rendered.tree.Walks node path ∧
      ∃ ancestor ∈ path, s.rendered.tree.focusIdAt ancestor = some handle := by
  have hnumbered : s.Numbered := hprior.invariant (fun _ s => s.Numbered) (numbered_new active)
    fun _ _ _ _ h _ hstep => h.step hstep
  refine ⟨?_, ?_, s.rendered.mem_focusPath⟩
  · intro l hl hactive actions s' run
    obtain ⟨rounds, h⟩ := watched_of_run hnumbered hl hactive run
    exact ⟨rounds, h.drawn, h.heard⟩
  · intro rise hrise fall hfall hriseActive hfallActive hopposite actions s' run
    obtain ⟨rounds, h⟩ := watched_of_run hnumbered hrise hriseActive
      (run.imp fun _ _ hkeeps => hkeeps.1)
    obtain ⟨rounds', h'⟩ := watched_of_run hnumbered hfall hfallActive
      (run.imp fun _ _ hkeeps => hkeeps.2)
    obtain rfl : rounds = rounds' := List.append_cancel_left (h.drawn.symm.trans h'.drawn)
    obtain ⟨hchain, hlast⟩ := calls_alternate hopposite h.heard h'.heard
    rw [← h.rendered] at hlast
    exact ⟨rounds, h.drawn, hchain, hlast⟩

/-- An element with a focus handle. -/
def DrawnTree.oneElement : DrawnTree Empty where
  tree := DispatchTree.new.pushNode.setFocusId 1
  stacked := DispatchTree.wellStacked_new.pushNode.setFocusId 1
  inRange id node hnode := by
    by_cases hid : id = 1
    · subst hid
      obtain rfl := Option.some.inj hnode
      decide
    · simp [DispatchTree.setFocusId, DispatchTree.pushNode, DispatchTree.new,
        Function.update_of_ne hid] at hnode

/-- An element is focused and blurred. -/
theorem focus_events_oneElement : ∃ s' : FocusWindow Empty,
    s'.rounds.map FocusRound.called = [[0], [1]] ∧
      (false :: FocusWindow.callsOf ⟨0, .focusIn, 1, true⟩ ⟨1, .focusOut, 1, true⟩
        s'.rounds).IsChain (· ≠ ·) := by
  let s : FocusWindow Empty :=
    ⟨.new true, .empty, [⟨0, .focusIn, 1, true⟩, ⟨1, .focusOut, 1, true⟩], 2, []⟩
  have hprior : Run (@FocusWindow.step Empty) (fun _ _ => True) (.new true) [] (.new true) := .nil
  have hprior := hprior.snoc (FocusWindowAction.subscribe .focusIn 1) trivial rfl
  have hprior := hprior.snoc (FocusWindowAction.subscribe .focusOut 1) trivial rfl
  have hprior := hprior.snoc (FocusWindowAction.activate 0) trivial rfl
  have hprior : Run (@FocusWindow.step Empty) (fun _ _ => True) (.new true) _ s :=
    hprior.snoc (FocusWindowAction.activate 1) trivial rfl
  have run : Run (@FocusWindow.step Empty) (fun _ a => a ≠ .drop 0 ∧ a ≠ .drop 1) s [] s := .nil
  have run := run.snoc (FocusWindowAction.change (.focus 1)) ⟨by simp, by simp⟩ rfl
  have run := run.snoc (FocusWindowAction.draw .oneElement) ⟨by simp, by simp⟩ rfl
  have run := run.snoc (FocusWindowAction.change .blur) ⟨by simp, by simp⟩ rfl
  have run := run.snoc (FocusWindowAction.draw .oneElement) ⟨by simp, by simp⟩ rfl
  obtain ⟨s', run, hcalled⟩ : ∃ s', Run (@FocusWindow.step Empty) _ s _ s' ∧
      s'.rounds.map FocusRound.called = [[0], [1]] := ⟨_, run, rfl⟩
  obtain ⟨rounds, hrounds, hchain, -⟩ := (focus_events hprior).2.1
    ⟨0, .focusIn, 1, true⟩ (by decide) ⟨1, .focusOut, 1, true⟩ (by decide) rfl rfl
    ⟨rfl, .inl ⟨rfl, rfl⟩⟩ _ _ run
  rw [List.nil_append] at hrounds
  exact ⟨s', hcalled, hrounds ▸ hchain⟩

end Lucie.Drawing
