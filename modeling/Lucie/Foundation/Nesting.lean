import Mathlib.Data.List.Basic
import Mathlib.Tactic.SplitIfs

/-!
# Nested scopes with a loop at the end of the outermost one

Code opens scopes inside of each other, and holds something while a scope is open. When the
outermost scope ends, a loop runs in its place, which calls code that may open scopes again. A loop
can also start by itself, with nothing around it. The number of open scopes and a flag decide
whether a scope that ends is the outermost one; with them no scope is open below a loop.
-/

set_option autoImplicit false

namespace Lucie.Foundation

/-- What is running: a scope with what it holds, a loop that took the place of a scope or not, or
code that a loop calls. -/
inductive NestedFrame (L F C : Type)
  | scope (held : L)
  | loop (ofScope : Bool) (state : F)
  | call (state : C)
  deriving DecidableEq

variable {L F C : Type}

namespace NestedFrame

def isScope : NestedFrame L F C → Bool
  | .scope _ => true
  | _ => false

def isLoop : NestedFrame L F C → Bool
  | .loop _ _ => true
  | _ => false

/-- A loop that took the place of a scope. -/
def isEnding : NestedFrame L F C → Bool
  | .loop ofScope _ => ofScope
  | _ => false

def isCall : NestedFrame L F C → Bool
  | .call _ => true
  | _ => false

/-- The frame of a scope that did not return. -/
def isPending (frame : NestedFrame L F C) : Bool := frame.isScope || frame.isEnding

end NestedFrame

open NestedFrame

/-- The frames, the innermost first, with the number of scopes that did not return and the flag for
the loop of a scope. -/
structure Nesting (depth : ℕ) (looping : Bool) (frames : List (NestedFrame L F C)) : Prop where
  depth_eq : depth = frames.countP isPending
  looping_eq : looping = frames.any isEnding
  below : frames.Pairwise fun above below => (above.isLoop → below.isPending = false) ∧
    (above.isCall → below.isScope = false)

namespace Nesting

variable {depth : ℕ} {looping : Bool} {frames : List (NestedFrame L F C)}

theorem nil : Nesting 0 false ([] : List (NestedFrame L F C)) := ⟨rfl, rfl, .nil⟩

/-- Frames of the same kind are as good. -/
theorem congr_head {frame frame' : NestedFrame L F C} (h : Nesting depth looping (frame :: frames))
    (hscope : frame'.isScope = frame.isScope) (hloop : frame'.isLoop = frame.isLoop)
    (hcall : frame'.isCall = frame.isCall) (hending : frame'.isEnding = frame.isEnding) :
    Nesting depth looping (frame' :: frames) := by
  have hpending : frame'.isPending = frame.isPending := by
    rw [isPending, isPending, hscope, hending]
  obtain ⟨hdepth, hlooping, hbelow⟩ := h
  rw [List.countP_cons, ← hpending, ← List.countP_cons] at hdepth
  rw [List.any_cons, ← hending, ← List.any_cons] at hlooping
  obtain ⟨hbelow, hrest⟩ := List.pairwise_cons.mp hbelow
  rw [← hloop, ← hcall] at hbelow
  exact ⟨hdepth, hlooping, List.pairwise_cons.mpr ⟨hbelow, hrest⟩⟩

/-- Scopes may change what they hold. -/
theorem map {f : NestedFrame L F C → NestedFrame L F C} (h : Nesting depth looping frames)
    (hscope : ∀ frame, (f frame).isScope = frame.isScope)
    (hloop : ∀ frame, (f frame).isLoop = frame.isLoop)
    (hcall : ∀ frame, (f frame).isCall = frame.isCall)
    (hending : ∀ frame, (f frame).isEnding = frame.isEnding) :
    Nesting depth looping (frames.map f) := by
  have hpending : ∀ frame, (f frame).isPending = frame.isPending := fun frame => by
    rw [isPending, isPending, hscope, hending]
  obtain ⟨hdepth, hlooping, hbelow⟩ := h
  refine ⟨?_, ?_, ?_⟩
  · rw [List.countP_map, hdepth]
    exact List.countP_congr fun frame _ => by rw [Function.comp_apply, hpending]
  · rw [List.any_map, hlooping]
    congr 1
    exact (funext hending).symm
  · rw [List.pairwise_map]
    exact hbelow.imp fun hbelow => by rwa [hloop, hpending, hcall, hscope]

/-- A scope is opened. -/
theorem openScope (h : Nesting depth looping frames) (held : L) :
    Nesting (depth + 1) looping (.scope held :: frames) :=
  ⟨by rw [h.depth_eq, List.countP_cons_of_pos rfl], h.looping_eq,
    List.pairwise_cons.mpr ⟨fun _ _ => ⟨nofun, nofun⟩, h.below⟩⟩

/-- No scope is open below a loop. -/
theorem isPending_of_loop {ofScope : Bool} {state : F}
    (h : Nesting depth looping (.loop ofScope state :: frames)) :
    ∀ frame ∈ frames, frame.isPending = false :=
  fun frame hframe => ((List.pairwise_cons.mp h.below).1 frame hframe).1 rfl

theorem isScope_of_loop {ofScope : Bool} {state : F}
    (h : Nesting depth looping (.loop ofScope state :: frames)) :
    ∀ frame ∈ frames, frame.isScope = false := by
  intro frame hframe
  have := h.isPending_of_loop frame hframe
  rw [isPending, Bool.or_eq_false_iff] at this
  exact this.1

/-- A loop calls code. -/
theorem call {ofScope : Bool} {state : F}
    (h : Nesting depth looping (.loop ofScope state :: frames)) (called : C) :
    Nesting depth looping (.call called :: .loop ofScope state :: frames) := by
  refine ⟨h.depth_eq, h.looping_eq,
    List.pairwise_cons.mpr ⟨fun frame hframe => ⟨nofun, ?_⟩, h.below⟩⟩
  intro _
  rcases List.mem_cons.mp hframe with rfl | hframe
  · rfl
  · exact h.isScope_of_loop frame hframe

/-- No scope is open around code that a loop calls. -/
theorem isScope_of_call {called : C} (h : Nesting depth looping (.call called :: frames)) :
    ∀ frame ∈ frames, frame.isScope = false :=
  fun frame hframe => ((List.pairwise_cons.mp h.below).1 frame hframe).2 rfl

theorem endCall {state : C} (h : Nesting depth looping (.call state :: frames)) :
    Nesting depth looping frames :=
  ⟨h.depth_eq, h.looping_eq, (List.pairwise_cons.mp h.below).2⟩

/-- A scope ends that is not the outermost one. -/
theorem endScope {held : L} (h : Nesting depth looping (.scope held :: frames)) :
    Nesting (depth - 1) looping frames :=
  ⟨by rw [h.depth_eq, List.countP_cons_of_pos rfl, Nat.add_sub_cancel], h.looping_eq,
    (List.pairwise_cons.mp h.below).2⟩

/-- No scope is open around the outermost one. -/
theorem isPending_of_outermost {held : L} (h : Nesting 1 looping (.scope held :: frames)) :
    ∀ frame ∈ frames, frame.isPending = false := by
  have hzero : frames.countP isPending = 0 := by
    have := h.depth_eq
    rw [List.countP_cons_of_pos rfl] at this
    omega
  intro frame hframe
  simpa using List.countP_eq_zero.mp hzero frame hframe

/-- The loop takes the place of the outermost scope. -/
theorem startLoop {held : L} (h : Nesting 1 looping (.scope held :: frames)) (state : F) :
    Nesting 1 true (.loop true state :: frames) :=
  ⟨h.depth_eq, rfl, List.pairwise_cons.mpr
    ⟨fun frame hframe => ⟨fun _ => h.isPending_of_outermost frame hframe, nofun⟩,
      (List.pairwise_cons.mp h.below).2⟩⟩

/-- A loop starts by itself. -/
theorem startAlone (state : F) : Nesting 0 false [(.loop false state : NestedFrame L F C)] :=
  ⟨rfl, rfl, List.pairwise_singleton _ _⟩

/-- The loop of a scope ends, and with it the scope. -/
theorem endLoop {state : F} (h : Nesting depth looping (.loop true state :: frames)) :
    Nesting (depth - 1) false frames := by
  refine ⟨?_, ?_, (List.pairwise_cons.mp h.below).2⟩
  · rw [h.depth_eq, List.countP_cons_of_pos rfl, Nat.add_sub_cancel]
  refine (List.any_eq_false.mpr fun frame hframe => ?_).symm
  have := h.isPending_of_loop frame hframe
  simp only [isPending, Bool.or_eq_false_iff] at this
  simpa using this.2

theorem endAlone {state : F} (h : Nesting depth looping (.loop false state :: frames)) :
    Nesting depth looping frames :=
  ⟨h.depth_eq, h.looping_eq, (List.pairwise_cons.mp h.below).2⟩

end Nesting

end Lucie.Foundation
