import Lucie.Keymap.Dispatch

/-!
# Every keystroke is accounted for

Dispatch splits the pending keystrokes and the new one into consecutive segments. Each
replay stands for one segment, and the last segment, which ends with the new keystroke,
decides the result.
-/

set_option autoImplicit false

namespace Lucie.DispatchTree

variable {α : Type} {tree : DispatchTree α} {dispatchPath : List tree.NodeId}

/-- The bindings that the keymap gives for a piece of the input. -/
def found (tree : DispatchTree α) (dispatchPath : List tree.NodeId) (input : List Keystroke) :
    List (KeyBinding α) :=
  (tree.bindingsForInput dispatchPath input).1

/-- Whether the keymap reports that a piece of the input may be continued. -/
def mayContinue (tree : DispatchTree α) (dispatchPath : List tree.NodeId)
    (input : List Keystroke) : Bool :=
  (tree.bindingsForInput dispatchPath input).2.1

/-- A replay stands for a segment at the front of the remaining input: the longest
prefix that triggers something, or one keystroke if no prefix does. -/
structure IsSegment (tree : DispatchTree α) (dispatchPath : List tree.NodeId)
    (remaining segment rest : List Keystroke) (replay : Replay α) : Prop where
  split : remaining = segment ++ rest
  keystroke : segment.getLast? = some replay.keystroke
  bindings : replay.bindings = tree.found dispatchPath segment
  longest : (replay.bindings ≠ [] ∧ ∀ longer, longer <+: remaining →
      segment.length < longer.length → tree.found dispatchPath longer = []) ∨
    (segment.length = 1 ∧ ∀ other, other <+: remaining → other ≠ [] →
      tree.found dispatchPath other = [])

/-- Replays that stand for consecutive segments of the input. -/
inductive Replayed (tree : DispatchTree α) (dispatchPath : List tree.NodeId) :
    List Keystroke → List (List Keystroke) → List (Replay α) → List Keystroke → Prop
  | nil (rest : List Keystroke) : Replayed tree dispatchPath rest [] [] rest
  | cons {remaining segment next rest : List Keystroke} {replay : Replay α}
      {segments : List (List Keystroke)} {replays : List (Replay α)}
      (hsegment : IsSegment tree dispatchPath remaining segment next replay)
      (hreplayed : Replayed tree dispatchPath next segments replays rest) :
      Replayed tree dispatchPath remaining (segment :: segments) (replay :: replays) rest

/-- What becomes of the last segment: it is pending, it triggers bindings, or it is a
single keystroke that does nothing. -/
inductive Outcome (tree : DispatchTree α) (dispatchPath : List tree.NodeId)
    (final : List Keystroke) (result : DispatchResult α) : Prop
  | pending (hcontinue : tree.mayContinue dispatchPath final = true) (hpending : result.pending = final)
      (hhas : result.pendingHasBinding = !(tree.found dispatchPath final).isEmpty)
      (hbindings : result.bindings = [])
  | bound (hcontinue : tree.mayContinue dispatchPath final = false) (hpending : result.pending = [])
      (hbindings : result.bindings = tree.found dispatchPath final) (hne : result.bindings ≠ [])
  | unbound (hcontinue : tree.mayContinue dispatchPath final = false) (hpending : result.pending = [])
      (hfound : tree.found dispatchPath final = []) (hbindings : result.bindings = [])
      (hlength : final.length = 1)

/-- A segment is not empty. -/
theorem IsSegment.ne_nil {remaining segment rest : List Keystroke} {replay : Replay α}
    (h : IsSegment tree dispatchPath remaining segment rest replay) : segment ≠ [] := by
  rintro rfl
  exact nomatch h.keystroke

/-- The segments and the rest make up the input. -/
theorem Replayed.flatten {remaining rest : List Keystroke} {segments : List (List Keystroke)}
    {replays : List (Replay α)} (h : Replayed tree dispatchPath remaining segments replays rest) :
    remaining = segments.flatten ++ rest := by
  induction h with
  | nil rest => rfl
  | cons hsegment _ ih => rw [hsegment.split, ih, List.flatten_cons, List.append_assoc]

theorem Replayed.ne_nil {remaining rest : List Keystroke} {segments : List (List Keystroke)}
    {replays : List (Replay α)} (h : Replayed tree dispatchPath remaining segments replays rest) :
    ∀ segment ∈ segments, segment ≠ [] := by
  induction h with
  | nil rest => simp
  | cons hsegment _ ih =>
    intro segment hmem
    rcases List.mem_cons.mp hmem with rfl | hmem
    exacts [hsegment.ne_nil, ih segment hmem]

/-- A search from the end finds the last index. -/
theorem find?_reverse_range {p : ℕ → Bool} {n i : ℕ}
    (h : (List.range n).reverse.find? p = some i) :
    i < n ∧ p i = true ∧ ∀ j, i < j → j < n → p j = false := by
  induction n with
  | zero => exact nomatch h
  | succ n ih =>
    rw [List.range_succ, List.reverse_append, List.reverse_singleton, List.singleton_append,
      List.find?_cons] at h
    split at h
    · rename_i hp
      obtain rfl := Option.some.inj h
      exact ⟨Nat.lt_succ_self _, hp, fun j hij hj => by omega⟩
    · rename_i hp
      obtain ⟨hlt, hpi, hlater⟩ := ih h
      refine ⟨Nat.lt_succ_of_lt hlt, hpi, fun j hij hj => ?_⟩
      rcases Nat.lt_succ_iff_lt_or_eq.mp hj with hj | rfl
      exacts [hlater j hij hj, by simpa using hp]

/-- A prefix that is not empty ends at an index. -/
theorem prefix_eq_take {other input : List Keystroke} (h : other <+: input) (hne : other ≠ []) :
    ∃ last < input.length, other = input.take (last + 1) ∧ other.length = last + 1 := by
  have hpos := List.length_pos_iff.mpr hne
  have hle := h.length_le
  refine ⟨other.length - 1, by omega, ?_, by omega⟩
  rw [Nat.sub_add_cancel hpos]
  exact List.prefix_iff_eq_take.mp h

/-- The replay of a non-empty input is one segment. -/
theorem replayPrefix_spec (tree : DispatchTree α) (dispatchPath : List tree.NodeId)
    {input : List Keystroke} (hne : input ≠ []) :
    ∃ suffix segment replay, tree.replayPrefix dispatchPath input = some (suffix, [replay]) ∧
      IsSegment tree dispatchPath input segment suffix replay := by
  cases hfind : (List.range input.length).reverse.find? fun last =>
      !(tree.bindingsForInput dispatchPath (input.take (last + 1))).1.isEmpty with
  | some last =>
    obtain ⟨hlt, hfound, hlater⟩ := find?_reverse_range hfind
    have hget : input[last]? = some input[last] := List.getElem?_eq_getElem hlt
    refine ⟨input.drop (last + 1), input.take (last + 1),
      ⟨input[last], tree.found dispatchPath (input.take (last + 1))⟩, ?_, ?_⟩
    · simp only [replayPrefix, hfind, hget, Option.bind_eq_bind, Option.bind_some]
      rfl
    · refine ⟨(List.take_append_drop _ _).symm, ?_, rfl, .inl ⟨?_, fun longer hpre hlong => ?_⟩⟩
      · rw [List.getLast?_eq_getElem?, List.length_take, Nat.min_eq_left hlt, Nat.succ_sub_one,
          List.getElem?_take_of_lt (Nat.lt_succ_self _), hget]
      · simpa [found, List.isEmpty_iff] using hfound
      · rw [List.length_take, Nat.min_eq_left hlt] at hlong
        obtain ⟨j, hj, rfl, hlen⟩ := prefix_eq_take hpre (List.length_pos_iff.mp (by omega))
        have := hlater j (by omega) hj
        simpa [found, List.isEmpty_iff] using this
  | none =>
    obtain ⟨first, rest, rfl⟩ := List.exists_cons_of_ne_nil hne
    have hnone : ∀ other, other <+: first :: rest → other ≠ [] →
        tree.found dispatchPath other = [] := by
      intro other hpre hother
      obtain ⟨j, hj, rfl, -⟩ := prefix_eq_take hpre hother
      have := List.find?_eq_none.mp hfind j (by simpa using hj)
      simpa [found, List.isEmpty_iff] using this
    refine ⟨rest, [first], ⟨first, []⟩, by simp only [replayPrefix, hfind], rfl, rfl, ?_,
      .inr ⟨rfl, hnone⟩⟩
    exact (hnone [first] (by simp) (by simp)).symm

/-- Dispatching a keystroke after pending ones. -/
theorem dispatchKey_spec (tree : DispatchTree α) (dispatchPath : List tree.NodeId)
    (input : List Keystroke) (keystroke : Keystroke) :
    ∃ result segments rest, tree.dispatchKey dispatchPath input keystroke = some result ∧
      result.contextStack = tree.contextStack dispatchPath ∧
      Replayed tree dispatchPath input segments result.toReplay rest ∧
      Outcome tree dispatchPath (rest ++ [keystroke]) result := by
  induction hn : input.length using Nat.strong_induction_on generalizing input with
  | _ n ih =>
    rw [dispatchKey]
    split_ifs with hpending hbindings hlength
    · exact ⟨_, [], input, rfl, rfl, .nil input, .pending hpending rfl rfl rfl⟩
    · exact ⟨_, [], input, rfl, rfl, .nil input,
        .bound (by simpa [mayContinue] using hpending) rfl rfl
        (by simpa [List.isEmpty_iff] using hbindings)⟩
    · exact ⟨_, [], input, rfl, rfl, .nil input,
        .unbound (by simpa [mayContinue] using hpending) rfl
        (by simpa [found, List.isEmpty_iff] using hbindings) rfl hlength⟩
    · have hne : input ≠ [] := by
        rintro rfl
        exact hlength rfl
      obtain ⟨suffix, segment, replay, hreplay, hsegment⟩ :=
        replayPrefix_spec tree dispatchPath hne
      obtain ⟨result, segments, rest, hrun, hstack, hreplayed, houtcome⟩ := ih suffix.length
        (hn ▸ tree.length_lt_of_replayPrefix dispatchPath hreplay) suffix rfl
      refine ⟨{ result with toReplay := [replay] ++ result.toReplay }, segment :: segments, rest,
        ?_, hstack, .cons hsegment hreplayed, ?_⟩
      · split
        · rename_i h
          cases h.symm.trans hreplay
        · rename_i h
          obtain ⟨rfl, rfl⟩ := Prod.mk.inj (Option.some.inj (h.symm.trans hreplay))
          rw [hrun]
          rfl
      · cases houtcome with
        | pending h₁ h₂ h₃ h₄ => exact .pending h₁ h₂ h₃ h₄
        | bound h₁ h₂ h₃ h₄ => exact .bound h₁ h₂ h₃ h₄
        | unbound h₁ h₂ h₃ h₄ h₅ => exact .unbound h₁ h₂ h₃ h₄ h₅

/-- Flushing pending keystrokes. -/
theorem flushDispatch_spec (tree : DispatchTree α) (dispatchPath : List tree.NodeId)
    {input : List Keystroke} (hne : input ≠ []) :
    ∃ replays segments, tree.flushDispatch dispatchPath input = some replays ∧
      Replayed tree dispatchPath input segments replays [] := by
  induction hn : input.length using Nat.strong_induction_on generalizing input with
  | _ n ih =>
    obtain ⟨suffix, segment, replay, hreplay, hsegment⟩ := replayPrefix_spec tree dispatchPath hne
    rw [flushDispatch]
    split
    · rename_i h
      cases h.symm.trans hreplay
    · rename_i h
      obtain ⟨rfl, rfl⟩ := Prod.mk.inj (Option.some.inj (hreplay.symm.trans h))
      by_cases hempty : suffix = []
      · subst hempty
        exact ⟨[replay], [segment], by simp, .cons hsegment (.nil [])⟩
      · obtain ⟨replays, segments, hrun, hreplayed⟩ := ih suffix.length
          (hn ▸ tree.length_lt_of_replayPrefix dispatchPath hreplay) hempty rfl
        exact ⟨[replay] ++ replays, segment :: segments, by simp [hempty, hrun],
          .cons hsegment hreplayed⟩

/-- Dispatch and flush account for every keystroke exactly once and in order. -/
theorem dispatch_segments (tree : DispatchTree α) (dispatchPath : List tree.NodeId) :
    (∀ pending key, ∃ result segments rest,
      tree.dispatchKey dispatchPath pending key = some result ∧
      result.contextStack = tree.contextStack dispatchPath ∧
      pending ++ [key] = segments.flatten ++ (rest ++ [key]) ∧
      (∀ segment ∈ segments, segment ≠ []) ∧
      Replayed tree dispatchPath pending segments result.toReplay rest ∧
      Outcome tree dispatchPath (rest ++ [key]) result) ∧
    ∀ first input, ∃ replays segments,
      tree.flushDispatch dispatchPath (first :: input) = some replays ∧
      first :: input = segments.flatten ∧
      (∀ segment ∈ segments, segment ≠ []) ∧
      Replayed tree dispatchPath (first :: input) segments replays [] := by
  refine ⟨fun pending key => ?_, fun first input => ?_⟩
  · obtain ⟨result, segments, rest, hrun, hstack, hreplayed, houtcome⟩ :=
      dispatchKey_spec tree dispatchPath pending key
    refine ⟨result, segments, rest, hrun, hstack, ?_, hreplayed.ne_nil, hreplayed, houtcome⟩
    rw [← List.append_assoc, ← hreplayed.flatten]
  · obtain ⟨replays, segments, hrun, hreplayed⟩ :=
      flushDispatch_spec tree dispatchPath (List.cons_ne_nil first input)
    exact ⟨replays, segments, hrun, by simpa using hreplayed.flatten, hreplayed.ne_nil, hreplayed⟩

end Lucie.DispatchTree
