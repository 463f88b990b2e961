import Lucie.SumTree.Place

/-!
# Forward calls of a cursor

`seek`, `seek_forward`, `slice`, `suffix` and `summary` are one walk with different
aggregates. One call moves the place to an index that depends on the target, and
never to the left of where the walk starts; the run theorem follows the places
through any list of calls.
-/

set_option autoImplicit false

namespace Lucie

variable {α σ δ : Type} [Item α σ] [Dimension δ σ]

namespace Cursor

section SeekInternal

variable {root : SumTree α σ} {h : ℕ} {c : Cursor α σ δ} {place : Place}

/-- The stack from which a seek walks. A cursor before the list has none. -/
theorem Represents.seekStack_eq (hrep : Represents root h c place) (hplace : place ≠ .before) :
    ∃ stack, c.seekStack = some stack ∧
      Resumes root h (root.toList.take place.index) false stack := by
  cases place with
  | unsought =>
    obtain ⟨htree, hseek, hstack, -, -⟩ := hrep
    refine ⟨[⟨root, 0, Dimension.zero⟩], by simp [seekStack, hseek, hstack, htree, pushEntry], ?_⟩
    exact .enter (.root (Nat.zero_le _)) (by simp [Place.index, stackBefore])
      fun _ => by simp [Place.index]
  | before => exact absurd rfl hplace
  | «at» index =>
    obtain ⟨-, hseek, -, hsits, -, -⟩ := hrep
    exact ⟨c.stack, by simp [seekStack, hseek], hsits.resumes⟩

theorem Represents.index_le (hrep : Represents root h c place) :
    place.index ≤ root.toList.length := by
  cases place with
  | unsought | before => exact Nat.zero_le _
  | «at» index => exact hrep.2.2.1

/-- The index at which a seek that starts with `start` items behind it ends. -/
def seekIndex (target : SeekTarget δ) (bias : Bias) (items : List α) (start : ℕ) : ℕ :=
  max start (target.leading bias items)

/-- The place with which a seek that ends at `index` compares its target: behind
the item there when the bias is to the left. -/
def endIndex (bias : Bias) (index : ℕ) : ℕ :=
  if bias = .left then index + 1 else index

/-- Whether a seek that ends at `index` finds its target. -/
def found (target : SeekTarget δ) (bias : Bias) (items : List α) (index : ℕ) : Bool :=
  target.cmp (Dimension.extent δ (items.take (endIndex bias index))) = .eq

theorem Represents.endPosition_eq [AddMonoid σ] (wf : SumTree.WellFormed h root) {index : ℕ}
    (hrep : Represents root h c (.at index)) (bias : Bias) :
    c.endPosition bias = some (Dimension.extent δ (root.toList.take (endIndex bias index))) := by
  have hposition : c.position = Dimension.extent δ (root.toList.take index) := hrep.start_eq
  cases bias with
  | right => simp [endPosition, endIndex, hposition]
  | left =>
    simp only [endPosition, hrep.itemSummary_eq wf, Place.item, endIndex, hposition, if_true,
      Option.map_some, Option.bind_eq_bind, Option.bind_some]
    cases hget : root.toList[index]? with
    | none =>
      have hle := List.getElem?_eq_none_iff.mp hget
      simp [List.take_of_length_le hle, List.take_of_length_le (Nat.le_succ_of_le hle)]
    | some item => simp [List.take_add_one, hget, Dimension.extent_concat]

variable [AddMonoid σ] {A : Type} {aggregate : SeekAggregate α σ A}
  {Holds : List α → A → Prop} {Collects : List α → List α → A → Prop}

/-- Every seek moves to the right and collects the items it goes past. Where it ends
is determined by a monotone target. -/
theorem seekInternal_spec (target : SeekTarget δ) (bias : Bias)
    (wf : SumTree.WellFormed h root) (hh : h ≤ 15)
    (hgathers : aggregate.Gathers root.toList Holds Collects)
    (hlawful : Dimension.Lawful δ root.toList)
    (hrep : Represents root h c place) (hplace : place ≠ .before)
    (htarget : target.cmp (Dimension.extent δ (root.toList.take place.index)) ≠ .lt)
    {a : A} (ha : Holds [] a) :
    ∃ c' a' k,
      seekInternal target bias aggregate a c = some (c', a', found target bias root.toList k) ∧
      Represents root h c' (.at k) ∧ Holds ((root.toList.take k).drop place.index) a' ∧
      place.index ≤ k ∧
      (target.MonotoneOn root.toList → k = seekIndex target bias root.toList place.index) := by
  obtain ⟨stack, hstack, hres⟩ := hrep.seekStack_eq hplace
  have hlength : (root.toList.take place.index).length = place.index :=
    List.length_take_of_le hrep.index_le
  have hwalk : Walked target bias root.toList place.index (root.toList.take place.index) :=
    ⟨List.take_prefix _ _, hlength.ge, fun _ i hi hlt => absurd hlt (by omega)⟩
  obtain ⟨⟨stack', position', a'⟩, hloop, done, hwalk', hblocked, rfl, ha', hsits⟩ :=
    seekLoop_spec wf hh hgathers hlawful hwalk (a := a) (by simpa [hlength] using ha) hres
  have hdone := List.prefix_iff_eq_take.mp hwalk'.isPrefix
  have hposition : c.position = Dimension.extent δ (root.toList.take place.index) := hrep.start_eq
  have hrep' : Represents root h ⟨root, stack', Dimension.extent δ done, true, stack'.isEmpty⟩
      (.at done.length) :=
    ⟨rfl, rfl, hwalk'.isPrefix.length_le, hdone ▸ hsits, congrArg _ hdone, rfl⟩
  refine ⟨_, a', done.length, ?_, hrep', hdone ▸ ha', hwalk'.start_le,
    fun hmono => hwalk'.length_eq hmono hblocked⟩
  rw [seekInternal, hposition, if_neg htarget, hrep.tree_eq]
  simp only [hstack, Option.bind_eq_bind, Option.bind_some, hloop, hrep'.endPosition_eq wf, found]

end SeekInternal

end Cursor

/-- The forward calls of a cursor. -/
inductive Call (δ : Type)
  | seek (target : SeekTarget δ) (bias : Bias)
  | seekForward (target : SeekTarget δ) (bias : Bias)
  | slice (target : SeekTarget δ) (bias : Bias)
  | suffix
  | summary (target : SeekTarget δ) (bias : Bias)

/-- What a forward call returns. -/
inductive Outcome (α σ ω : Type)
  | found (result : Bool)
  | tree (tree : SumTree α σ)
  | summary (value : ω)

namespace Call

def target : Call δ → SeekTarget δ
  | .seek target _ => target
  | .seekForward target _ => target
  | .slice target _ => target
  | .suffix => SeekTarget.endTarget
  | .summary target _ => target

def bias : Call δ → Bias
  | .seek _ bias => bias
  | .seekForward _ bias => bias
  | .slice _ bias => bias
  | .suffix => .right
  | .summary _ bias => bias

/-- The number of items behind the walk of a call at its start; `seek` starts over. -/
def start (index : ℕ) : Call δ → ℕ
  | .seek _ _ => 0
  | _ => index

/-- The index of the cursor after a call made at `index`. -/
def index (items : List α) (index : ℕ) (call : Call δ) : ℕ :=
  Cursor.seekIndex call.target call.bias items (call.start index)

/-- Make a call. -/
def run {ω : Type} [AddMonoid σ] [Dimension ω σ] (c : Cursor α σ δ) :
    Call δ → Option (Cursor α σ δ × Outcome α σ ω)
  | .seek target bias => (c.seek target bias).map fun r => (r.1, .found r.2)
  | .seekForward target bias => (c.seekForward target bias).map fun r => (r.1, .found r.2)
  | .slice target bias => (c.slice target bias).map fun r => (r.1, .tree r.2)
  | .suffix => c.suffix.map fun r => (r.1, .tree r.2)
  | .summary target bias => (c.summary target bias).map fun r => (r.1, .summary r.2)

/-- Make calls in a row, recording the cursor and the result after each. -/
def runAll {ω : Type} [AddMonoid σ] [Dimension ω σ] :
    List (Call δ) → Cursor α σ δ → Option (List (Cursor α σ δ × Outcome α σ ω))
  | [], _ => some []
  | call :: calls, c => do
    let (c, outcome) ← call.run c
    let trace ← runAll calls c
    some ((c, outcome) :: trace)

/-- What a call made at index `j` that ends at index `k` must return. -/
def Returns {ω : Type} [AddMonoid σ] [Dimension ω σ] (items : List α) (j k : ℕ) :
    Call δ → Outcome α σ ω → Prop
  | .seek target bias, .found result => result = Cursor.found target bias items k
  | .seekForward target bias, .found result => result = Cursor.found target bias items k
  | .slice _ _, .tree tree =>
    (∃ height, SumTree.WellFormed height tree) ∧ tree.toList = (items.take k).drop j
  | .suffix, .tree tree =>
    (∃ height, SumTree.WellFormed height tree) ∧ tree.toList = items.drop j
  | .summary _ _, .summary value => value = Dimension.extent ω ((items.take k).drop j)
  | _, _ => False

/-- A call does not seek backward: its target is not before the place it starts from. -/
def Forward (items : List α) (index : ℕ) (call : Call δ) : Prop :=
  call.target.cmp (Dimension.extent δ (items.take (call.start index))) ≠ .lt

/-- All calls of a list are forward when made in a row. -/
def AllForward (items : List α) : ℕ → List (Call δ) → Prop
  | _, [] => True
  | index, call :: calls =>
    call.Forward items index ∧ AllForward items (call.index items index) calls

instance (items : List α) (index : ℕ) (call : Call δ) : Decidable (call.Forward items index) :=
  inferInstanceAs (Decidable (_ ≠ _))

/-- Whether calls are forward can be computed. -/
instance decidableAllForward (items : List α) :
    ∀ (index : ℕ) (calls : List (Call δ)), Decidable (AllForward items index calls)
  | _, [] => inferInstanceAs (Decidable True)
  | index, call :: calls =>
    have := decidableAllForward items (call.index items index) calls
    inferInstanceAs (Decidable (_ ∧ _))

/-- The observations after every call of a list: the cursor is at the index of the
call, and the call returns what it must. -/
def AllAnswered {ω : Type} [AddMonoid σ] [Dimension ω σ] (items : List α) :
    ℕ → List (Call δ) → List (Cursor α σ δ × Outcome α σ ω) → Prop
  | _, [], trace => trace = []
  | _, _ :: _, [] => False
  | index, call :: calls, (c, outcome) :: trace =>
    c.start = Dimension.extent δ (items.take (call.index items index)) ∧
      c.item = some items[call.index items index]? ∧
      call.Returns items (call.start index) (call.index items index) outcome ∧
      AllAnswered items (call.index items index) calls trace

section Run

variable {ω : Type} [AddMonoid σ] [Dimension ω σ] {root : SumTree α σ} {h : ℕ}
  {c : Cursor α σ δ} {place : Place}

/-- One forward call moves the cursor to its index and returns what it must. -/
theorem run_spec (wf : SumTree.WellFormed h root) (hh : h ≤ 15)
    (hlawful : Dimension.Lawful δ root.toList) (houtput : Dimension.Lawful ω root.toList)
    (hrep : c.Represents root h place) (hplace : place ≠ .before) {call : Call δ}
    (hmono : call.target.MonotoneOn root.toList) (hforward : call.Forward root.toList place.index) :
    ∃ c' outcome, call.run (ω := ω) c = some (c', outcome) ∧
      c'.Represents root h (.at (call.index root.toList place.index)) ∧
      call.Returns root.toList (call.start place.index) (call.index root.toList place.index)
        outcome := by
  cases call with
  | seek target bias =>
    obtain ⟨c', ⟨⟩, k, hcall, hrep', -, -, hk⟩ := Cursor.seekInternal_spec target bias wf hh
      (SeekAggregate.unit_gathers _) hlawful hrep.reset (by simp) hforward (a := ()) trivial
    obtain rfl := hk hmono
    refine ⟨c', .found _, ?_, hrep', rfl⟩
    rw [run, Cursor.seek, hcall]
    rfl
  | seekForward target bias =>
    obtain ⟨c', ⟨⟩, k, hcall, hrep', -, -, hk⟩ := Cursor.seekInternal_spec target bias wf hh
      (SeekAggregate.unit_gathers _) hlawful hrep hplace hforward (a := ()) trivial
    obtain rfl := hk hmono
    refine ⟨c', .found _, ?_, hrep', rfl⟩
    rw [run, Cursor.seekForward, hcall]
    rfl
  | slice target bias =>
    obtain ⟨c', a', k, hcall, hrep', ha', -, hk⟩ := Cursor.seekInternal_spec target bias wf hh
      (SeekAggregate.slice_gathers _) hlawful hrep hplace hforward SeekAggregate.SliceCollects.new
    obtain rfl := hk hmono
    exact ⟨c', .tree _, by simp [run, Cursor.slice, hcall], hrep', ha'.wellFormed, ha'.contents⟩
  | suffix =>
    obtain ⟨c', a', k, hcall, hrep', ha', -, hk⟩ := Cursor.seekInternal_spec
      SeekTarget.endTarget .right wf hh (SeekAggregate.slice_gathers _) hlawful hrep hplace hforward
      SeekAggregate.SliceCollects.new
    obtain rfl := hk hmono
    refine ⟨c', .tree _, by simp [run, Cursor.suffix, Cursor.slice, hcall], hrep',
      ha'.wellFormed, ?_⟩
    have hend : root.toList.length ≤ Cursor.seekIndex (δ := δ) SeekTarget.endTarget .right
        root.toList place.index :=
      (SeekTarget.leading_endTarget root.toList).ge.trans (le_max_right _ _)
    rw [ha'.contents, List.take_of_length_le hend]
    rfl
  | summary target bias =>
    obtain ⟨c', a', k, hcall, hrep', ha', -, hk⟩ := Cursor.seekInternal_spec target bias wf hh
      (SeekAggregate.summary_gathers houtput) hlawful hrep hplace hforward
      (a := Dimension.zero) rfl
    obtain rfl := hk hmono
    exact ⟨c', .summary _, by simp [run, Cursor.summary, hcall], hrep', ha'⟩

/-- A list of forward calls never panics, and after every call the cursor is at the
index of the call. The induction is on the list, from any place but before the
list. -/
theorem runAll_spec (wf : SumTree.WellFormed h root) (hh : h ≤ 15)
    (hlawful : Dimension.Lawful δ root.toList) (houtput : Dimension.Lawful ω root.toList)
    (hrep : c.Represents root h place) (hplace : place ≠ .before) {calls : List (Call δ)}
    (hmono : ∀ call ∈ calls, call.target.MonotoneOn root.toList)
    (hforward : AllForward root.toList place.index calls) :
    ∃ trace, runAll (ω := ω) calls c = some trace ∧
      AllAnswered root.toList place.index calls trace := by
  induction calls generalizing c place with
  | nil => exact ⟨[], rfl, rfl⟩
  | cons call calls ih =>
    obtain ⟨hcall, hcalls⟩ := hforward
    obtain ⟨c', outcome, hrun, hrep', hreturns⟩ :=
      run_spec (ω := ω) wf hh hlawful houtput hrep hplace (hmono call (by simp)) hcall
    obtain ⟨trace, htrace, hanswered⟩ :=
      ih hrep' (by simp) (fun next hnext => hmono next (by simp [hnext])) hcalls
    refine ⟨(c', outcome) :: trace, by simp [runAll, hrun, htrace], ?_⟩
    exact ⟨hrep'.start_eq, hrep'.item_eq wf, hreturns, hanswered⟩

/-- Every list of forward calls on a new cursor does what the item list says. -/
theorem runAll_new (wf : SumTree.WellFormed h root) (hh : h ≤ 15)
    (hlawful : Dimension.Lawful δ root.toList) (houtput : Dimension.Lawful ω root.toList)
    {calls : List (Call δ)} (hmono : ∀ call ∈ calls, call.target.MonotoneOn root.toList)
    (hforward : AllForward root.toList 0 calls) :
    ∃ trace, runAll (ω := ω) calls (Cursor.new root) = some trace ∧
      AllAnswered root.toList 0 calls trace :=
  runAll_spec wf hh hlawful houtput (Cursor.new_represents root h) (by simp) hmono hforward

end Run

/-- A seek, a slice, a summary and the suffix of five counted numbers. -/
theorem runAll_new_countTree :
    ∃ trace, runAll (ω := ℕ) [.seek (.ofOrd 1) .right, .slice (.ofOrd 4) .left,
        .summary (.ofOrd 4) .right, .suffix] (Cursor.new countTree) = some trace ∧
      AllAnswered countTree.toList 0 [.seek (.ofOrd 1) .right, .slice (.ofOrd 4) .left,
        .summary (.ofOrd 4) .right, .suffix] trace := by
  refine runAll_new countTree_wellFormed (by decide) (countDimension_lawful _)
    (countDimension_lawful _) (fun call hcall => ?_) (by decide)
  simp only [List.mem_cons, List.not_mem_nil, or_false] at hcall
  rcases hcall with rfl | rfl | rfl | rfl
  · exact ofOrd_count_monotoneOn 1 _
  · exact ofOrd_count_monotoneOn 4 _
  · exact ofOrd_count_monotoneOn 4 _
  · exact SeekTarget.endTarget_monotoneOn _

/-- A seek to the right of a target and then forward to the left of the same target
does not go back to the left: no leading item ends before `1`, yet the cursor
stays at index `1`. -/
theorem seekForward_equal_target :
    (((Cursor.new countTree).seek (.ofOrd 1) .right).bind fun r =>
        (r.1.seekForward (.ofOrd 1) .left).bind fun r' => r'.1.item) = some (some 11) ∧
      (SeekTarget.ofOrd 1).leading .left countTree.toList = 0 := by
  decide

/-- After a forward call its target is not before the cursor. -/
theorem Forward.target_ne_lt {items : List α} {index : ℕ} {call : Call δ}
    (hforward : call.Forward items index) :
    call.target.cmp (Dimension.extent δ (items.take (call.index items index))) ≠ .lt := by
  rw [Call.index, Cursor.seekIndex]
  rcases Nat.le_total (call.target.leading call.bias items) (call.start index) with hle | hle
  · rwa [Nat.max_eq_left hle]
  · rw [Nat.max_eq_right hle]
    rcases hle.eq_or_lt with heq | hlt
    · rwa [← heq]
    · have hpass := SeekTarget.passes_of_lt_leading
        (show call.target.leading call.bias items - 1 < call.target.leading call.bias items by
          omega)
      rw [Nat.sub_add_cancel (by omega)] at hpass
      intro hlt
      simp [SeekTarget.passes, hlt] at hpass

/-- Calls whose targets do not decrease and are not before zero are forward. -/
theorem allForward_of_nondecreasing {items : List α} {calls : List (Call δ)}
    (hzero : ∀ call ∈ calls, call.target.cmp Dimension.zero ≠ .lt)
    (hsorted : calls.Pairwise fun call next =>
      ∀ position, call.target.cmp position ≠ .lt → next.target.cmp position ≠ .lt) :
    AllForward items 0 calls := by
  have hkey : ∀ index, (∀ call ∈ calls,
      call.target.cmp (Dimension.extent δ (items.take index)) ≠ .lt) →
      AllForward items index calls := by
    induction calls with
    | nil => exact fun _ _ => trivial
    | cons call calls ih =>
      intro index hindex
      have hstart : call.Forward items index := by
        cases call with
        | seek => exact hzero _ (by simp)
        | seekForward | slice | suffix | summary => exact hindex _ (by simp)
      refine ⟨hstart, ih (fun c hc => hzero c (by simp [hc])) hsorted.of_cons _
        fun next hnext => ?_⟩
      exact List.rel_of_pairwise_cons hsorted hnext _ hstart.target_ne_lt
  exact hkey 0 fun call hcall => by simpa using hzero call hcall

end Call

end Lucie
