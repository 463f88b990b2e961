import Lucie.Style.HighlightStyle
import Mathlib.Data.List.Basic

/-!
# Combined highlights

Two lists of highlighted ranges are combined in one sweep over the points at which a range
starts or ends. The sweep keeps which highlights are active, and emits a piece whenever it
moves on with an active one.
-/

set_option autoImplicit false

namespace Lucie

/-- A range of positions of a text, up to its end. -/
structure TextRange where
  start : ℕ
  stop : ℕ
  deriving DecidableEq

namespace TextRange

/-- `Range::is_empty`. -/
def isEmpty (range : TextRange) : Prop := ¬range.start < range.stop

instance (range : TextRange) : Decidable range.isEmpty := inferInstanceAs (Decidable (¬_))

/-- `Range::contains`. -/
def Contains (range : TextRange) (x : ℕ) : Prop := range.start ≤ x ∧ x < range.stop

instance (range : TextRange) (x : ℕ) : Decidable (range.Contains x) :=
  inferInstanceAs (Decidable (_ ∧ _))

end TextRange

/-- A range with its highlight. -/
structure Highlight where
  range : TextRange
  style : HighlightStyle
  deriving DecidableEq

/-- An endpoint of a range: its position, the index of the highlight and whether the range
starts there. -/
structure Endpoint where
  position : ℕ
  highlightId : ℕ
  isStart : Bool
  deriving DecidableEq

/-- `sort_unstable_by_key`. Endpoints at one position come in any order. -/
structure UnstableSort where
  sort : List Endpoint → List Endpoint
  perm : ∀ endpoints, (sort endpoints).Perm endpoints
  sorted : ∀ endpoints, (sort endpoints).Pairwise fun e e' => e.position ≤ e'.position

theorem pairwise_mergeSort_position (endpoints : List Endpoint) :
    (endpoints.mergeSort fun e e' => e.position ≤ e'.position).Pairwise
      fun e e' => e.position ≤ e'.position := by
  have htrans : ∀ a b c : Endpoint, decide (a.position ≤ b.position) = true →
      decide (b.position ≤ c.position) = true → decide (a.position ≤ c.position) = true := by
    intro a b c hab hbc
    rw [decide_eq_true_eq] at hab hbc ⊢
    exact hab.trans hbc
  have htotal : ∀ a b : Endpoint,
      (decide (a.position ≤ b.position) || decide (b.position ≤ a.position)) = true := by
    intro a b
    rw [Bool.or_eq_true, decide_eq_true_eq, decide_eq_true_eq]
    exact le_total a.position b.position
  exact (List.pairwise_mergeSort htrans htotal endpoints).imp fun h => of_decide_eq_true h

/-- A stable sort is one of them. -/
instance : Inhabited UnstableSort where
  default :=
    ⟨fun endpoints => endpoints.mergeSort fun e e' => e.position ≤ e'.position,
      fun endpoints => List.mergeSort_perm endpoints _, pairwise_mergeSort_position⟩

/-- The state of the iterator of `combine_highlights`. -/
structure HighlightSweep where
  endpoints : List Endpoint
  stylesActive : List Bool
  ix : ℕ

/-- The loop of `combine_highlights` over the ranges of both lists. -/
def collectEndpoints : List Highlight → List Endpoint → List HighlightStyle →
    List Endpoint × List HighlightStyle
  | [], endpoints, highlights => (endpoints, highlights)
  | ⟨range, highlight⟩ :: rest, endpoints, highlights =>
    if ¬range.isEmpty then
      let highlightId := highlights.length
      collectEndpoints rest
        (endpoints ++ [⟨range.start, highlightId, true⟩, ⟨range.stop, highlightId, false⟩])
        (highlights ++ [highlight])
    else collectEndpoints rest endpoints highlights

/-- The style of the active highlights. An index out of bounds panics. -/
def currentStyle (highlights : List HighlightStyle) (stylesActive : List Bool) :
    Option HighlightStyle :=
  (stylesActive.zipIdx.filterMap fun entry => if entry.1 then some entry.2 else none).foldlM
    (fun acc highlightId => (highlights[highlightId]?).map acc.highlight) .default

/-- A call of the iterator of `combine_highlights`: the piece it returns, if there is one more,
and what it leaves. An index out of bounds panics. -/
def HighlightSweep.next (highlights : List HighlightStyle) :
    List Endpoint → List Bool → ℕ → Option (Option Highlight × HighlightSweep)
  | [], stylesActive, ix => some (none, ⟨[], stylesActive, ix⟩)
  | endpoint :: endpoints, stylesActive, prevIndex =>
    let ix := endpoint.position
    if prevIndex < ix ∧ stylesActive.any id then
      (currentStyle highlights stylesActive).map fun style =>
        (some ⟨⟨prevIndex, ix⟩, style⟩, ⟨endpoint :: endpoints, stylesActive, ix⟩)
    else if endpoint.highlightId < stylesActive.length then
      next highlights endpoints (stylesActive.set endpoint.highlightId endpoint.isStart) ix
    else none

/-- The pieces of the iterator, as far as the fuel goes. -/
def HighlightSweep.collect (highlights : List HighlightStyle) :
    ℕ → HighlightSweep → Option (List Highlight)
  | 0, _ => none
  | fuel + 1, s =>
    match next highlights s.endpoints s.stylesActive s.ix with
    | none => none
    | some (none, _) => some []
    | some (some piece, s) => (collect highlights fuel s).map (piece :: ·)

/-- `combine_highlights`, with its iterator called until it ends. -/
def combineHighlights (sort : UnstableSort) (a b : List Highlight) (fuel : ℕ) :
    Option (List Highlight) :=
  let collected := collectEndpoints (a ++ b) [] []
  HighlightSweep.collect collected.2 fuel
    ⟨sort.sort collected.1, .replicate collected.2.length false, 0⟩

/-! ## What the pieces are -/

/-- The highlights at a position, each put over the ones before it. -/
def stackedStyle (inputs : List Highlight) (x : ℕ) : HighlightStyle :=
  ((inputs.filter fun input => input.range.Contains x).map Highlight.style).foldl
    HighlightStyle.highlight .default

/-- The pieces are what the inputs are from a position on: they are not empty, come one after
another, cover what the inputs cover and have the style of all inputs at their positions. -/
structure CombinesFrom (ix : ℕ) (inputs pieces : List Highlight) : Prop where
  nonempty : ∀ piece ∈ pieces, ¬piece.range.isEmpty
  increasing : pieces.Pairwise fun piece piece' => piece.range.stop ≤ piece'.range.start
  union : ∀ x, (∃ piece ∈ pieces, piece.range.Contains x) ↔
    ix ≤ x ∧ ∃ input ∈ inputs, input.range.Contains x
  style : ∀ piece ∈ pieces, ∀ x, piece.range.Contains x → piece.style = stackedStyle inputs x

namespace CombinesFrom

variable {ix ix' : ℕ} {inputs pieces : List Highlight}

theorem nil (hno : ∀ x, ix ≤ x → ¬∃ input ∈ inputs, input.range.Contains x) :
    CombinesFrom ix inputs [] where
  nonempty := by simp
  increasing := List.Pairwise.nil
  union x := by
    simp only [List.not_mem_nil, false_and, exists_false, false_iff, not_and]
    exact hno x
  style := by simp

/-- Nothing is missing if no input has a position in between. -/
theorem skip (h : CombinesFrom ix' inputs pieces) (hle : ix ≤ ix')
    (hno : ∀ x, ix ≤ x → x < ix' → ¬∃ input ∈ inputs, input.range.Contains x) :
    CombinesFrom ix inputs pieces where
  nonempty := h.nonempty
  increasing := h.increasing
  union x := by
    rw [h.union x]
    constructor
    · rintro ⟨hx, hinput⟩
      exact ⟨by omega, hinput⟩
    · rintro ⟨hx, hinput⟩
      by_cases hlt : x < ix'
      · exact absurd hinput (hno x hx hlt)
      · exact ⟨by omega, hinput⟩
  style := h.style

theorem le_start (h : CombinesFrom ix inputs pieces) {piece : Highlight}
    (hpiece : piece ∈ pieces) : ix ≤ piece.range.start := by
  have hlt := not_not.mp (h.nonempty piece hpiece)
  exact ((h.union piece.range.start).mp ⟨piece, hpiece, le_rfl, hlt⟩).1

/-- A piece in front. -/
theorem cons (h : CombinesFrom ix' inputs pieces) (hlt : ix < ix') {style : HighlightStyle}
    (hstyle : ∀ x, ix ≤ x → x < ix' → style = stackedStyle inputs x)
    (hsome : ∀ x, ix ≤ x → x < ix' → ∃ input ∈ inputs, input.range.Contains x) :
    CombinesFrom ix inputs (⟨⟨ix, ix'⟩, style⟩ :: pieces) where
  nonempty := List.forall_mem_cons.mpr ⟨not_not.mpr hlt, h.nonempty⟩
  increasing := List.pairwise_cons.mpr ⟨fun _ hpiece => h.le_start hpiece, h.increasing⟩
  union x := by
    rw [List.exists_mem_cons_iff, h.union x]
    constructor
    · rintro (⟨hx, hx'⟩ | ⟨hx, hinput⟩)
      · exact ⟨hx, hsome x hx hx'⟩
      · exact ⟨by omega, hinput⟩
    · rintro ⟨hx, hinput⟩
      by_cases hx' : x < ix'
      · exact Or.inl ⟨hx, hx'⟩
      · exact Or.inr ⟨by omega, hinput⟩
  style := List.forall_mem_cons.mpr ⟨fun x hx => hstyle x hx.1 hx.2, h.style⟩

end CombinesFrom

/-! ## The endpoints -/

/-- The ranges that are not empty. They are numbered in this order. -/
def nonemptyHighlights (inputs : List Highlight) : List Highlight :=
  inputs.filter fun input => ¬input.range.isEmpty

/-- An endpoint of one of the ranges, with its number. -/
def IsEndpoint (ranges : List Highlight) (endpoint : Endpoint) : Prop :=
  ∃ input, ranges[endpoint.highlightId]? = some input ∧
    endpoint.position = if endpoint.isStart then input.range.start else input.range.stop

/-- The endpoints of the ranges with numbers from `n` on. -/
def endpointsFrom (n : ℕ) : List Highlight → List Endpoint
  | [] => []
  | input :: inputs =>
    ⟨input.range.start, n, true⟩ :: ⟨input.range.stop, n, false⟩ :: endpointsFrom (n + 1) inputs

theorem collectEndpoints_eq (inputs : List Highlight) (endpoints : List Endpoint)
    (highlights : List HighlightStyle) :
    collectEndpoints inputs endpoints highlights =
      (endpoints ++ endpointsFrom highlights.length (nonemptyHighlights inputs),
        highlights ++ (nonemptyHighlights inputs).map Highlight.style) := by
  induction inputs generalizing endpoints highlights with
  | nil => simp [collectEndpoints, nonemptyHighlights, endpointsFrom]
  | cons input inputs ih =>
    by_cases hempty : input.range.isEmpty
    · rw [collectEndpoints, if_neg (not_not.mpr hempty), ih]
      simp [nonemptyHighlights, hempty]
    · rw [collectEndpoints, if_pos hempty, ih]
      simp [nonemptyHighlights, hempty, endpointsFrom]

theorem mem_endpointsFrom {n : ℕ} {ranges : List Highlight} {endpoint : Endpoint} :
    endpoint ∈ endpointsFrom n ranges ↔ n ≤ endpoint.highlightId ∧
      IsEndpoint ranges { endpoint with highlightId := endpoint.highlightId - n } := by
  induction ranges generalizing n with
  | nil => simp [endpointsFrom, IsEndpoint]
  | cons input ranges ih =>
    obtain ⟨position, highlightId, isStart⟩ := endpoint
    simp only [endpointsFrom, List.mem_cons, ih, IsEndpoint, Endpoint.mk.injEq]
    rcases Nat.lt_trichotomy highlightId n with hlt | rfl | hlt
    · simp only [Nat.not_le.mpr hlt, hlt.ne, false_and, and_false, false_or, iff_false,
        not_and]
      omega
    · cases isStart <;> simp
    · obtain ⟨k, rfl⟩ := Nat.exists_eq_add_of_lt hlt
      have hsub : n + k + 1 - n = k + 1 := by omega
      have hsub' : n + k + 1 - (n + 1) = k := by omega
      simp only [hsub, hsub', List.getElem?_cons_succ]
      have hne : n + k + 1 ≠ n := by omega
      have hle : n + 1 ≤ n + k + 1 := by omega
      have hle' : n ≤ n + k + 1 := by omega
      simp only [hne, hle, hle', false_and, and_false, false_or, true_and]

/-! ## The active highlights -/

theorem currentStyle_foldlM (highlights : List HighlightStyle) (ranges : List Highlight) (x n : ℕ)
    (hget : ∀ i, highlights[n + i]? = (ranges[i]?).map Highlight.style) (acc : HighlightStyle) :
    (((ranges.map fun input => decide (input.range.Contains x)).zipIdx n).filterMap
      fun entry => if entry.1 then some entry.2 else none).foldlM
        (fun acc highlightId => (highlights[highlightId]?).map acc.highlight) acc =
      some (((ranges.filter fun input => input.range.Contains x).map Highlight.style).foldl
        HighlightStyle.highlight acc) := by
  induction ranges generalizing n acc with
  | nil => rfl
  | cons input ranges ih =>
    have hget' : ∀ i, highlights[n + 1 + i]? = (ranges[i]?).map Highlight.style := by
      intro i
      rw [Nat.add_assoc, Nat.add_comm 1 i, hget (i + 1), List.getElem?_cons_succ]
    have hhead : highlights[n]? = some input.style := by simpa using hget 0
    by_cases hx : input.range.Contains x
    · simp only [List.map_cons, hx, decide_true, List.zipIdx_cons, if_true,
        List.filterMap_cons, List.foldlM_cons, hhead, Option.map_some, Option.bind_eq_bind,
        Option.bind_some, List.filter_cons_of_pos, List.foldl_cons]
      exact ih (n + 1) hget' _
    · simp only [List.map_cons, hx, decide_false, List.zipIdx_cons, Bool.false_eq_true, if_false,
        List.filterMap_cons, not_false_eq_true, List.filter_cons_of_neg]
      exact ih (n + 1) hget' _

/-- The style of the highlights that are active at a position. -/
theorem currentStyle_eq (ranges : List Highlight) (x : ℕ) :
    currentStyle (ranges.map Highlight.style)
      (ranges.map fun input => decide (input.range.Contains x)) = some (stackedStyle ranges x) :=
  currentStyle_foldlM _ ranges x 0 (fun i => by rw [Nat.zero_add, List.getElem?_map]) _

/-- The endpoints before a state of the sweep are `passed`, those after it are left. A highlight
is active as long as its start is passed and its end is not. -/
structure SweepInv (ranges : List Highlight) (passed left : List Endpoint) (active : List Bool)
    (ix : ℕ) : Prop where
  mem_iff : ∀ endpoint, endpoint ∈ passed ++ left ↔ IsEndpoint ranges endpoint
  passed_le : ∀ endpoint ∈ passed, endpoint.position ≤ ix
  le_left : ∀ endpoint ∈ left, ix ≤ endpoint.position
  sorted : left.Pairwise fun e e' => e.position ≤ e'.position
  length_eq : active.length = ranges.length
  active_iff : ∀ (i : ℕ) (input : Highlight), ranges[i]? = some input →
    (active[i]? = some true ↔
      ⟨input.range.start, i, true⟩ ∈ passed ∧ ⟨input.range.stop, i, false⟩ ∉ passed)

namespace SweepInv

variable {ranges : List Highlight} {passed left : List Endpoint} {active : List Bool} {ix : ℕ}
  {endpoint : Endpoint}

theorem start_mem (h : SweepInv ranges passed left active ix) {i : ℕ} {input : Highlight}
    (hget : ranges[i]? = some input) :
    ⟨input.range.start, i, true⟩ ∈ passed ∨ ⟨input.range.start, i, true⟩ ∈ left :=
  List.mem_append.mp ((h.mem_iff _).mpr ⟨input, hget, rfl⟩)

theorem stop_mem (h : SweepInv ranges passed left active ix) {i : ℕ} {input : Highlight}
    (hget : ranges[i]? = some input) :
    ⟨input.range.stop, i, false⟩ ∈ passed ∨ ⟨input.range.stop, i, false⟩ ∈ left :=
  List.mem_append.mp ((h.mem_iff _).mpr ⟨input, hget, rfl⟩)

/-- Up to the next endpoint the active highlights are those with the position. -/
theorem contains_iff (h : SweepInv ranges passed left active ix) {x i : ℕ} {input : Highlight}
    (hget : ranges[i]? = some input) (hx : ix ≤ x) (hleft : ∀ e ∈ left, x < e.position) :
    active[i]? = some true ↔ input.range.Contains x := by
  rw [h.active_iff i input hget]
  constructor
  · rintro ⟨hstart, hstop⟩
    have hstop' := (h.stop_mem hget).resolve_left hstop
    exact ⟨(h.passed_le _ hstart).trans hx, hleft _ hstop'⟩
  · rintro ⟨hstart, hstop⟩
    constructor
    · rcases h.start_mem hget with hpassed | hmem
      · exact hpassed
      · have hlt : x < input.range.start := hleft _ hmem
        omega
    · intro hpassed
      have hle : input.range.stop ≤ ix := h.passed_le _ hpassed
      omega

theorem active_eq (h : SweepInv ranges passed left active ix) {x : ℕ} (hx : ix ≤ x)
    (hleft : ∀ e ∈ left, x < e.position) :
    active = ranges.map fun input => decide (input.range.Contains x) := by
  refine List.ext_getElem (by rw [h.length_eq, List.length_map]) fun i hi hi' => ?_
  have hi'' : i < ranges.length := h.length_eq ▸ hi
  have hiff := h.contains_iff (List.getElem?_eq_getElem hi'') hx hleft
  rw [List.getElem?_eq_getElem hi, Option.some_inj] at hiff
  rw [List.getElem_map, Bool.eq_iff_iff, hiff, decide_eq_true_iff]

/-- The sweep moves on to the next endpoint. -/
theorem emit (h : SweepInv ranges passed (endpoint :: left) active ix) :
    SweepInv ranges passed (endpoint :: left) active endpoint.position where
  mem_iff := h.mem_iff
  passed_le e he := (h.passed_le e he).trans (h.le_left endpoint List.mem_cons_self)
  le_left := List.forall_mem_cons.mpr ⟨le_rfl, (List.pairwise_cons.mp h.sorted).1⟩
  sorted := h.sorted
  length_eq := h.length_eq
  active_iff := h.active_iff

theorem highlightId_lt (h : SweepInv ranges passed (endpoint :: left) active ix) :
    endpoint.highlightId < active.length := by
  have hmem : endpoint ∈ passed ++ endpoint :: left := by simp
  obtain ⟨input, hget, -⟩ := (h.mem_iff endpoint).mp hmem
  rw [h.length_eq]
  exact (List.getElem?_eq_some_iff.mp hget).1

/-- The sweep takes the next endpoint. The start of a range comes before its end, so an end
is not passed when its start is taken. -/
theorem consume (h : SweepInv ranges passed (endpoint :: left) active ix)
    (hranges : ∀ input ∈ ranges, input.range.start < input.range.stop) :
    SweepInv ranges (passed ++ [endpoint]) left
      (active.set endpoint.highlightId endpoint.isStart) endpoint.position where
  mem_iff e := by
    rw [List.append_assoc]
    exact h.mem_iff e
  passed_le e he := by
    rcases List.mem_append.mp he with he | he
    · exact h.emit.passed_le e he
    · rw [List.mem_singleton.mp he]
  le_left := (List.pairwise_cons.mp h.sorted).1
  sorted := (List.pairwise_cons.mp h.sorted).2
  length_eq := by rw [List.length_set, h.length_eq]
  active_iff i input hget := by
    have hmem : endpoint ∈ passed ++ endpoint :: left := by simp
    obtain ⟨input', hget', hposition⟩ := (h.mem_iff endpoint).mp hmem
    have hlt := hranges input (List.mem_of_getElem? hget)
    by_cases hi : endpoint.highlightId = i
    · subst hi
      obtain rfl : input' = input := Option.some_inj.mp (hget'.symm.trans hget)
      rw [List.getElem?_set_self h.highlightId_lt, Option.some_inj]
      obtain ⟨position, highlightId, isStart⟩ := endpoint
      cases isStart with
      | false =>
        obtain rfl : position = input'.range.stop := hposition
        simp
      | true =>
        obtain rfl : position = input'.range.start := hposition
        have hstop : ⟨input'.range.stop, highlightId, false⟩ ∉ passed := by
          intro hpassed
          have hle := h.emit.passed_le _ hpassed
          have hle' : input'.range.stop ≤ input'.range.start := hle
          omega
        simp [hstop]
    · have hstart : (⟨input.range.start, i, true⟩ : Endpoint) ≠ endpoint := by
        rintro rfl
        exact hi rfl
      have hstop : (⟨input.range.stop, i, false⟩ : Endpoint) ≠ endpoint := by
        rintro rfl
        exact hi rfl
      rw [List.getElem?_set_ne hi, h.active_iff i input hget]
      simp [hstart, hstop]

/-- Without an active highlight no range has a position up to the next endpoint. -/
theorem not_exists_contains (h : SweepInv ranges passed left active ix) {x : ℕ} (hx : ix ≤ x)
    (hleft : ∀ e ∈ left, x < e.position) (hnone : active.any id = false) :
    ¬∃ input ∈ ranges, input.range.Contains x := by
  rintro ⟨input, hmem, hcontains⟩
  obtain ⟨i, hget⟩ := List.getElem?_of_mem hmem
  have hactive := (h.contains_iff hget hx hleft).mpr hcontains
  have hany : active.any id = true :=
    List.any_eq_true.mpr ⟨true, List.mem_of_getElem? hactive, rfl⟩
  rw [hnone] at hany
  cases hany

theorem exists_contains (h : SweepInv ranges passed left active ix) {x : ℕ} (hx : ix ≤ x)
    (hleft : ∀ e ∈ left, x < e.position) (hsome : active.any id = true) :
    ∃ input ∈ ranges, input.range.Contains x := by
  rw [h.active_eq hx hleft] at hsome
  simpa using hsome

/-- After the last endpoint nothing is left. -/
theorem not_exists_contains_of_nil (h : SweepInv ranges passed [] active ix) {x : ℕ}
    (hx : ix ≤ x) : ¬∃ input ∈ ranges, input.range.Contains x := by
  rintro ⟨input, hmem, -, hlt⟩
  obtain ⟨i, hget⟩ := List.getElem?_of_mem hmem
  have hpassed := (h.stop_mem hget).resolve_right List.not_mem_nil
  have hle : input.range.stop ≤ ix := h.passed_le _ hpassed
  omega

end SweepInv

/-! ## The sweep -/

/-- Without a piece to emit, the next call goes on as if the endpoint were taken. -/
theorem HighlightSweep.collect_take {highlights : List HighlightStyle} {endpoint : Endpoint}
    {left : List Endpoint} {active : List Bool} {ix : ℕ}
    (hno : ¬(ix < endpoint.position ∧ active.any id = true))
    (hid : endpoint.highlightId < active.length) (fuel : ℕ) :
    collect highlights fuel ⟨endpoint :: left, active, ix⟩ =
      collect highlights fuel
        ⟨left, active.set endpoint.highlightId endpoint.isStart, endpoint.position⟩ := by
  cases fuel with
  | zero => rfl
  | succ fuel => rw [collect, collect, next, if_neg hno, if_pos hid]

/-- From every state of the sweep the pieces come to an end, within one call for every endpoint
that is left and a last one. -/
theorem SweepInv.collect {ranges : List Highlight} {passed left : List Endpoint}
    {active : List Bool} {ix : ℕ} (h : SweepInv ranges passed left active ix)
    (hranges : ∀ input ∈ ranges, input.range.start < input.range.stop) :
    ∃ pieces, CombinesFrom ix ranges pieces ∧ ∀ fuel, left.length < fuel →
      HighlightSweep.collect (ranges.map Highlight.style) fuel ⟨left, active, ix⟩ =
        some pieces := by
  induction left generalizing passed active ix with
  | nil =>
    refine ⟨[], .nil fun x hx => h.not_exists_contains_of_nil hx, fun fuel hfuel => ?_⟩
    obtain ⟨fuel, rfl⟩ := Nat.exists_eq_add_of_lt hfuel
    rfl
  | cons endpoint left ih =>
    obtain ⟨pieces, hpieces, hcollect⟩ := ih (h.consume hranges)
    have hle : ix ≤ endpoint.position := h.le_left endpoint List.mem_cons_self
    have hlt : ∀ x, x < endpoint.position → ∀ e ∈ endpoint :: left, x < e.position :=
      fun x hx e he => Nat.lt_of_lt_of_le hx (h.emit.le_left e he)
    by_cases hpiece : ix < endpoint.position ∧ active.any id = true
    · have hstyle : ∀ x, ix ≤ x → x < endpoint.position →
          currentStyle (ranges.map Highlight.style) active = some (stackedStyle ranges x) := by
        intro x hx hx'
        rw [h.active_eq hx (hlt x hx'), currentStyle_eq]
      have hhere := hstyle ix le_rfl hpiece.1
      refine ⟨⟨⟨ix, endpoint.position⟩, stackedStyle ranges ix⟩ :: pieces, ?_, ?_⟩
      · refine hpieces.cons hpiece.1 (fun x hx hx' => ?_) fun x hx hx' => ?_
        · exact Option.some_inj.mp (hhere.symm.trans (hstyle x hx hx'))
        · exact h.exists_contains hx (hlt x hx') hpiece.2
      · intro fuel hfuel
        obtain ⟨fuel, rfl⟩ : ∃ n, fuel = n + 1 := ⟨fuel - 1, by omega⟩
        -- the endpoint of the piece is taken by the next call
        have hno : ¬(endpoint.position < endpoint.position ∧ active.any id = true) :=
          fun hlt => lt_irrefl _ hlt.1
        have hfuel' : left.length < fuel := by simpa using hfuel
        rw [HighlightSweep.collect, HighlightSweep.next, if_pos hpiece, hhere]
        simp only [Option.map_some]
        rw [HighlightSweep.collect_take hno h.highlightId_lt, hcollect fuel hfuel', Option.map_some]
    · refine ⟨pieces, hpieces.skip hle fun x hx hx' => ?_, fun fuel hfuel => ?_⟩
      · have hnone : active.any id = false := by
          rw [not_and, Bool.not_eq_true] at hpiece
          exact hpiece (by omega)
        exact h.not_exists_contains hx (hlt x hx') hnone
      · rw [HighlightSweep.collect_take hpiece h.highlightId_lt]
        exact hcollect fuel (Nat.lt_of_succ_lt hfuel)

theorem sweepInv_start (ranges : List Highlight) {endpoints : List Endpoint}
    (hperm : endpoints.Perm (endpointsFrom 0 ranges))
    (hsorted : endpoints.Pairwise fun e e' => e.position ≤ e'.position) :
    SweepInv ranges [] endpoints (.replicate ranges.length false) 0 where
  mem_iff endpoint := by
    rw [List.nil_append, hperm.mem_iff, mem_endpointsFrom]
    simp
  passed_le := by simp
  le_left := fun _ _ => Nat.zero_le _
  sorted := hsorted
  length_eq := List.length_replicate
  active_iff i input hget := by simp [List.getElem?_replicate]

theorem mem_nonemptyHighlights {inputs : List Highlight} {input : Highlight} :
    input ∈ nonemptyHighlights inputs ↔ input ∈ inputs ∧ ¬input.range.isEmpty := by
  simp [nonemptyHighlights]

theorem TextRange.Contains.not_isEmpty {range : TextRange} {x : ℕ} (h : range.Contains x) :
    ¬range.isEmpty :=
  not_not.mpr (Nat.lt_of_le_of_lt h.1 h.2)

/-- An empty range has no position. -/
theorem stackedStyle_nonemptyHighlights (inputs : List Highlight) (x : ℕ) :
    stackedStyle (nonemptyHighlights inputs) x = stackedStyle inputs x := by
  rw [stackedStyle, stackedStyle, nonemptyHighlights, List.filter_filter]
  congr 2
  refine List.filter_congr fun input _ => ?_
  by_cases hx : input.range.Contains x
  · simp [hx, hx.not_isEmpty]
  · simp [hx]

theorem CombinesFrom.of_nonemptyHighlights {ix : ℕ} {inputs pieces : List Highlight}
    (h : CombinesFrom ix (nonemptyHighlights inputs) pieces) : CombinesFrom ix inputs pieces where
  nonempty := h.nonempty
  increasing := h.increasing
  union x := by
    rw [h.union x]
    refine and_congr_right fun _ => exists_congr fun input => ?_
    rw [mem_nonemptyHighlights, and_assoc]
    exact and_congr_right fun _ => ⟨And.right, fun hx => ⟨hx.not_isEmpty, hx⟩⟩
  style piece hpiece x hx := by
    rw [h.style piece hpiece x hx, stackedStyle_nonemptyHighlights]

/-- However the endpoints are sorted, `combine_highlights` comes to an end. Its pieces are not
empty and come one after another, together they are the input ranges, and each of them has the
style of the inputs at its positions. -/
theorem combineHighlights_combines (sort : UnstableSort) (a b : List Highlight) :
    ∃ pieces, CombinesFrom 0 (a ++ b) pieces ∧
      ∃ calls, ∀ fuel ≥ calls, combineHighlights sort a b fuel = some pieces := by
  have hcollected := collectEndpoints_eq (a ++ b) [] []
  rw [List.nil_append, List.nil_append, List.length_nil] at hcollected
  have hranges : ∀ input ∈ nonemptyHighlights (a ++ b),
      input.range.start < input.range.stop :=
    fun input hinput => not_not.mp (mem_nonemptyHighlights.mp hinput).2
  have hinv := sweepInv_start (nonemptyHighlights (a ++ b)) (sort.perm _) (sort.sorted _)
  obtain ⟨pieces, hpieces, hcollect⟩ := hinv.collect hranges
  refine ⟨pieces, hpieces.of_nonemptyHighlights,
    (sort.sort (endpointsFrom 0 (nonemptyHighlights (a ++ b)))).length + 1, fun fuel hfuel => ?_⟩
  rw [combineHighlights, hcollected, List.length_map]
  exact hcollect fuel hfuel

end Lucie
