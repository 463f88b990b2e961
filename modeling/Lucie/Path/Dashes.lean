import Mathlib.Algebra.Order.Archimedean.Basic
import Mathlib.Algebra.BigOperators.Intervals
import Mathlib.Algebra.Order.BigOperators.Group.Finset
import Mathlib.Data.Rat.Floor
import Mathlib.Tactic.Linarith
import Mathlib.Tactic.Positivity
import Lucie.Foundation.Loop

/-!
# Dashed strokes

A dashed stroke is cut out of its path in one walk along it: the entries of the dash array are
laid one after the other, again from the first one when all have been laid, and every other one
is cut out. The walk ends only if the entries lead on.
-/

set_option autoImplicit false

namespace Lucie.PathBuilder

open Foundation

/-- `PathBuilder::dash_array`: an array with an odd number of values is repeated. -/
def dashArray (array : List ℚ) : List ℚ :=
  if array.length % 2 = 1 then array ++ array else array

/-- Where the loop of `tessellate_stroke` is, and the ranges that it has cut out of the path. -/
structure DashState where
  pos : ℚ
  dashIndex : ℕ
  cuts : List (ℚ × ℚ)

/-- One round of the loop of `tessellate_stroke`; `none` is a division by zero. -/
def dashRound (dashArray : List ℚ) (totalLength : ℚ) (s : DashState) :
    Option (Round DashState (List (ℚ × ℚ))) :=
  if s.pos < totalLength then do
    let dashLength ← dashArray[s.dashIndex % dashArray.length]?
    let nextPos := min (s.pos + dashLength) totalLength
    some <| .next {
      pos := nextPos
      dashIndex := s.dashIndex + 1
      cuts :=
        if s.dashIndex % 2 = 0 then
          s.cuts ++ [(s.pos / totalLength, nextPos / totalLength)]
        else s.cuts }
  else some (.done s.cuts)

/-- The loop of `tessellate_stroke`. -/
def dashCuts (fuel : ℕ) (dashArray : List ℚ) (totalLength : ℚ) : Option (List (ℚ × ℚ)) :=
  loop (dashRound dashArray totalLength) fuel ⟨0, 0, []⟩

variable {P : Type} (length : P → ℚ) (split : P → List (ℚ × ℚ) → P)

/-- The path that `tessellate_stroke` gives to the tessellator, where `length` is the length that
the sampler measures and `split` is the path of the ranges that it splits off. -/
def strokedPath (fuel : ℕ) (dashArray : Option (List ℚ)) (path : P) : Option P :=
  match dashArray with
  | some dashArray => (dashCuts fuel dashArray (length path)).map (split path)
  | none => some path

/-! ## The pattern -/

/-- The length of an entry of the periodic pattern. -/
def entryLength (array : List ℚ) (j : ℕ) : ℚ := array.getD (j % array.length) 0

/-- Where an entry of the periodic pattern starts. -/
def entryStart (array : List ℚ) (j : ℕ) : ℚ := ∑ i ∈ Finset.range j, entryLength array i

@[simp] theorem entryStart_zero (array : List ℚ) : entryStart array 0 = 0 := by
  simp [entryStart]

theorem entryStart_succ (array : List ℚ) (j : ℕ) :
    entryStart array (j + 1) = entryStart array j + entryLength array j :=
  Finset.sum_range_succ _ _

/-- The ranges of the path that the even entries before the given one cover. -/
def evenRanges (array : List ℚ) (totalLength : ℚ) (n : ℕ) : List (ℚ × ℚ) :=
  ((List.range n).filter (· % 2 = 0)).map fun j =>
    (entryStart array j / totalLength, min (entryStart array (j + 1)) totalLength / totalLength)

theorem evenRanges_succ (array : List ℚ) (totalLength : ℚ) (n : ℕ) :
    evenRanges array totalLength (n + 1) =
      if n % 2 = 0 then
        evenRanges array totalLength n ++ [(entryStart array n / totalLength,
          min (entryStart array (n + 1)) totalLength / totalLength)]
      else evenRanges array totalLength n := by
  rw [evenRanges, List.range_succ, List.filter_append, List.map_append]
  split_ifs with hn <;> simp [evenRanges, hn]

/-- The cut ranges are those of the even entries of the pattern: in order, apart and within the
path. -/
structure CutsPattern (array : List ℚ) (totalLength : ℚ) (cuts : List (ℚ × ℚ)) : Prop where
  entries : ∃ n, (∀ j < n, entryStart array j < totalLength) ∧
    totalLength ≤ entryStart array n ∧ cuts = evenRanges array totalLength n
  covered : ∀ x, 0 ≤ x → x < totalLength →
    ((∃ cut ∈ cuts, cut.1 ≤ x / totalLength ∧ x / totalLength < cut.2) ↔
      ∃ j, j % 2 = 0 ∧ entryStart array j ≤ x ∧ x < entryStart array (j + 1))
  ordered : cuts.Pairwise fun cut cut' => cut.2 ≤ cut'.1
  within : ∀ cut ∈ cuts, 0 ≤ cut.1 ∧ cut.1 ≤ cut.2 ∧ cut.2 ≤ 1

/-- The loop ends without a panic; it cuts the pattern out of the path, and the path is drawn as
it is where there is no pattern. -/
def DrawsDashes (array : List ℚ) (path : P) : Prop :=
  ∃ fuel cuts, dashCuts fuel (dashArray array) (length path) = some cuts ∧
    (0 < array.sum → CutsPattern array (length path) cuts) ∧
    (array.sum = 0 → strokedPath length split fuel (some (dashArray array)) path =
      strokedPath length split fuel none path)

/-! ## The entries -/

section Entries

variable {array : List ℚ}

/-- The repeated array has the same pattern. -/
theorem dashArray_getElem? (hne : array ≠ []) (j : ℕ) :
    (dashArray array)[j % (dashArray array).length]? = some (entryLength array j) := by
  have hpos : 0 < array.length := List.length_pos_iff.mpr hne
  have hentry : ∀ i < array.length, array[i]? = some (array.getD i 0) := by
    intro i hi
    rw [List.getD_eq_getElem?_getD, List.getElem?_eq_getElem hi, Option.getD_some]
  unfold dashArray entryLength
  split_ifs with hodd
  · rw [List.length_append]
    have hmod : j % (array.length + array.length) % array.length = j % array.length :=
      Nat.mod_mod_of_dvd j ⟨2, by omega⟩
    have hlt : j % (array.length + array.length) < array.length + array.length :=
      Nat.mod_lt _ (by omega)
    by_cases hleft : j % (array.length + array.length) < array.length
    · rw [Nat.mod_eq_of_lt hleft] at hmod
      rw [List.getElem?_append_left hleft, hmod]
      exact hentry _ (Nat.mod_lt _ hpos)
    · rw [Nat.mod_eq_sub_mod (by omega), Nat.mod_eq_of_lt (by omega)] at hmod
      rw [List.getElem?_append_right (by omega), hmod]
      exact hentry _ (Nat.mod_lt _ hpos)
  · exact hentry _ (Nat.mod_lt _ hpos)

theorem entryLength_nonneg (harray : ∀ d ∈ array, 0 ≤ d) (j : ℕ) : 0 ≤ entryLength array j := by
  rw [entryLength, List.getD_eq_getElem?_getD]
  cases hget : array[j % array.length]? with
  | none => exact le_rfl
  | some d => exact harray d (List.mem_of_getElem? hget)

/-- The array has a length exactly when one of its entries has. -/
theorem exists_pos_iff_sum_pos (harray : ∀ d ∈ array, 0 ≤ d) :
    (∃ d ∈ array, 0 < d) ↔ 0 < array.sum := by
  constructor
  · rintro ⟨d, hd, hpos⟩
    exact hpos.trans_le (List.single_le_sum harray d hd)
  · intro hsum
    by_contra! hnone
    exact hsum.ne' (List.sum_eq_zero fun d hd => le_antisymm (hnone d hd) (harray d hd))

theorem entryStart_mono (harray : ∀ d ∈ array, 0 ≤ d) : Monotone (entryStart array) := by
  refine monotone_nat_of_le_succ fun j => ?_
  rw [entryStart_succ]
  exact le_add_of_nonneg_right (entryLength_nonneg harray j)

theorem entryStart_nonneg (harray : ∀ d ∈ array, 0 ≤ d) (j : ℕ) : 0 ≤ entryStart array j := by
  have h := entryStart_mono harray (Nat.zero_le j)
  rwa [entryStart_zero] at h

theorem sum_range_getD (array : List ℚ) :
    ∑ i ∈ Finset.range array.length, array.getD i 0 = array.sum := by
  induction array with
  | nil => rfl
  | cons d array ih =>
    rw [List.length_cons, Finset.sum_range_succ', List.sum_cons, add_comm]
    simp only [List.getD_cons_zero, List.getD_cons_succ, ih]

/-- Each time the array has been laid, the pattern is further by the sum of the array. -/
theorem entryStart_mul (array : List ℚ) (k : ℕ) :
    entryStart array (k * array.length) = k * array.sum := by
  induction k with
  | zero => simp
  | succ k ih =>
    have hround : ∑ i ∈ Finset.range array.length, entryLength array (k * array.length + i) =
        array.sum := by
      rw [← sum_range_getD]
      refine Finset.sum_congr rfl fun i hi => ?_
      rw [entryLength, Nat.mul_add_mod_of_lt (Finset.mem_range.mp hi)]
    rw [Nat.succ_mul, entryStart, Finset.sum_range_add, hround, ← entryStart, ih]
    push_cast
    ring

/-- The pattern passes the end of any path. -/
theorem exists_entryStart_ge (hsum : 0 < array.sum) (totalLength : ℚ) :
    ∃ n, totalLength ≤ entryStart array n := by
  obtain ⟨k, hk⟩ := Archimedean.arch totalLength hsum
  refine ⟨k * array.length, ?_⟩
  rwa [entryStart_mul, ← nsmul_eq_mul]

/-- The first entry that starts at or after the end of the path. -/
theorem exists_first_entry (hsum : 0 < array.sum) (totalLength : ℚ) :
    ∃ n, (∀ j < n, entryStart array j < totalLength) ∧ totalLength ≤ entryStart array n := by
  classical
  have hexists := exists_entryStart_ge hsum totalLength
  exact ⟨Nat.find hexists, fun j hj => not_le.mp (Nat.find_min hexists hj),
    Nat.find_spec hexists⟩

end Entries

/-! ## The ranges of the pattern -/

section Ranges

variable {array : List ℚ} {totalLength : ℚ} {n : ℕ}

theorem mem_evenRanges {cut : ℚ × ℚ} :
    cut ∈ evenRanges array totalLength n ↔ ∃ j < n, j % 2 = 0 ∧
      (entryStart array j / totalLength,
        min (entryStart array (j + 1)) totalLength / totalLength) = cut := by
  simp [evenRanges, and_assoc]

theorem evenRanges_within (harray : ∀ d ∈ array, 0 ≤ d)
    (hbefore : ∀ j < n, entryStart array j < totalLength) {cut : ℚ × ℚ}
    (hcut : cut ∈ evenRanges array totalLength n) : 0 ≤ cut.1 ∧ cut.1 ≤ cut.2 ∧ cut.2 ≤ 1 := by
  obtain ⟨j, hj, -, rfl⟩ := mem_evenRanges.mp hcut
  have hstart := entryStart_nonneg harray j
  have hlt := hbefore j hj
  have htotal : 0 < totalLength := lt_of_le_of_lt hstart hlt
  refine ⟨div_nonneg hstart htotal.le, ?_, ?_⟩
  · exact div_le_div_of_nonneg_right
      (le_min (entryStart_mono harray (Nat.le_succ j)) hlt.le) htotal.le
  · exact (div_le_one htotal).mpr (min_le_right _ _)

theorem evenRanges_ordered (harray : ∀ d ∈ array, 0 ≤ d)
    (hbefore : ∀ j < n, entryStart array j < totalLength) :
    (evenRanges array totalLength n).Pairwise fun cut cut' => cut.2 ≤ cut'.1 := by
  rw [evenRanges, List.pairwise_map]
  refine (List.pairwise_lt_range.filter _).imp_of_mem ?_
  intro i j _ hj hij
  have hjn := List.mem_range.mp (List.mem_of_mem_filter hj)
  have hlt := hbefore j hjn
  have htotal : 0 < totalLength := lt_of_le_of_lt (entryStart_nonneg harray j) hlt
  refine div_le_div_of_nonneg_right ?_ htotal.le
  exact (min_le_left _ _).trans (entryStart_mono harray hij)

theorem evenRanges_covered (harray : ∀ d ∈ array, 0 ≤ d)
    (hafter : totalLength ≤ entryStart array n) {x : ℚ} (hx : 0 ≤ x) (hxtotal : x < totalLength) :
    (∃ cut ∈ evenRanges array totalLength n,
        cut.1 ≤ x / totalLength ∧ x / totalLength < cut.2) ↔
      ∃ j, j % 2 = 0 ∧ entryStart array j ≤ x ∧ x < entryStart array (j + 1) := by
  have htotal : 0 < totalLength := lt_of_le_of_lt hx hxtotal
  constructor
  · rintro ⟨cut, hcut, hle, hlt⟩
    obtain ⟨j, -, heven, rfl⟩ := mem_evenRanges.mp hcut
    refine ⟨j, heven, (div_le_div_iff_of_pos_right htotal).mp hle, ?_⟩
    exact lt_of_lt_of_le ((div_lt_div_iff_of_pos_right htotal).mp hlt) (min_le_left _ _)
  · rintro ⟨j, heven, hle, hlt⟩
    have hj : j < n := by
      by_contra hnj
      have hmono := entryStart_mono harray (not_lt.mp hnj)
      linarith
    refine ⟨_, mem_evenRanges.mpr ⟨j, hj, heven, rfl⟩, ?_, ?_⟩
    · exact (div_le_div_iff_of_pos_right htotal).mpr hle
    · exact (div_lt_div_iff_of_pos_right htotal).mpr (lt_min hlt hxtotal)

theorem evenRanges_cutsPattern (harray : ∀ d ∈ array, 0 ≤ d)
    (hbefore : ∀ j < n, entryStart array j < totalLength)
    (hafter : totalLength ≤ entryStart array n) :
    CutsPattern array totalLength (evenRanges array totalLength n) where
  entries := ⟨n, hbefore, hafter, rfl⟩
  covered _ hx hxtotal := evenRanges_covered harray hafter hx hxtotal
  ordered := evenRanges_ordered harray hbefore
  within _ hcut := evenRanges_within harray hbefore hcut

end Ranges

/-! ## The loop -/

section Loop

variable {array : List ℚ} {totalLength : ℚ} {n : ℕ}

/-- Between the rounds: the ranges of the entries before the current one are cut, and the walk is
at the start of this one or, behind the last one, at the end of the path. -/
structure DashState.Cut (array : List ℚ) (totalLength : ℚ) (n : ℕ) (s : DashState) : Prop where
  index_le : s.dashIndex ≤ n
  at_entry : s.dashIndex < n → s.pos = entryStart array s.dashIndex
  at_end : s.dashIndex = n → totalLength ≤ s.pos
  cuts_eq : s.cuts = evenRanges array totalLength s.dashIndex

/-- A round lays one entry. -/
theorem dashRound_of_lt {s : DashState} (hne : array ≠ []) (hpos : s.pos < totalLength) :
    dashRound (dashArray array) totalLength s = some (.next {
      pos := min (s.pos + entryLength array s.dashIndex) totalLength
      dashIndex := s.dashIndex + 1
      cuts :=
        if s.dashIndex % 2 = 0 then
          s.cuts ++ [(s.pos / totalLength,
            min (s.pos + entryLength array s.dashIndex) totalLength / totalLength)]
        else s.cuts }) := by
  rw [dashRound, if_pos hpos, dashArray_getElem? hne]
  rfl

theorem dashRound_advances (hne : array ≠ [])
    (hbefore : ∀ j < n, entryStart array j < totalLength)
    (hafter : totalLength ≤ entryStart array n) (s : DashState)
    (hs : s.Cut array totalLength n) :
    Advances (DashState.Cut array totalLength n) (fun s => n - s.dashIndex)
      (· = evenRanges array totalLength n) (n - s.dashIndex)
      (dashRound (dashArray array) totalLength s) := by
  obtain hlt | heq := hs.index_le.lt_or_eq
  · have hpos : s.pos < totalLength := by
      rw [hs.at_entry hlt]
      exact hbefore _ hlt
    have hnext : s.pos + entryLength array s.dashIndex = entryStart array (s.dashIndex + 1) := by
      rw [entryStart_succ, hs.at_entry hlt]
    rw [dashRound_of_lt hne hpos, hnext]
    refine ⟨⟨hlt, fun hlt' => ?_, fun heq => ?_, ?_⟩, by dsimp only; omega⟩
    · exact min_eq_left (hbefore _ hlt').le
    · have hend : entryStart array (s.dashIndex + 1) = entryStart array n := congrArg _ heq
      dsimp only
      rw [hend, min_eq_right hafter]
    · dsimp only
      rw [evenRanges_succ, hs.cuts_eq, hs.at_entry hlt]
  · have hpos : ¬ s.pos < totalLength := not_lt.mpr (hs.at_end heq)
    rw [dashRound, if_neg hpos]
    exact hs.cuts_eq.trans (by rw [heq])

/-- Where the pattern leads on, the loop ends with its ranges. -/
theorem exists_dashCuts (hsum : 0 < array.sum) (totalLength : ℚ) :
    ∃ fuel n, (∀ j < n, entryStart array j < totalLength) ∧ totalLength ≤ entryStart array n ∧
      dashCuts fuel (dashArray array) totalLength = some (evenRanges array totalLength n) := by
  have hne : array ≠ [] := by
    rintro rfl
    exact lt_irrefl _ hsum
  obtain ⟨n, hbefore, hafter⟩ := exists_first_entry hsum totalLength
  have hinit : DashState.Cut array totalLength n ⟨0, 0, []⟩ := by
    refine ⟨Nat.zero_le n, fun _ => by simp, fun hn => ?_, rfl⟩
    have hn : n = 0 := hn.symm
    rwa [hn, entryStart_zero] at hafter
  obtain ⟨cuts, hcuts, rfl⟩ := loop_of_advances (DashState.Cut array totalLength n)
    (fun s => n - s.dashIndex) (dashRound_advances hne hbefore hafter) hinit
    (Nat.lt_succ_self _)
  exact ⟨_, n, hbefore, hafter, hcuts⟩

/-- Where it does not, the loop of a path with a length panics or does not end. -/
theorem dashCuts_eq_none (harray : ∀ d ∈ array, 0 ≤ d) (hsum : array.sum = 0)
    (htotal : 0 < totalLength) (fuel : ℕ) :
    dashCuts fuel (dashArray array) totalLength = none := by
  have hzero : ∀ d ∈ array, d = 0 := by
    intro d hd
    exact le_antisymm (hsum ▸ List.single_le_sum harray d hd) (harray d hd)
  have hentry (j : ℕ) : entryLength array j = 0 := by
    rw [entryLength, List.getD_eq_getElem?_getD]
    cases hget : array[j % array.length]? with
    | none => rfl
    | some d => exact hzero d (List.mem_of_getElem? hget)
  cases hcuts : dashCuts fuel (dashArray array) totalLength with
  | none => rfl
  | some cuts =>
    -- the walk stays at the start of the path
    have hround (s : DashState) (round : Round DashState (List (ℚ × ℚ))) (hpos : s.pos = 0)
        (hround : dashRound (dashArray array) totalLength s = some round) :
        round.Leaves (fun s => s.pos = 0) fun _ => False := by
      have hlt : s.pos < totalLength := hpos ▸ htotal
      by_cases hne : array = []
      · subst hne
        rw [dashRound, if_pos hlt] at hround
        cases hround
      · rw [dashRound_of_lt hne hlt] at hround
        obtain rfl := Option.some.inj hround
        simp only [Round.Leaves, hentry, hpos, add_zero, min_eq_left htotal.le]
    exact (loop_leaves hround rfl hcuts).elim

/-- A path without length is not walked. -/
theorem dashCuts_of_le (array : List ℚ) (htotal : totalLength ≤ 0) (fuel : ℕ) :
    dashCuts (fuel + 1) array totalLength = some [] := by
  rw [dashCuts, loop, dashRound, if_neg (not_lt.mpr htotal)]

end Loop

/-! ## Where the dashes are right -/

/-- Dashes are drawn exactly where some entry of the array has a length, or where the path has
none and is left by cutting nothing out of it. -/
theorem drawsDashes_iff {array : List ℚ} (harray : ∀ d ∈ array, 0 ≤ d) (path : P) :
    DrawsDashes length split array path ↔
      (∃ d ∈ array, 0 < d) ∨ length path ≤ 0 ∧ split path [] = path := by
  rw [exists_pos_iff_sum_pos harray]
  constructor
  · rintro ⟨fuel, cuts, hcuts, -, hundashed⟩
    by_cases hpos : 0 < array.sum
    · exact Or.inl hpos
    · have hzero : array.sum = 0 := le_antisymm (not_lt.mp hpos) (List.sum_nonneg harray)
      have htotal : length path ≤ 0 := by
        by_contra htotal
        rw [dashCuts_eq_none harray hzero (not_le.mp htotal)] at hcuts
        cases hcuts
      cases fuel with
      | zero => cases hcuts
      | succ fuel =>
        have hsame := hundashed hzero
        simp only [strokedPath, dashCuts_of_le _ htotal, Option.map_some,
          Option.some.injEq] at hsame
        exact Or.inr ⟨htotal, hsame⟩
  · rintro (hpos | ⟨htotal, hsame⟩)
    · obtain ⟨fuel, n, hbefore, hafter, hcuts⟩ := exists_dashCuts hpos (length path)
      exact ⟨fuel, _, hcuts, fun _ => evenRanges_cutsPattern harray hbefore hafter,
        fun hzero => absurd hzero hpos.ne'⟩
    · refine ⟨1, [], dashCuts_of_le _ htotal 0, fun _ => ?_, fun _ => ?_⟩
      · exact evenRanges_cutsPattern (n := 0) harray (fun j hj => absurd hj (Nat.not_lt_zero j))
          (by rwa [entryStart_zero])
      · simp only [strokedPath, dashCuts_of_le _ htotal, Option.map_some, hsame]

/-- A path of length ten, given by the ranges of it that are drawn, with an array of three
lengths. -/
theorem drawsDashes_threeLengths :
    (∀ d ∈ [(5 : ℚ), 3, 2], 0 ≤ d) ∧
      DrawsDashes (fun _ : List (ℚ × ℚ) => 10) (fun _ cuts => cuts) [5, 3, 2] [(0, 1)] := by
  have harray : ∀ d ∈ [(5 : ℚ), 3, 2], 0 ≤ d := by simp
  exact ⟨harray, (drawsDashes_iff _ _ harray _).mpr (Or.inl ⟨5, by simp, by norm_num⟩)⟩

/-- The same path with an empty array, and with one without length. -/
theorem not_drawsDashes_empty :
    ¬ DrawsDashes (fun _ : List (ℚ × ℚ) => 10) (fun _ cuts => cuts) [] [(0, 1)] ∧
      ¬ DrawsDashes (fun _ : List (ℚ × ℚ) => 10) (fun _ cuts => cuts) [0, 0] [(0, 1)] := by
  constructor
  · rintro ⟨fuel, cuts, hcuts, -⟩
    rw [dashCuts_eq_none (by simp) rfl (by norm_num)] at hcuts
    cases hcuts
  · rintro ⟨fuel, cuts, hcuts, -⟩
    rw [dashCuts_eq_none (by simp) (by simp) (by norm_num)] at hcuts
    cases hcuts

end Lucie.PathBuilder
