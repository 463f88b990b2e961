import Mathlib

/-!
# The line at an offset

The lines of a layout are one below the other. The line at an offset is found by halving the number
of lines in which it can be, without comparing for equality before the end.
-/

set_option autoImplicit false

namespace Lucie

/-- The extent of a line, from `LineMetrics`. -/
structure LineExtent (U : Type) where
  blockMinCoord : U
  blockMaxCoord : U
  deriving DecidableEq

namespace LineExtent

variable {U : Type} [LinearOrder U]

/-- The half-open extent of the line. -/
def Contains (line : LineExtent U) (offset : U) : Prop :=
  line.blockMinCoord ≤ offset ∧ offset < line.blockMaxCoord

/-- The comparison of a line with an offset in `Layout::line_for_offset`. -/
def cmp (line : LineExtent U) (offset : U) : Ordering :=
  if offset < line.blockMinCoord then .gt
  else if offset ≥ line.blockMaxCoord then .lt
  else .eq

theorem cmp_eq_gt_iff {line : LineExtent U} {offset : U} :
    line.cmp offset = .gt ↔ offset < line.blockMinCoord := by
  unfold cmp
  split_ifs with hmin hmax
  · exact iff_of_true rfl hmin
  · exact iff_of_false (by decide) hmin
  · exact iff_of_false (by decide) hmin

end LineExtent

namespace Layout

variable {U : Type} [LinearOrder U]

/-- The loop of `Layout::line_for_offset`. It ends early if there is no such line. -/
def searchLines (lines : List (LineExtent U)) (offset : U) (base size : ℕ) : Option ℕ :=
  if size > 1 then
    let half := size / 2
    let mid := base + half
    match lines[mid]? with
    | none => none
    | some line =>
      searchLines lines offset (if line.cmp offset = .gt then base else mid) (size - half)
  else some base
termination_by size
decreasing_by omega

/-- `Layout::line_for_offset`. -/
def lineForOffset [Zero U] (lines : List (LineExtent U)) (offset : U) : Option ℕ :=
  if offset < 0 then some 0
  else if lines.length = 0 then none
  else do
    let base ← searchLines lines offset 0 lines.length
    let line ← lines[base]?
    let cmp := line.cmp offset
    some (if cmp = .eq then base else base + (if cmp = .lt then 1 else 0) - 1)

/-! ## Lines one below the other -/

/-- The lines follow each other from zero on, and none has a negative height. -/
structure Contiguous [Zero U] (lines : List (LineExtent U)) : Prop where
  first : ∀ line ∈ lines.head?, line.blockMinCoord = 0
  consecutive : lines.IsChain fun line next => next.blockMinCoord = line.blockMaxCoord
  ordered : ∀ line ∈ lines, line.blockMinCoord ≤ line.blockMaxCoord

/-- The line at an offset: the one that contains it, and the first or the last one if there is
none before or after. -/
structure IsLineFor [Zero U] (lines : List (LineExtent U)) (last : LineExtent U) (offset : U)
    (index : ℕ) : Prop where
  before : offset < 0 → index = 0
  inside : 0 ≤ offset → offset < last.blockMaxCoord →
    ∀ i, (∃ line, lines[i]? = some line ∧ line.Contains offset) ↔ i = index
  behind : last.blockMaxCoord ≤ offset → index = lines.length - 1

variable {lines : List (LineExtent U)} {offset : U}

/-- What `searchLines` keeps: the line at the base does not begin after the offset, and the lines
behind the ones that are left do. -/
structure SearchInvariant (lines : List (LineExtent U)) (offset : U) (base size : ℕ) : Prop where
  pos : 0 < size
  le_length : base + size ≤ lines.length
  base_le : ∀ line, lines[base]? = some line → line.blockMinCoord ≤ offset
  lt_behind : ∀ i line, base + size ≤ i → lines[i]? = some line → offset < line.blockMinCoord

namespace Contiguous

variable [Zero U] (h : Contiguous lines)

include h

/-- A line ends before each line below it begins. -/
theorem blockMax_le {i j : ℕ} {line line' : LineExtent U} (hlt : i < j)
    (hline : lines[i]? = some line) (hline' : lines[j]? = some line') :
    line.blockMaxCoord ≤ line'.blockMinCoord := by
  induction j, hlt using Nat.le_induction generalizing line' with
  | base =>
    obtain ⟨hi, rfl⟩ := List.getElem?_eq_some_iff.mp hline
    obtain ⟨hi', rfl⟩ := List.getElem?_eq_some_iff.mp hline'
    exact (List.isChain_iff_getElem.mp h.consecutive i hi').ge
  | succ j hlt ih =>
    obtain ⟨hj', rfl⟩ := List.getElem?_eq_some_iff.mp hline'
    have hj : j < lines.length := by omega
    have hle := ih (List.getElem?_eq_getElem hj)
    have hnext := List.isChain_iff_getElem.mp h.consecutive j hj'
    rw [hnext]
    exact hle.trans (h.ordered _ (List.getElem_mem hj))

theorem blockMin_le {i j : ℕ} {line line' : LineExtent U} (hle : i ≤ j)
    (hline : lines[i]? = some line) (hline' : lines[j]? = some line') :
    line.blockMinCoord ≤ line'.blockMinCoord := by
  rcases hle.eq_or_lt with rfl | hlt
  · rw [hline] at hline'
    exact (congrArg LineExtent.blockMinCoord (Option.some.inj hline')).le
  · exact (h.ordered _ (List.mem_of_getElem? hline)).trans (h.blockMax_le hlt hline hline')

/-- The search ends with one line left. -/
theorem searchLines_spec {base size : ℕ} (hinv : SearchInvariant lines offset base size) :
    ∃ index, searchLines lines offset base size = some index ∧
      SearchInvariant lines offset index 1 := by
  induction size using Nat.strong_induction_on generalizing base with
  | _ size ih =>
    obtain ⟨hpos, hlen, hbase, hbehind⟩ := hinv
    rw [searchLines]
    by_cases hsize : size > 1
    · have hmid : base + size / 2 < lines.length := by omega
      have hline := List.getElem?_eq_getElem hmid
      rw [if_pos hsize]
      dsimp only
      rw [hline]
      dsimp only
      refine ih (size - size / 2) (by omega) ?_
      by_cases hgt : lines[base + size / 2].cmp offset = .gt
      · -- the offset is before the line in the middle, and before those behind it
        rw [if_pos hgt]
        have hlt := LineExtent.cmp_eq_gt_iff.mp hgt
        refine ⟨by omega, by omega, hbase, fun i line hi hget => ?_⟩
        exact hlt.trans_le (h.blockMin_le (by omega) hline hget)
      · rw [if_neg hgt]
        have hle := not_lt.mp fun hlt => hgt (LineExtent.cmp_eq_gt_iff.mpr hlt)
        refine ⟨by omega, by omega, fun line hget => ?_, fun i line hi hget => ?_⟩
        · rw [hline] at hget
          obtain rfl := Option.some.inj hget
          exact hle
        · exact hbehind i line (by omega) hget
    · have hone : size = 1 := by omega
      subst hone
      rw [if_neg hsize]
      exact ⟨base, rfl, hpos, hlen, hbase, hbehind⟩

/-- Every line is before the end of the last one. -/
theorem blockMax_le_last {i : ℕ} {line : LineExtent U} (hne : lines ≠ [])
    (hline : lines[i]? = some line) : line.blockMaxCoord ≤ (lines.getLast hne).blockMaxCoord := by
  obtain ⟨hi, -⟩ := List.getElem?_eq_some_iff.mp hline
  have hlast : lines[lines.length - 1]? = some (lines.getLast hne) := by
    rw [← List.getLast?_eq_getElem?, List.getLast?_eq_some_getLast hne]
  rcases Nat.lt_or_ge i (lines.length - 1) with hlt | hge
  · exact (h.blockMax_le hlt hline hlast).trans (h.ordered _ (List.getLast_mem hne))
  · have hindex : i = lines.length - 1 := by omega
    rw [hindex, hlast] at hline
    exact (congrArg LineExtent.blockMaxCoord (Option.some.inj hline)).ge

theorem searchInvariant (hne : lines ≠ []) (hoffset : 0 ≤ offset) :
    SearchInvariant lines offset 0 lines.length where
  pos := List.length_pos_iff.mpr hne
  le_length := by omega
  base_le line hline := by
    rw [h.first line (by rwa [List.head?_eq_getElem?])]
    exact hoffset
  lt_behind i line hi hline := by
    obtain ⟨hlt, -⟩ := List.getElem?_eq_some_iff.mp hline
    omega

/-- The line that is left contains the offset, or it is the last one and ends before it. -/
theorem isLineFor_of_searchInvariant (hne : lines ≠ []) (hoffset : 0 ≤ offset) {index : ℕ}
    {line : LineExtent U} (hinv : SearchInvariant lines offset index 1)
    (hline : lines[index]? = some line) :
    IsLineFor lines (lines.getLast hne) offset index := by
  have hbase := hinv.base_le line hline
  have hlength := hinv.le_length
  refine ⟨fun hneg => absurd hneg (not_lt.mpr hoffset), fun _ hend i => ?_, fun hend => ?_⟩
  · -- a line that ended before the offset would be the last one
    have hcontains : line.Contains offset := by
      refine ⟨hbase, not_le.mp fun hmax => ?_⟩
      rcases Nat.lt_or_ge (index + 1) lines.length with hlt | hge
      · have hget := List.getElem?_eq_getElem hlt
        obtain ⟨hindex, rfl⟩ := List.getElem?_eq_some_iff.mp hline
        have hnext := List.isChain_iff_getElem.mp h.consecutive index hlt
        have hbehind := hinv.lt_behind (index + 1) _ le_rfl hget
        rw [hnext] at hbehind
        exact absurd hbehind (not_lt.mpr hmax)
      · have hindex : index = lines.length - 1 := by omega
        have hlast : line = lines.getLast hne := by
          rw [hindex, ← List.getLast?_eq_getElem?, List.getLast?_eq_some_getLast hne] at hline
          exact (Option.some.inj hline).symm
        rw [hlast] at hmax
        exact absurd hend (not_lt.mpr hmax)
    constructor
    · rintro ⟨line', hline', hmin, hmax⟩
      rcases Nat.lt_trichotomy i index with hlt | hequal | hlt
      · exact absurd hmax (not_lt.mpr ((h.blockMax_le hlt hline' hline).trans hbase))
      · exact hequal
      · exact absurd (hinv.lt_behind i line' hlt hline') (not_lt.mpr hmin)
    · rintro rfl
      exact ⟨line, hline, hcontains⟩
  · by_contra hindex
    have hlt : index + 1 < lines.length := by omega
    have hbehind := hinv.lt_behind (index + 1) _ le_rfl (List.getElem?_eq_getElem hlt)
    have hlast := (h.ordered _ (List.getElem_mem hlt)).trans
      (h.blockMax_le_last hne (List.getElem?_eq_getElem hlt))
    exact absurd (hbehind.trans_le hlast) (not_lt.mpr hend)

end Contiguous

/-- The search returns the line at the offset. -/
theorem lineForOffset_isLineFor [Zero U] (hne : lines ≠ []) (h : Contiguous lines) (offset : U) :
    ∃ index, lineForOffset lines offset = some index ∧
      IsLineFor lines (lines.getLast hne) offset index := by
  unfold lineForOffset
  by_cases hneg : offset < 0
  · rw [if_pos hneg]
    refine ⟨0, rfl, fun _ => rfl, fun hoffset => absurd hneg (not_lt.mpr hoffset), fun hend => ?_⟩
    -- no line ends before zero
    obtain ⟨line, hhead⟩ := Option.isSome_iff_exists.mp (List.isSome_head?.mpr hne)
    have hline : lines[0]? = some line := by rwa [← List.head?_eq_getElem?]
    have hmax := (h.ordered line (List.mem_of_getElem? hline)).trans (h.blockMax_le_last hne hline)
    rw [h.first line hhead] at hmax
    exact absurd (hmax.trans hend) (not_le.mpr hneg)
  · have hlength : lines.length ≠ 0 := (List.length_pos_iff.mpr hne).ne'
    have hoffset := not_lt.mp hneg
    rw [if_neg hneg, if_neg hlength]
    obtain ⟨index, hsearch, hinv⟩ := h.searchLines_spec (h.searchInvariant hne hoffset)
    have hindex : index < lines.length := hinv.le_length
    have hline := List.getElem?_eq_getElem hindex
    have hresult : (if lines[index].cmp offset = .eq then index
        else index + (if lines[index].cmp offset = .lt then 1 else 0) - 1) = index := by
      have hgt : lines[index].cmp offset ≠ .gt := fun hgt =>
        not_lt.mpr (hinv.base_le _ hline) (LineExtent.cmp_eq_gt_iff.mp hgt)
      cases hcmp : lines[index].cmp offset with
      | lt => rfl
      | eq => rfl
      | gt => exact absurd hcmp hgt
    refine ⟨index, ?_, h.isLineFor_of_searchInvariant hne hoffset hinv hline⟩
    rw [hsearch, Option.bind_eq_bind, Option.bind_some, hline, Option.bind_eq_bind,
      Option.bind_some]
    exact congrArg some hresult

/-- Three lines, the one in the middle without a height. -/
def threeLines : List (LineExtent ℤ) := [⟨0, 10⟩, ⟨10, 10⟩, ⟨10, 25⟩]

theorem lineForOffset_three :
    ∃ index, lineForOffset threeLines 10 = some index ∧
      IsLineFor threeLines ⟨10, 25⟩ 10 index :=
  have hne : threeLines ≠ [] := by decide
  lineForOffset_isLineFor hne ⟨by decide, by decide, by decide⟩ 10

end Layout

end Lucie
