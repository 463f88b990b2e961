import Lucie.Color.Hsla
import Lucie.Geometry.Bounds

/-!
# Where glyphs are placed

A glyph is placed at a pixel and, horizontally, at one of the four quarters of it. To look the same
after it has been scrolled by whole pixels, it has to be rounded the same way wherever it is.
Horizontally it is rounded to the nearest quarter, and halfway between two quarters away from
zero; vertically it is rounded toward zero. So a glyph that is scrolled past zero may move by
another amount.
-/

set_option autoImplicit false

namespace Lucie

/-- `SubpixelVariant`. -/
inductive SubpixelVariant
  | zero
  | oneQuarter
  | half
  | threeQuarters
  deriving DecidableEq

/-- An `i32`; outside of its range the arithmetic overflows. -/
def checkedI32 (n : ℤ) : Option ℤ := if -2 ^ 31 ≤ n ∧ n < 2 ^ 31 then some n else none

namespace SubpixelVariant

/-- `SubpixelVariant::from_pos`. -/
def fromPos (pos : ℚ) : Option (ℤ × SubpixelVariant) :=
  let trunc := asI32 pos
  let fract := pos - trunc
  if pos < 0 then
    if fract > -1 / 8 then some (trunc, zero)
    else if fract > -3 / 8 then (checkedI32 (trunc - 1)).map (·, threeQuarters)
    else if fract > -5 / 8 then (checkedI32 (trunc - 1)).map (·, half)
    else if fract > -7 / 8 then (checkedI32 (trunc - 1)).map (·, oneQuarter)
    else (checkedI32 (trunc - 1)).map (·, zero)
  else
    if fract < 1 / 8 then some (trunc, zero)
    else if fract < 3 / 8 then some (trunc, oneQuarter)
    else if fract < 5 / 8 then some (trunc, half)
    else if fract < 7 / 8 then some (trunc, threeQuarters)
    else (checkedI32 (trunc + 1)).map (·, zero)

/-- `SubpixelVariant::offset`. -/
def offset : SubpixelVariant → ℚ
  | zero => 0
  | oneQuarter => 1 / 4
  | half => 1 / 2
  | threeQuarters => 3 / 4

end SubpixelVariant

/-- `parley::Glyph`. -/
structure ParleyGlyph where
  id : ℕ
  x : ℚ
  y : ℚ
  advance : ℚ
  deriving DecidableEq

/-- `PositionedGlyph`, with any data of its run. -/
structure PositionedGlyph (R : Type) where
  id : ℕ
  runData : R
  subpixelVariant : SubpixelVariant
  origin : Point ℤ
  advance : ℚ
  deriving DecidableEq

namespace PositionedGlyph

variable {R : Type}

/-- `PositionedGlyph::from_parley`. -/
def fromParley (runData : R) (glyph : ParleyGlyph) (origin : Point ℚ) :
    Option (PositionedGlyph R) :=
  let x := glyph.x + origin.x
  let y := glyph.y + origin.y
  (SubpixelVariant.fromPos x).map fun (x, subpixelVariant) =>
    ⟨glyph.id, runData, subpixelVariant, ⟨x, asI32 y⟩, glyph.advance⟩

/-- The glyph a number of pixels further. -/
def moved (g : PositionedGlyph R) (d : Point ℤ) : PositionedGlyph R :=
  { g with origin := ⟨g.origin.x + d.x, g.origin.y + d.y⟩ }

end PositionedGlyph

/-! ## Quarters of a pixel -/

/-- The number of quarters that is nearest, and further from zero if there are two. -/
def nearestQuarter (x : ℚ) : ℤ := if x < 0 then ⌈4 * x - 1 / 2⌉ else ⌊4 * x + 1 / 2⌋

/-- The pixel and the quarter of it. -/
def ofQuarters (q : ℤ) : ℤ × SubpixelVariant :=
  (q / 4, match q % 4 with
    | 1 => .oneQuarter
    | 2 => .half
    | 3 => .threeQuarters
    | _ => .zero)

/-- Halfway between two quarters. -/
def IsTie (x : ℚ) : Prop := ∃ k : ℤ, 8 * x = 2 * k + 1

/-- The nearest quarter is in a pixel of its type. -/
def InPixels (x : ℚ) : Prop := -2 ^ 31 - 1 / 8 < x ∧ x < 2 ^ 31 - 1 / 8

instance (x : ℚ) : Decidable (InPixels x) := inferInstanceAs (Decidable (_ ∧ _))

theorem ofQuarters_add (n : ℤ) {k : ℤ} (hpos : 0 ≤ k) (hlt : k < 4) :
    ofQuarters (4 * n + k) = (n, (ofQuarters k).2) := by
  have hdiv : (4 * n + k) / 4 = n := by omega
  have hmod : (4 * n + k) % 4 = k % 4 := by omega
  rw [ofQuarters, hdiv, hmod]
  rfl

theorem ofQuarters_move (q d : ℤ) :
    ofQuarters (q + 4 * d) = ((ofQuarters q).1 + d, (ofQuarters q).2) := by
  have hdiv : (q + 4 * d) / 4 = q / 4 + d := by omega
  have hmod : (q + 4 * d) % 4 = q % 4 := by omega
  rw [ofQuarters, hdiv, hmod]
  rfl

/-- The pixel with the offset of the quarter. -/
theorem ofQuarters_offset (q : ℤ) :
    ((ofQuarters q).1 : ℚ) + (ofQuarters q).2.offset = q / 4 := by
  have hdiv : (q : ℚ) = 4 * (q / 4 : ℤ) + (q % 4 : ℤ) := by
    exact_mod_cast (Int.mul_ediv_add_emod q 4).symm
  have hpos := Int.emod_nonneg q (by decide : (4 : ℤ) ≠ 0)
  have hlt := Int.emod_lt_of_pos q (by decide : (0 : ℤ) < 4)
  have hcases : q % 4 = 0 ∨ q % 4 = 1 ∨ q % 4 = 2 ∨ q % 4 = 3 := by omega
  rcases hcases with hmod | hmod | hmod | hmod
  all_goals
    rw [hmod] at hdiv
    simp only [ofQuarters, hmod, SubpixelVariant.offset]
    push_cast at hdiv
    linarith

theorem ofQuarters_injective : Function.Injective ofQuarters := by
  intro q q' hequal
  have hoffset := ofQuarters_offset q
  rw [hequal, ofQuarters_offset q'] at hoffset
  have hcast : (q' : ℚ) = q := by linarith
  exact_mod_cast hcast.symm

theorem nearestQuarter_near (x : ℚ) : |(nearestQuarter x : ℚ) / 4 - x| ≤ 1 / 8 := by
  rw [abs_le, nearestQuarter]
  split_ifs
  · have hle := Int.le_ceil (4 * x - 1 / 2)
    have hlt := Int.ceil_lt_add_one (4 * x - 1 / 2)
    constructor
    all_goals linarith
  · have hle := Int.floor_le (4 * x + 1 / 2)
    have hlt := Int.lt_floor_add_one (4 * x + 1 / 2)
    constructor
    all_goals linarith

/-- Moving by whole pixels moves the nearest quarter, unless it jumps over zero from halfway between
two quarters. -/
theorem nearestQuarter_add_iff (x : ℚ) (d : ℤ) :
    nearestQuarter (x + d) = nearestQuarter x + 4 * d ↔ ¬IsTie x ∨ (x < 0 ↔ x + d < 0) := by
  have hfloor : ⌊4 * (x + d) + 1 / 2⌋ = ⌊4 * x + 1 / 2⌋ + 4 * d := by
    have hadd : 4 * (x + d) + 1 / 2 = 4 * x + 1 / 2 + ((4 * d : ℤ) : ℚ) := by
      push_cast
      ring
    rw [hadd, Int.floor_add_intCast]
  have hceil : ⌈4 * (x + d) - 1 / 2⌉ = ⌈4 * x - 1 / 2⌉ + 4 * d := by
    have hadd : 4 * (x + d) - 1 / 2 = 4 * x - 1 / 2 + ((4 * d : ℤ) : ℚ) := by
      push_cast
      ring
    rw [hadd, Int.ceil_add_intCast]
  -- the two ways to round differ exactly at the ties
  have htie : ⌈4 * x - 1 / 2⌉ = ⌊4 * x + 1 / 2⌋ ↔ ¬IsTie x := by
    have hsub : 4 * x - 1 / 2 = 4 * x + 1 / 2 - 1 := by ring
    have hrange : IsTie x ↔ 4 * x + 1 / 2 ∈ Set.range ((↑·) : ℤ → ℚ) := by
      constructor
      · rintro ⟨k, hk⟩
        refine ⟨k + 1, ?_⟩
        push_cast
        linarith
      · rintro ⟨k, hk⟩
        refine ⟨k - 1, ?_⟩
        dsimp only at hk
        push_cast
        linarith
    rw [hsub, Int.ceil_sub_one, hrange, ← Int.ceil_eq_floor_add_one_iff_notMem]
    omega
  unfold nearestQuarter
  split_ifs with hmoved hx hx
  · exact iff_of_true hceil (.inr (iff_of_true hx hmoved))
  · rw [hceil, add_left_inj, htie]
    simp [hx, hmoved]
  · rw [hfloor, add_left_inj, eq_comm, htie]
    simp [hx, hmoved]
  · exact iff_of_true hfloor (.inr (iff_of_false hx hmoved))

/-! ## The casts -/

theorem asI32_of_nonneg {x : ℚ} (hx : 0 ≤ x) (hlt : x < 2 ^ 31) : asI32 x = ⌊x⌋ := by
  have hnonneg : 0 ≤ ⌊x⌋ := Int.floor_nonneg.mpr hx
  have hmax : ⌊x⌋ < 2 ^ 31 := Int.floor_lt.mpr (by exact_mod_cast hlt)
  rw [asI32, if_pos hx]
  omega

theorem asI32_of_neg {x : ℚ} (hx : x < 0) (hlt : -2 ^ 31 - 1 < x) : asI32 x = ⌈x⌉ := by
  have hneg : ⌈x⌉ ≤ 0 := Int.ceil_le.mpr (by exact_mod_cast hx.le)
  have hmin : -2 ^ 31 - 1 < ⌈x⌉ := Int.lt_ceil.mpr (by exact_mod_cast hlt)
  rw [asI32, if_neg (not_le.mpr hx)]
  omega

theorem asI32_of_ge {x : ℚ} (hx : 2 ^ 31 ≤ x) : asI32 x = 2 ^ 31 - 1 := by
  have hnonneg : (0 : ℚ) ≤ x := le_trans (by norm_num) hx
  have hfloor : 2 ^ 31 ≤ ⌊x⌋ := Int.le_floor.mpr (by exact_mod_cast hx)
  rw [asI32, if_pos hnonneg]
  omega

theorem asI32_of_le {x : ℚ} (hx : x ≤ -2 ^ 31 - 1) : asI32 x = -2 ^ 31 := by
  have hneg : ¬(0 : ℚ) ≤ x := not_le.mpr (lt_of_le_of_lt hx (by norm_num))
  have hceil : ⌈x⌉ ≤ -2 ^ 31 - 1 := Int.ceil_le.mpr (by exact_mod_cast hx)
  rw [asI32, if_neg hneg]
  omega

/-- The pixel and the quarter of a position in the range. -/
theorem some_ofQuarters {n k q : ℤ} {x : ℚ} (hk : 0 ≤ k) (hk' : k < 4) (hq : q = 4 * n + k)
    (hin : InPixels x) :
    some (n, (ofQuarters k).2) = if InPixels x then some (ofQuarters q) else none := by
  rw [if_pos hin, hq, ofQuarters_add n hk hk']

/-- The pixel before or after one, if the position is in the range. -/
theorem map_checkedI32 {n k q : ℤ} {x : ℚ} (hk : 0 ≤ k) (hk' : k < 4) (hq : q = 4 * n + k)
    (hin : InPixels x ↔ -2 ^ 31 ≤ n ∧ n < 2 ^ 31) :
    (checkedI32 n).map (·, (ofQuarters k).2) =
      if InPixels x then some (ofQuarters q) else none := by
  subst hq
  unfold checkedI32
  by_cases h : InPixels x
  · rw [if_pos h, if_pos (hin.mp h), ofQuarters_add n hk hk']
    rfl
  · rw [if_neg h, if_neg fun hn => h (hin.mpr hn)]
    rfl

namespace SubpixelVariant

/-- Positions from zero on are rounded to the nearest quarter. -/
theorem fromPos_of_nonneg {pos : ℚ} (hpos : 0 ≤ pos) :
    fromPos pos = if InPixels pos then some (ofQuarters ⌊4 * pos + 1 / 2⌋) else none := by
  unfold fromPos
  dsimp only
  rw [if_neg (not_lt.mpr hpos)]
  generalize hplaced : (if InPixels pos then some (ofQuarters ⌊4 * pos + 1 / 2⌋) else none) = placed
  by_cases hlt : pos < 2 ^ 31
  · rw [asI32_of_nonneg hpos hlt]
    have hle := Int.floor_le pos
    have hsucc := Int.lt_floor_add_one pos
    have hmin : 0 ≤ ⌊pos⌋ := Int.floor_nonneg.mpr hpos
    have hmax : ⌊pos⌋ < 2 ^ 31 := Int.floor_lt.mpr (by exact_mod_cast hlt)
    generalize ⌊pos⌋ = n at hle hsucc hmin hmax
    have hmax' : (n : ℚ) + 1 ≤ 2 ^ 31 := by exact_mod_cast hmax
    have hwithin {k : ℤ} (hk : 0 ≤ k) (hk' : k < 4) (hlow : (k : ℚ) / 4 - 1 / 8 ≤ pos - n)
        (hhigh : pos - n < k / 4 + 1 / 8) : some (n, (ofQuarters k).2) = placed := by
      have hquarter : ⌊4 * pos + 1 / 2⌋ = 4 * n + k := by
        rw [Int.floor_eq_iff]
        push_cast
        constructor
        all_goals linarith
      have hlast : (k : ℚ) ≤ 3 := by exact_mod_cast Int.lt_add_one_iff.mp hk'
      rw [← hplaced]
      exact some_ofQuarters hk hk' hquarter ⟨by linarith, by linarith⟩
    split_ifs with h₁ h₂ h₃ h₄
    · refine hwithin (k := 0) (by omega) (by omega) ?_ ?_
      all_goals
        push_cast
        linarith
    · refine hwithin (k := 1) (by omega) (by omega) ?_ ?_
      all_goals
        push_cast
        linarith
    · refine hwithin (k := 2) (by omega) (by omega) ?_ ?_
      all_goals
        push_cast
        linarith
    · refine hwithin (k := 3) (by omega) (by omega) ?_ ?_
      all_goals
        push_cast
        linarith
    · -- the next pixel, which is one of its type unless this is the last one
      have hnext : ⌊4 * pos + 1 / 2⌋ = 4 * (n + 1) + 0 := by
        rw [Int.floor_eq_iff]
        push_cast
        constructor
        all_goals linarith
      rw [← hplaced]
      refine map_checkedI32 (k := 0) le_rfl (by omega) hnext ⟨fun h => ?_, fun h => ?_⟩
      · have hlast : (n : ℚ) + 1 < 2 ^ 31 := by linarith [h.2]
        exact ⟨by omega, by exact_mod_cast hlast⟩
      · have hlast : (n : ℚ) + 1 + 1 ≤ 2 ^ 31 := by exact_mod_cast h.2
        exact ⟨by linarith, by linarith⟩
  · rw [asI32_of_ge (not_lt.mp hlt)]
    have hout : ¬InPixels pos := fun h => hlt (by linarith [h.2])
    have hfract : pos - ((2 ^ 31 - 1 : ℤ) : ℚ) ≥ 1 := by
      push_cast
      linarith
    rw [if_neg (by linarith), if_neg (by linarith), if_neg (by linarith), if_neg (by linarith),
      ← hplaced, if_neg hout]
    rfl

/-- So are positions before zero, and the ties downwards. -/
theorem fromPos_of_neg {pos : ℚ} (hpos : pos < 0) :
    fromPos pos = if InPixels pos then some (ofQuarters ⌈4 * pos - 1 / 2⌉) else none := by
  unfold fromPos
  dsimp only
  rw [if_pos hpos]
  generalize hplaced : (if InPixels pos then some (ofQuarters ⌈4 * pos - 1 / 2⌉) else none) = placed
  by_cases hlt : -2 ^ 31 - 1 < pos
  · rw [asI32_of_neg hpos hlt]
    have hle := Int.le_ceil pos
    have hpred := Int.ceil_lt_add_one pos
    have hmax : ⌈pos⌉ ≤ 0 := Int.ceil_le.mpr (by exact_mod_cast hpos.le)
    have hmin : -2 ^ 31 - 1 < ⌈pos⌉ := Int.lt_ceil.mpr (by exact_mod_cast hlt)
    generalize ⌈pos⌉ = n at hle hpred hmin hmax
    have hmin' : -2 ^ 31 ≤ (n : ℚ) := by
      have hmin'' : -2 ^ 31 ≤ n := by omega
      exact_mod_cast hmin''
    -- the pixel before, which is one of its type unless this is the first one
    have hbefore {k : ℤ} (hk : 0 ≤ k) (hk' : k < 4) (hlow : (k : ℚ) / 4 - 1 - 1 / 8 < pos - n)
        (hhigh : pos - n ≤ k / 4 - 1 + 1 / 8) (hfirst : pos - n ≤ -1 / 8) :
        (checkedI32 (n - 1)).map (·, (ofQuarters k).2) = placed := by
      have hquarter : ⌈4 * pos - 1 / 2⌉ = 4 * (n - 1) + k := by
        rw [Int.ceil_eq_iff]
        push_cast
        constructor
        all_goals linarith
      rw [← hplaced]
      refine map_checkedI32 hk hk' hquarter ⟨fun h => ?_, fun h => ?_⟩
      · have hfirst' : -2 ^ 31 < (n : ℚ) := by linarith [h.1]
        have hfirst'' : -2 ^ 31 < n := by exact_mod_cast hfirst'
        exact ⟨by omega, by omega⟩
      · have hfirst' : -2 ^ 31 ≤ (n : ℚ) - 1 := by exact_mod_cast h.1
        exact ⟨by linarith, by linarith⟩
    split_ifs with h₁ h₂ h₃ h₄
    · have hquarter : ⌈4 * pos - 1 / 2⌉ = 4 * n + 0 := by
        rw [Int.ceil_eq_iff]
        push_cast
        constructor
        all_goals linarith
      rw [← hplaced]
      exact some_ofQuarters (k := 0) le_rfl (by omega) hquarter ⟨by linarith, by linarith⟩
    · refine hbefore (k := 3) (by omega) (by omega) ?_ ?_ ?_
      all_goals
        push_cast
        linarith
    · refine hbefore (k := 2) (by omega) (by omega) ?_ ?_ ?_
      all_goals
        push_cast
        linarith
    · refine hbefore (k := 1) (by omega) (by omega) ?_ ?_ ?_
      all_goals
        push_cast
        linarith
    · refine hbefore (k := 0) (by omega) (by omega) ?_ ?_ ?_
      all_goals
        push_cast
        linarith
  · rw [asI32_of_le (not_lt.mp hlt)]
    have hout : ¬InPixels pos := fun h => hlt (by linarith [h.1])
    have hfract : pos - ((-2 ^ 31 : ℤ) : ℚ) ≤ -1 := by
      push_cast
      linarith
    rw [if_neg (by linarith), if_neg (by linarith), if_neg (by linarith), if_neg (by linarith),
      ← hplaced, if_neg hout]
    rfl

/-- The nearest quarter, if it is in a pixel of its type. -/
theorem fromPos_eq (pos : ℚ) :
    fromPos pos = if InPixels pos then some (ofQuarters (nearestQuarter pos)) else none := by
  by_cases hpos : pos < 0
  · rw [nearestQuarter, if_pos hpos, fromPos_of_neg hpos]
  · rw [nearestQuarter, if_neg hpos, fromPos_of_nonneg (not_lt.mp hpos)]

end SubpixelVariant

/-! ## Whole pixels -/

/-- A number rounded toward zero. -/
def truncated (x : ℚ) : ℤ := if 0 ≤ x then ⌊x⌋ else ⌈x⌉

theorem truncated_of_nonneg {x : ℚ} (hx : 0 ≤ x) : truncated x = ⌊x⌋ ∧ 0 ≤ ⌊x⌋ :=
  ⟨if_pos hx, Int.floor_nonneg.mpr hx⟩

theorem truncated_of_neg {x : ℚ} (hx : x < 0) : truncated x = ⌈x⌉ ∧ ⌈x⌉ ≤ 0 :=
  ⟨if_neg (not_le.mpr hx), Int.ceil_le.mpr (by exact_mod_cast hx.le)⟩

/-- The number rounded toward zero is an `i32`. -/
def InI32 (x : ℚ) : Prop := -2 ^ 31 - 1 < x ∧ x < 2 ^ 31

instance (x : ℚ) : Decidable (InI32 x) := inferInstanceAs (Decidable (_ ∧ _))

theorem inI32_iff (x : ℚ) : InI32 x ↔ -2 ^ 31 ≤ truncated x ∧ truncated x < 2 ^ 31 := by
  have hfloor : ⌊x⌋ < 2 ^ 31 ↔ x < 2 ^ 31 := by
    rw [Int.floor_lt]
    norm_num
  have hceil : -2 ^ 31 - 1 < ⌈x⌉ ↔ -2 ^ 31 - 1 < x := by
    rw [Int.lt_ceil]
    norm_num
  rw [InI32, ← hfloor, ← hceil]
  rcases lt_or_ge x 0 with hx | hx
  · obtain ⟨htrunc, hneg⟩ := truncated_of_neg hx
    have hle := Int.floor_le_ceil x
    rw [htrunc]
    omega
  · obtain ⟨htrunc, hnonneg⟩ := truncated_of_nonneg hx
    have hle := Int.floor_le_ceil x
    rw [htrunc]
    omega

/-- A whole number of pixels rounds to as many pixels more, unless it jumps over zero from between
two pixels. -/
def KeepsPixel (y : ℚ) (d : ℤ) : Prop :=
  d = 0 ∨ InI32 y ∧ InI32 (y + d) ∧ (y = ⌊y⌋ ∨ (y < 0 ↔ y + d < 0))

/-- Moving by an integer moves the rounded number, or makes it jump over zero. -/
theorem truncated_add (y : ℚ) (d : ℤ) :
    (truncated (y + d) = truncated y + d ∨
      0 ≤ truncated y ∧ truncated (y + d) ≤ 0 ∧ truncated (y + d) = truncated y + d + 1 ∨
      truncated y ≤ 0 ∧ 0 ≤ truncated (y + d) ∧ truncated (y + d) = truncated y + d - 1) ∧
    (truncated (y + d) = truncated y + d ↔ y = ⌊y⌋ ∨ (y < 0 ↔ y + d < 0)) := by
  have hfloor : ⌊y + d⌋ = ⌊y⌋ + d := Int.floor_add_intCast y d
  have hceil : ⌈y + d⌉ = ⌈y⌉ + d := Int.ceil_add_intCast y d
  have hle := Int.floor_le_ceil y
  have hsucc := Int.ceil_le_floor_add_one y
  have hinteger : y = ⌊y⌋ ↔ ⌈y⌉ = ⌊y⌋ := by
    constructor
    · intro hy
      rw [hy, Int.ceil_intCast, Int.floor_intCast]
    · intro hequal
      exact le_antisymm (hequal ▸ Int.le_ceil y) (Int.floor_le y)
  rw [hinteger]
  rcases lt_or_ge y 0 with hy | hy
  · obtain ⟨htrunc, hneg⟩ := truncated_of_neg hy
    rcases lt_or_ge (y + d) 0 with hmoved | hmoved
    · obtain ⟨htrunc', hneg'⟩ := truncated_of_neg hmoved
      rw [htrunc, htrunc', hceil]
      exact ⟨.inl rfl, iff_of_true rfl (.inr (iff_of_true hy hmoved))⟩
    · obtain ⟨htrunc', hnonneg'⟩ := truncated_of_nonneg hmoved
      have hsign : ¬(y < 0 ↔ y + d < 0) := fun h => not_lt.mpr hmoved (h.mp hy)
      rw [htrunc, htrunc', or_iff_left hsign]
      omega
  · obtain ⟨htrunc, hnonneg⟩ := truncated_of_nonneg hy
    rcases lt_or_ge (y + d) 0 with hmoved | hmoved
    · obtain ⟨htrunc', hneg'⟩ := truncated_of_neg hmoved
      have hsign : ¬(y < 0 ↔ y + d < 0) := fun h => not_lt.mpr hy (h.mpr hmoved)
      rw [htrunc, htrunc', or_iff_left hsign]
      omega
    · obtain ⟨htrunc', hnonneg'⟩ := truncated_of_nonneg hmoved
      rw [htrunc, htrunc', hfloor]
      exact ⟨.inl rfl, iff_of_true rfl (.inr (iff_of_false (not_lt.mpr hy) (not_lt.mpr hmoved)))⟩

theorem clampI32_add_iff {a b d : ℤ}
    (h : b = a + d ∨ 0 ≤ a ∧ b ≤ 0 ∧ b = a + d + 1 ∨ a ≤ 0 ∧ 0 ≤ b ∧ b = a + d - 1) :
    max (-2 ^ 31) (min (2 ^ 31 - 1) b) = max (-2 ^ 31) (min (2 ^ 31 - 1) a) + d ↔
      b = a + d ∧ (d = 0 ∨ (-2 ^ 31 ≤ a ∧ a < 2 ^ 31) ∧ -2 ^ 31 ≤ b ∧ b < 2 ^ 31) := by
  omega

theorem asI32_add_iff (y : ℚ) (d : ℤ) : asI32 (y + d) = asI32 y + d ↔ KeepsPixel y d := by
  obtain ⟨hjump, hequal⟩ := truncated_add y d
  have hclamp := clampI32_add_iff hjump
  have hzero : d = 0 → truncated (y + d) = truncated y + d := by
    rintro rfl
    rw [Int.cast_zero, add_zero, add_zero]
  rw [KeepsPixel, inI32_iff, inI32_iff, ← hequal]
  refine hclamp.trans ⟨?_, ?_⟩
  · rintro ⟨hmoved, hd | ⟨hin, hin'⟩⟩
    · exact .inl hd
    · exact .inr ⟨hin, hin', hmoved⟩
  · rintro (hd | ⟨hin, hin', hmoved⟩)
    · exact ⟨hzero hd, .inl hd⟩
    · exact ⟨hmoved, .inr ⟨hin, hin'⟩⟩

/-! ## The glyph -/

/-- A whole number of pixels keeps the quarter of a pixel, unless the glyph jumps over zero from
halfway between two quarters. -/
def KeepsQuarter (x : ℚ) (d : ℤ) : Prop :=
  InPixels x ∧ InPixels (x + d) ∧ (¬IsTie x ∨ (x < 0 ↔ x + d < 0))

namespace PositionedGlyph

variable {R : Type}

/-- A glyph is within an eighth of a pixel, and moves with its position, exactly if the pixels are
in range and neither coordinate jumps over zero from where it is rounded. -/
theorem fromParley_moved_iff (runData : R) (glyph : ParleyGlyph) (origin : Point ℚ)
    (d : Point ℤ) :
    (∃ g, fromParley runData glyph origin = some g ∧
      |(g.origin.x : ℚ) + g.subpixelVariant.offset - (glyph.x + origin.x)| ≤ 1 / 8 ∧
      fromParley runData glyph ⟨origin.x + d.x, origin.y + d.y⟩ = some (g.moved d)) ↔
    KeepsQuarter (glyph.x + origin.x) d.x ∧ KeepsPixel (glyph.y + origin.y) d.y := by
  have hx : glyph.x + (origin.x + d.x) = glyph.x + origin.x + d.x := (add_assoc _ _ _).symm
  have hy : glyph.y + (origin.y + d.y) = glyph.y + origin.y + d.y := (add_assoc _ _ _).symm
  unfold fromParley
  dsimp only
  rw [hx, hy, SubpixelVariant.fromPos_eq, SubpixelVariant.fromPos_eq]
  generalize glyph.x + origin.x = x
  generalize glyph.y + origin.y = y
  have hplaced : (ofQuarters (nearestQuarter (x + d.x)) =
      ((ofQuarters (nearestQuarter x)).1 + d.x, (ofQuarters (nearestQuarter x)).2)) ↔
      ¬IsTie x ∨ (x < 0 ↔ x + d.x < 0) := by
    rw [← nearestQuarter_add_iff, ← ofQuarters_move]
    exact ⟨fun h => ofQuarters_injective h, fun h => congrArg ofQuarters h⟩
  rw [← asI32_add_iff, KeepsQuarter, ← hplaced]
  by_cases hin : InPixels x
  · by_cases hin' : InPixels (x + d.x)
    · rw [if_pos hin, if_pos hin']
      constructor
      · rintro ⟨g, hg, -, hmoved⟩
        obtain rfl := Option.some.inj hg
        have hglyph := Option.some.inj hmoved
        have hvariant := congrArg PositionedGlyph.subpixelVariant hglyph
        have hpixel := congrArg (fun g : PositionedGlyph R => g.origin.x) hglyph
        have hline := congrArg (fun g : PositionedGlyph R => g.origin.y) hglyph
        exact ⟨⟨hin, hin', Prod.ext hpixel hvariant⟩, hline⟩
      · rintro ⟨⟨-, -, hpixel⟩, hline⟩
        refine ⟨_, rfl, ?_, ?_⟩
        · dsimp only
          rw [ofQuarters_offset]
          exact nearestQuarter_near x
        · rw [hpixel, hline]
          rfl
    · rw [if_neg hin']
      constructor
      · rintro ⟨g, -, -, hmoved⟩
        cases hmoved
      · rintro ⟨⟨-, h, -⟩, -⟩
        exact absurd h hin'
  · rw [if_neg hin]
    constructor
    · rintro ⟨g, hg, -⟩
      cases hg
    · rintro ⟨⟨h, -⟩, -⟩
      exact absurd h hin

/-- A glyph at seven eighths of a pixel and, vertically, at a half. -/
def jumpingGlyph : ParleyGlyph := ⟨0, 7 / 8, 1 / 2, 1⟩

/-- A pixel further up and to the left it is where it was vertically, and horizontally more than a
pixel before. -/
theorem fromParley_jumps :
    fromParley () jumpingGlyph ⟨0, 0⟩ = some ⟨0, (), .zero, ⟨1, 0⟩, 1⟩ ∧
    fromParley () jumpingGlyph ⟨-1, -1⟩ = some ⟨0, (), .threeQuarters, ⟨-1, 0⟩, 1⟩ := by
  decide +kernel

end PositionedGlyph

end Lucie
