import Mathlib.Algebra.Order.Floor.Ring
import Mathlib.Data.Rat.Floor
import Mathlib.Tactic.FieldSimp
import Mathlib.Tactic.IntervalCases
import Mathlib.Tactic.Linarith
import Mathlib.Tactic.Ring

/-!
# Colors

Conversions between colors by red, green and blue and colors by hue, saturation and lightness, in
exact arithmetic. The hue goes around in six sextants. In each of them one component is the
greatest, one is the least, and the third one follows a wave along the hue.
-/

set_option autoImplicit false

namespace Lucie

/-- `Rgba`. -/
@[ext] structure Rgba (F : Type) where
  r : F
  g : F
  b : F
  a : F
  deriving DecidableEq

/-- `Hsla`. -/
@[ext] structure Hsla (F : Type) where
  h : F
  s : F
  l : F
  a : F
  deriving DecidableEq

/-- The remainder of floats: the quotient is rounded toward zero. -/
def remFloat (x y : ℚ) : ℚ := x - y * if 0 ≤ x / y then (⌊x / y⌋ : ℚ) else (⌈x / y⌉ : ℚ)

/-- `f32::rem_euclid`. -/
def remEuclid (x y : ℚ) : ℚ :=
  let r := remFloat x y
  if r < 0 then r + |y| else r

/-- `f32::clamp`. -/
def clampFloat (x low high : ℚ) : ℚ := if x < low then low else if high < x then high else x

/-- A float as an `i32`. -/
def asI32 (x : ℚ) : ℤ :=
  max (-2 ^ 31) (min (2 ^ 31 - 1) (if 0 ≤ x then ⌊x⌋ else ⌈x⌉))

/-- `Hsla::to_rgb`. -/
def Hsla.toRgb (color : Hsla ℚ) : Rgba ℚ :=
  let c := (1 - |2 * color.l - 1|) * color.s
  let x := c * (1 - |remFloat (color.h * 6) 2 - 1|)
  let m := color.l - c / 2
  let cm := c + m
  let xm := x + m
  let (r, g, b) : ℚ × ℚ × ℚ :=
    match asI32 ⌊color.h * 6⌋ with
    | 0 | 6 => (cm, xm, m)
    | 1 => (xm, cm, m)
    | 2 => (m, cm, xm)
    | 3 => (m, xm, cm)
    | 4 => (xm, m, cm)
    | _ => (cm, m, xm)
  ⟨clampFloat r 0 1, clampFloat g 0 1, clampFloat b 0 1, color.a⟩

/-- `Hsla::from`. -/
def Hsla.ofRgba (color : Rgba ℚ) : Hsla ℚ :=
  let ⟨r, g, b, a⟩ := color
  let max := Max.max r (Max.max g b)
  let min := Min.min r (Min.min g b)
  let delta := max - min
  let l := (max + min) / 2
  let s :=
    if l = 0 ∨ l = 1 then 0
    else if l < 1 / 2 then delta / (2 * l)
    else delta / (2 - 2 * l)
  let h :=
    if delta = 0 then 0
    else if max = r then remEuclid ((g - b) / delta) 6 / 6
    else if max = g then ((b - r) / delta + 2) / 6
    else ((r - g) / delta + 4) / 6
  ⟨h, s, l, a⟩

/-- `Rgba::blend`. -/
def Rgba.blend (self other : Rgba ℚ) : Rgba ℚ :=
  if 1 ≤ other.a then other
  else if other.a ≤ 0 then self
  else
    ⟨self.r * (1 - other.a) + other.r * other.a, self.g * (1 - other.a) + other.g * other.a,
      self.b * (1 - other.a) + other.b * other.a, self.a⟩

/-- `Hsla::blend`. -/
def Hsla.blend (self other : Hsla ℚ) : Hsla ℚ :=
  if 1 ≤ other.a then other
  else if other.a ≤ 0 then self
  else .ofRgba (self.toRgb.blend other.toRgb)

/-! ## Remainders -/

theorem remFloat_eq_self {x y : ℚ} (hlow : -y < x) (hhigh : x < y) : remFloat x y = x := by
  have hy : 0 < y := by linarith
  rw [remFloat]
  split_ifs with hsign
  · have hlt : x / y < 1 := (div_lt_one hy).mpr hhigh
    have hfloor : ⌊x / y⌋ = 0 := Int.floor_eq_zero_iff.mpr ⟨hsign, hlt⟩
    rw [hfloor, Int.cast_zero, mul_zero, sub_zero]
  · have hlt : -1 < x / y := by
      rw [lt_div_iff₀ hy]
      linarith
    have hceil : ⌈x / y⌉ = 0 := Int.ceil_eq_zero_iff.mpr ⟨hlt, (not_le.mp hsign).le⟩
    rw [hceil, Int.cast_zero, mul_zero, sub_zero]

theorem remEuclid_of_nonneg {x y : ℚ} (hx : 0 ≤ x) (hlt : x < y) : remEuclid x y = x := by
  rw [remEuclid, remFloat_eq_self (by linarith) hlt]
  exact if_neg (not_lt.mpr hx)

theorem remEuclid_of_neg {x y : ℚ} (hx : x < 0) (hlt : -y < x) : remEuclid x y = x + y := by
  rw [remEuclid, remFloat_eq_self hlt (by linarith), abs_of_pos (by linarith)]
  exact if_pos hx

theorem remFloat_two {t : ℚ} {k : ℤ} (hk : 0 ≤ k) (hlow : (2 * k : ℚ) ≤ t)
    (hhigh : t < 2 * k + 2) : remFloat t 2 = t - 2 * k := by
  have hk' : (0 : ℚ) ≤ k := Int.cast_nonneg hk
  have hfloor : ⌊t / 2⌋ = k := by
    rw [Int.floor_eq_iff, le_div_iff₀ two_pos, div_lt_iff₀ two_pos]
    constructor <;> linarith
  have hsign : 0 ≤ t / 2 := by linarith
  rw [remFloat, if_pos hsign, hfloor]

/-- The wave that the third component follows: it goes up in the even sextants. -/
theorem wave_up {t : ℚ} {k : ℤ} (hk : 0 ≤ k) (hlow : (2 * k : ℚ) ≤ t) (hhigh : t ≤ 2 * k + 1) :
    1 - |remFloat t 2 - 1| = t - 2 * k := by
  rw [remFloat_two hk hlow (by linarith), abs_of_nonpos (by linarith)]
  ring

/-- And it goes down in the odd ones. -/
theorem wave_down {t : ℚ} {k : ℤ} (hk : 0 ≤ k) (hlow : (2 * k + 1 : ℚ) ≤ t)
    (hhigh : t < 2 * k + 2) : 1 - |remFloat t 2 - 1| = 2 * k + 2 - t := by
  rw [remFloat_two hk (by linarith) hhigh, abs_of_nonneg (by linarith)]
  ring

theorem clampFloat_eq_self {x : ℚ} (hlow : 0 ≤ x) (hhigh : x ≤ 1) : clampFloat x 0 1 = x := by
  rw [clampFloat, if_neg (not_lt.mpr hlow), if_neg (not_lt.mpr hhigh)]

theorem asI32_floor {x : ℚ} {k : ℤ} (hlow : (k : ℚ) ≤ x) (hhigh : x < k + 1) (hk : 0 ≤ k)
    (hk' : k < 7) : asI32 ⌊x⌋ = k := by
  have hfloor : ⌊x⌋ = k := Int.floor_eq_iff.mpr ⟨hlow, hhigh⟩
  have hk'' : (0 : ℚ) ≤ k := Int.cast_nonneg hk
  rw [asI32, hfloor, if_pos hk'', Int.floor_intCast]
  omega

/-! ## Back from a hue -/

/-- The components of a color in a sextant, by their size. -/
def hueComponents (sextant : ℤ) (greatest third least : ℚ) : ℚ × ℚ × ℚ :=
  match sextant with
  | 0 => (greatest, third, least)
  | 1 => (third, greatest, least)
  | 2 => (least, greatest, third)
  | 3 => (least, third, greatest)
  | 4 => (third, least, greatest)
  | _ => (greatest, least, third)

theorem toRgb_of_sextant {color : Hsla ℚ} {sextant : ℤ} (hlow : (sextant : ℚ) ≤ color.h * 6)
    (hhigh : color.h * 6 < sextant + 1) (hnonneg : 0 ≤ sextant) (hlt : sextant < 6) {chroma : ℚ}
    (hchroma : (1 - |2 * color.l - 1|) * color.s = chroma) :
    color.toRgb =
      let least := color.l - chroma / 2
      let components := hueComponents sextant (chroma + least)
        (chroma * (1 - |remFloat (color.h * 6) 2 - 1|) + least) least
      ⟨clampFloat components.1 0 1, clampFloat components.2.1 0 1, clampFloat components.2.2 0 1,
        color.a⟩ := by
  have hsextant := asI32_floor hlow hhigh hnonneg (by omega)
  simp only [Hsla.toRgb, hchroma, hsextant]
  clear hlow hhigh hsextant
  interval_cases sextant <;> rfl

namespace Rgba

/-- The greatest component. -/
def greatest (color : Rgba ℚ) : ℚ := max color.r (max color.g color.b)

/-- The least component. -/
def least (color : Rgba ℚ) : ℚ := min color.r (min color.g color.b)

/-- The difference between the greatest and the least component. -/
def chroma (color : Rgba ℚ) : ℚ := color.greatest - color.least

/-- All components are from 0 to 1. -/
structure InUnit (color : Rgba ℚ) : Prop where
  r : 0 ≤ color.r ∧ color.r ≤ 1
  g : 0 ≤ color.g ∧ color.g ≤ 1
  b : 0 ≤ color.b ∧ color.b ≤ 1
  a : 0 ≤ color.a ∧ color.a ≤ 1

variable {color : Rgba ℚ}

theorem le_greatest (color : Rgba ℚ) :
    color.r ≤ color.greatest ∧ color.g ≤ color.greatest ∧ color.b ≤ color.greatest :=
  ⟨le_max_left _ _, le_max_of_le_right (le_max_left _ _), le_max_of_le_right (le_max_right _ _)⟩

theorem least_le (color : Rgba ℚ) :
    color.least ≤ color.r ∧ color.least ≤ color.g ∧ color.least ≤ color.b :=
  ⟨min_le_left _ _, min_le_of_right_le (min_le_left _ _), min_le_of_right_le (min_le_right _ _)⟩

theorem InUnit.greatest_le (h : color.InUnit) : color.greatest ≤ 1 :=
  max_le h.r.2 (max_le h.g.2 h.b.2)

theorem InUnit.least_nonneg (h : color.InUnit) : 0 ≤ color.least :=
  le_min h.r.1 (le_min h.g.1 h.b.1)

theorem least_le_greatest (color : Rgba ℚ) : color.least ≤ color.greatest :=
  color.least_le.1.trans color.le_greatest.1

/-- The lightness is in the middle of the greatest and the least component. -/
theorem ofRgba_l (color : Rgba ℚ) :
    (Hsla.ofRgba color).l = (color.greatest + color.least) / 2 := rfl

theorem ofRgba_s (color : Rgba ℚ) : (Hsla.ofRgba color).s =
    if (Hsla.ofRgba color).l = 0 ∨ (Hsla.ofRgba color).l = 1 then 0
    else if (Hsla.ofRgba color).l < 1 / 2 then color.chroma / (2 * (Hsla.ofRgba color).l)
    else color.chroma / (2 - 2 * (Hsla.ofRgba color).l) := rfl

/-- Together with the lightness the saturation gives the difference between them back. -/
theorem InUnit.chroma_eq (h : color.InUnit) :
    (1 - |2 * (Hsla.ofRgba color).l - 1|) * (Hsla.ofRgba color).s =
      color.chroma := by
  have hleast := h.least_nonneg
  have hgreatest := h.greatest_le
  have hle := color.least_le_greatest
  have hchroma : color.chroma = color.greatest - color.least := rfl
  rw [ofRgba_s, ofRgba_l]
  split_ifs with hend hhalf
  · -- black or white
    rw [mul_zero]
    rcases hend with hend | hend <;> linarith
  · have hne : 2 * ((color.greatest + color.least) / 2) ≠ 0 := fun hzero =>
      hend (.inl (by linarith))
    have hfactor : 1 - |2 * ((color.greatest + color.least) / 2) - 1| =
        2 * ((color.greatest + color.least) / 2) := by
      rw [abs_of_nonpos (by linarith)]
      ring
    rw [hfactor, mul_div_cancel₀ _ hne]
  · have hne : 2 - 2 * ((color.greatest + color.least) / 2) ≠ 0 := fun hzero =>
      hend (.inr (by linarith))
    have hfactor : 1 - |2 * ((color.greatest + color.least) / 2) - 1| =
        2 - 2 * ((color.greatest + color.least) / 2) := by
      rw [abs_of_nonneg (by linarith)]
      ring
    rw [hfactor, mul_div_cancel₀ _ hne]

/-- The conversions are inverse where the hue is in the sextant of the components. -/
theorem InUnit.toRgb_ofRgba_of_sextant (h : color.InUnit) {sextant : ℤ} {third : ℚ}
    (hlow : (sextant : ℚ) ≤ (Hsla.ofRgba color).h * 6)
    (hhigh : (Hsla.ofRgba color).h * 6 < sextant + 1) (hnonneg : 0 ≤ sextant) (hlt : sextant < 6)
    (hwave : color.chroma * (1 - |remFloat ((Hsla.ofRgba color).h * 6) 2 - 1|) =
      third - color.least)
    (hcomponents : hueComponents sextant color.greatest third color.least =
      (color.r, color.g, color.b)) : (Hsla.ofRgba color).toRgb = color := by
  have hleast : (Hsla.ofRgba color).l - color.chroma / 2 = color.least := by
    rw [ofRgba_l, chroma]
    ring
  rw [toRgb_of_sextant hlow hhigh hnonneg hlt h.chroma_eq, hwave, hleast]
  dsimp only
  rw [chroma, sub_add_cancel, sub_add_cancel, hcomponents]
  ext
  · exact clampFloat_eq_self h.r.1 h.r.2
  · exact clampFloat_eq_self h.g.1 h.g.2
  · exact clampFloat_eq_self h.b.1 h.b.2
  · rfl

/-- In an even sextant the third component goes up with the hue. -/
theorem InUnit.toRgb_ofRgba_of_even (h : color.InUnit) (k : ℤ) (third : ℚ) {t : ℚ} (hk : 0 ≤ k)
    (hk' : k < 3) (hhue : (Hsla.ofRgba color).h * 6 = 2 * k + t) (hlow : 0 ≤ t) (hhigh : t < 1)
    (hthird : color.chroma * t = third - color.least)
    (hcomponents : hueComponents (2 * k) color.greatest third color.least =
      (color.r, color.g, color.b)) : (Hsla.ofRgba color).toRgb = color := by
  have hwave : 1 - |remFloat (2 * k + t) 2 - 1| = t := by
    rw [wave_up hk (by linarith) (by linarith)]
    ring
  refine h.toRgb_ofRgba_of_sextant ?_ ?_ (by omega) (by omega) ?_ hcomponents
  · rw [hhue]
    push_cast
    linarith
  · rw [hhue]
    push_cast
    linarith
  · rw [hhue, hwave, hthird]

/-- In an odd one it goes down. -/
theorem InUnit.toRgb_ofRgba_of_odd (h : color.InUnit) (k : ℤ) (third : ℚ) {t : ℚ} (hk : 0 ≤ k)
    (hk' : k < 3) (hhue : (Hsla.ofRgba color).h * 6 = 2 * k + 2 - t) (hlow : 0 < t) (hhigh : t ≤ 1)
    (hthird : color.chroma * t = third - color.least)
    (hcomponents : hueComponents (2 * k + 1) color.greatest third color.least =
      (color.r, color.g, color.b)) : (Hsla.ofRgba color).toRgb = color := by
  have hwave : 1 - |remFloat (2 * k + 2 - t) 2 - 1| = t := by
    rw [wave_down hk (by linarith) (by linarith)]
    ring
  refine h.toRgb_ofRgba_of_sextant ?_ ?_ (by omega) (by omega) ?_ hcomponents
  · rw [hhue]
    push_cast
    linarith
  · rw [hhue]
    push_cast
    linarith
  · rw [hhue, hwave, hthird]

/-! ## The sextants -/

/-- Six times the hue is the place in the sextants. -/
theorem hue_eq (color : Rgba ℚ) : (Hsla.ofRgba color).h * 6 =
    if color.chroma = 0 then 0
    else if color.greatest = color.r then remEuclid ((color.g - color.b) / color.chroma) 6
    else if color.greatest = color.g then (color.b - color.r) / color.chroma + 2
    else (color.r - color.g) / color.chroma + 4 := by
  have hh : (Hsla.ofRgba color).h = if color.chroma = 0 then 0
    else if color.greatest = color.r then remEuclid ((color.g - color.b) / color.chroma) 6 / 6
    else if color.greatest = color.g then ((color.b - color.r) / color.chroma + 2) / 6
    else ((color.r - color.g) / color.chroma + 4) / 6 := rfl
  rw [hh]
  split_ifs
  · exact zero_mul 6
  all_goals exact div_mul_cancel₀ _ (by norm_num)

/-- A quotient by the chroma is between -1 and 1 for components in any order. -/
theorem div_chroma_mem {x y : ℚ} (hpos : 0 < color.chroma)
    (hx : color.least ≤ x ∧ x ≤ color.greatest) (hy : color.least ≤ y ∧ y ≤ color.greatest) :
    -1 ≤ (x - y) / color.chroma ∧ (x - y) / color.chroma ≤ 1 := by
  have hchroma : color.chroma = color.greatest - color.least := rfl
  rw [le_div_iff₀ hpos, div_le_one hpos]
  constructor <;> linarith

/-- A grey has no hue. -/
theorem InUnit.toRgb_ofRgba_grey (h : color.InUnit) (hgrey : color.chroma = 0) :
    (Hsla.ofRgba color).toRgb = color := by
  have hchroma : color.chroma = color.greatest - color.least := rfl
  obtain ⟨hr, hg, hb⟩ := color.le_greatest
  obtain ⟨hr', hg', hb'⟩ := color.least_le
  have hhue : (Hsla.ofRgba color).h * 6 = 2 * ((0 : ℤ) : ℚ) + 0 := by
    rw [hue_eq, if_pos hgrey]
    norm_num
  have hred : color.greatest = color.r := by linarith
  have hgreen : color.least = color.g := by linarith
  have hblue : color.least = color.b := by linarith
  refine h.toRgb_ofRgba_of_even 0 color.g le_rfl (by norm_num) hhue le_rfl one_pos ?_ ?_
  · rw [mul_zero, hgreen, sub_self]
  · rw [hred, hblue]
    rfl

/-- Red is the greatest component: from magenta over red to yellow. -/
theorem InUnit.toRgb_ofRgba_red (h : color.InUnit) (hpos : 0 < color.chroma)
    (hred : color.greatest = color.r) : (Hsla.ofRgba color).toRgb = color := by
  have hchroma : color.chroma = color.greatest - color.least := rfl
  obtain ⟨-, hg, hb⟩ := color.le_greatest
  obtain ⟨-, hg', hb'⟩ := color.least_le
  obtain ⟨hlow, hhigh⟩ := div_chroma_mem hpos ⟨hg', hg⟩ ⟨hb', hb⟩
  have hhue := color.hue_eq
  rw [if_neg hpos.ne', if_pos hred] at hhue
  have hmul : color.chroma * ((color.g - color.b) / color.chroma) = color.g - color.b :=
    mul_div_cancel₀ _ hpos.ne'
  generalize (color.g - color.b) / color.chroma = y at *
  rcases lt_or_ge y 0 with hneg | hnonneg
  · have hleast : color.least = color.g := by
      have hlt : color.g < color.b := by nlinarith
      rw [least, min_eq_left hlt.le, min_eq_right (by linarith)]
    rw [remEuclid_of_neg hneg (by linarith)] at hhue
    have hsextant : (Hsla.ofRgba color).h * 6 = 2 * ((2 : ℤ) : ℚ) + 2 - -y := by
      rw [hhue]
      norm_num
      ring
    refine h.toRgb_ofRgba_of_odd 2 color.b (by norm_num) (by norm_num) hsextant (by linarith)
      (by linarith) ?_ ?_
    · linarith
    · rw [hred, hleast]
      rfl
  have hleast : color.least = color.b := by
    have hle : color.b ≤ color.g := by nlinarith
    rw [least, min_eq_right hle, min_eq_right (by linarith)]
  rw [remEuclid_of_nonneg hnonneg (by linarith)] at hhue
  rcases hhigh.lt_or_eq with hlt | heq
  · have hsextant : (Hsla.ofRgba color).h * 6 = 2 * ((0 : ℤ) : ℚ) + y := by
      rw [hhue]
      norm_num
    refine h.toRgb_ofRgba_of_even 0 color.g le_rfl (by norm_num) hsextant hnonneg hlt ?_ ?_
    · linarith
    · rw [hred, hleast]
      rfl
  · -- green is as great as red: the boundary belongs to the next sextant
    have hgreen : color.greatest = color.g := by
      rw [heq] at hmul
      linarith
    have hsextant : (Hsla.ofRgba color).h * 6 = 2 * ((0 : ℤ) : ℚ) + 2 - 1 := by
      rw [hhue, heq]
      norm_num
    refine h.toRgb_ofRgba_of_odd 0 color.r le_rfl (by norm_num) hsextant one_pos le_rfl ?_ ?_
    · linarith
    · rw [hgreen, hleast]
      rfl

/-- Green is the greatest component: from yellow over green to cyan. -/
theorem InUnit.toRgb_ofRgba_green (h : color.InUnit) (hpos : 0 < color.chroma)
    (hred : color.greatest ≠ color.r) (hgreen : color.greatest = color.g) :
    (Hsla.ofRgba color).toRgb = color := by
  have hchroma : color.chroma = color.greatest - color.least := rfl
  obtain ⟨hr, -, hb⟩ := color.le_greatest
  obtain ⟨hr', -, hb'⟩ := color.least_le
  have hr := lt_of_le_of_ne hr hred.symm
  obtain ⟨-, hhigh⟩ := div_chroma_mem hpos ⟨hb', hb⟩ ⟨hr', hr.le⟩
  have hhue := color.hue_eq
  rw [if_neg hpos.ne', if_neg hred, if_pos hgreen] at hhue
  have hmul : color.chroma * ((color.b - color.r) / color.chroma) = color.b - color.r :=
    mul_div_cancel₀ _ hpos.ne'
  generalize (color.b - color.r) / color.chroma = y at *
  have hlow : -1 < y := by nlinarith
  rcases lt_or_ge y 0 with hneg | hnonneg
  · have hleast : color.least = color.b := by
      have hlt : color.b < color.r := by nlinarith
      rw [least, min_eq_right (min_le_of_right_le hlt.le), min_eq_right (by linarith)]
    have hsextant : (Hsla.ofRgba color).h * 6 = 2 * ((0 : ℤ) : ℚ) + 2 - -y := by
      rw [hhue]
      norm_num
      ring
    refine h.toRgb_ofRgba_of_odd 0 color.r le_rfl (by norm_num) hsextant (by linarith)
      (by linarith) ?_ ?_
    · linarith
    · rw [hgreen, hleast]
      rfl
  have hleast : color.least = color.r := by
    have hle : color.r ≤ color.b := by nlinarith
    rw [least, min_eq_left (le_min (by linarith) hle)]
  rcases hhigh.lt_or_eq with hlt | heq
  · have hsextant : (Hsla.ofRgba color).h * 6 = 2 * ((1 : ℤ) : ℚ) + y := by
      rw [hhue]
      norm_num
      ring
    refine h.toRgb_ofRgba_of_even 1 color.b (by norm_num) (by norm_num) hsextant hnonneg hlt ?_ ?_
    · linarith
    · rw [hgreen, hleast]
      rfl
  · -- blue is as great as green
    have hblue : color.greatest = color.b := by
      rw [heq] at hmul
      linarith
    have hsextant : (Hsla.ofRgba color).h * 6 = 2 * ((1 : ℤ) : ℚ) + 2 - 1 := by
      rw [hhue, heq]
      norm_num
    refine h.toRgb_ofRgba_of_odd 1 color.g (by norm_num) (by norm_num) hsextant one_pos le_rfl ?_ ?_
    · linarith
    · rw [hblue, hleast]
      rfl

/-- Only blue is the greatest component: from cyan over blue to magenta. -/
theorem InUnit.toRgb_ofRgba_blue (h : color.InUnit) (hpos : 0 < color.chroma)
    (hred : color.greatest ≠ color.r) (hgreen : color.greatest ≠ color.g) :
    (Hsla.ofRgba color).toRgb = color := by
  have hchroma : color.chroma = color.greatest - color.least := rfl
  have hblue : color.greatest = color.b := by
    rcases max_choice color.r (max color.g color.b) with hmax | hmax
    · exact absurd hmax hred
    · rcases max_choice color.g color.b with hmax' | hmax'
      · exact absurd (hmax.trans hmax') hgreen
      · exact hmax.trans hmax'
  obtain ⟨hr, hg, -⟩ := color.le_greatest
  obtain ⟨hr', hg', -⟩ := color.least_le
  have hr := lt_of_le_of_ne hr hred.symm
  have hg := lt_of_le_of_ne hg hgreen.symm
  have hhue := color.hue_eq
  rw [if_neg hpos.ne', if_neg hred, if_neg hgreen] at hhue
  have hmul : color.chroma * ((color.r - color.g) / color.chroma) = color.r - color.g :=
    mul_div_cancel₀ _ hpos.ne'
  generalize (color.r - color.g) / color.chroma = y at *
  have hlow : -1 < y := by nlinarith
  have hhigh : y < 1 := by nlinarith
  rcases lt_or_ge y 0 with hneg | hnonneg
  · have hleast : color.least = color.r := by
      have hlt : color.r < color.g := by nlinarith
      rw [least, min_eq_left (le_min hlt.le (by linarith))]
    have hsextant : (Hsla.ofRgba color).h * 6 = 2 * ((1 : ℤ) : ℚ) + 2 - -y := by
      rw [hhue]
      norm_num
      ring
    refine h.toRgb_ofRgba_of_odd 1 color.g (by norm_num) (by norm_num) hsextant (by linarith)
      (by linarith) ?_ ?_
    · linarith
    · rw [hblue, hleast]
      rfl
  · have hleast : color.least = color.g := by
      have hle : color.g ≤ color.r := by nlinarith
      rw [least, min_eq_left (by linarith : color.g ≤ color.b), min_eq_right hle]
    have hsextant : (Hsla.ofRgba color).h * 6 = 2 * ((2 : ℤ) : ℚ) + y := by
      rw [hhue]
      norm_num
      ring
    refine h.toRgb_ofRgba_of_even 2 color.r (by norm_num) (by norm_num) hsextant hnonneg hhigh ?_ ?_
    · linarith
    · rw [hblue, hleast]
      rfl

theorem InUnit.toRgb_ofRgba_self (h : color.InUnit) : (Hsla.ofRgba color).toRgb = color := by
  have hle := color.least_le_greatest
  by_cases hgrey : color.chroma = 0
  · exact h.toRgb_ofRgba_grey hgrey
  have hpos : 0 < color.chroma := lt_of_le_of_ne (sub_nonneg.mpr hle) (Ne.symm hgrey)
  by_cases hred : color.greatest = color.r
  · exact h.toRgb_ofRgba_red hpos hred
  by_cases hgreen : color.greatest = color.g
  · exact h.toRgb_ofRgba_green hpos hred hgreen
  · exact h.toRgb_ofRgba_blue hpos hred hgreen

/-! ## The range of the components -/

theorem ofRgba_h_mem (color : Rgba ℚ) :
    0 ≤ (Hsla.ofRgba color).h * 6 ∧ (Hsla.ofRgba color).h * 6 ≤ 6 := by
  obtain ⟨hr, hg, hb⟩ := color.le_greatest
  obtain ⟨hr', hg', hb'⟩ := color.least_le
  rw [hue_eq]
  split_ifs with hgrey hred hgreen
  · norm_num
  all_goals
    have hpos : 0 < color.chroma :=
      lt_of_le_of_ne (sub_nonneg.mpr color.least_le_greatest) (Ne.symm hgrey)
  · obtain ⟨hlow, hhigh⟩ := div_chroma_mem hpos ⟨hg', hg⟩ ⟨hb', hb⟩
    rcases lt_or_ge ((color.g - color.b) / color.chroma) 0 with hneg | hnonneg
    · rw [remEuclid_of_neg hneg (by linarith)]
      constructor <;> linarith
    · rw [remEuclid_of_nonneg hnonneg (by linarith)]
      constructor <;> linarith
  · obtain ⟨hlow, hhigh⟩ := div_chroma_mem hpos ⟨hb', hb⟩ ⟨hr', hr⟩
    constructor <;> linarith
  · obtain ⟨hlow, hhigh⟩ := div_chroma_mem hpos ⟨hr', hr⟩ ⟨hg', hg⟩
    constructor <;> linarith

theorem InUnit.ofRgba_l_mem (h : color.InUnit) :
    0 ≤ (Hsla.ofRgba color).l ∧ (Hsla.ofRgba color).l ≤ 1 := by
  have hleast := h.least_nonneg
  have hgreatest := h.greatest_le
  have hle := color.least_le_greatest
  rw [ofRgba_l]
  constructor <;> linarith

theorem InUnit.ofRgba_s_mem (h : color.InUnit) :
    0 ≤ (Hsla.ofRgba color).s ∧ (Hsla.ofRgba color).s ≤ 1 := by
  have hleast := h.least_nonneg
  have hgreatest := h.greatest_le
  have hle := color.least_le_greatest
  have hchroma : color.chroma = color.greatest - color.least := rfl
  rw [ofRgba_s, ofRgba_l]
  split_ifs with hend hhalf
  · exact ⟨le_rfl, zero_le_one⟩
  · have hpos : 0 < 2 * ((color.greatest + color.least) / 2) := by
      refine lt_of_le_of_ne (by linarith) fun hzero => hend (.inl (by linarith))
    exact ⟨div_nonneg (by linarith) hpos.le, (div_le_one hpos).mpr (by linarith)⟩
  · have hpos : 0 < 2 - 2 * ((color.greatest + color.least) / 2) := by
      refine lt_of_le_of_ne (by linarith) fun hzero => hend (.inr (by linarith))
    exact ⟨div_nonneg (by linarith) hpos.le, (div_le_one hpos).mpr (by linarith)⟩

/-- A color with components from 0 to 1 is the same after the conversion and back, and the
components between the conversions are from 0 to 1. -/
theorem toRgb_ofRgba (color : Rgba ℚ) (h : color.InUnit) :
    (Hsla.ofRgba color).toRgb = color ∧
      (0 ≤ (Hsla.ofRgba color).h ∧ (Hsla.ofRgba color).h ≤ 1) ∧
      (0 ≤ (Hsla.ofRgba color).s ∧ (Hsla.ofRgba color).s ≤ 1) ∧
      (0 ≤ (Hsla.ofRgba color).l ∧ (Hsla.ofRgba color).l ≤ 1) ∧
      (0 ≤ (Hsla.ofRgba color).a ∧ (Hsla.ofRgba color).a ≤ 1) := by
  obtain ⟨hlow, hhigh⟩ := ofRgba_h_mem color
  refine ⟨h.toRgb_ofRgba_self, ?_, h.ofRgba_s_mem, h.ofRgba_l_mem, h.a⟩
  constructor <;> linarith

/-- A magenta, where the hue wraps around. -/
theorem toRgb_ofRgba_magenta :
    (Hsla.ofRgba ⟨1, 0, 1 / 2, 1⟩).toRgb = ⟨1, 0, 1 / 2, 1⟩ ∧
      (0 ≤ (Hsla.ofRgba ⟨1, 0, 1 / 2, 1⟩).h ∧ (Hsla.ofRgba ⟨1, 0, 1 / 2, 1⟩).h ≤ 1) ∧
      (0 ≤ (Hsla.ofRgba ⟨1, 0, 1 / 2, 1⟩).s ∧ (Hsla.ofRgba ⟨1, 0, 1 / 2, 1⟩).s ≤ 1) ∧
      (0 ≤ (Hsla.ofRgba ⟨1, 0, 1 / 2, 1⟩).l ∧ (Hsla.ofRgba ⟨1, 0, 1 / 2, 1⟩).l ≤ 1) ∧
      (0 ≤ (Hsla.ofRgba ⟨1, 0, 1 / 2, 1⟩).a ∧ (Hsla.ofRgba ⟨1, 0, 1 / 2, 1⟩).a ≤ 1) :=
  toRgb_ofRgba ⟨1, 0, 1 / 2, 1⟩
    ⟨by norm_num, by norm_num, by norm_num, by norm_num⟩

end Rgba

end Lucie
