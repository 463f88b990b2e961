import Mathlib.Data.List.DropRight
import Lucie.Color.Hsla
import Lucie.Foundation.ByteSlice
import Lucie.Keymap.ParsePredicate

/-!
# Parsing colors

A color is written as a `#` and the hexadecimal digits of its components. The parser chooses the
components by the bytes of the text and leaves each of them to the parser of integers, which reads
a `+` before the digits too.
-/

set_option autoImplicit false

namespace Lucie

open Foundation String

/-- `RgbaComponent`. -/
inductive RgbaComponent
  | r
  | g
  | b
  | a
  deriving DecidableEq

/-- `RgbaParseError`. -/
inductive RgbaParseError
  | invalidFormat
  | badComponent (component : RgbaComponent)
  deriving DecidableEq

/-- `str::trim`. -/
def trim (text : List Char) : List Char := (text.dropWhile isWhitespace).rdropWhile isWhitespace

/-- `str::split_once` at a character. -/
def splitOnce (separator : Char) : List Char → Option (List Char × List Char)
  | [] => none
  | c :: rest =>
    if c = separator then some ([], rest)
    else (splitOnce separator rest).map fun parts => (c :: parts.1, parts.2)

/-- `char::to_digit` in base 16. -/
def toDigit (c : Char) : Option ℕ :=
  if '0' ≤ c ∧ c ≤ '9' then some (c.toNat - '0'.toNat)
  else if 'a' ≤ c ∧ c ≤ 'f' then some (c.toNat - 'a'.toNat + 10)
  else if 'A' ≤ c ∧ c ≤ 'F' then some (c.toNat - 'A'.toNat + 10)
  else none

/-- The loop of `u8::from_str_radix` over the digits, which fails on overflow. -/
def parseDigits : List Char → ℕ → Option ℕ
  | [], value => some value
  | c :: rest, value =>
    (toDigit c).bind fun digit =>
      if value * 16 + digit < 2 ^ 8 then parseDigits rest (value * 16 + digit) else none

/-- `u8::from_str_radix` in base 16. A sign alone is no number, and a type without a sign has no
numbers with a `-`. -/
def fromStrRadix : List Char → Option ℕ
  | [] => none
  | ['+'] => none
  | ['-'] => none
  | '+' :: digits => parseDigits digits 0
  | digits => parseDigits digits 0

/-- `duplicate`. -/
def duplicate (value : ℕ) : ℕ := value <<< 4 % 2 ^ 8 ||| value

namespace Rgba

/-- A component of a color, from a range of the bytes. -/
def component (hex : List Char) (start stop : ℕ) (name : RgbaComponent) :
    Except RgbaParseError ℕ :=
  match getBytes hex start stop with
  | none => .error (.badComponent name)
  | some slice =>
    match fromStrRadix slice with
    | none => .error (.badComponent name)
    | some value => .ok value

/-- The components of `#RGB` and `#RGBA`. -/
def shortComponents (hex : List Char) : Except RgbaParseError (ℕ × ℕ × ℕ × ℕ) := do
  let r ← component hex 0 1 .r
  let g ← component hex 1 2 .g
  let b ← component hex 2 3 .b
  let a ← (if utf8Len hex = 4 then component hex 3 4 .a else .ok 0xf)
  pure (duplicate r, duplicate g, duplicate b, duplicate a)

/-- The components of `#RRGGBB` and `#RRGGBBAA`. -/
def longComponents (hex : List Char) : Except RgbaParseError (ℕ × ℕ × ℕ × ℕ) := do
  let r ← component hex 0 2 .r
  let g ← component hex 2 4 .g
  let b ← component hex 4 6 .b
  let a ← (if utf8Len hex = 8 then component hex 6 8 .a else .ok 0xff)
  pure (r, g, b, a)

/-- The components of the digits behind a `#`. -/
def components (hex : List Char) : Except RgbaParseError (ℕ × ℕ × ℕ × ℕ) :=
  match utf8Len hex with
  | 3 | 4 => shortComponents hex
  | 6 | 8 => longComponents hex
  | _ => .error .invalidFormat

variable {F : Type} [NatCast F] [Div F]

/-- The color with the components. -/
def ofComponents (components : ℕ × ℕ × ℕ × ℕ) : Rgba F :=
  let (r, g, b, a) := components
  ⟨r / (255 : ℕ), g / (255 : ℕ), b / (255 : ℕ), a / (255 : ℕ)⟩

/-- `Rgba::try_from`. -/
def tryFrom (value : String) : Except RgbaParseError (Rgba F) :=
  match splitOnce '#' (trim value.toList) with
  | some ([], hex) => (components hex).map ofComponents
  | _ => .error .invalidFormat

/-! ## What digits denote -/

/-- The components that hexadecimal digits denote: single digits are doubled, and without an alpha
the color is opaque. -/
def denoted (hex : List Char) : Option (ℕ × ℕ × ℕ × ℕ) :=
  match hex.mapM toDigit with
  | some [r, g, b] => some (17 * r, 17 * g, 17 * b, 255)
  | some [r, g, b, a] => some (17 * r, 17 * g, 17 * b, 17 * a)
  | some [r, r', g, g', b, b'] => some (16 * r + r', 16 * g + g', 16 * b + b', 255)
  | some [r, r', g, g', b, b', a, a'] =>
    some (16 * r + r', 16 * g + g', 16 * b + b', 16 * a + a')
  | _ => none

/-- The color that a text denotes. -/
def meaning (value : String) : Option (Rgba F) :=
  match trim value.toList with
  | '#' :: hex => (denoted hex).map ofComponents
  | _ => none

/-- Pairs whose second half is a digit, and whose first half is one or a `+`. -/
def signedPairs : List Char → Bool
  | [] => true
  | [_] => false
  | c :: c' :: rest => (c = '+' || (toDigit c).isSome) && (toDigit c').isSome && signedPairs rest

/-- Three or four such pairs behind a `#`, with a `+` in at least one of them. -/
def Signed (value : String) : Prop :=
  ∃ hex, trim value.toList = '#' :: hex ∧ (hex.length = 6 ∨ hex.length = 8) ∧
    signedPairs hex = true ∧ '+' ∈ hex

end Rgba

/-! ## Digits -/

theorem splitOnce_eq_some {separator : Char} {text rest : List Char} :
    splitOnce separator text = some ([], rest) ↔ text = separator :: rest := by
  cases text with
  | nil => simp [splitOnce]
  | cons c text =>
    rw [splitOnce]
    split_ifs with hc
    · simp [hc]
    · simp [hc]

/-- A digit is a single byte. -/
theorem utf8Size_of_toDigit {c : Char} {digit : ℕ} (h : toDigit c = some digit) :
    c.utf8Size = 1 := by
  have hlt : c.val ≤ 127 := by
    have hchar : ∀ d : Char, d.val ≤ 127 → c ≤ d → c.val ≤ 127 := fun d hd hle =>
      UInt32.le_trans hle hd
    rw [toDigit] at h
    split_ifs at h with h1 h2 h3
    · exact hchar '9' (by decide) h1.2
    · exact hchar 'f' (by decide) h2.2
    · exact hchar 'F' (by decide) h3.2
  rw [Char.utf8Size]
  exact if_pos hlt

theorem toDigit_lt {c : Char} {digit : ℕ} (h : toDigit c = some digit) : digit < 16 := by
  have hchar : ∀ d : Char, c ≤ d → c.toNat ≤ d.toNat := fun d hle => hle
  rw [toDigit] at h
  split_ifs at h with h1 h2 h3
  · have := hchar '9' h1.2
    have : '9'.toNat = '0'.toNat + 9 := rfl
    cases h
    omega
  · have := hchar 'f' h2.2
    have : 'f'.toNat = 'a'.toNat + 5 := rfl
    cases h
    omega
  · have := hchar 'F' h3.2
    have : 'F'.toNat = 'A'.toNat + 5 := rfl
    cases h
    omega

theorem duplicate_eq {value : ℕ} (h : value < 16) : duplicate value = 17 * value := by
  interval_cases value <;> rfl

theorem parseDigits_singleton (c : Char) : parseDigits [c] 0 = toDigit c := by
  rw [parseDigits]
  cases hdigit : toDigit c with
  | none => rfl
  | some digit =>
    have hlt := toDigit_lt hdigit
    rw [Option.bind_some, if_pos (by omega), parseDigits, Nat.zero_mul, Nat.zero_add]

theorem parseDigits_pair (c c' : Char) : parseDigits [c, c'] 0 =
    (toDigit c).bind fun digit => (toDigit c').map (16 * digit + ·) := by
  rw [parseDigits]
  cases hdigit : toDigit c with
  | none => rfl
  | some digit =>
    have hlt := toDigit_lt hdigit
    rw [Option.bind_some, Option.bind_some, if_pos (by omega), parseDigits]
    cases hdigit' : toDigit c' with
    | none => rfl
    | some digit' =>
      have hlt' := toDigit_lt hdigit'
      rw [Option.bind_some, if_pos (by omega), parseDigits, Option.map_some]
      congr 1
      omega

theorem fromStrRadix_singleton (c : Char) : fromStrRadix [c] = toDigit c := by
  by_cases hplus : c = '+'
  · subst hplus
    rfl
  by_cases hminus : c = '-'
  · subst hminus
    rfl
  rw [← parseDigits_singleton]
  simp [fromStrRadix, hplus, hminus]

/-- What the parser of integers makes of two characters. -/
def pairValue (c c' : Char) : Option ℕ :=
  if c = '+' then toDigit c'
  else (toDigit c).bind fun digit => (toDigit c').map (16 * digit + ·)

theorem fromStrRadix_pair (c c' : Char) : fromStrRadix [c, c'] = pairValue c c' := by
  rw [pairValue]
  split_ifs with hplus
  · subst hplus
    exact parseDigits_singleton c'
  · rw [← parseDigits_pair]
    simp [fromStrRadix, hplus]

theorem utf8Size_of_pairValue {c c' : Char} {value : ℕ} (h : pairValue c c' = some value) :
    c.utf8Size = 1 ∧ c'.utf8Size = 1 := by
  rw [pairValue] at h
  split_ifs at h with hplus
  · subst hplus
    exact ⟨rfl, utf8Size_of_toDigit h⟩
  · obtain ⟨digit, hdigit, h⟩ := Option.bind_eq_some_iff.mp h
    obtain ⟨digit', hdigit', -⟩ := Option.map_eq_some_iff.mp h
    exact ⟨utf8Size_of_toDigit hdigit, utf8Size_of_toDigit hdigit'⟩

namespace Rgba

/-! ## Components -/

/-- A slice of so many bytes is read as the value. -/
def IsSlice (n : ℕ) (slice : List Char) (value : ℕ) : Prop :=
  utf8Len slice = n ∧ fromStrRadix slice = some value

/-- A slice of one byte is a digit. -/
theorem isSlice_one {slice : List Char} {value : ℕ} :
    IsSlice 1 slice value ↔ ∃ c, slice = [c] ∧ toDigit c = some value := by
  constructor
  · rintro ⟨hlen, hradix⟩
    obtain ⟨c, rfl⟩ := exists_of_utf8Len_eq_one hlen
    exact ⟨c, rfl, fromStrRadix_singleton c ▸ hradix⟩
  · rintro ⟨c, rfl, hdigit⟩
    refine ⟨?_, fromStrRadix_singleton c ▸ hdigit⟩
    rw [utf8Len_cons, utf8Size_of_toDigit hdigit, utf8Len_nil]

/-- A slice of two bytes is a pair. -/
theorem isSlice_two {slice : List Char} {value : ℕ} :
    IsSlice 2 slice value ↔ ∃ c c', slice = [c, c'] ∧ pairValue c c' = some value := by
  constructor
  · rintro ⟨hlen, hradix⟩
    rcases exists_of_utf8Len_eq_two hlen with ⟨c, rfl, hsize⟩ | ⟨c, c', rfl⟩
    · -- one character of two bytes is no digit
      rw [fromStrRadix_singleton] at hradix
      have := utf8Size_of_toDigit hradix
      omega
    · exact ⟨c, c', rfl, fromStrRadix_pair c c' ▸ hradix⟩
  · rintro ⟨c, c', rfl, hpair⟩
    obtain ⟨hsize, hsize'⟩ := utf8Size_of_pairValue hpair
    refine ⟨?_, fromStrRadix_pair c c' ▸ hpair⟩
    rw [utf8Len_cons, utf8Len_cons, hsize, hsize', utf8Len_nil]

variable {hex : List Char} {n r g b a : ℕ} {name : RgbaComponent}

theorem component_eq_ok (before : List Char) {rest : List Char} {start value : ℕ}
    (hhex : hex = before ++ rest) (hstart : utf8Len before = start) :
    component hex start (start + n) name = .ok value ↔
      ∃ slice rest', rest = slice ++ rest' ∧ IsSlice n slice value := by
  subst hhex hstart
  have hok : component (before ++ rest) (utf8Len before) (utf8Len before + n) name = .ok value ↔
      ∃ parts, splitAtByte rest n = some parts ∧ fromStrRadix parts.1 = some value := by
    rw [component, getBytes_append]
    cases splitAtByte rest n with
    | none => simp
    | some parts =>
      rw [Option.map_some]
      cases hradix : fromStrRadix parts.1 <;> simp [hradix]
  rw [hok]
  constructor
  · rintro ⟨parts, hsplit, hradix⟩
    obtain ⟨hrest, hlen⟩ := splitAtByte_eq_some.mp hsplit
    exact ⟨parts.1, parts.2, hrest, hlen, hradix⟩
  · rintro ⟨slice, rest', hrest, hlen, hradix⟩
    exact ⟨(slice, rest'), splitAtByte_eq_some.mpr ⟨hrest, hlen⟩, hradix⟩

/-- The first three components are slices one after the other. -/
theorem components_eq_ok :
    (component hex 0 (0 + n) .r = .ok r ∧ component hex n (n + n) .g = .ok g ∧
      component hex (n + n) (n + n + n) .b = .ok b) ↔
      ∃ x y z rest, hex = x ++ (y ++ (z ++ rest)) ∧ IsSlice n x r ∧ IsSlice n y g ∧
        IsSlice n z b := by
  constructor
  · rintro ⟨hr, hg, hb⟩
    obtain ⟨x, rest, hhex, hx⟩ := (component_eq_ok [] rfl rfl).mp hr
    obtain ⟨y, rest, rfl, hy⟩ := (component_eq_ok x hhex hx.1).mp hg
    have hlen : utf8Len (x ++ y) = n + n := by rw [utf8Len_append, hx.1, hy.1]
    rw [← List.append_assoc] at hhex
    obtain ⟨z, rest, rfl, hz⟩ := (component_eq_ok (x ++ y) hhex hlen).mp hb
    exact ⟨x, y, z, rest, by rw [hhex, List.append_assoc], hx, hy, hz⟩
  · rintro ⟨x, y, z, rest, hhex, hx, hy, hz⟩
    have hlen : utf8Len (x ++ y) = n + n := by rw [utf8Len_append, hx.1, hy.1]
    refine ⟨(component_eq_ok [] rfl rfl).mpr ⟨x, _, hhex, hx⟩,
      (component_eq_ok x hhex hx.1).mpr ⟨y, _, rfl, hy⟩, ?_⟩
    rw [← List.append_assoc] at hhex
    exact (component_eq_ok (x ++ y) hhex hlen).mpr ⟨z, _, rfl, hz⟩

/-- Three slices are the whole text when it is as long. -/
theorem three_components (hlen : utf8Len hex = 3 * n) :
    (component hex 0 (0 + n) .r = .ok r ∧ component hex n (n + n) .g = .ok g ∧
      component hex (n + n) (n + n + n) .b = .ok b) ↔
      ∃ x y z, hex = x ++ (y ++ z) ∧ IsSlice n x r ∧ IsSlice n y g ∧ IsSlice n z b := by
  rw [components_eq_ok]
  constructor
  · rintro ⟨x, y, z, rest, rfl, hx, hy, hz⟩
    have hrest : utf8Len rest = 0 := by
      rw [utf8Len_append, utf8Len_append, utf8Len_append, hx.1, hy.1, hz.1] at hlen
      omega
    rw [utf8Len_eq_zero.mp hrest, List.append_nil]
    exact ⟨x, y, z, rfl, hx, hy, hz⟩
  · rintro ⟨x, y, z, hhex, hx, hy, hz⟩
    exact ⟨x, y, z, [], by rw [hhex, List.append_nil], hx, hy, hz⟩

/-- With an alpha there are four of them. -/
theorem four_components (hlen : utf8Len hex = 4 * n) :
    ((component hex 0 (0 + n) .r = .ok r ∧ component hex n (n + n) .g = .ok g ∧
      component hex (n + n) (n + n + n) .b = .ok b) ∧
      component hex (n + n + n) (n + n + n + n) .a = .ok a) ↔
      ∃ x y z w, hex = x ++ (y ++ (z ++ w)) ∧ IsSlice n x r ∧ IsSlice n y g ∧ IsSlice n z b ∧
        IsSlice n w a := by
  rw [components_eq_ok]
  have hstart : ∀ {x y z : List Char}, IsSlice n x r → IsSlice n y g → IsSlice n z b →
      utf8Len (x ++ (y ++ z)) = n + n + n := by
    intro x y z hx hy hz
    rw [utf8Len_append, utf8Len_append, hx.1, hy.1, hz.1, Nat.add_assoc]
  constructor
  · rintro ⟨⟨x, y, z, rest, hhex, hx, hy, hz⟩, ha⟩
    have hhex' : hex = (x ++ (y ++ z)) ++ rest := by simp [hhex]
    obtain ⟨w, rest', rfl, hw⟩ := (component_eq_ok _ hhex' (hstart hx hy hz)).mp ha
    have hrest : utf8Len rest' = 0 := by
      rw [hhex, utf8Len_append, utf8Len_append, utf8Len_append, utf8Len_append, hx.1, hy.1, hz.1,
        hw.1] at hlen
      omega
    rw [utf8Len_eq_zero.mp hrest, List.append_nil] at hhex
    exact ⟨x, y, z, w, hhex, hx, hy, hz, hw⟩
  · rintro ⟨x, y, z, w, hhex, hx, hy, hz, hw⟩
    have hhex' : hex = (x ++ (y ++ z)) ++ w := by simp [hhex]
    exact ⟨⟨x, y, z, w, hhex, hx, hy, hz⟩, (component_eq_ok _ hhex' (hstart hx hy hz)).mpr
      ⟨w, [], (List.append_nil w).symm, hw⟩⟩

/-! ## The parser -/

theorem bind_eq_ok {α β : Type} {x : Except RgbaParseError α} {f : α → Except RgbaParseError β}
    {result : β} : (x >>= f) = .ok result ↔ ∃ a, x = .ok a ∧ f a = .ok result := by
  cases x with
  | error e => simp [bind, Except.bind]
  | ok a => simp [bind, Except.bind]

/-- Single digits are read as what they denote. -/
theorem denoted_of_shortComponents {components : ℕ × ℕ × ℕ × ℕ}
    (hlen : utf8Len hex = 3 ∨ utf8Len hex = 4) (h : shortComponents hex = .ok components) :
    denoted hex = some components := by
  obtain ⟨r, hr, h⟩ := bind_eq_ok.mp h
  obtain ⟨g, hg, h⟩ := bind_eq_ok.mp h
  obtain ⟨b, hb, h⟩ := bind_eq_ok.mp h
  obtain ⟨a, ha, h⟩ := bind_eq_ok.mp h
  cases h
  rcases hlen with hlen | hlen
  · obtain ⟨_, _, _, rfl, hx, hy, hz⟩ := (three_components (n := 1) hlen).mp ⟨hr, hg, hb⟩
    obtain ⟨x, rfl, hx'⟩ := isSlice_one.mp hx
    obtain ⟨y, rfl, hy'⟩ := isSlice_one.mp hy
    obtain ⟨z, rfl, hz'⟩ := isSlice_one.mp hz
    rw [if_neg (by omega)] at ha
    cases ha
    rw [duplicate_eq (toDigit_lt hx'), duplicate_eq (toDigit_lt hy'),
      duplicate_eq (toDigit_lt hz')]
    simp [denoted, hx', hy', hz', duplicate]
  · rw [if_pos hlen] at ha
    obtain ⟨_, _, _, _, rfl, hx, hy, hz, hw⟩ :=
      (four_components (n := 1) hlen).mp ⟨⟨hr, hg, hb⟩, ha⟩
    obtain ⟨x, rfl, hx'⟩ := isSlice_one.mp hx
    obtain ⟨y, rfl, hy'⟩ := isSlice_one.mp hy
    obtain ⟨z, rfl, hz'⟩ := isSlice_one.mp hz
    obtain ⟨w, rfl, hw'⟩ := isSlice_one.mp hw
    rw [duplicate_eq (toDigit_lt hx'), duplicate_eq (toDigit_lt hy'),
      duplicate_eq (toDigit_lt hz'), duplicate_eq (toDigit_lt hw')]
    simp [denoted, hx', hy', hz', hw']

/-- A pair without a `+` is two digits. -/
theorem digits_of_pairValue {c c' : Char} {value : ℕ} (h : pairValue c c' = some value)
    (hplus : c ≠ '+') : ∃ digit digit', toDigit c = some digit ∧ toDigit c' = some digit' ∧
      16 * digit + digit' = value := by
  rw [pairValue, if_neg hplus] at h
  obtain ⟨digit, hdigit, h⟩ := Option.bind_eq_some_iff.mp h
  obtain ⟨digit', hdigit', h⟩ := Option.map_eq_some_iff.mp h
  exact ⟨digit, digit', hdigit, hdigit', h⟩

/-- What can be read is the pairs with a digit or a `+` in front. -/
theorem isSome_pairValue (c c' : Char) : (pairValue c c').isSome =
    ((c = '+' || (toDigit c).isSome) && (toDigit c').isSome) := by
  rw [pairValue]
  split_ifs with hplus
  · simp [hplus]
  · cases toDigit c <;> simp [hplus]

/-- Pairs are read as what they denote, or there is a `+` in them. -/
theorem denoted_of_longComponents {components : ℕ × ℕ × ℕ × ℕ}
    (hlen : utf8Len hex = 6 ∨ utf8Len hex = 8) (h : longComponents hex = .ok components) :
    denoted hex = some components ∨
      (hex.length = 6 ∨ hex.length = 8) ∧ signedPairs hex = true ∧ '+' ∈ hex := by
  obtain ⟨r, hr, h⟩ := bind_eq_ok.mp h
  obtain ⟨g, hg, h⟩ := bind_eq_ok.mp h
  obtain ⟨b, hb, h⟩ := bind_eq_ok.mp h
  obtain ⟨a, ha, h⟩ := bind_eq_ok.mp h
  cases h
  rcases hlen with hlen | hlen
  · obtain ⟨_, _, _, rfl, hx, hy, hz⟩ := (three_components (n := 2) hlen).mp ⟨hr, hg, hb⟩
    obtain ⟨x, x', rfl, hx'⟩ := isSlice_two.mp hx
    obtain ⟨y, y', rfl, hy'⟩ := isSlice_two.mp hy
    obtain ⟨z, z', rfl, hz'⟩ := isSlice_two.mp hz
    rw [if_neg (by omega)] at ha
    cases ha
    by_cases hplus : '+' ∈ [x, x'] ++ ([y, y'] ++ [z, z'])
    · refine .inr ⟨.inl rfl, ?_, hplus⟩
      simp [signedPairs, ← isSome_pairValue, hx', hy', hz']
    · simp only [List.cons_append, List.nil_append, List.mem_cons, not_or] at hplus
      obtain ⟨dx, dx', hdx, hdx', rfl⟩ := digits_of_pairValue hx' (Ne.symm hplus.1)
      obtain ⟨dy, dy', hdy, hdy', rfl⟩ := digits_of_pairValue hy' (Ne.symm hplus.2.2.1)
      obtain ⟨dz, dz', hdz, hdz', rfl⟩ := digits_of_pairValue hz' (Ne.symm hplus.2.2.2.2.1)
      left
      simp [denoted, hdx, hdx', hdy, hdy', hdz, hdz']
  · rw [if_pos hlen] at ha
    obtain ⟨_, _, _, _, rfl, hx, hy, hz, hw⟩ :=
      (four_components (n := 2) hlen).mp ⟨⟨hr, hg, hb⟩, ha⟩
    obtain ⟨x, x', rfl, hx'⟩ := isSlice_two.mp hx
    obtain ⟨y, y', rfl, hy'⟩ := isSlice_two.mp hy
    obtain ⟨z, z', rfl, hz'⟩ := isSlice_two.mp hz
    obtain ⟨w, w', rfl, hw'⟩ := isSlice_two.mp hw
    by_cases hplus : '+' ∈ [x, x'] ++ ([y, y'] ++ ([z, z'] ++ [w, w']))
    · refine .inr ⟨.inr rfl, ?_, hplus⟩
      simp [signedPairs, ← isSome_pairValue, hx', hy', hz', hw']
    · simp only [List.cons_append, List.nil_append, List.mem_cons, not_or] at hplus
      obtain ⟨dx, dx', hdx, hdx', rfl⟩ := digits_of_pairValue hx' (Ne.symm hplus.1)
      obtain ⟨dy, dy', hdy, hdy', rfl⟩ := digits_of_pairValue hy' (Ne.symm hplus.2.2.1)
      obtain ⟨dz, dz', hdz, hdz', rfl⟩ := digits_of_pairValue hz' (Ne.symm hplus.2.2.2.2.1)
      obtain ⟨dw, dw', hdw, hdw', rfl⟩ := digits_of_pairValue hw' (Ne.symm hplus.2.2.2.2.2.2.1)
      left
      simp [denoted, hdx, hdx', hdy, hdy', hdz, hdz', hdw, hdw']

/-- The components of a short color from its bytes. -/
theorem shortComponents_of_components
    (h : component hex 0 1 .r = .ok r ∧ component hex 1 2 .g = .ok g ∧ component hex 2 3 .b = .ok b)
    (ha : (if utf8Len hex = 4 then component hex 3 4 .a else .ok 0xf) = .ok a) :
    shortComponents hex = .ok (duplicate r, duplicate g, duplicate b, duplicate a) :=
  bind_eq_ok.mpr ⟨r, h.1, bind_eq_ok.mpr ⟨g, h.2.1, bind_eq_ok.mpr ⟨b, h.2.2,
    bind_eq_ok.mpr ⟨a, ha, rfl⟩⟩⟩⟩

/-- The components of a long color from its bytes. -/
theorem longComponents_of_components
    (h : component hex 0 2 .r = .ok r ∧ component hex 2 4 .g = .ok g ∧ component hex 4 6 .b = .ok b)
    (ha : (if utf8Len hex = 8 then component hex 6 8 .a else .ok 0xff) = .ok a) :
    longComponents hex = .ok (r, g, b, a) :=
  bind_eq_ok.mpr ⟨r, h.1, bind_eq_ok.mpr ⟨g, h.2.1, bind_eq_ok.mpr ⟨b, h.2.2,
    bind_eq_ok.mpr ⟨a, ha, rfl⟩⟩⟩⟩

section Slices

variable {x y z w x' y' z' w' : Char}

theorem shortComponents_three (hx : toDigit x = some r) (hy : toDigit y = some g)
    (hz : toDigit z = some b) : utf8Len [x, y, z] = 3 ∧
      shortComponents [x, y, z] = .ok (17 * r, 17 * g, 17 * b, 255) := by
  have hlen : utf8Len [x, y, z] = 3 := by
    simp [utf8Size_of_toDigit hx, utf8Size_of_toDigit hy, utf8Size_of_toDigit hz]
  have h := shortComponents_of_components (a := 0xf)
    ((three_components (n := 1) hlen).mpr ⟨[x], [y], [z], rfl, isSlice_one.mpr ⟨x, rfl, hx⟩,
      isSlice_one.mpr ⟨y, rfl, hy⟩, isSlice_one.mpr ⟨z, rfl, hz⟩⟩)
    (if_neg (by omega))
  rw [duplicate_eq (toDigit_lt hx), duplicate_eq (toDigit_lt hy), duplicate_eq (toDigit_lt hz)] at h
  exact ⟨hlen, h⟩

theorem shortComponents_four (hx : toDigit x = some r) (hy : toDigit y = some g)
    (hz : toDigit z = some b) (hw : toDigit w = some a) : utf8Len [x, y, z, w] = 4 ∧
      shortComponents [x, y, z, w] = .ok (17 * r, 17 * g, 17 * b, 17 * a) := by
  have hlen : utf8Len [x, y, z, w] = 4 := by
    simp [utf8Size_of_toDigit hx, utf8Size_of_toDigit hy, utf8Size_of_toDigit hz,
      utf8Size_of_toDigit hw]
  obtain ⟨h, ha⟩ := (four_components (n := 1) hlen).mpr ⟨[x], [y], [z], [w], rfl,
    isSlice_one.mpr ⟨x, rfl, hx⟩, isSlice_one.mpr ⟨y, rfl, hy⟩, isSlice_one.mpr ⟨z, rfl, hz⟩,
    isSlice_one.mpr ⟨w, rfl, hw⟩⟩
  have h := shortComponents_of_components h ((if_pos hlen).trans ha)
  rw [duplicate_eq (toDigit_lt hx), duplicate_eq (toDigit_lt hy), duplicate_eq (toDigit_lt hz),
    duplicate_eq (toDigit_lt hw)] at h
  exact ⟨hlen, h⟩

theorem longComponents_six (hx : pairValue x x' = some r) (hy : pairValue y y' = some g)
    (hz : pairValue z z' = some b) : utf8Len [x, x', y, y', z, z'] = 6 ∧
      longComponents [x, x', y, y', z, z'] = .ok (r, g, b, 255) := by
  have hlen : utf8Len [x, x', y, y', z, z'] = 6 := by
    simp [utf8Size_of_pairValue hx, utf8Size_of_pairValue hy, utf8Size_of_pairValue hz]
  have h := (three_components (n := 2) hlen).mpr ⟨[x, x'], [y, y'], [z, z'], rfl,
    isSlice_two.mpr ⟨x, x', rfl, hx⟩, isSlice_two.mpr ⟨y, y', rfl, hy⟩,
    isSlice_two.mpr ⟨z, z', rfl, hz⟩⟩
  exact ⟨hlen, longComponents_of_components h (if_neg (by omega))⟩

theorem longComponents_eight (hx : pairValue x x' = some r) (hy : pairValue y y' = some g)
    (hz : pairValue z z' = some b) (hw : pairValue w w' = some a) :
    utf8Len [x, x', y, y', z, z', w, w'] = 8 ∧
      longComponents [x, x', y, y', z, z', w, w'] = .ok (r, g, b, a) := by
  have hlen : utf8Len [x, x', y, y', z, z', w, w'] = 8 := by
    simp [utf8Size_of_pairValue hx, utf8Size_of_pairValue hy, utf8Size_of_pairValue hz,
      utf8Size_of_pairValue hw]
  obtain ⟨h, ha⟩ := (four_components (n := 2) hlen).mpr ⟨[x, x'], [y, y'], [z, z'], [w, w'], rfl,
    isSlice_two.mpr ⟨x, x', rfl, hx⟩, isSlice_two.mpr ⟨y, y', rfl, hy⟩,
    isSlice_two.mpr ⟨z, z', rfl, hz⟩, isSlice_two.mpr ⟨w, w', rfl, hw⟩⟩
  exact ⟨hlen, longComponents_of_components h ((if_pos hlen).trans ha)⟩

end Slices

theorem pairValue_of_digits {c c' : Char} {digit digit' : ℕ} (h : toDigit c = some digit)
    (h' : toDigit c' = some digit') : pairValue c c' = some (16 * digit + digit') := by
  have hplus : c ≠ '+' := by
    rintro rfl
    cases h
  rw [pairValue, if_neg hplus, h, h']
  rfl

theorem mapM_toDigit_nil {text : List Char} : text.mapM toDigit = some [] ↔ text = [] := by
  cases text <;> simp [Option.bind_eq_some_iff]

theorem mapM_toDigit_cons {text : List Char} {digit : ℕ} {digits : List ℕ} :
    text.mapM toDigit = some (digit :: digits) ↔
      ∃ c rest, text = c :: rest ∧ toDigit c = some digit ∧ rest.mapM toDigit = some digits := by
  cases text <;> simp [Option.bind_eq_some_iff]

theorem components_of_short (hlen : utf8Len hex = 3 ∨ utf8Len hex = 4) :
    components hex = shortComponents hex := by
  rw [components]
  rcases hlen with hlen | hlen <;> simp only [hlen]

theorem components_of_long (hlen : utf8Len hex = 6 ∨ utf8Len hex = 8) :
    components hex = longComponents hex := by
  rw [components]
  rcases hlen with hlen | hlen <;> simp only [hlen]

/-- Digits are read as what they denote. -/
theorem components_of_denoted {result : ℕ × ℕ × ℕ × ℕ} (h : denoted hex = some result) :
    components hex = .ok result := by
  rw [denoted] at h
  split at h
  next r g b hdigits =>
    simp only [mapM_toDigit_cons, mapM_toDigit_nil] at hdigits
    obtain ⟨x, _, rfl, hx, y, _, rfl, hy, z, _, rfl, hz, rfl⟩ := hdigits
    obtain ⟨hlen, hshort⟩ := shortComponents_three hx hy hz
    cases h
    rw [components_of_short (.inl hlen), hshort]
  next r g b a hdigits =>
    simp only [mapM_toDigit_cons, mapM_toDigit_nil] at hdigits
    obtain ⟨x, _, rfl, hx, y, _, rfl, hy, z, _, rfl, hz, w, _, rfl, hw, rfl⟩ := hdigits
    obtain ⟨hlen, hshort⟩ := shortComponents_four hx hy hz hw
    cases h
    rw [components_of_short (.inr hlen), hshort]
  next r r' g g' b b' hdigits =>
    simp only [mapM_toDigit_cons, mapM_toDigit_nil] at hdigits
    obtain ⟨x, _, rfl, hx, x', _, rfl, hx', y, _, rfl, hy, y', _, rfl, hy', z, _, rfl, hz, z', _,
      rfl, hz', rfl⟩ := hdigits
    obtain ⟨hlen, hlong⟩ := longComponents_six (pairValue_of_digits hx hx')
      (pairValue_of_digits hy hy') (pairValue_of_digits hz hz')
    cases h
    rw [components_of_long (.inl hlen), hlong]
  next r r' g g' b b' a a' hdigits =>
    simp only [mapM_toDigit_cons, mapM_toDigit_nil] at hdigits
    obtain ⟨x, _, rfl, hx, x', _, rfl, hx', y, _, rfl, hy, y', _, rfl, hy', z, _, rfl, hz, z', _,
      rfl, hz', w, _, rfl, hw, w', _, rfl, hw', rfl⟩ := hdigits
    obtain ⟨hlen, hlong⟩ := longComponents_eight (pairValue_of_digits hx hx')
      (pairValue_of_digits hy hy') (pairValue_of_digits hz hz') (pairValue_of_digits hw hw')
    cases h
    rw [components_of_long (.inr hlen), hlong]
  next => cases h

/-- What is read is what the digits denote, or there is a `+` in them. -/
theorem denoted_of_components {result : ℕ × ℕ × ℕ × ℕ} (h : components hex = .ok result) :
    denoted hex = some result ∨
      (hex.length = 6 ∨ hex.length = 8) ∧ signedPairs hex = true ∧ '+' ∈ hex := by
  by_cases hshort : utf8Len hex = 3 ∨ utf8Len hex = 4
  · rw [components_of_short hshort] at h
    exact .inl (denoted_of_shortComponents hshort h)
  by_cases hlong : utf8Len hex = 6 ∨ utf8Len hex = 8
  · rw [components_of_long hlong] at h
    exact denoted_of_longComponents hlong h
  · rw [components] at h
    split at h
    all_goals first
      | omega
      | cases h

theorem signedPairs_cons (hlen : hex.length = n + 2) (h : signedPairs hex = true) :
    ∃ c c' value rest, hex = c :: c' :: rest ∧ pairValue c c' = some value ∧ rest.length = n ∧
      signedPairs rest = true := by
  rcases hex with _ | ⟨c, _ | ⟨c', rest⟩⟩
  · cases hlen
  · cases hlen
  · rw [signedPairs, ← isSome_pairValue, Bool.and_eq_true, Option.isSome_iff_exists] at h
    obtain ⟨⟨value, hvalue⟩, hrest⟩ := h
    exact ⟨c, c', value, rest, rfl, hvalue, by simpa using hlen, hrest⟩

/-- Pairs with a `+` in front are read. -/
theorem components_of_signedPairs (hlen : hex.length = 6 ∨ hex.length = 8)
    (h : signedPairs hex = true) : ∃ result, components hex = .ok result := by
  rcases hlen with hlen | hlen
  · obtain ⟨x, x', r, _, rfl, hx, hlen, h⟩ := signedPairs_cons (n := 4) hlen h
    obtain ⟨y, y', g, _, rfl, hy, hlen, h⟩ := signedPairs_cons (n := 2) hlen h
    obtain ⟨z, z', b, _, rfl, hz, hlen, h⟩ := signedPairs_cons (n := 0) hlen h
    obtain rfl := List.eq_nil_of_length_eq_zero hlen
    obtain ⟨hlen, hlong⟩ := longComponents_six hx hy hz
    exact ⟨_, (components_of_long (.inl hlen)).trans hlong⟩
  · obtain ⟨x, x', r, _, rfl, hx, hlen, h⟩ := signedPairs_cons (n := 6) hlen h
    obtain ⟨y, y', g, _, rfl, hy, hlen, h⟩ := signedPairs_cons (n := 4) hlen h
    obtain ⟨z, z', b, _, rfl, hz, hlen, h⟩ := signedPairs_cons (n := 2) hlen h
    obtain ⟨w, w', a, _, rfl, hw, hlen, h⟩ := signedPairs_cons (n := 0) hlen h
    obtain rfl := List.eq_nil_of_length_eq_zero hlen
    obtain ⟨hlen, hlong⟩ := longComponents_eight hx hy hz hw
    exact ⟨_, (components_of_long (.inr hlen)).trans hlong⟩

/-- But they denote nothing. -/
theorem denoted_of_plus (h : '+' ∈ hex) : denoted hex = none := by
  have hdigits : hex.mapM toDigit = none := by
    induction hex with
    | nil => cases h
    | cons c rest ih =>
      rw [List.mapM_cons]
      rcases List.mem_cons.mp h with rfl | hrest
      · rfl
      · rw [ih hrest]
        cases toDigit c <;> rfl
  rw [denoted, hdigits]

variable {F : Type} [NatCast F] [Div F]

theorem tryFrom_of_hash {value : String} (h : trim value.toList = '#' :: hex) :
    (tryFrom value : Except RgbaParseError (Rgba F)) = (components hex).map ofComponents := by
  rw [tryFrom, splitOnce_eq_some.mpr h]

theorem tryFrom_of_not_hash {value : String} (h : ∀ hex, trim value.toList ≠ '#' :: hex) :
    (tryFrom value : Except RgbaParseError (Rgba F)) = .error .invalidFormat := by
  rw [tryFrom]
  split
  next hex hsplit => exact absurd (splitOnce_eq_some.mp hsplit) (h hex)
  next => rfl

theorem meaning_of_hash {value : String} (h : trim value.toList = '#' :: hex) :
    (meaning value : Option (Rgba F)) = (denoted hex).map ofComponents := by
  simp only [meaning, h]

theorem meaning_of_not_hash {value : String} (h : ∀ hex, trim value.toList ≠ '#' :: hex) :
    (meaning value : Option (Rgba F)) = none := by
  rw [meaning]
  split
  next hex hhex => exact absurd hhex (h hex)
  next => rfl

/-- The parser accepts what denotes a color and returns it, and fails on all other texts, exactly
for the texts without a `+` for the first digit of a pair. -/
theorem tryFrom_toOption_iff (F : Type) [NatCast F] [Div F] (value : String) :
    (tryFrom value : Except RgbaParseError (Rgba F)).toOption = meaning value ↔ ¬ Signed value := by
  by_cases hhash : ∃ hex, trim value.toList = '#' :: hex
  · obtain ⟨hex, hhex⟩ := hhash
    rw [tryFrom_of_hash hhex, meaning_of_hash hhex]
    constructor
    · rintro heq ⟨hex', hhex', hlen, hpairs, hplus⟩
      obtain rfl : hex = hex' := (List.cons.inj (hhex.symm.trans hhex')).2
      obtain ⟨result, hresult⟩ := components_of_signedPairs hlen hpairs
      rw [hresult, denoted_of_plus hplus] at heq
      cases heq
    · intro hsigned
      cases hresult : components hex with
      | ok result =>
        rcases denoted_of_components hresult with hdenoted | hplus
        · rw [hdenoted]
          rfl
        · exact absurd ⟨hex, hhex, hplus⟩ hsigned
      | error e =>
        cases hdenoted : denoted hex with
        | none => rfl
        | some result =>
          rw [components_of_denoted hdenoted] at hresult
          cases hresult
  · have hnone : ∀ hex, trim value.toList ≠ '#' :: hex := fun hex hhex => hhash ⟨hex, hhex⟩
    rw [tryFrom_of_not_hash hnone, meaning_of_not_hash hnone]
    refine iff_of_true rfl ?_
    rintro ⟨hex, hhex, -⟩
    exact hnone hex hhex

/-- A `+` is read for the first digit of each pair. -/
theorem tryFrom_signs :
    (tryFrom "#+1+2+3" : Except RgbaParseError (Rgba ℚ)) = .ok (ofComponents (1, 2, 3, 255)) ∧
      (meaning "#+1+2+3" : Option (Rgba ℚ)) = none := by
  have hhash : trim "#+1+2+3".toList = '#' :: "+1+2+3".toList := by decide
  have hcomponents : components "+1+2+3".toList = .ok (1, 2, 3, 255) := by decide
  rw [tryFrom_of_hash hhash, meaning_of_hash hhash, hcomponents, denoted_of_plus (by decide)]
  exact ⟨rfl, rfl⟩

end Rgba

end Lucie
