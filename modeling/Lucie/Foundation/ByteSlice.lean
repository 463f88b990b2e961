import Mathlib.Data.String.Basic

/-!
# Slices by bytes

A text in UTF-8 can be cut at a byte only where a character starts.
-/

set_option autoImplicit false

namespace Lucie.Foundation

open String

/-- Cut a text at a byte, if a character starts there or the text ends there. -/
def splitAtByte : List Char → ℕ → Option (List Char × List Char)
  | text, 0 => some ([], text)
  | [], _ + 1 => none
  | c :: rest, n + 1 =>
    if c.utf8Size ≤ n + 1 then
      (splitAtByte rest (n + 1 - c.utf8Size)).map fun parts => (c :: parts.1, parts.2)
    else none

/-- `str::get` of a range of bytes. -/
def getBytes (text : List Char) (start stop : ℕ) : Option (List Char) :=
  if start ≤ stop then
    (splitAtByte text start).bind fun parts =>
      (splitAtByte parts.2 (stop - start)).map Prod.fst
  else none

@[simp] theorem splitAtByte_zero (text : List Char) : splitAtByte text 0 = some ([], text) := by
  rw [splitAtByte]

theorem splitAtByte_cons (c : Char) (text : List Char) {n : ℕ} (hpos : 0 < n) :
    splitAtByte (c :: text) n =
      if c.utf8Size ≤ n then
        (splitAtByte text (n - c.utf8Size)).map fun parts => (c :: parts.1, parts.2)
      else none := by
  obtain ⟨n, rfl⟩ := Nat.exists_eq_succ_of_ne_zero (Nat.ne_of_gt hpos)
  rfl

/-- A text is cut behind any of its beginnings. -/
theorem splitAtByte_append (before rest : List Char) :
    splitAtByte (before ++ rest) (utf8Len before) = some (before, rest) := by
  induction before with
  | nil => rw [List.nil_append, utf8Len_nil, splitAtByte_zero]
  | cons c before ih =>
    have hpos := c.utf8Size_pos
    rw [List.cons_append, utf8Len_cons, splitAtByte_cons c _ (by omega), if_pos (by omega),
      Nat.add_sub_cancel, ih]
    rfl

theorem splitAtByte_eq_some {text slice rest : List Char} {n : ℕ} :
    splitAtByte text n = some (slice, rest) ↔ text = slice ++ rest ∧ utf8Len slice = n := by
  constructor
  · intro h
    induction text generalizing n slice with
    | nil =>
      cases n with
      | zero =>
        cases h
        exact ⟨rfl, rfl⟩
      | succ n => cases h
    | cons c text ih =>
      rcases n.eq_zero_or_pos with rfl | hpos
      · rw [splitAtByte_zero] at h
        cases h
        exact ⟨rfl, rfl⟩
      rw [splitAtByte_cons c text hpos] at h
      split_ifs at h with hsize
      obtain ⟨⟨slice, rest⟩, hparts, heq⟩ := Option.map_eq_some_iff.mp h
      cases heq
      obtain ⟨rfl, hlen⟩ := ih hparts
      exact ⟨rfl, by rw [utf8Len_cons, hlen, Nat.sub_add_cancel hsize]⟩
  · rintro ⟨rfl, rfl⟩
    exact splitAtByte_append slice rest

/-- A text is cut behind another cut. -/
theorem splitAtByte_add {text before rest : List Char} {n : ℕ}
    (h : splitAtByte text n = some (before, rest)) (m : ℕ) :
    splitAtByte text (n + m) =
      (splitAtByte rest m).map fun parts => (before ++ parts.1, parts.2) := by
  obtain ⟨rfl, rfl⟩ := splitAtByte_eq_some.mp h
  clear h
  induction before with
  | nil => simp
  | cons c before ih =>
    have hpos := c.utf8Size_pos
    have hsub : utf8Len before + c.utf8Size + m - c.utf8Size = utf8Len before + m := by omega
    rw [List.cons_append, utf8Len_cons, splitAtByte_cons c _ (by omega), if_pos (by omega), hsub,
      ih, Option.map_map]
    rfl

/-- A slice that starts behind a beginning of the text. -/
theorem getBytes_append (before rest : List Char) (n : ℕ) :
    getBytes (before ++ rest) (utf8Len before) (utf8Len before + n) =
      (splitAtByte rest n).map Prod.fst := by
  rw [getBytes, if_pos (by omega), splitAtByte_append, Option.bind_some, Nat.add_sub_cancel_left]

theorem exists_of_utf8Len_eq_one {text : List Char} (h : utf8Len text = 1) : ∃ c, text = [c] := by
  rcases text with _ | ⟨c, _ | ⟨c', text⟩⟩
  · cases h
  · exact ⟨c, rfl⟩
  · have hpos := c.utf8Size_pos
    have hpos' := c'.utf8Size_pos
    rw [utf8Len_cons, utf8Len_cons] at h
    omega

/-- Two bytes are one character or two. -/
theorem exists_of_utf8Len_eq_two {text : List Char} (h : utf8Len text = 2) :
    (∃ c, text = [c] ∧ c.utf8Size = 2) ∨ ∃ c c', text = [c, c'] := by
  rcases text with _ | ⟨c, _ | ⟨c', _ | ⟨c'', text⟩⟩⟩
  · cases h
  · exact .inl ⟨c, rfl, by rwa [utf8Len_cons, utf8Len_nil, Nat.zero_add] at h⟩
  · exact .inr ⟨c, c', rfl⟩
  · have hpos := c.utf8Size_pos
    have hpos' := c'.utf8Size_pos
    have hpos'' := c''.utf8Size_pos
    rw [utf8Len_cons, utf8Len_cons, utf8Len_cons] at h
    omega

end Lucie.Foundation
