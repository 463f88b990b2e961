import Lucie.Foundation.ByteSlice

/-!
# The text with its soft wraps

`wrapped_text` is to make every soft wrap of a layout a newline. It puts one behind every line but
the last, whatever ends the line. A line that ends in a hard break has its newline in its range
already and gets a second one.
-/

set_option autoImplicit false

namespace Lucie

open Foundation
open String (utf8Len utf8Len_append utf8Len_cons)

/-- `BreakReason`, why a line ends. -/
inductive BreakReason
  | none
  | regular
  | explicit
  | emergency
  deriving DecidableEq

/-- `Line`, with its range of bytes. -/
structure WrappedLine where
  start : ℕ
  stop : ℕ
  breakReason : BreakReason

namespace WrappedLine

/-- The line was full. -/
def IsSoft (line : WrappedLine) : Prop :=
  line.breakReason = .regular ∨ line.breakReason = .emergency

instance (line : WrappedLine) : Decidable line.IsSoft := inferInstanceAs (Decidable (_ ∨ _))

/-- The part of the text that is in the line. -/
def slice (text : List Char) (line : WrappedLine) : List Char :=
  (getBytes text line.start line.stop).getD []

end WrappedLine

namespace TextLayout

/-- `TextLayout::wrapped_text`. It panics if a line does not begin and end between characters. -/
def wrappedText (text : List Char) (lines : List WrappedLine) : Option (List Char) :=
  (lines.foldlM (fun accumulator line =>
      (getBytes text line.start line.stop).map fun slice => accumulator ++ slice ++ ['\n'])
    []).map List.dropLast

/-! ## What it should be -/

/-- From a byte on, the lines follow each other to the end of the text. -/
def CoversFrom (text : List Char) : ℕ → List WrappedLine → Prop
  | index, [] => index = utf8Len text
  | index, line :: lines =>
    line.start = index ∧ (getBytes text line.start line.stop).isSome ∧
      CoversFrom text line.stop lines

instance decidableCoversFrom (text : List Char) :
    (index : ℕ) → (lines : List WrappedLine) → Decidable (CoversFrom text index lines)
  | _, [] => inferInstanceAs (Decidable (_ = _))
  | _, line :: lines =>
    have := decidableCoversFrom text line.stop lines
    inferInstanceAs (Decidable (_ ∧ _ ∧ _))

/-- The text with a newline at each soft wrap. Each character is marked whether it was inserted. -/
def withSoftWraps (text : List Char) : List WrappedLine → List (Char × Bool)
  | [] => []
  | [line] => (line.slice text).map (·, false)
  | line :: next :: lines =>
    (line.slice text).map (·, false) ++ (if line.IsSoft then [('\n', true)] else []) ++
      withSoftWraps text (next :: lines)

/-- A text is this one with a newline at each soft wrap and no other character. -/
structure WrapsSoftly (text : List Char) (lines : List WrappedLine) (wrapped : List Char) :
    Prop where
  inserted : wrapped = (withSoftWraps text lines).map Prod.fst
  text_eq : ((withSoftWraps text lines).filter fun c => !c.2).map Prod.fst = text

/-! ## The lines -/

variable {text : List Char}

/-- The lines from a byte on make up the rest of the text. -/
theorem CoversFrom.flatMap_slice {before rest : List Char} {lines : List WrappedLine}
    (h : CoversFrom (before ++ rest) (utf8Len before) lines) :
    lines.flatMap (WrappedLine.slice (before ++ rest)) = rest := by
  induction lines generalizing before rest with
  | nil =>
    have hlen : utf8Len before = utf8Len (before ++ rest) := h
    rw [utf8Len_append] at hlen
    have hrest : utf8Len rest = 0 := by omega
    cases rest with
    | nil => rfl
    | cons c rest =>
      have hpos := c.utf8Size_pos
      rw [utf8Len_cons] at hrest
      omega
  | cons line lines ih =>
    obtain ⟨hstart, hsome, hcovers⟩ := h
    obtain ⟨slice, hslice⟩ := Option.isSome_iff_exists.mp hsome
    have hle : line.start ≤ line.stop := by
      by_contra hnot
      rw [getBytes, if_neg hnot] at hslice
      cases hslice
    have hstop : line.stop = utf8Len before + (line.stop - line.start) := by omega
    have hget := hslice
    rw [hstart, hstop, getBytes_append] at hget
    obtain ⟨⟨slice', rest'⟩, hsplit, rfl⟩ := Option.map_eq_some_iff.mp hget
    obtain ⟨rfl, hlen⟩ := splitAtByte_eq_some.mp hsplit
    have hnext : line.stop = utf8Len (before ++ slice') := by
      rw [utf8Len_append]
      omega
    rw [hnext, ← List.append_assoc] at hcovers
    rw [List.flatMap_cons, WrappedLine.slice, hslice, Option.getD_some, ← List.append_assoc,
      ih hcovers]

theorem foldlM_wrapped {index : ℕ} {lines : List WrappedLine} (h : CoversFrom text index lines)
    (accumulator : List Char) :
    lines.foldlM (fun accumulator line =>
        (getBytes text line.start line.stop).map fun slice => accumulator ++ slice ++ ['\n'])
      accumulator = some (accumulator ++ lines.flatMap fun line => line.slice text ++ ['\n']) := by
  induction lines generalizing index accumulator with
  | nil => rw [List.foldlM_nil, List.flatMap_nil, List.append_nil]; rfl
  | cons line lines ih =>
    obtain ⟨-, hsome, hcovers⟩ := h
    obtain ⟨slice, hslice⟩ := Option.isSome_iff_exists.mp hsome
    rw [List.foldlM_cons, hslice, Option.map_some, List.flatMap_cons, WrappedLine.slice, hslice,
      Option.getD_some]
    refine (ih hcovers _).trans ?_
    rw [List.append_assoc, List.append_assoc, List.append_assoc]

/-- The lines with a newline between each two of them. -/
def joined (text : List Char) : List WrappedLine → List Char
  | [] => []
  | [line] => line.slice text
  | line :: next :: lines => line.slice text ++ '\n' :: joined text (next :: lines)

theorem dropLast_flatMap (text : List Char) (lines : List WrappedLine) :
    (lines.flatMap fun line => line.slice text ++ ['\n']).dropLast = joined text lines := by
  induction lines using joined.induct with
  | case1 => rfl
  | case2 line => rw [List.flatMap_singleton, List.dropLast_concat, joined]
  | case3 line next lines ih =>
    have hnil : ((next :: lines).flatMap fun line => line.slice text ++ ['\n']) ≠ [] := by
      simp
    rw [List.flatMap_cons, List.dropLast_append_of_ne_nil hnil, ih, joined, List.append_assoc]
    rfl

/-- What `wrapped_text` returns. -/
theorem wrappedText_eq {lines : List WrappedLine} (h : CoversFrom text 0 lines) :
    wrappedText text lines = some (joined text lines) := by
  rw [wrappedText, foldlM_wrapped h, Option.map_some, List.nil_append, dropLast_flatMap]

/-! ## The soft wraps -/

theorem filter_withSoftWraps (text : List Char) (lines : List WrappedLine) :
    ((withSoftWraps text lines).filter fun c => !c.2).map Prod.fst =
      lines.flatMap (WrappedLine.slice text) := by
  have hslice (line : WrappedLine) :
      (((line.slice text).map (·, false)).filter fun c => !c.2).map Prod.fst =
        line.slice text := by
    simp [List.filter_map, Function.comp_def]
  induction lines using joined.induct with
  | case1 => rfl
  | case2 line => rw [withSoftWraps, hslice, List.flatMap_singleton]
  | case3 line next lines ih =>
    have hinserted : ((if line.IsSoft then [('\n', true)] else []).filter fun c => !c.2) =
        ([] : List (Char × Bool)) := by
      split_ifs
      · rfl
      · rfl
    rw [withSoftWraps, List.filter_append, List.filter_append, hinserted, List.append_nil,
      List.map_append, hslice, ih]
    rfl

theorem map_fst_withSoftWraps_cons (line next : WrappedLine) (lines : List WrappedLine) :
    (withSoftWraps text (line :: next :: lines)).map Prod.fst =
      line.slice text ++ (if line.IsSoft then ['\n'] else []) ++
        (withSoftWraps text (next :: lines)).map Prod.fst := by
  have hslice : ((line.slice text).map (·, false)).map Prod.fst = line.slice text := by
    simp [Function.comp_def]
  rw [withSoftWraps, List.map_append, List.map_append, hslice]
  split_ifs
  · rfl
  · rfl

theorem length_withSoftWraps_le (text : List Char) (lines : List WrappedLine) :
    ((withSoftWraps text lines).map Prod.fst).length ≤ (joined text lines).length := by
  induction lines using joined.induct with
  | case1 => exact Nat.le_refl _
  | case2 line => simp [withSoftWraps, joined]
  | case3 line next lines ih =>
    rw [map_fst_withSoftWraps_cons, joined, List.length_append, List.length_append,
      List.length_append, List.length_cons]
    split_ifs
    · rw [List.length_singleton]
      omega
    · rw [List.length_nil]
      omega

/-- A newline behind every line is one at each soft wrap exactly if these are the only breaks. -/
theorem joined_eq_iff (text : List Char) (lines : List WrappedLine) :
    joined text lines = (withSoftWraps text lines).map Prod.fst ↔
      ∀ line ∈ lines.dropLast, line.IsSoft := by
  induction lines using joined.induct with
  | case1 => simp [joined, withSoftWraps]
  | case2 line => simp [joined, withSoftWraps, Function.comp_def]
  | case3 line next lines ih =>
    rw [map_fst_withSoftWraps_cons, joined, List.dropLast_cons_cons, List.forall_mem_cons, ← ih]
    by_cases hsoft : line.IsSoft
    · rw [if_pos hsoft, List.append_assoc, List.append_cancel_left_eq, List.singleton_append,
        List.cons.injEq]
      exact ⟨fun h => ⟨hsoft, h.2⟩, fun h => ⟨rfl, h.2⟩⟩
    · rw [if_neg hsoft, List.append_nil, List.append_cancel_left_eq]
      constructor
      · intro hequal
        -- the newline behind a line that was not full makes the text too long
        have hle := length_withSoftWraps_le text (next :: lines)
        rw [← hequal, List.length_cons] at hle
        omega
      · rintro ⟨h, -⟩
        exact absurd h hsoft

/-- `wrapped_text` inserts the soft wraps and nothing else exactly if every line before the last one
ends in a soft wrap. -/
theorem wrappedText_wrapsSoftly_iff {lines : List WrappedLine} (h : CoversFrom text 0 lines) :
    (∃ wrapped, wrappedText text lines = some wrapped ∧ WrapsSoftly text lines wrapped) ↔
      ∀ line ∈ lines.dropLast, line.IsSoft := by
  have htext : ((withSoftWraps text lines).filter fun c => !c.2).map Prod.fst = text := by
    have hslices : lines.flatMap (WrappedLine.slice ([] ++ text)) = text :=
      CoversFrom.flatMap_slice h
    rw [filter_withSoftWraps]
    exact hslices
  rw [← joined_eq_iff text lines, wrappedText_eq h]
  constructor
  · rintro ⟨wrapped, hwrapped, hinserted, -⟩
    rw [Option.some.inj hwrapped, hinserted]
  · intro hequal
    exact ⟨joined text lines, rfl, hequal, htext⟩

/-- Two words, wrapped between them. -/
theorem wrappedText_two_words :
    ∃ wrapped, wrappedText ['a', ' ', 'b'] [⟨0, 2, .regular⟩, ⟨2, 3, .none⟩] = some wrapped ∧
      WrapsSoftly ['a', ' ', 'b'] [⟨0, 2, .regular⟩, ⟨2, 3, .none⟩] wrapped :=
  (wrappedText_wrapsSoftly_iff (by decide)).mpr (by decide)

/-- A hard break is doubled. -/
theorem wrappedText_hard_break :
    CoversFrom ['a', '\n', 'b'] 0 [⟨0, 2, .explicit⟩, ⟨2, 3, .none⟩] ∧
    wrappedText ['a', '\n', 'b'] [⟨0, 2, .explicit⟩, ⟨2, 3, .none⟩] =
      some ['a', '\n', '\n', 'b'] ∧
    (withSoftWraps ['a', '\n', 'b'] [⟨0, 2, .explicit⟩, ⟨2, 3, .none⟩]).map Prod.fst =
      ['a', '\n', 'b'] := by
  decide

end TextLayout

end Lucie
