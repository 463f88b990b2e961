import Lucie.Text.Paint

/-!
# Where a line is truncated

A line that does not fit is cut where the affix goes. From the end, the longest prefix that fits
together with the affix is to be kept, and from the start the longest such suffix. Each of the
two scans misses a case that the other one has right.
-/

set_option autoImplicit false

namespace Lucie

variable {Lines Breaker Style R : Type}

namespace Truncation

section Scans

variable {Affix : Type} {engine : TextEngine ℚ Lines Breaker Affix Style}
  {truncateWidth maxWidth : ℚ}

/-- The scan from the end finds no item if the line fits, up to a part of a pixel. -/
theorem itemFromEnd_eq_none (hfloor : ∀ x, engine.floor x = (⌊x⌋ : ℚ)) {items : List ℚ}
    (hitems : ∀ advance ∈ items, 0 ≤ advance) {width : ℚ} (index : ℕ) (item : Option ℕ)
    (hfits : (⌊width + items.sum⌋ : ℚ) ≤ maxWidth) :
    itemFromEnd engine truncateWidth maxWidth items width index item = none := by
  induction items generalizing width index item with
  | nil => rfl
  | cons advance items ih =>
    rw [List.forall_mem_cons] at hitems
    rw [List.sum_cons, ← add_assoc] at hfits
    have hrest := List.sum_nonneg hitems.2
    have hstep : (⌊width + advance⌋ : ℚ) ≤ maxWidth := by
      refine le_trans ?_ hfits
      exact_mod_cast Int.floor_le_floor (by linarith)
    rw [itemFromEnd, hfloor, if_neg (not_lt.mpr hstep)]
    exact ih hitems.2 _ _ hfits

/-- What a scan remembers: the number of the last of its places with room, or what it had
before. -/
def RemembersLast (room : ℕ → Prop) (length index : ℕ) (item found : Option ℕ) : Prop :=
  (∃ k < length, found = some (index + k) ∧ room k ∧ ∀ k' > k, k' ≤ length → ¬room k') ∨
    found = item ∧ ∀ k' ≤ length, ¬room k'

section Remembers

variable {room : ℕ → Prop} {length index : ℕ} {item found : Option ℕ} {p : Prop} [Decidable p]

/-- The scan ends after a place behind which there is no room. -/
theorem RemembersLast.last (hfirst : room 0 ↔ p) (hafter : ∀ k ≤ length, ¬room (k + 1)) :
    RemembersLast room (length + 1) index item (if p then some index else item) := by
  have hlater : ∀ k > 0, k ≤ length + 1 → ¬room k := by
    intro k hpos hle
    obtain ⟨k, rfl⟩ : ∃ n, k = n + 1 := ⟨k - 1, by omega⟩
    exact hafter k (Nat.le_of_succ_le_succ hle)
  by_cases hp : p
  · left
    exact ⟨0, Nat.succ_pos _, if_pos hp, hfirst.mpr hp, hlater⟩
  · right
    refine ⟨if_neg hp, fun k hk => ?_⟩
    rcases Nat.eq_zero_or_pos k with rfl | hpos
    · exact fun hroom => hp (hfirst.mp hroom)
    · exact hlater k hpos hk

/-- The scan goes on behind a place. -/
theorem RemembersLast.next (hfirst : room 0 ↔ p)
    (h : RemembersLast (fun k => room (k + 1)) length (index + 1)
      (if p then some index else item) found) :
    RemembersLast room (length + 1) index item found := by
  rcases h with ⟨k, hk, hfound, hroom, hafter⟩ | ⟨rfl, hafter⟩
  · left
    refine ⟨k + 1, Nat.succ_lt_succ hk, ?_, hroom, fun k' hk' hle => ?_⟩
    · rw [hfound, Nat.add_right_comm, Nat.add_assoc]
    · obtain ⟨k', rfl⟩ : ∃ n, k' = n + 1 := ⟨k' - 1, by omega⟩
      exact hafter k' (by omega) (Nat.le_of_succ_le_succ hle)
  · exact .last hfirst hafter

end Remembers

/-- In a line that does not fit, the scan from the end finds the last item that the affix has
room before, with room to spare. -/
theorem itemFromEnd_spec (hfloor : ∀ x, engine.floor x = (⌊x⌋ : ℚ))
    (htruncate : 0 ≤ truncateWidth) {items : List ℚ}
    (hitems : ∀ advance ∈ items, 0 ≤ advance) {width : ℚ} (index : ℕ) (item : Option ℕ)
    (hwidth : (⌊width⌋ : ℚ) ≤ maxWidth) (hover : maxWidth < (⌊width + items.sum⌋ : ℚ)) :
    RemembersLast (fun k => width + (items.take k).sum + truncateWidth < maxWidth) items.length
      index item (itemFromEnd engine truncateWidth maxWidth items width index item) := by
  induction items generalizing width index item with
  | nil =>
    rw [List.sum_nil, add_zero] at hover
    exact absurd hover (not_lt.mpr hwidth)
  | cons advance items ih =>
    rw [List.forall_mem_cons] at hitems
    rw [List.sum_cons, ← add_assoc] at hover
    have hfirst : width + ((advance :: items).take 0).sum + truncateWidth < maxWidth ↔
        width + truncateWidth < maxWidth := by
      rw [List.take_zero, List.sum_nil, add_zero]
    have hrest : ∀ k, width + ((advance :: items).take (k + 1)).sum =
        width + advance + (items.take k).sum := by
      intro k
      rw [List.take_succ_cons, List.sum_cons, ← add_assoc]
    rw [itemFromEnd, hfloor]
    by_cases hstop : maxWidth < (⌊width + advance⌋ : ℚ)
    · rw [if_pos hstop]
      refine .last hfirst fun k _ => ?_
      -- what is too wide here is too wide with more items
      have hsum : 0 ≤ (items.take k).sum :=
        List.sum_nonneg fun x hx => hitems.2 x (List.mem_of_mem_take hx)
      have hle := Int.floor_le (width + advance)
      rw [hrest]
      linarith
    · rw [if_neg hstop]
      refine .next hfirst ?_
      simp only [hrest]
      exact ih hitems.2 _ _ (not_lt.mp hstop) hover

/-- The scan from the start finds the first item from which on the line has room for the affix,
if there is one. -/
theorem itemFromStart_spec (available total : ℚ) (items : List ℚ) (skipped : ℚ) (index : ℕ) :
    (∃ k < items.length, itemFromStart available total items skipped index =
        some (index + k, skipped + (items.take k).sum) ∧
        total - (skipped + (items.take k).sum) ≤ available ∧
        ∀ k' < k, available < total - (skipped + (items.take k').sum)) ∨
      itemFromStart available total items skipped index = none ∧
        ∀ k' < items.length, available < total - (skipped + (items.take k').sum) := by
  induction items generalizing skipped index with
  | nil => exact Or.inr ⟨rfl, fun k' hk' => absurd hk' (Nat.not_lt_zero k')⟩
  | cons advance items ih =>
    rw [itemFromStart]
    by_cases hfits : total - skipped ≤ available
    · left
      refine ⟨0, Nat.succ_pos _, ?_, ?_, fun k' hk' => absurd hk' (Nat.not_lt_zero k')⟩
      · simp only [if_pos hfits, List.take_zero, List.sum_nil, add_zero]
      · rwa [List.take_zero, List.sum_nil, add_zero]
    · have hfirst : ∀ k', (∀ n, k' = n + 1 →
          available < total - (skipped + advance + (items.take n).sum)) →
            available < total - (skipped + ((advance :: items).take k').sum) := by
        intro k' h
        cases k' with
        | zero =>
          rw [List.take_zero, List.sum_nil, add_zero]
          exact not_le.mp hfits
        | succ n =>
          rw [List.take_succ_cons, List.sum_cons, ← add_assoc]
          exact h n rfl
      rw [if_neg hfits]
      rcases ih (skipped + advance) (index + 1) with
        ⟨k, hk, hfound, hroom, hbefore⟩ | ⟨hfound, hbefore⟩
      · left
        refine ⟨k + 1, Nat.succ_lt_succ hk, ?_, ?_, fun k' hk' => hfirst k' fun n hn => ?_⟩
        · rw [hfound, List.take_succ_cons, List.sum_cons, add_assoc skipped,
            Nat.add_right_comm index, Nat.add_assoc]
        · rw [List.take_succ_cons, List.sum_cons, ← add_assoc]
          exact hroom
        · exact hbefore n (by omega)
      · refine Or.inr ⟨hfound, fun k' hk' => hfirst k' fun n hn => ?_⟩
        rw [List.length_cons] at hk'
        exact hbefore n (by omega)

end Scans

end Truncation

namespace Line

/-- The width of the affix. -/
def affixWidth (line : Line R) : ℚ := line.truncation.elim 0 (·.layout.width)

/-- The affix is painted. -/
def paintsAffix (line : Line R) : Bool :=
  if line.isStartTruncation then line.item.isSome else line.endsBefore line.glyphs.length

/-- The parts of a line that are left when it is cut. -/
def IsPart (truncateFrom : TruncateFrom) (part glyphs : List Glyph) : Prop :=
  match truncateFrom with
  | .fromEnd => part <+: glyphs
  | .fromStart => part <:+ glyphs

/-- A line that fits is painted as it is. Of another one the longest part that fits together with
the affix is painted with the affix. The result fits unless the affix alone does not. -/
structure FitsTruncated (line : Line R) (truncateFrom : TruncateFrom) (maxWidth : ℚ) : Prop where
  whole : totalAdvance line.glyphs ≤ maxWidth →
    line.kept 0 line.glyphs = line.glyphs ∧ line.paintsAffix = false
  longest : maxWidth < totalAdvance line.glyphs → line.affixWidth ≤ maxWidth →
    line.paintsAffix = true ∧ IsPart truncateFrom (line.kept 0 line.glyphs) line.glyphs ∧
      totalAdvance (line.kept 0 line.glyphs) + line.affixWidth ≤ maxWidth ∧
      ∀ part, IsPart truncateFrom part line.glyphs →
        totalAdvance part + line.affixWidth ≤ maxWidth →
          part.length ≤ (line.kept 0 line.glyphs).length
  width_le : line.affixWidth ≤ maxWidth → totalAdvance (line.kept 0 line.glyphs) +
    (if line.paintsAffix then line.affixWidth else 0) ≤ maxWidth

/-- When the scans find the item to cut a line at. The one from the end needs a line that is too
wide by itself or by a whole pixel, and room to spare. The one from the start needs room for the
last glyph in a line that is too wide, and no such room in another one. -/
def FindsItem (line : Line R) (truncateFrom : TruncateFrom) (maxWidth : ℚ) : Prop :=
  match truncateFrom with
  | .fromEnd => totalAdvance line.glyphs ≤ maxWidth ∨ maxWidth < line.affixWidth ∨
      maxWidth < ⌊totalAdvance line.glyphs⌋ ∧
        ∀ part, part <+: line.glyphs → totalAdvance part + line.affixWidth ≠ maxWidth
  | .fromStart =>
    if totalAdvance line.glyphs ≤ maxWidth then
      ∀ glyph ∈ line.glyphs.getLast?, maxWidth < glyph.advance + line.affixWidth
    else maxWidth < line.affixWidth ∨
      ∀ glyph ∈ line.glyphs.getLast?, glyph.advance + line.affixWidth ≤ maxWidth

variable {line : Line R} {maxWidth : ℚ}

theorem sum_take_advance (glyphs : List Glyph) (k : ℕ) :
    ((glyphs.map Glyph.advance).take k).sum = totalAdvance (glyphs.take k) := by
  rw [totalAdvance, List.map_take]

theorem totalAdvance_take_add_drop (glyphs : List Glyph) (k : ℕ) :
    totalAdvance (glyphs.take k) + totalAdvance (glyphs.drop k) = totalAdvance glyphs := by
  rw [totalAdvance, totalAdvance, totalAdvance, ← List.sum_append, ← List.map_append,
    List.take_append_drop]

theorem totalAdvance_nonneg {glyphs : List Glyph} (h : ∀ glyph ∈ glyphs, 0 ≤ glyph.advance) :
    0 ≤ totalAdvance glyphs := by
  refine List.sum_nonneg fun advance hadvance => ?_
  obtain ⟨glyph, hglyph, rfl⟩ := List.mem_map.mp hadvance
  exact h glyph hglyph

theorem totalAdvance_take_mono {glyphs : List Glyph} (h : ∀ glyph ∈ glyphs, 0 ≤ glyph.advance)
    {k k' : ℕ} (hle : k ≤ k') : totalAdvance (glyphs.take k) ≤ totalAdvance (glyphs.take k') := by
  have hsplit := totalAdvance_take_add_drop (glyphs.take k') k
  rw [List.take_take, Nat.min_eq_left hle] at hsplit
  have hrest : 0 ≤ totalAdvance ((glyphs.take k').drop k) :=
    totalAdvance_nonneg fun glyph hglyph =>
      h glyph (List.mem_of_mem_take (List.mem_of_mem_drop hglyph))
  linarith

theorem kept_zero_none (hitem : line.item = none) (glyphs : List Glyph) :
    line.kept 0 glyphs = glyphs := by
  rw [kept, hitem, Option.elim_none]

theorem kept_zero_of_end {k : ℕ} (hend : line.isStartTruncation = false)
    (hitem : line.item = some k) (glyphs : List Glyph) : line.kept 0 glyphs = glyphs.take k := by
  rw [kept, hitem, Option.elim_some, hend, if_neg Bool.false_ne_true, Nat.sub_zero]

theorem kept_zero_of_start {k : ℕ} (hstart : line.isStartTruncation = true)
    (hitem : line.item = some k) (glyphs : List Glyph) : line.kept 0 glyphs = glyphs.drop k := by
  rw [kept, hitem, Option.elim_some, if_pos hstart, Nat.sub_zero]

theorem paintsAffix_of_item_none (hitem : line.item = none) : line.paintsAffix = false := by
  simp [paintsAffix, endsBefore, hitem]

/-- A line that is not cut is painted as it is. -/
theorem FitsTruncated.of_item_none (hitem : line.item = none) {truncateFrom : TruncateFrom}
    (hwhole : totalAdvance line.glyphs ≤ maxWidth) : line.FitsTruncated truncateFrom maxWidth where
  whole _ := ⟨kept_zero_none hitem _, paintsAffix_of_item_none hitem⟩
  longest hover := absurd hwhole (not_le.mpr hover)
  width_le _ := by
    rw [kept_zero_none hitem, paintsAffix_of_item_none hitem, if_neg Bool.false_ne_true, add_zero]
    exact hwhole

/-- A line that does not fit is cut to the longest part with the affix. -/
theorem FitsTruncated.of_cut {truncateFrom : TruncateFrom}
    (hover : maxWidth < totalAdvance line.glyphs) (hpaints : line.paintsAffix = true)
    (hpart : IsPart truncateFrom (line.kept 0 line.glyphs) line.glyphs)
    (hfits : totalAdvance (line.kept 0 line.glyphs) + line.affixWidth ≤ maxWidth)
    (hlongest : ∀ part, IsPart truncateFrom part line.glyphs →
      totalAdvance part + line.affixWidth ≤ maxWidth →
        part.length ≤ (line.kept 0 line.glyphs).length) :
    line.FitsTruncated truncateFrom maxWidth where
  whole h := absurd h (not_le.mpr hover)
  longest _ _ := ⟨hpaints, hpart, hfits, hlongest⟩
  width_le _ := by
    rw [hpaints, if_pos rfl]
    exact hfits

/-- Nothing is asked of a line if neither it nor the affix fits. -/
theorem FitsTruncated.of_affix {truncateFrom : TruncateFrom}
    (hover : maxWidth < totalAdvance line.glyphs) (haffix : maxWidth < line.affixWidth) :
    line.FitsTruncated truncateFrom maxWidth where
  whole h := absurd h (not_le.mpr hover)
  longest _ h := absurd h (not_le.mpr haffix)
  width_le h := absurd h (not_le.mpr haffix)

/-- A line that does not fit is cut if the affix fits. -/
theorem FitsTruncated.item_ne_none {truncateFrom : TruncateFrom}
    (h : line.FitsTruncated truncateFrom maxWidth) (hover : maxWidth < totalAdvance line.glyphs)
    (haffix : line.affixWidth ≤ maxWidth) : line.item ≠ none := by
  intro hitem
  have hpaints := (h.longest hover haffix).1
  rw [paintsAffix_of_item_none hitem] at hpaints
  cases hpaints

/-- A line that is cut before the last item with room to spare has the longest part, unless
another one takes all the room. -/
theorem fitsTruncated_of_take_iff {k : ℕ} (hend : line.isStartTruncation = false)
    (hitem : line.item = some k) (hk : k < line.glyphs.length)
    (hadvances : ∀ glyph ∈ line.glyphs, 0 ≤ glyph.advance)
    (hover : maxWidth < totalAdvance line.glyphs) (hroom : line.affixWidth ≤ maxWidth)
    (hfits : totalAdvance (line.glyphs.take k) + line.affixWidth < maxWidth)
    (hafter : ∀ k' > k, k' ≤ line.glyphs.length →
      maxWidth ≤ totalAdvance (line.glyphs.take k') + line.affixWidth) :
    line.FitsTruncated .fromEnd maxWidth ↔
      ∀ part, part <+: line.glyphs → totalAdvance part + line.affixWidth ≠ maxWidth := by
  have hkept := kept_zero_of_end hend hitem line.glyphs
  have hpaints : line.paintsAffix = true := by
    rw [paintsAffix, hend, if_neg Bool.false_ne_true]
    exact endsBefore_iff.mpr ⟨hend, k, hk, hitem⟩
  constructor
  · intro h part hpart heq
    have hlength := (h.longest hover hroom).2.2.2 part hpart heq.le
    rw [hkept, List.length_take] at hlength
    have hmono := totalAdvance_take_mono hadvances (show part.length ≤ k by omega)
    rw [← List.prefix_iff_eq_take.mp hpart] at hmono
    linarith
  · intro hexact
    refine .of_cut hover hpaints ?_ ?_ fun part hpart hle => ?_
    · rw [hkept]
      exact List.take_prefix k line.glyphs
    · rw [hkept]
      exact hfits.le
    · rw [hkept, List.length_take, Nat.min_eq_left hk.le]
      by_contra hlonger
      have hmax := hafter part.length (not_le.mp hlonger) hpart.length_le
      rw [← List.prefix_iff_eq_take.mp hpart] at hmax
      exact hexact part hpart (le_antisymm hle hmax)

theorem fitsTruncated_fromEnd_iff {Affix : Type} {engine : TextEngine ℚ Lines Breaker Affix Style}
    (hfloor : ∀ x, engine.floor x = (⌊x⌋ : ℚ)) (hend : line.isStartTruncation = false)
    (hitem : line.item = Truncation.itemFromEnd engine line.affixWidth maxWidth
      (line.glyphs.map Glyph.advance) 0 0 none)
    (hadvances : ∀ glyph ∈ line.glyphs, 0 ≤ glyph.advance) (haffix : 0 ≤ line.affixWidth) :
    line.FitsTruncated .fromEnd maxWidth ↔ line.FindsItem .fromEnd maxWidth := by
  have hitems : ∀ advance ∈ line.glyphs.map Glyph.advance, 0 ≤ advance :=
    List.forall_mem_map.mpr hadvances
  have hnone : (⌊totalAdvance line.glyphs⌋ : ℚ) ≤ maxWidth → line.item = none := by
    intro hle
    rw [hitem]
    exact Truncation.itemFromEnd_eq_none hfloor hitems 0 none (by rwa [zero_add, ← totalAdvance])
  by_cases hwhole : totalAdvance line.glyphs ≤ maxWidth
  · have hle := (Int.floor_le (totalAdvance line.glyphs)).trans hwhole
    exact iff_of_true (.of_item_none (hnone hle) hwhole) (Or.inl hwhole)
  have hover := not_le.mp hwhole
  by_cases hwide : maxWidth < line.affixWidth
  · exact iff_of_true (.of_affix hover hwide) (Or.inr (Or.inl hwide))
  have hroom := not_lt.mp hwide
  simp only [FindsItem, hwhole, hwide, false_or]
  by_cases hpixel : (⌊totalAdvance line.glyphs⌋ : ℚ) ≤ maxWidth
  · exact iff_of_false (fun h => h.item_ne_none hover hroom (hnone hpixel))
      fun h => absurd h.1 (not_lt.mpr hpixel)
  rw [and_iff_right (not_le.mp hpixel)]
  have hmax : ((⌊(0 : ℚ)⌋ : ℤ) : ℚ) ≤ maxWidth := by
    rw [Int.floor_zero, Int.cast_zero]
    exact haffix.trans hroom
  have hsum : maxWidth < (⌊0 + (line.glyphs.map Glyph.advance).sum⌋ : ℚ) := by
    rw [zero_add, ← totalAdvance]
    exact not_le.mp hpixel
  have hspec := Truncation.itemFromEnd_spec hfloor haffix hitems 0 none hmax hsum
  simp only [Truncation.RemembersLast, ← hitem, zero_add, sum_take_advance, List.length_map,
    not_lt] at hspec
  rcases hspec with ⟨k, hk, hfound, hfits, hafter⟩ | ⟨hfound, hafter⟩
  · exact fitsTruncated_of_take_iff hend hfound hk hadvances hover hroom hfits hafter
  · -- the affix takes all the room
    have hzero := hafter 0 (Nat.zero_le _)
    rw [List.take_zero, totalAdvance, List.map_nil, List.sum_nil, zero_add] at hzero
    refine iff_of_false (fun h => h.item_ne_none hover hroom hfound) fun h => ?_
    refine h [] List.nil_prefix ?_
    rw [totalAdvance, List.map_nil, List.sum_nil, zero_add]
    exact le_antisymm hroom hzero

/-- The part of a line from its last glyph on. -/
theorem totalAdvance_getLast {glyphs : List Glyph} {glyph : Glyph}
    (h : glyph ∈ glyphs.getLast?) : 0 < glyphs.length ∧
      totalAdvance (glyphs.drop (glyphs.length - 1)) = glyph.advance := by
  obtain ⟨before, rfl⟩ := List.getLast?_eq_some_iff.mp (Option.mem_def.mp h)
  have hlength : (before ++ [glyph]).length - 1 = before.length := by
    rw [List.length_append, List.length_singleton, Nat.add_sub_cancel]
  refine ⟨by rw [List.length_append, List.length_singleton]; omega, ?_⟩
  rw [hlength, List.drop_left, totalAdvance, List.map_singleton, List.sum_singleton]

theorem totalAdvance_drop_anti {glyphs : List Glyph} (h : ∀ glyph ∈ glyphs, 0 ≤ glyph.advance)
    {k k' : ℕ} (hle : k ≤ k') : totalAdvance (glyphs.drop k') ≤ totalAdvance (glyphs.drop k) := by
  have hmono := totalAdvance_take_mono h hle
  have hsplit := totalAdvance_take_add_drop glyphs k
  have hsplit' := totalAdvance_take_add_drop glyphs k'
  linarith

theorem exists_mem_getLast {glyphs : List Glyph} (hpos : 0 < glyphs.length) :
    ∃ glyph, glyph ∈ glyphs.getLast? :=
  ⟨_, List.getLast?_eq_some_getLast (List.length_pos_iff.mp hpos)⟩

/-- A line that is cut at the first item from which on it fits has the longest part, if it is one
to be cut. -/
theorem fitsTruncated_of_drop_iff {k : ℕ} (hstart : line.isStartTruncation = true)
    (hitem : line.item = some k) (hk : k < line.glyphs.length)
    (hadvances : ∀ glyph ∈ line.glyphs, 0 ≤ glyph.advance)
    (hfits : totalAdvance (line.glyphs.drop k) ≤ maxWidth - line.affixWidth)
    (hbefore : ∀ k' < k, maxWidth - line.affixWidth < totalAdvance (line.glyphs.drop k')) :
    line.FitsTruncated .fromStart maxWidth ↔ line.FindsItem .fromStart maxWidth := by
  have hkept := kept_zero_of_start hstart hitem line.glyphs
  have hpaints : line.paintsAffix = true := by
    rw [paintsAffix, if_pos hstart, hitem, Option.isSome_some]
  have hroom : ∀ glyph ∈ line.glyphs.getLast?, glyph.advance + line.affixWidth ≤ maxWidth := by
    intro glyph hglyph
    obtain ⟨-, hadvance⟩ := totalAdvance_getLast hglyph
    have hanti := totalAdvance_drop_anti hadvances (show k ≤ line.glyphs.length - 1 by omega)
    linarith
  by_cases hwhole : totalAdvance line.glyphs ≤ maxWidth
  · refine iff_of_false (fun h => ?_) fun h => ?_
    · have hpaints' := (h.whole hwhole).2
      rw [hpaints] at hpaints'
      cases hpaints'
    · rw [FindsItem, if_pos hwhole] at h
      obtain ⟨glyph, hglyph⟩ := exists_mem_getLast (show 0 < line.glyphs.length by omega)
      exact absurd (hroom glyph hglyph) (not_le.mpr (h glyph hglyph))
  · refine iff_of_true ?_ (by rw [FindsItem, if_neg hwhole]; exact Or.inr hroom)
    refine .of_cut (not_le.mp hwhole) hpaints ?_ ?_ fun part hpart hle => ?_
    · rw [hkept]
      exact List.drop_suffix k line.glyphs
    · rw [hkept]
      linarith
    · rw [hkept, List.length_drop]
      by_contra hlonger
      have hlength := hpart.length_le
      have hover := hbefore (line.glyphs.length - part.length) (by omega)
      rw [← List.suffix_iff_eq_drop.mp hpart] at hover
      linarith

/-- A line that is not cut from the start fits, or has no room for the affix. -/
theorem fitsTruncated_of_item_none_iff (hitem : line.item = none) (haffix : 0 ≤ line.affixWidth)
    (hbefore : ∀ k < line.glyphs.length,
      maxWidth - line.affixWidth < totalAdvance (line.glyphs.drop k)) :
    line.FitsTruncated .fromStart maxWidth ↔ line.FindsItem .fromStart maxWidth := by
  have hroom : ∀ glyph ∈ line.glyphs.getLast?, maxWidth < glyph.advance + line.affixWidth := by
    intro glyph hglyph
    obtain ⟨hpos, hadvance⟩ := totalAdvance_getLast hglyph
    have hover := hbefore (line.glyphs.length - 1) (by omega)
    rw [hadvance] at hover
    linarith
  by_cases hwhole : totalAdvance line.glyphs ≤ maxWidth
  · exact iff_of_true (.of_item_none hitem hwhole) (by rw [FindsItem, if_pos hwhole]; exact hroom)
  have hover := not_le.mp hwhole
  rw [FindsItem, if_neg hwhole]
  by_cases hwide : maxWidth < line.affixWidth
  · exact iff_of_true (.of_affix hover hwide) (Or.inl hwide)
  refine iff_of_false (fun h => h.item_ne_none hover (not_lt.mp hwide) hitem) ?_
  rintro (h | h)
  · exact hwide h
  · have hpos : 0 < line.glyphs.length := by
      refine List.length_pos_iff.mpr fun hnil => ?_
      rw [hnil, totalAdvance, List.map_nil, List.sum_nil] at hover
      linarith
    obtain ⟨glyph, hglyph⟩ := exists_mem_getLast hpos
    exact absurd (h glyph hglyph) (not_le.mpr (hroom glyph hglyph))

theorem fitsTruncated_fromStart_iff (hstart : line.isStartTruncation = true)
    (hitem : line.item = (Truncation.itemFromStart (maxWidth - line.affixWidth)
      (line.glyphs.map Glyph.advance).sum (line.glyphs.map Glyph.advance) 0 0).map Prod.fst)
    (hadvances : ∀ glyph ∈ line.glyphs, 0 ≤ glyph.advance) (haffix : 0 ≤ line.affixWidth) :
    line.FitsTruncated .fromStart maxWidth ↔ line.FindsItem .fromStart maxWidth := by
  have hdrop : ∀ k, (line.glyphs.map Glyph.advance).sum -
      ((line.glyphs.map Glyph.advance).take k).sum = totalAdvance (line.glyphs.drop k) := by
    intro k
    have hsplit := totalAdvance_take_add_drop line.glyphs k
    rw [sum_take_advance, ← totalAdvance]
    linarith
  have hspec := Truncation.itemFromStart_spec (maxWidth - line.affixWidth)
    (line.glyphs.map Glyph.advance).sum (line.glyphs.map Glyph.advance) 0 0
  simp only [zero_add, hdrop, List.length_map] at hspec
  rcases hspec with ⟨k, hk, hfound, hfits, hbefore⟩ | ⟨hfound, hbefore⟩
  · rw [hfound, Option.map_some] at hitem
    exact fitsTruncated_of_drop_iff hstart hitem hk hadvances hfits hbefore
  · rw [hfound, Option.map_none] at hitem
    exact fitsTruncated_of_item_none_iff hitem haffix hbefore

end Line

namespace Truncation

variable (engine : TextEngine ℚ Lines Breaker (AffixLayout R) Style)
  (t : Truncation ℚ (AffixLayout R)) (style : Style) (lineClamp : Option ℕ+) (maxWidth : ℚ)
  (affix : String) (truncateFrom : TruncateFrom) (remSize scale : ℚ) (lines : Lines)

theorem item_update :
    (t.update engine style lineClamp maxWidth affix truncateFrom remSize scale lines).item =
      (place engine (engine.affixWidth
        (t.update engine style lineClamp maxWidth affix truncateFrom remSize scale lines).layout)
        maxWidth truncateFrom (engine.items lines (clampedLines lineClamp - 1))).1 := rfl

theorem truncateFrom_update :
    (t.update engine style lineClamp maxWidth affix truncateFrom remSize scale
      lines).truncateFrom = truncateFrom := rfl

/-- A line whose truncation was updated for it is painted as truncating it is to do exactly if
the scan finds the item to cut it at. -/
theorem fitsTruncated_iff_findsItem (line : Line R)
    (hfloor : ∀ x, engine.floor x = (⌊x⌋ : ℚ))
    (hwidth : ∀ layout, engine.affixWidth layout = layout.width)
    (hline : line.truncation =
      some (t.update engine style lineClamp maxWidth affix truncateFrom remSize scale lines))
    (hitems : engine.items lines (clampedLines lineClamp - 1) =
      some (line.glyphs.map Glyph.advance))
    (hadvances : ∀ glyph ∈ line.glyphs, 0 ≤ glyph.advance) (haffix : 0 ≤ line.affixWidth) :
    line.FitsTruncated truncateFrom maxWidth ↔ line.FindsItem truncateFrom maxWidth := by
  have hlayout : line.affixWidth = engine.affixWidth
      (t.update engine style lineClamp maxWidth affix truncateFrom remSize scale lines).layout := by
    rw [Line.affixWidth, hline, Option.elim_some, hwidth]
  have hitem : line.item = (place engine line.affixWidth maxWidth truncateFrom
      (some (line.glyphs.map Glyph.advance))).1 := by
    rw [Line.item, hline, Option.bind_some, item_update, ← hlayout, hitems]
  have hstart : line.isStartTruncation = decide (truncateFrom = .fromStart) := by
    rw [Line.isStartTruncation, hline, Option.any_some, truncateFrom_update]
  cases truncateFrom with
  | fromEnd => exact Line.fitsTruncated_fromEnd_iff hfloor hstart hitem hadvances haffix
  | fromStart =>
    refine Line.fitsTruncated_fromStart_iff hstart (hitem.trans ?_) hadvances haffix
    rw [place]
    cases itemFromStart (maxWidth - line.affixWidth) (line.glyphs.map Glyph.advance).sum
      (line.glyphs.map Glyph.advance) 0 0 <;> rfl

/-- An engine with one line, given by its advances, and affixes of a given width. -/
def plainEngine : TextEngine ℚ (List ℚ) Unit (AffixLayout Unit) ℚ where
  unbroken := []
  remSize := 16
  scale := 1
  breakAllLines _ := []
  breakLines _ := ()
  breakNext _ _ := none
  breakRemaining _ := []
  numLines _ := 1
  width := List.sum
  height _ := 1
  items lines _ := some lines
  floor x := (⌊x⌋ : ℚ)
  emptyAffix := ⟨0, 0, 1, none⟩
  shape width _ _ _ := ⟨width, 0, 1, none⟩
  affixWidth := AffixLayout.width

/-- A glyph at the origin. -/
def plainGlyph (advance : ℚ) : Glyph := ⟨0, 0, 1, advance, ⟨⟨0, 0⟩, ⟨advance, 1⟩⟩⟩

/-- A line of glyphs with the given advances, truncated to a width. -/
def plainLine (first : ℚ) (others : List ℚ) (truncateFrom : TruncateFrom)
    (affixWidth maxWidth : ℚ) : Line Unit where
  idx := 0
  advance := (first :: others).sum
  lineHeight := 1
  top := 0
  runs :=
    [{ data := ()
       style := ⟨⟨⟨0, 0, 0, 1⟩, none, false⟩, none, none⟩
       x := 0
       y := 1
       width := totalAdvance ((first :: others).map plainGlyph)
       glyphs := (first :: others).map plainGlyph
       glyphs_ne_nil := by simp
       width_eq := rfl }]
  truncation := some ((default plainEngine).update plainEngine affixWidth none maxWidth "…"
    truncateFrom 16 1 (first :: others))

theorem fitsTruncated_plainLine : (plainLine 2 [2, 2] .fromEnd 1 4).FitsTruncated .fromEnd 4 ↔
    (plainLine 2 [2, 2] .fromEnd 1 4).FindsItem .fromEnd 4 :=
  fitsTruncated_iff_findsItem plainEngine (default plainEngine) 1 none 4 "…" .fromEnd 16 1
    [2, 2, 2] (plainLine 2 [2, 2] .fromEnd 1 4) (fun _ => rfl) (fun _ => rfl) rfl rfl
    (by decide +kernel) (by decide +kernel)

/-- From the end, an affix as wide as the line is to be is left out together with the cut, the
longest part is given up if nothing is to spare, and half a pixel too much is not cut. From the
start, all is painted if only the affix fits, and a line that fits gets an affix. -/
theorem not_fitsTruncated_plainLine :
    ¬(plainLine 1 [1] .fromEnd 1 1).FitsTruncated .fromEnd 1 ∧
      ¬(plainLine 2 [2, 2] .fromEnd 1 3).FitsTruncated .fromEnd 3 ∧
      ¬(plainLine 1 [1 / 2] .fromEnd 0 1).FitsTruncated .fromEnd 1 ∧
      ¬(plainLine 1 [1] .fromStart 1 1).FitsTruncated .fromStart 1 ∧
      ¬(plainLine 1 [] .fromStart 1 2).FitsTruncated .fromStart 2 := by
  refine ⟨fun h => ?_, fun h => ?_, fun h => ?_, fun h => ?_, fun h => ?_⟩
  · exact absurd (h.width_le (by decide +kernel)) (by decide +kernel)
  · have hlongest := (h.longest (by decide +kernel) (by decide +kernel)).2.2.2
      [plainGlyph 2] ⟨[plainGlyph 2, plainGlyph 2], by decide +kernel⟩ (by decide +kernel)
    exact absurd hlongest (by decide +kernel)
  · exact absurd (h.width_le (by decide +kernel)) (by decide +kernel)
  · exact absurd (h.width_le (by decide +kernel)) (by decide +kernel)
  · exact absurd (h.whole (by decide +kernel)).2 (by decide +kernel)

end Truncation

end Lucie
