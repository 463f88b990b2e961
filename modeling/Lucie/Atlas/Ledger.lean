import Mathlib
import Lucie.Geometry.Bounds

/-!
# The ledger of a texture atlas

An atlas hands out tiles of textures by key. Its ledger tells for each slot whether it is
empty or holds a texture, how many keys the texture counts, and which rectangles of it are
taken. It is consistent if the counts, the keys, the rectangles and the free slots agree.
-/

set_option autoImplicit false

namespace Lucie.Atlas

/-- `AtlasTextureKind`. -/
inductive AtlasTextureKind
  | monochrome
  | polychrome
  deriving DecidableEq

/-- `AtlasTextureId`. -/
@[ext] structure AtlasTextureId where
  index : ℕ
  kind : AtlasTextureKind
  deriving DecidableEq

/-- `AtlasTile`. -/
structure AtlasTile where
  textureId : AtlasTextureId
  tileId : ℕ
  padding : ℕ
  bounds : Bounds ℤ
  deriving DecidableEq

/-- What is known of a slot: a texture has an id, a count of its keys and the rectangles that
are taken. -/
inductive Slot
  | absent
  | empty
  | live (id : AtlasTextureId) (count : ℕ) (rects : List (Bounds ℤ))

/-- The slots of an atlas, the indices of the free ones, and the tiles of the keys. -/
structure Ledger (K : Type) where
  slot : AtlasTextureId → Slot
  free : AtlasTextureKind → List ℕ
  tiles : List (K × AtlasTile)

namespace Ledger

variable {K : Type}

/-- The number of keys that are mapped to a tile in a texture. -/
def keyCount (tiles : List (K × AtlasTile)) (id : AtlasTextureId) : ℕ :=
  tiles.countP fun entry => entry.2.textureId = id

/-- A tile lies in a rectangle that is taken in its texture. -/
def Backed (slot : AtlasTextureId → Slot) (tile : AtlasTile) : Prop :=
  ∃ count rects, slot tile.textureId = .live tile.textureId count rects ∧
    ∃ rect ∈ rects, rect.Covers tile.bounds

/-- Two tiles do not overlap. -/
def Apart (tile tile' : AtlasTile) : Prop :=
  tile.textureId = tile'.textureId → tile.bounds.intersects tile'.bounds = false

/-- The counts, the keys, the rectangles and the free slots agree. -/
structure Consistent (l : Ledger K) : Prop where
  keys : (l.tiles.map Prod.fst).Nodup
  counted : ∀ id label count rects, l.slot id = .live label count rects →
    label = id ∧ count = keyCount l.tiles id
  backed : ∀ entry ∈ l.tiles, Backed l.slot entry.2
  apart : l.tiles.Pairwise fun entry entry' => Apart entry.2 entry'.2
  free : ∀ kind index, index ∈ l.free kind ↔ l.slot ⟨index, kind⟩ = .empty
  freeNodup : ∀ kind, (l.free kind).Nodup

theorem consistent_nil : (⟨fun _ => .absent, fun _ => [], []⟩ : Ledger K).Consistent := by
  constructor
  · exact List.nodup_nil
  · intro id label count rects hslot
    cases hslot
  · intro entry hentry
    cases hentry
  · exact List.Pairwise.nil
  · simp
  · intro kind
    exact List.nodup_nil

variable {l : Ledger K} {id : AtlasTextureId}

/-- No key is mapped to a slot without a texture. -/
theorem Consistent.keyCount_eq_zero (h : l.Consistent)
    (hslot : l.slot id = .absent ∨ l.slot id = .empty) : keyCount l.tiles id = 0 := by
  rw [keyCount, List.countP_eq_zero]
  intro entry hentry hid
  obtain ⟨count, rects, hlive, -⟩ := h.backed entry hentry
  rw [decide_eq_true_iff] at hid
  rw [hid] at hlive
  obtain hslot | hslot := hslot
  · rw [hslot] at hlive
    cases hlive
  · rw [hslot] at hlive
    cases hlive

/-- The free slots still are the empty ones if only one slot changes, to be free or not as it is
empty or not. -/
theorem Consistent.free_update (h : l.Consistent) {slot : Slot}
    {free : AtlasTextureKind → List ℕ}
    (hself : ∀ kind index, ⟨index, kind⟩ = id → (index ∈ free kind ↔ slot = .empty))
    (hothers : ∀ kind index, ⟨index, kind⟩ ≠ id → (index ∈ free kind ↔ index ∈ l.free kind))
    (kind : AtlasTextureKind) (index : ℕ) :
    index ∈ free kind ↔ Function.update l.slot id slot ⟨index, kind⟩ = .empty := by
  by_cases hid : (⟨index, kind⟩ : AtlasTextureId) = id
  · rw [hself kind index hid, hid, Function.update_self]
  · rw [hothers kind index hid, h.free, Function.update_of_ne hid]

/-- A new texture in a slot that has none. -/
theorem Consistent.openSlot (h : l.Consistent)
    (hslot : l.slot id = .absent ∨ l.slot id = .empty) {free : AtlasTextureKind → List ℕ}
    (hfree : ∀ kind index, index ∈ free kind ↔ index ∈ l.free kind ∧ ⟨index, kind⟩ ≠ id)
    (hnodup : ∀ kind, (free kind).Nodup) :
    Consistent ⟨Function.update l.slot id (.live id 0 []), free, l.tiles⟩ := by
  constructor
  · exact h.keys
  · intro other label count rects hlive
    dsimp only at hlive ⊢
    by_cases hother : other = id
    · subst hother
      rw [Function.update_self] at hlive
      cases hlive
      exact ⟨rfl, (h.keyCount_eq_zero hslot).symm⟩
    · rw [Function.update_of_ne hother] at hlive
      exact h.counted other label count rects hlive
  · intro entry hentry
    obtain ⟨count, rects, hlive, hrect⟩ := h.backed entry hentry
    refine ⟨count, rects, ?_, hrect⟩
    have hother : entry.2.textureId ≠ id := by
      intro heq
      rw [heq] at hlive
      obtain hslot | hslot := hslot
      · rw [hslot] at hlive
        cases hlive
      · rw [hslot] at hlive
        cases hlive
    exact (Function.update_of_ne hother ..).trans hlive
  · exact h.apart
  · refine h.free_update (fun kind index hid => ?_) fun kind index hid => ?_
    · simp [hfree, hid]
    · simp [hfree, hid]
  · exact hnodup

/-- A new key with a tile in a rectangle that was not taken. -/
theorem Consistent.take (h : l.Consistent) {count : ℕ} {rects : List (Bounds ℤ)}
    (hslot : l.slot id = .live id count rects) {key : K} (hkey : key ∉ l.tiles.map Prod.fst)
    {tile : AtlasTile} (htile : tile.textureId = id) {rect : Bounds ℤ}
    (hcovers : rect.Covers tile.bounds) (hdisjoint : ∀ r ∈ rects, rect.intersects r = false) :
    Consistent ⟨Function.update l.slot id (.live id (count + 1) (rect :: rects)), l.free,
      (key, tile) :: l.tiles⟩ := by
  have hcount := (h.counted id id count rects hslot).2
  constructor
  · exact List.nodup_cons.mpr ⟨hkey, h.keys⟩
  · intro other label count' rects' hlive
    dsimp only at hlive ⊢
    by_cases hother : other = id
    · subst hother
      rw [Function.update_self] at hlive
      cases hlive
      refine ⟨rfl, ?_⟩
      rw [hcount, keyCount, keyCount, List.countP_cons]
      simp [htile]
    · rw [Function.update_of_ne hother] at hlive
      obtain ⟨hlabel, hkeys⟩ := h.counted other label count' rects' hlive
      refine ⟨hlabel, ?_⟩
      rw [hkeys, keyCount, keyCount, List.countP_cons]
      simp [htile, Ne.symm hother]
  · intro entry hentry
    obtain rfl | hentry := List.mem_cons.mp hentry
    · refine ⟨count + 1, rect :: rects, ?_, rect, List.mem_cons_self, hcovers⟩
      rw [htile]
      exact Function.update_self ..
    · obtain ⟨count', rects', hlive, r, hr, hcovers'⟩ := h.backed entry hentry
      dsimp only
      by_cases hother : entry.2.textureId = id
      · rw [hother, hslot] at hlive
        cases hlive
        refine ⟨count + 1, rect :: rects, ?_, r, List.mem_cons_of_mem _ hr, hcovers'⟩
        rw [hother]
        exact Function.update_self ..
      · exact ⟨count', rects', (Function.update_of_ne hother ..).trans hlive, r, hr, hcovers'⟩
  · refine List.pairwise_cons.mpr ⟨?_, h.apart⟩
    intro entry hentry heq
    obtain ⟨count', rects', hlive, r, hr, hcovers'⟩ := h.backed entry hentry
    have hid : entry.2.textureId = id := heq.symm.trans htile
    rw [hid, hslot] at hlive
    cases hlive
    by_contra hoverlap
    rw [Bool.not_eq_false] at hoverlap
    -- an overlap of the tiles would be an overlap of the rectangles
    have houter := hcovers'.intersects_of hoverlap
    rw [Bounds.intersects_comm] at houter
    have hboth := hcovers.intersects_of houter
    rw [Bounds.intersects_comm, hdisjoint r hr] at hboth
    cases hboth
  · intro kind index
    dsimp only
    rw [h.free]
    by_cases hother : (⟨index, kind⟩ : AtlasTextureId) = id
    · rw [hother, Function.update_self, hslot]
      simp
    · rw [Function.update_of_ne hother]
  · exact h.freeNodup

/-- The tiles without a key. -/
def without [DecidableEq K] (tiles : List (K × AtlasTile)) (key : K) : List (K × AtlasTile) :=
  tiles.filter fun entry => entry.1 ≠ key

/-- If a texture counts only one key, no other key has a tile in it. -/
theorem Consistent.alone (h : l.Consistent) {rects : List (Bounds ℤ)}
    (hslot : l.slot id = .live id 1 rects) {entry entry' : K × AtlasTile}
    (hentry : entry ∈ l.tiles) (hentry' : entry' ∈ l.tiles) (hid : entry.2.textureId = id)
    (hid' : entry'.2.textureId = id) : entry' = entry := by
  have hcount := (h.counted id id 1 rects hslot).2
  rw [keyCount, List.countP_eq_length_filter, eq_comm, List.length_eq_one_iff] at hcount
  obtain ⟨only, honly⟩ := hcount
  have hmem : ∀ e ∈ l.tiles, e.2.textureId = id → e = only := by
    intro e he heid
    have hfiltered : e ∈ l.tiles.filter fun entry => decide (entry.2.textureId = id) :=
      List.mem_filter.mpr ⟨he, decide_eq_true heid⟩
    rw [honly] at hfiltered
    exact List.mem_singleton.mp hfiltered
  rw [hmem entry hentry hid, hmem entry' hentry' hid']

/-- The last key of a texture is removed, and its slot becomes free. -/
theorem Consistent.release [DecidableEq K] (h : l.Consistent) {rects : List (Bounds ℤ)}
    (hslot : l.slot id = .live id 1 rects) {key : K} {tile : AtlasTile}
    (hentry : (key, tile) ∈ l.tiles) (htile : tile.textureId = id)
    {free : AtlasTextureKind → List ℕ}
    (hfree : ∀ kind index, index ∈ free kind ↔ index ∈ l.free kind ∨ ⟨index, kind⟩ = id)
    (hnodup : ∀ kind, (free kind).Nodup) :
    Consistent ⟨Function.update l.slot id .empty, free, without l.tiles key⟩ := by
  have hothers : ∀ entry ∈ without l.tiles key, entry ∈ l.tiles ∧ entry.2.textureId ≠ id := by
    intro entry hkept
    obtain ⟨hmem, hkey⟩ := List.mem_filter.mp hkept
    refine ⟨hmem, fun hid => ?_⟩
    have heq := h.alone hslot hentry hmem htile hid
    rw [heq] at hkey
    simp at hkey
  constructor
  · exact (List.filter_sublist.map Prod.fst).nodup h.keys
  · intro other label count rects' hlive
    dsimp only at hlive ⊢
    by_cases hother : other = id
    · subst hother
      rw [Function.update_self] at hlive
      cases hlive
    · rw [Function.update_of_ne hother] at hlive
      obtain ⟨hlabel, hkeys⟩ := h.counted other label count rects' hlive
      refine ⟨hlabel, ?_⟩
      rw [hkeys, keyCount, keyCount, without, List.countP_filter]
      apply List.countP_congr
      intro entry hmem
      have hkept : entry.2.textureId = other → entry.1 ≠ key := by
        intro hid hkey
        have hsame : entry = (key, tile) := List.inj_on_of_nodup_map h.keys hmem hentry hkey
        rw [hsame] at hid
        exact hother (hid.symm.trans htile)
      simp only [decide_eq_true_eq, Bool.and_eq_true]
      constructor
      · intro hid
        exact ⟨hid, hkept hid⟩
      · rintro ⟨hid, -⟩
        exact hid
  · intro entry hkept
    obtain ⟨hmem, hother⟩ := hothers entry hkept
    obtain ⟨count, rects', hlive, hrect⟩ := h.backed entry hmem
    exact ⟨count, rects', (Function.update_of_ne hother ..).trans hlive, hrect⟩
  · exact h.apart.sublist List.filter_sublist
  · refine h.free_update (fun kind index hid => ?_) fun kind index hid => ?_
    · simp [hfree, hid]
    · simp [hfree, hid]
  · exact hnodup

end Ledger

end Lucie.Atlas
