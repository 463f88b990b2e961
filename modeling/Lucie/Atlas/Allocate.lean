import Lucie.Atlas.MetalAtlas

/-!
# Allocation in the Metal atlas

The ledger of the atlas stays consistent as tiles are allocated, in a texture that is there or
in a new one.
-/

set_option autoImplicit false

namespace Lucie.Atlas

open Ledger

variable {K A : Type} {allocator : Allocator A} {taken : A → List (Bounds ℤ)}

/-- What a slot of a list holds. -/
def slotOf (taken : A → List (Bounds ℤ)) : Option (Option (MetalAtlasTexture A)) → Slot
  | none => .absent
  | some none => .empty
  | some (some texture) => .live texture.id texture.liveAtlasKeys (taken texture.allocator)

/-- A tile in a rectangle that was not taken has been allocated in a texture. -/
def Granted (slot slot' : Slot) (tile : AtlasTile) : Prop :=
  ∃ count rects rect, slot = .live tile.textureId count rects ∧
    slot' = .live tile.textureId (count + 1) (rect :: rects) ∧
    rect.Covers tile.bounds ∧ ∀ r ∈ rects, rect.intersects r = false

/-- A texture that has no room stays as it is. -/
theorem allocate_of_none (lawful : allocator.Lawful taken) {texture : MetalAtlasTexture A}
    {size : Size ℤ} (h : (texture.allocate allocator size).2 = none) :
    slotOf taken (some (some (texture.allocate allocator size).1)) =
      slotOf taken (some (some texture)) := by
  unfold MetalAtlasTexture.allocate at h ⊢
  rcases hcall : allocator.allocate texture.allocator size with ⟨a, - | ⟨id, rect⟩⟩
  · have hfailed := lawful.failed texture.allocator size (by rw [hcall])
    rw [hcall] at hfailed
    simp only [slotOf, hfailed]
  · rw [hcall] at h
    cases h

/-- A texture that has room grants a tile. -/
theorem allocate_of_some (lawful : allocator.Lawful taken) {texture : MetalAtlasTexture A}
    {size : Size ℤ} {tile : AtlasTile} (h : (texture.allocate allocator size).2 = some tile) :
    Granted (slotOf taken (some (some texture)))
      (slotOf taken (some (some (texture.allocate allocator size).1))) tile := by
  unfold MetalAtlasTexture.allocate at h ⊢
  rcases hcall : allocator.allocate texture.allocator size with ⟨a, - | ⟨id, rect⟩⟩
  · rw [hcall] at h
    cases h
  · rw [hcall] at h
    obtain rfl := Option.some.inj h
    have hreturn : (allocator.allocate texture.allocator size).2 = some (id, rect) := by
      rw [hcall]
    have htaken := lawful.allocated texture.allocator size id rect hreturn
    rw [hcall] at htaken
    refine ⟨texture.liveAtlasKeys, taken texture.allocator, rect, rfl, ?_, ?_, ?_⟩
    · simp only [slotOf, htaken]
    · exact lawful.covers texture.allocator size id rect hreturn
    · exact lawful.disjoint texture.allocator size id rect hreturn

/-- If no texture has room, all slots stay as they are. The induction is on the slots. -/
theorem allocateLast_of_none (lawful : allocator.Lawful taken) {size : Size ℤ}
    {slots : List (Option (MetalAtlasTexture A))}
    (h : (allocateLast allocator size slots).2 = none) (j : ℕ) :
    slotOf taken (allocateLast allocator size slots).1[j]? = slotOf taken slots[j]? := by
  induction slots generalizing j with
  | nil => rfl
  | cons slot rest ih =>
    rcases hrest : allocateLast allocator size rest with ⟨rest', - | tile⟩
    · rw [hrest] at ih
      cases slot with
      | none =>
        simp only [allocateLast, hrest]
        cases j with
        | zero => rfl
        | succ j => exact ih rfl j
      | some texture =>
        simp only [allocateLast, hrest] at h ⊢
        cases j with
        | zero => exact allocate_of_none lawful h
        | succ j => exact ih rfl j
    · simp only [allocateLast, hrest] at h
      cases h

/-- If a texture has room, one slot grants a tile and the others stay as they are. The
induction is on the slots. -/
theorem allocateLast_of_some (lawful : allocator.Lawful taken) {size : Size ℤ}
    {slots : List (Option (MetalAtlasTexture A))} {tile : AtlasTile}
    (h : (allocateLast allocator size slots).2 = some tile) :
    ∃ ix, Granted (slotOf taken slots[ix]?)
        (slotOf taken (allocateLast allocator size slots).1[ix]?) tile ∧
      ∀ j : ℕ, j ≠ ix →
        slotOf taken (allocateLast allocator size slots).1[j]? = slotOf taken slots[j]? := by
  induction slots with
  | nil => cases h
  | cons slot rest ih =>
    rcases hrest : allocateLast allocator size rest with ⟨rest', - | tile'⟩
    · have hsame := fun j : ℕ => @allocateLast_of_none A allocator taken lawful size rest
        (by rw [hrest]) j
      rw [hrest] at hsame
      cases slot with
      | none =>
        simp only [allocateLast, hrest] at h
        cases h
      | some texture =>
        simp only [allocateLast, hrest] at h ⊢
        refine ⟨0, allocate_of_some lawful h, ?_⟩
        rintro (- | j) hj
        · exact absurd rfl hj
        · exact hsame j
    · rw [hrest] at ih
      simp only [allocateLast, hrest] at h ⊢
      obtain ⟨ix, hgranted, hothers⟩ := ih h
      refine ⟨ix + 1, hgranted, ?_⟩
      rintro (- | j) hj
      · rfl
      · exact hothers j (by omega)

namespace MetalAtlasState

/-- The ledger of an atlas. -/
def ledger (taken : A → List (Bounds ℤ)) (s : MetalAtlasState K A) : Ledger K :=
  ⟨fun id => slotOf taken (s.textures id.kind).textures[id.index]?,
    fun kind => (s.textures kind).freeList, s.tilesByKey⟩

variable {s : MetalAtlasState K A} {kind : AtlasTextureKind} {list : AtlasTextureList A}

theorem textures_setTextures (kind' : AtlasTextureKind) :
    (s.setTextures kind list).textures kind' = if kind' = kind then list else s.textures kind' := by
  cases kind <;> cases kind' <;> rfl

@[simp] theorem textures_setTextures_self : (s.setTextures kind list).textures kind = list := by
  rw [textures_setTextures, if_pos rfl]

@[simp] theorem tilesByKey_setTextures :
    (s.setTextures kind list).tilesByKey = s.tilesByKey := by
  cases kind <;> rfl

/-- The ledger after a change of one slot. -/
theorem ledger_setTextures {ix : ℕ} {slot : Slot}
    (hslots : ∀ j : ℕ, slotOf taken list.textures[j]? =
      if j = ix then slot else slotOf taken (s.textures kind).textures[j]?) :
    (s.setTextures kind list).ledger taken =
      ⟨Function.update (s.ledger taken).slot ⟨ix, kind⟩ slot,
        Function.update (s.ledger taken).free kind list.freeList, s.tilesByKey⟩ := by
  unfold ledger
  rw [tilesByKey_setTextures]
  congr 1
  · funext id
    obtain ⟨j, kind'⟩ := id
    rw [textures_setTextures]
    by_cases hkind : kind' = kind
    · subst hkind
      rw [if_pos rfl, hslots]
      by_cases hj : j = ix
      · rw [if_pos hj, hj, Function.update_self]
      · have hne : (⟨j, kind'⟩ : AtlasTextureId) ≠ ⟨ix, kind'⟩ := fun heq =>
          hj (AtlasTextureId.ext_iff.mp heq).1
        rw [if_neg hj, Function.update_of_ne hne]
    · have hne : (⟨j, kind'⟩ : AtlasTextureId) ≠ ⟨ix, kind⟩ := fun heq =>
        hkind (AtlasTextureId.ext_iff.mp heq).2
      rw [if_neg hkind, Function.update_of_ne hne]
  · funext kind'
    rw [textures_setTextures]
    by_cases hkind : kind' = kind
    · subst hkind
      rw [if_pos rfl, Function.update_self]
    · rw [if_neg hkind, Function.update_of_ne hkind]

/-- The ledger after a change of no slot. -/
theorem ledger_setTextures_of_same
    (hslots : ∀ j : ℕ, slotOf taken list.textures[j]? = slotOf taken (s.textures kind).textures[j]?)
    (hfree : list.freeList = (s.textures kind).freeList) :
    (s.setTextures kind list).ledger taken = s.ledger taken := by
  have hledger := @ledger_setTextures K A taken s kind list 0
    (slotOf taken (s.textures kind).textures[0]?) (by
      intro j
      rw [hslots]
      split_ifs with hj
      · rw [hj]
      · rfl)
  rw [hledger, hfree]
  unfold ledger
  simp

/-- If the ledger is consistent, `s'` is what an allocation may leave: either no tile is
granted and the ledger stays consistent, or it is once some key has the tile. -/
def Ready (taken : A → List (Bounds ℤ)) (s s' : MetalAtlasState K A) : Option AtlasTile → Prop
  | none => (s'.ledger taken).Consistent
  | some tile => (s'.texture tile.textureId).isSome ∧ ∀ key ∉ s.tilesByKey.map Prod.fst,
    Consistent { s'.ledger taken with tiles := (key, tile) :: s.tilesByKey }

/-- An allocation in one of the textures. -/
theorem ready_of_granted (h : (s.ledger taken).Consistent) {ix : ℕ} {tile : AtlasTile}
    (hgranted : Granted (slotOf taken (s.textures kind).textures[ix]?)
      (slotOf taken list.textures[ix]?) tile)
    (hothers : ∀ j : ℕ, j ≠ ix →
      slotOf taken list.textures[j]? = slotOf taken (s.textures kind).textures[j]?)
    (hfree : list.freeList = (s.textures kind).freeList) :
    Ready taken s (s.setTextures kind list) (some tile) := by
  obtain ⟨count, rects, rect, hslot, hslot', hcovers, hdisjoint⟩ := hgranted
  have hid : tile.textureId = ⟨ix, kind⟩ := (h.counted ⟨ix, kind⟩ _ count rects hslot).1
  have hledger := @ledger_setTextures K A taken s kind list ix
    (.live tile.textureId (count + 1) (rect :: rects)) (by
      intro j
      split_ifs with hj
      · rw [hj, hslot']
      · exact hothers j hj)
  rw [hfree] at hledger
  constructor
  · rw [texture, hid, textures_setTextures_self]
    rcases hget : list.textures[ix]? with - | - | texture
    · rw [hget] at hslot'
      cases hslot'
    · rw [hget] at hslot'
      cases hslot'
    · rfl
  · intro key hkey
    rw [hledger]
    have hlive : (s.ledger taken).slot ⟨ix, kind⟩ = .live ⟨ix, kind⟩ count rects :=
      hslot.trans (by rw [hid])
    have htake := h.take hlive hkey hid hcovers hdisjoint
    rw [hid]
    have hsame : Function.update (s.ledger taken).free kind (s.textures kind).freeList =
        (s.ledger taken).free := Function.update_eq_self ..
    rw [hsame]
    exact htake

/-- A new texture in a slot that had none. -/
theorem consistent_of_opened (h : (s.ledger taken).Consistent) {ix : ℕ}
    (hslot : slotOf taken (s.textures kind).textures[ix]? = .absent ∨
      slotOf taken (s.textures kind).textures[ix]? = .empty)
    (hslot' : slotOf taken list.textures[ix]? = .live ⟨ix, kind⟩ 0 [])
    (hothers : ∀ j : ℕ, j ≠ ix →
      slotOf taken list.textures[j]? = slotOf taken (s.textures kind).textures[j]?)
    (hfree : ∀ index, index ∈ list.freeList ↔ index ∈ (s.textures kind).freeList ∧ index ≠ ix)
    (hnodup : list.freeList.Nodup) : ((s.setTextures kind list).ledger taken).Consistent := by
  have hledger := @ledger_setTextures K A taken s kind list ix (.live ⟨ix, kind⟩ 0 []) (by
    intro j
    split_ifs with hj
    · rw [hj, hslot']
    · exact hothers j hj)
  rw [hledger]
  have hopen : (s.ledger taken).slot ⟨ix, kind⟩ = .absent ∨
      (s.ledger taken).slot ⟨ix, kind⟩ = .empty := hslot
  apply h.openSlot hopen
  · intro kind' index
    by_cases hkind : kind' = kind
    · subst hkind
      rw [Function.update_self, hfree]
      simp [ledger]
    · rw [Function.update_of_ne hkind]
      simp [hkind]
  · intro kind'
    by_cases hkind : kind' = kind
    · rw [hkind, Function.update_self]
      exact hnodup
    · rw [Function.update_of_ne hkind]
      exact h.freeNodup kind'

/-- The slot of a new texture. -/
theorem slotOf_new (lawful : allocator.Lawful taken) (minSize : Size ℤ) (ix : ℕ) :
    slotOf taken (some (some ⟨⟨ix, kind⟩, allocator.new (atlasSize minSize), 0⟩)) =
      .live ⟨ix, kind⟩ 0 [] := by
  rw [slotOf, lawful.new]

/-- Without a free slot, the new texture comes last. -/
theorem pushTexture_of_nil (hfree : (s.textures kind).freeList = []) (minSize : Size ℤ) :
    s.pushTexture allocator minSize kind =
      some (s.setTextures kind ⟨(s.textures kind).textures ++
        [some ⟨⟨(s.textures kind).textures.length, kind⟩, allocator.new (atlasSize minSize), 0⟩],
        []⟩, (s.textures kind).textures.length) := by
  simp only [pushTexture, hfree]

/-- The new texture takes a free slot. -/
theorem pushTexture_of_cons {ix : ℕ} {freeList : List ℕ}
    (hfree : (s.textures kind).freeList = ix :: freeList)
    (hlt : ix < (s.textures kind).textures.length) (minSize : Size ℤ) :
    s.pushTexture allocator minSize kind =
      some (s.setTextures kind ⟨(s.textures kind).textures.set ix
        (some ⟨⟨ix, kind⟩, allocator.new (atlasSize minSize), 0⟩), freeList⟩, ix) := by
  simp only [pushTexture, hfree, if_pos hlt]

/-- A new texture keeps the ledger consistent. -/
theorem pushTexture_spec (lawful : allocator.Lawful taken) (h : (s.ledger taken).Consistent)
    (minSize : Size ℤ) (kind : AtlasTextureKind) :
    ∃ s' ix texture, s.pushTexture allocator minSize kind = some (s', ix) ∧
      s'.tilesByKey = s.tilesByKey ∧ (s'.textures kind).textures[ix]? = some (some texture) ∧
      (s'.ledger taken).Consistent := by
  cases hfree : (s.textures kind).freeList with
  | nil =>
    refine ⟨_, _, ⟨⟨(s.textures kind).textures.length, kind⟩, allocator.new (atlasSize minSize), 0⟩,
      pushTexture_of_nil hfree minSize, tilesByKey_setTextures, ?_, ?_⟩
    · rw [textures_setTextures_self]
      exact List.getElem?_concat_length
    · have habsent : slotOf taken (s.textures kind).textures[(s.textures kind).textures.length]? =
          .absent := by
        rw [List.getElem?_eq_none (le_refl _)]
        rfl
      apply consistent_of_opened h (Or.inl habsent)
      · rw [List.getElem?_concat_length]
        exact slotOf_new lawful minSize _
      · intro j hj
        rw [List.getElem?_append]
        split_ifs with hlt
        · rfl
        · rw [List.getElem?_eq_none (by simp; omega), List.getElem?_eq_none (by omega)]
      · rw [hfree]
        simp
      · exact List.nodup_nil
  | cons ix freeList =>
    have hempty : slotOf taken (s.textures kind).textures[ix]? = .empty :=
      (h.free kind ix).mp (by simp [ledger, hfree])
    have hlt : ix < (s.textures kind).textures.length := by
      by_contra hge
      rw [List.getElem?_eq_none (by omega)] at hempty
      cases hempty
    have hnodup := h.freeNodup kind
    simp only [ledger, hfree, List.nodup_cons] at hnodup
    refine ⟨_, _, ⟨⟨ix, kind⟩, allocator.new (atlasSize minSize), 0⟩,
      pushTexture_of_cons hfree hlt minSize, tilesByKey_setTextures, ?_, ?_⟩
    · rw [textures_setTextures_self]
      exact List.getElem?_set_self hlt
    · apply consistent_of_opened h (Or.inr hempty)
      · rw [List.getElem?_set_self hlt]
        exact slotOf_new lawful minSize _
      · intro j hj
        rw [List.getElem?_set_ne (Ne.symm hj)]
      · intro index
        rw [hfree, List.mem_cons]
        constructor
        · intro hmem
          exact ⟨.inr hmem, fun heq => hnodup.1 (heq ▸ hmem)⟩
        · rintro ⟨rfl | hmem, hne⟩
          · exact absurd rfl hne
          · exact hmem
      · exact hnodup.2

/-- The tile is allocated in a texture that is there. -/
theorem allocate_of_last {size : Size ℤ} {textures : List (Option (MetalAtlasTexture A))}
    {tile : AtlasTile}
    (hlast : allocateLast allocator size (s.textures kind).textures = (textures, some tile)) :
    s.allocate allocator size kind =
      some (s.setTextures kind ⟨textures, (s.textures kind).freeList⟩, some tile) := by
  simp only [allocate, hlast]

/-- The tile is allocated in a new texture. -/
theorem allocate_of_push {size : Size ℤ} {textures : List (Option (MetalAtlasTexture A))}
    (hlast : allocateLast allocator size (s.textures kind).textures = (textures, none))
    {s' : MetalAtlasState K A} {ix : ℕ} {texture : MetalAtlasTexture A}
    (hpush : (s.setTextures kind ⟨textures, (s.textures kind).freeList⟩).pushTexture allocator
      size kind = some (s', ix))
    (htexture : (s'.textures kind).textures[ix]? = some (some texture)) :
    s.allocate allocator size kind =
      some (s'.setTextures kind ⟨(s'.textures kind).textures.set ix
        (some (texture.allocate allocator size).1), (s'.textures kind).freeList⟩,
          (texture.allocate allocator size).2) := by
  unfold allocate
  simp [hlast, hpush, htexture]

/-- An allocation never panics, and what it leaves is ready for the key. -/
theorem allocate_spec (lawful : allocator.Lawful taken) (h : (s.ledger taken).Consistent)
    (size : Size ℤ) (kind : AtlasTextureKind) :
    ∃ s' tile, s.allocate allocator size kind = some (s', tile) ∧
      s'.tilesByKey = s.tilesByKey ∧ Ready taken s s' tile := by
  rcases hlast : allocateLast allocator size (s.textures kind).textures with
    ⟨textures, - | tile⟩
  · have hsame : ∀ j : ℕ, slotOf taken textures[j]? =
        slotOf taken (s.textures kind).textures[j]? := by
      have hnone := @allocateLast_of_none A allocator taken lawful size
        (s.textures kind).textures (by rw [hlast])
      rwa [hlast] at hnone
    have hledger := @ledger_setTextures_of_same K A taken s kind
      ⟨textures, (s.textures kind).freeList⟩ hsame rfl
    obtain ⟨s₂, ix, texture, hpush, htiles, htexture, hconsistent⟩ :=
      pushTexture_spec (s := s.setTextures kind ⟨textures, (s.textures kind).freeList⟩) lawful
        (by rwa [hledger]) size kind
    rw [tilesByKey_setTextures] at htiles
    have hlt : ix < (s₂.textures kind).textures.length :=
      (List.getElem?_eq_some_iff.mp htexture).1
    have hothers : ∀ j : ℕ, j ≠ ix → slotOf taken ((s₂.textures kind).textures.set ix
        (some (texture.allocate allocator size).1))[j]? =
          slotOf taken (s₂.textures kind).textures[j]? := by
      intro j hj
      rw [List.getElem?_set_ne (Ne.symm hj)]
    refine ⟨_, _, allocate_of_push hlast hpush htexture, by rw [tilesByKey_setTextures, htiles], ?_⟩
    cases htile : (texture.allocate allocator size).2 with
    | none =>
      rw [Ready, ledger_setTextures_of_same]
      · exact hconsistent
      · intro j
        by_cases hj : j = ix
        · rw [hj, List.getElem?_set_self hlt, htexture]
          exact allocate_of_none lawful htile
        · exact hothers j hj
      · rfl
    | some tile =>
      have hgranted : Granted (slotOf taken (s₂.textures kind).textures[ix]?)
          (slotOf taken ((s₂.textures kind).textures.set ix
            (some (texture.allocate allocator size).1))[ix]?) tile := by
        rw [List.getElem?_set_self hlt, htexture]
        exact allocate_of_some lawful htile
      have hready : Ready taken s₂ (s₂.setTextures kind ⟨_, (s₂.textures kind).freeList⟩)
          (some tile) := ready_of_granted hconsistent hgranted hothers rfl
      rw [Ready, htiles] at hready
      exact hready
  · have hsome := @allocateLast_of_some A allocator taken lawful size
      (s.textures kind).textures tile (by rw [hlast])
    rw [hlast] at hsome
    obtain ⟨ix, hgranted, hothers⟩ := hsome
    have hready : Ready taken s (s.setTextures kind ⟨_, (s.textures kind).freeList⟩) (some tile) :=
      ready_of_granted h hgranted hothers rfl
    exact ⟨_, _, allocate_of_last hlast, tilesByKey_setTextures, hready⟩

end MetalAtlasState

end Lucie.Atlas
