import Lucie.Atlas.Allocate

/-!
# Removal from the Metal atlas

Removing a key unmaps it if it is the last one of its texture. Otherwise the texture counts one
key less, but the key keeps its tile.
-/

set_option autoImplicit false

namespace Lucie.Atlas

open Ledger Foundation

namespace MetalAtlasState

section Removal

variable {K A : Type} {allocator : Allocator A} {taken : A → List (Bounds ℤ)}

variable {s : MetalAtlasState K A} [DecidableEq K] {key : K}

theorem mem_of_tile {tile : AtlasTile} (h : s.tile key = some tile) :
    (key, tile) ∈ s.tilesByKey := by
  obtain ⟨entry, hentry, rfl⟩ := Option.map_eq_some_iff.mp h
  have hkey : entry.1 = key := by simpa using List.find?_some hentry
  rw [← hkey]
  exact List.mem_of_find?_eq_some hentry

theorem notMem_of_tile (h : s.tile key = none) : key ∉ s.tilesByKey.map Prod.fst := by
  intro hmem
  obtain ⟨entry, hentry, hkey⟩ := List.mem_map.mp hmem
  have hnone := List.find?_eq_none.mp (Option.map_eq_none_iff.mp h) entry hentry
  simp [hkey] at hnone

/-- A tile that is looked up keeps the ledger consistent, and the lookup never panics. -/
theorem getOrInsertWith_spec (lawful : allocator.Lawful taken) (h : (s.ledger taken).Consistent)
    (textureKind : K → AtlasTextureKind) (key : K) (build : Except String (Option (Size ℤ))) :
    ∃ s' result, s.getOrInsertWith allocator textureKind key build = some (s', result) ∧
      (s'.ledger taken).Consistent := by
  unfold getOrInsertWith
  cases htile : s.tile key with
  | some tile => exact ⟨_, _, rfl, h⟩
  | none =>
    rcases build with error | - | size
    · exact ⟨_, _, rfl, h⟩
    · exact ⟨_, _, rfl, h⟩
    · obtain ⟨s', tile, hallocate, htiles, hready⟩ :=
        allocate_spec lawful h size (textureKind key)
      simp only [hallocate, Option.bind_eq_bind, Option.bind_some]
      cases tile with
      | none => exact ⟨_, _, rfl, hready⟩
      | some tile =>
        obtain ⟨hlive, hconsistent⟩ := hready
        obtain ⟨texture, htexture⟩ := Option.isSome_iff_exists.mp hlive
        refine ⟨{ s' with tilesByKey := (key, tile) :: s'.tilesByKey }, .ok (some tile), ?_, ?_⟩
        · simp only [htexture, Option.bind_some]
        · have hkey := hconsistent key (notMem_of_tile htile)
          rw [← htiles] at hkey
          exact hkey

/-- The key is not mapped, or it is the only one that its texture counts. -/
def removesLast (s : MetalAtlasState K A) (key : K) : Bool :=
  match s.tile key with
  | none => true
  | some tile => (s.texture tile.textureId).any (·.liveAtlasKeys = 1)

/-- A mapped key has a texture, which is found by its id. -/
theorem texture_of_tile (h : (s.ledger taken).Consistent) {tile : AtlasTile}
    (htile : s.tile key = some tile) : ∃ texture : MetalAtlasTexture A,
      (s.textures tile.textureId.kind).textures[tile.textureId.index]? = some (some texture) ∧
      texture.id = tile.textureId ∧
      (s.textures tile.textureId.kind).textures.findIdx? (·.any (·.id = tile.textureId)) =
        some tile.textureId.index := by
  have hids : ∀ (j : ℕ) (texture : MetalAtlasTexture A),
      (s.textures tile.textureId.kind).textures[j]? = some (some texture) →
        texture.id = ⟨j, tile.textureId.kind⟩ := by
    intro j texture hget
    refine (h.counted ⟨j, tile.textureId.kind⟩ texture.id texture.liveAtlasKeys
      (taken texture.allocator) ?_).1
    simp only [ledger, hget, slotOf]
  obtain ⟨count, rects, hslot, -⟩ := h.backed (key, tile) (mem_of_tile htile)
  simp only [ledger] at hslot
  rcases hget : (s.textures tile.textureId.kind).textures[tile.textureId.index]? with
    - | - | texture
  · rw [hget] at hslot
    cases hslot
  · rw [hget] at hslot
    cases hslot
  · obtain ⟨hlt, hentry⟩ := List.getElem?_eq_some_iff.mp hget
    refine ⟨texture, rfl, hids _ texture hget, ?_⟩
    rw [List.findIdx?_eq_some_iff_getElem]
    refine ⟨hlt, ?_, ?_⟩
    · rw [hentry]
      simpa using hids _ texture hget
    · intro j hj hfound
      rw [Option.any_eq_true] at hfound
      obtain ⟨other, hother, hid⟩ := hfound
      have hget' := List.getElem?_eq_some_iff.mpr ⟨hj.trans hlt, hother⟩
      rw [decide_eq_true_iff, hids j other hget'] at hid
      rw [← hid] at hj
      exact absurd hj (lt_irrefl _)

/-- Removing the last key of a texture drops the texture and the key. -/
theorem remove_last {tile : AtlasTile} {texture : MetalAtlasTexture A}
    (htile : s.tile key = some tile)
    (hfind : (s.textures tile.textureId.kind).textures.findIdx? (·.any (·.id = tile.textureId)) =
      some tile.textureId.index)
    (hget : (s.textures tile.textureId.kind).textures[tile.textureId.index]? = some (some texture))
    (hcount : texture.liveAtlasKeys = 1) :
    s.remove key = some { s.setTextures tile.textureId.kind
      ⟨(s.textures tile.textureId.kind).textures.set tile.textureId.index none,
        tile.textureId.index :: (s.textures tile.textureId.kind).freeList⟩ with
      tilesByKey := without s.tilesByKey key } := by
  simp [remove, htile, hfind, hget, hcount]

/-- Removing another key leaves the tiles as they are. -/
theorem remove_shared {tile : AtlasTile} {texture : MetalAtlasTexture A}
    (htile : s.tile key = some tile)
    (hfind : (s.textures tile.textureId.kind).textures.findIdx? (·.any (·.id = tile.textureId)) =
      some tile.textureId.index)
    (hget : (s.textures tile.textureId.kind).textures[tile.textureId.index]? = some (some texture))
    (hcount : texture.liveAtlasKeys ≠ 1) {s' : MetalAtlasState K A}
    (h : s.remove key = some s') : s'.tile key = some tile := by
  simp only [remove, htile, hfind, hget, Option.join_some] at h
  split_ifs at h with hzero hone
  · omega
  · obtain rfl := Option.some.inj h
    rw [MetalAtlasState.tile, tilesByKey_setTextures]
    exact htile

omit [DecidableEq K] in
theorem texture_eq {id : AtlasTextureId} {texture : MetalAtlasTexture A}
    (hget : (s.textures id.kind).textures[id.index]? = some (some texture)) :
    s.texture id = some texture := by
  simp [MetalAtlasState.texture, hget]

/-- A consistent atlas unmaps a key if and only if it is unmapped or the last one of its
texture. -/
theorem remove_unmaps_iff (h : (s.ledger taken).Consistent) (key : K) :
    (∃ s', s.remove key = some s' ∧ s'.tile key = none) ↔ s.removesLast key := by
  cases htile : s.tile key with
  | none => simp [remove, removesLast, htile]
  | some tile =>
    obtain ⟨texture, hget, hid, hfind⟩ := texture_of_tile h htile
    simp only [removesLast, htile, texture_eq hget, Option.any_some, decide_eq_true_eq]
    constructor
    · rintro ⟨s', hremove, hnone⟩
      by_contra hcount
      rw [remove_shared htile hfind hget hcount hremove] at hnone
      cases hnone
    · intro hcount
      refine ⟨_, remove_last htile hfind hget hcount, ?_⟩
      simp [MetalAtlasState.tile, without]

omit [DecidableEq K] in
theorem ledger_setTiles (tiles : List (K × AtlasTile)) :
    ({ s with tilesByKey := tiles } : MetalAtlasState K A).ledger taken =
      { s.ledger taken with tiles } := by
  unfold ledger
  congr 1

/-- Removing a key that is unmapped or the last one of its texture keeps the ledger
consistent. -/
theorem remove_consistent (h : (s.ledger taken).Consistent) (hlast : s.removesLast key)
    {s' : MetalAtlasState K A} (hremove : s.remove key = some s') :
    (s'.ledger taken).Consistent := by
  cases htile : s.tile key with
  | none =>
    simp only [remove, htile] at hremove
    obtain rfl := Option.some.inj hremove
    exact h
  | some tile =>
    obtain ⟨texture, hget, hid, hfind⟩ := texture_of_tile h htile
    simp only [removesLast, htile, texture_eq hget, Option.any_some, decide_eq_true_eq] at hlast
    rw [remove_last htile hfind hget hlast] at hremove
    obtain rfl := Option.some.inj hremove
    have hslot : (s.ledger taken).slot tile.textureId =
        .live tile.textureId 1 (taken texture.allocator) := by
      simp only [ledger, hget, slotOf, hid, hlast]
    have hnew := @ledger_setTextures K A taken s tile.textureId.kind
      ⟨(s.textures tile.textureId.kind).textures.set tile.textureId.index none,
        tile.textureId.index :: (s.textures tile.textureId.kind).freeList⟩ tile.textureId.index
      .empty (by
        intro j
        dsimp only
        split_ifs with hj
        · rw [hj, List.getElem?_set_self (List.getElem?_eq_some_iff.mp hget).1]
          rfl
        · rw [List.getElem?_set_ne (Ne.symm hj)])
    have hfree : ∀ kind index, index ∈ Function.update (s.ledger taken).free tile.textureId.kind
        (tile.textureId.index :: (s.textures tile.textureId.kind).freeList) kind ↔
          index ∈ (s.ledger taken).free kind ∨ ⟨index, kind⟩ = tile.textureId := by
      intro kind index
      by_cases hkind : kind = tile.textureId.kind
      · subst hkind
        rw [Function.update_self, List.mem_cons, or_comm, AtlasTextureId.ext_iff]
        simp [ledger]
      · rw [Function.update_of_ne hkind, AtlasTextureId.ext_iff]
        simp [hkind]
    have hnodup : ∀ kind, (Function.update (s.ledger taken).free tile.textureId.kind
        (tile.textureId.index :: (s.textures tile.textureId.kind).freeList) kind).Nodup := by
      intro kind
      by_cases hkind : kind = tile.textureId.kind
      · rw [hkind, Function.update_self, List.nodup_cons]
        refine ⟨?_, h.freeNodup tile.textureId.kind⟩
        intro hmem
        have hempty := (h.free tile.textureId.kind tile.textureId.index).mp hmem
        rw [hslot] at hempty
        cases hempty
      · rw [Function.update_of_ne hkind]
        exact h.freeNodup kind
    have hrelease := h.release hslot (mem_of_tile htile) rfl hfree hnodup
    rw [ledger_setTiles, hnew]
    exact hrelease

/-- A call of the atlas. -/
inductive AtlasCall (K : Type)
  | getOrInsertWith (key : K) (build : Except String (Option (Size ℤ)))
  | remove (key : K)

/-- The state after a call; `none` is a panic. -/
def step (allocator : Allocator A) (textureKind : K → AtlasTextureKind)
    (s : MetalAtlasState K A) : AtlasCall K → Option (MetalAtlasState K A)
  | .getOrInsertWith key build =>
    (s.getOrInsertWith allocator textureKind key build).map Prod.fst
  | .remove key => s.remove key

/-- Only keys that are unmapped or the last ones of their texture are removed. -/
def RemovesLast (s : MetalAtlasState K A) : AtlasCall K → Prop
  | .getOrInsertWith .. => True
  | .remove key => s.removesLast key

omit [DecidableEq K] in
theorem consistent_new : ((new : MetalAtlasState K A).ledger taken).Consistent := by
  have hempty : (new : MetalAtlasState K A).ledger taken =
      ⟨fun _ => .absent, fun _ => [], []⟩ := by
    unfold ledger new
    congr 1
    · funext id
      rcases id with ⟨index, - | -⟩ <;> rfl
    · funext kind
      cases kind <;> rfl
  rw [hempty]
  exact consistent_nil

/-- As long as only the last keys of their textures are removed, the ledger is consistent, no
call panics, and a removed key is unmapped. -/
theorem consistent_of_run (lawful : allocator.Lawful taken) {textureKind : K → AtlasTextureKind}
    {calls : List (AtlasCall K)} (run : Run (step allocator textureKind) RemovesLast new calls s) :
    (s.ledger taken).Consistent ∧
      (∀ key build, (s.getOrInsertWith allocator textureKind key build).isSome) ∧
      ∀ key, (∃ s', s.remove key = some s' ∧ s'.tile key = none) ↔ s.removesLast key := by
  have hconsistent : (s.ledger taken).Consistent := by
    refine run.invariant (fun _ s => (s.ledger taken).Consistent) consistent_new ?_
    intro _ s call s' h hguard hstep
    cases call with
    | getOrInsertWith key build =>
      obtain ⟨t, result, hcall, ht⟩ := getOrInsertWith_spec lawful h textureKind key build
      rw [step, hcall] at hstep
      obtain rfl := Option.some.inj hstep
      exact ht
    | remove key => exact remove_consistent h hguard hstep
  refine ⟨hconsistent, ?_, remove_unmaps_iff hconsistent⟩
  intro key build
  obtain ⟨t, result, hcall, -⟩ := getOrInsertWith_spec lawful hconsistent textureKind key build
  rw [hcall]
  rfl

instance (s : MetalAtlasState K A) (call : AtlasCall K) : Decidable (s.RemovesLast call) :=
  match call with
  | .getOrInsertWith .. => .isTrue trivial
  | .remove key => inferInstanceAs (Decidable (s.removesLast key = true))

end Removal

end MetalAtlasState

/-- A texture with one row of rectangles. -/
structure Shelf where
  size : Size ℤ
  next : ℤ
  rects : List (Bounds ℤ)
  below : ∀ rect ∈ rects, rect.bottomRight.x ≤ next

namespace Shelf

/-- The next rectangle of a row. -/
def rect (shelf : Shelf) (size : Size ℤ) : Bounds ℤ := ⟨⟨shelf.next, 0⟩, size⟩

/-- Add the next rectangle to a row. -/
def push (shelf : Shelf) (size : Size ℤ) (hwidth : 0 < size.width) : Shelf where
  size := shelf.size
  next := shelf.next + size.width
  rects := shelf.rect size :: shelf.rects
  below := by
    intro r hr
    obtain rfl | hr := List.mem_cons.mp hr
    · exact le_refl _
    · have := shelf.below r hr
      omega

/-- Each rectangle is placed next to the previous one. -/
def allocator : Allocator Shelf where
  new size := ⟨size, 0, [], by simp⟩
  allocate shelf size :=
    if h : 0 < size.width ∧ 0 < size.height ∧ shelf.next + size.width ≤ shelf.size.width ∧
        size.height ≤ shelf.size.height then
      (shelf.push size h.1, some (shelf.rects.length, shelf.rect size))
    else (shelf, none)

theorem allocator_lawful : allocator.Lawful Shelf.rects := by
  constructor
  · intro size
    rfl
  · intro shelf size h
    simp only [allocator] at h ⊢
    split_ifs at h ⊢
    rfl
  · intro shelf size id rect h
    simp only [allocator] at h ⊢
    split_ifs at h ⊢
    cases h
    rfl
  · intro shelf size id rect h r hr
    simp only [allocator] at h
    split_ifs at h
    cases h
    exact Bounds.intersects_eq_false_of_le (shelf.below r hr)
  · intro shelf size id rect h
    simp only [allocator] at h
    split_ifs at h
    cases h
    exact .refl _

end Shelf

namespace MetalAtlasState

/-- Two keys whose tiles are in one texture. -/
def twoGlyphs : List (AtlasCall ℕ) :=
  [.getOrInsertWith 0 (.ok (some ⟨10, 10⟩)), .getOrInsertWith 1 (.ok (some ⟨10, 10⟩))]

/-- The last key of a texture is removed, and the slot is used again. -/
theorem consistent_reusedSlot : ∃ s : MetalAtlasState ℕ Shelf,
    Run (step Shelf.allocator fun _ => .monochrome) RemovesLast new
      (.getOrInsertWith 2 (.ok (some ⟨10, 10⟩)) :: .remove 2 :: twoGlyphs) s ∧
    (s.ledger Shelf.rects).Consistent ∧ s.monochromeTextures.textures.length = 1 := by
  have hrun : (execute (step Shelf.allocator fun _ => .monochrome) RemovesLast new
      (.getOrInsertWith 2 (.ok (some ⟨10, 10⟩)) :: .remove 2 :: twoGlyphs)).any
        (·.monochromeTextures.textures.length = 1) := by decide +kernel
  obtain ⟨s, hs, hlength⟩ := (Option.any_eq_true _ _).mp hrun
  have run := Run.of_execute hs
  exact ⟨s, run, (consistent_of_run Shelf.allocator_lawful run).1, of_decide_eq_true hlength⟩

/-- A key stays mapped when it is removed while its texture has another key, and the texture
counts one key less than it has. -/
theorem not_unmapped_twoGlyphs : ∃ s : MetalAtlasState ℕ Shelf,
    Run (step Shelf.allocator fun _ => .monochrome) (fun _ _ => True) new
      (twoGlyphs ++ [.remove 0]) s ∧ (s.tile 0).isSome ∧
      (s.texture ⟨0, .monochrome⟩).map (·.liveAtlasKeys) = some 1 ∧
      keyCount s.tilesByKey ⟨0, .monochrome⟩ = 2 := by
  have hrun : (execute (step Shelf.allocator fun _ => .monochrome) (fun _ _ => True) new
      (twoGlyphs ++ [.remove 0])).any fun s => (s.tile 0).isSome ∧
        (s.texture ⟨0, .monochrome⟩).map (·.liveAtlasKeys) = some 1 ∧
        keyCount s.tilesByKey ⟨0, .monochrome⟩ = 2 := by decide +kernel
  obtain ⟨s, hs, hfacts⟩ := (Option.any_eq_true _ _).mp hrun
  exact ⟨s, .of_execute hs, of_decide_eq_true hfacts⟩

end MetalAtlasState

end Lucie.Atlas
