import Lucie.Atlas.DirectXAtlas
import Lucie.Atlas.Removal

/-!
# Failures of the device

A call of the DirectX atlas that fails leaves its books as they were, or with a new texture that has
no keys, unless the device fails to create the view of a texture: the slot that was taken for it is
lost. Elsewhere the books stay balanced.
-/

set_option autoImplicit false

namespace Lucie.Atlas

open Foundation Books

variable {K A : Type} {allocator : Allocator A} {device : Device} {size : Size ℤ}

/-- What the books tell of a texture. -/
def DirectXAtlasTexture.look (texture : DirectXAtlasTexture A) : AtlasTextureId × ℕ :=
  (texture.id, texture.liveAtlasKeys)

/-- A texture without room looks the same. -/
theorem DirectXAtlasTexture.look_of_none {texture : DirectXAtlasTexture A}
    (h : (texture.allocate allocator size).2 = none) :
    (texture.allocate allocator size).1.look = texture.look := by
  unfold DirectXAtlasTexture.allocate at h ⊢
  rcases hcall : allocator.allocate texture.allocator size with ⟨a, - | ⟨id, rect⟩⟩
  · rfl
  · rw [hcall] at h
    cases h

/-- A texture with room counts one key more. -/
theorem DirectXAtlasTexture.look_of_some {texture : DirectXAtlasTexture A} {tile : AtlasTile}
    (h : (texture.allocate allocator size).2 = some tile) :
    tile.textureId = texture.id ∧
      (texture.allocate allocator size).1.look = (texture.id, texture.liveAtlasKeys + 1) := by
  unfold DirectXAtlasTexture.allocate at h ⊢
  rcases hcall : allocator.allocate texture.allocator size with ⟨a, - | ⟨id, rect⟩⟩
  · rw [hcall] at h
    cases h
  · rw [hcall] at h
    obtain rfl := Option.some.inj h
    exact ⟨rfl, rfl⟩

namespace DirectXAtlasState

/-- The books of textures and keys. -/
def booksOf (storage : TextureStorage (DirectXAtlasTexture A)) (keys : List (K × AtlasTextureId)) :
    Books K :=
  ⟨fun id => (storage.slot id).map (Option.map DirectXAtlasTexture.look), storage.free, keys⟩

/-- The books of an atlas. -/
def books (s : DirectXAtlasState K A) : Books K :=
  booksOf s.storage (s.tilesByKey.map fun entry => (entry.1, entry.2.tile.textureId))

variable {storage storage' : TextureStorage (DirectXAtlasTexture A)}
  {keys : List (K × AtlasTextureId)} {kind : AtlasTextureKind} {id : AtlasTextureId}

theorem slot_booksOf : (booksOf storage keys).slot =
    Option.map (Option.map DirectXAtlasTexture.look) ∘ storage.slot := rfl

theorem slot_booksOf_of_some {texture : DirectXAtlasTexture A}
    (h : storage.slot id = some (some texture)) :
    (booksOf storage keys).slot id = some (some (texture.id, texture.liveAtlasKeys)) := by
  rw [slot_booksOf, Function.comp_apply, h]
  rfl

/-- A texture in the books is there. -/
theorem exists_texture {held : AtlasTextureId × ℕ}
    (h : (booksOf storage keys).slot id = some (some held)) :
    ∃ texture, storage.slot id = some (some texture) ∧ texture.look = held := by
  rw [slot_booksOf, Function.comp_apply] at h
  rcases hslot : storage.slot id with - | - | texture
  · rw [hslot] at h
    cases h
  · rw [hslot] at h
    cases h
  · rw [hslot] at h
    exact ⟨texture, rfl, Option.some.inj (Option.some.inj h)⟩

/-- The books after a change of one slot. -/
theorem booksOf_update {slot : Option (DirectXAtlasTexture A)}
    (hslot : storage'.slot = Function.update storage.slot id (some slot)) :
    (booksOf storage' keys).slot = Function.update (booksOf storage keys).slot id
      (some (slot.map DirectXAtlasTexture.look)) := by
  rw [slot_booksOf, hslot, Function.comp_update]
  rfl

theorem booksOf_setSlot (h : storage.slot id ≠ none) (texture : DirectXAtlasTexture A) :
    booksOf (storage.setSlot id (some texture)) keys =
      (booksOf storage keys).count id texture.id texture.liveAtlasKeys :=
  Books.ext (booksOf_update (TextureStorage.slot_setSlot h)) (TextureStorage.free_setSlot _) rfl

theorem booksOf_release (h : storage.slot id ≠ none) :
    booksOf ((storage.setSlot id none).pushFree id.kind id.index) keys =
      (booksOf storage keys).release id :=
  Books.ext (booksOf_update (TextureStorage.slot_drop h)) TextureStorage.free_drop rfl

/-- A new texture in the books. -/
theorem booksOf_push (keys : List (K × AtlasTextureId))
    {make : AtlasTextureId → DirectXAtlasTexture A} (hmake : ∀ id, (make id).look = (id, 0))
    (h : storage.push kind make = some (storage', id)) :
    id.kind = kind ∧ (booksOf storage keys).Opens id ∧
      booksOf storage' keys = (booksOf storage keys).openSlot id ∧
      storage'.slot id = some (some (make id)) := by
  obtain ⟨rfl, hslot, hfree, hopens⟩ := TextureStorage.push_eq h
  refine ⟨rfl, ?_, Books.ext ?_ hfree rfl, by rw [hslot, Function.update_self]⟩
  · refine hopens.imp_right fun hend => ⟨hend.1, ?_⟩
    rw [slot_booksOf, Function.comp_apply, hend.2]
    rfl
  · rw [booksOf_update hslot, Option.map_some, hmake]
    rfl

/-- No texture of the kind has room, and the device fails to create the view of a new one. -/
def FailsAtView (allocator : Allocator A) (device : Device)
    (storage : TextureStorage (DirectXAtlasTexture A)) (size : Size ℤ) (kind : AtlasTextureKind) :
    Prop :=
  (∀ ix texture, storage.slot ⟨ix, kind⟩ = some (some texture) →
      (texture.allocate allocator size).2 = none) ∧
    device.createTexture2D = true ∧ device.createShaderResourceView = false

/-- What an allocation comes to in the books. -/
inductive Allocated (b : Books K) (kind : AtlasTextureKind) (fails : Prop) :
    Books K → Option AtlasTile → Prop
  | kept (hfails : ¬ fails) : Allocated b kind fails b none
  | opened {id : AtlasTextureId} (hfails : ¬ fails) (hopens : b.Opens id) :
      Allocated b kind fails (b.openSlot id) none
  | leaked (hfails : fails) : Allocated b kind fails (b.leak kind) none
  | taken {id : AtlasTextureId} {n : ℕ} {tile : AtlasTile} (hfails : ¬ fails)
      (hslot : b.slot id = some (some (tile.textureId, n))) :
      Allocated b kind fails (b.count id tile.textureId (n + 1)) (some tile)
  | openedTaken {id : AtlasTextureId} {tile : AtlasTile} (hfails : ¬ fails) (hopens : b.Opens id)
      (htile : tile.textureId = id) :
      Allocated b kind fails ((b.openSlot id).count id id 1) (some tile)

/-- The search for room, in the books. -/
theorem booksOf_findLast_of_none
    (h : (storage.findLast (DirectXAtlasTexture.allocate allocator size) kind).2 = none) :
    booksOf (storage.findLast (DirectXAtlasTexture.allocate allocator size) kind).1 keys =
      booksOf storage keys :=
  Books.ext (funext fun id => TextureStorage.view_findLast_of_none
      (fun _ => DirectXAtlasTexture.look_of_none) h id)
    TextureStorage.free_findLast rfl

theorem booksOf_findLast_of_some {tile : AtlasTile}
    (h : (storage.findLast (DirectXAtlasTexture.allocate allocator size) kind).2 = some tile) :
    ∃ id n, id.kind = kind ∧ (booksOf storage keys).slot id = some (some (tile.textureId, n)) ∧
      booksOf (storage.findLast (DirectXAtlasTexture.allocate allocator size) kind).1 keys =
        (booksOf storage keys).count id tile.textureId (n + 1) := by
  obtain ⟨id, texture, hkind, hslot, hfound, hnew, hothers⟩ :=
    TextureStorage.view_findLast_of_some (fun _ => DirectXAtlasTexture.look_of_none) h
  obtain ⟨htile, hlook⟩ := DirectXAtlasTexture.look_of_some hfound
  refine ⟨id, texture.liveAtlasKeys, hkind, ?_, Books.ext (funext fun other => ?_)
    TextureStorage.free_findLast rfl⟩
  · rw [slot_booksOf_of_some hslot, htile]
  · rw [slot_count]
    split_ifs with hother
    · rw [hother, slot_booksOf, Function.comp_apply, hnew, Option.map_some, Option.map_some, hlook,
        htile]
    · exact hothers other hother

/-- An allocation in a new texture. -/
theorem allocated_of_push (keys : List (K × AtlasTextureId)) {fails : Prop} (hfails : ¬ fails)
    (hpush : (storage.push kind fun id =>
      (⟨id, allocator.new (atlasSize size), 0⟩ : DirectXAtlasTexture A)) = some (storage', id)) :
    ∃ texture, storage'.texture id = some texture ∧
      Allocated (booksOf storage keys) kind fails
        (booksOf (storage'.setSlot id (some (texture.allocate allocator size).1)) keys)
        (texture.allocate allocator size).2 := by
  obtain ⟨-, hopens, hopened, hslot⟩ := booksOf_push keys (fun _ => rfl) hpush
  refine ⟨⟨id, allocator.new (atlasSize size), 0⟩, TextureStorage.texture_eq_some.mpr hslot, ?_⟩
  rw [booksOf_setSlot (by rw [hslot]; simp), hopened]
  cases hnew : (DirectXAtlasTexture.allocate allocator size
      ⟨id, allocator.new (atlasSize size), 0⟩).2 with
  | none =>
    obtain ⟨hlabel, hcount⟩ := Prod.mk.inj (DirectXAtlasTexture.look_of_none hnew)
    have hsame : ((booksOf storage keys).openSlot id).count id id 0 =
        (booksOf storage keys).openSlot id :=
      Books.ext (Function.update_idem ..) rfl rfl
    rw [hlabel, hcount]
    exact hsame.symm ▸ .opened hfails hopens
  | some tile =>
    obtain ⟨htile, hlook⟩ := DirectXAtlasTexture.look_of_some hnew
    obtain ⟨hlabel, hcount⟩ := Prod.mk.inj hlook
    rw [hlabel, hcount]
    exact .openedTaken hfails hopens htile

theorem booksOf_leak : booksOf (storage.setList kind
    { storage.list kind with freeList := (storage.list kind).freeList.tail }) keys =
      (booksOf storage keys).leak kind :=
  Books.ext (congrArg (Option.map (Option.map DirectXAtlasTexture.look) ∘ ·)
    (TextureStorage.slot_setList_of_textures rfl)) (TextureStorage.free_setList _) rfl

/-- An allocation for which no texture has room. -/
theorem allocated_of_pushTexture {fails : Prop} {tile : Option AtlasTile}
    (hfails : fails ↔ device.createTexture2D = true ∧ device.createShaderResourceView = false)
    (h : (match pushTexture allocator device storage size kind with
      | none => none
      | some (storage, none) => some (storage, none)
      | some (storage, some id) =>
        match storage.texture id with
        | none => none
        | some texture => some (storage.setSlot id (some (texture.allocate allocator size).1),
            (texture.allocate allocator size).2)) = some (storage', tile)) :
    Allocated (booksOf storage keys) kind fails (booksOf storage' keys) tile := by
  simp only [pushTexture] at h
  by_cases htexture : device.createTexture2D = true
  · by_cases hview : device.createShaderResourceView = true
    · rw [if_pos htexture, if_pos hview] at h
      have hnot : ¬ fails := fun hfail => by
        have := (hfails.mp hfail).2
        rw [hview] at this
        cases this
      rcases hpush : storage.push kind fun id =>
          (⟨id, allocator.new (atlasSize size), 0⟩ : DirectXAtlasTexture A) with - | ⟨pushed, id⟩
      · simp only [hpush] at h
        cases h
      · obtain ⟨texture, htexture, hallocated⟩ := allocated_of_push keys hnot hpush
        simp only [hpush, htexture, Option.some.injEq, Prod.mk.injEq] at h
        obtain ⟨rfl, rfl⟩ := h
        exact hallocated
    · rw [if_pos htexture, if_neg hview] at h
      obtain ⟨rfl, rfl⟩ := Prod.mk.inj (Option.some.inj h)
      rw [booksOf_leak]
      exact .leaked (hfails.mpr ⟨htexture, by simpa using hview⟩)
  · rw [if_neg htexture] at h
    obtain ⟨rfl, rfl⟩ := Prod.mk.inj (Option.some.inj h)
    exact .kept fun hfail => htexture (hfails.mp hfail).1

/-- An allocation does to the books what it may. -/
theorem allocated_of_allocate {tile : Option AtlasTile}
    (h : allocate allocator device storage size kind = some (storage', tile)) :
    Allocated (booksOf storage keys) kind (FailsAtView allocator device storage size kind)
      (booksOf storage' keys) tile := by
  rw [allocate] at h
  rcases hfind : storage.findLast (DirectXAtlasTexture.allocate allocator size) kind with
    ⟨tried, - | found⟩
  · have hbooks : booksOf tried keys = booksOf storage keys := by
      have hnone := @booksOf_findLast_of_none K A allocator size storage keys kind (by rw [hfind])
      rwa [hfind] at hnone
    have hroom := TextureStorage.findLast_eq_none_iff.mp (congrArg Prod.snd hfind)
    rw [hfind] at h
    rw [← hbooks]
    exact allocated_of_pushTexture (and_iff_right hroom) h
  · rw [hfind] at h
    obtain ⟨rfl, rfl⟩ := Prod.mk.inj (Option.some.inj h)
    obtain ⟨id, n, rfl, hslot, hcount⟩ :=
      @booksOf_findLast_of_some K A allocator size storage keys kind found (by rw [hfind])
    rw [hfind] at hcount
    rw [hcount]
    refine .taken (fun hfails => ?_) hslot
    have hnone := TextureStorage.findLast_eq_none_iff.mpr hfails.1
    rw [hfind] at hnone
    cases hnone

/-- What an allocation leaves is proper. -/
theorem Allocated.proper {b b' : Books K} {fails : Prop} {tile : Option AtlasTile}
    (h : Allocated b kind fails b' tile) (hproper : b.Proper) : b'.Proper := by
  cases h with
  | kept _ => exact hproper
  | opened _ _ => exact hproper.openSlot _
  | leaked _ => exact hproper.leak kind
  | taken _ hslot => exact hproper.count hslot _
  | openedTaken _ _ _ =>
    exact (hproper.openSlot _).count (by rw [slot_openSlot, if_pos rfl]) 1

/-- The books balance behind an allocation without a tile, if no free slot is lost. -/
theorem Allocated.balanced_iff {b b' : Books K} {fails : Prop} (h : Allocated b kind fails b' none)
    (hbalanced : b.Balanced) : b'.Balanced ↔ (fails → b.free kind = []) := by
  cases h with
  | kept hfails => exact iff_of_true hbalanced fun hfail => absurd hfail hfails
  | opened hfails hopens =>
    exact iff_of_true (hbalanced.openSlot hopens) fun hfail => absurd hfail hfails
  | leaked hfails => rw [hbalanced.leak_iff, forall_prop_of_true hfails]

/-- They balance behind an allocation with a tile when the key is mapped to it, and no free slot is
lost. -/
theorem Allocated.balanced_map {b b' : Books K} {fails : Prop} {tile : AtlasTile}
    (h : Allocated b kind fails b' (some tile)) (hproper : b.Proper) (hbalanced : b.Balanced)
    (key : K) : ¬ fails ∧ (b'.map key tile.textureId).Balanced := by
  cases h with
  | taken hfails hslot =>
    have hlabel := hproper.labelled _ _ _ hslot
    rw [hlabel] at hslot ⊢
    exact ⟨hfails, hbalanced.take hslot key⟩
  | openedTaken hfails hopens htile =>
    rw [htile]
    refine ⟨hfails, (hbalanced.openSlot hopens).take ?_ key⟩
    rw [slot_openSlot, if_pos rfl]

theorem books_new : (new : DirectXAtlasState K A).books = blank := by
  refine Books.ext (funext fun id => ?_) (funext fun kind => ?_) rfl
  · rcases id with ⟨ix, - | -⟩ <;> rfl
  · cases kind <;> rfl

/-! ## Calls -/

section Calls

variable [DecidableEq K] {s s' : DirectXAtlasState K A} {key : K}

theorem mem_keys_of_tile {tile : AtlasTileWithMetadata} (h : s.tile key = some tile) :
    (key, tile.tile.textureId) ∈ s.books.keys := by
  obtain ⟨entry, hentry, rfl⟩ := Option.map_eq_some_iff.mp h
  have hkey : entry.1 = key := by simpa using List.find?_some hentry
  exact List.mem_map.mpr ⟨entry, List.mem_of_find?_eq_some hentry, by rw [hkey]⟩

theorem notMem_keys_of_tile (h : s.tile key = none) : key ∉ s.books.keys.map Prod.fst := by
  intro hmem
  obtain ⟨held, hheld, hkey⟩ := List.mem_map.mp hmem
  obtain ⟨entry, hentry, rfl⟩ := List.mem_map.mp hheld
  have hnone := List.find?_eq_none.mp (Option.map_eq_none_iff.mp h) entry hentry
  simp only [decide_eq_true_eq] at hnone
  exact hnone hkey

/-- A lookup returns at once, or it allocates and maps the key to the tile that it gets. -/
theorem getOrInsertWith_cases {build : Except String (Option AtlasTileData)}
    {result : Except String (Option AtlasTileWithMetadata)}
    (h : s.getOrInsertWith allocator device key build = some (s', result)) :
    s' = s ∧ (s.tile key ≠ none ∨ ∀ tileData, build ≠ .ok (some tileData)) ∨
    ∃ tileData storage' tile, build = .ok (some tileData) ∧ s.tile key = none ∧
      allocate allocator device s.storage tileData.size tileData.textureKind =
        some (storage', tile) ∧
      (tile = none ∧ s' = { s with storage := storage' } ∨
        ∃ tile', tile = some tile' ∧
          s' = ⟨storage', (key, ⟨tile', tileData.drawOffset⟩) :: s.tilesByKey⟩ ∧
          result = .ok (some ⟨tile', tileData.drawOffset⟩)) := by
  unfold getOrInsertWith at h
  cases htile : s.tile key with
  | some tile =>
    rw [htile] at h
    exact .inl ⟨(Prod.mk.inj (Option.some.inj h)).1.symm, .inl (by simp)⟩
  | none =>
    rw [htile] at h
    rcases build with error | - | tileData
    · exact .inl ⟨(Prod.mk.inj (Option.some.inj h)).1.symm, .inr (by simp)⟩
    · exact .inl ⟨(Prod.mk.inj (Option.some.inj h)).1.symm, .inr (by simp)⟩
    · right
      rcases hallocate : allocate allocator device s.storage tileData.size
          tileData.textureKind with - | ⟨storage', - | tile⟩
      · simp only [hallocate] at h
        cases h
      · simp only [hallocate] at h
        exact ⟨tileData, storage', none, rfl, rfl, hallocate,
          .inl ⟨rfl, (Prod.mk.inj (Option.some.inj h)).1.symm⟩⟩
      · cases htexture : storage'.texture tile.textureId with
        | none =>
          simp only [hallocate, htexture] at h
          cases h
        | some texture =>
          simp only [hallocate, htexture] at h
          obtain ⟨rfl, rfl⟩ := Prod.mk.inj (Option.some.inj h)
          exact ⟨tileData, storage', some tile, rfl, rfl, hallocate,
            .inr ⟨tile, rfl, rfl, rfl⟩⟩

theorem books_filter (s : DirectXAtlasState K A) (key : K)
    (storage : TextureStorage (DirectXAtlasTexture A)) :
    (⟨storage, s.tilesByKey.filter fun entry => entry.1 ≠ key⟩ : DirectXAtlasState K A).books =
      booksOf storage (s.books.unmap key).keys := by
  refine congrArg (booksOf storage) ?_
  rw [unmap, books, booksOf, List.filter_map]
  rfl

/-- A removal whose texture is gone only forgets the key. -/
theorem remove_of_gone {tile : AtlasTileWithMetadata} (htile : s.tile key = some tile)
    (hgone : ∀ texture, s.storage.slot tile.tile.textureId ≠ some (some texture))
    (h : s.remove key = some s') : s'.books = s.books.unmap key := by
  rw [remove, htile] at h
  rcases hslot : s.storage.slot tile.tile.textureId with - | - | texture
  · simp only [hslot] at h
    obtain rfl := Option.some.inj h
    exact books_filter s key _
  · simp only [hslot] at h
    obtain rfl := Option.some.inj h
    exact books_filter s key _
  · exact absurd hslot (hgone texture)

/-- A removal does nothing, or it forgets the key, with what becomes of its texture. -/
theorem remove_cases (hproper : s.books.Proper) (h : s.remove key = some s') :
    s' = s ∨ ∃ id, (key, id) ∈ s.books.keys ∧
      ((∀ held, s.books.slot id ≠ some (some held)) ∧ s'.books = s.books.unmap key ∨
        ∃ n, s.books.slot id = some (some (id, n)) ∧
          (n = 1 ∧ s'.books = (s.books.unmap key).release id ∨
            s'.books = (s.books.unmap key).count id id (n - 1))) := by
  cases htile : s.tile key with
  | none =>
    rw [remove, htile] at h
    exact .inl (Option.some.inj h).symm
  | some tile =>
    refine .inr ⟨tile.tile.textureId, mem_keys_of_tile htile, ?_⟩
    by_cases hlive : ∃ texture, s.storage.slot tile.tile.textureId = some (some texture)
    · obtain ⟨texture, hslot⟩ := hlive
      have hbooks : s.books.slot tile.tile.textureId =
          some (some (texture.id, texture.liveAtlasKeys)) := slot_booksOf_of_some hslot
      have hlabel := hproper.labelled _ _ _ hbooks
      have hpresent : s.storage.slot tile.tile.textureId ≠ none := by
        rw [hslot]
        simp
      rw [hlabel] at hbooks
      rw [remove, htile] at h
      simp only [hslot] at h
      refine .inr ⟨texture.liveAtlasKeys, hbooks, ?_⟩
      split_ifs at h with hzero hone
      · obtain rfl := Option.some.inj h
        refine .inl ⟨by omega, ?_⟩
        rw [hlabel]
        exact (books_filter s key _).trans (booksOf_release hpresent)
      · obtain rfl := Option.some.inj h
        refine .inr ((books_filter s key _).trans ((booksOf_setSlot hpresent _).trans ?_))
        rw [hlabel]
        rfl
    · refine .inl ⟨fun held hheld => ?_, ?_⟩
      · obtain ⟨texture, htexture, -⟩ := exists_texture hheld
        exact hlive ⟨texture, htexture⟩
      · exact remove_of_gone htile (fun texture hslot => hlive ⟨texture, hslot⟩) h

/-- Where the view of a texture cannot be created, no slot was free. -/
def KeepsFreeSlots (allocator : Allocator A) (s : DirectXAtlasState K A) : Call K → Prop
  | .getOrInsertWith key (.ok (some tileData)) device =>
    s.tile key = none →
      FailsAtView allocator device s.storage tileData.size tileData.textureKind →
      s.storage.free tileData.textureKind = []
  | _ => True

/-- A call that returns no tile leaves the books as they were, or with a new texture. -/
def FailedCallKeeps (allocator : Allocator A) (s : DirectXAtlasState K A) : Call K → Prop
  | .getOrInsertWith key build device => ∀ s' result,
    s.getOrInsertWith allocator device key build = some (s', result) →
    (∀ tile, result ≠ .ok (some tile)) → s'.tilesByKey = s.tilesByKey ∧
      (s'.books = s.books ∨ ∃ id, s.books.Opens id ∧ s'.books = s.books.openSlot id)
  | .remove _ => True

/-- All calls leave the books proper. -/
theorem proper_of_step {call : Call K} (hproper : s.books.Proper)
    (hstep : step allocator s call = some s') : s'.books.Proper := by
  cases call with
  | getOrInsertWith key build device =>
    obtain ⟨⟨t, result⟩, hcall, rfl⟩ := Option.map_eq_some_iff.mp hstep
    obtain ⟨rfl, -⟩ | ⟨tileData, storage', tile, -, htile, hallocate, hresult⟩ :=
      getOrInsertWith_cases hcall
    · exact hproper
    · have hproper' := (allocated_of_allocate hallocate).proper hproper
      obtain ⟨-, rfl⟩ | ⟨tile', -, rfl, -⟩ := hresult
      · exact hproper'
      · exact hproper'.map (notMem_keys_of_tile htile) tile'.textureId
  | remove key =>
    obtain rfl | ⟨id, -, ⟨-, hbooks⟩ | ⟨n, hslot, ⟨-, hbooks⟩ | hbooks⟩⟩ :=
      remove_cases hproper hstep
    · exact hproper
    · rw [hbooks]
      exact hproper.unmap key
    · rw [hbooks]
      exact (hproper.unmap key).release id
    · rw [hbooks]
      exact (hproper.unmap key).count hslot (n - 1)

/-- A call keeps the balance exactly when it loses no free slot. -/
theorem balanced_step_iff {call : Call K} (hproper : s.books.Proper) (hbalanced : s.books.Balanced)
    (hstep : step allocator s call = some s') :
    s'.books.Balanced ↔ KeepsFreeSlots allocator s call := by
  cases call with
  | getOrInsertWith key build device =>
    obtain ⟨⟨t, result⟩, hcall, rfl⟩ := Option.map_eq_some_iff.mp hstep
    obtain ⟨rfl, hreturns⟩ | ⟨tileData, storage', tile, rfl, htile, hallocate, hresult⟩ :=
      getOrInsertWith_cases hcall
    · refine iff_of_true hbalanced ?_
      rcases build with error | - | tileData
      · trivial
      · trivial
      · exact fun hnone => absurd hnone (hreturns.resolve_right fun h => h tileData rfl)
    · rw [KeepsFreeSlots, forall_prop_of_true htile]
      obtain ⟨rfl, rfl⟩ | ⟨tile', rfl, rfl, -⟩ := hresult
      · exact (allocated_of_allocate hallocate).balanced_iff hbalanced
      · obtain ⟨hfails, hbalanced'⟩ :=
          (allocated_of_allocate hallocate).balanced_map hproper hbalanced key
        exact iff_of_true hbalanced' fun hfail => absurd hfail hfails
  | remove key =>
    refine iff_of_true ?_ trivial
    obtain rfl | ⟨id, hmem, ⟨hslot, -⟩ | ⟨n, hslot, ⟨rfl, hbooks⟩ | hbooks⟩⟩ :=
      remove_cases hproper hstep
    · exact hbalanced
    · obtain ⟨held, hheld⟩ := hbalanced.mapped _ hmem
      exact absurd hheld (hslot held)
    · rw [hbooks]
      exact hbalanced.release hproper hmem hslot
    · rw [hbooks]
      exact hbalanced.drop hproper hmem hslot

/-- A call that loses no free slot keeps the books when it fails. -/
theorem failedCallKeeps_of_keepsFreeSlots {call : Call K} (h : KeepsFreeSlots allocator s call) :
    FailedCallKeeps allocator s call := by
  cases call with
  | remove key => trivial
  | getOrInsertWith key build device =>
    intro s' result hcall hfailed
    obtain ⟨rfl, -⟩ | ⟨tileData, storage', tile, rfl, htile, hallocate, hresult⟩ :=
      getOrInsertWith_cases hcall
    · exact ⟨rfl, .inl rfl⟩
    · obtain ⟨rfl, rfl⟩ | ⟨tile', -, -, rfl⟩ := hresult
      · refine ⟨rfl, ?_⟩
        have hallocated := @allocated_of_allocate K A allocator device tileData.size s.storage
          storage' (s.books.keys) tileData.textureKind none hallocate
        generalize hbooks : booksOf storage' s.books.keys = b' at hallocated
        have hbooks' : ({ s with storage := storage' } : DirectXAtlasState K A).books = b' := hbooks
        rw [hbooks']
        cases hallocated with
        | kept _ => exact .inl rfl
        | opened _ hopens => exact .inr ⟨_, hopens, rfl⟩
        | leaked hfails =>
          have hnil : s.books.free tileData.textureKind = [] := h htile hfails
          refine .inl (Books.ext rfl ?_ rfl)
          rw [leak]
          change Function.update s.books.free _ (s.books.free tileData.textureKind).tail = _
          rw [hnil, List.tail_nil, ← hnil, Function.update_eq_self]
      · exact absurd rfl (hfailed _)

/-- From the new atlas on, the books balance behind every call, and failed calls keep them, exactly
when no call takes a free slot for a texture whose view cannot be created. -/
theorem balanced_iff_keepsFreeSlots (allocator : Allocator A) (calls : List (Call K)) :
    AllStates (step allocator) (fun s => s.books.Balanced) new calls ∧
        AllSteps (step allocator) (FailedCallKeeps allocator) new calls ↔
      AllSteps (step allocator) (KeepsFreeSlots allocator) new calls := by
  have hiff : AllStates (step allocator) (fun s => s.books.Balanced) new calls ↔
      AllSteps (step allocator) (KeepsFreeSlots allocator) new calls :=
    allStates_iff_allSteps (fun s : DirectXAtlasState K A => s.books.Proper)
      (fun _ _ _ => proper_of_step) (fun _ _ _ => balanced_step_iff)
      (by rw [books_new]; exact blank_proper) (by rw [books_new]; exact blank_balanced) calls
  rw [hiff]
  refine and_iff_left_of_imp fun h => ?_
  exact h.imp fun _ _ => failedCallKeeps_of_keepsFreeSlots

end Calls

/-- A key is removed with its texture, and the view of the next texture cannot be created. -/
def lostSlot : List (Call ℕ) :=
  [.getOrInsertWith 0 (.ok (some ⟨⟨10, 10⟩, .monochrome, ⟨0, 0⟩⟩)) ⟨true, true⟩, .remove 0,
    .getOrInsertWith 1 (.ok (some ⟨⟨10, 10⟩, .monochrome, ⟨0, 0⟩⟩)) ⟨true, false⟩]

/-- The slot of the first texture stays empty, and it is not among the free ones any more. -/
theorem not_balanced_lostSlot :
    ¬ AllStates (step Shelf.allocator) (fun s => s.books.Balanced) new lostSlot := by
  intro h
  have hlast := (((h.2 _ rfl).2 _ rfl).2 _ rfl).head
  have hmem := (hlast.free ⟨0, .monochrome⟩).mpr rfl
  cases hmem

end DirectXAtlasState

end Lucie.Atlas
