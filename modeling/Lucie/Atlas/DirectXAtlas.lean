import Lucie.Atlas.Books
import Lucie.Atlas.MetalAtlas
import Lucie.Atlas.TextureStorage
import Lucie.Foundation.Exact

/-!
# The texture atlas for DirectX

A tile is allocated in the last texture that has room for it, else in a new one, whose texture and
view the device may fail to create. The books of the atlas are what is left of its state when the
allocators are taken away.
-/

set_option autoImplicit false

namespace Lucie.Atlas

open Foundation

/-- `DirectXAtlasTexture`, without the texture and the view on the device. -/
structure DirectXAtlasTexture (A : Type) where
  id : AtlasTextureId
  allocator : A
  liveAtlasKeys : ℕ

/-- `AtlasTileData`, without the bytes. -/
structure AtlasTileData where
  size : Size ℤ
  textureKind : AtlasTextureKind
  drawOffset : Point ℚ

/-- `AtlasTileWithMetadata`. -/
structure AtlasTileWithMetadata where
  tile : AtlasTile
  drawOffset : Point ℚ
  deriving DecidableEq

/-- `DirectXAtlasState`. -/
structure DirectXAtlasState (K A : Type) where
  storage : TextureStorage (DirectXAtlasTexture A)
  tilesByKey : List (K × AtlasTileWithMetadata)

/-- Which calls of the device succeed. -/
structure Device where
  createTexture2D : Bool
  createShaderResourceView : Bool

variable {K A : Type}

/-- `DirectXAtlasTexture::allocate`. -/
def DirectXAtlasTexture.allocate (allocator : Allocator A) (size : Size ℤ)
    (texture : DirectXAtlasTexture A) : DirectXAtlasTexture A × Option AtlasTile :=
  match allocator.allocate texture.allocator size with
  | (a, none) => ({ texture with allocator := a }, none)
  | (a, some (id, rect)) =>
    ({ texture with allocator := a, liveAtlasKeys := texture.liveAtlasKeys + 1 },
      some ⟨texture.id, id, 0, ⟨rect.origin, size⟩⟩)

namespace DirectXAtlasState

/-- `DirectXAtlas::new`. -/
def new : DirectXAtlasState K A := ⟨.empty, []⟩

section Calls

variable (allocator : Allocator A) (device : Device)

/-- `DirectXAtlasState::push_texture`, with the id of the new texture; the outer `none` is a
panic. -/
def pushTexture (storage : TextureStorage (DirectXAtlasTexture A)) (minSize : Size ℤ)
    (kind : AtlasTextureKind) :
    Option (TextureStorage (DirectXAtlasTexture A) × Option AtlasTextureId) :=
  if device.createTexture2D then
    if device.createShaderResourceView then
      match storage.push kind fun id => ⟨id, allocator.new (atlasSize minSize), 0⟩ with
      | none => none
      | some (storage, id) => some (storage, some id)
    else
      -- `free_list.pop` has been called already.
      let list := storage.list kind
      some (storage.setList kind { list with freeList := list.freeList.tail }, none)
  else some (storage, none)

/-- `DirectXAtlasState::allocate`; the outer `none` is a panic. -/
def allocate (storage : TextureStorage (DirectXAtlasTexture A)) (size : Size ℤ)
    (textureKind : AtlasTextureKind) :
    Option (TextureStorage (DirectXAtlasTexture A) × Option AtlasTile) :=
  match storage.findLast (DirectXAtlasTexture.allocate allocator size) textureKind with
  | (storage, some tile) => some (storage, some tile)
  | (storage, none) =>
    match pushTexture allocator device storage size textureKind with
    | none => none
    | some (storage, none) => some (storage, none)
    | some (storage, some id) =>
      match storage.texture id with
      | none => none
      | some texture => some (storage.setSlot id (some (texture.allocate allocator size).1),
          (texture.allocate allocator size).2)

variable [DecidableEq K]

/-- The tile of a key. -/
def tile (s : DirectXAtlasState K A) (key : K) : Option AtlasTileWithMetadata :=
  (s.tilesByKey.find? (·.1 = key)).map Prod.snd

/-- `DirectXAtlas::get_or_insert_with`, given what building the tile returns. The outer `none` is a
panic. -/
def getOrInsertWith (s : DirectXAtlasState K A) (key : K)
    (build : Except String (Option AtlasTileData)) :
    Option (DirectXAtlasState K A × Except String (Option AtlasTileWithMetadata)) :=
  match s.tile key with
  | some tile => some (s, .ok (some tile))
  | none =>
    match build with
    | .error error => some (s, .error error)
    | .ok none => some (s, .ok none)
    | .ok (some tileData) =>
      match allocate allocator device s.storage tileData.size tileData.textureKind with
      | none => none
      | some (storage, none) => some ({ s with storage }, .error "failed to allocate")
      | some (storage, some tile) =>
        match storage.texture tile.textureId with
        | none => none
        | some _ =>
          let tile : AtlasTileWithMetadata := ⟨tile, tileData.drawOffset⟩
          some (⟨storage, (key, tile) :: s.tilesByKey⟩, .ok (some tile))

end Calls

variable [DecidableEq K]

/-- `DirectXAtlas::remove`; `none` is the panic of a counter below zero. -/
def remove (s : DirectXAtlasState K A) (key : K) : Option (DirectXAtlasState K A) :=
  match s.tile key with
  | none => some s
  | some tile =>
    let id := tile.tile.textureId
    let s := { s with tilesByKey := s.tilesByKey.filter fun entry => entry.1 ≠ key }
    match s.storage.slot id with
    | none | some none => some s
    | some (some texture) =>
      if texture.liveAtlasKeys = 0 then none
      else if texture.liveAtlasKeys - 1 = 0 then
        some { s with
          storage := (s.storage.setSlot id none).pushFree id.kind texture.id.index }
      else
        let texture := { texture with liveAtlasKeys := texture.liveAtlasKeys - 1 }
        some { s with storage := s.storage.setSlot id (some texture) }

/-- A call of the atlas. -/
inductive Call (K : Type)
  | getOrInsertWith (key : K) (build : Except String (Option AtlasTileData)) (device : Device)
  | remove (key : K)

/-- The state after a call; `none` is a panic. -/
def step (allocator : Allocator A) (s : DirectXAtlasState K A) :
    Call K → Option (DirectXAtlasState K A)
  | .getOrInsertWith key build device =>
    (s.getOrInsertWith allocator device key build).map Prod.fst
  | .remove key => s.remove key

end DirectXAtlasState

end Lucie.Atlas
