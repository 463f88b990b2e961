import Lucie.Atlas.MetalAtlas
import Lucie.Atlas.TextureStorage

/-!
# The texture atlas for Blade

New textures and the bytes of new tiles are queued with the id of their texture, and the queues are
flushed before the next frame. Meanwhile a texture whose last key is removed is destroyed, and its
slot is free for another one.
-/

set_option autoImplicit false

namespace Lucie.Atlas

/-- `gpu::TextureFormat`, as far as the atlas uses it. -/
inductive TextureFormat
  | r8Unorm
  | bgra8Unorm
  deriving DecidableEq

/-- `block_info().size`. -/
def TextureFormat.blockSize : TextureFormat → ℤ
  | .r8Unorm => 1
  | .bgra8Unorm => 4

/-- `BladeAtlasTexture`. The raw texture is the number of those that were created before it. -/
structure BladeAtlasTexture (A : Type) where
  id : AtlasTextureId
  allocator : A
  raw : ℕ
  format : TextureFormat
  liveAtlasKeys : ℕ

/-- `PendingUpload`. -/
structure PendingUpload (D : Type) where
  id : AtlasTextureId
  bounds : Bounds ℤ
  data : D

/-- An entry of a queue, with the raw texture that it is for. The code does not keep the latter. -/
structure Queued (E : Type) where
  entry : E
  queuedFor : Option ℕ

/-- What is encoded for the device. -/
inductive GpuCommand (D : Type)
  | initTexture (raw : ℕ)
  | copyBufferToTexture (data : D) (bytesPerRow : ℤ) (raw : ℕ) (bounds : Bounds ℤ)

/-- The texture that a command writes to. -/
def GpuCommand.raw {D : Type} : GpuCommand D → ℕ
  | .initTexture raw => raw
  | .copyBufferToTexture _ _ raw _ => raw

/-- `BladeAtlasState`, with the number of textures that were created. -/
structure BladeAtlasState (K A D : Type) where
  storage : TextureStorage (BladeAtlasTexture A)
  tilesByKey : List (K × AtlasTile)
  initializations : List (Queued AtlasTextureId)
  uploads : List (Queued (PendingUpload D))
  created : ℕ

variable {K A D : Type}

namespace BladeAtlasTexture

/-- `BladeAtlasTexture::allocate`. -/
def allocate (allocator : Allocator A) (size : Size ℤ) (texture : BladeAtlasTexture A) :
    BladeAtlasTexture A × Option AtlasTile :=
  match allocator.allocate texture.allocator size with
  | (a, none) => ({ texture with allocator := a }, none)
  | (a, some (id, rect)) =>
    ({ texture with allocator := a, liveAtlasKeys := texture.liveAtlasKeys + 1 },
      some ⟨texture.id, id, 0, ⟨rect.origin, size⟩⟩)

/-- `BladeAtlasTexture::bytes_per_pixel`. -/
def bytesPerPixel (texture : BladeAtlasTexture A) : ℤ := texture.format.blockSize

end BladeAtlasTexture

namespace BladeAtlasState

/-- `BladeAtlas::new`. -/
def new : BladeAtlasState K A D := ⟨.empty, [], [], [], 0⟩

/-- The raw texture in a slot. -/
def rawAt (storage : TextureStorage (BladeAtlasTexture A)) (id : AtlasTextureId) : Option ℕ :=
  (storage.texture id).map BladeAtlasTexture.raw

section Calls

variable (allocator : Allocator A)

/-- The texture that `push_texture` makes. -/
def newTexture (minSize : Size ℤ) (raw : ℕ) (id : AtlasTextureId) : BladeAtlasTexture A where
  id
  allocator := allocator.new ⟨max minSize.width 1024, max minSize.height 1024⟩
  raw
  format :=
    match id.kind with
    | .monochrome => .r8Unorm
    | .polychrome => .bgra8Unorm
  liveAtlasKeys := 0

/-- `BladeAtlasState::push_texture`, with the id of the new texture; `none` is a panic. -/
def pushTexture (s : BladeAtlasState K A D) (minSize : Size ℤ) (kind : AtlasTextureKind) :
    Option (BladeAtlasState K A D × AtlasTextureId) :=
  match s.storage.push kind (newTexture allocator minSize s.created) with
  | none => none
  | some (storage, id) =>
    some ({ s with
      storage
      initializations := s.initializations ++ [⟨id, some s.created⟩]
      created := s.created + 1 }, id)

/-- `BladeAtlasState::allocate`; `none` is a panic. -/
def allocate (s : BladeAtlasState K A D) (size : Size ℤ) (textureKind : AtlasTextureKind) :
    Option (BladeAtlasState K A D × AtlasTile) :=
  match s.storage.findLast (BladeAtlasTexture.allocate allocator size) textureKind with
  | (storage, some tile) => some ({ s with storage }, tile)
  | (storage, none) =>
    match pushTexture allocator { s with storage } size textureKind with
    | none => none
    | some (s, id) =>
      match s.storage.texture id with
      | none => none
      | some texture =>
        match texture.allocate allocator size with
        | (_, none) => none
        | (texture, some tile) =>
          some ({ s with storage := s.storage.setSlot id (some texture) }, tile)

/-- `BladeAtlasState::upload_texture`. -/
def uploadTexture (s : BladeAtlasState K A D) (id : AtlasTextureId) (bounds : Bounds ℤ) (data : D) :
    BladeAtlasState K A D :=
  { s with uploads := s.uploads ++ [⟨⟨id, bounds, data⟩, rawAt s.storage id⟩] }

/-- A loop over a queue, with one command for each entry; `none` is a panic. -/
def flushQueue {E : Type} (textureId : E → AtlasTextureId)
    (command : E → BladeAtlasTexture A → GpuCommand D)
    (storage : TextureStorage (BladeAtlasTexture A)) :
    List (Queued E) → Option (List (GpuCommand D))
  | [] => some []
  | queued :: rest =>
    match storage.texture (textureId queued.entry) with
    | none => none
    | some texture =>
      (flushQueue textureId command storage rest).map fun commands =>
        command queued.entry texture :: commands

/-- `BladeAtlasState::flush_initializations`. -/
def flushInitializations (storage : TextureStorage (BladeAtlasTexture A)) :
    List (Queued AtlasTextureId) → Option (List (GpuCommand D)) :=
  flushQueue id (fun _ texture => .initTexture texture.raw) storage

/-- The loop over the uploads in `BladeAtlasState::flush`. -/
def flushUploads (storage : TextureStorage (BladeAtlasTexture A)) :
    List (Queued (PendingUpload D)) → Option (List (GpuCommand D)) :=
  flushQueue PendingUpload.id (fun upload texture => .copyBufferToTexture upload.data
    (upload.bounds.size.width * texture.bytesPerPixel) texture.raw upload.bounds) storage

/-- The commands of `BladeAtlasState::flush`; `none` is a panic. -/
def flushCommands (s : BladeAtlasState K A D) : Option (List (GpuCommand D)) :=
  match flushInitializations s.storage s.initializations with
  | none => none
  | some initializations =>
    (flushUploads s.storage s.uploads).map fun uploads => initializations ++ uploads

/-- `BladeAtlas::before_frame`. -/
def beforeFrame (s : BladeAtlasState K A D) : Option (BladeAtlasState K A D) :=
  s.flushCommands.map fun _ => { s with initializations := [], uploads := [] }

variable [DecidableEq K]

/-- The tile of a key. -/
def tile (s : BladeAtlasState K A D) (key : K) : Option AtlasTile :=
  (s.tilesByKey.find? (·.1 = key)).map Prod.snd

/-- `BladeAtlas::get_or_insert_with`, given what building the tile returns. The outer `none` is a
panic. -/
def getOrInsertWith (textureKind : K → AtlasTextureKind) (s : BladeAtlasState K A D) (key : K)
    (build : Except String (Option (Size ℤ × D))) :
    Option (BladeAtlasState K A D × Except String (Option AtlasTile)) :=
  match s.tile key with
  | some tile => some (s, .ok (some tile))
  | none =>
    match build with
    | .error error => some (s, .error error)
    | .ok none => some (s, .ok none)
    | .ok (some (size, bytes)) =>
      match allocate allocator s size (textureKind key) with
      | none => none
      | some (s, tile) =>
        let s := s.uploadTexture tile.textureId tile.bounds bytes
        some ({ s with tilesByKey := (key, tile) :: s.tilesByKey }, .ok (some tile))

end Calls

variable [DecidableEq K]

/-- `BladeAtlas::remove`; `none` is the panic of a counter below zero. -/
def remove (s : BladeAtlasState K A D) (key : K) : Option (BladeAtlasState K A D) :=
  match s.tile key with
  | none => some s
  | some tile =>
    let id := tile.textureId
    let s := { s with tilesByKey := s.tilesByKey.filter fun entry => entry.1 ≠ key }
    match s.storage.slot id with
    | none | some none => some s
    | some (some texture) =>
      if texture.liveAtlasKeys = 0 then none
      else if texture.liveAtlasKeys - 1 = 0 then
        some { s with
          storage := (s.storage.setSlot id none).pushFree id.kind texture.id.index }
      else
        let texture := { texture with liveAtlasKeys := texture.liveAtlasKeys - 1 }
        some { s with storage := s.storage.setSlot id (some texture) }

/-- A call of the atlas. -/
inductive Call (K D : Type)
  | getOrInsertWith (key : K) (build : Except String (Option (Size ℤ × D)))
  | remove (key : K)
  | beforeFrame

/-- The state after a call; `none` is a panic. -/
def step (allocator : Allocator A) (textureKind : K → AtlasTextureKind)
    (s : BladeAtlasState K A D) : Call K D → Option (BladeAtlasState K A D)
  | .getOrInsertWith key build =>
    (s.getOrInsertWith allocator textureKind key build).map Prod.fst
  | .remove key => s.remove key
  | .beforeFrame => s.beforeFrame

end BladeAtlasState

end Lucie.Atlas
