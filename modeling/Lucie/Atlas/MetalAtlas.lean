import Lucie.Atlas.Ledger
import Lucie.Foundation.Run

/-!
# The texture atlas for Metal

The atlas keeps its textures in one list for each kind, with the indices of the empty slots.
A tile is allocated in the last texture that has room for it, else in a new one. Each texture
counts its keys; it is dropped when the last of them is removed. The contents of the textures
are left out. The free lists have their last entry first.
-/

set_option autoImplicit false

namespace Lucie.Atlas

/-- `BucketedAtlasAllocator`: an allocation returns an id and a rectangle, or fails. -/
structure Allocator (A : Type) where
  new : Size ℤ → A
  allocate : A → Size ℤ → A × Option (ℕ × Bounds ℤ)

/-- An allocator returns rectangles that have the requested size at least and are disjoint from
those that it has returned before. -/
structure Allocator.Lawful {A : Type} (allocator : Allocator A) (taken : A → List (Bounds ℤ)) :
    Prop where
  new : ∀ size, taken (allocator.new size) = []
  failed : ∀ a size, (allocator.allocate a size).2 = none →
    taken (allocator.allocate a size).1 = taken a
  allocated : ∀ a size id rect, (allocator.allocate a size).2 = some (id, rect) →
    taken (allocator.allocate a size).1 = rect :: taken a
  disjoint : ∀ a size id rect, (allocator.allocate a size).2 = some (id, rect) →
    ∀ r ∈ taken a, rect.intersects r = false
  covers : ∀ a size id rect, (allocator.allocate a size).2 = some (id, rect) →
    rect.Covers ⟨rect.origin, size⟩

/-- `MetalAtlasTexture`. -/
structure MetalAtlasTexture (A : Type) where
  id : AtlasTextureId
  allocator : A
  liveAtlasKeys : ℕ

/-- `AtlasTextureList`. -/
structure AtlasTextureList (A : Type) where
  textures : List (Option (MetalAtlasTexture A))
  freeList : List ℕ

/-- `MetalAtlasState`. -/
structure MetalAtlasState (K A : Type) where
  monochromeTextures : AtlasTextureList A
  polychromeTextures : AtlasTextureList A
  tilesByKey : List (K × AtlasTile)

variable {K A : Type}

/-- `MetalAtlasTexture::allocate`. -/
def MetalAtlasTexture.allocate (allocator : Allocator A) (texture : MetalAtlasTexture A)
    (size : Size ℤ) : MetalAtlasTexture A × Option AtlasTile :=
  match allocator.allocate texture.allocator size with
  | (a, none) => ({ texture with allocator := a }, none)
  | (a, some (id, rect)) =>
    ({ texture with allocator := a, liveAtlasKeys := texture.liveAtlasKeys + 1 },
      some ⟨texture.id, id, 0, ⟨rect.origin, size⟩⟩)

/-- Allocate in the last texture that has room. -/
def allocateLast (allocator : Allocator A) (size : Size ℤ) :
    List (Option (MetalAtlasTexture A)) → List (Option (MetalAtlasTexture A)) × Option AtlasTile
  | [] => ([], none)
  | slot :: rest =>
    match allocateLast allocator size rest with
    | (rest, some tile) => (slot :: rest, some tile)
    | (rest, none) =>
      match slot with
      | none => (none :: rest, none)
      | some texture =>
        let (texture, tile) := texture.allocate allocator size
        (some texture :: rest, tile)

/-- The size of a texture that has room for some size. -/
def atlasSize (minSize : Size ℤ) : Size ℤ :=
  ⟨max (min minSize.width 16384) 1024, max (min minSize.height 16384) 1024⟩

namespace MetalAtlasState

/-- `MetalAtlas::new`. -/
def new : MetalAtlasState K A := ⟨⟨[], []⟩, ⟨[], []⟩, []⟩

/-- The textures of a kind. -/
def textures (s : MetalAtlasState K A) : AtlasTextureKind → AtlasTextureList A
  | .monochrome => s.monochromeTextures
  | .polychrome => s.polychromeTextures

/-- Replace the textures of a kind. -/
def setTextures (s : MetalAtlasState K A) (kind : AtlasTextureKind) (list : AtlasTextureList A) :
    MetalAtlasState K A :=
  match kind with
  | .monochrome => { s with monochromeTextures := list }
  | .polychrome => { s with polychromeTextures := list }

/-- `MetalAtlasState::texture`; `none` is a panic. -/
def texture (s : MetalAtlasState K A) (id : AtlasTextureId) : Option (MetalAtlasTexture A) :=
  (s.textures id.kind).textures[id.index]?.join

/-- `MetalAtlasState::push_texture`, with the index of the new texture; `none` is a panic. -/
def pushTexture (allocator : Allocator A) (s : MetalAtlasState K A) (minSize : Size ℤ)
    (kind : AtlasTextureKind) : Option (MetalAtlasState K A × ℕ) :=
  let list := s.textures kind
  let texture ix := some ⟨⟨ix, kind⟩, allocator.new (atlasSize minSize), 0⟩
  match list.freeList with
  | ix :: freeList =>
    if ix < list.textures.length then
      some (s.setTextures kind ⟨list.textures.set ix (texture ix), freeList⟩, ix)
    else none
  | [] =>
    let ix := list.textures.length
    some (s.setTextures kind ⟨list.textures ++ [texture ix], []⟩, ix)

/-- `MetalAtlasState::allocate`; `none` is a panic. -/
def allocate (allocator : Allocator A) (s : MetalAtlasState K A) (size : Size ℤ)
    (kind : AtlasTextureKind) : Option (MetalAtlasState K A × Option AtlasTile) :=
  let list := s.textures kind
  match allocateLast allocator size list.textures with
  | (textures, some tile) => some (s.setTextures kind { list with textures }, some tile)
  | (textures, none) => do
    let (s, ix) ← (s.setTextures kind { list with textures }).pushTexture allocator size kind
    let list := s.textures kind
    let texture ← list.textures[ix]?.join
    let (texture, tile) := texture.allocate allocator size
    some (s.setTextures kind { list with textures := list.textures.set ix (some texture) }, tile)

variable [DecidableEq K]

/-- The tile of a key. -/
def tile (s : MetalAtlasState K A) (key : K) : Option AtlasTile :=
  (s.tilesByKey.find? (·.1 = key)).map Prod.snd

/-- `MetalAtlas::get_or_insert_with`, given what building the tile returns: an error, nothing or
a size. The outer `none` is a panic. -/
def getOrInsertWith (allocator : Allocator A) (textureKind : K → AtlasTextureKind)
    (s : MetalAtlasState K A) (key : K) (build : Except String (Option (Size ℤ))) :
    Option (MetalAtlasState K A × Except String (Option AtlasTile)) :=
  match s.tile key with
  | some tile => some (s, .ok (some tile))
  | none =>
    match build with
    | .error error => some (s, .error error)
    | .ok none => some (s, .ok none)
    | .ok (some size) => do
      let (s, tile) ← s.allocate allocator size (textureKind key)
      match tile with
      | none => some (s, .error "failed to allocate")
      | some tile =>
        let _ ← s.texture tile.textureId
        some ({ s with tilesByKey := (key, tile) :: s.tilesByKey }, .ok (some tile))

/-- `MetalAtlas::remove`; `none` is the panic of a counter below zero. -/
def remove (s : MetalAtlasState K A) (key : K) : Option (MetalAtlasState K A) :=
  match s.tile key with
  | none => some s
  | some tile =>
    let id := tile.textureId
    let list := s.textures id.kind
    match list.textures.findIdx? (·.any (·.id = id)) with
    | none => some s
    | some ix =>
      match list.textures[ix]?.join with
      | none => some s
      | some texture =>
        if texture.liveAtlasKeys = 0 then none
        else if texture.liveAtlasKeys - 1 = 0 then
          some { s.setTextures id.kind ⟨list.textures.set ix none, id.index :: list.freeList⟩ with
            tilesByKey := Ledger.without s.tilesByKey key }
        else
          let texture := { texture with liveAtlasKeys := texture.liveAtlasKeys - 1 }
          some (s.setTextures id.kind
            { list with textures := list.textures.set ix (some texture) })

end MetalAtlasState

end Lucie.Atlas
