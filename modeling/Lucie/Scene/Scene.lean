import Lucie.BoundsTree.Tree

/-!
# The scene

Primitives are clipped, given a draw order by the bounds tree (or by the innermost
layer) and pushed onto the vector of their kind. `finish` sorts each vector, and the
batch iterator merges the seven vectors.
-/

set_option autoImplicit false

namespace Lucie

/-- `PrimitiveKind`, in the order of the derived `Ord`. -/
inductive PrimitiveKind
  | shadow
  | quad
  | path
  | underline
  | monochromeSprite
  | polychromeSprite
  | surface
  deriving DecidableEq

namespace PrimitiveKind

/-- The position of a kind in the enumeration. -/
def rank : PrimitiveKind → ℕ
  | shadow => 0
  | quad => 1
  | path => 2
  | underline => 3
  | monochromeSprite => 4
  | polychromeSprite => 5
  | surface => 6

theorem rank_injective : Function.Injective rank := by
  intro a b h
  cases a <;> cases b <;> first | rfl | cases h

instance : LinearOrder PrimitiveKind := LinearOrder.lift' rank rank_injective

/-- The kinds in the order in which `BatchIterator::next` lists them. -/
def all : List PrimitiveKind :=
  [shadow, quad, path, underline, monochromeSprite, polychromeSprite, surface]

theorem mem_all (kind : PrimitiveKind) : kind ∈ all := by
  cases kind <;> simp [all]

end PrimitiveKind

/-- `AtlasTextureKind`. -/
inductive AtlasTextureKind
  | monochrome
  | polychrome
  deriving DecidableEq

/-- `AtlasTextureId`. -/
structure AtlasTextureId where
  index : ℕ
  kind : AtlasTextureKind
  deriving DecidableEq

/-- The fields of `AtlasTile` that the scene reads. -/
structure AtlasTile where
  textureId : AtlasTextureId
  tileId : ℕ
  deriving DecidableEq

/-- The fields that every kind of primitive has. The colours, radii, widths and vertices,
which the scene only carries along, are the `content`. -/
structure Drawable (U C : Type) where
  order : ℕ
  bounds : Bounds U
  contentMask : Bounds U
  content : C
  deriving DecidableEq

/-- `Primitive`. -/
inductive Primitive (U C : Type)
  | shadow (shadow : Drawable U C)
  | quad (quad : Drawable U C)
  | path (path : Drawable U C) (id : ℕ)
  | underline (underline : Drawable U C)
  | monochromeSprite (sprite : Drawable U C) (tile : AtlasTile)
  | polychromeSprite (sprite : Drawable U C) (tile : AtlasTile)
  | surface (surface : Drawable U C)
  deriving DecidableEq

namespace Primitive

variable {U C : Type}

/-- The vector of the scene that a primitive goes to. -/
def kind : Primitive U C → PrimitiveKind
  | shadow _ => .shadow
  | quad _ => .quad
  | path _ _ => .path
  | underline _ => .underline
  | monochromeSprite _ _ => .monochromeSprite
  | polychromeSprite _ _ => .polychromeSprite
  | surface _ => .surface

/-- The common fields of a primitive. -/
def drawable : Primitive U C → Drawable U C
  | shadow d | quad d | path d _ | underline d | monochromeSprite d _ | polychromeSprite d _
  | surface d => d

/-- The draw order of a primitive. -/
def order (p : Primitive U C) : ℕ := p.drawable.order

/-- `Primitive::bounds`. -/
def bounds (p : Primitive U C) : Bounds U := p.drawable.bounds

/-- `Primitive::content_mask`. -/
def contentMask (p : Primitive U C) : Bounds U := p.drawable.contentMask

/-- The tile of a sprite. -/
def tile : Primitive U C → Option AtlasTile
  | monochromeSprite _ tile | polychromeSprite _ tile => some tile
  | _ => none

/-- The texture of a sprite. -/
def textureId (p : Primitive U C) : Option AtlasTextureId := p.tile.map AtlasTile.textureId

/-- The primitive with the order, and for a path the id, that its insertion sets. -/
def place (order id : ℕ) : Primitive U C → Primitive U C
  | shadow d => shadow { d with order }
  | quad d => quad { d with order }
  | path d _ => path { d with order } id
  | underline d => underline { d with order }
  | monochromeSprite d tile => monochromeSprite { d with order } tile
  | polychromeSprite d tile => polychromeSprite { d with order } tile
  | surface d => surface { d with order }

@[simp] theorem kind_place (order id : ℕ) (p : Primitive U C) :
    (p.place order id).kind = p.kind := by
  cases p <;> rfl

@[simp] theorem order_place (order id : ℕ) (p : Primitive U C) :
    (p.place order id).order = order := by
  cases p <;> rfl

/-- The key by which `finish` sorts: sprites are sorted by tile within an order. -/
def sortKey (p : Primitive U C) : ℕ ×ₗ ℕ := toLex (p.order, (p.tile.map AtlasTile.tileId).getD 0)

/-- The bounds that `insert_primitive` computes. -/
def clippedBounds [AddCommGroup U] [LinearOrder U] (p : Primitive U C) : Bounds U :=
  p.bounds.intersect p.contentMask

end Primitive

/-- `PaintOperation`. -/
inductive PaintOperation (U C : Type)
  | primitive (primitive : Primitive U C)
  | startLayer (bounds : Bounds U)
  | endLayer

/-- `Scene`. The seven vectors `shadows`, `quads`, `paths`, `underlines`,
`monochrome_sprites`, `polychrome_sprites` and `surfaces` are given by their kind. -/
structure Scene (U C : Type) where
  paintOperations : List (PaintOperation U C)
  primitiveBounds : BoundsTree U
  layerStack : List ℕ
  primitives : PrimitiveKind → List (Primitive U C)

namespace Scene

variable {U C : Type}

/-- `Scene::default`. -/
def empty : Scene U C := ⟨[], .empty, [], fun _ => []⟩

section Insert

variable [AddCommGroup U] [LinearOrder U]

/-- `Scene::push_layer`. -/
def pushLayer (s : Scene U C) (bounds : Bounds U) : Option (Scene U C) := do
  let (primitiveBounds, order) ← s.primitiveBounds.insert bounds
  some { s with
    primitiveBounds
    layerStack := s.layerStack ++ [order]
    paintOperations := s.paintOperations ++ [.startLayer bounds] }

/-- `Scene::pop_layer`. -/
def popLayer (s : Scene U C) : Scene U C :=
  { s with
    layerStack := s.layerStack.dropLast
    paintOperations := s.paintOperations ++ [.endLayer] }

/-- The order of a new primitive: that of the innermost layer, or a new one. -/
def nextOrder (s : Scene U C) (clippedBounds : Bounds U) : Option (BoundsTree U × ℕ) :=
  match s.layerStack.getLast? with
  | some order => some (s.primitiveBounds, order)
  | none => s.primitiveBounds.insert clippedBounds

/-- `Scene::insert_primitive`. -/
def insertPrimitive (s : Scene U C) (primitive : Primitive U C) : Option (Scene U C) :=
  if primitive.clippedBounds.isEmpty then some s
  else do
    let (primitiveBounds, order) ← s.nextOrder primitive.clippedBounds
    let placed := primitive.place order (s.primitives .path).length
    some { s with
      primitiveBounds
      primitives := Function.update s.primitives placed.kind (s.primitives placed.kind ++ [placed])
      paintOperations := s.paintOperations ++ [.primitive placed] }

/-- Insert primitives one after the other. -/
def insertPrimitives (s : Scene U C) : List (Primitive U C) → Option (Scene U C)
  | [] => some s
  | primitive :: primitives => do
    let s ← s.insertPrimitive primitive
    s.insertPrimitives primitives

end Insert

/-- `Scene::finish`. The sorts of the source are stable. -/
def finish (s : Scene U C) : Scene U C :=
  { s with
    primitives := fun kind =>
      (s.primitives kind).insertionSort fun p q => p.sortKey ≤ q.sortKey }

end Scene

/-- `PrimitiveBatch`: a range of the vector of a kind, with the texture of a sprite batch. -/
structure PrimitiveBatch where
  kind : PrimitiveKind
  textureId : Option AtlasTextureId
  start : ℕ
  stop : ℕ

/-- `BatchIterator`: for every kind the start of the next batch and what is left of the
vector. -/
structure BatchIterator (U C : Type) where
  start : PrimitiveKind → ℕ
  iter : PrimitiveKind → List (Primitive U C)

namespace BatchIterator

variable {U C : Type}

/-- The key of a peeked order and a kind; an exhausted iterator counts as `u32::MAX`. -/
def key (entry : Option ℕ × PrimitiveKind) : ℕ ×ₗ PrimitiveKind :=
  toLex (entry.1.getD (2 ^ 32 - 1), entry.2)

/-- The sorted array `orders_and_kinds`. -/
def ordersAndKinds (it : BatchIterator U C) : List (Option ℕ × PrimitiveKind) :=
  (PrimitiveKind.all.map fun kind => ((it.iter kind).head?.map Primitive.order, kind)).insertionSort
    fun a b => key a ≤ key b

/-- `BatchIterator::next`. The batch goes on below the second key and, for sprites,
within one texture; the other kinds have no texture. -/
def next (it : BatchIterator U C) : Option (PrimitiveBatch × BatchIterator U C) :=
  match it.ordersAndKinds with
  | (some _, batchKind) :: second :: _ =>
    match it.iter batchKind with
    | [] => none
    | head :: rest =>
      let inBatch := fun p : Primitive U C =>
        decide (toLex (p.order, batchKind) < key second) && p.textureId == head.textureId
      let start := it.start batchKind
      let stop := start + 1 + (rest.takeWhile inBatch).length
      some (⟨batchKind, head.textureId, start, stop⟩,
        { start := Function.update it.start batchKind stop
          iter := Function.update it.iter batchKind (rest.dropWhile inBatch) })
  | _ => none

/-- Iterate to the end, for at most `fuel` batches. -/
def collect : ℕ → BatchIterator U C → Option (List PrimitiveBatch)
  | 0, _ => none
  | fuel + 1, it =>
    match it.next with
    | none => some []
    | some (batch, it) => (collect fuel it).map (batch :: ·)

end BatchIterator

namespace Scene

variable {U C : Type}

/-- The iterator that `Scene::batches` builds. -/
def batchIterator (s : Scene U C) : BatchIterator U C := ⟨fun _ => 0, s.primitives⟩

/-- `Scene::batches`: every batch takes a primitive, so this fuel is enough. -/
def batches (s : Scene U C) : Option (List PrimitiveBatch) :=
  s.batchIterator.collect ((PrimitiveKind.all.map fun kind => (s.primitives kind).length).sum + 1)

/-- The primitives of a batch, in the order in which they are drawn. -/
def batchPrimitives (s : Scene U C) (batch : PrimitiveBatch) : List (Primitive U C) :=
  ((s.primitives batch.kind).drop batch.start).take (batch.stop - batch.start)

/-- The primitives of all batches, one batch after the other. -/
def flatten (s : Scene U C) (batches : List PrimitiveBatch) : List (Primitive U C) :=
  batches.flatMap s.batchPrimitives

end Scene

end Lucie
