import Lucie.BoundsTree.Insert
import Lucie.Scene.Batches

/-!
# Overlapping primitives are drawn in the order of their insertion

Without layers, every visible primitive gets an order above those of the earlier
primitives that it overlaps. The batches are a merge by order, so they keep this order.
The order `u32::MAX` also stands for an exhausted vector, which bounds the number of
primitives.
-/

set_option autoImplicit false

namespace Lucie

open Foundation BoundsTree

namespace Primitive

variable {U C : Type} [AddCommGroup U] [LinearOrder U]

/-- The clipped bounds of the primitive are not empty. -/
def visible (p : Primitive U C) : Bool := !p.clippedBounds.isEmpty

@[simp] theorem clippedBounds_place (order id : ℕ) (p : Primitive U C) :
    (p.place order id).clippedBounds = p.clippedBounds := by
  cases p <;> rfl

/-- The leaf of the bounds tree that belongs to a primitive. -/
def leaf (p : Primitive U C) : Bounds U × ℕ := (p.clippedBounds, p.order)

end Primitive

namespace Scene

variable {U C : Type} [AddCommGroup U] [LinearOrder U] {s : Scene U C}
  {drawn placed primitives : List (Primitive U C)}

/-- A scene without layers after the insertion of visible primitives. -/
structure Placed (s : Scene U C) (drawn placed : List (Primitive U C)) : Prop where
  layers : s.layerStack = []
  tree : s.primitiveBounds.Represents (placed.map Primitive.leaf)
  vectors : ∀ kind, s.primitives kind = placed.filter fun p => p.kind = kind
  same : List.Forall₂ (fun p q => ∃ order id, q = p.place order id) drawn placed
  small : ∀ p ∈ placed, p.order ≤ placed.length
  above : placed.Pairwise fun p q =>
    p.clippedBounds.intersects q.clippedBounds = true → p.order < q.order

theorem placed_empty : Placed (empty : Scene U C) [] [] :=
  ⟨rfl, .empty, fun _ => rfl, .nil, by simp, .nil⟩

/-- The order that the tree gives to bounds that overlap earlier ones is above theirs. -/
theorem order_le_maxIntersecting {p : Primitive U C} (hp : p ∈ placed) {bounds : Bounds U}
    (hover : p.clippedBounds.intersects bounds = true) :
    p.order ≤ maxIntersecting (placed.map Primitive.leaf) bounds := by
  rw [Bounds.intersects_comm] at hover
  have hmem : p.leaf ∈ (placed.map Primitive.leaf).filter fun entry =>
      bounds.intersects entry.1 :=
    List.mem_filter.mpr ⟨List.mem_map_of_mem hp, hover⟩
  exact List.le_max_of_le' 0 (List.mem_map_of_mem hmem) (Nat.le_refl p.order)

theorem Placed.maxIntersecting_le (hplaced : Placed s drawn placed) (bounds : Bounds U) :
    maxIntersecting (placed.map Primitive.leaf) bounds ≤ placed.length := by
  apply List.max_le_of_forall_le
  intro order horder
  simp only [List.mem_map, List.mem_filter] at horder
  obtain ⟨entry, ⟨⟨p, hp, rfl⟩, -⟩, rfl⟩ := horder
  exact hplaced.small p hp

/-- A visible primitive is placed above everything that it overlaps. -/
theorem Placed.insertPrimitive (hplaced : Placed s drawn placed) {p : Primitive U C}
    (hvisible : p.visible = true) (hfew : placed.length + 1 < 2 ^ 32) :
    ∃ s', s.insertPrimitive p = some s' ∧ Placed s' (drawn ++ [p]) (placed ++
      [p.place (maxIntersecting (placed.map Primitive.leaf) p.clippedBounds + 1)
        (s.primitives .path).length]) := by
  obtain ⟨tree, hinsert, htree⟩ := insert_represents hplaced.tree p.clippedBounds
  have hle := hplaced.maxIntersecting_le p.clippedBounds
  set greatest := maxIntersecting (placed.map Primitive.leaf) p.clippedBounds with hgreatest
  rw [Nat.mod_eq_of_lt (by omega)] at hinsert htree
  set new := p.place (greatest + 1) (s.primitives .path).length with hnew
  have hempty : p.clippedBounds.isEmpty = false := by simpa [Primitive.visible] using hvisible
  refine ⟨{ s with
    primitiveBounds := tree
    primitives := Function.update s.primitives new.kind (s.primitives new.kind ++ [new])
    paintOperations := s.paintOperations ++ [.primitive new] }, ?_, ?_⟩
  · rw [Scene.insertPrimitive, hempty, if_neg (by simp), nextOrder, hplaced.layers,
      List.getLast?_nil, hinsert]
    rfl
  · constructor
    · exact hplaced.layers
    · simpa [Primitive.leaf, hnew] using htree
    · intro kind
      by_cases heq : kind = new.kind
      · subst heq
        simp [hplaced.vectors]
      · simp [hplaced.vectors, Function.update_of_ne heq, Ne.symm heq]
    · exact List.rel_append hplaced.same (.cons ⟨_, _, rfl⟩ .nil)
    · intro q hq
      rw [List.length_append, List.length_singleton]
      rcases List.mem_append.mp hq with hq | hq
      · have := hplaced.small q hq
        omega
      · rw [List.mem_singleton.mp hq, hnew, Primitive.order_place]
        omega
    · refine List.pairwise_append.mpr ⟨hplaced.above, List.pairwise_singleton _ _, ?_⟩
      intro q hq r hr hover
      rw [List.mem_singleton.mp hr] at hover ⊢
      rw [hnew, Primitive.clippedBounds_place] at hover
      rw [hnew, Primitive.order_place]
      exact Nat.lt_succ_of_le (order_le_maxIntersecting hq hover)

theorem Placed.length_eq (hplaced : Placed s drawn placed) : drawn.length = placed.length :=
  hplaced.same.length_eq

/-- Invisible primitives are dropped and visible ones are placed. -/
theorem Placed.insertPrimitives (hplaced : Placed s drawn placed)
    (hfew : drawn.length + (primitives.filter Primitive.visible).length < 2 ^ 32) :
    ∃ s' placed', s.insertPrimitives primitives = some s' ∧
      Placed s' (drawn ++ primitives.filter Primitive.visible) placed' := by
  induction primitives generalizing s drawn placed with
  | nil => exact ⟨s, placed, rfl, by simpa using hplaced⟩
  | cons p primitives ih =>
    cases hvisible : p.visible with
    | false =>
      have hskip : s.insertPrimitive p = some s := by
        rw [Scene.insertPrimitive, if_pos (by simpa [Primitive.visible] using hvisible)]
      rw [List.filter_cons_of_neg (by simp [hvisible])] at hfew ⊢
      obtain ⟨s', placed', hrun, hplaced'⟩ := ih hplaced hfew
      exact ⟨s', placed', by rw [Scene.insertPrimitives, hskip]; exact hrun, hplaced'⟩
    | true =>
      rw [List.filter_cons_of_pos hvisible, List.length_cons] at hfew
      obtain ⟨next, hinsert, hnext⟩ := hplaced.insertPrimitive hvisible
        (by have := hplaced.length_eq; omega)
      obtain ⟨s', placed', hrun, hplaced'⟩ := ih hnext (by
        rw [List.length_append, List.length_singleton]
        omega)
      refine ⟨s', placed', by rw [Scene.insertPrimitives, hinsert]; exact hrun, ?_⟩
      rwa [List.filter_cons_of_pos hvisible, List.append_cons]

/-- The sorted vectors of a scene can be merged, as long as the orders are small. -/
theorem Placed.queued_finish (hplaced : Placed s drawn placed)
    (hfew : placed.length < 2 ^ 32 - 1) : Queued s.finish.primitives := by
  have hmem : ∀ kind, ∀ p ∈ s.finish.primitives kind, p ∈ placed ∧ p.kind = kind := by
    intro kind p hp
    have hp' := (List.mem_insertionSort _).mp hp
    rw [hplaced.vectors] at hp'
    simpa using List.mem_filter.mp hp'
  constructor
  · intro kind p hp
    exact (hmem kind p hp).2
  · intro kind p hp
    have := hplaced.small p (hmem kind p hp).1
    omega
  · intro kind
    refine (List.pairwise_insertionSort _ _).imp fun {p q} hle => ?_
    exact Prod.Lex.monotone_fst p.sortKey q.sortKey hle

/-- In a drawing of the placed primitives that is sorted by order, a primitive comes after
those that it was placed above. -/
theorem Placed.exists_position (hplaced : Placed s drawn placed) {drawing : List (Primitive U C)}
    (hperm : placed.Perm drawing) (hsorted : drawing.Pairwise fun p q => p.order ≤ q.order) :
    ∃ e : Fin drawn.length ≃ Fin drawing.length,
      (∀ i, ∃ order id, drawing[e i] = drawn[i].place order id) ∧
      ∀ i j, i < j → drawn[i].clippedBounds.intersects drawn[j].clippedBounds = true →
        e i < e j := by
  have hlength := hplaced.length_eq
  obtain ⟨e₀, he₀⟩ := exists_equiv_of_perm hperm
  let e : Fin drawn.length ≃ Fin drawing.length := (finCongr hlength).trans e₀
  have he : ∀ i : Fin drawn.length, drawing[e i] = placed[finCongr hlength i] :=
    fun i => he₀ (finCongr hlength i)
  have hsame : ∀ i : Fin drawn.length, ∃ order id, drawing[e i] = drawn[i].place order id := by
    intro i
    rw [he i]
    exact hplaced.same.get i.2 (hlength ▸ i.2)
  refine ⟨e, hsame, fun i j hij hover => ?_⟩
  have hclipped : ∀ i, drawing[e i].clippedBounds = drawn[i].clippedBounds := by
    intro i
    obtain ⟨order, id, hplace⟩ := hsame i
    rw [hplace, Primitive.clippedBounds_place]
  -- the later primitive has the greater order, and the drawing is sorted by order
  have hlt : drawing[e i].order < drawing[e j].order := by
    have habove := List.pairwise_iff_get.mp hplaced.above (finCongr hlength i)
      (finCongr hlength j) hij
    rw [he i, he j]
    apply habove
    rw [← hclipped i, ← hclipped j, he i, he j] at hover
    exact hover
  by_contra hge
  rcases Nat.eq_or_lt_of_le (not_lt.mp hge) with heq | hji
  · exact hij.ne' (e.injective (Fin.val_injective heq))
  · have hle : drawing[e j].order ≤ drawing[e i].order := List.pairwise_iff_get.mp hsorted _ _ hji
    omega

/-- The finished scene of the primitives draws every visible one exactly once, and those
that overlap an earlier one after it. The bijection takes the place of a visible primitive
among the inserted ones to its place among the drawn ones. -/
def DrawsInOrder (primitives : List (Primitive U C)) : Prop :=
  ∃ s batches, (empty : Scene U C).insertPrimitives primitives = some s ∧
    s.finish.batches = some batches ∧
    ∃ e : Fin (primitives.filter Primitive.visible).length ≃ Fin (s.finish.flatten batches).length,
      (∀ i, ∃ order id, (s.finish.flatten batches)[e i] =
        (primitives.filter Primitive.visible)[i].place order id) ∧
      ∀ i j, i < j → (primitives.filter Primitive.visible)[i].clippedBounds.intersects
        (primitives.filter Primitive.visible)[j].clippedBounds = true → e i < e j

/-- Fewer than `u32::MAX` visible primitives are drawn in order. -/
theorem drawsInOrder (primitives : List (Primitive U C))
    (hfew : (primitives.filter Primitive.visible).length < 2 ^ 32 - 1) :
    DrawsInOrder primitives := by
  obtain ⟨s, placed, hrun, hplaced⟩ := placed_empty.insertPrimitives
    (by rw [List.length_nil]; omega : ([] : List (Primitive U C)).length +
      (primitives.filter Primitive.visible).length < 2 ^ 32)
  rw [List.nil_append] at hplaced
  have hlength := hplaced.length_eq
  have hqueued := hplaced.queued_finish (by omega)
  obtain ⟨batches, hbatches, hmerges⟩ := Scene.batches_merge hqueued
  have hsorted := (hmerges.pairwise hqueued.pairwise_batchKey).imp fun {p q} hle =>
    Prod.Lex.monotone_fst p.batchKey q.batchKey hle
  have hperm : placed.Perm (s.finish.flatten batches) := by
    refine (perm_of_filter_perm Primitive.kind fun kind => ?_).symm
    rw [hmerges.filter_eq hqueued.kind_eq kind, ← hplaced.vectors]
    exact List.perm_insertionSort _ _
  exact ⟨s, batches, hrun, hbatches, hplaced.exists_position hperm hsorted⟩

/-- A surface that fills a unit square. -/
def unitSurface : Primitive ℤ Unit := .surface ⟨0, ⟨⟨0, 0⟩, ⟨1, 1⟩⟩, ⟨⟨0, 0⟩, ⟨1, 1⟩⟩, ()⟩

theorem kind_unitSurface : unitSurface.kind = .surface := rfl

theorem drawsInOrder_unitSurface : DrawsInOrder (List.replicate 3 unitSurface) :=
  drawsInOrder _ (by decide)

/-- Unit surfaces with the orders from one on. -/
def stack (n : ℕ) : List (Primitive ℤ Unit) :=
  (List.range' 1 n).map fun order => unitSurface.place order 0

theorem stack_succ (n : ℕ) : stack (n + 1) = stack n ++ [unitSurface.place (n + 1) 0] := by
  rw [stack, stack, List.range'_1_concat, List.map_append, List.map_singleton, Nat.add_comm 1 n]

theorem length_stack (n : ℕ) : (stack n).length = n := by
  rw [stack, List.length_map, List.length_range']

theorem mem_stack {n : ℕ} {p : Primitive ℤ Unit} :
    p ∈ stack n ↔ ∃ order, 1 ≤ order ∧ order ≤ n ∧ p = unitSurface.place order 0 := by
  simp only [stack, List.mem_map, List.mem_range'_1]
  constructor
  · rintro ⟨order, ⟨hone, hlt⟩, rfl⟩
    exact ⟨order, hone, by omega, rfl⟩
  · rintro ⟨order, hone, hle, rfl⟩
    exact ⟨order, ⟨hone, by omega⟩, rfl⟩

/-- The next unit surface goes on top of the stack. -/
theorem Placed.maxIntersecting_stack {s : Scene ℤ Unit} {drawn : List (Primitive ℤ Unit)} {n : ℕ}
    (hplaced : Placed s drawn (stack n)) :
    maxIntersecting ((stack n).map Primitive.leaf) unitSurface.clippedBounds = n := by
  apply Nat.le_antisymm
  · have hle := hplaced.maxIntersecting_le unitSurface.clippedBounds
    rwa [length_stack] at hle
  · rcases Nat.eq_zero_or_pos n with rfl | hpos
    · exact Nat.zero_le _
    · have hover : (unitSurface.place n 0).clippedBounds.intersects
          unitSurface.clippedBounds = true := by
        rw [Primitive.clippedBounds_place]
        decide
      have hle := order_le_maxIntersecting (mem_stack.mpr ⟨n, hpos, Nat.le_refl n, rfl⟩) hover
      rwa [Primitive.order_place] at hle

/-- Surfaces that fill the same square are placed one above the other. -/
theorem Placed.insertPrimitives_stack {s : Scene ℤ Unit} {drawn : List (Primitive ℤ Unit)}
    {n : ℕ} (hplaced : Placed s drawn (stack n)) (m : ℕ) (hfew : n + m < 2 ^ 32) :
    ∃ s' drawn', s.insertPrimitives (List.replicate m unitSurface) = some s' ∧
      Placed s' drawn' (stack (n + m)) := by
  induction m generalizing s drawn n with
  | zero => exact ⟨s, drawn, rfl, hplaced⟩
  | succ m ih =>
    obtain ⟨next, hinsert, hnext⟩ := hplaced.insertPrimitive
      (by decide : unitSurface.visible = true) (by rw [length_stack]; omega)
    have hpaths : (s.primitives .path).length = 0 := by
      rw [hplaced.vectors, List.length_eq_zero_iff, List.filter_eq_nil_iff]
      intro p hp
      obtain ⟨order, -, -, rfl⟩ := mem_stack.mp hp
      simp [kind_unitSurface]
    rw [hplaced.maxIntersecting_stack, hpaths, ← stack_succ] at hnext
    obtain ⟨s', drawn', hrun, hplaced'⟩ := ih hnext (by omega)
    refine ⟨s', drawn', ?_, by rwa [Nat.add_right_comm, Nat.add_assoc] at hplaced'⟩
    rw [List.replicate_succ, Scene.insertPrimitives, hinsert]
    exact hrun

/-- The finished vectors of a stack. -/
theorem Placed.finish_stack {s : Scene ℤ Unit} {drawn : List (Primitive ℤ Unit)} {n : ℕ}
    (hplaced : Placed s drawn (stack n)) :
    s.finish.primitives = Function.update (fun _ => []) PrimitiveKind.surface (stack n) := by
  have hkind : ∀ p ∈ stack n, p.kind = .surface := by
    intro p hp
    obtain ⟨order, -, -, rfl⟩ := mem_stack.mp hp
    rw [Primitive.kind_place, kind_unitSurface]
  have hsorted : (stack n).Pairwise fun p q => p.sortKey ≤ q.sortKey := by
    rw [stack, List.pairwise_map]
    refine List.Pairwise.imp (fun {order order'} hlt => ?_) List.pairwise_lt_range'
    rw [Primitive.sortKey, Primitive.sortKey, Prod.Lex.toLex_le_toLex, Primitive.order_place,
      Primitive.order_place]
    exact .inl hlt
  funext kind
  simp only [finish, hplaced.vectors]
  by_cases heq : kind = .surface
  · subst heq
    rw [Function.update_self, List.filter_eq_self.mpr fun p hp => by simpa using hkind p hp]
    exact hsorted.insertionSort_eq
  · rw [Function.update_of_ne heq, List.filter_eq_nil_iff.mpr fun p hp => by
      rw [hkind p hp]
      simpa using Ne.symm heq]
    rfl

/-- An iterator over surfaces only. -/
def surfaceIterator (start : PrimitiveKind → ℕ) (surfaces : List (Primitive ℤ Unit)) :
    BatchIterator ℤ Unit := ⟨start, Function.update (fun _ => []) .surface surfaces⟩

theorem ordersAndKinds_surfaceIterator (start : PrimitiveKind → ℕ)
    (surfaces : List (Primitive ℤ Unit)) :
    (surfaceIterator start (unitSurface.place 1 0 :: surfaces)).ordersAndKinds =
      [(some 1, .surface), (none, .shadow), (none, .quad), (none, .path), (none, .underline),
        (none, .monochromeSprite), (none, .polychromeSprite)] := by
  rfl

/-- A batch of surfaces goes on below the order that stands for exhausted vectors. -/
theorem next_surfaceIterator (start : PrimitiveKind → ℕ) {surfaces : List (Primitive ℤ Unit)}
    (hsurfaces : ∀ p ∈ surfaces, p.order < 2 ^ 32 - 1 ∧ p.textureId = none)
    (last : Primitive ℤ Unit) (hlast : last.order = 2 ^ 32 - 1) :
    (surfaceIterator start (unitSurface.place 1 0 :: (surfaces ++ [last]))).next =
      some (⟨.surface, none, start .surface, start .surface + 1 + surfaces.length⟩,
        surfaceIterator (Function.update start .surface (start .surface + 1 + surfaces.length))
          [last]) := by
  rw [BatchIterator.next, ordersAndKinds_surfaceIterator]
  have hbelow : ∀ p ∈ surfaces, (decide (toLex (p.order, PrimitiveKind.surface) <
      BatchIterator.key (none, .shadow)) && p.textureId == none) = true := by
    intro p hp
    obtain ⟨hlt, htexture⟩ := hsurfaces p hp
    rw [htexture, Bool.and_eq_true, decide_eq_true_eq, BatchIterator.key, Prod.Lex.toLex_lt_toLex]
    exact ⟨.inl hlt, rfl⟩
  have hstop : (decide (toLex (last.order, PrimitiveKind.surface) <
      BatchIterator.key (none, .shadow)) && last.textureId == none) = false := by
    rw [hlast]
    rfl
  have htexture : (unitSurface.place 1 0).textureId = none := rfl
  simp only [surfaceIterator, Function.update_self, htexture,
    List.takeWhile_append_of_pos hbelow, List.dropWhile_append_of_pos hbelow,
    List.takeWhile_cons, List.dropWhile_cons, hstop, Bool.false_eq_true, if_false, List.append_nil,
    Function.update_idem]

theorem next_surfaceIterator_last (start : PrimitiveKind → ℕ) :
    (surfaceIterator start [unitSurface.place (2 ^ 32 - 1) 0]).next = none := by
  rfl

/-- The topmost surface of a stack of `u32::MAX` is in no batch. -/
theorem batches_stack {s : Scene ℤ Unit} {n : ℕ} (hn : n + 2 = 2 ^ 32 - 1)
    (hsurfaces : s.primitives =
      Function.update (fun _ => []) PrimitiveKind.surface (stack (n + 2))) :
    s.batches = some [⟨.surface, none, 0, n + 1⟩] := by
  have hstack : stack (n + 2) = unitSurface.place 1 0 ::
      ((List.range' 2 n).map (fun order => unitSurface.place order 0) ++
        [unitSurface.place (2 ^ 32 - 1) 0]) := by
    rw [stack_succ, stack, List.range'_succ, List.map_cons, List.cons_append, ← hn]
  have hwaiting : (PrimitiveKind.all.map fun kind => (s.primitives kind).length).sum = n + 2 := by
    rw [hsurfaces]
    simp [PrimitiveKind.all, Function.update, length_stack]
  have hmiddle : ∀ p ∈ (List.range' 2 n).map (fun order => unitSurface.place order 0),
      p.order < 2 ^ 32 - 1 ∧ p.textureId = none := by
    intro p hp
    simp only [List.mem_map, List.mem_range'_1] at hp
    obtain ⟨order, ⟨-, hlt⟩, rfl⟩ := hp
    rw [Primitive.order_place]
    exact ⟨by omega, rfl⟩
  have hiterator : s.batchIterator = surfaceIterator (fun _ => 0) (stack (n + 2)) := by
    rw [batchIterator, hsurfaces, surfaceIterator]
  rw [batches, hwaiting, hiterator, hstack, BatchIterator.collect,
    next_surfaceIterator _ hmiddle _ (Primitive.order_place ..)]
  simp only [BatchIterator.collect, next_surfaceIterator_last, List.length_map, List.length_range',
    Option.map_some, Nat.zero_add, Nat.add_comm 1 n]

/-- At `u32::MAX` surfaces the last one is not drawn. -/
theorem not_drawsInOrder_stack : ¬ DrawsInOrder (List.replicate (2 ^ 32 - 1) unitSurface) := by
  obtain ⟨n, hn⟩ : ∃ n, n + 2 = 2 ^ 32 - 1 := ⟨2 ^ 32 - 3, by omega⟩
  rw [← hn]
  rintro ⟨s, batches, hrun, hbatches, e, -⟩
  have hplaced₀ : Placed (empty : Scene ℤ Unit) [] (stack 0) := placed_empty
  obtain ⟨s', drawn, hrun', hplaced⟩ := hplaced₀.insertPrimitives_stack (n + 2) (by omega)
  obtain rfl := Option.some.inj (hrun.symm.trans hrun')
  rw [Nat.zero_add] at hplaced
  rw [batches_stack hn hplaced.finish_stack] at hbatches
  obtain rfl := Option.some.inj hbatches
  have hcard := Fintype.card_congr e
  have hvisible : (List.replicate (n + 2) unitSurface).filter Primitive.visible =
      List.replicate (n + 2) unitSurface :=
    List.filter_eq_self.mpr fun p hp => by
      rw [List.eq_of_mem_replicate hp]
      rfl
  simp only [Fintype.card_fin, hvisible, List.length_replicate, flatten, List.flatMap_singleton,
    batchPrimitives, hplaced.finish_stack, Function.update_self, List.length_take, List.length_drop,
    length_stack] at hcard
  omega

end Scene

end Lucie
