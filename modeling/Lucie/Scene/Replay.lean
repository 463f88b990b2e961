import Lucie.Scene.DrawOrder

/-!
# Recorded operations

A scene records its layers and the primitives that were not clipped away, with the orders they got.
Replaying a range of the record does again what the original calls did, since clipping and the
bounds tree do not look at the old orders. Every scene that calls lead to has its primitives in the
vectors of their kinds, so that its batches can be read off.
-/

set_option autoImplicit false

namespace Lucie

open Foundation BoundsTree

namespace Primitive

variable {U C : Type}

/-- A placed primitive is placed anew. -/
@[simp] theorem place_place (order id order' id' : ℕ) (p : Primitive U C) :
    (p.place order id).place order' id' = p.place order' id' := by
  cases p <;> rfl

end Primitive

namespace Scene

/-- The calls that paint. -/
inductive Call (U C : Type)
  | pushLayer (bounds : Bounds U)
  | popLayer
  | insertPrimitive (primitive : Primitive U C)

variable {U C : Type} [AddCommGroup U] [LinearOrder U]

/-- `Scene::len`. -/
def len (s : Scene U C) : ℕ := s.paintOperations.length

/-- `Scene::clear`. -/
def clear (_ : Scene U C) : Scene U C := empty

/-- What a call does to the scene. -/
def apply (s : Scene U C) : Call U C → Option (Scene U C)
  | .pushLayer bounds => s.pushLayer bounds
  | .popLayer => some s.popLayer
  | .insertPrimitive primitive => s.insertPrimitive primitive

/-- Make calls one after the other. -/
def run (s : Scene U C) (calls : List (Call U C)) : Option (Scene U C) := calls.foldlM apply s

/-- What `Scene::replay` does for one recorded operation. -/
def replayOperation (s : Scene U C) : PaintOperation U C → Option (Scene U C)
  | .primitive primitive => s.insertPrimitive primitive
  | .startLayer bounds => s.pushLayer bounds
  | .endLayer => some s.popLayer

/-- The call that a recorded operation is replayed by. -/
def callOf : PaintOperation U C → Call U C
  | .primitive primitive => .insertPrimitive primitive
  | .startLayer bounds => .pushLayer bounds
  | .endLayer => .popLayer

theorem replayOperation_eq (s : Scene U C) (operation : PaintOperation U C) :
    s.replayOperation operation = s.apply (callOf operation) := by
  cases operation <;> rfl

/-- `Scene::replay`; a range outside of the record is a panic. -/
def replay (s : Scene U C) (start stop : ℕ) (prevScene : Scene U C) : Option (Scene U C) :=
  if start ≤ stop ∧ stop ≤ prevScene.len then
    ((prevScene.paintOperations.take stop).drop start).foldlM replayOperation s
  else none

/-- The scene with another record. -/
def withRecord (s : Scene U C) (paintOperations : List (PaintOperation U C)) : Scene U C :=
  { s with paintOperations }

/-- A call records what replaying has to do, whatever was recorded before. -/
theorem apply_records {s s' : Scene U C} {call : Call U C} (h : s.apply call = some s') :
    ∃ recorded, s'.paintOperations = s.paintOperations ++ recorded ∧
      ∀ before, recorded.foldlM replayOperation (s.withRecord before) =
        some (s'.withRecord (before ++ recorded)) := by
  cases call with
  | pushLayer bounds =>
    obtain ⟨⟨tree, order⟩, hinsert, h⟩ := Option.bind_eq_some_iff.mp h
    obtain rfl := Option.some.inj h
    refine ⟨[.startLayer bounds], rfl, fun before => ?_⟩
    simp only [List.foldlM_cons, List.foldlM_nil, replayOperation, pushLayer, withRecord, hinsert,
      Option.bind_eq_bind, Option.bind_some, Option.pure_def]
  | popLayer =>
    obtain rfl := Option.some.inj h
    exact ⟨[.endLayer], rfl, fun before => rfl⟩
  | insertPrimitive primitive =>
    rw [apply, insertPrimitive] at h
    split_ifs at h with hempty
    · obtain rfl := Option.some.inj h
      exact ⟨[], (List.append_nil _).symm, fun before => by simp [withRecord]⟩
    · obtain ⟨⟨tree, order⟩, hnext, h⟩ := Option.bind_eq_some_iff.mp h
      obtain rfl := Option.some.inj h
      set placed := primitive.place order (s.primitives .path).length with hplaced
      refine ⟨[.primitive placed], rfl, fun before => ?_⟩
      have hclipped : placed.clippedBounds = primitive.clippedBounds :=
        Primitive.clippedBounds_place ..
      have hnext' : (s.withRecord before).nextOrder placed.clippedBounds = some (tree, order) := by
        rw [hclipped]
        exact hnext
      have hagain : placed.place order (s.primitives .path).length = placed :=
        Primitive.place_place ..
      rw [List.foldlM_cons, replayOperation, insertPrimitive, hclipped, if_neg hempty, ← hclipped,
        hnext']
      simp only [withRecord, hagain, Option.bind_eq_bind, Option.bind_some, List.foldlM_nil,
        Option.pure_def]

/-- A run records what replaying has to do. -/
theorem run_records {s s' : Scene U C} {calls : List (Call U C)} (h : s.run calls = some s') :
    ∃ recorded, s'.paintOperations = s.paintOperations ++ recorded ∧
      ∀ before, recorded.foldlM replayOperation (s.withRecord before) =
        some (s'.withRecord (before ++ recorded)) := by
  induction calls generalizing s with
  | nil =>
    obtain rfl := Option.some.inj h
    exact ⟨[], (List.append_nil _).symm, fun before => by simp⟩
  | cons call calls ih =>
    obtain ⟨next, hcall, h⟩ := Option.bind_eq_some_iff.mp h
    obtain ⟨first, hfirst, hreplayFirst⟩ := apply_records hcall
    obtain ⟨rest, hrest, hreplayRest⟩ := ih h
    refine ⟨first ++ rest, by rw [hrest, hfirst, List.append_assoc], fun before => ?_⟩
    rw [List.foldlM_append, hreplayFirst, Option.bind_eq_bind, Option.bind_some, hreplayRest,
      List.append_assoc]

/-- The bounds tree of the scene represents some rectangles. -/
def Treed (s : Scene U C) : Prop := ∃ history, s.primitiveBounds.Represents history

/-- No call fails. -/
theorem Treed.apply {s : Scene U C} (hs : s.Treed) (call : Call U C) :
    ∃ s', s.apply call = some s' ∧ s'.Treed := by
  obtain ⟨history, hrepresents⟩ := hs
  cases call with
  | pushLayer bounds =>
    obtain ⟨tree, hinsert, htree⟩ := insert_represents hrepresents bounds
    refine ⟨{ s with
      primitiveBounds := tree
      layerStack := s.layerStack ++ [(maxIntersecting history bounds + 1) % 2 ^ 32]
      paintOperations := s.paintOperations ++ [.startLayer bounds] }, ?_, _, htree⟩
    rw [Scene.apply, pushLayer, hinsert]
    rfl
  | popLayer => exact ⟨_, rfl, history, hrepresents⟩
  | insertPrimitive primitive =>
    rw [Scene.apply, insertPrimitive]
    split_ifs with hempty
    · exact ⟨s, rfl, history, hrepresents⟩
    · obtain ⟨tree, order, hnext, history', htree⟩ :
          ∃ tree order, s.nextOrder primitive.clippedBounds = some (tree, order) ∧
            ∃ history', tree.Represents history' := by
        rw [nextOrder]
        cases s.layerStack.getLast? with
        | some order => exact ⟨s.primitiveBounds, order, rfl, history, hrepresents⟩
        | none =>
          obtain ⟨tree, hinsert, htree⟩ := insert_represents hrepresents primitive.clippedBounds
          exact ⟨tree, _, hinsert, _, htree⟩
      set placed := primitive.place order (s.primitives .path).length with hplaced
      refine ⟨{ s with
        primitiveBounds := tree
        primitives :=
          Function.update s.primitives placed.kind (s.primitives placed.kind ++ [placed])
        paintOperations := s.paintOperations ++ [.primitive placed] }, ?_, history', htree⟩
      rw [hnext]
      rfl

theorem Treed.run {s : Scene U C} (hs : s.Treed) (calls : List (Call U C)) :
    ∃ s', s.run calls = some s' ∧ s'.Treed := by
  induction calls generalizing s with
  | nil => exact ⟨s, rfl, hs⟩
  | cons call calls ih =>
    obtain ⟨next, hcall, hnext⟩ := hs.apply call
    obtain ⟨s', hrun, hs'⟩ := ih hnext
    exact ⟨s', by rw [Scene.run, List.foldlM_cons, hcall]; exact hrun, hs'⟩

/-- A range of a record is replayed operation by operation. -/
theorem replay_eq {s prevScene : Scene U C} {before recorded after : List (PaintOperation U C)}
    (hrecord : prevScene.paintOperations = before ++ recorded ++ after) :
    s.replay before.length (before ++ recorded).length prevScene =
      recorded.foldlM replayOperation s := by
  have hrange : before.length ≤ (before ++ recorded).length ∧
      (before ++ recorded).length ≤ prevScene.len := by
    rw [len, hrecord]
    simp only [List.length_append]
    omega
  rw [replay, if_pos hrange, hrecord, List.take_left, List.drop_left]

/-- Painting never fails. Replaying what some calls recorded, later and after the scene was
finished, on a scene that only differs in its record from the one before them, does what the calls
did and records the same operations again. -/
theorem replay_recorded (earlier calls later : List (Call U C)) :
    ∃ s₀ s₁ s₂ : Scene U C, empty.run earlier = some s₀ ∧ s₀.run calls = some s₁ ∧
      s₁.run later = some s₂ ∧
      (∀ before, (s₀.withRecord before).replay s₀.len s₁.len s₂.finish =
        some (s₁.withRecord (before ++ s₁.paintOperations.drop s₀.len))) ∧
      s₀.replay s₀.len s₁.len s₂.finish = some s₁ ∧
      empty.replay 0 s₀.len s₀ = some s₀ := by
  obtain ⟨s₀, hrun₀, hs₀⟩ := Treed.run (⟨[], .empty⟩ : (empty : Scene U C).Treed) earlier
  obtain ⟨s₁, hrun₁, hs₁⟩ := hs₀.run calls
  obtain ⟨s₂, hrun₂, -⟩ := hs₁.run later
  obtain ⟨recorded₀, hrecord₀, hreplay₀⟩ := run_records hrun₀
  obtain ⟨recorded₁, hrecord₁, hreplay₁⟩ := run_records hrun₁
  obtain ⟨recorded₂, hrecord₂, -⟩ := run_records hrun₂
  have hrange : ∀ s : Scene U C, s.replay s₀.len s₁.len s₂.finish =
      recorded₁.foldlM replayOperation s := by
    intro s
    rw [len, len, hrecord₁]
    exact replay_eq (hrecord₁ ▸ hrecord₂)
  have hdrop : s₁.paintOperations.drop s₀.len = recorded₁ := by
    rw [hrecord₁, len, List.drop_left]
  have hsame₁ := hreplay₁ s₀.paintOperations
  rw [← hrecord₁] at hsame₁
  have hsame₀ := hreplay₀ []
  rw [List.nil_append] at hsame₀
  have hnil : s₀.paintOperations = recorded₀ := hrecord₀
  refine ⟨s₀, s₁, s₂, hrun₀, hrun₁, hrun₂, fun before => ?_, ?_, ?_⟩
  · rw [hrange, hdrop]
    exact hreplay₁ before
  · rw [hrange]
    exact hsame₁
  · have hwhole : (empty : Scene U C).replay 0 s₀.len s₀ =
        recorded₀.foldlM replayOperation empty := by
      rw [len, hnil]
      have hrecord : s₀.paintOperations = [] ++ recorded₀ ++ [] := by simp [hnil]
      exact replay_eq hrecord
    rw [hwhole]
    rw [← hnil] at hsame₀ ⊢
    exact hsame₀

/-- The scenes that calls, replays and finishing lead to. -/
inductive Reached : Scene U C → Prop
  | empty : Reached empty
  | clear {s : Scene U C} (hs : Reached s) : Reached s.clear
  | apply {s s' : Scene U C} {call : Call U C} (hs : Reached s) (h : s.apply call = some s') :
      Reached s'
  | replay {s s' prevScene : Scene U C} {start stop : ℕ} (hs : Reached s)
      (h : s.replay start stop prevScene = some s') : Reached s'
  | finish {s : Scene U C} (hs : Reached s) : Reached s.finish

theorem Reached.run {s s' : Scene U C} {calls : List (Call U C)} (hs : Reached s)
    (h : s.run calls = some s') : Reached s' := by
  induction calls generalizing s with
  | nil =>
    obtain rfl := Option.some.inj h
    exact hs
  | cons call calls ih =>
    obtain ⟨next, hcall, h⟩ := Option.bind_eq_some_iff.mp h
    exact ih (hs.apply hcall) h

/-- Every primitive is in the vector of its kind. -/
def Kinded (s : Scene U C) : Prop := ∀ kind, ∀ p ∈ s.primitives kind, p.kind = kind

theorem Kinded.apply {s s' : Scene U C} {call : Call U C} (hs : s.Kinded)
    (h : s.apply call = some s') : s'.Kinded := by
  cases call with
  | pushLayer bounds =>
    obtain ⟨_, -, h⟩ := Option.bind_eq_some_iff.mp h
    obtain rfl := Option.some.inj h
    exact hs
  | popLayer =>
    obtain rfl := Option.some.inj h
    exact hs
  | insertPrimitive primitive =>
    rw [Scene.apply, insertPrimitive] at h
    split_ifs at h
    · obtain rfl := Option.some.inj h
      exact hs
    · obtain ⟨⟨tree, order⟩, -, h⟩ := Option.bind_eq_some_iff.mp h
      obtain rfl := Option.some.inj h
      intro kind p hp
      dsimp only at hp
      by_cases heq : kind = (primitive.place order (s.primitives .path).length).kind
      · subst heq
        rw [Function.update_self] at hp
        rcases List.mem_append.mp hp with hp | hp
        · exact hs _ p hp
        · rw [List.mem_singleton.mp hp]
      · rw [Function.update_of_ne heq] at hp
        exact hs kind p hp

theorem Kinded.replay {s s' : Scene U C} {operations : List (PaintOperation U C)} (hs : s.Kinded)
    (h : operations.foldlM replayOperation s = some s') : s'.Kinded := by
  induction operations generalizing s with
  | nil =>
    obtain rfl := Option.some.inj h
    exact hs
  | cons operation operations ih =>
    obtain ⟨next, hoperation, h⟩ := Option.bind_eq_some_iff.mp h
    refine ih (hs.apply ((replayOperation_eq s operation).symm.trans hoperation)) h

theorem Reached.kinded {s : Scene U C} (hs : Reached s) : s.Kinded := by
  induction hs with
  | empty => exact fun kind p hp => by simp [Scene.empty] at hp
  | clear => exact fun kind p hp => by simp [Scene.clear, Scene.empty] at hp
  | apply _ h ih => exact ih.apply h
  | replay _ h ih =>
    rw [Scene.replay] at h
    split_ifs at h
    exact ih.replay h
  | finish _ ih => exact fun kind p hp => ih kind p ((List.mem_insertionSort _).mp hp)

omit [AddCommGroup U] [LinearOrder U] in
/-- The finished vectors of a scene can be merged, as long as no order stands for an exhausted
vector. -/
theorem Kinded.queued_finish {s : Scene U C} (hs : s.Kinded)
    (horder : ∀ kind, ∀ p ∈ s.primitives kind, p.order < 2 ^ 32 - 1) :
    Queued s.finish.primitives where
  kind_eq kind p hp := hs kind p ((List.mem_insertionSort _).mp hp)
  order_lt kind p hp := horder kind p ((List.mem_insertionSort _).mp hp)
  sorted _ := (List.pairwise_insertionSort _ _).imp fun {p q} hle =>
    Prod.Lex.monotone_fst p.sortKey q.sortKey hle

open BatchIterator in
/-- The batches of a finished scene tile the vector of every kind, are sorted by order and kind one
after the other, and a batch of sprites has one texture. -/
theorem batches_tile {s : Scene U C} (hs : Reached s)
    (horder : ∀ kind, ∀ p ∈ s.primitives kind, p.order < 2 ^ 32 - 1) :
    ∃ batches, s.finish.batches = some batches ∧
      (∀ kind, Tiles 0 (ofKind kind batches) (s.finish.primitives kind).length) ∧
      ((s.finish.flatten batches).Pairwise fun p q => p.batchKey ≤ q.batchKey) ∧
      ∀ batch ∈ batches, batch.kind = .monochromeSprite ∨ batch.kind = .polychromeSprite →
        ∃ id, batch.textureId = some id ∧
          ∀ p ∈ s.finish.batchPrimitives batch, p.textureId = some id := by
  have hqueued := hs.kinded.queued_finish horder
  obtain ⟨batches, hbatches, hmerges, htiles, htexture⟩ := s.finish.batchIterator.collect_spec
    (s := s.finish) hqueued (fun _ => rfl) (fun _ => Nat.zero_le _) (Nat.lt_succ_self _)
  refine ⟨batches, hbatches, htiles, hmerges.pairwise hqueued.pairwise_batchKey,
    fun batch hbatch hsprite => ?_⟩
  obtain ⟨hlt, hstop⟩ := (htiles batch.kind).bounds.2 batch
    (List.mem_filter.mpr ⟨hbatch, by simp⟩)
  have hpos : 0 < (s.finish.batchPrimitives batch).length := by
    rw [batchPrimitives, List.length_take, List.length_drop]
    omega
  obtain ⟨p, hp⟩ := List.exists_mem_of_length_pos hpos
  have hkind : p.kind = batch.kind :=
    hqueued.kind_eq _ p (List.mem_of_mem_drop (List.mem_of_mem_take hp))
  obtain ⟨id, hid⟩ : ∃ id, p.textureId = some id := by
    rw [← hkind] at hsprite
    cases p <;> simp_all [Primitive.kind, Primitive.textureId, Primitive.tile]
  have hsame := htexture batch hbatch
  have hbatchId : batch.textureId = some id := (hsame p hp).symm.trans hid
  exact ⟨id, hbatchId, fun q hq => (hsame q hq).trans hbatchId⟩

/-- A sprite that fills a unit square. -/
def unitSprite : Primitive ℤ Unit :=
  .monochromeSprite ⟨0, ⟨⟨0, 0⟩, ⟨1, 1⟩⟩, ⟨⟨0, 0⟩, ⟨1, 1⟩⟩, ()⟩ ⟨⟨0, .monochrome⟩, 0⟩

/-- A layer with a sprite and a surface is drawn in two batches. -/
theorem batches_tile_layer : ∃ (s : Scene ℤ Unit) (batches : List PrimitiveBatch),
    empty.run [.pushLayer ⟨⟨0, 0⟩, ⟨1, 1⟩⟩, .insertPrimitive unitSprite,
      .insertPrimitive unitSurface, .popLayer] = some s ∧ s.finish.batches = some batches ∧
    ∀ kind, BatchIterator.Tiles 0 (BatchIterator.ofKind kind batches)
      (s.finish.primitives kind).length := by
  obtain ⟨s, hrun, horder⟩ : ∃ s : Scene ℤ Unit,
      empty.run [.pushLayer ⟨⟨0, 0⟩, ⟨1, 1⟩⟩, .insertPrimitive unitSprite,
        .insertPrimitive unitSurface, .popLayer] = some s ∧
      ∀ kind, ∀ p ∈ s.primitives kind, p.order < 2 ^ 32 - 1 :=
    ⟨_, rfl, fun kind => by cases kind <;> decide⟩
  obtain ⟨batches, hbatches, htiles, -⟩ := batches_tile (Reached.empty.run hrun) horder
  exact ⟨s, batches, hrun, hbatches, htiles⟩

end Scene

end Lucie
