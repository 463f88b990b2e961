import Lucie.Foundation.ThroughFirst
import Lucie.Geometry.Points
import Lucie.Window.Prepaint

/-!
# Hit tests

A hit test goes through the hitboxes of a frame from the last one that was inserted to the first.
It ends behind a hitbox that blocks the mouse, and it counts how many of those it found are up to
the first one that blocks all but scrolling.
-/

set_option autoImplicit false

namespace Lucie.Drawing

open Foundation

/-- `HitboxBehavior`. -/
inductive HitboxBehavior
  | normal
  | blockMouse
  | blockMouseExceptScroll
  deriving DecidableEq

/-- The bounds, content mask and behavior of a hitbox. -/
structure HitboxData (U : Type) where
  bounds : Bounds U
  contentMask : Bounds U
  behavior : HitboxBehavior
  deriving DecidableEq

/-- `HitTest`. -/
structure HitTest where
  ids : List ℕ
  hoverHitboxCount : ℕ
  deriving DecidableEq

namespace HitTest

/-- `HitTest::default`. -/
def default : HitTest := ⟨[], 0⟩

/-- `HitboxId::is_hovered`, for the hit test of the mouse position. -/
def isHovered (hitTest : HitTest) (id : ℕ) : Bool :=
  (hitTest.ids.take hitTest.hoverHitboxCount).contains id

/-- `HitboxId::should_handle_scroll`, for the hit test of the mouse position. -/
def shouldHandleScroll (hitTest : HitTest) (id : ℕ) : Bool := hitTest.ids.contains id

end HitTest

variable {D K U : Type} [AddCommGroup U] [LinearOrder U]

section Loop

variable (data : D → HitboxData U) (position : Point U)

/-- A hitbox contains the position within its content mask. -/
def Hitbox.hit (hitbox : Hitbox D) : Bool :=
  ((data hitbox.data).bounds.intersect (data hitbox.data).contentMask).contains position

/-- The loop of `Frame::hit_test`, with the flag `set_hover_hitbox_count`. -/
def hitTestLoop : List (Hitbox D) → HitTest → Bool → HitTest × Bool
  | [], hitTest, setHoverHitboxCount => (hitTest, setHoverHitboxCount)
  | hitbox :: hitboxes, hitTest, setHoverHitboxCount =>
    if hitbox.hit data position then
      let ids := hitTest.ids ++ [hitbox.id]
      let sets := !setHoverHitboxCount &&
        (data hitbox.data).behavior = .blockMouseExceptScroll
      let hitTest := ⟨ids, if sets then ids.length else hitTest.hoverHitboxCount⟩
      let setHoverHitboxCount := sets || setHoverHitboxCount
      if (data hitbox.data).behavior = .blockMouse then (hitTest, setHoverHitboxCount)
      else hitTestLoop hitboxes hitTest setHoverHitboxCount
    else hitTestLoop hitboxes hitTest setHoverHitboxCount

/-- `Frame::hit_test`. -/
def Frame.hitTest (frame : Frame D K) : HitTest :=
  let (hitTest, setHoverHitboxCount) :=
    hitTestLoop data position frame.hitboxes.reverse .default false
  if setHoverHitboxCount then hitTest
  else { hitTest with hoverHitboxCount := hitTest.ids.length }

/-- A hitbox in front blocks all of the mouse. -/
def Hitbox.blocks (hitbox : Hitbox D) : Bool :=
  hitbox.hit data position && (data hitbox.data).behavior = .blockMouse

/-- A hitbox in front blocks the mouse, if perhaps not scrolling. -/
def Hitbox.blocksHover (hitbox : Hitbox D) : Bool :=
  hitbox.hit data position && (data hitbox.data).behavior ≠ .normal

/-- The hitboxes that the loop finds. -/
def found (hitboxes : List (Hitbox D)) : List (Hitbox D) :=
  (throughFirst (·.blocks data position) hitboxes).filter (·.hit data position)

/-- The hitboxes that the mouse hovers over. -/
def foundHovered (hitboxes : List (Hitbox D)) : List (Hitbox D) :=
  (throughFirst (·.blocksHover data position) hitboxes).filter (·.hit data position)

end Loop

variable {data : D → HitboxData U} {position : Point U}

theorem Hitbox.blocksHover_of_blocks {hitbox : Hitbox D}
    (h : hitbox.blocks data position = true) : hitbox.blocksHover data position = true := by
  rw [Hitbox.blocks, Bool.and_eq_true, decide_eq_true_eq] at h
  rw [Hitbox.blocksHover, h.1, h.2]
  rfl

theorem foundHovered_prefix_found (hitboxes : List (Hitbox D)) :
    foundHovered data position hitboxes <+: found data position hitboxes :=
  (throughFirst_prefix_of_imp (fun _ => Hitbox.blocksHover_of_blocks) hitboxes).filter _

section Found

variable {hitbox : Hitbox D} (hitboxes : List (Hitbox D))

theorem found_of_miss (hmiss : hitbox.hit data position = false) :
    found data position (hitbox :: hitboxes) = found data position hitboxes ∧
      foundHovered data position (hitbox :: hitboxes) = foundHovered data position hitboxes := by
  simp [found, foundHovered, throughFirst, Hitbox.blocks, Hitbox.blocksHover, hmiss]

theorem found_of_normal (hhit : hitbox.hit data position = true)
    (hbehavior : (data hitbox.data).behavior = .normal) :
    found data position (hitbox :: hitboxes) = hitbox :: found data position hitboxes ∧
      foundHovered data position (hitbox :: hitboxes) =
        hitbox :: foundHovered data position hitboxes := by
  simp [found, foundHovered, throughFirst, Hitbox.blocks, Hitbox.blocksHover, hhit, hbehavior]

theorem found_of_blockMouse (hhit : hitbox.hit data position = true)
    (hbehavior : (data hitbox.data).behavior = .blockMouse) :
    found data position (hitbox :: hitboxes) = [hitbox] ∧
      foundHovered data position (hitbox :: hitboxes) = [hitbox] := by
  simp [found, foundHovered, throughFirst, Hitbox.blocks, Hitbox.blocksHover, hhit, hbehavior]

theorem found_of_blockMouseExceptScroll (hhit : hitbox.hit data position = true)
    (hbehavior : (data hitbox.data).behavior = .blockMouseExceptScroll) :
    found data position (hitbox :: hitboxes) = hitbox :: found data position hitboxes ∧
      foundHovered data position (hitbox :: hitboxes) = [hitbox] := by
  simp [found, foundHovered, throughFirst, Hitbox.blocks, Hitbox.blocksHover, hhit, hbehavior]

end Found

/-- What the loop adds, and the number of hovered hitboxes that comes out in the end. The induction
is on the hitboxes that are left. -/
theorem hitTestLoop_spec (hitboxes : List (Hitbox D)) (hitTest : HitTest) (isSet : Bool) :
    ∀ result, result = hitTestLoop data position hitboxes hitTest isSet →
      result.1.ids = hitTest.ids ++ (found data position hitboxes).map Hitbox.id ∧
      (if result.2 then result.1.hoverHitboxCount else result.1.ids.length) =
        if isSet then hitTest.hoverHitboxCount
        else hitTest.ids.length + (foundHovered data position hitboxes).length := by
  rintro _ rfl
  induction hitboxes generalizing hitTest isSet with
  | nil => cases isSet <;> simp [hitTestLoop, found, foundHovered, throughFirst]
  | cons hitbox hitboxes ih =>
    cases hhit : hitbox.hit data position with
    | false =>
      obtain ⟨hfound, hhovered⟩ := found_of_miss hitboxes hhit
      rw [hitTestLoop, if_neg (by simp [hhit]), hfound, hhovered]
      exact ih hitTest isSet
    | true =>
      cases hbehavior : (data hitbox.data).behavior with
      | normal =>
        obtain ⟨hfound, hhovered⟩ := found_of_normal hitboxes hhit hbehavior
        have hround : hitTestLoop data position (hitbox :: hitboxes) hitTest isSet =
            hitTestLoop data position hitboxes
              ⟨hitTest.ids ++ [hitbox.id], hitTest.hoverHitboxCount⟩ isSet := by
          simp [hitTestLoop, hhit, hbehavior]
        obtain ⟨hids, hcount⟩ := ih ⟨hitTest.ids ++ [hitbox.id], hitTest.hoverHitboxCount⟩ isSet
        rw [hround, hfound, hhovered]
        refine ⟨hids.trans (by simp), hcount.trans ?_⟩
        simp only [List.length_append, List.length_cons, List.length_nil]
        split_ifs <;> omega
      | blockMouse =>
        obtain ⟨hfound, hhovered⟩ := found_of_blockMouse hitboxes hhit hbehavior
        rw [hfound, hhovered]
        cases isSet <;> simp [hitTestLoop, hhit, hbehavior]
      | blockMouseExceptScroll =>
        obtain ⟨hfound, hhovered⟩ := found_of_blockMouseExceptScroll hitboxes hhit hbehavior
        -- the loop goes on with the count set
        have hround : hitTestLoop data position (hitbox :: hitboxes) hitTest isSet =
            hitTestLoop data position hitboxes ⟨hitTest.ids ++ [hitbox.id],
              if isSet then hitTest.hoverHitboxCount else hitTest.ids.length + 1⟩ true := by
          cases isSet <;> simp [hitTestLoop, hhit, hbehavior]
        obtain ⟨hids, hcount⟩ := ih ⟨hitTest.ids ++ [hitbox.id],
          if isSet then hitTest.hoverHitboxCount else hitTest.ids.length + 1⟩ true
        rw [hround, hfound, hhovered]
        exact ⟨hids.trans (by simp), hcount⟩

section Spec

variable (data : D → HitboxData U) (position : Point U) (frame : Frame D K)

theorem hitTest_ids : (frame.hitTest data position).ids =
    (found data position frame.hitboxes.reverse).map Hitbox.id := by
  obtain ⟨hids, -⟩ := hitTestLoop_spec frame.hitboxes.reverse HitTest.default false _
    (Eq.refl (hitTestLoop data position _ _ _))
  rw [Frame.hitTest]
  dsimp only
  split_ifs <;> simpa [HitTest.default] using hids

theorem hitTest_hoverHitboxCount : (frame.hitTest data position).hoverHitboxCount =
    (foundHovered data position frame.hitboxes.reverse).length := by
  obtain ⟨-, hcount⟩ := hitTestLoop_spec frame.hitboxes.reverse HitTest.default false _
    (Eq.refl (hitTestLoop data position _ _ _))
  have hcount' := hcount.trans (Nat.zero_add _)
  rw [Frame.hitTest, ← hcount']
  dsimp only
  split_ifs <;> rfl

/-- The first ids are those of the hitboxes that the mouse hovers over. -/
theorem hitTest_hovered_ids :
    (frame.hitTest data position).ids.take (frame.hitTest data position).hoverHitboxCount =
      (foundHovered data position frame.hitboxes.reverse).map Hitbox.id := by
  obtain ⟨rest, hrest⟩ := @foundHovered_prefix_found D U _ _ data position frame.hitboxes.reverse
  rw [hitTest_ids, hitTest_hoverHitboxCount, ← hrest, List.map_append,
    List.take_append_of_le_length (by simp), List.take_of_length_le (by simp)]

end Spec

/-- A hitbox, with those that were inserted after it, is where the mouse can scroll. -/
structure ScrollTarget (data : D → HitboxData U) (position : Point U) (hitbox : Hitbox D)
    (after : List (Hitbox D)) : Prop where
  hit : hitbox.hit data position = true
  unblocked : ∀ other ∈ after, other.hit data position = true →
    (data other.data).behavior ≠ .blockMouse

/-- The mouse hovers over a hitbox with these inserted after it. -/
structure Hovered (data : D → HitboxData U) (position : Point U) (hitbox : Hitbox D)
    (after : List (Hitbox D)) : Prop extends ScrollTarget data position hitbox after where
  hoverUnblocked : ∀ other ∈ after, other.hit data position = true →
    (data other.data).behavior ≠ .blockMouseExceptScroll

theorem mem_found_reverse {hitbox : Hitbox D} {hitboxes : List (Hitbox D)} :
    hitbox ∈ found data position hitboxes.reverse ↔ ∃ before after,
      hitboxes = before ++ hitbox :: after ∧ ScrollTarget data position hitbox after := by
  rw [found, List.mem_filter, mem_throughFirst_reverse]
  constructor
  · rintro ⟨⟨before, after, heq, hafter⟩, hhit⟩
    refine ⟨before, after, heq, hhit, fun other hother hhit' hblock => ?_⟩
    simpa [Hitbox.blocks, hhit', hblock] using hafter other hother
  · rintro ⟨before, after, heq, hhit, hopen⟩
    refine ⟨⟨before, after, heq, fun other hother => ?_⟩, hhit⟩
    rw [Hitbox.blocks, Bool.and_eq_false_imp]
    intro hhit'
    exact decide_eq_false (hopen other hother hhit')

theorem mem_foundHovered_reverse {hitbox : Hitbox D} {hitboxes : List (Hitbox D)} :
    hitbox ∈ foundHovered data position hitboxes.reverse ↔ ∃ before after,
      hitboxes = before ++ hitbox :: after ∧ Hovered data position hitbox after := by
  rw [foundHovered, List.mem_filter, mem_throughFirst_reverse]
  constructor
  · rintro ⟨⟨before, after, heq, hafter⟩, hhit⟩
    have hnormal : ∀ other ∈ after, other.hit data position = true →
        (data other.data).behavior = .normal := fun other hother hhit' => by
      simpa [Hitbox.blocksHover, hhit'] using hafter other hother
    refine ⟨before, after, heq, ⟨hhit, fun other hother hhit' => ?_⟩, fun other hother hhit' => ?_⟩
    · simp [hnormal other hother hhit']
    · simp [hnormal other hother hhit']
  · rintro ⟨before, after, heq, ⟨hhit, hopen⟩, hclear⟩
    refine ⟨⟨before, after, heq, fun other hother => ?_⟩, hhit⟩
    rw [Hitbox.blocksHover, Bool.and_eq_false_imp]
    intro hhit'
    have hblock := hopen other hother hhit'
    have hblock' := hclear other hother hhit'
    cases hbehavior : (data other.data).behavior <;> simp_all

namespace Window

/-- Hitboxes that are inserted get ids in a row. -/
theorem ids_insertHitbox (w : Window D K) (hid : w.nextHitboxId < 2 ^ 64) (inserted : List D) :
    (inserted.foldl insertHitbox w).nextFrame.hitboxes.map Hitbox.id =
      w.nextFrame.hitboxes.map Hitbox.id ++
        (List.range inserted.length).map fun i => (w.nextHitboxId + i) % 2 ^ 64 := by
  induction inserted generalizing w with
  | nil => simp
  | cons d inserted ih =>
    rw [List.foldl_cons, ih (w.insertHitbox d) (Nat.mod_lt _ (by omega)), List.length_cons,
      List.range_succ_eq_map, List.map_cons, List.map_map, insertHitbox, List.map_append,
      List.append_assoc]
    congr 1
    have hshift : ∀ i, ((w.nextHitboxId + 1) % 2 ^ 64 + i) % 2 ^ 64 =
        (w.nextHitboxId + (i + 1)) % 2 ^ 64 := by omega
    simp only [hshift, List.map_cons, List.map_nil, List.singleton_append, Nat.add_zero,
      Nat.mod_eq_of_lt hid]
    rfl

/-- No two of the hitboxes that a frame has room for get the same id. -/
theorem nodup_ids_insertHitbox (w : Window D K) (hid : w.nextHitboxId < 2 ^ 64)
    (hnew : w.nextFrame.hitboxes = []) {inserted : List D} (hlength : inserted.length ≤ 2 ^ 64) :
    ((inserted.foldl insertHitbox w).nextFrame.hitboxes.map Hitbox.id).Nodup := by
  rw [ids_insertHitbox w hid, hnew, List.map_nil, List.nil_append]
  refine List.Nodup.map_on (fun i hi j hj heq => ?_) List.nodup_range
  rw [List.mem_range] at hi hj
  omega

end Window

/-- In a list of hitboxes with different ids, a hitbox is at one place only. -/
theorem split_unique {hitboxes before after before' after' : List (Hitbox D)}
    {hitbox other : Hitbox D} (hids : (hitboxes.map Hitbox.id).Nodup)
    (heq : hitboxes = before ++ hitbox :: after) (heq' : hitboxes = before' ++ other :: after')
    (hid : other.id = hitbox.id) : other = hitbox ∧ after' = after := by
  have hget : (hitboxes.map Hitbox.id)[before.length]? = some hitbox.id := by simp [heq]
  have hget' : (hitboxes.map Hitbox.id)[before'.length]? = some hitbox.id := by simp [heq', hid]
  have hlt : before.length < (hitboxes.map Hitbox.id).length := by simp [heq]
  have hlength : before.length = before'.length :=
    (List.getElem?_inj hlt hids).mp (hget.trans hget'.symm)
  obtain ⟨-, htail⟩ := List.append_inj (heq'.symm.trans heq) hlength.symm
  exact List.cons.inj htail

/-- A hit test reports an id as that of a scroll target or of a hovered hitbox when it is that of a
hitbox which contains the position and is not blocked by one that was inserted after it. When the
ids are different, it so reports each of the hitboxes by its id. -/
theorem hitTest_spec (data : D → HitboxData U) (position : Point U) (frame : Frame D K) :
    (∀ id, ((frame.hitTest data position).shouldHandleScroll id = true ↔
        ∃ before hitbox after, frame.hitboxes = before ++ hitbox :: after ∧ hitbox.id = id ∧
          ScrollTarget data position hitbox after) ∧
      ((frame.hitTest data position).isHovered id = true ↔
        ∃ before hitbox after, frame.hitboxes = before ++ hitbox :: after ∧ hitbox.id = id ∧
          Hovered data position hitbox after)) ∧
    ((frame.hitboxes.map Hitbox.id).Nodup → ∀ before hitbox after,
      frame.hitboxes = before ++ hitbox :: after →
        ((frame.hitTest data position).shouldHandleScroll hitbox.id = true ↔
          ScrollTarget data position hitbox after) ∧
        ((frame.hitTest data position).isHovered hitbox.id = true ↔
          Hovered data position hitbox after)) := by
  have hscroll : ∀ id, (frame.hitTest data position).shouldHandleScroll id = true ↔
      ∃ before hitbox after, frame.hitboxes = before ++ hitbox :: after ∧ hitbox.id = id ∧
        ScrollTarget data position hitbox after := by
    intro id
    rw [HitTest.shouldHandleScroll, hitTest_ids, List.contains_iff_mem, List.mem_map]
    constructor
    · rintro ⟨hitbox, hmem, hid⟩
      obtain ⟨before, after, heq, htarget⟩ := mem_found_reverse.mp hmem
      exact ⟨before, hitbox, after, heq, hid, htarget⟩
    · rintro ⟨before, hitbox, after, heq, hid, htarget⟩
      exact ⟨hitbox, mem_found_reverse.mpr ⟨before, after, heq, htarget⟩, hid⟩
  have hhover : ∀ id, (frame.hitTest data position).isHovered id = true ↔
      ∃ before hitbox after, frame.hitboxes = before ++ hitbox :: after ∧ hitbox.id = id ∧
        Hovered data position hitbox after := by
    intro id
    rw [HitTest.isHovered, hitTest_hovered_ids, List.contains_iff_mem, List.mem_map]
    constructor
    · rintro ⟨hitbox, hmem, hid⟩
      obtain ⟨before, after, heq, hhovered⟩ := mem_foundHovered_reverse.mp hmem
      exact ⟨before, hitbox, after, heq, hid, hhovered⟩
    · rintro ⟨before, hitbox, after, heq, hid, hhovered⟩
      exact ⟨hitbox, mem_foundHovered_reverse.mpr ⟨before, after, heq, hhovered⟩, hid⟩
  refine ⟨fun id => ⟨hscroll id, hhover id⟩, fun hids before hitbox after heq => ⟨?_, ?_⟩⟩
  · rw [hscroll]
    constructor
    · rintro ⟨before', other, after', heq', hid, htarget⟩
      obtain ⟨rfl, rfl⟩ := split_unique hids heq heq' hid
      exact htarget
    · exact fun htarget => ⟨before, hitbox, after, heq, rfl, htarget⟩
  · rw [hhover]
    constructor
    · rintro ⟨before', other, after', heq', hid, hhovered⟩
      obtain ⟨rfl, rfl⟩ := split_unique hids heq heq' hid
      exact hhovered
    · exact fun hhovered => ⟨before, hitbox, after, heq, rfl, hhovered⟩

end Lucie.Drawing
