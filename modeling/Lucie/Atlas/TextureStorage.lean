import Lucie.Atlas.Ledger

/-!
# Lists of textures with free slots

An atlas keeps a list of slots for each kind of textures, and the indices of the empty slots. A new
texture takes a free slot or a new one at the end, and a texture that is dropped gives its slot
back.
-/

set_option autoImplicit false

namespace Lucie.Atlas

variable {T R W : Type}

/-- `AtlasTextureList`, with the last entry of the free list first. -/
structure TextureList (T : Type) where
  textures : List (Option T)
  freeList : List ℕ

/-- The lists for the two kinds of textures. -/
structure TextureStorage (T : Type) where
  monochromeTextures : TextureList T
  polychromeTextures : TextureList T

/-- `textures.iter_mut().rev().find_map(..)` over the slots of a list. -/
def findMapLast (allocate : T → T × Option R) : List (Option T) → List (Option T) × Option R
  | [] => ([], none)
  | slot :: rest =>
    match findMapLast allocate rest with
    | (rest, some found) => (slot :: rest, some found)
    | (rest, none) =>
      match slot with
      | none => (none :: rest, none)
      | some texture => (some (allocate texture).1 :: rest, (allocate texture).2)

section Find

variable {allocate : T → T × Option R}

/-- Nothing is found when no texture has it, and all textures have been tried. The induction is on
the slots. -/
theorem findMapLast_of_none {slots : List (Option T)} (h : (findMapLast allocate slots).2 = none) :
    (findMapLast allocate slots).1 = slots.map (Option.map fun texture => (allocate texture).1) ∧
      ∀ texture, some texture ∈ slots → (allocate texture).2 = none := by
  induction slots with
  | nil => simp [findMapLast]
  | cons slot rest ih =>
    rcases hrest : findMapLast allocate rest with ⟨rest', - | found⟩
    · rw [hrest] at ih
      obtain ⟨rfl, htried⟩ := ih rfl
      cases slot with
      | none => simpa [findMapLast, hrest] using htried
      | some texture =>
        simp only [findMapLast, hrest] at h ⊢
        refine ⟨rfl, fun other hother => ?_⟩
        obtain hother | hother := List.mem_cons.mp hother
        · obtain rfl := Option.some.inj hother
          exact h
        · exact htried other hother
    · simp only [findMapLast, hrest] at h
      cases h

theorem findMapLast_eq_none {slots : List (Option T)}
    (h : ∀ texture, some texture ∈ slots → (allocate texture).2 = none) :
    (findMapLast allocate slots).2 = none := by
  induction slots with
  | nil => rfl
  | cons slot rest ih =>
    have hrest := ih fun texture hmem => h texture (List.mem_cons_of_mem _ hmem)
    rcases hfind : findMapLast allocate rest with ⟨rest', - | found⟩
    · cases slot with
      | none => simp only [findMapLast, hfind]
      | some texture =>
        simp only [findMapLast, hfind]
        exact h texture List.mem_cons_self
    · rw [hfind] at hrest
      cases hrest

/-- What is found is in the last texture that has it, and only those behind have been tried in
vain. The induction is on the slots. -/
theorem findMapLast_of_some {slots : List (Option T)} {found : R}
    (h : (findMapLast allocate slots).2 = some found) : ∃ before texture after,
      slots = before ++ some texture :: after ∧ (allocate texture).2 = some found ∧
      (∀ other, some other ∈ after → (allocate other).2 = none) ∧
      (findMapLast allocate slots).1 = before ++ some (allocate texture).1 ::
        after.map (Option.map fun texture => (allocate texture).1) := by
  induction slots with
  | nil => cases h
  | cons slot rest ih =>
    rcases hrest : findMapLast allocate rest with ⟨rest', - | found'⟩
    · have hbehind := @findMapLast_of_none T R allocate rest (by rw [hrest])
      rw [hrest] at hbehind
      obtain ⟨rfl, hvain⟩ := hbehind
      cases slot with
      | none => simp [findMapLast, hrest] at h
      | some texture =>
        simp only [findMapLast, hrest] at h ⊢
        exact ⟨[], texture, rest, rfl, h, hvain, rfl⟩
    · rw [hrest] at ih
      simp only [findMapLast, hrest] at h ⊢
      obtain ⟨before, texture, after, rfl, hfound, htried, rfl⟩ := ih h
      exact ⟨slot :: before, texture, after, rfl, hfound, htried, rfl⟩

end Find

namespace TextureStorage

/-- `default`. -/
def empty : TextureStorage T := ⟨⟨[], []⟩, ⟨[], []⟩⟩

/-- The list of a kind. -/
def list (storage : TextureStorage T) : AtlasTextureKind → TextureList T
  | .monochrome => storage.monochromeTextures
  | .polychrome => storage.polychromeTextures

/-- Replace the list of a kind. -/
def setList (storage : TextureStorage T) (kind : AtlasTextureKind) (list : TextureList T) :
    TextureStorage T :=
  match kind with
  | .monochrome => { storage with monochromeTextures := list }
  | .polychrome => { storage with polychromeTextures := list }

/-- The slot with an id, if there is one. -/
def slot (storage : TextureStorage T) (id : AtlasTextureId) : Option (Option T) :=
  (storage.list id.kind).textures[id.index]?

/-- The indices of the free slots of a kind. -/
def free (storage : TextureStorage T) (kind : AtlasTextureKind) : List ℕ :=
  (storage.list kind).freeList

/-- The texture with an id; `none` is a panic. -/
def texture (storage : TextureStorage T) (id : AtlasTextureId) : Option T := (storage.slot id).join

/-- Find something in the last texture of a kind that has it. -/
def findLast (allocate : T → T × Option R) (storage : TextureStorage T) (kind : AtlasTextureKind) :
    TextureStorage T × Option R :=
  let list := storage.list kind
  (storage.setList kind { list with textures := (findMapLast allocate list.textures).1 },
    (findMapLast allocate list.textures).2)

/-- Put a texture into the slot that `free_list.pop` returns, or at the end of the list. A free slot
that does not exist is a panic. -/
def push (storage : TextureStorage T) (kind : AtlasTextureKind) (make : AtlasTextureId → T) :
    Option (TextureStorage T × AtlasTextureId) :=
  let list := storage.list kind
  match list.freeList with
  | ix :: freeList =>
    if ix < list.textures.length then
      some (storage.setList kind ⟨list.textures.set ix (some (make ⟨ix, kind⟩)), freeList⟩,
        ⟨ix, kind⟩)
    else none
  | [] =>
    let id : AtlasTextureId := ⟨list.textures.length, kind⟩
    some (storage.setList kind ⟨list.textures ++ [some (make id)], []⟩, id)

/-- Write to a slot. -/
def setSlot (storage : TextureStorage T) (id : AtlasTextureId) (slot : Option T) :
    TextureStorage T :=
  let list := storage.list id.kind
  storage.setList id.kind { list with textures := list.textures.set id.index slot }

/-- Add an index to the free slots. -/
def pushFree (storage : TextureStorage T) (kind : AtlasTextureKind) (ix : ℕ) : TextureStorage T :=
  let list := storage.list kind
  storage.setList kind { list with freeList := ix :: list.freeList }

/-! ## What the operations do to slots -/

variable {storage storage' : TextureStorage T} {kind : AtlasTextureKind} {id : AtlasTextureId}

theorem list_setList (list : TextureList T) (kind' : AtlasTextureKind) :
    (storage.setList kind list).list kind' = if kind' = kind then list else storage.list kind' := by
  cases kind <;> cases kind' <;> rfl

theorem slot_setList_of_kind (list : TextureList T) (ix : ℕ) :
    (storage.setList kind list).slot ⟨ix, kind⟩ = list.textures[ix]? := by
  rw [slot, list_setList, if_pos rfl]

theorem slot_setList_of_ne (list : TextureList T) (h : id.kind ≠ kind) :
    (storage.setList kind list).slot id = storage.slot id := by
  rw [slot, list_setList, if_neg h, slot]

theorem free_setList (list : TextureList T) :
    (storage.setList kind list).free = Function.update storage.free kind list.freeList := by
  funext kind'
  rw [free, list_setList]
  by_cases hkind : kind' = kind
  · rw [if_pos hkind, hkind, Function.update_self]
  · rw [if_neg hkind, Function.update_of_ne hkind, free]

/-- A change of the slots of one list, seen at the slot that changes and at the others. -/
theorem slot_setList_eq_update {list : TextureList T} (ix : ℕ) {slot : Option (Option T)}
    (hself : list.textures[ix]? = slot)
    (hothers : ∀ j : ℕ, j ≠ ix → list.textures[j]? = (storage.list kind).textures[j]?) :
    (storage.setList kind list).slot = Function.update storage.slot ⟨ix, kind⟩ slot := by
  funext id
  by_cases hkind : id.kind = kind
  · obtain ⟨j, kind'⟩ := id
    obtain rfl : kind' = kind := hkind
    rw [slot_setList_of_kind]
    by_cases hj : j = ix
    · rw [hj, Function.update_self, hself]
    · have hne : (⟨j, kind'⟩ : AtlasTextureId) ≠ ⟨ix, kind'⟩ := fun heq =>
        hj (AtlasTextureId.ext_iff.mp heq).1
      rw [Function.update_of_ne hne, hothers j hj, TextureStorage.slot]
  · have hne : id ≠ ⟨ix, kind⟩ := fun heq => hkind (AtlasTextureId.ext_iff.mp heq).2
    rw [slot_setList_of_ne _ hkind, Function.update_of_ne hne]

theorem slot_setSlot {slot : Option T} (h : storage.slot id ≠ none) :
    (storage.setSlot id slot).slot = Function.update storage.slot id (some slot) := by
  have hlt : id.index < (storage.list id.kind).textures.length := by
    by_contra hge
    exact h (List.getElem?_eq_none (by omega))
  exact slot_setList_eq_update _ (List.getElem?_set_self hlt)
    fun j hj => List.getElem?_set_ne (Ne.symm hj)

theorem free_setSlot (slot : Option T) : (storage.setSlot id slot).free = storage.free := by
  rw [setSlot, free_setList]
  exact Function.update_eq_self ..

theorem slot_setList_of_textures {list : TextureList T}
    (h : list.textures = (storage.list kind).textures) :
    (storage.setList kind list).slot = storage.slot := by
  rw [slot_setList_eq_update 0 (by rw [h]) (fun j _ => by rw [h])]
  exact Function.update_eq_self ..

theorem slot_pushFree (ix : ℕ) : (storage.pushFree kind ix).slot = storage.slot :=
  slot_setList_of_textures rfl

theorem free_pushFree (ix : ℕ) : (storage.pushFree kind ix).free =
    Function.update storage.free kind (ix :: storage.free kind) := by
  rw [pushFree, free_setList]
  rfl

/-- A slot is emptied and becomes free. -/
theorem slot_drop (h : storage.slot id ≠ none) :
    ((storage.setSlot id none).pushFree id.kind id.index).slot =
      Function.update storage.slot id (some none) := by
  rw [slot_pushFree, slot_setSlot h]

theorem free_drop : ((storage.setSlot id none).pushFree id.kind id.index).free =
    Function.update storage.free id.kind (id.index :: storage.free id.kind) := by
  rw [free_pushFree, free_setSlot]

/-- What a new texture changes. -/
theorem push_eq {make : AtlasTextureId → T} (h : storage.push kind make = some (storage', id)) :
    id.kind = kind ∧ storage'.slot = Function.update storage.slot id (some (some (make id))) ∧
      storage'.free = Function.update storage.free kind (storage.free kind).tail ∧
      ((storage.free kind).head? = some id.index ∨
        storage.free kind = [] ∧ storage.slot id = none) := by
  rw [push] at h
  cases hfree : (storage.list kind).freeList with
  | nil =>
    simp only [hfree, Option.some.injEq, Prod.mk.injEq] at h
    obtain ⟨rfl, rfl⟩ := h
    refine ⟨rfl, slot_setList_eq_update _ List.getElem?_concat_length fun j hj => ?_, ?_,
      .inr ⟨hfree, List.getElem?_eq_none le_rfl⟩⟩
    · rw [List.getElem?_append]
      split_ifs with hlt
      · rfl
      · rw [List.getElem?_eq_none (by simp; omega), List.getElem?_eq_none (by omega)]
    · rw [free_setList, free, hfree]
      rfl
  | cons ix freeList =>
    simp only [hfree] at h
    split_ifs at h with hlt
    obtain ⟨rfl, rfl⟩ := Prod.mk.inj (Option.some.inj h)
    refine ⟨rfl, slot_setList_eq_update _ (List.getElem?_set_self hlt)
      fun j hj => List.getElem?_set_ne (Ne.symm hj), ?_, .inl ?_⟩
    · rw [free_setList, free, hfree]
      rfl
    · rw [free, hfree]
      rfl

/-- A new texture finds a slot when the free slots exist. -/
theorem push_isSome (make : AtlasTextureId → T)
    (h : ∀ ix ∈ storage.free kind, storage.slot ⟨ix, kind⟩ ≠ none) :
    ∃ storage' id, storage.push kind make = some (storage', id) := by
  rw [push]
  cases hfree : (storage.list kind).freeList with
  | nil => exact ⟨_, _, rfl⟩
  | cons ix freeList =>
    have hlt : ix < (storage.list kind).textures.length := by
      have hslot := h ix (by simp [free, hfree])
      by_contra hge
      exact hslot (List.getElem?_eq_none (Nat.le_of_not_lt hge))
    exact ⟨_, _, if_pos hlt⟩

theorem texture_eq_some {texture : T} :
    storage.texture id = some texture ↔ storage.slot id = some (some texture) := by
  rw [TextureStorage.texture, Option.join_eq_some_iff]

section Find

variable {allocate : T → T × Option R} {view : T → W}
  (hview : ∀ texture, (allocate texture).2 = none → view (allocate texture).1 = view texture)

theorem free_findLast : (storage.findLast allocate kind).1.free = storage.free := by
  rw [findLast, free_setList]
  exact Function.update_eq_self ..

theorem findLast_eq_none_iff : (storage.findLast allocate kind).2 = none ↔
    ∀ ix texture, storage.slot ⟨ix, kind⟩ = some (some texture) → (allocate texture).2 = none := by
  constructor
  · intro h ix texture hslot
    exact (findMapLast_of_none h).2 texture (List.mem_of_getElem? hslot)
  · intro h
    refine findMapLast_eq_none fun texture hmem => ?_
    obtain ⟨ix, hix⟩ := List.getElem?_of_mem hmem
    exact h ix texture hix

include hview

/-- Textures without room look the same after they have been tried. -/
theorem view_findLast_of_none (h : (storage.findLast allocate kind).2 = none)
    (id : AtlasTextureId) :
    ((storage.findLast allocate kind).1.slot id).map (Option.map view) =
      (storage.slot id).map (Option.map view) := by
  by_cases hkind : id.kind = kind
  · obtain ⟨ix, kind'⟩ := id
    obtain rfl : kind' = kind := hkind
    obtain ⟨htextures, htried⟩ := findMapLast_of_none h
    rw [findLast, slot_setList_of_kind, htextures, List.getElem?_map, slot]
    rcases hslot : (storage.list kind').textures[ix]? with - | - | texture
    · rfl
    · rfl
    · have hsame := hview texture (htried texture (List.mem_of_getElem? hslot))
      simp [hsame]
  · rw [findLast, slot_setList_of_ne _ hkind]

/-- One texture has room, and the others look the same. -/
theorem view_findLast_of_some {found : R}
    (h : (storage.findLast allocate kind).2 = some found) :
    ∃ id texture, id.kind = kind ∧ storage.slot id = some (some texture) ∧
      (allocate texture).2 = some found ∧
      (storage.findLast allocate kind).1.slot id = some (some (allocate texture).1) ∧
      ∀ other, other ≠ id → ((storage.findLast allocate kind).1.slot other).map (Option.map view) =
        (storage.slot other).map (Option.map view) := by
  obtain ⟨before, texture, after, hslots, hfound, htried, hnew⟩ := findMapLast_of_some h
  refine ⟨⟨before.length, kind⟩, texture, rfl, ?_, hfound, ?_, fun other hother => ?_⟩
  · rw [slot, hslots, List.getElem?_append_right le_rfl, Nat.sub_self, List.getElem?_cons_zero]
  · rw [findLast, slot_setList_of_kind, hnew, List.getElem?_append_right le_rfl, Nat.sub_self,
      List.getElem?_cons_zero]
  · by_cases hkind : other.kind = kind
    · obtain ⟨ix, kind'⟩ := other
      obtain rfl : kind' = kind := hkind
      have hix : ix ≠ before.length := fun heq => hother (by rw [heq])
      rw [findLast, slot_setList_of_kind, hnew, slot, hslots]
      dsimp only
      obtain hlt | hgt := Nat.lt_or_gt_of_ne hix
      · rw [List.getElem?_append_left hlt, List.getElem?_append_left hlt]
      · obtain ⟨j, rfl⟩ := Nat.exists_eq_add_of_lt hgt
        rw [List.getElem?_append_right (by omega), List.getElem?_append_right (by omega),
          show before.length + j + 1 - before.length = j + 1 by omega, List.getElem?_cons_succ,
          List.getElem?_cons_succ, List.getElem?_map]
        rcases hslot : after[j]? with - | - | other
        · rfl
        · rfl
        · have hsame := hview other (htried other (List.mem_of_getElem? hslot))
          simp [hsame]
    · rw [findLast, slot_setList_of_ne _ hkind]

end Find

end TextureStorage

end Lucie.Atlas
