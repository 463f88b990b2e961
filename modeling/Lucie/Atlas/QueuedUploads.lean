import Lucie.Atlas.BladeAtlas
import Lucie.Atlas.Removal
import Lucie.Foundation.Exact

/-!
# Queued uploads

Whatever is queued in the Blade atlas is for the texture in its slot as long as no texture is
dropped that something is queued for. What is dropped too early makes the next flush panic, or has
it write to the texture that came into the slot.
-/

set_option autoImplicit false

namespace Lucie.Atlas

open Foundation

variable {K A D : Type} {allocator : Allocator A} {size : Size ℤ}

namespace BladeAtlasTexture

/-- What makes up a texture for those that refer to it. -/
def look (texture : BladeAtlasTexture A) : AtlasTextureId × ℕ := (texture.id, texture.raw)

theorem look_allocate (texture : BladeAtlasTexture A) :
    (texture.allocate allocator size).1.look = texture.look := by
  unfold allocate
  rcases allocator.allocate texture.allocator size with ⟨a, - | ⟨id, rect⟩⟩ <;> rfl

theorem textureId_of_allocate {texture : BladeAtlasTexture A} {tile : AtlasTile}
    (h : (texture.allocate allocator size).2 = some tile) : tile.textureId = texture.id := by
  unfold allocate at h
  rcases hcall : allocator.allocate texture.allocator size with ⟨a, - | ⟨id, rect⟩⟩
  · rw [hcall] at h
    cases h
  · rw [hcall] at h
    obtain rfl := Option.some.inj h
    rfl

end BladeAtlasTexture

namespace BladeAtlasState

variable {storage storage' : TextureStorage (BladeAtlasTexture A)} {kind : AtlasTextureKind}
  {id : AtlasTextureId} {r : Option ℕ}

/-- The textures have the ids of their slots, and the free slots are empty. -/
structure Sound (storage : TextureStorage (BladeAtlasTexture A)) : Prop where
  labelled : ∀ id texture, storage.slot id = some (some texture) → texture.id = id
  free : ∀ id : AtlasTextureId, id.index ∈ storage.free id.kind → storage.slot id = some none
  nodup : ∀ kind, (storage.free kind).Nodup

/-- The slots, without what an allocation changes. -/
def looks (storage : TextureStorage (BladeAtlasTexture A)) (id : AtlasTextureId) :
    Option (Option (AtlasTextureId × ℕ)) :=
  (storage.slot id).map (Option.map BladeAtlasTexture.look)

/-- The slot holds the raw texture. -/
def Refers (storage : TextureStorage (BladeAtlasTexture A)) (id : AtlasTextureId) (r : Option ℕ) :
    Prop :=
  ∃ texture, storage.slot id = some (some texture) ∧ r = some texture.raw

/-- All ids in the queues, with the raw textures that they are for. -/
def queued (s : BladeAtlasState K A D) : List (AtlasTextureId × Option ℕ) :=
  s.initializations.map (fun queued => (queued.entry, queued.queuedFor)) ++
    s.uploads.map fun queued => (queued.entry.id, queued.queuedFor)

/-- All that is queued is for the texture in its slot. -/
def Intact (s : BladeAtlasState K A D) : Prop :=
  ∀ entry ∈ s.queued, Refers s.storage entry.1 entry.2

/-- A flush does not panic, and it writes to the textures that its commands were queued for. -/
def FlushesAsQueued (s : BladeAtlasState K A D) : Prop :=
  ∃ commands, s.flushCommands = some commands ∧
    commands.map (some ∘ GpuCommand.raw) = s.queued.map Prod.snd

/-! ## Flushing -/

theorem texture_of_slot {texture : BladeAtlasTexture A}
    (h : storage.slot id = some (some texture)) : storage.texture id = some texture :=
  TextureStorage.texture_eq_some.mpr h

section Queue

variable {E : Type} {textureId : E → AtlasTextureId}
  {command : E → BladeAtlasTexture A → GpuCommand D} {queue : List (Queued E)}

/-- A flush has one command for each entry of the queue. -/
theorem length_flushQueue {commands : List (GpuCommand D)}
    (h : flushQueue textureId command storage queue = some commands) :
    commands.length = queue.length := by
  induction queue generalizing commands with
  | nil =>
    obtain rfl := Option.some.inj h
    rfl
  | cons queued queue ih =>
    rw [flushQueue] at h
    cases htexture : storage.texture (textureId queued.entry) with
    | none =>
      rw [htexture] at h
      cases h
    | some texture =>
      rw [htexture] at h
      obtain ⟨rest, hrest, rfl⟩ := Option.map_eq_some_iff.mp h
      rw [List.length_cons, List.length_cons, ih hrest]

/-- The commands write to the textures they were queued for exactly when these are in their
slots. -/
theorem flushQueue_iff (hcommand : ∀ e texture, (command e texture).raw = texture.raw) :
    (∃ commands, flushQueue textureId command storage queue = some commands ∧
        commands.map (some ∘ GpuCommand.raw) = queue.map Queued.queuedFor) ↔
      ∀ queued ∈ queue, Refers storage (textureId queued.entry) queued.queuedFor := by
  induction queue with
  | nil => simp [flushQueue]
  | cons queued queue ih =>
    rw [List.forall_mem_cons, ← ih]
    constructor
    · rintro ⟨commands, hflush, hraw⟩
      rw [flushQueue] at hflush
      cases htexture : storage.texture (textureId queued.entry) with
      | none =>
        rw [htexture] at hflush
        cases hflush
      | some texture =>
        rw [htexture] at hflush
        obtain ⟨rest, hrest, rfl⟩ := Option.map_eq_some_iff.mp hflush
        rw [List.map_cons, List.map_cons, List.cons.injEq, Function.comp_apply, hcommand] at hraw
        exact ⟨⟨texture, TextureStorage.texture_eq_some.mp htexture, hraw.1.symm⟩, rest, hrest,
          hraw.2⟩
    · rintro ⟨⟨texture, hslot, hfor⟩, rest, hrest, hraw⟩
      refine ⟨command queued.entry texture :: rest, ?_, ?_⟩
      · rw [flushQueue, texture_of_slot hslot, hrest]
        rfl
      · rw [List.map_cons, List.map_cons, hraw, hfor, Function.comp_apply, hcommand]

end Queue

/-- A flush goes as it should exactly when all that is queued is for the texture in its slot. -/
theorem flushesAsQueued_iff (s : BladeAtlasState K A D) : s.FlushesAsQueued ↔ s.Intact := by
  have hintact : s.Intact ↔
      (∀ queued ∈ s.initializations, Refers s.storage queued.entry queued.queuedFor) ∧
        ∀ queued ∈ s.uploads, Refers s.storage queued.entry.id queued.queuedFor := by
    simp only [Intact, queued, List.forall_mem_append, List.forall_mem_map]
  have hinitializations : (∃ commands : List (GpuCommand D),
      flushInitializations s.storage s.initializations = some commands ∧
        commands.map (some ∘ GpuCommand.raw) = s.initializations.map Queued.queuedFor) ↔
      ∀ queued ∈ s.initializations, Refers s.storage queued.entry queued.queuedFor :=
    flushQueue_iff fun _ _ => rfl
  have huploads : (∃ commands, flushUploads s.storage s.uploads = some commands ∧
        commands.map (some ∘ GpuCommand.raw) = s.uploads.map Queued.queuedFor) ↔
      ∀ queued ∈ s.uploads, Refers s.storage queued.entry.id queued.queuedFor :=
    flushQueue_iff fun _ _ => rfl
  rw [hintact, ← hinitializations, ← huploads, FlushesAsQueued, flushCommands, queued,
    List.map_append, List.map_map, List.map_map]
  constructor
  · rintro ⟨commands, hflush, hraw⟩
    cases hinit : flushInitializations (D := D) s.storage s.initializations with
    | none =>
      rw [hinit] at hflush
      cases hflush
    | some initializations =>
      rw [hinit] at hflush
      obtain ⟨uploads, huploads, rfl⟩ := Option.map_eq_some_iff.mp hflush
      have hlength := length_flushQueue hinit
      rw [List.map_append] at hraw
      obtain ⟨hfirst, hsecond⟩ := List.append_inj hraw (by simpa using hlength)
      exact ⟨⟨initializations, rfl, hfirst⟩, uploads, huploads, hsecond⟩
  · rintro ⟨⟨initializations, hinit, hfirst⟩, uploads, huploads, hsecond⟩
    rw [hinit, huploads]
    refine ⟨initializations ++ uploads, rfl, ?_⟩
    rw [List.map_append, hfirst, hsecond]
    rfl

/-! ## Slots -/

theorem looks_eq_some {label : AtlasTextureId} {raw : ℕ} :
    looks storage id = some (some (label, raw)) ↔
      ∃ texture, storage.slot id = some (some texture) ∧ texture.id = label ∧
        texture.raw = raw := by
  rw [looks]
  rcases storage.slot id with - | - | texture <;> simp [BladeAtlasTexture.look]

theorem looks_eq_empty : looks storage id = some none ↔ storage.slot id = some none := by
  rw [looks]
  rcases storage.slot id with - | - | texture <;> simp

theorem refers_iff_looks :
    Refers storage id r ↔ ∃ label raw, looks storage id = some (some (label, raw)) ∧
      r = some raw := by
  constructor
  · rintro ⟨texture, hslot, rfl⟩
    exact ⟨_, _, looks_eq_some.mpr ⟨texture, hslot, rfl, rfl⟩, rfl⟩
  · rintro ⟨label, raw, hlooks, rfl⟩
    obtain ⟨texture, hslot, -, rfl⟩ := looks_eq_some.mp hlooks
    exact ⟨texture, hslot, rfl⟩

/-- Where a slot looks the same, it holds the same texture. -/
theorem refers_congr (h : looks storage' id = looks storage id) :
    Refers storage' id r ↔ Refers storage id r := by
  rw [refers_iff_looks, refers_iff_looks, h]

theorem Sound.congr (hsound : Sound storage) (hlooks : looks storage' = looks storage)
    (hfree : storage'.free = storage.free) : Sound storage' where
  labelled := by
    intro id texture hslot
    have hlook := looks_eq_some.mpr ⟨texture, hslot, rfl, rfl⟩
    rw [hlooks] at hlook
    obtain ⟨texture', hslot', hlabel, -⟩ := looks_eq_some.mp hlook
    exact hlabel.symm.trans (hsound.labelled id texture' hslot')
  free := by
    intro id hid
    rw [hfree] at hid
    have hempty := looks_eq_empty.mpr (hsound.free id hid)
    rw [← hlooks] at hempty
    exact looks_eq_empty.mp hempty
  nodup := by
    rw [hfree]
    exact hsound.nodup

/-- A search for room changes only the insides of textures. -/
theorem looks_findLast :
    looks (storage.findLast (BladeAtlasTexture.allocate allocator size) kind).1 =
      looks storage := by
  funext id
  have hview : ∀ texture : BladeAtlasTexture A, (texture.allocate allocator size).2 = none →
      (texture.allocate allocator size).1.look = texture.look := fun texture _ =>
    texture.look_allocate
  cases hfind : (storage.findLast (BladeAtlasTexture.allocate allocator size) kind).2 with
  | none => exact TextureStorage.view_findLast_of_none hview hfind id
  | some tile =>
    obtain ⟨found, texture, -, hslot, -, hnew, hothers⟩ :=
      TextureStorage.view_findLast_of_some hview hfind
    by_cases hid : id = found
    · rw [looks, looks, hid, hnew, hslot, Option.map_some, Option.map_some, Option.map_some,
        Option.map_some, texture.look_allocate]
    · exact hothers id hid

/-- A slot whose texture is changed inside looks the same. -/
theorem looks_setSlot {texture texture' : BladeAtlasTexture A}
    (h : storage.slot id = some (some texture)) (hlook : texture'.look = texture.look) :
    looks (storage.setSlot id (some texture')) = looks storage := by
  funext other
  rw [looks, looks, TextureStorage.slot_setSlot (by simp [h]), Function.update_apply]
  split_ifs with hother
  · rw [hother, h, Option.map_some, Option.map_some, hlook]
    rfl
  · rfl

section Push

variable {make : AtlasTextureId → BladeAtlasTexture A}
  (h : storage.push kind make = some (storage', id)) (hsound : Sound storage)

include h hsound

/-- A new texture comes into a slot that held none. -/
theorem slot_of_push : storage.slot id = none ∨ storage.slot id = some none := by
  obtain ⟨rfl, -, -, hhead | ⟨-, habsent⟩⟩ := TextureStorage.push_eq h
  · exact .inr (hsound.free id (List.mem_of_mem_head? hhead))
  · exact .inl habsent

/-- Other slots hold the same textures as before. -/
theorem refers_of_push {other : AtlasTextureId} (hrefers : Refers storage other r) :
    Refers storage' other r := by
  obtain ⟨texture, hslot, hr⟩ := hrefers
  have hother : other ≠ id := by
    rintro rfl
    obtain hnone | hnone := slot_of_push h hsound
    · rw [hnone] at hslot
      cases hslot
    · rw [hnone] at hslot
      cases hslot
  obtain ⟨-, hslot', -, -⟩ := TextureStorage.push_eq h
  exact ⟨texture, by rw [hslot', Function.update_of_ne hother, hslot], hr⟩

theorem sound_of_push (hmake : ∀ id, (make id).id = id) : Sound storage' := by
  obtain ⟨rfl, hslot, hfree, hopens⟩ := TextureStorage.push_eq h
  constructor
  · intro other texture htexture
    rw [hslot, Function.update_apply] at htexture
    split_ifs at htexture with hother
    · obtain rfl := Option.some.inj (Option.some.inj htexture)
      rw [hother, hmake]
    · exact hsound.labelled other texture htexture
  · intro other hmem
    rw [hfree, Function.update_apply] at hmem
    have hold : other.index ∈ storage.free other.kind := by
      split_ifs at hmem with hkind
      · rw [hkind]
        exact List.mem_of_mem_tail hmem
      · exact hmem
    -- The slot that is taken does not come again among the free ones.
    have hother : other ≠ id := by
      rintro rfl
      rw [if_pos rfl] at hmem
      obtain hhead | ⟨hnil, -⟩ := hopens
      · obtain ⟨rest, hrest⟩ := List.head?_eq_some_iff.mp hhead
        have hnodup := hsound.nodup other.kind
        rw [hrest] at hmem hnodup
        exact (List.nodup_cons.mp hnodup).1 hmem
      · rw [hnil] at hmem
        cases hmem
    rw [hslot, Function.update_of_ne hother]
    exact hsound.free other hold
  · intro kind
    rw [hfree, Function.update_apply]
    split_ifs
    · exact (List.tail_sublist _).nodup (hsound.nodup _)
    · exact hsound.nodup kind

end Push

section Drop

variable {texture : BladeAtlasTexture A} (hslot : storage.slot id = some (some texture))

include hslot

/-- A texture that is dropped leaves its slot to the free ones. -/
theorem sound_of_drop (hsound : Sound storage) :
    Sound ((storage.setSlot id none).pushFree id.kind id.index) := by
  have hslots := TextureStorage.slot_drop (by simp [hslot] : storage.slot id ≠ none)
  constructor
  · intro other texture' hother
    rw [hslots, Function.update_apply] at hother
    split_ifs at hother
    · cases hother
    · exact hsound.labelled other texture' hother
  · intro other hmem
    rw [hslots, Function.update_apply]
    split_ifs with hother
    · rfl
    · rw [TextureStorage.free_drop, Function.update_apply] at hmem
      refine hsound.free other ?_
      split_ifs at hmem with hkind
      · obtain hindex | hmem := List.mem_cons.mp hmem
        · exact absurd (AtlasTextureId.ext hindex hkind) hother
        · rwa [hkind]
      · exact hmem
  · intro kind
    rw [TextureStorage.free_drop, Function.update_apply]
    split_ifs
    · refine List.nodup_cons.mpr ⟨fun hmem => ?_, hsound.nodup _⟩
      rw [hsound.free id hmem] at hslot
      cases hslot
    · exact hsound.nodup kind

/-- Just what referred to the slot has lost its texture. -/
theorem refers_drop_iff {other : AtlasTextureId} (hrefers : Refers storage other r) :
    Refers ((storage.setSlot id none).pushFree id.kind id.index) other r ↔ other ≠ id := by
  have hslots := TextureStorage.slot_drop (by simp [hslot] : storage.slot id ≠ none)
  rw [Refers, hslots]
  constructor
  · rintro ⟨texture', hslot', -⟩ rfl
    rw [Function.update_self] at hslot'
    cases hslot'
  · intro hother
    rw [Function.update_of_ne hother]
    exact hrefers

end Drop

/-! ## Calls -/

/-- What refers to a texture still does. -/
def Keeps (storage storage' : TextureStorage (BladeAtlasTexture A)) : Prop :=
  Sound storage' ∧ ∀ id r, Refers storage id r → Refers storage' id r

theorem keeps_of_looks (hsound : Sound storage) (hlooks : looks storage' = looks storage)
    (hfree : storage'.free = storage.free) : Keeps storage storage' :=
  ⟨hsound.congr hlooks hfree, fun id _ hrefers => (refers_congr (congrFun hlooks id)).mpr hrefers⟩

theorem Keeps.trans {storage'' : TextureStorage (BladeAtlasTexture A)}
    (h : Keeps storage storage') (h' : Keeps storage' storage'') : Keeps storage storage'' :=
  ⟨h'.1, fun id r hrefers => h'.2 id r (h.2 id r hrefers)⟩

/-- A new texture is queued, and it is in its slot. -/
theorem pushTexture_spec {s s' : BladeAtlasState K A D} (hsound : Sound s.storage)
    (h : pushTexture allocator s size kind = some (s', id)) :
    Keeps s.storage s'.storage ∧ s'.uploads = s.uploads ∧
      s'.initializations = s.initializations ++ [⟨id, some s.created⟩] ∧
      s'.storage.slot id = some (some (newTexture allocator size s.created id)) := by
  rw [pushTexture] at h
  rcases hpush : s.storage.push kind (newTexture allocator size s.created) with - | ⟨pushed, id'⟩
  · rw [hpush] at h
    cases h
  · rw [hpush] at h
    obtain ⟨rfl, rfl⟩ := Prod.mk.inj (Option.some.inj h)
    refine ⟨⟨sound_of_push hpush hsound fun _ => rfl, fun _ _ => refers_of_push hpush hsound⟩,
      rfl, rfl, ?_⟩
    rw [(TextureStorage.push_eq hpush).2.1, Function.update_self]

/-- An allocation queues a new texture at most, and the tile is in a texture that is there. -/
theorem allocate_spec {s s' : BladeAtlasState K A D} {tile : AtlasTile} (hsound : Sound s.storage)
    (h : allocate allocator s size kind = some (s', tile)) :
    Keeps s.storage s'.storage ∧ s'.uploads = s.uploads ∧
      (∀ queued ∈ s'.initializations, queued ∈ s.initializations ∨
        Refers s'.storage queued.entry queued.queuedFor) ∧
      ∃ texture, s'.storage.slot tile.textureId = some (some texture) := by
  rw [allocate] at h
  rcases hfind : s.storage.findLast (BladeAtlasTexture.allocate allocator size) kind with
    ⟨tried, found⟩
  have htried : Keeps s.storage tried := by
    have hlooks := @looks_findLast A allocator size s.storage kind
    have hfree := @TextureStorage.free_findLast _ _ s.storage kind
      (BladeAtlasTexture.allocate allocator size)
    rw [hfind] at hlooks hfree
    exact keeps_of_looks hsound hlooks hfree
  cases found with
  | none =>
    rw [hfind] at h
    rcases hpush : pushTexture allocator { s with storage := tried } size kind with
      - | ⟨pushed, id⟩
    · simp only [hpush] at h
      cases h
    · obtain ⟨hpushed, huploads, hinitializations, hslot⟩ := pushTexture_spec htried.1 hpush
      have hlook := @BladeAtlasTexture.look_allocate A allocator size
        (newTexture allocator size s.created id)
      simp only [hpush, texture_of_slot hslot] at h
      rcases hnew : (newTexture allocator size s.created id).allocate allocator size with
        ⟨texture, - | tile'⟩
      · simp only [hnew] at h
        cases h
      · have htile : tile'.textureId = id :=
          BladeAtlasTexture.textureId_of_allocate (congrArg Prod.snd hnew)
        simp only [hnew, Option.some.injEq, Prod.mk.injEq] at h
        obtain ⟨rfl, rfl⟩ := h
        rw [hnew] at hlook
        have hfinal : (pushed.storage.setSlot id (some texture)).slot id = some (some texture) := by
          rw [TextureStorage.slot_setSlot (by simp [hslot]), Function.update_self]
        have hkeeps := (htried.trans hpushed).trans (keeps_of_looks hpushed.1
          (looks_setSlot hslot hlook) (TextureStorage.free_setSlot _))
        refine ⟨hkeeps, huploads, fun queued hmem => ?_, texture, by rw [htile]; exact hfinal⟩
        obtain hmem | hmem := List.mem_append.mp (hinitializations ▸ hmem)
        · exact .inl hmem
        · obtain rfl := List.mem_singleton.mp hmem
          exact .inr ⟨texture, hfinal, by rw [(Prod.mk.inj hlook).2]; rfl⟩
  | some tile' =>
    rw [hfind] at h
    obtain ⟨rfl, rfl⟩ := Prod.mk.inj (Option.some.inj h)
    refine ⟨htried, rfl, fun queued hmem => .inl hmem, ?_⟩
    obtain ⟨id, texture, -, hslot, hfound, hnew, -⟩ :=
      TextureStorage.view_findLast_of_some (fun texture _ => texture.look_allocate)
        (congrArg Prod.snd hfind)
    have hlabel := hsound.labelled id texture hslot
    rw [hfind] at hnew
    have htile : tile'.textureId = id :=
      (BladeAtlasTexture.textureId_of_allocate hfound).trans hlabel
    exact ⟨_, by rw [htile]; exact hnew⟩

variable [DecidableEq K] {textureKind : K → AtlasTextureKind} {s s' : BladeAtlasState K A D}
  {key : K}

/-- A lookup keeps all that is queued, and what it queues is for a texture that is there. -/
theorem getOrInsertWith_spec {build : Except String (Option (Size ℤ × D))}
    {result : Except String (Option AtlasTile)} (hsound : Sound s.storage)
    (h : s.getOrInsertWith allocator textureKind key build = some (s', result)) :
    Sound s'.storage ∧ (s.Intact → s'.Intact) := by
  unfold getOrInsertWith at h
  cases htile : s.tile key with
  | some tile =>
    rw [htile] at h
    obtain ⟨rfl, -⟩ := Prod.mk.inj (Option.some.inj h)
    exact ⟨hsound, fun h => h⟩
  | none =>
    rw [htile] at h
    rcases build with error | - | ⟨size, bytes⟩
    · obtain ⟨rfl, -⟩ := Prod.mk.inj (Option.some.inj h)
      exact ⟨hsound, fun h => h⟩
    · obtain ⟨rfl, -⟩ := Prod.mk.inj (Option.some.inj h)
      exact ⟨hsound, fun h => h⟩
    · rcases hallocate : allocate allocator s size (textureKind key) with - | ⟨t, tile⟩
      · simp only [hallocate] at h
        cases h
      · simp only [hallocate] at h
        obtain ⟨rfl, -⟩ := Prod.mk.inj (Option.some.inj h)
        obtain ⟨hkeeps, huploads, hinitializations, texture, hslot⟩ :=
          allocate_spec hsound hallocate
        refine ⟨hkeeps.1, fun hintact => ?_⟩
        intro entry hentry
        obtain hmem | hmem := List.mem_append.mp hentry
        · obtain ⟨queued, hqueued, rfl⟩ := List.mem_map.mp hmem
          refine (hinitializations queued hqueued).elim (fun hold => ?_) id
          exact hkeeps.2 _ _ (hintact _ (List.mem_append_left _ (List.mem_map_of_mem hold)))
        · obtain ⟨queued, hqueued, rfl⟩ := List.mem_map.mp hmem
          obtain hold | hnew := List.mem_append.mp hqueued
          · rw [huploads] at hold
            exact hkeeps.2 _ _ (hintact _ (List.mem_append_right _ (List.mem_map_of_mem hold)))
          · obtain rfl := List.mem_singleton.mp hnew
            exact ⟨texture, hslot, by rw [rawAt, texture_of_slot hslot]; rfl⟩

/-- If the last key of a texture is removed, nothing is queued for the texture. -/
def KeepsQueued (s : BladeAtlasState K A D) : Call K D → Prop
  | .remove key => ∀ tile texture, s.tile key = some tile →
    s.storage.slot tile.textureId = some (some texture) → texture.liveAtlasKeys = 1 →
    ∀ entry ∈ s.queued, entry.1 ≠ tile.textureId
  | _ => True

/-- A removal whose texture is gone only forgets the key. -/
theorem remove_of_gone {tile : AtlasTile} (htile : s.tile key = some tile)
    (hgone : ∀ texture, s.storage.slot tile.textureId ≠ some (some texture))
    (h : s.remove key = some s') : s'.storage = s.storage ∧ s'.queued = s.queued := by
  rw [remove, htile] at h
  rcases hslot : s.storage.slot tile.textureId with - | - | texture
  · simp only [hslot] at h
    obtain rfl := Option.some.inj h
    exact ⟨rfl, rfl⟩
  · simp only [hslot] at h
    obtain rfl := Option.some.inj h
    exact ⟨rfl, rfl⟩
  · exact absurd hslot (hgone texture)

/-- A removal keeps all that is queued exactly when nothing is queued for what it drops. -/
theorem remove_spec (hsound : Sound s.storage) (h : s.remove key = some s') :
    Sound s'.storage ∧ (s.Intact → (s'.Intact ↔ s.KeepsQueued (.remove key))) := by
  cases htile : s.tile key with
  | none =>
    rw [remove, htile] at h
    obtain rfl := Option.some.inj h
    refine ⟨hsound, fun hintact => iff_of_true hintact fun tile texture htile' => ?_⟩
    rw [htile] at htile'
    cases htile'
  | some tile =>
    by_cases hlive : ∃ texture, s.storage.slot tile.textureId = some (some texture)
    · obtain ⟨texture, hslot⟩ := hlive
      rw [remove, htile] at h
      simp only [hslot] at h
      have hkeeps : s.KeepsQueued (.remove key) ↔ (texture.liveAtlasKeys = 1 →
          ∀ entry ∈ s.queued, entry.1 ≠ tile.textureId) := by
        constructor
        · intro hkeeps
          exact hkeeps tile texture htile hslot
        · intro hkeeps tile' texture' htile' hslot'
          obtain rfl := Option.some.inj (htile.symm.trans htile')
          obtain rfl := Option.some.inj (Option.some.inj (hslot.symm.trans hslot'))
          exact hkeeps
      rw [hkeeps]
      split_ifs at h with hzero hone
      · obtain rfl := Option.some.inj h
        rw [hsound.labelled _ _ hslot]
        refine ⟨sound_of_drop hslot hsound, fun hintact => ?_⟩
        rw [forall_prop_of_true (by omega)]
        exact forall₂_congr fun entry hentry => refers_drop_iff hslot (hintact entry hentry)
      · obtain rfl := Option.some.inj h
        have hlooks := @looks_setSlot A s.storage tile.textureId texture
          { texture with liveAtlasKeys := texture.liveAtlasKeys - 1 } hslot rfl
        have hkeeps' := keeps_of_looks hsound hlooks (TextureStorage.free_setSlot _)
        refine ⟨hkeeps'.1, fun hintact => iff_of_true ?_ fun hlast => by omega⟩
        exact fun entry hentry => hkeeps'.2 _ _ (hintact entry hentry)
    · have hsame := remove_of_gone htile (fun texture hslot => hlive ⟨texture, hslot⟩) h
      have hintact' : s'.Intact = s.Intact := by rw [Intact, hsame.1, hsame.2, Intact]
      rw [hintact', hsame.1]
      refine ⟨hsound, fun hintact => iff_of_true hintact fun tile' texture htile' hslot => ?_⟩
      obtain rfl := Option.some.inj (htile.symm.trans htile')
      exact absurd ⟨texture, hslot⟩ hlive

theorem step_spec {call : Call K D} (hsound : Sound s.storage)
    (hstep : step allocator textureKind s call = some s') :
    Sound s'.storage ∧ (s.Intact → (s'.Intact ↔ s.KeepsQueued call)) := by
  cases call with
  | getOrInsertWith key build =>
    obtain ⟨⟨t, result⟩, hcall, rfl⟩ := Option.map_eq_some_iff.mp hstep
    obtain ⟨hsound', hintact⟩ := getOrInsertWith_spec hsound hcall
    exact ⟨hsound', fun h => iff_of_true (hintact h) trivial⟩
  | remove key => exact remove_spec hsound hstep
  | beforeFrame =>
    obtain ⟨commands, -, rfl⟩ := Option.map_eq_some_iff.mp hstep
    refine ⟨hsound, fun _ => iff_of_true (fun entry hentry => ?_) trivial⟩
    cases hentry

omit [DecidableEq K] in
theorem sound_new : Sound (new : BladeAtlasState K A D).storage where
  labelled := by
    rintro ⟨ix, - | -⟩ texture hslot
    · cases hslot
    · cases hslot
  free := by
    rintro ⟨ix, - | -⟩ hmem
    · cases hmem
    · cases hmem
  nodup := by
    rintro (- | -)
    · exact List.nodup_nil
    · exact List.nodup_nil

/-- From the new atlas on, all that is queued is for the texture in its slot, and a flush would go
as it should, in every state, exactly when no removal drops a texture that something is queued
for. -/
theorem intact_iff_keepsQueued (allocator : Allocator A) (textureKind : K → AtlasTextureKind)
    (calls : List (Call K D)) :
    AllStates (step allocator textureKind) (fun s => s.Intact ∧ s.FlushesAsQueued) new calls ↔
      AllSteps (step allocator textureKind) KeepsQueued new calls := by
  have hboth : (fun s : BladeAtlasState K A D => s.Intact ∧ s.FlushesAsQueued) = Intact :=
    funext fun s => propext (and_iff_left_of_imp (flushesAsQueued_iff s).mpr)
  rw [hboth]
  refine allStates_iff_allSteps (fun s => Sound s.storage) (fun s call s' hsound hstep => ?_)
    (fun s call s' hsound hintact hstep => ?_) sound_new (fun entry hentry => ?_) calls
  · exact (step_spec hsound hstep).1
  · exact (step_spec hsound hstep).2 hintact
  · cases hentry

/-- A key that is removed before the first frame. -/
def removedEarly : List (Call ℕ ℕ) := [.getOrInsertWith 0 (.ok (some (⟨10, 10⟩, 7))), .remove 0]

/-- A key that comes into the slot of one that is removed before the first frame. -/
def reusedEarly : List (Call ℕ ℕ) :=
  removedEarly ++ [.getOrInsertWith 1 (.ok (some (⟨10, 10⟩, 8)))]

/-- The flush panics, or it writes the bytes of the first key to the texture of the second one. -/
theorem not_intact_reusedEarly :
    ¬ AllStates (step Shelf.allocator fun _ => .monochrome)
        (fun s : BladeAtlasState ℕ Shelf ℕ => s.Intact ∧ s.FlushesAsQueued) new reusedEarly ∧
      (execute (step Shelf.allocator fun _ => .monochrome) (fun _ _ => True)
        (new : BladeAtlasState ℕ Shelf ℕ) removedEarly).map (·.flushCommands.isSome) =
          some false ∧
      (execute (step Shelf.allocator fun _ => .monochrome) (fun _ _ => True)
        (new : BladeAtlasState ℕ Shelf ℕ) reusedEarly).map (fun s =>
          (s.flushCommands.map (List.map GpuCommand.raw), s.queued.map Prod.snd)) =
        some (some [1, 1, 1, 1], [some 0, some 1, some 0, some 1]) := by
  refine ⟨fun h => ?_, by decide +kernel, by decide +kernel⟩
  have hlast := ((h.2 _ rfl).2 _ rfl).head
  obtain ⟨texture, hslot, -⟩ := hlast.1 (⟨0, .monochrome⟩, some 0) List.mem_cons_self
  cases hslot

end BladeAtlasState

end Lucie.Atlas
