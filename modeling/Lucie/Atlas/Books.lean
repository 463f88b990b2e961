import Lucie.Atlas.Ledger

/-!
# The books of an atlas

The books of an atlas tell which slots are empty, how many keys each texture counts, which slots
are free, and in which texture each key is. They balance if these agree. Unlike the ledger, they
say nothing about what is inside of a texture.
-/

set_option autoImplicit false

namespace Lucie.Atlas

/-- The slots with the id and the count of their textures, the free slots, and the keys. -/
@[ext] structure Books (K : Type) where
  slot : AtlasTextureId → Option (Option (AtlasTextureId × ℕ))
  free : AtlasTextureKind → List ℕ
  keys : List (K × AtlasTextureId)

namespace Books

variable {K : Type}

/-- The number of keys that are mapped into a texture. -/
def keyCount (keys : List (K × AtlasTextureId)) (id : AtlasTextureId) : ℕ :=
  keys.countP fun entry => entry.2 = id

/-- The textures have the ids of their slots, and no key is mapped twice. -/
structure Proper (b : Books K) : Prop where
  labelled : ∀ id label count, b.slot id = some (some (label, count)) → label = id
  nodup : (b.keys.map Prod.fst).Nodup

/-- The counts, the keys and the free slots agree. -/
structure Balanced (b : Books K) : Prop where
  counted : ∀ id label count, b.slot id = some (some (label, count)) → count = keyCount b.keys id
  mapped : ∀ entry ∈ b.keys, ∃ held, b.slot entry.2 = some (some held)
  free : ∀ id : AtlasTextureId, id.index ∈ b.free id.kind ↔ b.slot id = some none
  freeNodup : ∀ kind, (b.free kind).Nodup

/-- Nothing is in the atlas. -/
def blank : Books K := ⟨fun _ => none, fun _ => [], []⟩

/-- The next free slot of a kind is taken. -/
def leak (b : Books K) (kind : AtlasTextureKind) : Books K :=
  { b with free := Function.update b.free kind (b.free kind).tail }

/-- A new texture without keys. -/
def openSlot (b : Books K) (id : AtlasTextureId) : Books K :=
  ⟨Function.update b.slot id (some (some (id, 0))),
    Function.update b.free id.kind (b.free id.kind).tail, b.keys⟩

/-- The slot that a new texture comes into. -/
def Opens (b : Books K) (id : AtlasTextureId) : Prop :=
  (b.free id.kind).head? = some id.index ∨ b.free id.kind = [] ∧ b.slot id = none

/-- Set what a texture counts. -/
def count (b : Books K) (id label : AtlasTextureId) (n : ℕ) : Books K :=
  { b with slot := Function.update b.slot id (some (some (label, n))) }

/-- Map a key into a texture. -/
def map (b : Books K) (key : K) (id : AtlasTextureId) : Books K :=
  { b with keys := (key, id) :: b.keys }

/-- Forget a key. -/
def unmap [DecidableEq K] (b : Books K) (key : K) : Books K :=
  { b with keys := b.keys.filter fun entry => entry.1 ≠ key }

/-- A slot becomes free. -/
def release (b : Books K) (id : AtlasTextureId) : Books K :=
  { b with
    slot := Function.update b.slot id (some none)
    free := Function.update b.free id.kind (id.index :: b.free id.kind) }

variable {b : Books K} {id : AtlasTextureId}

theorem blank_proper : (blank : Books K).Proper where
  labelled := by
    intro id label count hslot
    cases hslot
  nodup := List.nodup_nil

theorem blank_balanced : (blank : Books K).Balanced where
  counted := by
    intro id label count hslot
    cases hslot
  mapped := by simp [blank]
  free := by simp [blank]
  freeNodup := fun _ => List.nodup_nil

theorem slot_openSlot (other : AtlasTextureId) : (b.openSlot id).slot other =
    if other = id then some (some (id, 0)) else b.slot other := Function.update_apply ..

theorem free_openSlot (kind : AtlasTextureKind) : (b.openSlot id).free kind =
    if kind = id.kind then (b.free id.kind).tail else b.free kind := Function.update_apply ..

theorem slot_count (label other : AtlasTextureId) (n : ℕ) : (b.count id label n).slot other =
    if other = id then some (some (label, n)) else b.slot other := Function.update_apply ..

theorem slot_release (other : AtlasTextureId) : (b.release id).slot other =
    if other = id then some none else b.slot other := Function.update_apply ..

theorem free_release (kind : AtlasTextureKind) : (b.release id).free kind =
    if kind = id.kind then id.index :: b.free id.kind else b.free kind := Function.update_apply ..

/-! ## Proper books -/

theorem Proper.of_slot (h : b.Proper) {b' : Books K}
    (hslot : ∀ id label count, b'.slot id = some (some (label, count)) →
      (∃ n, b.slot id = some (some (label, n))) ∨ label = id)
    (hkeys : (b'.keys.map Prod.fst).Nodup) : b'.Proper := by
  refine ⟨fun id label count hlive => ?_, hkeys⟩
  obtain ⟨n, hold⟩ | hlabel := hslot id label count hlive
  · exact h.labelled id label n hold
  · exact hlabel

theorem Proper.leak (h : b.Proper) (kind : AtlasTextureKind) : (b.leak kind).Proper :=
  ⟨h.labelled, h.nodup⟩

theorem Proper.openSlot (h : b.Proper) (id : AtlasTextureId) : (b.openSlot id).Proper := by
  refine h.of_slot (fun other label count hlive => ?_) h.nodup
  rw [slot_openSlot] at hlive
  split_ifs at hlive with hother
  · rw [hother]
    exact .inr (Prod.mk.inj (Option.some.inj (Option.some.inj hlive))).1.symm
  · exact .inl ⟨count, hlive⟩

theorem Proper.count (h : b.Proper) {label : AtlasTextureId} {n : ℕ}
    (hlive : b.slot id = some (some (label, n))) (n' : ℕ) : (b.count id label n').Proper := by
  refine h.of_slot (fun other label' count hlive' => ?_) h.nodup
  rw [slot_count] at hlive'
  split_ifs at hlive' with hother
  · obtain ⟨rfl, -⟩ := Prod.mk.inj (Option.some.inj (Option.some.inj hlive'))
    exact .inl ⟨n, by rw [hother, hlive]⟩
  · exact .inl ⟨count, hlive'⟩

theorem Proper.map (h : b.Proper) {key : K} (hkey : key ∉ b.keys.map Prod.fst)
    (id : AtlasTextureId) : (b.map key id).Proper :=
  ⟨h.labelled, List.nodup_cons.mpr ⟨hkey, h.nodup⟩⟩

theorem Proper.unmap [DecidableEq K] (h : b.Proper) (key : K) : (b.unmap key).Proper :=
  ⟨h.labelled, (List.filter_sublist.map Prod.fst).nodup h.nodup⟩

theorem Proper.release (h : b.Proper) (id : AtlasTextureId) : (b.release id).Proper := by
  refine h.of_slot (fun other label count hlive => ?_) h.nodup
  rw [slot_release] at hlive
  split_ifs at hlive with hother
  · cases hlive
  · exact .inl ⟨count, hlive⟩

/-! ## Balanced books -/

/-- No key is mapped into a slot without a texture. -/
theorem Balanced.keyCount_eq_zero (h : b.Balanced) (hslot : ∀ held, b.slot id ≠ some (some held)) :
    keyCount b.keys id = 0 := by
  rw [keyCount, List.countP_eq_zero]
  intro entry hentry hid
  obtain ⟨held, hlive⟩ := h.mapped entry hentry
  exact hslot held (of_decide_eq_true hid ▸ hlive)

theorem Balanced.slot_of_opens (h : b.Balanced) (hopens : b.Opens id) (held : AtlasTextureId × ℕ) :
    b.slot id ≠ some (some held) := by
  intro hlive
  obtain hhead | ⟨-, habsent⟩ := hopens
  · have hempty := (h.free id).mp (List.mem_of_mem_head? hhead)
    rw [hempty] at hlive
    cases hlive
  · rw [habsent] at hlive
    cases hlive

/-- The rest of the free slots, without the one that is taken. -/
theorem Balanced.mem_tail_iff (h : b.Balanced) (hopens : b.Opens id) (other : AtlasTextureId)
    (hkind : other.kind = id.kind) :
    other.index ∈ (b.free id.kind).tail ↔ other.index ∈ b.free other.kind ∧ other ≠ id := by
  have hnodup := h.freeNodup id.kind
  rw [hkind]
  have hsame : other ≠ id ↔ other.index ≠ id.index := by
    rw [ne_eq, AtlasTextureId.ext_iff, not_and]
    exact ⟨fun hne hindex => hne hindex hkind, fun hne hindex _ => hne hindex⟩
  rw [hsame]
  obtain hhead | ⟨hnil, -⟩ := hopens
  · obtain ⟨rest, hrest⟩ := List.head?_eq_some_iff.mp hhead
    rw [hrest] at hnodup ⊢
    have hnot := (List.nodup_cons.mp hnodup).1
    rw [List.tail_cons, List.mem_cons]
    constructor
    · intro hmem
      exact ⟨.inr hmem, fun heq => hnot (heq ▸ hmem)⟩
    · rintro ⟨heq | hmem, hne⟩
      · exact absurd heq hne
      · exact hmem
  · simp [hnil]

/-- A new texture keeps the balance. -/
theorem Balanced.openSlot (h : b.Balanced) (hopens : b.Opens id) : (b.openSlot id).Balanced where
  counted := by
    intro other label count hlive
    rw [slot_openSlot] at hlive
    split_ifs at hlive with hother
    · obtain ⟨-, rfl⟩ := Prod.mk.inj (Option.some.inj (Option.some.inj hlive))
      rw [hother]
      exact (h.keyCount_eq_zero (h.slot_of_opens hopens)).symm
    · exact h.counted other label count hlive
  mapped := by
    intro entry hentry
    obtain ⟨held, hlive⟩ := h.mapped entry hentry
    have hother : entry.2 ≠ id := fun heq => h.slot_of_opens hopens held (heq ▸ hlive)
    exact ⟨held, (Function.update_of_ne hother ..).trans hlive⟩
  free := by
    intro other
    rw [free_openSlot, slot_openSlot]
    split_ifs with hkind hother hother
    · simp [hother, h.mem_tail_iff hopens id rfl]
    · rw [h.mem_tail_iff hopens other hkind, h.free]
      simp [hother]
    · exact absurd (congrArg AtlasTextureId.kind hother) hkind
    · exact h.free other
  freeNodup := by
    intro kind
    rw [free_openSlot]
    split_ifs
    · exact (List.tail_sublist _).nodup (h.freeNodup _)
    · exact h.freeNodup kind

/-- The books lose the slot that is taken from the free ones. -/
theorem Balanced.leak_iff (h : b.Balanced) (kind : AtlasTextureKind) :
    (b.leak kind).Balanced ↔ b.free kind = [] := by
  constructor
  · intro hleak
    cases hfree : b.free kind with
    | nil => rfl
    | cons ix rest =>
      have hempty : b.slot ⟨ix, kind⟩ = some none := (h.free ⟨ix, kind⟩).mp (by simp [hfree])
      have hmem : ix ∈ (b.leak kind).free kind := (hleak.free ⟨ix, kind⟩).mpr hempty
      have htail : (b.leak kind).free kind = rest := by
        rw [leak, hfree]
        exact Function.update_self ..
      have hnodup := h.freeNodup kind
      rw [hfree] at hnodup
      rw [htail] at hmem
      exact absurd hmem (List.nodup_cons.mp hnodup).1
  · intro hnil
    have hsame : b.leak kind = b := by
      rw [leak, hnil, List.tail_nil, ← hnil, Function.update_eq_self]
    rwa [hsame]

/-- A new key is counted. -/
theorem Balanced.take (h : b.Balanced) {n : ℕ} (hlive : b.slot id = some (some (id, n)))
    (key : K) : ((b.count id id (n + 1)).map key id).Balanced where
  counted := by
    intro other label count hlive'
    have hn := h.counted id id n hlive
    change (b.count id id (n + 1)).slot other = some (some (label, count)) at hlive'
    rw [slot_count] at hlive'
    rw [map, keyCount, List.countP_cons]
    split_ifs at hlive' with hother
    · obtain ⟨-, rfl⟩ := Prod.mk.inj (Option.some.inj (Option.some.inj hlive'))
      simp [hother, hn, Books.count, keyCount]
    · have hcount := h.counted other label count hlive'
      simp [Ne.symm hother, hcount, Books.count, keyCount]
  mapped := by
    intro entry hentry
    by_cases hid : entry.2 = id
    · exact ⟨_, by rw [hid]; exact Function.update_self ..⟩
    · obtain rfl | hentry := List.mem_cons.mp hentry
      · exact absurd rfl hid
      · obtain ⟨held, hold⟩ := h.mapped entry hentry
        exact ⟨held, (Function.update_of_ne hid ..).trans hold⟩
  free := by
    intro other
    change other.index ∈ b.free other.kind ↔ (b.count id id (n + 1)).slot other = some none
    rw [slot_count]
    split_ifs with hother
    · simp [hother, h.free, hlive]
    · exact h.free other
  freeNodup := h.freeNodup

section Remove

variable [DecidableEq K] {key : K}

/-- A key that is forgotten is one less in its texture. -/
theorem keyCount_unmap (hproper : b.Proper) (hentry : (key, id) ∈ b.keys)
    (other : AtlasTextureId) :
    keyCount (b.unmap key).keys other + (if other = id then 1 else 0) =
      keyCount b.keys other := by
  obtain ⟨before, after, hsplit⟩ := List.append_of_mem hentry
  have hnodup := hproper.nodup
  rw [hsplit, List.map_append, List.map_cons, List.nodup_middle, List.nodup_cons] at hnodup
  have hothers : ∀ entry ∈ before ++ after, entry.1 ≠ key := by
    intro entry hmem heq
    have hfirst : entry.1 ∈ (before ++ after).map Prod.fst := List.mem_map_of_mem hmem
    rw [heq, List.map_append] at hfirst
    exact hnodup.1 hfirst
  have hunmap : (b.unmap key).keys = before ++ after := by
    rw [unmap, hsplit, List.filter_append, List.filter_cons_of_neg (by simp), ← List.filter_append]
    exact List.filter_eq_self.mpr fun entry hmem => decide_eq_true (hothers entry hmem)
  rw [hunmap, hsplit, keyCount, keyCount, List.countP_append, List.countP_append, List.countP_cons]
  simp only [eq_comm (a := id), decide_eq_true_eq]
  omega

theorem mem_unmap {entry : K × AtlasTextureId} (h : entry ∈ (b.unmap key).keys) :
    entry ∈ b.keys ∧ entry.1 ≠ key := by
  have hfilter := List.mem_filter.mp h
  exact ⟨hfilter.1, of_decide_eq_true hfilter.2⟩

/-- Another key of the texture is left. -/
theorem Balanced.drop (h : b.Balanced) (hproper : b.Proper) (hentry : (key, id) ∈ b.keys) {n : ℕ}
    (hlive : b.slot id = some (some (id, n))) : ((b.unmap key).count id id (n - 1)).Balanced where
  counted := by
    intro other label count hlive'
    have hcount := keyCount_unmap hproper hentry other
    change count = keyCount (b.unmap key).keys other
    rw [slot_count] at hlive'
    split_ifs at hlive' hcount with hother
    · obtain ⟨-, rfl⟩ := Prod.mk.inj (Option.some.inj (Option.some.inj hlive'))
      have hn := h.counted id id n hlive
      subst hother
      omega
    · have hold := h.counted other label count hlive'
      omega
  mapped := by
    intro entry hmem
    by_cases hid : entry.2 = id
    · exact ⟨_, by rw [hid]; exact Function.update_self ..⟩
    · obtain ⟨held, hold⟩ := h.mapped entry (mem_unmap hmem).1
      exact ⟨held, (Function.update_of_ne hid ..).trans hold⟩
  free := by
    intro other
    rw [slot_count]
    split_ifs with hother
    · have hfree := h.free other
      rw [hother, hlive] at hfree
      rw [hother]
      exact hfree.trans (by simp)
    · exact h.free other
  freeNodup := h.freeNodup

/-- The last key of the texture is gone, and the texture with it. -/
theorem Balanced.release (h : b.Balanced) (hproper : b.Proper) (hentry : (key, id) ∈ b.keys)
    (hlive : b.slot id = some (some (id, 1))) : ((b.unmap key).release id).Balanced where
  counted := by
    intro other label count hlive'
    have hcount := keyCount_unmap hproper hentry other
    change count = keyCount (b.unmap key).keys other
    rw [slot_release] at hlive'
    split_ifs at hlive' hcount with hother
    · cases hlive'
    · have hold := h.counted other label count hlive'
      omega
  mapped := by
    intro entry hmem
    have hid : entry.2 ≠ id := by
      -- The texture counts no key any more.
      intro hid
      have hcount := keyCount_unmap hproper hentry id
      have hone := h.counted id id 1 hlive
      have hpos : 0 < keyCount (b.unmap key).keys id :=
        List.countP_pos_iff.mpr ⟨entry, hmem, decide_eq_true hid⟩
      rw [if_pos rfl] at hcount
      omega
    obtain ⟨held, hold⟩ := h.mapped entry (mem_unmap hmem).1
    exact ⟨held, (Function.update_of_ne hid ..).trans hold⟩
  free := by
    intro other
    rw [free_release, slot_release]
    split_ifs with hkind hother hother
    · simp [hother]
    · have hindex : other.index ≠ id.index := fun heq => hother (AtlasTextureId.ext heq hkind)
      have hfree := h.free other
      rw [hkind] at hfree
      rw [List.mem_cons, or_iff_right hindex]
      exact hfree
    · exact absurd (congrArg AtlasTextureId.kind hother) hkind
    · exact h.free other
  freeNodup := by
    intro kind
    rw [free_release]
    split_ifs with hkind
    · refine List.nodup_cons.mpr ⟨fun hmem => ?_, h.freeNodup _⟩
      have hempty := (h.free id).mp hmem
      rw [hlive] at hempty
      cases hempty
    · exact h.freeNodup kind

end Remove

end Books

end Lucie.Atlas
