import Mathlib
import Lucie.App.Effects
import Lucie.Foundation.Run

/-!
# Groups of window tabs

The controller mirrors the native tab groups: each group is a list of tabs under an
integer key. A tab is found by searching all of the groups, so the operations rely on a
tab being in one group only.
-/

set_option autoImplicit false

namespace Lucie

open Foundation

/-- `AnyWindowHandle`. -/
structure AnyWindowHandle where
  id : WindowId
  stateType : ℕ
  deriving DecidableEq

/-- `SystemWindowTab`. -/
structure SystemWindowTab where
  id : WindowId
  title : String
  handle : AnyWindowHandle
  lastActiveAt : ℕ
  deriving DecidableEq

/-- `SystemWindowTab::new`. -/
def SystemWindowTab.new (title : String) (handle : AnyWindowHandle) (now : ℕ) :
    SystemWindowTab :=
  ⟨handle.id, title, handle, now⟩

/-- A key and the tabs stored under it. -/
abbrev TabGroup := ℕ × List SystemWindowTab

/-- The windows of the tabs of a group. -/
def TabGroup.ids (group : TabGroup) : List WindowId := group.2.map SystemWindowTab.id

/-- `SystemWindowTabController`. The entries of the hash map `tab_groups` are listed in the
order of its next iteration. -/
structure SystemWindowTabController where
  tabGroups : List TabGroup
  deriving DecidableEq

namespace SystemWindowTabController

/-- `SystemWindowTabController::new`. -/
def new : SystemWindowTabController := ⟨[]⟩

/-- `HashMap::insert` of the groups. -/
def insert (c : SystemWindowTabController) (key : ℕ) (tabs : List SystemWindowTab) :
    SystemWindowTabController :=
  ⟨(key, tabs) :: c.tabGroups.filter (·.1 ≠ key)⟩

/-- `SystemWindowTabController::tabs`. -/
def tabs (c : SystemWindowTabController) (id : WindowId) : Option (List SystemWindowTab) :=
  (c.tabGroups.find? fun group => group.2.any (·.id = id)).map Prod.snd

/-- The windows that a group must have for the tab of `id` to join it, sorted. -/
def expectedTabIds (id : WindowId) (tabs : List SystemWindowTab) : List WindowId :=
  ((tabs.filter (·.id ≠ id)).map SystemWindowTab.id).insertionSort (· ≤ ·)

/-- The first group with the expected windows. -/
def expectedGroup (c : SystemWindowTabController) (id : WindowId)
    (tabs : List SystemWindowTab) : Option TabGroup :=
  c.tabGroups.find? fun group => group.ids.insertionSort (· ≤ ·) = expectedTabIds id tabs

/-- `Vec::push` on the group under a key. -/
def pushTab (key : ℕ) (tab : SystemWindowTab) (group : TabGroup) : TabGroup :=
  if group.1 = key then (group.1, group.2 ++ [tab]) else group

/-- `SystemWindowTabController::add_tab`. -/
def addTab (c : SystemWindowTabController) (id : WindowId) (tabs : List SystemWindowTab) :
    SystemWindowTabController :=
  match tabs.find? (·.id = id) with
  | none => c
  | some tab =>
    match c.expectedGroup id tabs with
    | some (key, _) => ⟨c.tabGroups.map (pushTab key tab)⟩
    | none => c.insert c.tabGroups.length tabs

/-- `SystemWindowTabController::remove_tab`. -/
def removeTab (c : SystemWindowTabController) (id : WindowId) :
    Option SystemWindowTab × SystemWindowTabController :=
  ((c.tabGroups.filterMap fun group => group.2.find? (·.id = id)).getLast?,
    ⟨c.tabGroups.filterMap fun group =>
      let tabs := group.2.eraseP (·.id = id)
      if tabs.isEmpty then none else some (group.1, tabs)⟩)

/-- `SystemWindowTabController::move_tab_to_new_window`. -/
def moveTabToNewWindow (c : SystemWindowTabController) (id : WindowId) :
    SystemWindowTabController :=
  match c.removeTab id with
  | (none, c) => c
  | (some tab, c) => c.insert (((c.tabGroups.map Prod.fst).max?.map (· + 1)).getD 0) [tab]

/-- `SystemWindowTabController::merge_all_windows`. -/
def mergeAllWindows (c : SystemWindowTabController) (id : WindowId) :
    SystemWindowTabController :=
  match c.tabs id with
  | none => c
  | some initialTabs =>
    ⟨[(0, initialTabs ++
      c.tabGroups.flatMap fun group => group.2.filter fun tab => !initialTabs.contains tab)]⟩

/-- `SystemWindowTabController::update_tab_position`, in the first group that has the tab. -/
def moveWithin (id : WindowId) (ix : ℕ) : List TabGroup → List TabGroup
  | [] => []
  | (key, tabs) :: groups =>
    match tabs.findIdx? (·.id = id) with
    | none => (key, tabs) :: moveWithin id ix groups
    | some currentPos =>
      match tabs[currentPos]? with
      | some tab =>
        if ix < tabs.length ∧ currentPos ≠ ix then
          (key, (tabs.eraseIdx currentPos).insertIdx ix tab) :: groups
        else (key, tabs) :: groups
      | none => (key, tabs) :: groups

/-- `SystemWindowTabController::update_tab_position`. -/
def updateTabPosition (c : SystemWindowTabController) (id : WindowId) (ix : ℕ) :
    SystemWindowTabController :=
  ⟨moveWithin id ix c.tabGroups⟩

end SystemWindowTabController

/-- The operations on tab groups. -/
inductive TabAction
  | addTab (id : WindowId) (tabs : List SystemWindowTab)
  | removeTab (id : WindowId)
  | moveTabToNewWindow (id : WindowId)
  | mergeAllWindows (id : WindowId)
  | updateTabPosition (id : WindowId) (ix : ℕ)
  /-- The hash map is iterated in another order from now on. -/
  | reorder (groups : List TabGroup)
  deriving DecidableEq

namespace TabAction

/-- The window whose tab is operated on. -/
def window : TabAction → Option WindowId
  | .addTab id _ | .removeTab id | .moveTabToNewWindow id | .mergeAllWindows id
  | .updateTabPosition id _ => some id
  | .reorder _ => none

/-- The tabs that were added and not removed, after another operation. A tab is added with
the tabs that the platform lists beside it. -/
def present (live : Finset WindowId) : TabAction → Finset WindowId
  | .addTab id tabs =>
    if id ∈ tabs.map SystemWindowTab.id then live ∪ (tabs.map SystemWindowTab.id).toFinset
    else live
  | .removeTab id => live.erase id
  | _ => live

end TabAction

/-- The tabs that were added and not removed since. -/
def presentTabs (actions : List TabAction) : Finset WindowId :=
  actions.foldl TabAction.present ∅

namespace SystemWindowTabController

/-- One operation. A hash map has its entries in any order. -/
def step (c : SystemWindowTabController) : TabAction → Option SystemWindowTabController
  | .addTab id tabs => some (c.addTab id tabs)
  | .removeTab id => some (c.removeTab id).2
  | .moveTabToNewWindow id => some (c.moveTabToNewWindow id)
  | .mergeAllWindows id => some (c.mergeAllWindows id)
  | .updateTabPosition id ix => some (c.updateTabPosition id ix)
  | .reorder groups => if groups.Perm c.tabGroups then some ⟨groups⟩ else none

/-- The number of groups that have the tab. -/
def groupCount (c : SystemWindowTabController) (id : WindowId) : ℕ :=
  c.tabGroups.countP fun group => id ∈ group.ids

/-- Each of the tabs is in exactly one group, and no group has a tab twice. -/
structure Grouped (live : Finset WindowId) (c : SystemWindowTabController) : Prop where
  once : ∀ id ∈ live, c.groupCount id = 1
  nodup : ∀ group ∈ c.tabGroups, group.ids.Nodup

/-- Every other tab that is in some group stays in some group. -/
def KeepsOthers (c : SystemWindowTabController) (a : TabAction)
    (c' : SystemWindowTabController) : Prop :=
  ∀ id, a.window ≠ some id → 0 < c.groupCount id → 0 < c'.groupCount id

/-- An added tab is new when it joins a group. When it starts one, the listed tabs are
distinct, no group has any of them, and the key that is the number of groups is free;
a group under this key may only have listed tabs. -/
def Accepts (c : SystemWindowTabController) : TabAction → Prop
  | .addTab id tabs => id ∈ tabs.map SystemWindowTab.id →
    if (c.expectedGroup id tabs).isSome then ∀ group ∈ c.tabGroups, id ∉ group.ids
    else (tabs.map SystemWindowTab.id).Nodup ∧ ∀ group ∈ c.tabGroups,
      if group.1 = c.tabGroups.length then ∀ id ∈ group.ids, id ∈ tabs.map SystemWindowTab.id
      else ∀ id ∈ group.ids, id ∉ tabs.map SystemWindowTab.id
  | _ => True

instance (c : SystemWindowTabController) (a : TabAction) : Decidable (c.Accepts a) :=
  match a with
  | .addTab id tabs => inferInstanceAs (Decidable (id ∈ tabs.map SystemWindowTab.id →
    if (c.expectedGroup id tabs).isSome then ∀ group ∈ c.tabGroups, id ∉ group.ids
    else (tabs.map SystemWindowTab.id).Nodup ∧ ∀ group ∈ c.tabGroups,
      if group.1 = c.tabGroups.length then ∀ id ∈ group.ids, id ∈ tabs.map SystemWindowTab.id
      else ∀ id ∈ group.ids, id ∉ tabs.map SystemWindowTab.id))
  | .removeTab _ | .moveTabToNewWindow _ | .mergeAllWindows _ | .updateTabPosition _ _
  | .reorder _ => inferInstanceAs (Decidable True)

/-- The groups divide up the tabs, under distinct keys. -/
structure Partitioned (live : Finset WindowId) (c : SystemWindowTabController) : Prop where
  count : ∀ id, c.groupCount id = if id ∈ live then 1 else 0
  nodup : ∀ group ∈ c.tabGroups, group.ids.Nodup
  keys : (c.tabGroups.map Prod.fst).Nodup

theorem Partitioned.grouped {live : Finset WindowId} {c : SystemWindowTabController}
    (h : Partitioned live c) : Grouped live c :=
  ⟨fun id hid => by rw [h.count, if_pos hid], h.nodup⟩

theorem groupCount_eq_zero {c : SystemWindowTabController} {id : WindowId} :
    c.groupCount id = 0 ↔ ∀ group ∈ c.tabGroups, id ∉ group.ids := by
  simp [groupCount, List.countP_eq_zero]

theorem groupCount_pos {c : SystemWindowTabController} {id : WindowId} :
    0 < c.groupCount id ↔ ∃ group ∈ c.tabGroups, id ∈ group.ids := by
  simp [groupCount, List.countP_pos_iff]

theorem groupCount_insert (c : SystemWindowTabController) (key : ℕ)
    (tabs : List SystemWindowTab) (id : WindowId) :
    (c.insert key tabs).groupCount id =
      (c.tabGroups.filter (·.1 ≠ key)).countP (fun group => id ∈ group.ids) +
        if id ∈ tabs.map SystemWindowTab.id then 1 else 0 := by
  simp [groupCount, insert, List.countP_cons, TabGroup.ids]

theorem keys_insert {c : SystemWindowTabController} (key : ℕ) (tabs : List SystemWindowTab)
    (h : (c.tabGroups.map Prod.fst).Nodup) :
    ((c.insert key tabs).tabGroups.map Prod.fst).Nodup := by
  simp only [insert, List.map_cons, List.nodup_cons]
  constructor
  · simp
  · exact h.sublist (List.filter_sublist.map _)

/-- A group under a fresh key. -/
theorem Partitioned.insert {live : Finset WindowId} {c : SystemWindowTabController} {key : ℕ}
    {tabs : List SystemWindowTab} (h : Partitioned live c)
    (hkey : key ∉ c.tabGroups.map Prod.fst) (hnodup : (tabs.map SystemWindowTab.id).Nodup)
    (hnew : ∀ id ∈ tabs.map SystemWindowTab.id, id ∉ live) :
    Partitioned (live ∪ (tabs.map SystemWindowTab.id).toFinset) (c.insert key tabs) := by
  have hfilter : c.tabGroups.filter (·.1 ≠ key) = c.tabGroups := by
    apply List.filter_eq_self.mpr
    intro group hgroup
    have hne : group.1 ≠ key := fun heq => hkey (heq ▸ List.mem_map_of_mem hgroup)
    simpa using hne
  constructor
  · intro id
    rw [groupCount_insert, hfilter, ← groupCount, h.count]
    by_cases hid : id ∈ tabs.map SystemWindowTab.id
    · have hmem : id ∈ live ∪ (tabs.map SystemWindowTab.id).toFinset :=
        Finset.mem_union_right _ (List.mem_toFinset.mpr hid)
      rw [if_neg (hnew id hid), if_pos hid, if_pos hmem]
    · have hiff : id ∈ live ∪ (tabs.map SystemWindowTab.id).toFinset ↔ id ∈ live := by
        rw [Finset.mem_union, List.mem_toFinset, or_iff_left hid]
      rw [if_neg hid, Nat.add_zero]
      simp only [hiff]
  · intro group hgroup
    obtain rfl | hgroup := List.mem_cons.mp hgroup
    · exact hnodup
    · exact h.nodup group (List.mem_of_mem_filter hgroup)
  · exact keys_insert key tabs h.keys

/-- What is left of a group when a tab is removed. -/
def leaves (id : WindowId) (group : TabGroup) : Option TabGroup :=
  let tabs := group.2.eraseP (·.id = id)
  if tabs.isEmpty then none else some (group.1, tabs)

theorem ids_eraseP (id : WindowId) (tabs : List SystemWindowTab) :
    (tabs.eraseP (·.id = id)).map SystemWindowTab.id = (tabs.map SystemWindowTab.id).erase id := by
  rw [List.erase_eq_eraseP', List.eraseP_map]
  congr 1

theorem ids_of_leaves {id : WindowId} {group left : TabGroup} (h : leaves id group = some left) :
    left.ids = group.ids.erase id ∧ left.1 = group.1 := by
  simp only [leaves] at h
  split_ifs at h
  obtain rfl := Option.some.inj h
  exact ⟨ids_eraseP id group.2, rfl⟩

theorem ids_of_leaves_none {id : WindowId} {group : TabGroup} (h : leaves id group = none) :
    group.ids.erase id = [] := by
  simp only [leaves] at h
  split_ifs at h with hempty
  rw [TabGroup.ids, ← ids_eraseP, List.isEmpty_iff.mp hempty]
  rfl

theorem keys_leaves (id : WindowId) (groups : List TabGroup) :
    ((groups.filterMap (leaves id)).map Prod.fst).Sublist (groups.map Prod.fst) := by
  induction groups with
  | nil => exact List.Sublist.refl _
  | cons group groups ih =>
    cases hleaves : leaves id group with
    | none =>
      rw [List.filterMap_cons_none hleaves]
      exact ih.cons group.1
    | some left =>
      rw [List.filterMap_cons_some hleaves, List.map_cons, (ids_of_leaves hleaves).2]
      exact ih.cons_cons group.1

theorem Partitioned.removeTab {live : Finset WindowId} {c : SystemWindowTabController}
    (h : Partitioned live c) (id : WindowId) :
    Partitioned (live.erase id) (c.removeTab id).2 := by
  have hgroups : (c.removeTab id).2.tabGroups = c.tabGroups.filterMap (leaves id) := rfl
  constructor
  · intro other
    have hcount : (c.removeTab id).2.groupCount other =
        c.tabGroups.countP fun group => other ∈ group.ids.erase id := by
      rw [groupCount, hgroups, List.countP_filterMap]
      congr 1
      funext group
      cases hleaves : leaves id group with
      | none => simp [ids_of_leaves_none hleaves]
      | some left => simp [(ids_of_leaves hleaves).1]
    rw [hcount]
    by_cases heq : other = id
    · subst heq
      rw [if_neg (Finset.notMem_erase other live)]
      apply List.countP_eq_zero.mpr
      intro group hgroup
      simpa using (h.nodup group hgroup).not_mem_erase
    · have hiff : other ∈ live.erase id ↔ other ∈ live := by simp [heq]
      simp only [hiff, ← h.count other, groupCount]
      apply List.countP_congr
      intro group _
      simp [List.mem_erase_of_ne heq]
  · intro left hleft
    obtain ⟨group, hgroup, hleaves⟩ := List.mem_filterMap.mp (hgroups ▸ hleft)
    rw [(ids_of_leaves hleaves).1]
    exact (h.nodup group hgroup).erase id
  · rw [hgroups]
    exact h.keys.sublist (keys_leaves id c.tabGroups)

/-- The removed tab is the one of the window, if some group has it. -/
theorem removeTab_fst (c : SystemWindowTabController) (id : WindowId) :
    match (c.removeTab id).1 with
    | some tab => tab.id = id ∧ 0 < c.groupCount id
    | none => c.groupCount id = 0 := by
  cases hremoved : (c.removeTab id).1 with
  | some tab =>
    obtain ⟨group, hgroup, hfind⟩ := List.mem_filterMap.mp (List.mem_of_getLast? hremoved)
    have hid : tab.id = id := by simpa using List.find?_some hfind
    refine ⟨hid, groupCount_pos.mpr ⟨group, hgroup, ?_⟩⟩
    exact hid ▸ List.mem_map_of_mem (List.mem_of_find?_eq_some hfind)
  | none =>
    rw [groupCount_eq_zero]
    intro group hgroup hmem
    obtain ⟨tab, htab, rfl⟩ := List.mem_map.mp hmem
    have hnil := List.getLast?_eq_none_iff.mp hremoved
    have hfind := List.filterMap_eq_nil_iff.mp hnil group hgroup
    have hne := List.find?_eq_none.mp hfind tab htab
    simp at hne

/-- The key above all keys in use is fresh. -/
theorem nextKey_notMem (keys : List ℕ) : (keys.max?.map (· + 1)).getD 0 ∉ keys := by
  intro hmem
  cases hmax : keys.max? with
  | none =>
    rw [List.max?_eq_none_iff.mp hmax] at hmem
    exact List.not_mem_nil hmem
  | some m =>
    have hle := (List.max?_eq_some_iff.mp hmax).2 _ hmem
    rw [hmax] at hle
    simp only [Option.map_some, Option.getD_some] at hle
    omega

theorem Partitioned.moveTabToNewWindow {live : Finset WindowId} {c : SystemWindowTabController}
    (h : Partitioned live c) (id : WindowId) : Partitioned live (c.moveTabToNewWindow id) := by
  have hremoved := h.removeTab id
  have hfst := removeTab_fst c id
  unfold SystemWindowTabController.moveTabToNewWindow
  rcases hpair : c.removeTab id with ⟨removed, left⟩
  rw [hpair] at hremoved hfst
  cases removed with
  | none =>
    have hnot : id ∉ live := by
      intro hid
      simp [h.count, hid] at hfst
    rwa [Finset.erase_eq_of_notMem hnot] at hremoved
  | some tab =>
    obtain ⟨rfl, hpos⟩ := hfst
    have hid : tab.id ∈ live := by
      by_contra hnot
      rw [h.count, if_neg hnot] at hpos
      omega
    have hinsert := @Partitioned.insert _ _ _ [tab] hremoved (nextKey_notMem _) (by simp) (by simp)
    simpa [Finset.insert_erase hid] using hinsert

theorem eq_of_groupCount_le_one {c : SystemWindowTabController} {group group' : TabGroup}
    {id : WindowId} (hle : c.groupCount id ≤ 1) (hgroup : group ∈ c.tabGroups)
    (hgroup' : group' ∈ c.tabGroups) (hid : id ∈ group.ids) (hid' : id ∈ group'.ids) :
    group = group' := by
  rw [groupCount, List.countP_eq_length_filter] at hle
  have hmem : group ∈ c.tabGroups.filter (fun group => id ∈ group.ids) := by simp [hgroup, hid]
  have hmem' : group' ∈ c.tabGroups.filter (fun group => id ∈ group.ids) := by
    simp [hgroup', hid']
  generalize c.tabGroups.filter (fun group => id ∈ group.ids) = groups at hle hmem hmem'
  match groups with
  | [] => simp at hmem
  | [only] => rw [List.mem_singleton.mp hmem, List.mem_singleton.mp hmem']
  | _ :: _ :: _ => simp at hle

/-- A tab is in one group only. -/
theorem Partitioned.unique {live : Finset WindowId} {c : SystemWindowTabController}
    (h : Partitioned live c) {group group' : TabGroup} {id : WindowId}
    (hgroup : group ∈ c.tabGroups) (hgroup' : group' ∈ c.tabGroups) (hid : id ∈ group.ids)
    (hid' : id ∈ group'.ids) : group = group' := by
  apply eq_of_groupCount_le_one ?_ hgroup hgroup' hid hid'
  rw [h.count]
  split_ifs <;> omega

theorem Partitioned.mem_iff {live : Finset WindowId} {c : SystemWindowTabController}
    (h : Partitioned live c) (id : WindowId) :
    id ∈ live ↔ ∃ group ∈ c.tabGroups, id ∈ group.ids := by
  rw [← groupCount_pos, h.count]
  split_ifs with hid <;> simp [hid]

theorem Partitioned.mergeAllWindows {live : Finset WindowId} {c : SystemWindowTabController}
    (h : Partitioned live c) (id : WindowId) : Partitioned live (c.mergeAllWindows id) := by
  unfold SystemWindowTabController.mergeAllWindows
  cases htabs : c.tabs id with
  | none => exact h
  | some initialTabs =>
    obtain ⟨initial, hfind, rfl⟩ := Option.map_eq_some_iff.mp htabs
    have hinitial := List.mem_of_find?_eq_some hfind
    set others := c.tabGroups.flatMap fun group =>
      group.2.filter fun tab => !initial.2.contains tab with hothers
    have hmem : ∀ tab, tab ∈ others ↔
        tab ∉ initial.2 ∧ ∃ group ∈ c.tabGroups, tab ∈ group.2 := by
      intro tab
      simp only [hothers, List.mem_flatMap, List.mem_filter]
      simp only [Bool.not_eq_true', List.contains_eq_mem, decide_eq_false_iff_not]
      tauto
    have hfresh : ∀ tab ∈ others, tab.id ∉ TabGroup.ids initial := by
      intro tab htab hid
      obtain ⟨hnot, group, hgroup, htab⟩ := (hmem tab).mp htab
      have heq := h.unique hgroup hinitial (List.mem_map_of_mem htab) hid
      exact hnot (heq ▸ htab)
    have hids : ∀ x, x ∈ (initial.2 ++ others).map SystemWindowTab.id ↔ x ∈ live := by
      intro x
      rw [h.mem_iff, List.map_append, List.mem_append]
      constructor
      · rintro (hx | hx)
        · exact ⟨initial, hinitial, hx⟩
        · obtain ⟨tab, htab, rfl⟩ := List.mem_map.mp hx
          obtain ⟨_, group, hgroup, htab⟩ := (hmem tab).mp htab
          exact ⟨group, hgroup, List.mem_map_of_mem htab⟩
      · rintro ⟨group, hgroup, hx⟩
        obtain ⟨tab, htab, rfl⟩ := List.mem_map.mp hx
        by_cases hold : tab ∈ initial.2
        · exact Or.inl (List.mem_map_of_mem hold)
        · exact Or.inr (List.mem_map_of_mem ((hmem tab).mpr ⟨hold, group, hgroup, htab⟩))
    have hnodup : (others.map SystemWindowTab.id).Nodup := by
      rw [hothers, List.map_flatMap, List.nodup_flatMap]
      constructor
      · intro group hgroup
        exact (h.nodup group hgroup).sublist (List.filter_sublist.map _)
      · apply h.keys.of_map.imp_of_mem
        intro group group' hgroup hgroup' hne x hx hx'
        apply hne
        apply h.unique hgroup hgroup'
        · exact (List.filter_sublist.map _).subset hx
        · exact (List.filter_sublist.map _).subset hx'
    refine ⟨?_, ?_, by simp⟩
    · intro x
      have hiff : x ∈ TabGroup.ids (0, initial.2 ++ others) ↔ x ∈ live := hids x
      rw [groupCount, List.countP_singleton]
      simp only [← hothers, decide_eq_true_eq, hiff]
    · intro group hgroup
      obtain rfl := List.mem_singleton.mp hgroup
      rw [TabGroup.ids, List.map_append, List.nodup_append']
      refine ⟨h.nodup initial hinitial, hnodup, ?_⟩
      intro x hx hx'
      obtain ⟨tab, htab, rfl⟩ := List.mem_map.mp hx'
      exact hfresh tab htab hx

/-- The tabs of a group are in another order. -/
def Rearranged (group group' : TabGroup) : Prop := group'.1 = group.1 ∧ group'.2.Perm group.2

theorem rearranged_refl (groups : List TabGroup) : List.Forall₂ Rearranged groups groups :=
  List.forall₂_same.mpr fun _ _ => ⟨rfl, List.Perm.refl _⟩

theorem rearranged_moveWithin (id : WindowId) (ix : ℕ) (groups : List TabGroup) :
    List.Forall₂ Rearranged groups (moveWithin id ix groups) := by
  induction groups with
  | nil => exact .nil
  | cons group groups ih =>
    obtain ⟨key, tabs⟩ := group
    unfold moveWithin
    cases hpos : tabs.findIdx? (·.id = id) with
    | none => exact .cons ⟨rfl, List.Perm.refl _⟩ ih
    | some currentPos =>
      dsimp only
      cases htab : tabs[currentPos]? with
      | none => exact rearranged_refl _
      | some tab =>
        obtain ⟨hlt, rfl⟩ := List.getElem?_eq_some_iff.mp htab
        dsimp only
        split_ifs with hmove
        · refine .cons ⟨rfl, ?_⟩ (rearranged_refl groups)
          have hlength : ix ≤ (tabs.eraseIdx currentPos).length := by
            rw [List.length_eraseIdx_of_lt hlt]
            omega
          exact (List.perm_insertIdx _ _ hlength).trans (List.getElem_cons_eraseIdx_perm hlt)
        · exact rearranged_refl _

theorem Rearranged.ids {group group' : TabGroup} (h : Rearranged group group') :
    group'.ids.Perm group.ids :=
  h.2.map SystemWindowTab.id

theorem countP_rearranged {groups groups' : List TabGroup}
    (h : List.Forall₂ Rearranged groups groups') (id : WindowId) :
    groups'.countP (fun group => id ∈ group.ids) = groups.countP fun group => id ∈ group.ids := by
  induction h with
  | nil => rfl
  | cons hgroup _ ih => simp only [List.countP_cons, ih, hgroup.ids.mem_iff]

theorem keys_rearranged {groups groups' : List TabGroup}
    (h : List.Forall₂ Rearranged groups groups') :
    groups'.map Prod.fst = groups.map Prod.fst := by
  induction h with
  | nil => rfl
  | cons hgroup _ ih => rw [List.map_cons, List.map_cons, ih, hgroup.1]

theorem nodup_rearranged {groups groups' : List TabGroup}
    (h : List.Forall₂ Rearranged groups groups') (hnodup : ∀ group ∈ groups, group.ids.Nodup) :
    ∀ group ∈ groups', group.ids.Nodup := by
  induction h with
  | nil => simp
  | cons hgroup _ ih =>
    simp only [List.forall_mem_cons] at hnodup ⊢
    exact ⟨hgroup.ids.nodup_iff.mpr hnodup.1, ih hnodup.2⟩

theorem Partitioned.updateTabPosition {live : Finset WindowId} {c : SystemWindowTabController}
    (h : Partitioned live c) (id : WindowId) (ix : ℕ) :
    Partitioned live (c.updateTabPosition id ix) := by
  have hgroups := rearranged_moveWithin id ix c.tabGroups
  constructor
  · intro other
    rw [← h.count]
    exact countP_rearranged hgroups other
  · exact nodup_rearranged hgroups h.nodup
  · exact (keys_rearranged hgroups).symm ▸ h.keys

/-- The groups are listed in another order. -/
theorem Partitioned.reorder {live : Finset WindowId} {c : SystemWindowTabController}
    (h : Partitioned live c) {groups : List TabGroup} (hperm : groups.Perm c.tabGroups) :
    Partitioned live ⟨groups⟩ := by
  constructor
  · intro id
    rw [← h.count]
    exact hperm.countP_eq _
  · exact fun group hgroup => h.nodup group (hperm.subset hgroup)
  · exact (hperm.map Prod.fst).nodup_iff.mpr h.keys

theorem ids_pushTab (key : ℕ) (tab : SystemWindowTab) (group : TabGroup) :
    (pushTab key tab group).ids =
      if group.1 = key then group.ids ++ [tab.id] else group.ids := by
  unfold pushTab
  split_ifs <;> simp [TabGroup.ids]

theorem fst_pushTab (key : ℕ) (tab : SystemWindowTab) (group : TabGroup) :
    (pushTab key tab group).1 = group.1 := by
  unfold pushTab
  split_ifs <;> rfl

/-- A new tab at the end of a group. -/
theorem Partitioned.push {live : Finset WindowId} {c : SystemWindowTabController}
    (h : Partitioned live c) {key : ℕ} {tab : SystemWindowTab}
    (hkey : key ∈ c.tabGroups.map Prod.fst) (hnew : tab.id ∉ live) :
    Partitioned (Insert.insert tab.id live) ⟨c.tabGroups.map (pushTab key tab)⟩ := by
  have habsent : ∀ group ∈ c.tabGroups, tab.id ∉ group.ids := by
    apply groupCount_eq_zero.mp
    rw [h.count, if_neg hnew]
  constructor
  · intro id
    rw [groupCount, List.countP_map]
    by_cases heq : id = tab.id
    · subst heq
      rw [if_pos (Finset.mem_insert_self _ _), ← List.count_eq_one_of_mem h.keys hkey,
        List.count, List.countP_map]
      apply List.countP_congr
      intro group hgroup
      have hnot := habsent group hgroup
      by_cases hgroup : group.1 = key <;> simp [ids_pushTab, hgroup, hnot]
    · have hiff : id ∈ Insert.insert tab.id live ↔ id ∈ live := by simp [heq]
      simp only [hiff, ← h.count id, groupCount]
      apply List.countP_congr
      intro group _
      by_cases hgroup : group.1 = key <;> simp [ids_pushTab, hgroup, heq]
  · intro group' hgroup'
    obtain ⟨group, hgroup, rfl⟩ := List.mem_map.mp hgroup'
    have hnot := habsent group hgroup
    rw [ids_pushTab]
    split_ifs
    · rw [List.nodup_append']
      exact ⟨h.nodup group hgroup, List.nodup_singleton _, by simpa using hnot⟩
    · exact h.nodup group hgroup
  · rw [List.map_map]
    have hcomp : Prod.fst ∘ pushTab key tab = Prod.fst := funext (fst_pushTab key tab)
    rw [hcomp]
    exact h.keys

/-- The group that a tab joins has the other listed tabs. -/
theorem mem_expectedGroup {c : SystemWindowTabController} {id : WindowId}
    {tabs : List SystemWindowTab} {group : TabGroup} (h : c.expectedGroup id tabs = some group) :
    group ∈ c.tabGroups ∧
      ∀ x, x ∈ group.ids ↔ x ≠ id ∧ x ∈ tabs.map SystemWindowTab.id := by
  refine ⟨List.mem_of_find?_eq_some h, ?_⟩
  have hsorted : group.ids.insertionSort (· ≤ ·) = expectedTabIds id tabs := by
    simpa using List.find?_some h
  intro x
  rw [← (List.perm_insertionSort (· ≤ ·) group.ids).mem_iff, hsorted, expectedTabIds,
    (List.perm_insertionSort (· ≤ ·) _).mem_iff]
  simp only [List.mem_map, List.mem_filter, decide_eq_true_eq]
  constructor
  · rintro ⟨tab, ⟨htab, hne⟩, rfl⟩
    exact ⟨hne, tab, htab, rfl⟩
  · rintro ⟨hne, tab, htab, rfl⟩
    exact ⟨tab, ⟨htab, hne⟩, rfl⟩

/-- What `add_tab` does when the tab of the window is listed. -/
theorem addTab_eq {c : SystemWindowTabController} {id : WindowId} {tabs : List SystemWindowTab}
    (hid : id ∈ tabs.map SystemWindowTab.id) : ∃ tab, tab.id = id ∧ c.addTab id tabs =
      match c.expectedGroup id tabs with
      | some (key, _) => ⟨c.tabGroups.map (pushTab key tab)⟩
      | none => c.insert c.tabGroups.length tabs := by
  obtain ⟨tab, htab, hid⟩ := List.mem_map.mp hid
  cases hfind : tabs.find? (·.id = id) with
  | none =>
    have hne := List.find?_eq_none.mp hfind tab htab
    simp [hid] at hne
  | some tab =>
    refine ⟨tab, by simpa using List.find?_some hfind, ?_⟩
    rw [addTab, hfind]

theorem addTab_of_not_mem {c : SystemWindowTabController} {id : WindowId}
    {tabs : List SystemWindowTab} (hid : id ∉ tabs.map SystemWindowTab.id) :
    c.addTab id tabs = c := by
  have hfind : tabs.find? (·.id = id) = none := by
    apply List.find?_eq_none.mpr
    intro tab htab heq
    exact hid (List.mem_map.mpr ⟨tab, htab, by simpa using heq⟩)
  rw [addTab, hfind]

theorem Partitioned.addTab {live : Finset WindowId} {c : SystemWindowTabController}
    (h : Partitioned live c) {id : WindowId} {tabs : List SystemWindowTab}
    (haccepts : c.Accepts (.addTab id tabs)) :
    Partitioned (TabAction.present live (.addTab id tabs)) (c.addTab id tabs) := by
  simp only [TabAction.present]
  split_ifs with hid
  swap
  · rwa [addTab_of_not_mem hid]
  obtain ⟨tab, rfl, hadd⟩ := addTab_eq (c := c) hid
  have haccepts := haccepts hid
  rw [hadd]
  cases hexpected : c.expectedGroup tab.id tabs with
  | some group =>
    obtain ⟨hgroup, hids⟩ := mem_expectedGroup hexpected
    rw [hexpected, Option.isSome_some, if_pos rfl] at haccepts
    have hnew : tab.id ∉ live := by
      rw [h.mem_iff]
      rintro ⟨group, hgroup, hmem⟩
      exact haccepts group hgroup hmem
    have hlive : live ∪ (tabs.map SystemWindowTab.id).toFinset = Insert.insert tab.id live := by
      ext x
      rw [Finset.mem_union, List.mem_toFinset, Finset.mem_insert]
      constructor
      · rintro (hx | hx)
        · exact Or.inr hx
        · by_cases heq : x = tab.id
          · exact Or.inl heq
          · exact Or.inr ((h.mem_iff x).mpr ⟨group, hgroup, (hids x).mpr ⟨heq, hx⟩⟩)
      · rintro (rfl | hx)
        · exact Or.inr hid
        · exact Or.inl hx
    rw [hlive]
    exact h.push (List.mem_map_of_mem hgroup) hnew
  | none =>
    rw [hexpected, Option.isSome_none, if_neg Bool.false_ne_true] at haccepts
    obtain ⟨hnodup, hgroups⟩ := haccepts
    constructor
    · intro x
      rw [groupCount_insert, List.countP_filter]
      by_cases hx : x ∈ tabs.map SystemWindowTab.id
      · have hmem : x ∈ live ∪ (tabs.map SystemWindowTab.id).toFinset :=
          Finset.mem_union_right _ (List.mem_toFinset.mpr hx)
        rw [if_pos hx, if_pos hmem, Nat.add_eq_right, List.countP_eq_zero]
        intro group hgroup hboth
        simp only [Bool.and_eq_true, decide_eq_true_eq] at hboth
        have hother := hgroups group hgroup
        rw [if_neg hboth.2] at hother
        exact hother x hboth.1 hx
      · have hiff : x ∈ live ∪ (tabs.map SystemWindowTab.id).toFinset ↔ x ∈ live := by
          rw [Finset.mem_union, List.mem_toFinset, or_iff_left hx]
        rw [if_neg hx, Nat.add_zero]
        simp only [hiff, ← h.count x, groupCount]
        apply List.countP_congr
        intro group hgroup
        have hother := hgroups group hgroup
        split_ifs at hother with hkey
        · have hnot : x ∉ group.ids := fun hmem => hx (hother x hmem)
          simp [hnot]
        · simp [hkey]
    · intro group hgroup
      obtain rfl | hgroup := List.mem_cons.mp hgroup
      · exact hnodup
      · exact h.nodup group (List.mem_of_mem_filter hgroup)
    · exact keys_insert _ _ h.keys

/-- Any other tab to add breaks the groups. -/
theorem Partitioned.accepts_addTab {live : Finset WindowId} {c : SystemWindowTabController}
    (h : Partitioned live c) {id : WindowId} {tabs : List SystemWindowTab}
    (hgrouped : Grouped (TabAction.present live (.addTab id tabs)) (c.addTab id tabs)) :
    c.Accepts (.addTab id tabs) := by
  intro hid
  obtain ⟨tab, rfl, hadd⟩ := addTab_eq (c := c) hid
  rw [hadd, TabAction.present, if_pos hid] at hgrouped
  obtain ⟨honce, hnodup⟩ := hgrouped
  cases hexpected : c.expectedGroup tab.id tabs with
  | some group =>
    obtain ⟨hgroup, hids⟩ := mem_expectedGroup hexpected
    rw [Option.isSome_some, if_pos rfl]
    intro other hother hmem
    have hle := (honce tab.id (Finset.mem_union_right _ (List.mem_toFinset.mpr hid))).le
    rw [hexpected] at hle
    have hpushed : pushTab group.1 tab other = pushTab group.1 tab group := by
      apply eq_of_groupCount_le_one hle (List.mem_map_of_mem hother) (List.mem_map_of_mem hgroup)
      · rw [ids_pushTab]
        split_ifs <;> simp [hmem]
      · rw [ids_pushTab, if_pos rfl]
        simp
    have hkeys : other.1 = group.1 := by
      rw [← fst_pushTab group.1 tab other, hpushed, fst_pushTab]
    have heq := List.inj_on_of_nodup_map h.keys hother hgroup hkeys
    exact ((hids tab.id).mp (heq ▸ hmem)).1 rfl
  | none =>
    rw [Option.isSome_none, if_neg Bool.false_ne_true]
    rw [hexpected] at honce hnodup
    refine ⟨hnodup _ List.mem_cons_self, ?_⟩
    intro group hgroup
    split_ifs with hkey
    · intro x hx
      by_contra hnot
      have hlive : x ∈ live := (h.mem_iff x).mpr ⟨group, hgroup, hx⟩
      have hone := honce x (Finset.mem_union_left _ hlive)
      rw [groupCount_insert, if_neg hnot, Nat.add_zero] at hone
      obtain ⟨other, hother, hmem⟩ := List.countP_pos_iff.mp (hone ▸ Nat.one_pos)
      obtain ⟨hother, hne⟩ := List.mem_filter.mp hother
      obtain rfl := h.unique hgroup hother hx (by simpa using hmem)
      simp [hkey] at hne
    · intro x hx hmem
      have hone := honce x (Finset.mem_union_right _ (List.mem_toFinset.mpr hmem))
      rw [groupCount_insert, if_pos hmem, Nat.add_eq_right, List.countP_eq_zero] at hone
      exact hone group (List.mem_filter.mpr ⟨hgroup, by simpa using hkey⟩) (by simpa using hx)

/-- An accepted operation leaves the tabs divided up. -/
theorem Partitioned.step {live : Finset WindowId} {c c' : SystemWindowTabController}
    {a : TabAction} (h : Partitioned live c) (haccepts : c.Accepts a)
    (hstep : c.step a = some c') : Partitioned (a.present live) c' := by
  cases a with
  | addTab id tabs =>
    obtain rfl := Option.some.inj hstep
    exact h.addTab haccepts
  | removeTab id =>
    obtain rfl := Option.some.inj hstep
    exact h.removeTab id
  | moveTabToNewWindow id =>
    obtain rfl := Option.some.inj hstep
    exact h.moveTabToNewWindow id
  | mergeAllWindows id =>
    obtain rfl := Option.some.inj hstep
    exact h.mergeAllWindows id
  | updateTabPosition id ix =>
    obtain rfl := Option.some.inj hstep
    exact h.updateTabPosition id ix
  | reorder groups =>
    simp only [SystemWindowTabController.step, Option.ite_none_right_eq_some,
      Option.some.injEq] at hstep
    obtain ⟨hperm, rfl⟩ := hstep
    exact h.reorder hperm

theorem Partitioned.keepsOthers {live : Finset WindowId} {c c' : SystemWindowTabController}
    {a : TabAction} (h : Partitioned live c) (h' : Partitioned (a.present live) c') :
    KeepsOthers c a c' := by
  intro id hwindow hpos
  rw [groupCount_pos, ← h.mem_iff] at hpos
  rw [groupCount_pos, ← h'.mem_iff]
  cases a with
  | addTab other tabs =>
    simp only [TabAction.present]
    split_ifs
    · exact Finset.mem_union_left _ hpos
    · exact hpos
  | removeTab other =>
    refine Finset.mem_erase.mpr ⟨?_, hpos⟩
    rintro rfl
    exact hwindow rfl
  | _ => exact hpos

/-- In every run of accepted operations, every tab is in exactly one group. The next
operation keeps it so, and keeps the tabs of other windows, if and only if it is accepted. -/
theorem grouped_of_run {actions : List TabAction} {c : SystemWindowTabController}
    (run : Run step Accepts new actions c) : Grouped (presentTabs actions) c ∧
      ∀ a c', c.step a = some c' →
        (Grouped (presentTabs (actions ++ [a])) c' ∧ KeepsOthers c a c' ↔ c.Accepts a) := by
  have hpresent : ∀ actions a,
      presentTabs (actions ++ [a]) = TabAction.present (presentTabs actions) a := by
    intro actions a
    rw [presentTabs, List.foldl_append, ← presentTabs]
    rfl
  have h : Partitioned (presentTabs actions) c := by
    apply run.invariant fun actions c => Partitioned (presentTabs actions) c
    · exact ⟨fun id => rfl, by simp [new], List.nodup_nil⟩
    · intro actions c a c' h haccepts hstep
      rw [hpresent]
      exact h.step haccepts hstep
  refine ⟨h.grouped, ?_⟩
  intro a c' hstep
  rw [hpresent]
  constructor
  · rintro ⟨hgrouped, _⟩
    cases a with
    | addTab id tabs =>
      obtain rfl := Option.some.inj hstep
      exact h.accepts_addTab hgrouped
    | _ => trivial
  · intro haccepts
    have h' := h.step haccepts hstep
    exact ⟨h'.grouped, h.keepsOthers h'⟩

/-- A tab of an untitled window. -/
def untitledTab (id : WindowId) : SystemWindowTab := .new "" ⟨id, 0⟩ 0

/-- Two tabs are joined, parted, merged and swapped, and one of them closes. -/
def mergedTabs : List TabAction :=
  [.addTab 1 [untitledTab 1], .addTab 2 [untitledTab 1, untitledTab 2], .moveTabToNewWindow 2,
    .mergeAllWindows 2, .updateTabPosition 1 0, .removeTab 2]

theorem grouped_of_run_mergedTabs : ∃ c, Run step Accepts new mergedTabs c ∧
    Grouped (presentTabs mergedTabs) c ∧ ∀ a c', c.step a = some c' →
      (Grouped (presentTabs (mergedTabs ++ [a])) c' ∧ KeepsOthers c a c' ↔ c.Accepts a) := by
  have run : Run step Accepts new mergedTabs ⟨[(0, [untitledTab 1])]⟩ := .of_execute rfl
  exact ⟨_, run, grouped_of_run run⟩

/-- Two windows open and the first one closes, so the only group left is under key 1. -/
def firstClosed : List TabAction :=
  [.addTab 1 [untitledTab 1], .addTab 2 [untitledTab 2], .removeTab 1]

/-- A third window gets key 1 again and drives the tab of the second one out. -/
theorem not_grouped_reusedKey : ∃ c, Run step (fun _ _ => True) new firstClosed c ∧
    ∃ c', c.step (.addTab 3 [untitledTab 3]) = some c' ∧
      ¬Grouped (presentTabs (firstClosed ++ [.addTab 3 [untitledTab 3]])) c' ∧
      ¬KeepsOthers c (.addTab 3 [untitledTab 3]) c' := by
  refine ⟨⟨[(1, [untitledTab 2])]⟩, .of_execute rfl, ⟨[(1, [untitledTab 3])]⟩, rfl, ?_, ?_⟩
  · intro h
    have hone := h.once 2 (by decide)
    revert hone
    decide
  · intro h
    have hpos := h 2 (by decide) (by decide)
    revert hpos
    decide

end SystemWindowTabController

end Lucie
