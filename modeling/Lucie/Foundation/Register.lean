import Mathlib.Data.List.Nodup
import Mathlib.Logic.Function.Basic

/-!
# Labels and their register

Ids are set on numbered nodes, one after the other. A node shows the id that was set on it
last, and a register knows for each id the node on which it was set last. Removing the
nodes from some number on also forgets, in the register, the ids that they show. This undoes
the settings exactly if each of them meets a condition on the state before.
-/

set_option autoImplicit false

namespace Lucie.Foundation.Register

variable {A : Type}

/-- The id that is set last on a node. -/
def lastId (node : ℕ) : List (A × ℕ) → Option A
  | [] => none
  | setting :: settings =>
    (lastId node settings).or (if setting.2 = node then some setting.1 else none)

variable {settings later : List (A × ℕ)} {id : A} {node bound : ℕ} {register : A → Option ℕ}
  {label : ℕ → Option A}

section

attribute [local simp] lastId

@[simp] theorem lastId_append :
    lastId node (settings ++ later) = (lastId node later).or (lastId node settings) := by
  induction settings with
  | nil => simp
  | cons setting settings ih => rw [List.cons_append, lastId, ih, lastId, Option.or_assoc]

theorem lastId_mem (h : lastId node settings = some id) : (id, node) ∈ settings := by
  induction settings with
  | nil => simp at h
  | cons setting settings ih =>
    rw [lastId, Option.or_eq_some_iff] at h
    obtain h | ⟨-, h⟩ := h
    · exact List.mem_cons_of_mem _ (ih h)
    · split_ifs at h with hid
      obtain ⟨rfl⟩ := h
      subst hid
      exact List.mem_cons_self

theorem lastId_isSome (h : (id, node) ∈ settings) : (lastId node settings).isSome := by
  induction settings with
  | nil => simp at h
  | cons setting settings ih =>
    rw [lastId, Option.isSome_or]
    obtain rfl | h := List.mem_cons.mp h
    · simp
    · simp [ih h]

end

/-- Some node from the bound on shows the id after the settings. -/
def Left (bound : ℕ) (settings : List (A × ℕ)) (id : A) : Prop :=
  ∃ setting ∈ settings, bound ≤ setting.2 ∧ lastId setting.2 settings = some id

theorem left_iff : Left bound settings id ↔ ∃ node, bound ≤ node ∧
    lastId node settings = some id := by
  constructor
  · rintro ⟨setting, -, hbound, hlast⟩
    exact ⟨setting.2, hbound, hlast⟩
  · rintro ⟨node, hbound, hlast⟩
    exact ⟨(id, node), lastId_mem hlast, hbound, hlast⟩

variable [DecidableEq A]

/-- The node on which an id is set last. -/
def lastNode (id : A) : List (A × ℕ) → Option ℕ
  | [] => none
  | setting :: settings =>
    (lastNode id settings).or (if setting.1 = id then some setting.2 else none)

/-- The register after the settings. -/
def record (settings : List (A × ℕ)) (register : A → Option ℕ) : A → Option ℕ :=
  fun id => (lastNode id settings).or (register id)

section

attribute [local simp] lastNode

@[simp] theorem lastNode_append :
    lastNode id (settings ++ later) = (lastNode id later).or (lastNode id settings) := by
  induction settings with
  | nil => simp
  | cons setting settings ih => rw [List.cons_append, lastNode, ih, lastNode, Option.or_assoc]

theorem lastNode_mem (h : lastNode id settings = some node) : (id, node) ∈ settings := by
  induction settings with
  | nil => simp at h
  | cons setting settings ih =>
    rw [lastNode, Option.or_eq_some_iff] at h
    obtain h | ⟨-, h⟩ := h
    · exact List.mem_cons_of_mem _ (ih h)
    · split_ifs at h with hid
      obtain ⟨rfl⟩ := h
      subst hid
      exact List.mem_cons_self

theorem lastNode_isSome (h : (id, node) ∈ settings) : (lastNode id settings).isSome := by
  induction settings with
  | nil => simp at h
  | cons setting settings ih =>
    rw [lastNode, Option.isSome_or]
    obtain rfl | h := List.mem_cons.mp h
    · simp
    · simp [ih h]

@[simp] theorem record_nil : record [] register = register := by
  funext id
  simp [record]

theorem record_append :
    record (settings ++ later) register = record later (record settings register) := by
  funext id
  simp [record, Option.or_assoc]

theorem record_singleton :
    record [(id, node)] register = Function.update register id (some node) := by
  funext other
  by_cases h : other = id
  · subst h
    simp [record]
  · simp [record, h, Ne.symm h]

end

instance : Decidable (Left bound settings id) := inferInstanceAs
  (Decidable (∃ setting ∈ settings, _))

/-- What makes removing the nodes from the bound on undo the settings: a node below the
bound ends with the id that it had, an id left on a removed node was unknown before, and any
other id was known for the node on which it is set last. -/
def Undone (bound : ℕ) (settings : List (A × ℕ)) (label : ℕ → Option A)
    (register : A → Option ℕ) : Prop :=
  ∀ setting ∈ settings,
    (setting.2 < bound → lastId setting.2 settings = label setting.2) ∧
    register setting.1 =
      if Left bound settings setting.1 then none else lastNode setting.1 settings

instance : Decidable (Undone bound settings label register) := inferInstanceAs
  (Decidable (∀ setting ∈ settings, _))

/-- The condition is exact. -/
theorem undone_iff : Undone bound settings label register ↔
    (∀ node < bound, (lastId node settings).or (label node) = label node) ∧
    ∀ id, (if Left bound settings id then none else record settings register id) =
      register id := by
  constructor
  · intro h
    constructor
    · intro node hnode
      cases hlast : lastId node settings with
      | none => simp
      | some id =>
        have := (h _ (lastId_mem hlast)).1 hnode
        simpa [hlast] using this
    · intro id
      cases hlast : lastNode id settings with
      | none =>
        have hleft : ¬ Left bound settings id := by
          rintro ⟨setting, -, -, hid⟩
          have := lastNode_isSome (lastId_mem hid)
          simp [hlast] at this
        simp [hleft, record, hlast]
      | some node =>
        have := (h _ (lastNode_mem hlast)).2
        simp only [record, hlast, Option.some_or] at this ⊢
        exact this.symm
  · rintro ⟨hlabel, hregister⟩ setting hmem
    constructor
    · intro hlt
      obtain ⟨id, hid⟩ := Option.isSome_iff_exists.mp (lastId_isSome hmem)
      have := hlabel _ hlt
      simpa [hid] using this
    · obtain ⟨node, hnode⟩ := Option.isSome_iff_exists.mp (lastNode_isSome hmem)
      rw [← hregister setting.1]
      simp [record, hnode]

/-- If only removed nodes are set, each of them once, then the ids have to be unknown. -/
theorem undone_iff_of_nodup (hnodup : (settings.map Prod.snd).Nodup)
    (hbound : ∀ setting ∈ settings, bound ≤ setting.2) :
    Undone bound settings label register ↔ ∀ setting ∈ settings, register setting.1 = none := by
  have hlast : ∀ setting ∈ settings, lastId setting.2 settings = some setting.1 := by
    clear hbound
    induction settings with
    | nil => simp
    | cons first rest ih =>
      obtain ⟨hfirst, hrest⟩ := List.nodup_cons.mp hnodup
      intro setting hmem
      obtain rfl | hmem := List.mem_cons.mp hmem
      · have : lastId setting.2 rest = none := by
          by_contra hne
          obtain ⟨id, hid⟩ := Option.ne_none_iff_exists'.mp hne
          exact hfirst (List.mem_map.mpr ⟨_, lastId_mem hid, rfl⟩)
        simp [lastId, this]
      · simp [lastId, ih hrest setting hmem]
  constructor
  · intro h setting hmem
    rw [(h setting hmem).2, if_pos ⟨setting, hmem, hbound _ hmem, hlast _ hmem⟩]
  · intro h setting hmem
    refine ⟨fun hlt => absurd (hbound _ hmem) (by omega), ?_⟩
    rw [h _ hmem, if_pos ⟨setting, hmem, hbound _ hmem, hlast _ hmem⟩]

end Lucie.Foundation.Register
