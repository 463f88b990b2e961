import Mathlib.Algebra.Order.Field.Rat
import Mathlib.Tactic.Ring
import Lucie.Foundation.Exact
import Lucie.LayoutEngine.Tree

/-!
# Bounds of layout nodes

The layout of a node is relative to its parent. The engine adds the locations up to the root and
keeps the sums in a table, from which it removes those below a node that is computed again. The
table is right as long as no node of a tree is looked up before the tree is computed.
-/

set_option autoImplicit false

namespace Lucie.LayoutEngine

open Foundation

/-- A `TaffyLayoutEngine`. -/
structure TaffyLayoutEngine where
  taffy : TaffyTree
  absoluteLayoutBounds : ℕ → Option (Bounds ℚ)
  computedLayouts : ℕ → Bool

/-- A call on the engine; `layouts` is what the layout algorithm finds for the subtree. -/
inductive Call
  | requestLayout (children : List ℕ)
  | requestMeasuredLayout
  | computeLayout (id : ℕ) (layouts : ℕ → Layout)
  | layoutBounds (id : ℕ)
  | clear

/-- The bounds of a node relative to its parent. -/
def Layout.toBounds (layout : Layout) (scaleFactor : ℚ) : Bounds ℚ :=
  ⟨⟨layout.location.x / scaleFactor, layout.location.y / scaleFactor⟩,
    ⟨layout.size.width / scaleFactor, layout.size.height / scaleFactor⟩⟩

/-- The loop of `compute_layout` over a stack of nodes, the next one first: remove them and
everything below them from the table. -/
def invalidate (tree : TaffyTree) : List ℕ → (ℕ → Option (Bounds ℚ)) → ℕ → Option (Bounds ℚ)
  | [], memo => memo
  | id :: stack, memo =>
    invalidate tree ((tree.children id).reverse ++ stack) (Function.update memo id none)
termination_by stack => (stack.map fun id => (tree.subtree id).length).sum
decreasing_by
  have hlength : (tree.subtree id).length = _ := TaffyTree.length_subtree
  simp only [List.unattach_reverse, List.unattach_attach, List.map_append, List.sum_append,
    List.map_cons, List.sum_cons, List.map_reverse, List.sum_reverse]
  omega

/-- The recursion of `layout_bounds`, with the table that it leaves. -/
def layoutBounds (tree : TaffyTree) (scaleFactor : ℚ) (memo : ℕ → Option (Bounds ℚ)) (id : ℕ) :
    Bounds ℚ × (ℕ → Option (Bounds ℚ)) :=
  match memo id with
  | some layout => (layout, memo)
  | none =>
    let bounds := (tree.layout id).toBounds scaleFactor
    match _hparent : tree.parent id with
    | none => (bounds, Function.update memo id (some bounds))
    | some parentId =>
      let parent := layoutBounds tree scaleFactor memo parentId
      let bounds : Bounds ℚ := { bounds with
        origin := ⟨bounds.origin.x + parent.1.origin.x, bounds.origin.y + parent.1.origin.y⟩ }
      (bounds, Function.update parent.2 id (some bounds))
termination_by tree.count - id
decreasing_by
  have hlt := tree.lt_parent _hparent
  have hcount := tree.parent_lt id parentId _hparent
  omega

namespace TaffyLayoutEngine

/-- `TaffyLayoutEngine::new`; `clear` leaves the same. -/
def new : TaffyLayoutEngine := ⟨.new, fun _ => none, fun _ => false⟩

/-- `TaffyLayoutEngine::request_layout`; `none` is an unknown child. -/
def requestLayout (s : TaffyLayoutEngine) (children : List ℕ) : Option TaffyLayoutEngine :=
  if hchildren : ∀ child ∈ children, child < s.taffy.count then
    some { s with taffy := s.taffy.newWithChildren children hchildren }
  else none

/-- `TaffyLayoutEngine::compute_layout`; `none` is an unknown node. -/
def computeLayout (s : TaffyLayoutEngine) (id : ℕ) (layouts : ℕ → Layout) :
    Option TaffyLayoutEngine :=
  if id < s.taffy.count then some {
    taffy := s.taffy.setLayouts id layouts
    absoluteLayoutBounds :=
      if s.computedLayouts id then invalidate s.taffy [id] s.absoluteLayoutBounds
      else s.absoluteLayoutBounds
    computedLayouts := Function.update s.computedLayouts id true }
  else none

/-- `TaffyLayoutEngine::layout_bounds`, with what it leaves; `none` is an unknown node. -/
def layoutBounds (s : TaffyLayoutEngine) (scaleFactor : ℚ) (id : ℕ) :
    Option (Bounds ℚ × TaffyLayoutEngine) :=
  if id < s.taffy.count then
    let result := LayoutEngine.layoutBounds s.taffy scaleFactor s.absoluteLayoutBounds id
    some (result.1, { s with absoluteLayoutBounds := result.2 })
  else none

/-- One call. -/
def step (scaleFactor : ℚ) (s : TaffyLayoutEngine) : Call → Option TaffyLayoutEngine
  | .requestLayout children => s.requestLayout children
  | .requestMeasuredLayout => s.requestLayout []
  | .computeLayout id layouts => s.computeLayout id layouts
  | .layoutBounds id => (s.layoutBounds scaleFactor id).map Prod.snd
  | .clear => some .new

/-- The bounds of a node in the window: the sum of the locations up to its root, and its size. -/
def absoluteBounds (tree : TaffyTree) (scaleFactor : ℚ) (id : ℕ) : Bounds ℚ where
  origin :=
    ⟨((tree.pathToRoot id).map fun x => (tree.layout x).location.x).sum / scaleFactor,
      ((tree.pathToRoot id).map fun x => (tree.layout x).location.y).sum / scaleFactor⟩
  size := ⟨(tree.layout id).size.width / scaleFactor, (tree.layout id).size.height / scaleFactor⟩

/-- Every node is found where it is. -/
def BoundsRight (scaleFactor : ℚ) (s : TaffyLayoutEngine) : Prop :=
  ∀ id < s.taffy.count, (s.layoutBounds scaleFactor id).map Prod.fst =
    some (absoluteBounds s.taffy scaleFactor id)

/-- Nothing in the subtree of a node is in the table. -/
def Unseen (s : TaffyLayoutEngine) (id : ℕ) : Prop :=
  ∀ x ∈ s.taffy.subtree id, s.absoluteLayoutBounds x = none

/-- A node that gets a second parent has not been looked up, nor a node that is computed for the
first time, and neither has anything below it. -/
def LooksUpLater (s : TaffyLayoutEngine) : Call → Prop
  | .requestLayout children => ∀ child ∈ children, s.taffy.parent child ≠ none → s.Unseen child
  | .computeLayout id _ => s.computedLayouts id = false → s.Unseen id
  | _ => True

/-! ## Sums along the paths -/

section Sums

variable {tree tree' : TaffyTree} {scaleFactor : ℚ} {id x p : ℕ}

theorem absoluteBounds_of_none (scaleFactor : ℚ) (hparent : tree.parent id = none) :
    absoluteBounds tree scaleFactor id = (tree.layout id).toBounds scaleFactor := by
  simp [absoluteBounds, TaffyTree.pathToRoot_of_none hparent, Layout.toBounds]

theorem absoluteBounds_of_some (scaleFactor : ℚ) (hparent : tree.parent id = some p) :
    absoluteBounds tree scaleFactor id =
      { (tree.layout id).toBounds scaleFactor with
        origin :=
          ⟨(tree.layout id).location.x / scaleFactor + (absoluteBounds tree scaleFactor p).origin.x,
            (tree.layout id).location.y / scaleFactor +
              (absoluteBounds tree scaleFactor p).origin.y⟩ } := by
  simp only [absoluteBounds, TaffyTree.pathToRoot_of_some hparent, List.map_cons, List.sum_cons,
    add_div, Layout.toBounds]

/-- The bounds of a node depend on the layouts on its path. -/
theorem absoluteBounds_congr (hpath : tree'.pathToRoot x = tree.pathToRoot x)
    (hlayout : ∀ y ∈ tree.pathToRoot x, tree'.layout y = tree.layout y) :
    absoluteBounds tree' scaleFactor x = absoluteBounds tree scaleFactor x := by
  have hmap (g : Layout → ℚ) : (tree.pathToRoot x).map (fun y => g (tree'.layout y)) =
      (tree.pathToRoot x).map fun y => g (tree.layout y) :=
    List.map_congr_left fun y hy => by rw [hlayout y hy]
  simp only [absoluteBounds, hpath, hlayout x (tree.self_mem_path x),
    hmap fun l => l.location.x, hmap fun l => l.location.y]

end Sums

/-! ## The table -/

/-- The table has nodes with their bounds. -/
structure MemoRight (tree : TaffyTree) (scaleFactor : ℚ) (memo : ℕ → Option (Bounds ℚ)) :
    Prop where
  lt_count : ∀ x bounds, memo x = some bounds → x < tree.count
  bounds_eq : ∀ x bounds, memo x = some bounds → bounds = absoluteBounds tree scaleFactor x

section Memo

variable {tree : TaffyTree} {scaleFactor : ℚ} {memo : ℕ → Option (Bounds ℚ)} {id x : ℕ}
  {bounds : Bounds ℚ}

theorem MemoRight.update (h : MemoRight tree scaleFactor memo) (hid : id < tree.count)
    (hbounds : bounds = absoluteBounds tree scaleFactor id) :
    MemoRight tree scaleFactor (Function.update memo id (some bounds)) where
  lt_count x bounds' hx := by
    by_cases hxid : x = id
    · exact hxid ▸ hid
    · rw [Function.update_of_ne hxid] at hx
      exact h.lt_count x bounds' hx
  bounds_eq x bounds' hx := by
    by_cases hxid : x = id
    · subst hxid
      rw [Function.update_self] at hx
      exact Option.some.inj hx ▸ hbounds
    · rw [Function.update_of_ne hxid] at hx
      exact h.bounds_eq x bounds' hx

/-- With a right table, the recursion finds the bounds and leaves a right table. -/
theorem MemoRight.layoutBounds (h : MemoRight tree scaleFactor memo) (hid : id < tree.count) :
    (LayoutEngine.layoutBounds tree scaleFactor memo id).1 = absoluteBounds tree scaleFactor id ∧
      MemoRight tree scaleFactor (LayoutEngine.layoutBounds tree scaleFactor memo id).2 := by
  induction id using tree.induction_up with
  | hroot id hparent =>
    rw [LayoutEngine.layoutBounds]
    cases hmemo : memo id with
    | some bounds => exact ⟨h.bounds_eq id bounds hmemo, h⟩
    | none =>
      have hbounds := absoluteBounds_of_none scaleFactor hparent
      dsimp only
      split
      · exact ⟨hbounds.symm, h.update hid hbounds.symm⟩
      · rename_i p hp
        rw [hparent] at hp
        cases hp
  | hinner id p hparent ih =>
    rw [LayoutEngine.layoutBounds]
    cases hmemo : memo id with
    | some bounds => exact ⟨h.bounds_eq id bounds hmemo, h⟩
    | none =>
      dsimp only
      split
      · rename_i hp
        rw [hparent] at hp
        cases hp
      · rename_i q hq
        obtain rfl := Option.some.inj (hparent.symm.trans hq)
        obtain ⟨hfirst, hmemo'⟩ := ih (tree.parent_lt id p hparent)
        have hbounds := absoluteBounds_of_some scaleFactor hparent
        rw [← hfirst] at hbounds
        exact ⟨hbounds.symm, hmemo'.update hid hbounds.symm⟩

/-- What the loop leaves in the table is below none of the nodes. -/
theorem of_invalidate_eq_some {stack : List ℕ} (h : invalidate tree stack memo x = some bounds) :
    memo x = some bounds ∧ ∀ id ∈ stack, x ∉ tree.subtree id := by
  induction stack, memo using invalidate.induct tree with
  | case1 memo =>
    rw [invalidate] at h
    exact ⟨h, by simp⟩
  | case2 id stack memo ih =>
    rw [invalidate] at h
    simp only [List.unattach_reverse, List.unattach_attach] at ih
    obtain ⟨hmemo, hstack⟩ := ih h
    have hne : x ≠ id := by
      rintro rfl
      rw [Function.update_self] at hmemo
      cases hmemo
    rw [Function.update_of_ne hne] at hmemo
    refine ⟨hmemo, List.forall_mem_cons.mpr ⟨fun hx => ?_, fun y hy => ?_⟩⟩
    · obtain rfl | ⟨child, hchild, hx⟩ := TaffyTree.mem_subtree.mp hx
      · exact hne rfl
      · exact hstack child (by simp [hchild]) hx
    · exact hstack y (by simp [hy])

end Memo

/-! ## Runs -/

variable {scaleFactor : ℚ} {s s' : TaffyLayoutEngine}

theorem memoRight_new (scaleFactor : ℚ) :
    MemoRight new.taffy scaleFactor new.absoluteLayoutBounds where
  lt_count _ _ hx := by cases hx
  bounds_eq _ _ hx := by cases hx

/-- A new node changes the sums only below nodes that had another parent. -/
theorem MemoRight.requestLayout {children : List ℕ}
    (h : MemoRight s.taffy scaleFactor s.absoluteLayoutBounds)
    (hlater : ∀ child ∈ children, s.taffy.parent child ≠ none → s.Unseen child)
    (hstep : s.requestLayout children = some s') :
    MemoRight s'.taffy scaleFactor s'.absoluteLayoutBounds := by
  unfold TaffyLayoutEngine.requestLayout at hstep
  split_ifs at hstep with hchildren
  obtain rfl := Option.some.inj hstep
  refine ⟨fun x bounds hx => Nat.lt_succ_of_lt (h.lt_count x bounds hx), fun x bounds hx => ?_⟩
  have hcount := h.lt_count x bounds hx
  have hkeep : ∀ y ∈ s.taffy.pathToRoot x, y ∈ children → s.taffy.parent y = none := by
    intro y hy hmem
    by_contra hparent
    have hnone := hlater y hmem hparent x (TaffyTree.mem_subtree_of_mem_path hy)
    rw [hnone] at hx
    cases hx
  set tree' := s.taffy.newWithChildren children hchildren
  have hlayout (y : ℕ) (hy : y < s.taffy.count) : tree'.layout y = s.taffy.layout y :=
    Function.update_of_ne (ne_of_lt hy) _ _
  have hnew : tree'.layout s.taffy.count = .new := Function.update_self _ _ _
  have hsum (g : Layout → ℚ) (hg : g .new = 0) :
      ((tree'.pathToRoot x).map fun y => g (tree'.layout y)).sum =
        ((s.taffy.pathToRoot x).map fun y => g (s.taffy.layout y)).sum :=
    TaffyTree.sum_pathToRoot_newWithChildren hchildren (fun y => g (s.taffy.layout y))
      (fun y => g (tree'.layout y)) (fun y hy => congrArg g (hlayout y hy))
      ((congrArg g hnew).trans hg) hcount hkeep
  rw [h.bounds_eq x bounds hx, absoluteBounds, absoluteBounds, hlayout x hcount,
    hsum (fun l => l.location.x) rfl, hsum (fun l => l.location.y) rfl]

/-- A new layout changes the sums only below its node. -/
theorem MemoRight.computeLayout {id : ℕ} {layouts : ℕ → Layout}
    (h : MemoRight s.taffy scaleFactor s.absoluteLayoutBounds)
    (hlater : s.computedLayouts id = false → s.Unseen id)
    (hstep : s.computeLayout id layouts = some s') :
    MemoRight s'.taffy scaleFactor s'.absoluteLayoutBounds := by
  have hid : id < s.taffy.count := by
    by_contra hid
    rw [TaffyLayoutEngine.computeLayout, if_neg hid] at hstep
    cases hstep
  rw [TaffyLayoutEngine.computeLayout, if_pos hid] at hstep
  obtain rfl := Option.some.inj hstep
  have hold {x : ℕ} {bounds : Bounds ℚ}
      (hx : (if s.computedLayouts id then invalidate s.taffy [id] s.absoluteLayoutBounds
        else s.absoluteLayoutBounds) x = some bounds) :
      s.absoluteLayoutBounds x = some bounds ∧ x ∉ s.taffy.subtree id := by
    cases hcomputed : s.computedLayouts id with
    | true =>
      rw [if_pos hcomputed] at hx
      obtain ⟨hx, hnot⟩ := of_invalidate_eq_some hx
      exact ⟨hx, hnot id (List.mem_singleton_self id)⟩
    | false =>
      rw [hcomputed, if_neg Bool.false_ne_true] at hx
      refine ⟨hx, fun hmem => ?_⟩
      rw [hlater hcomputed x hmem] at hx
      cases hx
  refine ⟨fun x bounds hx => h.lt_count x bounds (hold hx).1, fun x bounds hx => ?_⟩
  obtain ⟨hx, hnot⟩ := hold hx
  rw [h.bounds_eq x bounds hx]
  refine (absoluteBounds_congr (TaffyTree.pathToRoot_setLayouts id x layouts) fun y hy => ?_).symm
  have hy : y ∉ s.taffy.subtree id := fun hmem =>
    hnot (TaffyTree.subtree_trans (TaffyTree.mem_subtree_of_mem_path hy) hmem)
  exact if_neg hy

/-- Every call that comes late enough keeps the table right. -/
theorem MemoRight.step {call : Call} (h : MemoRight s.taffy scaleFactor s.absoluteLayoutBounds)
    (hlater : s.LooksUpLater call) (hstep : s.step scaleFactor call = some s') :
    MemoRight s'.taffy scaleFactor s'.absoluteLayoutBounds := by
  cases call with
  | requestLayout children => exact h.requestLayout hlater hstep
  | requestMeasuredLayout => exact h.requestLayout (by simp) hstep
  | computeLayout id layouts => exact h.computeLayout hlater hstep
  | layoutBounds id =>
    obtain ⟨result, hresult, rfl⟩ := Option.map_eq_some_iff.mp hstep
    unfold TaffyLayoutEngine.layoutBounds at hresult
    split_ifs at hresult with hid
    obtain rfl := Option.some.inj hresult
    exact (h.layoutBounds hid).2
  | clear =>
    obtain rfl := Option.some.inj hstep
    exact memoRight_new scaleFactor

theorem MemoRight.boundsRight (h : MemoRight s.taffy scaleFactor s.absoluteLayoutBounds) :
    s.BoundsRight scaleFactor := by
  intro id hid
  rw [TaffyLayoutEngine.layoutBounds, if_pos hid, Option.map_some, (h.layoutBounds hid).1]

/-- In a run in which nothing is looked up before its layout is computed, all bounds are right. -/
theorem boundsRight_of_looksUpLater (scaleFactor : ℚ) (calls : List Call)
    (hlater : AllSteps (step scaleFactor) LooksUpLater new calls) :
    AllStates (step scaleFactor) (BoundsRight scaleFactor) new calls := by
  have hkept (s : TaffyLayoutEngine) (call : Call) (s' : TaffyLayoutEngine)
      (h : MemoRight s.taffy scaleFactor s.absoluteLayoutBounds) (hcall : s.LooksUpLater call)
      (hstep : s.step scaleFactor call = some s') :
      MemoRight s'.taffy scaleFactor s'.absoluteLayoutBounds := h.step hcall hstep
  exact hlater.allStates hkept (fun _ h => h.boundsRight) (memoRight_new scaleFactor)

/-- The layouts of a parent at the left of the window and of its child. -/
def childLayout (left : ℚ) (id : ℕ) : Layout := if id = 0 then ⟨⟨left, 0⟩, ⟨1, 1⟩⟩ else .new

/-- A parent is computed twice, and its child is looked up in between and behind. -/
theorem boundsRight_computedTwice :
    AllStates (step 2) (BoundsRight 2) new
      [.requestLayout [], .requestLayout [0], .computeLayout 1 (childLayout 10), .layoutBounds 0,
        .computeLayout 1 (childLayout 20), .layoutBounds 0] := by
  refine boundsRight_of_looksUpLater 2 _ fun s₁ h₁ => ⟨fun _ hchild => ?_, ?_⟩
  · cases hchild
  cases h₁
  refine fun s₂ h₂ => ⟨fun _ _ _ _ _ => rfl, ?_⟩
  cases h₂
  refine fun s₃ h₃ => ⟨fun _ _ _ => rfl, ?_⟩
  cases h₃
  refine fun s₄ h₄ => ⟨trivial, ?_⟩
  cases h₄
  refine fun s₅ h₅ => ⟨fun hfirst => ?_, ?_⟩
  · cases hfirst
  cases h₅
  exact fun s₆ _ => ⟨trivial, trivial⟩

/-- A child is looked up before its parent is computed. -/
theorem not_boundsRight_lookedUpFirst :
    ¬ AllStates (step 1) (BoundsRight 1) new
      [.requestLayout [], .requestLayout [0], .layoutBounds 0,
        .computeLayout 1 (childLayout 10)] := by
  intro h
  have hlast := ((((h.2 _ rfl).2 _ rfl).2 _ rfl).2 _ rfl) 0 (by decide)
  revert hlast
  decide +kernel

end TaffyLayoutEngine

end Lucie.LayoutEngine
