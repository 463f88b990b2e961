import Lucie.Foundation.Merge
import Lucie.Scene.Scene

/-!
# Batches merge the sorted vectors

`BatchIterator::next` takes a batch off the vector whose front has the least order and
kind, and stops before the front of every other vector. So the batches are a merge of
the seven vectors.
-/

set_option autoImplicit false

namespace Lucie

open Foundation

variable {U C : Type}

/-- The key by which the batches are merged. -/
def Primitive.batchKey (p : Primitive U C) : ℕ ×ₗ PrimitiveKind := toLex (p.order, p.kind)

/-- What a batch iterator may be left with: vectors sorted by order, whose orders are
below the value that stands for an exhausted vector. -/
structure Queued (queues : PrimitiveKind → List (Primitive U C)) : Prop where
  kind_eq : ∀ kind, ∀ p ∈ queues kind, p.kind = kind
  order_lt : ∀ kind, ∀ p ∈ queues kind, p.order < 2 ^ 32 - 1
  sorted : ∀ kind, (queues kind).Pairwise fun p q => p.order ≤ q.order

namespace Queued

variable {queues : PrimitiveKind → List (Primitive U C)}

/-- Taking a batch off a vector keeps the others and leaves a suffix. -/
theorem update (hqueued : Queued queues) {kind : PrimitiveKind} {taken rest : List (Primitive U C)}
    (hfront : queues kind = taken ++ rest) : Queued (Function.update queues kind rest) := by
  have hsuffix : ∀ k, (Function.update queues kind rest k).Sublist (queues k) := by
    intro k
    by_cases heq : k = kind
    · subst heq
      rw [Function.update_self, hfront]
      exact List.sublist_append_right _ _
    · rw [Function.update_of_ne heq]
  constructor
  · intro k p hp
    exact hqueued.kind_eq k p ((hsuffix k).subset hp)
  · intro k p hp
    exact hqueued.order_lt k p ((hsuffix k).subset hp)
  · intro k
    exact (hqueued.sorted k).sublist (hsuffix k)

/-- Within a vector the merge key follows the order. -/
theorem pairwise_batchKey (hqueued : Queued queues) (kind : PrimitiveKind) :
    (queues kind).Pairwise fun p q => p.batchKey ≤ q.batchKey := by
  refine (hqueued.sorted kind).imp_of_mem fun {p q} hp hq hle => ?_
  rw [Primitive.batchKey, Primitive.batchKey, hqueued.kind_eq kind p hp,
    hqueued.kind_eq kind q hq, Prod.Lex.toLex_le_toLex]
  rcases Nat.lt_or_eq_of_le hle with hlt | heq
  · exact .inl hlt
  · exact .inr ⟨heq, le_refl _⟩

/-- The front of a vector has the least key in it. -/
theorem head_le (hqueued : Queued queues) {kind : PrimitiveKind} {head p : Primitive U C}
    {rest : List (Primitive U C)} (hfront : queues kind = head :: rest) (hp : p ∈ queues kind) :
    head.batchKey ≤ p.batchKey := by
  have hpairwise := hqueued.pairwise_batchKey kind
  rw [hfront] at hpairwise hp
  rcases List.mem_cons.mp hp with rfl | hp
  · exact le_refl _
  · exact List.rel_of_pairwise_cons hpairwise hp

end Queued

/-- The number of primitives that wait. -/
def waiting (queues : PrimitiveKind → List (Primitive U C)) : ℕ :=
  (PrimitiveKind.all.map fun kind => (queues kind).length).sum

theorem waiting_update_lt {queues : PrimitiveKind → List (Primitive U C)} {kind : PrimitiveKind}
    {taken rest : List (Primitive U C)} (hfront : queues kind = taken ++ rest)
    (hne : taken ≠ []) : waiting (Function.update queues kind rest) < waiting queues := by
  have hpos := List.length_pos_iff.mpr hne
  have hlength : (queues kind).length = taken.length + rest.length := by
    rw [hfront, List.length_append]
  apply List.sum_lt_sum
  · intro k _
    by_cases heq : k = kind
    · subst heq
      rw [Function.update_self]
      omega
    · rw [Function.update_of_ne heq]
  · refine ⟨kind, kind.mem_all, ?_⟩
    rw [Function.update_self]
    omega

namespace BatchIterator

variable (it : BatchIterator U C)

/-- The entry of a kind in the array `orders_and_kinds`. -/
def entry (it : BatchIterator U C) (kind : PrimitiveKind) : Option ℕ × PrimitiveKind :=
  ((it.iter kind).head?.map Primitive.order, kind)

theorem mem_ordersAndKinds (pair : Option ℕ × PrimitiveKind) :
    pair ∈ it.ordersAndKinds ↔ ∃ kind, pair = it.entry kind := by
  simp only [ordersAndKinds, List.mem_insertionSort, List.mem_map, entry]
  constructor
  · rintro ⟨kind, -, rfl⟩
    exact ⟨kind, rfl⟩
  · rintro ⟨kind, rfl⟩
    exact ⟨kind, kind.mem_all, rfl⟩

theorem ordersAndKinds_pairwise : it.ordersAndKinds.Pairwise fun a b => key a ≤ key b :=
  List.pairwise_insertionSort _ _

/-- The sorted array has a first and a second entry. -/
theorem ordersAndKinds_eq_cons :
    ∃ first second others, it.ordersAndKinds = first :: second :: others := by
  have hlength : it.ordersAndKinds.length = 7 := by
    rw [ordersAndKinds, List.length_insertionSort, List.length_map]
    rfl
  match hcase : it.ordersAndKinds, hlength with
  | first :: second :: others, _ => exact ⟨first, second, others, rfl⟩

variable {it}

/-- The key of a vector that is not exhausted is that of its front. -/
theorem key_entry_of_cons (hqueued : Queued it.iter) {kind : PrimitiveKind}
    {head : Primitive U C} {rest : List (Primitive U C)} (hfront : it.iter kind = head :: rest) :
    key (it.entry kind) = head.batchKey := by
  have hkind : head.kind = kind := hqueued.kind_eq kind head (by simp [hfront])
  simp [key, entry, hfront, Primitive.batchKey, hkind]

/-- What one call of `next` takes. -/
structure Takes (it : BatchIterator U C) (batch : PrimitiveBatch) (taken : List (Primitive U C))
    (it' : BatchIterator U C) : Prop where
  ne_nil : taken ≠ []
  front : it.iter batch.kind = taken ++ it'.iter batch.kind
  iter_eq : it'.iter = Function.update it.iter batch.kind (it'.iter batch.kind)
  start_eq : batch.start = it.start batch.kind
  stop_eq : batch.stop = batch.start + taken.length
  next_start : it'.start = Function.update it.start batch.kind batch.stop
  texture : ∀ p ∈ taken, p.textureId = batch.textureId
  before : ∀ kind, kind ≠ batch.kind → ∀ p ∈ taken, ∀ q ∈ it.iter kind, p.batchKey ≤ q.batchKey

/-- The first entry is exhausted only when all are. -/
theorem exhausted_of_first {first : Option ℕ × PrimitiveKind}
    {others : List (Option ℕ × PrimitiveKind)} (hqueued : Queued it.iter)
    (hsorted : it.ordersAndKinds = first :: others) (hnone : first.1 = none)
    (kind : PrimitiveKind) : it.iter kind = [] := by
  cases hfront : it.iter kind with
  | nil => rfl
  | cons head rest =>
    exfalso
    have hle : key first ≤ key (it.entry kind) := by
      have hmem := (it.mem_ordersAndKinds (it.entry kind)).mpr ⟨kind, rfl⟩
      have hpairwise := it.ordersAndKinds_pairwise
      rw [hsorted] at hmem hpairwise
      rcases List.mem_cons.mp hmem with heq | hmem
      · rw [heq]
      · exact List.rel_of_pairwise_cons hpairwise hmem
    rw [key_entry_of_cons hqueued hfront] at hle
    have hlt := hqueued.order_lt kind head (by simp [hfront])
    have hfst := Prod.Lex.monotone_fst _ _ hle
    simp only [key, hnone, Option.getD_none, Primitive.batchKey, ofLex_toLex] at hfst
    omega

/-- `next` ends when all vectors are exhausted, and otherwise takes a batch. -/
theorem next_spec (hqueued : Queued it.iter) :
    (it.next = none ∧ ∀ kind, it.iter kind = []) ∨
      ∃ batch taken it', it.next = some (batch, it') ∧ Takes it batch taken it' := by
  obtain ⟨⟨order, kind⟩, second, others, hsorted⟩ := it.ordersAndKinds_eq_cons
  have hpairwise := it.ordersAndKinds_pairwise
  rw [hsorted] at hpairwise
  cases order with
  | none =>
    refine .inl ⟨?_, exhausted_of_first hqueued hsorted rfl⟩
    rw [next, hsorted]
  | some order =>
    right
    obtain ⟨kind', hentry⟩ := (it.mem_ordersAndKinds (some order, kind)).mp (by simp [hsorted])
    obtain rfl : kind = kind' := congrArg Prod.snd hentry
    cases hfront : it.iter kind with
    | nil => simp [entry, hfront] at hentry
    | cons head rest =>
      set inBatch : Primitive U C → Bool := fun p =>
        decide (toLex (p.order, kind) < key second) && p.textureId == head.textureId with hin
      have hmem : ∀ p ∈ head :: rest.takeWhile inBatch, p.kind = kind := by
        intro p hp
        apply hqueued.kind_eq kind
        rw [hfront]
        rcases List.mem_cons.mp hp with rfl | hp
        · exact List.mem_cons_self
        · exact List.mem_cons_of_mem _ ((List.takeWhile_sublist _).subset hp)
      refine ⟨_, head :: rest.takeWhile inBatch, _, by rw [next, hsorted]; simp only [hfront]; rfl,
        by simp, ?_, ?_, rfl, ?_, rfl, ?_, ?_⟩
      · simp [hfront, ← hin, List.takeWhile_append_dropWhile]
      · simp
      · simp only [← hin, List.length_cons]
        omega
      · intro p hp
        rcases List.mem_cons.mp hp with rfl | hp
        · rfl
        · have := List.mem_takeWhile_imp hp
          simp only [hin, Bool.and_eq_true, beq_iff_eq] at this
          exact this.2
      · intro kind' hne p hp q hq
        -- the batch stays below the second entry, which bounds the other vectors
        have hbelow : p.batchKey ≤ key second := by
          have hpkind := hmem p hp
          rcases List.mem_cons.mp hp with rfl | hp
          · rw [← key_entry_of_cons hqueued hfront, ← hentry]
            exact List.rel_of_pairwise_cons hpairwise List.mem_cons_self
          · have := List.mem_takeWhile_imp hp
            simp only [hin, Bool.and_eq_true, decide_eq_true_eq] at this
            rw [Primitive.batchKey, hpkind]
            exact le_of_lt this.1
        have habove : key second ≤ key (it.entry kind') := by
          have hother := (it.mem_ordersAndKinds (it.entry kind')).mpr ⟨kind', rfl⟩
          rw [hsorted] at hother
          rcases List.mem_cons.mp hother with heq | hother
          · exact absurd (congrArg Prod.snd heq) hne
          · rcases List.mem_cons.mp hother with heq | hother
            · rw [heq]
            · exact List.rel_of_pairwise_cons (List.Pairwise.of_cons hpairwise) hother
        cases hfront' : it.iter kind' with
        | nil => simp [hfront'] at hq
        | cons head' rest' =>
          rw [key_entry_of_cons hqueued hfront'] at habove
          exact (hbelow.trans habove).trans (hqueued.head_le hfront' hq)

/-- The batches follow one another, without gaps, from a start to a stop, and none is empty. -/
def Tiles : ℕ → List PrimitiveBatch → ℕ → Prop
  | start, [], stop => start = stop
  | start, batch :: batches, stop =>
    batch.start = start ∧ batch.start < batch.stop ∧ Tiles batch.stop batches stop

/-- A batch of a tiling is not empty and within the range. -/
theorem Tiles.bounds {start stop : ℕ} {batches : List PrimitiveBatch}
    (h : Tiles start batches stop) :
    start ≤ stop ∧ ∀ batch ∈ batches, batch.start < batch.stop ∧ batch.stop ≤ stop := by
  induction batches generalizing start with
  | nil => exact ⟨Nat.le_of_eq h, by simp⟩
  | cons batch batches ih =>
    obtain ⟨hstart, hlt, hrest⟩ := h
    obtain ⟨hle, hbounds⟩ := ih hrest
    refine ⟨by omega, fun other hother => ?_⟩
    obtain rfl | hother := List.mem_cons.mp hother
    exacts [⟨hlt, hle⟩, hbounds other hother]

/-- The batches of one kind. -/
def ofKind (kind : PrimitiveKind) (batches : List PrimitiveBatch) : List PrimitiveBatch :=
  batches.filter fun batch => batch.kind = kind

/-- With enough fuel the iterator ends. The flattened batches merge the vectors, the batches of
each kind tile what is left of its vector, and the texture of a batch is that of its primitives. -/
theorem collect_spec (it : BatchIterator U C) {s : Scene U C} (hqueued : Queued it.iter)
    (hdrop : ∀ kind, it.iter kind = (s.primitives kind).drop (it.start kind))
    (hstart : ∀ kind, it.start kind ≤ (s.primitives kind).length) {fuel : ℕ}
    (hfuel : waiting it.iter < fuel) :
    ∃ batches, it.collect fuel = some batches ∧
      Merges Primitive.batchKey it.iter (s.flatten batches) ∧
      (∀ kind, Tiles (it.start kind) (ofKind kind batches) (s.primitives kind).length) ∧
      ∀ batch ∈ batches, ∀ p ∈ s.batchPrimitives batch, p.textureId = batch.textureId := by
  induction fuel generalizing it with
  | zero => omega
  | succ fuel ih =>
    rcases next_spec hqueued with ⟨hnext, hempty⟩ | ⟨batch, taken, it', hnext, htakes⟩
    · refine ⟨[], by rw [collect, hnext], .nil hempty, fun kind => ?_, by simp⟩
      have hnil := hempty kind
      rw [hdrop, List.drop_eq_nil_iff] at hnil
      exact Nat.le_antisymm (hstart kind) hnil
    · have hqueued' : Queued it'.iter := htakes.iter_eq ▸ hqueued.update htakes.front
      have hwaiting : waiting it'.iter < waiting it.iter := by
        rw [htakes.iter_eq]
        exact waiting_update_lt htakes.front htakes.ne_nil
      have hfront := htakes.front
      rw [hdrop, ← htakes.start_eq] at hfront
      have hrest : it'.iter batch.kind = (s.primitives batch.kind).drop batch.stop := by
        rw [htakes.stop_eq, ← List.drop_drop, hfront, List.drop_left]
      have htaken : s.batchPrimitives batch = taken := by
        rw [Scene.batchPrimitives, hfront, htakes.stop_eq, Nat.add_sub_cancel_left, List.take_left]
      have hdrop' : ∀ kind, it'.iter kind = (s.primitives kind).drop (it'.start kind) := by
        intro kind
        rw [htakes.next_start]
        by_cases heq : kind = batch.kind
        · subst heq
          rw [Function.update_self, hrest]
        · rw [htakes.iter_eq, Function.update_of_ne heq, Function.update_of_ne heq, hdrop]
      have hstart' : ∀ kind, it'.start kind ≤ (s.primitives kind).length := by
        intro kind
        rw [htakes.next_start]
        by_cases heq : kind = batch.kind
        · subst heq
          have hlength := congrArg List.length hfront
          rw [List.length_drop, List.length_append] at hlength
          have hpos := List.length_pos_iff.mpr htakes.ne_nil
          rw [Function.update_self, htakes.stop_eq]
          omega
        · rw [Function.update_of_ne heq]
          exact hstart kind
      obtain ⟨batches, hcollect, hmerges, htiles, htexture⟩ :=
        ih it' hqueued' hdrop' hstart' (by omega)
      refine ⟨batch :: batches, by simp [collect, hnext, hcollect], ?_, fun kind => ?_, ?_⟩
      · rw [Scene.flatten, List.flatMap_cons, htaken]
        rw [htakes.iter_eq] at hmerges
        exact .take htakes.front (fun kind hne => htakes.before kind hne) hmerges
      · have hkind := htiles kind
        rw [htakes.next_start] at hkind
        by_cases heq : batch.kind = kind
        · subst heq
          rw [Function.update_self] at hkind
          rw [ofKind, List.filter_cons_of_pos (by simp)]
          have hpos := List.length_pos_iff.mpr htakes.ne_nil
          exact ⟨htakes.start_eq, by rw [htakes.stop_eq]; omega, hkind⟩
        · rw [Function.update_of_ne (Ne.symm heq)] at hkind
          rwa [ofKind, List.filter_cons_of_neg (by simpa using heq)]
      · intro other hother p hp
        obtain rfl | hother := List.mem_cons.mp hother
        · exact htakes.texture p (htaken ▸ hp)
        · exact htexture other hother p hp

end BatchIterator

/-- The batches of a scene whose vectors are sorted merge these vectors. -/
theorem Scene.batches_merge {s : Scene U C} (hqueued : Queued s.primitives) :
    ∃ batches, s.batches = some batches ∧
      Merges Primitive.batchKey s.primitives (s.flatten batches) := by
  obtain ⟨batches, hbatches, hmerges, -⟩ := s.batchIterator.collect_spec hqueued (fun _ => rfl)
    (fun _ => Nat.zero_le _) (Nat.lt_succ_self _)
  exact ⟨batches, hbatches, hmerges⟩

end Lucie
