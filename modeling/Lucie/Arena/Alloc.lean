import Lucie.Arena.Chunk
import Lucie.Foundation.Run

/-!
# The arena

An arena allocates in its current chunk, and goes on to the next one when the current one is full.
A clear drops all elements and makes the chunks up to the current one empty. The chunks behind it
are empty already, so the chunks are reused one after the other.
-/

set_option autoImplicit false

namespace Lucie

open Foundation

/-- `ArenaElement`, with the function that drops it. -/
structure ArenaElement (D : Type) where
  value : ℕ
  drop : D

/-- `ArenaBox`, with the number of its `valid` cell. -/
structure ArenaBox where
  ptr : ℕ
  valid : ℕ

/-- `Arena`, with the `valid` cells that it made. -/
structure Arena (D : Type) where
  chunks : List Chunk
  elements : List (ArenaElement D)
  cells : List Bool
  valid : ℕ
  currentChunkIndex : ℕ
  chunkSize : ℕ+
  current_lt : currentChunkIndex < chunks.length

namespace Arena

variable {D : Type}

/-- `Arena::new`, with the address of its first chunk. -/
def new (chunkSize start : ℕ+) : Arena D where
  chunks := [.new chunkSize start]
  elements := []
  cells := [true]
  valid := 0
  currentChunkIndex := 0
  chunkSize := chunkSize
  current_lt := Nat.one_pos

/-- The current chunk. -/
def current (arena : Arena D) : Chunk :=
  arena.chunks.get ⟨arena.currentChunkIndex, arena.current_lt⟩

/-- Replace the current chunk. -/
def setCurrent (arena : Arena D) (chunk : Chunk) : Arena D :=
  { arena with
    chunks := arena.chunks.set arena.currentChunkIndex chunk
    current_lt := by
      rw [List.length_set]
      exact arena.current_lt }

/-- Go on to the next chunk, which is made when there is none. -/
def advance (arena : Arena D) (start : ℕ+) : Arena D :=
  if h : arena.currentChunkIndex + 1 < arena.chunks.length then
    { arena with
      currentChunkIndex := arena.currentChunkIndex + 1
      current_lt := h }
  else
    { arena with
      chunks := arena.chunks ++ [.new arena.chunkSize start]
      currentChunkIndex := arena.currentChunkIndex + 1
      -- the index is that of the last chunk, as is asserted
      current_lt := by
        have := arena.current_lt
        rw [List.length_append, List.length_singleton]
        omega }

/-- The end of `alloc`, at the address that was found. -/
def write (arena : Arena D) (ptr : ℕ) (drop : D) : ArenaBox × Arena D :=
  (⟨ptr, arena.valid⟩, { arena with elements := arena.elements ++ [⟨ptr, drop⟩] })

/-- `Arena::alloc`, with the address that the allocator gives to a new chunk. It returns no box
when it panics since the next chunk is too small. -/
def alloc (arena : Arena D) (layout : AllocLayout) (drop : D) (start : ℕ+) :
    Option ArenaBox × Arena D :=
  match arena.current.allocate layout with
  | (some ptr, chunk) =>
    let (box, arena) := (arena.setCurrent chunk).write ptr drop
    (some box, arena)
  | (none, chunk) =>
    let arena := (arena.setCurrent chunk).advance start
    match arena.current.allocate layout with
    | (some ptr, chunk) =>
      let (box, arena) := (arena.setCurrent chunk).write ptr drop
      (some box, arena)
    | (none, chunk) => (none, arena.setCurrent chunk)

/-- The chunks after a clear: those up to the current one are reset. -/
def resetChunks (arena : Arena D) : List Chunk :=
  arena.chunks.mapIdx fun index chunk =>
    if index ≤ arena.currentChunkIndex then chunk.reset else chunk

/-- `Arena::clear`, with the elements in the order that they are dropped. -/
def clear (arena : Arena D) : List (ArenaElement D) × Arena D :=
  (arena.elements,
    { arena with
      chunks := arena.resetChunks
      elements := []
      cells := arena.cells.set arena.valid false ++ [true]
      valid := arena.cells.length
      currentChunkIndex := 0
      current_lt := by
        rw [resetChunks, List.length_mapIdx]
        exact (Nat.zero_le _).trans_lt arena.current_lt })

/-- `ArenaBox::validate`: whether a box can be used. -/
def isValid (arena : Arena D) (box : ArenaBox) : Bool := arena.cells.getD box.valid false

/-! ## Calls in terms of the current chunk -/

theorem getElem?_current (arena : Arena D) :
    arena.chunks[arena.currentChunkIndex]? = some arena.current :=
  List.getElem?_eq_getElem arena.current_lt

theorem getElem?_setCurrent_self (arena : Arena D) (chunk : Chunk) :
    (arena.setCurrent chunk).chunks[arena.currentChunkIndex]? = some chunk :=
  List.getElem?_set_self arena.current_lt

theorem getElem?_setCurrent_of_ne (arena : Arena D) (chunk : Chunk) {i : ℕ}
    (h : i ≠ arena.currentChunkIndex) :
    (arena.setCurrent chunk).chunks[i]? = arena.chunks[i]? :=
  List.getElem?_set_ne h.symm

theorem setCurrent_current (arena : Arena D) : arena.setCurrent arena.current = arena := by
  have hset : arena.chunks.set arena.currentChunkIndex arena.current = arena.chunks :=
    List.set_getElem_self arena.current_lt
  cases arena
  simpa [setCurrent] using hset

/-- The chunks in use stay at their places when the arena goes on. -/
theorem getElem?_advance_of_lt (arena : Arena D) (start : ℕ+) {i : ℕ}
    (h : i < arena.chunks.length) : (arena.advance start).chunks[i]? = arena.chunks[i]? := by
  rw [advance]
  split_ifs
  · rfl
  · exact List.getElem?_append_left h

/-- A chunk behind the old ones is a new one. -/
theorem getElem?_advance_of_le {arena : Arena D} {start : ℕ+} {i : ℕ} {chunk : Chunk}
    (hle : arena.chunks.length ≤ i) (h : (arena.advance start).chunks[i]? = some chunk) :
    i = arena.chunks.length ∧ chunk = .new arena.chunkSize start := by
  rw [advance] at h
  split_ifs at h
  · rw [List.getElem?_eq_none hle] at h
    cases h
  · rw [List.getElem?_append_right hle, List.getElem?_singleton] at h
    split_ifs at h with hi
    exact ⟨by omega, (Option.some.inj h).symm⟩

theorem advance_currentChunkIndex (arena : Arena D) (start : ℕ+) :
    (arena.advance start).currentChunkIndex = arena.currentChunkIndex + 1 := by
  rw [advance]
  split_ifs <;> rfl

theorem advance_elements (arena : Arena D) (start : ℕ+) :
    (arena.advance start).elements = arena.elements := by
  rw [advance]
  split_ifs <;> rfl

theorem advance_cells (arena : Arena D) (start : ℕ+) :
    (arena.advance start).cells = arena.cells ∧ (arena.advance start).valid = arena.valid := by
  rw [advance]
  split_ifs <;> exact ⟨rfl, rfl⟩

/-- A box is in the current chunk or in the next one, or that one is too small as well. -/
theorem alloc_cases (arena : Arena D) (layout : AllocLayout) (drop : D) (start : ℕ+) :
    (∃ base : Arena D, (base = arena ∨ base = arena.advance start) ∧ ∃ ptr chunk,
      base.current.allocate layout = (some ptr, chunk) ∧
        arena.alloc layout drop start =
          (some ((base.setCurrent chunk).write ptr drop).1,
            ((base.setCurrent chunk).write ptr drop).2)) ∨
      arena.alloc layout drop start = (none, arena.advance start) := by
  rw [alloc]
  cases hcurrent : arena.current.allocate layout with
  | mk ptr chunk =>
    cases ptr with
    | some ptr => exact .inl ⟨arena, .inl rfl, ptr, chunk, hcurrent, rfl⟩
    | none =>
      obtain rfl := Chunk.allocate_none hcurrent
      simp only [setCurrent_current]
      cases hnext : (arena.advance start).current.allocate layout with
      | mk ptr chunk =>
        cases ptr with
        | some ptr => exact .inl ⟨arena.advance start, .inr rfl, ptr, chunk, hnext, rfl⟩
        | none =>
          obtain rfl := Chunk.allocate_none hnext
          refine .inr ?_
          simp only [setCurrent_current]

theorem alloc_some {arena arena' : Arena D} {layout : AllocLayout} {drop : D} {start : ℕ+}
    {box : ArenaBox} (h : arena.alloc layout drop start = (some box, arena')) :
    ∃ base : Arena D, (base = arena ∨ base = arena.advance start) ∧ ∃ ptr chunk,
      base.current.allocate layout = (some ptr, chunk) ∧
        (box, arena') = (base.setCurrent chunk).write ptr drop := by
  obtain ⟨base, hbase, ptr, chunk, hchunk, halloc⟩ | halloc := arena.alloc_cases layout drop start
  · cases halloc.symm.trans h
    exact ⟨base, hbase, ptr, chunk, hchunk, rfl⟩
  · cases halloc.symm.trans h

/-- A call that panics has gone on to the next chunk. -/
theorem alloc_none {arena arena' : Arena D} {layout : AllocLayout} {drop : D} {start : ℕ+}
    (h : arena.alloc layout drop start = (none, arena')) : arena' = arena.advance start := by
  obtain ⟨base, hbase, ptr, chunk, hchunk, halloc⟩ | halloc := arena.alloc_cases layout drop start
  · cases halloc.symm.trans h
  · exact (Prod.mk.inj (halloc.symm.trans h)).2.symm

end Arena

/-! ## Allocations -/

/-- An allocation since the last clear. -/
structure Allocation (D : Type) where
  box : ArenaBox
  layout : AllocLayout
  drop : D

namespace Allocation

variable {D : Type}

/-- The element of an allocation. -/
def element (a : Allocation D) : ArenaElement D := ⟨a.box.ptr, a.drop⟩

/-- The addresses of an allocation. -/
def bytes (a : Allocation D) : Set ℕ := Set.Ico a.box.ptr (a.box.ptr + a.layout.size)

/-- One allocation ends before the other one starts. -/
def Apart (a b : Allocation D) : Prop :=
  a.box.ptr + a.layout.size ≤ b.box.ptr ∨ b.box.ptr + b.layout.size ≤ a.box.ptr

theorem Apart.disjoint {a b : Allocation D} (h : Apart a b) : Disjoint a.bytes b.bytes := by
  rw [bytes, bytes, Set.Ico_disjoint_Ico]
  rcases h with h | h <;> omega

end Allocation

/-- Two chunks have no address in common. -/
def Chunk.Apart (chunk chunk' : Chunk) : Prop :=
  chunk.stop ≤ chunk'.start ∨ chunk'.stop ≤ chunk.start

namespace Arena

variable {D : Type}

/-- An allocation is in the used part of a chunk. -/
def Within (arena : Arena D) (a : Allocation D) : Prop :=
  ∃ (i : ℕ) (chunk : Chunk), arena.chunks[i]? = some chunk ∧ chunk.start ≤ a.box.ptr ∧
    a.box.ptr + a.layout.size ≤ chunk.offset

/-- An allocation stays in the used part when the offset of the current chunk goes up. -/
theorem Within.setCurrent {arena : Arena D} {a : Allocation D} (h : arena.Within a) {chunk : Chunk}
    (hstart : chunk.start = arena.current.start) (hoffset : arena.current.offset ≤ chunk.offset) :
    (arena.setCurrent chunk).Within a := by
  obtain ⟨i, c, hi, hle, hle'⟩ := h
  by_cases heq : i = arena.currentChunkIndex
  · subst heq
    obtain rfl := Option.some.inj (arena.getElem?_current.symm.trans hi)
    exact ⟨_, chunk, arena.getElem?_setCurrent_self chunk, by omega, by omega⟩
  · exact ⟨i, c, (getElem?_setCurrent_of_ne arena chunk heq).trans hi, hle, hle'⟩

/-- What holds of an arena with these allocations since the last clear. -/
structure Sound (arena : Arena D) (allocated : List (Allocation D)) : Prop where
  /-- The chunks have no address in common. -/
  chunks : ∀ (i j : ℕ) (chunk chunk' : Chunk), i ≠ j → arena.chunks[i]? = some chunk →
    arena.chunks[j]? = some chunk' → chunk.Apart chunk'
  /-- The chunks behind the current one are empty. -/
  later : ∀ (i : ℕ) (chunk : Chunk), arena.currentChunkIndex < i →
    arena.chunks[i]? = some chunk → chunk.IsEmpty
  within : ∀ a ∈ allocated, arena.Within a
  aligned : ∀ a ∈ allocated, a.layout.align ∣ a.box.ptr
  apart : allocated.Pairwise Allocation.Apart
  elements : arena.elements = allocated.map Allocation.element
  /-- Only the last one of the `valid` cells is set. -/
  cells : arena.cells = List.replicate arena.valid false ++ [true]
  boxes : ∀ a ∈ allocated, a.box.valid = arena.valid

theorem new_sound (chunkSize start : ℕ+) : (new chunkSize start : Arena D).Sound [] where
  chunks := by
    intro i j chunk chunk' hne hi hj
    have hi' := (List.getElem?_eq_some_iff.mp hi).1
    have hj' := (List.getElem?_eq_some_iff.mp hj).1
    change i < 1 at hi'
    change j < 1 at hj'
    omega
  later := by
    intro i chunk hlt hi
    have hi' := (List.getElem?_eq_some_iff.mp hi).1
    change 0 < i at hlt
    change i < 1 at hi'
    omega
  within := by simp
  aligned := by simp
  apart := .nil
  elements := rfl
  cells := rfl
  boxes := by simp

/-- The allocator gives a new chunk addresses that no chunk has. -/
def Fresh (arena : Arena D) (start : ℕ+) : Prop :=
  ∀ chunk ∈ arena.chunks, (Chunk.new arena.chunkSize start).Apart chunk

namespace Sound

variable {arena : Arena D} {allocated : List (Allocation D)}

/-- Going on to the next chunk changes no allocation. -/
theorem advance (h : arena.Sound allocated) {start : ℕ+} (hfresh : Fresh arena start) :
    (arena.advance start).Sound allocated where
  chunks := by
    intro i j chunk chunk' hne hi hj
    rcases lt_or_ge i arena.chunks.length with hlt | hge <;>
      rcases lt_or_ge j arena.chunks.length with hlt' | hge'
    · rw [getElem?_advance_of_lt arena start hlt] at hi
      rw [getElem?_advance_of_lt arena start hlt'] at hj
      exact h.chunks i j chunk chunk' hne hi hj
    · rw [getElem?_advance_of_lt arena start hlt] at hi
      rw [(getElem?_advance_of_le hge' hj).2]
      exact Or.symm (hfresh chunk (List.mem_of_getElem? hi))
    · rw [getElem?_advance_of_lt arena start hlt'] at hj
      rw [(getElem?_advance_of_le hge hi).2]
      exact hfresh chunk' (List.mem_of_getElem? hj)
    · have hi' := (getElem?_advance_of_le hge hi).1
      have hj' := (getElem?_advance_of_le hge' hj).1
      exact absurd (hi'.trans hj'.symm) hne
  later := by
    intro i chunk hlt hi
    rw [advance_currentChunkIndex] at hlt
    rcases lt_or_ge i arena.chunks.length with hlt' | hge
    · rw [getElem?_advance_of_lt arena start hlt'] at hi
      exact h.later i chunk (by omega) hi
    · rw [(getElem?_advance_of_le hge hi).2]
      exact Chunk.new_isEmpty _ _
  within := by
    intro a ha
    obtain ⟨i, chunk, hi, hwithin⟩ := h.within a ha
    have hlt := (List.getElem?_eq_some_iff.mp hi).1
    exact ⟨i, chunk, (getElem?_advance_of_lt arena start hlt).trans hi, hwithin⟩
  aligned := h.aligned
  apart := h.apart
  elements := (advance_elements arena start).trans h.elements
  cells := by
    rw [(advance_cells arena start).1, (advance_cells arena start).2]
    exact h.cells
  boxes := by
    rw [(advance_cells arena start).2]
    exact h.boxes

/-- What is behind the offset of the current chunk has no address of an allocation. -/
theorem apart_of_behind (h : arena.Sound allocated) {a b : Allocation D} (ha : a ∈ allocated)
    (hptr : arena.current.offset ≤ b.box.ptr)
    (hstop : b.box.ptr + b.layout.size ≤ arena.current.stop) : a.Apart b := by
  obtain ⟨i, c, hi, hle, hle'⟩ := h.within a ha
  by_cases heq : i = arena.currentChunkIndex
  · subst heq
    obtain rfl := Option.some.inj (arena.getElem?_current.symm.trans hi)
    exact .inl (hle'.trans hptr)
  · have hapart := h.chunks i _ c _ heq hi arena.getElem?_current
    have hcstop := c.offset_le
    have hstart := arena.current.start_le
    rw [Chunk.Apart] at hapart
    rw [Allocation.Apart]
    omega

/-- An allocation in the current chunk is behind those before it. -/
theorem write (h : arena.Sound allocated) {layout : AllocLayout} {ptr : ℕ} {chunk : Chunk}
    (halloc : arena.current.allocate layout = (some ptr, chunk)) (drop : D) :
    ((arena.setCurrent chunk).write ptr drop).2.Sound
      (allocated ++ [⟨((arena.setCurrent chunk).write ptr drop).1, layout, drop⟩]) := by
  obtain ⟨hdvd, hptr, hoffset, hstart, hstop⟩ := Chunk.allocate_some halloc
  have hcurrent := arena.getElem?_current
  have hbounds := arena.current.start_le
  have hbounds' := chunk.offset_le
  have hself := arena.getElem?_setCurrent_self chunk
  -- the chunks have the same addresses, and no offset goes back
  have hold : ∀ (i : ℕ) (c : Chunk), (arena.setCurrent chunk).chunks[i]? = some c →
      ∃ c₀, arena.chunks[i]? = some c₀ ∧ c.start = c₀.start ∧ c.stop = c₀.stop := by
    intro i c hi
    by_cases heq : i = arena.currentChunkIndex
    · subst heq
      obtain rfl := Option.some.inj (hself.symm.trans hi)
      exact ⟨arena.current, hcurrent, hstart, hstop⟩
    · rw [getElem?_setCurrent_of_ne arena chunk heq] at hi
      exact ⟨c, hi, rfl, rfl⟩
  constructor
  · intro i j c c' hne hi hj
    obtain ⟨c₀, hi', hcstart, hcstop⟩ := hold i c hi
    obtain ⟨c₀', hj', hcstart', hcstop'⟩ := hold j c' hj
    have hapart := h.chunks i j c₀ c₀' hne hi' hj'
    rw [Chunk.Apart] at hapart ⊢
    omega
  · intro i c hlt hi
    change arena.currentChunkIndex < i at hlt
    exact h.later i c hlt ((getElem?_setCurrent_of_ne arena chunk (by omega)).symm.trans hi)
  · intro a ha
    rcases List.mem_append.mp ha with ha | ha
    · exact (h.within a ha).setCurrent hstart (by omega)
    · obtain rfl := List.mem_singleton.mp ha
      exact ⟨_, chunk, hself, hstart.le.trans (hbounds.trans hptr), hoffset.ge⟩
  · intro a ha
    rcases List.mem_append.mp ha with ha | ha
    · exact h.aligned a ha
    · obtain rfl := List.mem_singleton.mp ha
      exact hdvd
  · refine List.pairwise_append.mpr ⟨h.apart, List.pairwise_singleton _ _, ?_⟩
    intro a ha b hb
    obtain rfl := List.mem_singleton.mp hb
    refine h.apart_of_behind ha hptr ?_
    change ptr + layout.size ≤ _
    omega
  · rw [List.map_append, ← h.elements]
    rfl
  · exact h.cells
  · intro a ha
    rcases List.mem_append.mp ha with ha | ha
    · exact h.boxes a ha
    · obtain rfl := List.mem_singleton.mp ha
      rfl

/-- After a clear all chunks are empty. -/
theorem clear (h : arena.Sound allocated) : arena.clear.2.Sound [] := by
  have hold : ∀ (i : ℕ) (c : Chunk), arena.clear.2.chunks[i]? = some c →
      ∃ c₀, arena.chunks[i]? = some c₀ ∧ c.start = c₀.start ∧ c.stop = c₀.stop ∧ c.IsEmpty := by
    intro i c hi
    change arena.resetChunks[i]? = some c at hi
    rw [resetChunks, List.getElem?_mapIdx] at hi
    obtain ⟨c₀, hc₀, rfl⟩ := Option.map_eq_some_iff.mp hi
    refine ⟨c₀, hc₀, ?_⟩
    split_ifs with hle
    · exact ⟨rfl, rfl, c₀.reset_isEmpty⟩
    · exact ⟨rfl, rfl, h.later i c₀ (by omega) hc₀⟩
  constructor
  · intro i j c c' hne hi hj
    obtain ⟨c₀, hi', hcstart, hcstop, -⟩ := hold i c hi
    obtain ⟨c₀', hj', hcstart', hcstop', -⟩ := hold j c' hj
    have hapart := h.chunks i j c₀ c₀' hne hi' hj'
    rw [Chunk.Apart] at hapart ⊢
    omega
  · intro i c _ hi
    obtain ⟨-, -, -, -, hempty⟩ := hold i c hi
    exact hempty
  · simp
  · simp
  · exact .nil
  · rfl
  · change arena.cells.set arena.valid false ++ [true] =
      List.replicate arena.cells.length false ++ [true]
    rw [h.cells]
    congr 1
    rw [List.set_append_right _ _ (by simp)]
    simp [List.replicate_add]
  · simp

end Sound

/-- Only boxes of the last cell are valid. -/
theorem Sound.isValid_iff {arena : Arena D} {allocated : List (Allocation D)}
    (h : arena.Sound allocated) (box : ArenaBox) :
    arena.isValid box = true ↔ box.valid = arena.valid := by
  rw [isValid, h.cells, List.getD_eq_getElem?_getD]
  rcases lt_trichotomy box.valid arena.valid with hlt | heq | hgt
  · rw [List.getElem?_append_left (by simpa using hlt), List.getElem?_replicate_of_lt hlt]
    simp [hlt.ne]
  · rw [List.getElem?_append_right (by simp [heq])]
    simp [heq]
  · rw [List.getElem?_eq_none (by simp; omega)]
    simp [hgt.ne']

end Arena

/-! ## Runs -/

/-- What is done with an arena. -/
inductive ArenaAction (D : Type)
  | alloc (layout : AllocLayout) (drop : D) (start : ℕ+)
  | clear

/-- An arena with the allocations since the last clear, those before it, and the elements that were
dropped. -/
structure ArenaRun (D : Type) where
  arena : Arena D
  allocated : List (Allocation D)
  cleared : List (Allocation D)
  dropped : List (ArenaElement D)

namespace ArenaRun

variable {D : Type}

/-- An arena that was just made. -/
def new (chunkSize start : ℕ+) : ArenaRun D := ⟨.new chunkSize start, [], [], []⟩

/-- One call on an arena. -/
def step (s : ArenaRun D) : ArenaAction D → Option (ArenaRun D)
  | .alloc layout drop start =>
    match s.arena.alloc layout drop start with
    | (some box, arena) =>
      some { s with arena, allocated := s.allocated ++ [⟨box, layout, drop⟩] }
    | (none, arena) => some { s with arena }
  | .clear =>
    some {
      arena := s.arena.clear.2
      allocated := []
      cleared := s.cleared ++ s.allocated
      dropped := s.dropped ++ s.arena.clear.1 }

/-- The allocator gives a new chunk addresses that no chunk has. -/
def Allowed (s : ArenaRun D) : ArenaAction D → Prop
  | .alloc _ _ start => Arena.Fresh s.arena start
  | .clear => True

/-- What holds throughout a run. -/
structure Inv (s : ArenaRun D) : Prop where
  sound : s.arena.Sound s.allocated
  /-- The boxes from before the last clear have older cells. -/
  older : ∀ a ∈ s.cleared, a.box.valid < s.arena.valid
  dropped : s.dropped = s.cleared.map Allocation.element

theorem new_inv (chunkSize start : ℕ+) : (new chunkSize start : ArenaRun D).Inv where
  sound := Arena.new_sound chunkSize start
  older := by simp [new]
  dropped := rfl

theorem Inv.step {s s' : ArenaRun D} (h : s.Inv) {a : ArenaAction D} (hallowed : s.Allowed a)
    (hstep : s.step a = some s') : s'.Inv := by
  cases a with
  | alloc layout drop start =>
    have hadvance := h.sound.advance hallowed
    cases halloc : s.arena.alloc layout drop start with
    | mk box arena =>
      cases box with
      | none =>
        simp only [ArenaRun.step, halloc] at hstep
        cases hstep
        obtain rfl := Arena.alloc_none halloc
        refine ⟨hadvance, ?_, h.dropped⟩
        rw [(Arena.advance_cells s.arena start).2]
        exact h.older
      | some box =>
        simp only [ArenaRun.step, halloc] at hstep
        cases hstep
        obtain ⟨base, hbase, ptr, chunk, hcurrent, heq⟩ := Arena.alloc_some halloc
        have hvalid : base.valid = s.arena.valid := by
          rcases hbase with rfl | rfl
          · rfl
          · exact (Arena.advance_cells s.arena start).2
        have hsound : base.Sound s.allocated := by
          rcases hbase with rfl | rfl
          · exact h.sound
          · exact hadvance
        have hwrite := hsound.write hcurrent drop
        rw [← heq] at hwrite
        refine ⟨hwrite, ?_, h.dropped⟩
        obtain rfl : arena = ((base.setCurrent chunk).write ptr drop).2 := congrArg Prod.snd heq
        intro a ha
        exact (h.older a ha).trans_eq hvalid.symm
  | clear =>
    cases hstep
    refine ⟨h.sound.clear, ?_, ?_⟩
    · intro a ha
      change a.box.valid < s.arena.cells.length
      rw [h.sound.cells, List.length_append, List.length_replicate, List.length_singleton]
      rcases List.mem_append.mp ha with ha | ha
      · exact (h.older a ha).trans (Nat.lt_succ_self _)
      · rw [h.sound.boxes a ha]
        exact Nat.lt_succ_self _
    · change s.dropped ++ s.arena.elements = (s.cleared ++ s.allocated).map _
      rw [List.map_append, h.dropped, h.sound.elements]

theorem inv_of_run {chunkSize start : ℕ+} {actions : List (ArenaAction D)} {s : ArenaRun D}
    (run : Run step Allowed (new chunkSize start) actions s) : s.Inv :=
  run.invariant (fun _ s => s.Inv) (new_inv chunkSize start)
    fun _ _ _ _ h hallowed hstep => h.step hallowed hstep

/-- In every run the allocations since the last clear have no address in common, are aligned and
are in a chunk each. The chunks behind the current one are empty. A clear drops the elements that
were allocated since the last one, so every element is dropped once. The boxes since the last
clear can be used, and those before it cannot. -/
theorem arena_sound {chunkSize start : ℕ+} {actions : List (ArenaAction D)} {s : ArenaRun D}
    (run : Run step Allowed (new chunkSize start) actions s) :
    s.allocated.Pairwise (fun a b => Disjoint a.bytes b.bytes) ∧
      (∀ a ∈ s.allocated, a.layout.align ∣ a.box.ptr ∧ ∃ chunk ∈ s.arena.chunks,
        chunk.start ≤ a.box.ptr ∧ a.box.ptr + a.layout.size ≤ chunk.stop) ∧
      (∀ (i : ℕ) (chunk : Chunk), s.arena.currentChunkIndex < i →
        s.arena.chunks[i]? = some chunk → chunk.IsEmpty) ∧
      s.arena.clear.1 = s.allocated.map Allocation.element ∧
      s.dropped = s.cleared.map Allocation.element ∧
      (∀ a ∈ s.allocated, s.arena.isValid a.box = true) ∧
      ∀ a ∈ s.cleared, s.arena.isValid a.box = false := by
  have hinv := inv_of_run run
  refine ⟨hinv.sound.apart.imp fun h => h.disjoint, ?_, hinv.sound.later, hinv.sound.elements,
    hinv.dropped, ?_, ?_⟩
  · intro a ha
    obtain ⟨i, chunk, hi, hle, hle'⟩ := hinv.sound.within a ha
    exact ⟨hinv.sound.aligned a ha, chunk, List.mem_of_getElem? hi, hle,
      hle'.trans chunk.offset_le⟩
  · intro a ha
    exact (hinv.sound.isValid_iff a.box).mpr (hinv.sound.boxes a ha)
  · intro a ha
    have hlt := hinv.older a ha
    rw [← Bool.not_eq_true, hinv.sound.isValid_iff]
    omega

section Sample

instance (chunk chunk' : Chunk) : Decidable (chunk.Apart chunk') :=
  inferInstanceAs (Decidable (_ ∨ _))

instance (s : ArenaRun D) : (a : ArenaAction D) → Decidable (s.Allowed a)
  | .alloc _ _ _ => inferInstanceAs (Decidable (∀ chunk ∈ _, _))
  | .clear => inferInstanceAs (Decidable True)

/-- A layout of eight bytes. -/
def wordLayout : AllocLayout := ⟨8, 8, 3, rfl⟩

/-- Three words in chunks of two, after a clear. -/
def wordActions : List (ArenaAction ℕ) :=
  [.alloc wordLayout 0 100, .clear, .alloc wordLayout 1 100, .alloc wordLayout 2 100,
    .alloc wordLayout 3 40]

theorem arena_sound_words : ∃ s : ArenaRun ℕ, Run step Allowed (new 16 8) wordActions s ∧
    s.allocated.map (fun a => a.box.ptr) = [8, 16, 40] ∧
    s.allocated.Pairwise fun a b => Disjoint a.bytes b.bytes := by
  have hrun : Run step Allowed (new 16 8) wordActions
      ((execute step Allowed (new 16 8) wordActions).get rfl) :=
    Run.of_execute (Option.some_get _).symm
  exact ⟨_, hrun, rfl, (arena_sound hrun).1⟩

end Sample

end ArenaRun

end Lucie
