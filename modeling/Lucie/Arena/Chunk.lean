import Mathlib.Data.Nat.ModEq
import Mathlib.Data.PNat.Basic
import Mathlib.Order.CompletePartialOrder
import Mathlib.Order.Interval.Set.Disjoint

/-!
# Chunks of an arena

A chunk is a range of addresses with an offset in it. An allocation moves the offset up to the
alignment and behind the allocation, if it still is in the chunk then.
-/

set_option autoImplicit false

namespace Lucie

/-- `alloc::Layout`. -/
structure AllocLayout where
  size : ℕ
  align : ℕ
  /-- Alignments are powers of two. -/
  isPowerOfTwo : ∃ k, align = 2 ^ k

theorem AllocLayout.align_pos (layout : AllocLayout) : 0 < layout.align := by
  obtain ⟨k, hk⟩ := layout.isPowerOfTwo
  rw [hk]
  exact Nat.two_pow_pos k

/-- `align_offset` of a pointer to bytes. -/
def alignOffset (address align : ℕ) : ℕ := (align - address % align) % align

/-- The address at the offset is aligned. -/
theorem dvd_add_alignOffset {align : ℕ} (h : 0 < align) (address : ℕ) :
    align ∣ address + alignOffset address align := by
  have hlt := Nat.mod_lt address h
  have hsum : address % align + (align - address % align) = align := by omega
  have hcongr : address + alignOffset address align ≡
      address % align + (align - address % align) [MOD align] :=
    Nat.ModEq.add (Nat.mod_modEq address align).symm (Nat.mod_modEq _ align)
  rw [hsum] at hcongr
  exact Nat.modEq_zero_iff_dvd.mp (hcongr.trans (Nat.modEq_zero_iff_dvd.mpr dvd_rfl))

/-- `Chunk`. -/
structure Chunk where
  start : ℕ
  stop : ℕ
  offset : ℕ
  start_pos : 0 < start
  start_le : start ≤ offset
  offset_le : offset ≤ stop

namespace Chunk

/-- `Chunk::new`, with the address that the allocator gives. -/
def new (chunkSize : ℕ+) (start : ℕ+) : Chunk where
  start := start
  stop := start + chunkSize
  offset := start
  start_pos := start.pos
  start_le := le_rfl
  offset_le := Nat.le_add_right _ _

/-- `Chunk::allocate`. -/
def allocate (chunk : Chunk) (layout : AllocLayout) : Option ℕ × Chunk :=
  let aligned := chunk.offset + alignOffset chunk.offset layout.align
  let next := aligned + layout.size
  if hnext : next ≤ chunk.stop then
    (if aligned = 0 then none else some aligned,
      { chunk with
        offset := next
        start_le := chunk.start_le.trans ((Nat.le_add_right _ _).trans (Nat.le_add_right _ _))
        offset_le := hnext })
  else (none, chunk)

/-- `Chunk::reset`. -/
def reset (chunk : Chunk) : Chunk :=
  { chunk with
    offset := chunk.start
    start_le := le_rfl
    offset_le := chunk.start_le.trans chunk.offset_le }

/-- The addresses of a chunk. -/
def bytes (chunk : Chunk) : Set ℕ := Set.Ico chunk.start chunk.stop

@[simp] theorem reset_bytes (chunk : Chunk) : chunk.reset.bytes = chunk.bytes := rfl

/-- Nothing is allocated in a chunk. -/
def IsEmpty (chunk : Chunk) : Prop := chunk.offset = chunk.start

theorem reset_isEmpty (chunk : Chunk) : chunk.reset.IsEmpty := rfl

theorem new_isEmpty (chunkSize start : ℕ+) : (new chunkSize start).IsEmpty := rfl

/-- An allocation is aligned, from the old offset to the new one. -/
theorem allocate_some {chunk chunk' : Chunk} {layout : AllocLayout} {ptr : ℕ}
    (h : chunk.allocate layout = (some ptr, chunk')) :
    layout.align ∣ ptr ∧ chunk.offset ≤ ptr ∧ chunk'.offset = ptr + layout.size ∧
      chunk'.start = chunk.start ∧ chunk'.stop = chunk.stop := by
  rw [allocate] at h
  split_ifs at h with hnext hzero
  · cases h
  · cases h
    exact ⟨dvd_add_alignOffset layout.align_pos _, Nat.le_add_right _ _, rfl, rfl, rfl⟩
  · cases h

/-- A chunk without enough room stays as it is. -/
theorem allocate_none {chunk chunk' : Chunk} {layout : AllocLayout}
    (h : chunk.allocate layout = (none, chunk')) : chunk' = chunk := by
  have hpos := chunk.start_pos
  have hle := chunk.start_le
  rw [allocate] at h
  split_ifs at h with hnext hzero
  · omega
  · cases h
  · cases h
    rfl

end Chunk

end Lucie
