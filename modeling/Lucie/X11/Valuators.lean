import Mathlib

/-!
# The axis values of an event

An event carries the values of some valuators, and a mask with a bit for each of them. The value of
a valuator is behind those of the valuators with smaller numbers that are present.
-/

set_option autoImplicit false

namespace Lucie.X11

/-- `u32::count_ones`. -/
def countOnes (bits : BitVec 32) : ℕ := (List.range 32).countP bits.getLsbD

/-- `1 << bit_index`. A shift by the width of the type or more overflows. -/
def oneShiftedLeft (bitIndex : BitVec 16) : Option (BitVec 32) :=
  if bitIndex.toNat < 32 then some (1#32 <<< bitIndex.toNat) else none

/-- The sum of two numbers that are `u32`. -/
def checkedAdd (m n : ℕ) : Option ℕ := if m + n < 2 ^ 32 then some (m + n) else none

/-- `bit_is_set`. -/
def bitIsSet (bits : BitVec 32) (bitIndex : BitVec 16) : Option Bool :=
  (oneShiftedLeft bitIndex).map fun mask => bits &&& mask ≠ 0

/-- `bit_is_set_in_vec`. -/
def bitIsSetInVec (bitVec : List (BitVec 32)) (bitIndex : BitVec 16) : Option Bool :=
  let arrayIndex := bitIndex.toNat / 32
  bitVec[arrayIndex]?.elim (some false) fun bits => bitIsSet bits (bitIndex % 32)

/-- `keep_bits_upto`. -/
def keepBitsUpto (bits : BitVec 32) (bitIndex : BitVec 16) : Option (BitVec 32) :=
  if bitIndex = 0 then some 0
  else if bitIndex ≥ 32 then some (.allOnes 32)
  else (oneShiftedLeft bitIndex).map fun mask => bits &&& (mask - 1)

/-- `popcount_upto_bit_index`. -/
def popcountUptoBitIndex (bitVec : List (BitVec 32)) (bitIndex : BitVec 16) : Option ℕ := do
  let arrayIndex := bitIndex.toNat / 32
  let popcount ← bitVec[arrayIndex]?.elim (some 0) fun bits =>
    (keepBitsUpto bits (bitIndex % 32)).map countOnes
  if arrayIndex = 0 then some popcount
  else do
    let leadingPopcount ← (bitVec.take arrayIndex).foldlM
      (fun sum bits => checkedAdd sum (countOnes bits)) 0
    checkedAdd popcount leadingPopcount

/-- `get_valuator_axis_index`. It panics where its arithmetic overflows. -/
def getValuatorAxisIndex (valuatorMask : List (BitVec 32)) (valuatorNumber : BitVec 16) :
    Option (Option ℕ) := do
  if ← bitIsSetInVec valuatorMask valuatorNumber then
    (popcountUptoBitIndex valuatorMask valuatorNumber).map some
  else some none

/-! ## The bits of the mask -/

/-- A bit of the whole mask. Behind its end no bit is set. -/
def isPresent (valuatorMask : List (BitVec 32)) (i : ℕ) : Bool :=
  (valuatorMask[i / 32]?.getD 0).getLsbD (i % 32)

theorem countP_range_add (p : ℕ → Bool) (n m : ℕ) :
    (List.range (n + m)).countP p =
      (List.range n).countP p + (List.range m).countP fun i => p (n + i) := by
  rw [List.range_add, List.countP_append, List.countP_map]
  rfl

theorem countP_range_of_le {p q : ℕ → Bool} {r n : ℕ} (hle : r ≤ n)
    (hbefore : ∀ i < r, p i = q i) (hbehind : ∀ i, r ≤ i → p i = false) :
    (List.range n).countP p = (List.range r).countP q := by
  obtain ⟨k, rfl⟩ := Nat.exists_eq_add_of_le hle
  have hfirst : (List.range r).countP p = (List.range r).countP q :=
    List.countP_congr fun i hi => by rw [hbefore i (List.mem_range.mp hi)]
  have hrest : ((List.range k).countP fun i => p (r + i)) = 0 :=
    List.countP_eq_zero.mpr fun i _ => by simp [hbehind (r + i) (Nat.le_add_right r i)]
  rw [countP_range_add, hfirst, hrest, Nat.add_zero]

/-- The bits that are set before a word are those of the words before. -/
theorem countP_isPresent_mul (bitVec : List (BitVec 32)) (arrayIndex : ℕ) :
    (List.range (32 * arrayIndex)).countP (isPresent bitVec) =
      ((bitVec.take arrayIndex).map countOnes).sum := by
  induction arrayIndex with
  | zero => simp
  | succ arrayIndex ih =>
    have hword : ((List.range 32).countP fun i => isPresent bitVec (32 * arrayIndex + i)) =
        countOnes (bitVec[arrayIndex]?.getD 0) := by
      refine List.countP_congr fun i hi => ?_
      have hlt := List.mem_range.mp hi
      have hdiv : (32 * arrayIndex + i) / 32 = arrayIndex := by omega
      have hmod : (32 * arrayIndex + i) % 32 = i := by omega
      rw [isPresent, hdiv, hmod]
    have hlast : countOnes (bitVec[arrayIndex]?.getD 0) =
        (bitVec[arrayIndex]?.toList.map countOnes).sum := by
      cases bitVec[arrayIndex]? with
      | none => decide
      | some bits => simp
    rw [Nat.mul_succ, countP_range_add, ih, hword, hlast, List.take_add_one, List.map_append,
      List.sum_append]

theorem countOnes_le (bits : BitVec 32) : countOnes bits ≤ 32 := by
  have hle := List.countP_le_length (p := bits.getLsbD) (l := List.range 32)
  rwa [List.length_range] at hle

theorem sum_countOnes_le (bitVec : List (BitVec 32)) :
    (bitVec.map countOnes).sum ≤ 32 * bitVec.length := by
  induction bitVec with
  | nil => exact Nat.le_refl 0
  | cons bits bitVec ih =>
    have hle := countOnes_le bits
    rw [List.map_cons, List.sum_cons, List.length_cons]
    omega

/-- A sum of few words does not overflow. -/
theorem foldlM_checkedAdd {bitVec : List (BitVec 32)} {sum : ℕ}
    (hsum : sum + (bitVec.map countOnes).sum < 2 ^ 32) :
    bitVec.foldlM (fun sum bits => checkedAdd sum (countOnes bits)) sum =
      some (sum + (bitVec.map countOnes).sum) := by
  induction bitVec generalizing sum with
  | nil => rfl
  | cons bits bitVec ih =>
    rw [List.map_cons, List.sum_cons, ← Nat.add_assoc] at hsum ⊢
    have hfirst : checkedAdd sum (countOnes bits) = some (sum + countOnes bits) :=
      if_pos (by omega)
    rw [List.foldlM_cons, hfirst]
    exact ih hsum

/-! ## The bits of a word -/

theorem toNat_mod_word (bitIndex : BitVec 16) : (bitIndex % 32).toNat = bitIndex.toNat % 32 := by
  rw [BitVec.toNat_umod]
  rfl

theorem oneShiftedLeft_mod (bitIndex : BitVec 16) :
    oneShiftedLeft (bitIndex % 32) = some (1#32 <<< (bitIndex.toNat % 32)) := by
  have hlt : bitIndex.toNat % 32 < 32 := Nat.mod_lt _ (by omega)
  rw [oneShiftedLeft, toNat_mod_word, if_pos hlt]

theorem bitIsSet_mod (bits : BitVec 32) (bitIndex : BitVec 16) :
    bitIsSet bits (bitIndex % 32) = some (bits.getLsbD (bitIndex.toNat % 32)) := by
  have hlt : bitIndex.toNat % 32 < 32 := Nat.mod_lt _ (by omega)
  have hmask : BitVec.twoPow 32 (bitIndex.toNat % 32) ≠ 0#32 := by
    intro hzero
    have hpow := BitVec.toNat_twoPow_of_lt hlt
    have hpos := Nat.two_pow_pos (bitIndex.toNat % 32)
    rw [hzero, BitVec.toNat_zero] at hpow
    omega
  rw [bitIsSet, oneShiftedLeft_mod, ← BitVec.twoPow_eq, Option.map_some, BitVec.and_twoPow]
  cases bits.getLsbD (bitIndex.toNat % 32) with
  | true => simpa using hmask
  | false => simp

/-- One less than a power of two has the bits before it. -/
theorem getLsbD_mask {r : ℕ} (hr : r < 32) (i : ℕ) :
    ((1#32 <<< r) - 1).getLsbD i = decide (i < r) := by
  have hpos := Nat.two_pow_pos r
  have hpow := BitVec.toNat_twoPow_of_lt hr
  have hone : (1#32).toNat ≤ (BitVec.twoPow 32 r).toNat := by
    rw [hpow, BitVec.toNat_ofNat]
    omega
  have hmask : ((1#32 <<< r) - 1).toNat = 2 ^ r - 1 := by
    rw [← BitVec.twoPow_eq]
    exact (BitVec.toNat_sub_of_le hone).trans (by rw [hpow]; rfl)
  rw [← BitVec.testBit_toNat, hmask, Nat.testBit_two_pow_sub_one]

theorem countOnes_keepBitsUpto (bits : BitVec 32) (bitIndex : BitVec 16) :
    (keepBitsUpto bits (bitIndex % 32)).map countOnes =
      some ((List.range (bitIndex.toNat % 32)).countP bits.getLsbD) := by
  have hindex := toNat_mod_word bitIndex
  have hshift := oneShiftedLeft_mod bitIndex
  have hlt : bitIndex.toNat % 32 < 32 := Nat.mod_lt _ (by omega)
  generalize bitIndex % 32 = index at hindex hshift
  generalize bitIndex.toNat % 32 = r at hindex hshift hlt
  unfold keepBitsUpto
  by_cases hzero : index = 0
  · have hr : r = 0 := by
      rw [← hindex, hzero]
      rfl
    have hnone : countOnes 0 = 0 := by decide
    rw [if_pos hzero, hr, Option.map_some, hnone]
    rfl
  · have hword : ¬index ≥ 32 := by
      intro hle
      have hle' : 32 ≤ index.toNat := BitVec.le_def.mp hle
      omega
    have hbits : (List.range 32).countP (bits &&& (1#32 <<< r - 1)).getLsbD =
        (List.range r).countP bits.getLsbD := by
      refine countP_range_of_le (Nat.le_of_lt hlt) (fun i hi => ?_) fun i hi => ?_
      · rw [BitVec.getLsbD_and, getLsbD_mask hlt, decide_eq_true hi, Bool.and_true]
      · rw [BitVec.getLsbD_and, getLsbD_mask hlt, decide_eq_false (by omega), Bool.and_false]
    rw [if_neg hzero, if_neg hword, hshift, Option.map_some, Option.map_some, countOnes, hbits]

/-- The bits that are set before one, in the words before and in its own word. -/
theorem popcountUptoBitIndex_eq (bitVec : List (BitVec 32)) (bitIndex : BitVec 16) :
    popcountUptoBitIndex bitVec bitIndex =
      some ((List.range bitIndex.toNat).countP (isPresent bitVec)) := by
  have hsplit : bitIndex.toNat = 32 * (bitIndex.toNat / 32) + bitIndex.toNat % 32 :=
    (Nat.div_add_mod _ _).symm
  have hlt : bitIndex.toNat % 32 < 32 := Nat.mod_lt _ (by omega)
  have hword : (bitVec[bitIndex.toNat / 32]?.elim (some 0) fun bits =>
        (keepBitsUpto bits (bitIndex % 32)).map countOnes) =
      some ((List.range (bitIndex.toNat % 32)).countP fun i =>
        isPresent bitVec (32 * (bitIndex.toNat / 32) + i)) := by
    have hbits : ((List.range (bitIndex.toNat % 32)).countP fun i =>
        isPresent bitVec (32 * (bitIndex.toNat / 32) + i)) =
        (List.range (bitIndex.toNat % 32)).countP
          (bitVec[bitIndex.toNat / 32]?.getD 0).getLsbD := by
      refine List.countP_congr fun i hi => ?_
      have hi' := List.mem_range.mp hi
      have hdiv : (32 * (bitIndex.toNat / 32) + i) / 32 = bitIndex.toNat / 32 := by omega
      have hmod : (32 * (bitIndex.toNat / 32) + i) % 32 = i := by omega
      rw [isPresent, hdiv, hmod]
    rw [hbits]
    cases bitVec[bitIndex.toNat / 32]? with
    | none =>
      have hnone : (List.range (bitIndex.toNat % 32)).countP (0#32).getLsbD = 0 :=
        List.countP_eq_zero.mpr fun i _ => by simp
      exact congrArg some hnone.symm
    | some bits => exact countOnes_keepBitsUpto bits bitIndex
  have hfew := sum_countOnes_le (bitVec.take (bitIndex.toNat / 32))
  have hlen := List.length_take_le (bitIndex.toNat / 32) bitVec
  have hindex := bitIndex.isLt
  have hcount := List.countP_le_length (p := fun i =>
    isPresent bitVec (32 * (bitIndex.toNat / 32) + i)) (l := List.range (bitIndex.toNat % 32))
  rw [List.length_range] at hcount
  have hcountAll : (List.range bitIndex.toNat).countP (isPresent bitVec) =
      ((bitVec.take (bitIndex.toNat / 32)).map countOnes).sum +
        (List.range (bitIndex.toNat % 32)).countP fun i =>
          isPresent bitVec (32 * (bitIndex.toNat / 32) + i) := by
    rw [← countP_isPresent_mul, ← countP_range_add, ← hsplit]
  unfold popcountUptoBitIndex
  dsimp only
  rw [hword, hcountAll, Option.bind_eq_bind, Option.bind_some]
  by_cases hzero : bitIndex.toNat / 32 = 0
  · rw [if_pos hzero, hzero]
    simp
  · rw [if_neg hzero, foldlM_checkedAdd (by omega), Nat.zero_add, Option.bind_some, checkedAdd,
      if_pos (by omega), Nat.add_comm]

/-- The index of a valuator that is present is the number of those before it, and nothing
overflows. -/
theorem getValuatorAxisIndex_eq (valuatorMask : List (BitVec 32)) (valuatorNumber : BitVec 16) :
    getValuatorAxisIndex valuatorMask valuatorNumber =
      some (if isPresent valuatorMask valuatorNumber.toNat then
        some ((List.range valuatorNumber.toNat).countP (isPresent valuatorMask))
      else none) := by
  have hset : bitIsSetInVec valuatorMask valuatorNumber =
      some (isPresent valuatorMask valuatorNumber.toNat) := by
    unfold bitIsSetInVec isPresent
    dsimp only
    cases valuatorMask[valuatorNumber.toNat / 32]? with
    | none => simp
    | some bits => exact bitIsSet_mod bits valuatorNumber
  unfold getValuatorAxisIndex
  rw [hset, popcountUptoBitIndex_eq]
  cases isPresent valuatorMask valuatorNumber.toNat with
  | false => rfl
  | true => rfl

end Lucie.X11
