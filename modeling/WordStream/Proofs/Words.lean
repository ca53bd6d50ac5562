import Mathlib.Algebra.Group.Int.Defs
import Mathlib.Algebra.Group.Nat.Defs
import WordStream.Value

/-!
# Words and the numbers they stand for

The three rearrangements of bits under typed values, each with what it does to single bits or to
numbers, and its inverse: reversal, zigzag and the halves of a double word.
-/

namespace WordStream

/-! ## Reversal -/

/-- Where a layer of reversal that swaps groups of `width` bits takes bit `i` from. -/
def swapPartner (width i : Nat) : Nat := if i / width % 2 = 0 then i + width else i - width

theorem testBit_swapGroups {mask width : UInt32} (w : Nat) (hw : width.toNat = w) (hpos : 0 < w)
    (hlt : w < 32) (hmask : ∀ i < 32, mask.toNat.testBit i = decide (i / w % 2 = 0))
    (x : UInt32) {i : Nat} (hi : i < 32) :
    (swapGroups mask width x).toNat.testBit i = x.toNat.testBit (swapPartner w i) := by
  rw [swapGroups, UInt32.toNat_or, UInt32.toNat_shiftLeft, UInt32.toNat_and, UInt32.toNat_and,
    UInt32.toNat_shiftRight, hw, Nat.mod_eq_of_lt hlt, Nat.testBit_or, Nat.testBit_mod_two_pow,
    Nat.testBit_shiftLeft, Nat.testBit_and, Nat.testBit_and, Nat.testBit_shiftRight, hmask i hi,
    decide_eq_true hi, Bool.true_and, swapPartner, Nat.add_comm w i]
  by_cases hge : w ≤ i
  · -- Below bit `i` lies a whole group, whose parity is the other one.
    obtain ⟨j, rfl⟩ : ∃ j, i = j + w := ⟨i - w, by omega⟩
    rw [Nat.add_sub_cancel, hmask j (by omega), Nat.add_div_right j hpos]
    by_cases hpar : j / w % 2 = 0
    · simp [hpar, show ¬ (j / w + 1) % 2 = 0 by omega]
    · simp [hpar, show (j / w + 1) % 2 = 0 by omega]
  · simp [hge, Nat.div_eq_of_lt (Nat.lt_of_not_le hge)]

/-- Reversal takes bit `i` from bit `31 - i`. -/
theorem testBit_reverseBits (x : UInt32) {i : Nat} (hi : i < 32) :
    (reverseBits x).toNat.testBit i = x.toNat.testBit (31 - i) := by
  -- The five layers together lead from bit `i` to bit `31 - i`, and each stays below bit 32.
  have hpath : ∀ i < 32, swapPartner 16 i < 32 ∧ swapPartner 8 i < 32 ∧ swapPartner 4 i < 32 ∧
      swapPartner 2 i < 32 ∧ swapPartner 1 (swapPartner 2 (swapPartner 4 (swapPartner 8
        (swapPartner 16 i)))) = 31 - i := by decide
  have h16 := (hpath i hi).1
  have h8 := (hpath _ h16).2.1
  have h4 := (hpath _ h8).2.2.1
  have h2 := (hpath _ h4).2.2.2.1
  rw [reverseBits, testBit_swapGroups 16 rfl (by decide) (by decide) (by decide) _ hi,
    testBit_swapGroups 8 rfl (by decide) (by decide) (by decide) _ h16,
    testBit_swapGroups 4 rfl (by decide) (by decide) (by decide) _ h8,
    testBit_swapGroups 2 rfl (by decide) (by decide) (by decide) _ h4,
    testBit_swapGroups 1 rfl (by decide) (by decide) (by decide) _ h2]
  exact congrArg x.toNat.testBit (hpath i hi).2.2.2.2

@[simp] theorem reverseBits_reverseBits (x : UInt32) : reverseBits (reverseBits x) = x := by
  apply UInt32.toNat_inj.mp
  apply Nat.eq_of_testBit_eq
  intro i
  by_cases hi : i < 32
  · rw [testBit_reverseBits _ hi, testBit_reverseBits _ (by omega),
      show 31 - (31 - i) = i by omega]
  · have hpow : 2 ^ 32 ≤ 2 ^ i := Nat.pow_le_pow_right (by decide) (by omega)
    rw [Nat.testBit_lt_two_pow (Nat.lt_of_lt_of_le (UInt32.toNat_lt _) hpow),
      Nat.testBit_lt_two_pow (Nat.lt_of_lt_of_le (UInt32.toNat_lt _) hpow)]

/-! ## Zigzag -/

/-- An arithmetic shift by 31 leaves only the sign. -/
theorem shiftRight_sign (v : Int32) : v >>> 31 = if v.toInt < 0 then -1 else 0 := by
  have hle := v.le_toInt
  have hlt := v.toInt_lt
  have hshift : (v >>> 31).toInt = v.toInt / 2 ^ 31 := by
    change (v.toBitVec.sshiftRight 31).toInt = _
    rw [BitVec.toInt_sshiftRight, Int32.toInt_toBitVec, Int.shiftRight_eq_div_pow]
    rfl
  apply Int32.toInt_inj.mp
  rw [hshift]
  split
  · change _ = (-1 : Int)
    omega
  · change _ = (0 : Int)
    omega

/-- A pattern is its number modulo the power of two. -/
theorem toNat_eq_toInt_emod {width : Nat} (x : BitVec width) :
    (x.toNat : Int) = x.toInt % (2 ^ width : Nat) := by
  have hlt : (x.toNat : Int) < (2 ^ width : Nat) := Int.ofNat_lt.mpr x.isLt
  rw [BitVec.toInt_eq_toNat_bmod, Int.bmod_emod, Int.emod_eq_of_lt (Int.natCast_nonneg _) hlt]

theorem toNat_toUInt32 (v : Int32) : (v.toUInt32.toNat : Int) = v.toInt % 2 ^ 32 :=
  toNat_eq_toInt_emod v.toBitVec

theorem toNat_toUInt64 (v : Int64) : (v.toUInt64.toNat : Int) = v.toInt % 2 ^ 64 :=
  toNat_eq_toInt_emod v.toBitVec

theorem toNat_shiftLeft_one (v : Int32) :
    (v <<< 1).toUInt32.toNat = 2 * v.toUInt32.toNat % 2 ^ 32 := by
  change (v.toUInt32 <<< 1).toNat = _
  rw [UInt32.toNat_shiftLeft]
  simp [Nat.shiftLeft_eq, Nat.mul_comm]

/-- Zigzag doubles a number, and leaves the odd places to the negative ones. -/
theorem toNat_zigzag (v : Int32) :
    ((zigzag v).toNat : Int) = if v.toInt < 0 then -2 * v.toInt - 1 else 2 * v.toInt := by
  have hle := v.le_toInt
  have hlt := v.toInt_lt
  have hword := toNat_toUInt32 v
  rw [zigzag, shiftRight_sign]
  -- Twice the number, all its bits turned over when the sign is set.
  split
  · rw [Int32.xor_neg_one, Int32.toUInt32_not, UInt32.toNat_not, toNat_shiftLeft_one, UInt32.size]
    omega
  · rw [Int32.xor_zero, toNat_shiftLeft_one]
    omega

theorem and_one_eq (u : UInt32) : u &&& 1 = if u.toNat % 2 = 0 then 0 else 1 := by
  apply UInt32.toNat_inj.mp
  rw [UInt32.toNat_and]
  change u.toNat &&& 2 ^ 1 - 1 = _
  rw [Nat.and_two_pow_sub_one_eq_mod]
  split
  · assumption
  · change _ = 1
    omega

theorem toInt_shiftRight_one (u : UInt32) : (u >>> 1).toInt32.toInt = u.toNat / 2 := by
  have hlt := u.toNat_lt
  have hhalf : (u >>> 1).toNat = u.toNat / 2 := by
    rw [UInt32.toNat_shiftRight]
    simp [Nat.shiftRight_eq_div_pow]
  rw [← Int32.toInt_toBitVec, UInt32.toBitVec_toInt32, BitVec.toInt_eq_toNat_bmod,
    UInt32.toNat_toBitVec, hhalf, Int.bmod_eq_of_le (by omega) (by omega)]
  rfl

/-- The even places hold the numbers from zero on, the odd ones the negative numbers. -/
theorem toInt_unzigzag (u : UInt32) :
    (unzigzag u).toInt =
      if u.toNat % 2 = 0 then (u.toNat / 2 : Int) else -(u.toNat / 2 : Int) - 1 := by
  have hlt := u.toNat_lt
  rw [unzigzag, and_one_eq]
  split
  · rw [show -(0 : UInt32).toInt32 = 0 from rfl, Int32.xor_zero, toInt_shiftRight_one]
  · rw [show -(1 : UInt32).toInt32 = -1 from rfl, Int32.xor_neg_one, Int32.toInt_not,
      toInt_shiftRight_one, Int.bmod_eq_of_le (by omega) (by omega)]

@[simp] theorem unzigzag_zigzag (v : Int32) : unzigzag (zigzag v) = v := by
  have hword := toNat_zigzag v
  apply Int32.toInt_inj.mp
  rw [toInt_unzigzag]
  split at hword <;> split <;> omega

@[simp] theorem zigzag_unzigzag (u : UInt32) : zigzag (unzigzag u) = u := by
  have hnumber := toInt_unzigzag u
  have hword := toNat_zigzag (unzigzag u)
  apply UInt32.toNat_inj.mp
  split at hnumber <;> split at hword <;> omega

/-! ## Halves -/

theorem toNat_lowHalf (x : UInt64) : (lowHalf x).toNat = x.toNat % 2 ^ 32 := by
  rw [lowHalf, UInt64.toNat_toUInt32]

theorem toNat_highHalf (x : UInt64) : (highHalf x).toNat = x.toNat / 2 ^ 32 := by
  have hlt := x.toNat_lt
  rw [highHalf, UInt64.toNat_toUInt32, UInt64.toNat_shiftRight]
  change x.toNat >>> 32 % 2 ^ 32 = _
  rw [Nat.shiftRight_eq_div_pow]
  omega

theorem toNat_joinHalves (low high : UInt32) :
    (joinHalves low high).toNat = 2 ^ 32 * high.toNat + low.toNat := by
  have hlow := low.toNat_lt
  have hhigh := high.toNat_lt
  rw [joinHalves, UInt64.toNat_or, UInt64.toNat_shiftLeft, UInt32.toNat_toUInt64,
    UInt32.toNat_toUInt64]
  change high.toNat <<< 32 % 2 ^ 64 ||| low.toNat = _
  rw [Nat.shiftLeft_eq, Nat.mul_comm, Nat.mod_eq_of_lt (by omega),
    Nat.two_pow_add_eq_or_of_lt hlow]

@[simp] theorem joinHalves_halves (x : UInt64) : joinHalves (lowHalf x) (highHalf x) = x := by
  apply UInt64.toNat_inj.mp
  rw [toNat_joinHalves, toNat_lowHalf, toNat_highHalf]
  omega

@[simp] theorem lowHalf_joinHalves (low high : UInt32) : lowHalf (joinHalves low high) = low := by
  have hlow := low.toNat_lt
  apply UInt32.toNat_inj.mp
  rw [toNat_lowHalf, toNat_joinHalves]
  omega

@[simp] theorem highHalf_joinHalves (low high : UInt32) :
    highHalf (joinHalves low high) = high := by
  have hlow := low.toNat_lt
  apply UInt32.toNat_inj.mp
  rw [toNat_highHalf, toNat_joinHalves]
  omega

/-- The low half of a number is the number as a signed word. -/
theorem toInt32_lowHalf (number : Int64) : (lowHalf number.toUInt64).toInt32 = number.toInt32 := by
  have hword := toNat_toUInt32 number.toInt32
  have hnumber := toNat_toUInt64 number
  have hmod : number.toInt.bmod (2 ^ 32) % ((2 ^ 32 : Nat) : Int) = number.toInt % ((2 ^ 32 : Nat) : Int) :=
    Int.bmod_emod
  have hlow : lowHalf number.toUInt64 = number.toInt32.toUInt32 := by
    apply UInt32.toNat_inj.mp
    rw [Int64.toInt_toInt32] at hword
    rw [toNat_lowHalf]
    omega
  rw [hlow, Int32.toInt32_toUInt32]

/-- The high half of a number that fits a signed word repeats its sign: it is zero or minus one. -/
theorem zigzag_highHalf {number : Int64} (h : -2 ^ 31 ≤ number.toInt ∧ number.toInt < 2 ^ 31) :
    zigzag (highHalf number.toUInt64).toInt32 = if number.toInt < 0 then 1 else 0 := by
  have hnumber := toNat_toUInt64 number
  by_cases hnegative : number.toInt < 0
  · have hhigh : highHalf number.toUInt64 = 0xFFFFFFFF := by
      apply UInt32.toNat_inj.mp
      rw [toNat_highHalf]
      change _ = 4294967295
      omega
    rw [if_pos hnegative, hhigh]
    decide
  · have hhigh : highHalf number.toUInt64 = 0 := by
      apply UInt32.toNat_inj.mp
      rw [toNat_highHalf]
      change _ = 0
      omega
    rw [if_neg hnegative, hhigh]
    decide

end WordStream
