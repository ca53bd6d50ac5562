import Mathlib.Algebra.Group.Nat.Defs
import WordStream.Bits

/-!
# Strings of bits and their bytes

What the operations on single bytes do to their bits, and that packing is the inverse of reading off
bits: a string of bits, filled up to whole bytes, is exactly what its packing spells.
-/

namespace WordStream.Bits

/-- The bits, followed by as few zeros as fill the last byte. -/
def aligned (bits : List Bool) : List Bool :=
  bits ++ List.replicate ((8 - bits.length % 8) % 8) false

theorem length_aligned (bits : List Bool) :
    (aligned bits).length = 8 * ((bits.length + 7) / 8) := by
  rw [aligned, List.length_append, List.length_replicate]
  omega

/-- Where the bits fill whole bytes, no zeros are needed. -/
theorem aligned_of_length {bits : List Bool} (h : bits.length % 8 = 0) : aligned bits = bits := by
  rw [aligned, h]
  exact List.append_nil bits

@[simp] theorem aligned_aligned (bits : List Bool) : aligned (aligned bits) = aligned bits :=
  aligned_of_length (by rw [length_aligned, Nat.mul_mod_right])

@[simp] theorem getElem_ofByte (byte : UInt8) (i : Nat) (h : i < (ofByte byte).length) :
    (ofByte byte)[i] = bitAt byte i := by
  simp [ofByte]

theorem getElem?_ofByte (byte : UInt8) {i : Nat} (hi : i < 8) :
    (ofByte byte)[i]? = some (bitAt byte i) := by
  rw [List.getElem?_eq_getElem (by simpa using hi), getElem_ofByte]

theorem ofByte_injective : Function.Injective ofByte := by
  intro x y h
  have hbit : ∀ i < 8, bitAt x i = bitAt y i := by
    intro i hi
    have hx := getElem?_ofByte x hi
    rw [h, getElem?_ofByte y hi] at hx
    exact (Option.some.inj hx).symm
  apply UInt8.toNat_inj.mp
  apply Nat.eq_of_testBit_eq
  intro j
  by_cases hj : j < 8
  · have hj' := hbit (7 - j) (by omega)
    rwa [bitAt, bitAt, show 7 - (7 - j) = j by omega] at hj'
  · have hpow : 2 ^ 8 ≤ 2 ^ j := Nat.pow_le_pow_right (by decide) (by omega)
    rw [Nat.testBit_lt_two_pow (Nat.lt_of_lt_of_le x.toNat_lt hpow),
      Nat.testBit_lt_two_pow (Nat.lt_of_lt_of_le y.toNat_lt hpow)]

/-! ## Operations on one byte -/

theorem bitAt_or (x y : UInt8) (i : Nat) : bitAt (x ||| y) i = (bitAt x i || bitAt y i) := by
  simp [bitAt]

theorem bitAt_shiftRight (byte : UInt8) {k i : Nat} (hk : k < 8) (hi : i < 8) :
    bitAt (byte >>> UInt8.ofNat k) i = if i < k then false else bitAt byte (i - k) := by
  have hshift : (byte >>> UInt8.ofNat k).toNat = byte.toNat >>> k := by
    rw [UInt8.toNat_shiftRight, UInt8.toNat_ofNat', Nat.mod_eq_of_lt (by omega : k < 2 ^ 8),
      Nat.mod_eq_of_lt hk]
  rw [bitAt, hshift, Nat.testBit_shiftRight]
  split
  · have hpow : 2 ^ 8 ≤ 2 ^ (k + (7 - i)) := Nat.pow_le_pow_right (by decide) (by omega)
    exact Nat.testBit_lt_two_pow (Nat.lt_of_lt_of_le byte.toNat_lt hpow)
  · rw [bitAt, show k + (7 - i) = 7 - (i - k) by omega]

theorem bitAt_shiftLeft (byte : UInt8) {k i : Nat} (hk : k < 8) (hi : i < 8) :
    bitAt (byte <<< UInt8.ofNat k) i = if i + k < 8 then bitAt byte (i + k) else false := by
  have hshift : (byte <<< UInt8.ofNat k).toNat = byte.toNat <<< k % 2 ^ 8 := by
    rw [UInt8.toNat_shiftLeft, UInt8.toNat_ofNat', Nat.mod_eq_of_lt (by omega : k < 2 ^ 8),
      Nat.mod_eq_of_lt hk]
  rw [bitAt, hshift, Nat.testBit_mod_two_pow, Nat.testBit_shiftLeft]
  split
  · rw [bitAt, show 7 - i - k = 7 - (i + k) by omega]
    simp only [show 7 - i < 8 by omega, show k ≤ 7 - i by omega, decide_true, Bool.true_and]
  · simp only [show ¬ k ≤ 7 - i by omega, decide_false, Bool.false_and, Bool.and_false]

@[simp] theorem ofByte_zero : ofByte 0 = List.replicate 8 false := by decide

/-- The high bits of a byte, moved down by `k`, come after `k` zeros. -/
theorem ofByte_shiftRight (byte : UInt8) {k : Nat} (hk : k < 8) :
    ofByte (byte >>> UInt8.ofNat k) =
      List.replicate k false ++ (ofByte byte).take (8 - k) := by
  apply List.ext_getElem
  · simp only [length_ofByte, List.length_append, List.length_replicate, List.length_take]
    omega
  · intro i hi _
    rw [length_ofByte] at hi
    rw [getElem_ofByte, bitAt_shiftRight byte hk hi, List.getElem_append]
    simp only [List.length_replicate, List.getElem_replicate, List.getElem_take, getElem_ofByte]
    split <;> rfl

/-- The low bits of a byte, moved up by `k`, come before `k` zeros. -/
theorem ofByte_shiftLeft (byte : UInt8) {k : Nat} (hk : k < 8) :
    ofByte (byte <<< UInt8.ofNat k) =
      (ofByte byte).drop k ++ List.replicate k false := by
  apply List.ext_getElem
  · simp only [length_ofByte, List.length_append, List.length_replicate, List.length_drop]
    omega
  · intro i hi _
    rw [length_ofByte] at hi
    rw [getElem_ofByte, bitAt_shiftLeft byte hk hi, List.getElem_append]
    simp only [List.length_drop, length_ofByte, List.getElem_drop, getElem_ofByte,
      List.getElem_replicate]
    by_cases h : i + k < 8
    · rw [if_pos h, dif_pos (by omega), Nat.add_comm]
    · rw [if_neg h, dif_neg (by omega)]

/-- Two bytes that fill up each other's zeros are merged into one. -/
theorem ofByte_or {x y : UInt8} {front back : List Bool}
    (hx : ofByte x = front ++ List.replicate back.length false)
    (hy : ofByte y = List.replicate front.length false ++ back) :
    ofByte (x ||| y) = front ++ back := by
  have hlength : front.length + back.length = 8 := by
    have := congrArg List.length hx
    simpa using this.symm
  apply List.ext_getElem?
  intro i
  by_cases hi : i < 8
  · have hxi := getElem?_ofByte x hi
    have hyi := getElem?_ofByte y hi
    rw [hx] at hxi
    rw [hy] at hyi
    rw [getElem?_ofByte _ hi, bitAt_or]
    -- In front of the seam the other byte has only zeros, and behind it this one has.
    by_cases hfront : i < front.length
    · rw [List.getElem?_append_left hfront] at hxi ⊢
      rw [List.getElem?_append_left (by simpa using hfront), List.getElem?_replicate,
        if_pos hfront] at hyi
      rw [hxi, ← Option.some.inj hyi, Bool.or_false]
    · rw [List.getElem?_append_right (by omega)] at hxi ⊢
      rw [List.getElem?_append_right (by simpa using hfront), List.length_replicate] at hyi
      rw [List.getElem?_replicate, if_pos (by omega)] at hxi
      rw [hyi, ← Option.some.inj hxi, Bool.false_or]
  · rw [List.getElem?_eq_none (by simpa using hi),
      List.getElem?_eq_none (by rw [List.length_append]; omega)]

/-- The high bits of a byte fill up another one that is zero from bit `k` on. -/
theorem ofByte_merge {old : UInt8} (byte : UInt8) {k : Nat} (hk : k < 8)
    (hold : (ofByte old).drop k = List.replicate (8 - k) false) :
    ofByte (old ||| byte >>> UInt8.ofNat k) =
      (ofByte old).take k ++ (ofByte byte).take (8 - k) := by
  apply ofByte_or
  · have hlength : ((ofByte byte).take (8 - k)).length = 8 - k := by simp
    rw [hlength, ← hold, List.take_append_drop]
  · have hlength : ((ofByte old).take k).length = k := by
      rw [List.length_take, length_ofByte]
      omega
    rw [hlength, ofByte_shiftRight byte hk]

/-- A byte that is zero from bit `b` on has a number without low bits. -/
theorem toNat_mod_of_drop {byte : UInt8} {b : Nat} (hb : b ≤ 8)
    (h : (ofByte byte).drop b = List.replicate (8 - b) false) : byte.toNat % 2 ^ (8 - b) = 0 := by
  apply Nat.eq_of_testBit_eq
  intro j
  rw [Nat.testBit_mod_two_pow, Nat.zero_testBit]
  by_cases hj : j < 8 - b
  · have hbit : ((ofByte byte).drop b)[7 - j - b]? = some (bitAt byte (7 - j)) := by
      rw [List.getElem?_drop, show b + (7 - j - b) = 7 - j by omega,
        getElem?_ofByte byte (by omega)]
    rw [h, List.getElem?_replicate, if_pos (by omega), bitAt, show 7 - (7 - j) = j by omega] at hbit
    rw [← Option.some.inj hbit, Bool.and_false]
  · rw [decide_eq_false hj, Bool.false_and]

/-! ## Strings of bytes -/

theorem ofBytes_append (xs ys : List UInt8) : ofBytes (xs ++ ys) = ofBytes xs ++ ofBytes ys := by
  simp [ofBytes]

theorem ofBytes_take (n : Nat) (bytes : List UInt8) :
    ofBytes (bytes.take n) = (ofBytes bytes).take (8 * n) := by
  by_cases h : n ≤ bytes.length
  · have hlength : (ofBytes (bytes.take n)).length = 8 * n := by
      rw [length_ofBytes, List.length_take_of_le h]
    conv => rhs; rw [← List.take_append_drop n bytes, ofBytes_append]
    rw [List.take_left' hlength]
  · rw [List.take_of_length_le (by omega), List.take_of_length_le (by simp; omega)]

theorem ofBytes_drop (n : Nat) (bytes : List UInt8) :
    ofBytes (bytes.drop n) = (ofBytes bytes).drop (8 * n) := by
  by_cases h : n ≤ bytes.length
  · have hlength : (ofBytes (bytes.take n)).length = 8 * n := by
      rw [length_ofBytes, List.length_take_of_le h]
    conv => rhs; rw [← List.take_append_drop n bytes, ofBytes_append]
    rw [List.drop_left' hlength]
  · rw [List.drop_of_length_le (by omega), List.drop_of_length_le (by simp; omega)]
    rfl

theorem take_ofBytes {bytes : List UInt8} {i : Nat} {byte : UInt8} (h : bytes[i]? = some byte)
    {b : Nat} (hb : b ≤ 8) :
    (ofBytes bytes).take (8 * i + b) = ofBytes (bytes.take i) ++ (ofByte byte).take b := by
  have htail : bytes.drop i = byte :: bytes.drop (i + 1) := by
    obtain ⟨hi, rfl⟩ := List.getElem?_eq_some_iff.mp h
    exact List.drop_eq_getElem_cons hi
  rw [List.take_add, ← ofBytes_take, ← ofBytes_drop, htail, ofBytes_cons,
    List.take_append_of_le_length (by simpa using hb)]

theorem drop_ofBytes {bytes : List UInt8} {i : Nat} {byte : UInt8} (h : bytes[i]? = some byte)
    {b : Nat} (hb : b ≤ 8) :
    (ofBytes bytes).drop (8 * i + b) = (ofByte byte).drop b ++ ofBytes (bytes.drop (i + 1)) := by
  have htail : bytes.drop i = byte :: bytes.drop (i + 1) := by
    obtain ⟨hi, rfl⟩ := List.getElem?_eq_some_iff.mp h
    exact List.drop_eq_getElem_cons hi
  rw [← List.drop_drop, ← ofBytes_drop, htail, ofBytes_cons,
    List.drop_append_of_le_length (by simpa using hb)]

theorem ofBytes_injective : Function.Injective ofBytes := by
  intro xs
  induction xs with
  | nil =>
      intro ys h
      have hlength := congrArg List.length h
      rw [length_ofBytes, length_ofBytes, List.length_nil] at hlength
      exact (List.eq_nil_of_length_eq_zero (by omega)).symm
  | cons x xs ih =>
      intro ys h
      cases ys with
      | nil =>
          have hlength := congrArg List.length h
          rw [length_ofBytes, length_ofBytes] at hlength
          simp at hlength
      | cons y ys =>
          rw [ofBytes_cons, ofBytes_cons] at h
          obtain ⟨hhead, htail⟩ := List.append_inj h (by simp)
          rw [ofByte_injective hhead, ih htail]

/-! ## Packing -/

/-- Bits read into a number, the most significant one first, are its bits in that order. -/
theorem testBit_foldl (f : Nat → Bool) {n i : Nat} (hi : i < n) :
    ((List.range n).foldl (fun total i => 2 * total + (f i).toNat) 0).testBit (n - 1 - i) = f i := by
  induction n with
  | zero => omega
  | succ n ih =>
      rw [List.range_succ, List.foldl_append, List.foldl_cons, List.foldl_nil]
      -- The bit read last is the lowest one; the others are those of half the number.
      by_cases h : i = n
      · subst h
        rw [show i + 1 - 1 - i = 0 by omega, Nat.testBit_zero]
        cases f i <;> simp
      · have hlast := (f n).toNat_lt
        rw [show n + 1 - 1 - i = (n - 1 - i) + 1 by omega, Nat.testBit_succ,
          show ∀ t, (2 * t + (f n).toNat) / 2 = t by omega]
        exact ih (by omega)

theorem bitAt_toByte (bits : List Bool) {i : Nat} (hi : i < 8) :
    bitAt (toByte bits) i = bits.getD i false := by
  rw [bitAt, toByte, UInt8.toNat_ofNat', Nat.testBit_mod_two_pow, decide_eq_true (by omega),
    Bool.true_and]
  exact testBit_foldl (fun i => bits.getD i false) hi

theorem ofByte_toByte (bits : List Bool) :
    ofByte (toByte bits) = bits.take 8 ++ List.replicate (8 - bits.length) false := by
  apply List.ext_getElem
  · simp only [length_ofByte, List.length_append, List.length_take, List.length_replicate]
    omega
  · intro i hi _
    rw [length_ofByte] at hi
    rw [getElem_ofByte, bitAt_toByte bits hi, List.getElem_append]
    simp only [List.length_take, List.getElem_take, List.getElem_replicate, List.getD_eq_getElem?_getD]
    split
    · rw [List.getElem?_eq_getElem (by omega), Option.getD_some]
    · rw [List.getElem?_eq_none (by omega), Option.getD_none]

theorem ofBytes_pack (bits : List Bool) : ofBytes (pack bits) = aligned bits := by
  fun_induction pack bits with
  | case1 => rfl
  | case2 bit rest ih =>
      rw [ofBytes_cons, ih, ofByte_toByte, aligned, aligned]
      -- Either a whole byte is taken off, or all that is left goes into the last one.
      by_cases h : 7 ≤ rest.length
      · have hsplit : bit :: rest = (bit :: rest).take 8 ++ rest.drop 7 :=
          (List.take_append_drop 8 (bit :: rest)).symm
        have hnone : 8 - (bit :: rest).length = 0 := by
          rw [List.length_cons]
          omega
        have hfill : (8 - (rest.drop 7).length % 8) % 8 = (8 - (bit :: rest).length % 8) % 8 := by
          rw [List.length_cons, List.length_drop]
          omega
        rw [hnone, hfill, List.replicate_zero, List.append_nil, ← List.append_assoc, ← hsplit]
      · have hnil : rest.drop 7 = [] := List.drop_of_length_le (by omega)
        have hfill : (8 - (bit :: rest).length % 8) % 8 = 8 - (bit :: rest).length := by
          rw [List.length_cons]
          omega
        rw [hnil, hfill, List.take_of_length_le (by rw [List.length_cons]; omega)]
        simp

/-- Bytes are the packing of the bits that they spell, up to zeros in the last one. -/
theorem eq_pack {bytes : List UInt8} {bits : List Bool} (h : ofBytes bytes = aligned bits) :
    bytes = pack bits :=
  ofBytes_injective (h.trans (ofBytes_pack bits).symm)

/-! ## Whole bytes -/

/-- The bytes that the bits spell in full; up to seven bits are left over behind them. -/
def wholeBytes (bits : List Bool) : List UInt8 := (pack bits).take (bits.length / 8)

theorem ofBytes_wholeBytes (bits : List Bool) :
    ofBytes (wholeBytes bits) = bits.take (8 * (bits.length / 8)) := by
  rw [wholeBytes, ofBytes_take, ofBytes_pack, aligned, List.take_append_of_le_length (by omega)]

theorem exists_wholeBytes_append (bits : List Bool) :
    ∃ rest, bits = ofBytes (wholeBytes bits) ++ rest ∧ rest.length < 8 := by
  refine ⟨bits.drop (8 * (bits.length / 8)), ?_, ?_⟩
  · rw [ofBytes_wholeBytes, List.take_append_drop]
  · rw [List.length_drop]
    omega

/-- Where bytes are cut inside of the bits that they spell, the whole bytes that are left are the first
ones, and others are missing. -/
theorem exists_wholeBytes_append_eq {kept missing : List Bool} {bytes : List UInt8}
    (hne : missing ≠ []) (h : kept ++ missing = ofBytes bytes) :
    ∃ lacking, lacking ≠ [] ∧ wholeBytes kept ++ lacking = bytes := by
  have hlength := congrArg List.length h
  have hpos := List.length_pos_iff.mpr hne
  rw [List.length_append, length_ofBytes] at hlength
  have htake : wholeBytes kept = bytes.take (kept.length / 8) := by
    apply ofBytes_injective
    rw [ofBytes_wholeBytes, ofBytes_take, ← h, List.take_append_of_le_length (by omega)]
  refine ⟨bytes.drop (kept.length / 8), ?_, ?_⟩
  · rw [← List.length_pos_iff, List.length_drop]
    omega
  · rw [htake, List.take_append_drop]

end WordStream.Bits
