import WordStream.Proofs.Standard.Block

/-!
# Values that take few bytes

Zigzag leads a number of small magnitude to a small word, whatever its sign, and reversal leads a pattern
that ends in zeros to a word that begins with them.  So the bytes that a signed number takes are told from
its range, and those that a float takes from the zeros at its end, in every state of a writer.
-/

namespace WordStream

/-! ## Small magnitudes -/

/-- The words of up to `m + 1` bits stand for the numbers of `m` bits and a sign. -/
theorem zigzag_lt_iff (v : Int32) (m : Nat) :
    (zigzag v).toNat < 2 ^ (m + 1) ↔ -2 ^ m ≤ v.toInt ∧ v.toInt < 2 ^ m := by
  have hword := toNat_zigzag v
  have hpow : (2 : Int) ^ m = (2 ^ m : Nat) := (Int.natCast_pow 2 m).symm
  rw [hpow, Nat.pow_succ]
  split at hword <;> omega

theorem encodedLength_zigzag_le_iff (v : Int32) {n : Nat} (h : 1 ≤ n) :
    Varint.encodedLength (zigzag v) ≤ n ↔
      -2 ^ (7 * n - 1) ≤ v.toInt ∧ v.toInt < 2 ^ (7 * n - 1) := by
  have hbits : 7 * n = 7 * n - 1 + 1 := by omega
  rw [Varint.encodedLength_le_iff _ h, ← zigzag_lt_iff, ← hbits]

/-- The flag takes a bit away from the first of the bytes. -/
theorem Sparse.codeLength_le_iff (w : UInt32) {n : Nat} (h : 1 ≤ n) :
    codeLength w ≤ 8 * n ↔ w.toNat < 2 ^ (7 * n - 1) := by
  rw [← Nat.size_le, codeLength]
  by_cases hw : w = 0
  · rw [if_pos hw, hw]
    exact iff_of_true (by omega) (Nat.zero_le _)
  · rw [if_neg hw]
    omega

theorem codeLength_zigzag_le_iff (v : Int32) {n : Nat} (h : 1 ≤ n) :
    Sparse.codeLength (zigzag v) ≤ 8 * n ↔
      -2 ^ (7 * n - 2) ≤ v.toInt ∧ v.toInt < 2 ^ (7 * n - 2) := by
  have hbits : 7 * n - 1 = 7 * n - 2 + 1 := by omega
  rw [Sparse.codeLength_le_iff _ h, ← zigzag_lt_iff, ← hbits]

/-! ## Values written after any calls -/

theorem exists_standardWrite {capacity : Nat} {calls : List Standard.Writer.Call} {value : Value}
    (hgranted : AllocationGranted (Standard.Writer.actAfter capacity calls (writeValue value))) :
    ∃ w w', Standard.Writer.actAfter capacity calls (writeValue value) = .ok (w, w') ∧
      w'.length = w.length + standardSize value.toWords :=
  Standard.Writer.exists_actAfter
    (fun _ hw => Standard.Writer.size_of_appends (appends_writeValue value) hw) hgranted

theorem exists_sparseWrite {capacity : Nat} {operations : List Sparse.Operation} {value : Value}
    (hgranted : AllocationGranted (Sparse.Operation.actAfter capacity operations (writeValue value))) :
    ∃ w w', Sparse.Operation.actAfter capacity operations (writeValue value) = .ok (w, w') ∧
      w'.cursor.bitPosition = w.cursor.bitPosition + sparseSize value.toWords :=
  Sparse.Operation.exists_actAfter (fun _ hw =>
    (Sparse.Writer.size_of_appends (appends_writeValue value) hw).mono fun _ _ hpost => hpost.1) hgranted

/-- Zigzag pairs the signed numbers with the words: the numbers from zero on are doubled, and the negative
ones take the odd places.  After any calls and from any capacity, unless an allocation is refused, a number
takes at most `n` bytes in the standard format just when `7 * n - 1` bits and a sign hold it, and at most
`n` logical bytes in the sparse format when one bit less does. -/
theorem zigzag_keeps_small_magnitudes_short (capacity : Nat) (number : Int32) :
    ((zigzag number).toNat : Int) =
      (if 0 ≤ number.toInt then 2 * number.toInt else -2 * number.toInt - 1) ∧
    unzigzag (zigzag number) = number ∧
    (∀ word, zigzag (unzigzag word) = word) ∧
    (∀ calls, AllocationGranted (Standard.Writer.actAfter capacity calls (writeSigned number)) →
      ∃ w w', Standard.Writer.actAfter capacity calls (writeSigned number) = .ok (w, w') ∧
        ∀ n, 1 ≤ n → (w'.length ≤ w.length + n ↔
          -2 ^ (7 * n - 1) ≤ number.toInt ∧ number.toInt < 2 ^ (7 * n - 1))) ∧
    ∀ operations, AllocationGranted (Sparse.Operation.actAfter capacity operations (writeSigned number)) →
      ∃ w w', Sparse.Operation.actAfter capacity operations (writeSigned number) = .ok (w, w') ∧
        ∀ n, 1 ≤ n → (w'.cursor.bitPosition ≤ w.cursor.bitPosition + 8 * n ↔
          -2 ^ (7 * n - 2) ≤ number.toInt ∧ number.toInt < 2 ^ (7 * n - 2)) := by
  refine ⟨?_, unzigzag_zigzag number, zigzag_unzigzag, fun calls hgranted => ?_,
    fun operations hgranted => ?_⟩
  · rw [toNat_zigzag]
    split <;> split <;> omega
  · obtain ⟨w, w', hok, hlength⟩ := exists_standardWrite hgranted
    refine ⟨w, w', hok, fun n hn => ?_⟩
    rw [hlength, Nat.add_le_add_iff_left]
    exact encodedLength_zigzag_le_iff number hn
  · obtain ⟨w, w', hok, hposition⟩ := exists_sparseWrite hgranted
    refine ⟨w, w', hok, fun n hn => ?_⟩
    rw [hposition, Nat.add_le_add_iff_left]
    exact codeLength_zigzag_le_iff number hn

/-- The last negative number of a byte, which no single logical byte holds: after a refused move, and
inside of a byte that has been gone back to. -/
theorem magnitude_64_takes_a_byte :
    (∃ w w', Standard.Writer.actAfter 0 [.item (.long 300), .setPosition 99, .setPosition 1]
        (writeSigned (-64)) = .ok (w, w') ∧ w'.length ≤ w.length + 1) ∧
    ∃ w w', Sparse.Operation.actAfter 0 [.write (.long 300), .call (.setPosition 1), .call .zero]
        (writeSigned (-64)) = .ok (w, w') ∧
      ¬ w'.cursor.bitPosition ≤ w.cursor.bitPosition + 8 * 1 ∧
      w'.cursor.bitPosition ≤ w.cursor.bitPosition + 8 * 2 := by
  obtain ⟨-, -, -, hstandard, hsparse⟩ := zigzag_keeps_small_magnitudes_short 0 (-64)
  obtain ⟨w, w', hok, hlength⟩ := hstandard
    [.item (.long 300), .setPosition 99, .setPosition 1] (by decide +kernel)
  obtain ⟨v, v', hok', hposition⟩ := hsparse
    [.write (.long 300), .call (.setPosition 1), .call .zero] (by decide +kernel)
  refine ⟨⟨w, w', hok, (hlength 1 (by decide)).mpr (by decide)⟩, v, v', hok', ?_, ?_⟩
  · exact mt (hposition 1 (by decide)).mp (by decide)
  · exact (hposition 2 (by decide)).mpr (by decide)

/-! ## Trailing zeros -/

/-- A reversed word is small just when the word ends in zeros. -/
theorem reverseBits_lt_iff (x : UInt32) {m : Nat} (hm : m ≤ 32) :
    (reverseBits x).toNat < 2 ^ m ↔ ∀ i < 32 - m, x.toNat.testBit i = false := by
  constructor
  · intro h i hi
    have hbit := testBit_reverseBits x (show 31 - i < 32 by omega)
    rw [show 31 - (31 - i) = i by omega] at hbit
    rw [← hbit]
    refine Nat.testBit_lt_two_pow (Nat.lt_of_lt_of_le h ?_)
    exact Nat.pow_le_pow_right (by decide) (by omega)
  · intro h
    refine Nat.lt_pow_two_of_testBit _ fun i hi => ?_
    by_cases hi32 : i < 32
    · rw [testBit_reverseBits x hi32]
      exact h (31 - i) (by omega)
    · refine Nat.testBit_lt_two_pow (Nat.lt_of_lt_of_le (UInt32.toNat_lt _) ?_)
      exact Nat.pow_le_pow_right (by decide) (Nat.le_of_not_lt hi32)

/-- The number of bytes that a float takes in the standard format. -/
def floatLength (pattern : UInt32) : Nat := Varint.encodedLength (reverseBits pattern)

theorem floatLength_le_iff (pattern : UInt32) {n : Nat} (h : 1 ≤ n) (hn : n ≤ 4) :
    floatLength pattern ≤ n ↔ ∀ i < 32 - 7 * n, pattern.toNat.testBit i = false := by
  rw [floatLength, Varint.encodedLength_le_iff _ h, reverseBits_lt_iff _ (by omega)]

theorem standardSize_float (pattern : UInt32) :
    standardSize (Value.float32 pattern).toWords = floatLength pattern := Nat.add_zero _

theorem standardSize_double (pattern : UInt64) :
    standardSize (Value.float64 pattern).toWords =
      floatLength (lowHalf pattern) + floatLength (highHalf pattern) := rfl

/-- Reverse a word, and look whether reversal leads back to it; if not, tell where it leads. -/
def reverseChecked (x : UInt32) : Except UInt32 UInt32 :=
  if reverseBits (reverseBits x) = x then .ok (reverseBits x)
  else .error (reverseBits (reverseBits x))

/-- The words of a value, when every reversal is looked at before any word is written. -/
def Value.wordsChecked : Value → Except UInt32 (List UInt32)
  | float32 pattern => do return [← reverseChecked pattern]
  | float64 pattern => do
      let low ← reverseChecked (lowHalf pattern)
      let high ← reverseChecked (highHalf pattern)
      return [low, high]
  | value => .ok value.toWords

theorem reverseChecked_ok (x : UInt32) : reverseChecked x = .ok (reverseBits x) :=
  if_pos (reverseBits_reverseBits x)

/-- No look at a reversal ever finds a word that it does not lead back to. -/
theorem Value.wordsChecked_ok (value : Value) : value.wordsChecked = .ok value.toWords := by
  cases value with
  | uint32 word => rfl
  | int32 number => rfl
  | float32 pattern =>
      rw [wordsChecked, reverseChecked_ok]
      rfl
  | float64 pattern =>
      rw [wordsChecked, reverseChecked_ok, reverseChecked_ok]
      rfl
  | int64 number => rfl

/-- Reversal takes every bit from the opposite place, so that it is its own inverse, and values give their
words also when that is looked at.  After any calls and from any capacity, unless an allocation is refused,
a float takes at most `n` bytes in the standard format just when all bits below the `7 * n` highest ones are
zero, and a double takes what its halves take as floats. -/
theorem float_length_follows_trailing_zeros (capacity : Nat) (calls : List Standard.Writer.Call) :
    (∀ x : UInt32, ∀ i < 32, (reverseBits x).toNat.testBit i = x.toNat.testBit (31 - i)) ∧
    (∀ x, reverseBits (reverseBits x) = x) ∧
    (∀ value : Value, value.wordsChecked = .ok value.toWords) ∧
    (∀ pattern, AllocationGranted (Standard.Writer.actAfter capacity calls (writeFloat pattern)) →
      ∃ w w', Standard.Writer.actAfter capacity calls (writeFloat pattern) = .ok (w, w') ∧
        w'.length = w.length + floatLength pattern ∧
        ∀ n, 1 ≤ n → n ≤ 4 → (w'.length ≤ w.length + n ↔
          ∀ i < 32 - 7 * n, pattern.toNat.testBit i = false)) ∧
    ∀ pattern, AllocationGranted (Standard.Writer.actAfter capacity calls (writeDouble pattern)) →
      ∃ w w', Standard.Writer.actAfter capacity calls (writeDouble pattern) = .ok (w, w') ∧
        w'.length = w.length + (floatLength (lowHalf pattern) + floatLength (highHalf pattern)) := by
  refine ⟨fun x i hi => testBit_reverseBits x hi, reverseBits_reverseBits, Value.wordsChecked_ok,
    fun pattern hgranted => ?_, fun pattern hgranted => ?_⟩
  · obtain ⟨w, w', hok, hlength⟩ := exists_standardWrite hgranted
    rw [standardSize_float] at hlength
    refine ⟨w, w', hok, hlength, fun n hn hle => ?_⟩
    rw [hlength, Nat.add_le_add_iff_left]
    exact floatLength_le_iff pattern hn hle
  · obtain ⟨w, w', hok, hlength⟩ := exists_standardWrite hgranted
    rw [standardSize_double] at hlength
    exact ⟨w, w', hok, hlength⟩

/-- One as a float and as a double: nine significant bits at the top of a word take two bytes, and the empty
half of the double takes one. -/
theorem float_length_of_one :
    (∃ w w', Standard.Writer.actAfter 0 [.item (.byte 7)] (writeFloat 0x3F800000) = .ok (w, w') ∧
      w'.length ≤ w.length + 2 ∧ ¬ w'.length ≤ w.length + 1) ∧
    ∃ w w', Standard.Writer.actAfter 0 [.item (.byte 7)] (writeDouble 0x3FF0000000000000) = .ok (w, w') ∧
      w'.length = w.length + 3 := by
  obtain ⟨-, -, -, hfloat, hdouble⟩ := float_length_follows_trailing_zeros 0 [.item (.byte 7)]
  obtain ⟨w, w', hok, -, hle⟩ := hfloat 0x3F800000 (by decide +kernel)
  obtain ⟨v, v', hok', hlength⟩ := hdouble 0x3FF0000000000000 (by decide +kernel)
  have hthree : floatLength (lowHalf 0x3FF0000000000000) + floatLength (highHalf 0x3FF0000000000000) =
      3 := by
    decide +kernel
  rw [hthree] at hlength
  refine ⟨⟨w, w', hok, ?_, ?_⟩, v, v', hok', hlength⟩
  · exact (hle 2 (by decide) (by decide)).mpr (by decide +kernel)
  · exact mt (hle 1 (by decide) (by decide)).mp (by decide +kernel)

end WordStream
