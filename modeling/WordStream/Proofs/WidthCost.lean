import WordStream.Proofs.SelfChecks
import WordStream.Proofs.ShortOutput
import WordStream.Proofs.Sizes

/-!
# What the wide width costs

A number that fits a signed word is the low half of itself, and the high half repeats its sign: it is the
word zero or the word one.  Written as a double word it therefore takes what it takes as a signed word, and
what such a word takes: a byte in the standard format, and in the sparse format a bit if it is not negative
and a byte if it is.
-/

namespace WordStream.Report

namespace Width

/-- The words of numbers that are written one after the other. -/
def words (width : Width) (numbers : List Int64) : List UInt32 :=
  numbers.flatMap fun number => (width.value number).toWords

theorem flatMap_spelled {β : Type} (spelling : Spelling β) (width : Width) (numbers : List Int64) :
    numbers.flatMap (width.spelled spelling) = spelling.words (width.words numbers) :=
  List.flatMap_assoc.symm

/-- The word of a sign. -/
def signWord (number : Int64) : UInt32 := if number.toInt < 0 then 1 else 0

theorem words_long_cons {number : Int64} (h : signed.Holds number) (numbers : List Int64) :
    long.words (number :: numbers) =
      zigzag number.toInt32 :: signWord number :: long.words numbers := by
  have hwords : (long.value number).toWords = [zigzag number.toInt32, signWord number] := by
    change [zigzag _, zigzag _] = _
    rw [toInt32_lowHalf, zigzag_highHalf h]
    rfl
  rw [words, List.flatMap_cons, hwords]
  rfl

theorem words_signed_cons (number : Int64) (numbers : List Int64) :
    signed.words (number :: numbers) = zigzag number.toInt32 :: signed.words numbers := rfl

end Width

theorem encodedLength_signWord (number : Int64) :
    Varint.encodedLength (Width.signWord number) = 1 := by
  rw [Width.signWord, apply_ite Varint.encodedLength]
  exact ite_self 1

theorem codeLength_signWord (number : Int64) :
    Sparse.codeLength (Width.signWord number) = if number.toInt < 0 then 8 else 1 := by
  rw [Width.signWord, apply_ite Sparse.codeLength]
  rfl

/-! ## Sums -/

theorem standardSize_long {numbers : List Int64}
    (h : ∀ number ∈ numbers, Width.signed.Holds number) :
    standardSize (Width.long.words numbers) =
      standardSize (Width.signed.words numbers) + numbers.length := by
  induction numbers with
  | nil => rfl
  | cons number numbers ih =>
      have hrest := ih fun n hn => h n (List.mem_cons_of_mem _ hn)
      rw [Width.words_long_cons (h number List.mem_cons_self), Width.words_signed_cons]
      simp only [standardSize, List.map_cons, List.sum_cons, encodedLength_signWord,
        List.length_cons] at hrest ⊢
      omega

theorem sparseSize_long {numbers : List Int64}
    (h : ∀ number ∈ numbers, Width.signed.Holds number) :
    sparseSize (Width.long.words numbers) = sparseSize (Width.signed.words numbers) +
      (numbers.length - numbers.countP (fun number => number.toInt < 0)) +
      8 * numbers.countP (fun number => number.toInt < 0) := by
  induction numbers with
  | nil => rfl
  | cons number numbers ih =>
      have hrest := ih fun n hn => h n (List.mem_cons_of_mem _ hn)
      have hcount : numbers.countP (fun number => number.toInt < 0) ≤ numbers.length :=
        List.countP_le_length
      rw [Width.words_long_cons (h number List.mem_cons_self), Width.words_signed_cons]
      simp only [sparseSize, List.map_cons, List.sum_cons, codeLength_signWord, List.length_cons,
        List.countP_cons, decide_eq_true_eq] at hrest ⊢
      split <;> omega

/-! ## Runs -/

theorem Width.appendsBelow_write {σ β : Type} [SymbolSink σ β] [WordWriter σ] {spelling : Spelling β}
    {limit : Nat} (h : ∀ w, AppendsBelow limit (writeWord w : WriteM σ Unit) (spelling.word w))
    (width : Width) (number : Int64) :
    AppendsBelow limit (width.write number : WriteM σ Unit) (width.spelled spelling number) := by
  cases width with
  | signed => exact AppendsBelow.writeValue h (.int32 number.toInt32)
  | long => exact AppendsBelow.writeValue h (.int64 number)

/-- Write numbers on a new standard writer. -/
def standardRun (capacity : Nat) (width : Width) (numbers : List Int64) :
    Except Fault (Unit × Standard.Writer) :=
  runOn (Standard.Writer.withCapacity capacity) (numbers.forM width.write)

/-- Write numbers on a new sparse writer. -/
def sparseRun (capacity : Nat) (width : Width) (numbers : List Int64) :
    Except Fault (Unit × Sparse.Writer) :=
  runOn (Sparse.Writer.withCapacity capacity) (numbers.forM width.write)

theorem exists_standardRun {capacity : Nat} (hcapacity : capacity ≤ Limits.maxAllocation)
    {width : Width} {numbers : List Int64}
    (hshort : standardSize (width.words numbers) < Limits.addressBound / 8) :
    ∃ w, standardRun capacity width numbers = .ok ((), w) ∧
      w.toBytes.size = standardSize (width.words numbers) := by
  have happends := AppendsBelow.forM
    (Width.appendsBelow_write Standard.Writer.appendsBelow_writeWord width) numbers
  rw [Width.flatMap_spelled] at happends
  obtain ⟨_, w, hrun, -, hwritten⟩ := happends.exists_runOn
    (Standard.Writer.exists_withCapacity hcapacity) (by rwa [length_spelled_standard])
  refine ⟨w, hrun, ?_⟩
  have hbytes : w.toBytes.toList = Standard.spelling.words (width.words numbers) := hwritten
  rw [← Array.length_toList, hbytes, length_spelled_standard]

theorem exists_sparseRun {capacity : Nat} (hcapacity : capacity ≤ Limits.maxAllocation)
    {width : Width} {numbers : List Int64}
    (hshort : sparseSize (width.words numbers) < Limits.addressBound) :
    ∃ w, sparseRun capacity width numbers = .ok ((), w) ∧
      w.cursor.bitPosition = sparseSize (width.words numbers) ∧
      w.toBytes.size = (w.cursor.bitPosition + 7) / 8 := by
  have happends := AppendsBelow.forM
    (Width.appendsBelow_write Sparse.Writer.appendsBelow_writeWord width) numbers
  rw [Width.flatMap_spelled] at happends
  obtain ⟨_, w, hrun, hw, hwritten⟩ := happends.exists_runOn
    (Sparse.Writer.exists_withCapacity hcapacity) (by rwa [length_spelled_sparse])
  have hbits : w.bits = Sparse.spelling.words (width.words numbers) := hwritten
  refine ⟨w, hrun, ?_, ?_⟩
  · rw [← Sparse.Writer.length_bits hw, hbits, length_spelled_sparse]
  · rw [← Array.length_toList, Sparse.Writer.toList_toBytes hw, Bits.length_pack,
      Sparse.Writer.length_bits hw]

/-- Numbers that fit signed words can be written in both widths, from any capacity that can be allocated
and as long as the bit positions of the wider output lie below the address bound.  In the standard format
the double words take a byte more for each number; in the sparse format they take a bit more for each that
is not negative and a byte more for each that is.  So they never take fewer bytes. -/
theorem long_costs_the_word_of_a_sign (capacity : Nat) (numbers : List Int64)
    (hcapacity : capacity ≤ Limits.maxAllocation)
    (hfits : ∀ number ∈ numbers, -2 ^ 31 ≤ number.toInt ∧ number.toInt < 2 ^ 31) :
    (8 * standardSize (Width.long.words numbers) < 2 ^ 64 →
      ∃ w w', standardRun capacity .signed numbers = .ok ((), w) ∧
        standardRun capacity .long numbers = .ok ((), w') ∧
        w'.toBytes.size = w.toBytes.size + numbers.length ∧
        (0 < numbers.length → w.toBytes.size < w'.toBytes.size)) ∧
    (sparseSize (Width.long.words numbers) < 2 ^ 64 →
      ∃ w w', sparseRun capacity .signed numbers = .ok ((), w) ∧
        sparseRun capacity .long numbers = .ok ((), w') ∧
        w'.cursor.bitPosition = w.cursor.bitPosition +
          (numbers.length - numbers.countP (fun number => number.toInt < 0)) +
          8 * numbers.countP (fun number => number.toInt < 0) ∧
        w.toBytes.size ≤ w'.toBytes.size) := by
  refine ⟨fun hshort => ?_, fun hshort => ?_⟩
  · have hsize := standardSize_long hfits
    obtain ⟨w', hrun', hbytes'⟩ := exists_standardRun hcapacity
      (show standardSize (Width.long.words numbers) < Limits.addressBound / 8 by
        simp only [Limits.addressBound]
        omega)
    obtain ⟨w, hrun, hbytes⟩ := exists_standardRun hcapacity
      (show standardSize (Width.signed.words numbers) < Limits.addressBound / 8 by
        simp only [Limits.addressBound]
        omega)
    exact ⟨w, w', hrun, hrun', by omega, by omega⟩
  · have hsize := sparseSize_long hfits
    obtain ⟨w', hrun', hbits', hbytes'⟩ := exists_sparseRun hcapacity
      (show sparseSize (Width.long.words numbers) < Limits.addressBound from hshort)
    obtain ⟨w, hrun, hbits, hbytes⟩ := exists_sparseRun hcapacity
      (show sparseSize (Width.signed.words numbers) < Limits.addressBound from
        Nat.lt_of_le_of_lt (by omega) hshort)
    exact ⟨w, w', hrun, hrun', by omega, by omega⟩

/-- The ends of the range, a zero, and numbers next to it, which shift all that follows by single bits;
from no capacity. -/
theorem long_costs_of_seven_numbers :
    (∃ w w', standardRun 0 .signed [-2147483648, 0, -1, 2147483647, 1, -64, 64] = .ok ((), w) ∧
      standardRun 0 .long [-2147483648, 0, -1, 2147483647, 1, -64, 64] = .ok ((), w') ∧
      w'.toBytes.size = w.toBytes.size + 7) ∧
    ∃ w w', sparseRun 0 .signed [-2147483648, 0, -1, 2147483647, 1, -64, 64] = .ok ((), w) ∧
      sparseRun 0 .long [-2147483648, 0, -1, 2147483647, 1, -64, 64] = .ok ((), w') ∧
      w'.cursor.bitPosition = w.cursor.bitPosition + 4 + 24 := by
  obtain ⟨hstandard, hsparse⟩ := long_costs_the_word_of_a_sign 0
    [-2147483648, 0, -1, 2147483647, 1, -64, 64] (by decide)
    ((Comparison.all_fitsSigned_iff ⟨"", _⟩).mp (by decide +kernel))
  obtain ⟨w, w', hrun, hrun', hsize, -⟩ := hstandard (by decide +kernel)
  obtain ⟨v, v', hrunSparse, hrunSparse', hposition, -⟩ := hsparse (by decide +kernel)
  exact ⟨⟨w, w', hrun, hrun', hsize⟩, v, v', hrunSparse, hrunSparse', hposition⟩

end WordStream.Report
