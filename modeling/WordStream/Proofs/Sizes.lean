import Mathlib.Algebra.Ring.Nat
import Mathlib.Data.Nat.Size
import Mathlib.Order.Basic
import WordStream.Proofs.ByteList
import WordStream.Proofs.Sparse.Invariant

/-!
# Sizes of what is written

How much of the output a word takes depends only on the number of its significant bits: every seven of
them take a byte in the standard format, and every seven of them and the flag take one in the sparse
format, where zero takes a single bit.  The size of a list of values is the sum over its words, wherever
it is written.
-/

namespace WordStream

namespace Chain

/-- Every group of a chain holds seven significant bits of the number. -/
theorem length_groups (n : Nat) : (groups n).length = max 1 ((n.size + 6) / 7) := by
  have hpos := List.length_pos_iff.mpr (groups_ne_nil n)
  refine eq_of_forall_ge_iff fun count => ?_
  cases count with
  | zero => omega
  | succ count =>
      rw [length_groups_le_iff, show 128 = 2 ^ 7 from rfl, ← Nat.pow_mul, ← Nat.size_le]
      omega

end Chain

namespace Varint

theorem bitLength_eq_size (w : UInt32) : bitLength w = w.toNat.size := by
  refine eq_of_forall_ge_iff fun n => ?_
  rw [Nat.size_le, bitLength]
  by_cases hw : w = 0
  · rw [if_pos hw, hw]
    exact iff_of_true (Nat.zero_le n) (Nat.two_pow_pos n)
  · rw [if_neg hw, Nat.succ_le_iff, Nat.log2_lt fun h => hw (UInt32.toNat_inj.mp h)]

theorem encodedLength_eq (w : UInt32) : encodedLength w = max 1 ((w.toNat.size + 6) / 7) := by
  rw [encodedLength, bitLength_eq_size]
  rfl

theorem length_encode (w : UInt32) : (encode w).length = encodedLength w := by
  rw [encode, Chain.length_groups, encodedLength_eq]

end Varint

namespace Sparse

/-- The number of bits of a word, told from its significant bits. -/
def codeLength (w : UInt32) : Nat :=
  if w = 0 then 1 else 8 * ((w.toNat.size + 7) / 7)

theorem size_div_64 (n : Nat) : (n / 64).size = n.size - 6 := by
  refine eq_of_forall_ge_iff fun m => ?_
  rw [Nat.size_le, Nat.div_lt_iff_lt_mul (by decide), show 64 = 2 ^ 6 from rfl, ← Nat.pow_add,
    ← Nat.size_le]
  omega

/-- The flag and the significant bits of a word fill up its logical bytes. -/
theorem length_logicalBytes {w : UInt32} (h : w ≠ 0) :
    (logicalBytes w).length = (w.toNat.size + 7) / 7 := by
  have hpos : 0 < w.toNat.size := Nat.size_pos.mpr (Nat.pos_of_ne_zero fun h0 =>
    h (UInt32.toNat_inj.mp h0))
  have hsize := size_div_64 w.toNat
  rw [logicalBytes_eq]
  by_cases hrest : w.toNat / 64 = 0
  · rw [hrest, Nat.size_zero] at hsize
    rw [if_pos hrest, List.length_singleton]
    omega
  · have hrest' := Nat.size_pos.mpr (Nat.pos_of_ne_zero hrest)
    rw [if_neg hrest, List.length_cons, Chain.length_groups]
    omega

theorem length_code (w : UInt32) : (code w.toNat).length = codeLength w := by
  rw [codeLength]
  by_cases hw : w = 0
  · rw [if_pos hw, hw]
    rfl
  · rw [if_neg hw, ← ofBytes_logicalBytes hw, Bits.length_ofBytes, length_logicalBytes hw]

end Sparse

/-! ## Sums over words -/

/-- The sizes of words in the standard format, in bytes. -/
def standardSize (words : List UInt32) : Nat := (words.map Varint.encodedLength).sum

/-- The sizes of words in the sparse format, in bits. -/
def sparseSize (words : List UInt32) : Nat := (words.map Sparse.codeLength).sum

/-- Whether the flag takes a logical byte more than the significant bits of a word: they fill up whole
groups. -/
def FillsGroups (w : UInt32) : Prop := w.toNat.size ∈ [7, 14, 21, 28]

instance (w : UInt32) : Decidable (FillsGroups w) :=
  inferInstanceAs (Decidable (w.toNat.size ∈ [7, 14, 21, 28]))

theorem length_spelled_standard (words : List UInt32) :
    (Standard.spelling.words words).length = standardSize words := by
  rw [Spelling.words, List.length_flatMap]
  exact congrArg List.sum (List.map_congr_left fun w _ => Varint.length_encode w)

theorem length_spelled_sparse (words : List UInt32) :
    (Sparse.spelling.words words).length = sparseSize words := by
  rw [Spelling.words, List.length_flatMap]
  exact congrArg List.sum (List.map_congr_left fun w _ => Sparse.length_code w)

theorem size_toNat_le (w : UInt32) : w.toNat.size ≤ 32 :=
  Nat.size_le.mpr w.toNat_lt

theorem Varint.encodedLength_le (w : UInt32) : encodedLength w ≤ 5 := by
  have hle := size_toNat_le w
  rw [encodedLength_eq]
  omega

theorem Sparse.codeLength_le (w : UInt32) : codeLength w ≤ 40 := by
  have hle := size_toNat_le w
  rw [codeLength]
  split <;> omega

/-- Zero takes a bit instead of a byte; any other word takes as many bytes in both formats, or one more
for the flag. -/
theorem codeLength_add (w : UInt32) :
    Sparse.codeLength w + 7 * (if w = 0 then 1 else 0) =
      8 * Varint.encodedLength w + 8 * (if FillsGroups w then 1 else 0) := by
  have hle := size_toNat_le w
  have hzero : w.toNat.size = 0 ↔ w = 0 := by
    rw [Nat.size_eq_zero]
    exact UInt32.toNat_inj (b := 0)
  have hfills : FillsGroups w ↔ w.toNat.size = 7 ∨ w.toNat.size = 14 ∨ w.toNat.size = 21 ∨
      w.toNat.size = 28 := by
    simp [FillsGroups]
  rw [Sparse.codeLength, Varint.encodedLength_eq]
  simp only [hfills]
  by_cases hw : w = 0
  · have hsize := hzero.mpr hw
    rw [if_pos hw, if_pos hw, hsize]
    rfl
  · rw [if_neg hw, if_neg hw]
    split <;> omega

/-- The two sizes of words differ by seven bits for every zero, and by a byte for every word that fills
groups. -/
theorem sparseSize_add (words : List UInt32) :
    sparseSize words + 7 * words.count 0 =
      8 * standardSize words + 8 * words.countP fun w => FillsGroups w := by
  induction words with
  | nil => rfl
  | cons w words ih =>
      have hw := codeLength_add w
      simp only [sparseSize, standardSize, List.map_cons, List.sum_cons, List.count_cons,
        List.countP_cons, beq_iff_eq, decide_eq_true_eq] at ih ⊢
      omega

/-- A value is one word or two, of at most five bytes each. -/
theorem size_toWords_le (value : Value) :
    standardSize value.toWords ≤ 10 ∧ sparseSize value.toWords ≤ 80 := by
  have hword : ∀ w : UInt32, Varint.encodedLength w ≤ 5 ∧ Sparse.codeLength w ≤ 40 := fun w =>
    ⟨Varint.encodedLength_le w, Sparse.codeLength_le w⟩
  have hone : ∀ w, standardSize [w] ≤ 10 ∧ sparseSize [w] ≤ 80 := by
    intro w
    have := hword w
    simp only [standardSize, sparseSize, List.map_cons, List.map_nil, List.sum_cons, List.sum_nil]
    omega
  have htwo : ∀ w w', standardSize [w, w'] ≤ 10 ∧ sparseSize [w, w'] ≤ 80 := by
    intro w w'
    have := hword w
    have := hword w'
    simp only [standardSize, sparseSize, List.map_cons, List.map_nil, List.sum_cons, List.sum_nil]
    omega
  cases value with
  | uint32 w => exact hone w
  | int32 number => exact hone _
  | float32 pattern => exact hone _
  | float64 pattern => exact htwo _ _
  | int64 number => exact htwo _ _

/-! ## Sizes of outputs -/

namespace Standard.Writer

/-- What is written by words makes the output longer by their size. -/
theorem size_of_appends {act : WriteM Writer Unit} {words : List UInt32}
    (h : Appends act (spelling.words words)) {w : Writer} (hw : w.buffer.Fits) :
    Achieves act w fun _ w' => w'.length = w.length + standardSize words := by
  refine (h w hw).mono ?_
  rintro _ w' ⟨hw', hwritten⟩
  rw [length_eq_written hw', length_eq_written hw, hwritten, List.length_append,
    length_spelled_standard]

/-- A move to any place, also one that is refused, keeps the position inside of the array. -/
theorem caught_run_fits (call : Call) {w : Writer} (h : w.buffer.Fits) :
    Achieves (caught call.run) w fun _ w' => w'.buffer.Fits := by
  cases call with
  | item i => exact Achieves.caught (i.appends_write w h) fun _ _ hpost => hpost.1
  | setPosition position =>
      by_cases hposition : position ≤ w.capacity
      · have hfits : Achieves (setPosition position) w fun _ w' => w'.buffer.Fits :=
          Achieves.of_ok (setPosition_ok hposition) (h.movedTo hposition)
        exact hfits.caught fun _ _ hpost => hpost
      · exact Achieves.caught_of_error (setPosition_error hposition) rfl h

/-- What an act achieves from wherever the position is inside of the array, it achieves after any calls
on a new writer. -/
theorem around_delivers (capacity : Nat) (calls : List Call) {act : WriteM Writer Unit}
    {post : Writer → Writer → Prop}
    (hact : ∀ w : Writer, w.buffer.Fits → Achieves act w fun _ w' => post w w') :
    Delivers (around (withCapacity capacity) Call.run calls act) fun result =>
      (calls = [] → result.1.length = 0) ∧ post result.1 result.2 := by
  have hstart : Delivers (withCapacity capacity) fun w => w.buffer.Fits ∧ w.length = 0 :=
    (withCapacity_new capacity).mono_of_ok fun _ _ hw => ⟨hw.1, hw.2.1⟩
  exact hstart.around (fun call _ hw => caught_run_fits call hw) hact calls

/-- Act on a new writer that some calls have led on: the writer before and after the act. -/
def actAfter (capacity : Nat) (calls : List Call) (act : WriteM Writer Unit) :
    Except Fault (Writer × Writer) :=
  around (withCapacity capacity) Call.run calls act

theorem exists_actAfter {capacity : Nat} {calls : List Call} {act : WriteM Writer Unit}
    {post : Writer → Writer → Prop}
    (hact : ∀ w : Writer, w.buffer.Fits → Achieves act w fun _ w' => post w w')
    (hgranted : AllocationGranted (actAfter capacity calls act)) :
    ∃ w w', actAfter capacity calls act = .ok (w, w') ∧ post w w' := by
  obtain ⟨⟨w, w'⟩, hok, -, hpost⟩ := (around_delivers capacity calls hact).exists_ok hgranted
  exact ⟨w, w', hok, hpost⟩

end Standard.Writer

/-- What is written by words leads a sparse writer further by their size; its bytes end where the bits
do. -/
theorem Sparse.Writer.size_of_appends {act : WriteM Writer Unit} {words : List UInt32}
    (h : Appends act (spelling.words words)) {w : Writer} (hw : w.Sound) :
    Achieves act w fun _ w' =>
      w'.cursor.bitPosition = w.cursor.bitPosition + sparseSize words ∧
        w'.length = (w'.cursor.bitPosition + 7) / 8 := by
  refine (h w hw).mono ?_
  rintro _ w' ⟨hw', hwritten⟩
  change w'.bits = w.bits ++ _ at hwritten
  rw [length_eq_bits hw', ← length_bits hw', ← length_bits hw, hwritten, List.length_append,
    length_spelled_sparse]
  exact ⟨rfl, rfl⟩

/-- Write values on a standard writer that some calls have led to: the writer before and after. -/
def standardGrowth (capacity : Nat) (calls : List Standard.Writer.Call) (values : List Value) :
    Except Fault (Standard.Writer × Standard.Writer) :=
  around (Standard.Writer.withCapacity capacity) Standard.Writer.Call.run calls (writeValues values)

/-- Write values on a sparse writer that some operations have led to: the writer before and after. -/
def sparseGrowth (capacity : Nat) (operations : List Sparse.Operation) (values : List Value) :
    Except Fault (Sparse.Writer × Sparse.Writer) :=
  around (Sparse.Writer.withCapacity capacity) Sparse.Operation.run operations (writeValues values)

theorem standardGrowth_delivers (capacity : Nat) (calls : List Standard.Writer.Call)
    (values : List Value) :
    Delivers (standardGrowth capacity calls values) fun result =>
      (calls = [] → result.1.length = 0) ∧
        result.2.length = result.1.length + standardSize (values.flatMap Value.toWords) := by
  exact Standard.Writer.around_delivers capacity calls fun _ hw =>
    Standard.Writer.size_of_appends (appends_writeValues values) hw

theorem sparseGrowth_delivers (capacity : Nat) (operations : List Sparse.Operation)
    (values : List Value) :
    Delivers (sparseGrowth capacity operations values) fun result =>
      (operations = [] → result.1.cursor.bitPosition = 0) ∧
        result.2.cursor.bitPosition =
          result.1.cursor.bitPosition + sparseSize (values.flatMap Value.toWords) ∧
        result.2.length = (result.2.cursor.bitPosition + 7) / 8 := by
  exact Sparse.Operation.around_delivers capacity operations fun _ hw =>
    Sparse.Writer.size_of_appends (appends_writeValues values) hw

/-- The sizes of what is written follow from the significant bits of the words.  From wherever calls
have led, and unless an allocation is refused, values make the output of a standard writer longer by their
size, and lead a sparse writer further by theirs; the bytes of this one end where its bits do.  Between
the two sizes lie the zeros and the words that fill groups, and no value takes more than ten bytes. -/
theorem sizes_follow_bit_lengths (capacity : Nat) (values : List Value) :
    let words := values.flatMap Value.toWords
    (∀ word, Varint.encodedLength word = max 1 ((word.toNat.size + 6) / 7)) ∧
    (∀ calls, AllocationGranted (standardGrowth capacity calls values) →
      ∃ w w', standardGrowth capacity calls values = .ok (w, w') ∧
        w'.length = w.length + standardSize words ∧
        (calls = [] → w'.length = standardSize words)) ∧
    (∀ operations, AllocationGranted (sparseGrowth capacity operations values) →
      ∃ w w', sparseGrowth capacity operations values = .ok (w, w') ∧
        w'.cursor.bitPosition = w.cursor.bitPosition + sparseSize words ∧
        w'.length = (w'.cursor.bitPosition + 7) / 8 ∧
        (operations = [] → w'.length = (sparseSize words + 7) / 8)) ∧
    sparseSize words + 7 * words.count 0 =
      8 * standardSize words + 8 * words.countP (fun word => FillsGroups word) ∧
    ∀ value : Value, standardSize value.toWords ≤ 10 ∧ sparseSize value.toWords ≤ 80 := by
  intro words
  refine ⟨Varint.encodedLength_eq, fun calls hgranted => ?_, fun operations hgranted => ?_,
    sparseSize_add words, size_toWords_le⟩
  · obtain ⟨⟨w, w'⟩, hok, hfresh, hlength⟩ :=
      (standardGrowth_delivers capacity calls values).exists_ok hgranted
    refine ⟨w, w', hok, hlength, fun hcalls => ?_⟩
    rw [hlength, hfresh hcalls, Nat.zero_add]
  · obtain ⟨⟨w, w'⟩, hok, hfresh, hposition, hlength⟩ :=
      (sparseGrowth_delivers capacity operations values).exists_ok hgranted
    refine ⟨w, w', hok, hposition, hlength, fun hoperations => ?_⟩
    rw [hlength, hposition, hfresh hoperations, Nat.zero_add]

/-- A zero, words on both sides of a whole number of groups, and a float whose words are both short, on
writers that have been moved back and that a forward move has led past the output. -/
theorem sizes_of_some_values :
    (∃ w w', standardGrowth 3 [.item (.long 300), .setPosition 1, .setPosition 9] [.uint32 0,
        .uint32 127, .uint32 128, .int32 (-1), .float64 0x3FF0000000000000] = .ok (w, w') ∧
      w'.length = w.length + 8) ∧
    ∃ w w', sparseGrowth 0 [.call .zero, .call (.setPosition 6), .call .zero] [.uint32 0,
        .uint32 127, .uint32 128, .int32 (-1), .float64 0x3FF0000000000000] = .ok (w, w') ∧
      w'.cursor.bitPosition = w.cursor.bitPosition + 58 ∧
      w'.length = (w'.cursor.bitPosition + 7) / 8 := by
  have hstandard : standardSize ([.uint32 0, .uint32 127, .uint32 128, .int32 (-1),
      .float64 0x3FF0000000000000].flatMap Value.toWords) = 8 := by
    decide +kernel
  have hsparse : sparseSize ([.uint32 0, .uint32 127, .uint32 128, .int32 (-1),
      .float64 0x3FF0000000000000].flatMap Value.toWords) = 58 := by
    decide +kernel
  constructor
  · obtain ⟨w, w', hok, hlength, -⟩ := (sizes_follow_bit_lengths 3 [.uint32 0, .uint32 127,
      .uint32 128, .int32 (-1), .float64 0x3FF0000000000000]).2.1
      [.item (.long 300), .setPosition 1, .setPosition 9] (by decide +kernel)
    rw [hstandard] at hlength
    exact ⟨w, w', hok, hlength⟩
  · obtain ⟨w, w', hok, hposition, hlength, -⟩ := (sizes_follow_bit_lengths 0 [.uint32 0, .uint32 127,
      .uint32 128, .int32 (-1), .float64 0x3FF0000000000000]).2.2.1
      [.call .zero, .call (.setPosition 6), .call .zero] (by decide +kernel)
    rw [hsparse] at hposition
    exact ⟨w, w', hok, hposition, hlength⟩

end WordStream
