import Mathlib.Data.List.Forall2
import WordStream.Proofs.RoundTrip
import WordStream.Proofs.Text
import WordStream.Report.Comparison
import WordStream.Report.Dump

/-!
# The checks of the reports never fail

Both reports read every encoding back before they tell its size.  The numbers of a signed word are just
those that the guard lets pass, and any number is a double word, so that every check finds what was
written, in both formats and however often a writer had to grow.
-/

namespace WordStream.Report

/-! ## Numbers of both widths -/

theorem Comparison.fitsSigned_iff (number : Int64) :
    fitsSigned number = true ↔ -2 ^ 31 ≤ number.toInt ∧ number.toInt < 2 ^ 31 := by
  have hmin : Int32.minValue.toInt = -2 ^ 31 := rfl
  have hmax : Int32.maxValue.toInt = 2 ^ 31 - 1 := rfl
  rw [fitsSigned, decide_eq_true_iff, hmin, hmax, Int.le_sub_one_iff]

/-- A number is told by its low half just when the guard lets it pass. -/
theorem toInt64_toInt32_iff (number : Int64) :
    number.toInt32.toInt64 = number ↔ -2 ^ 31 ≤ number.toInt ∧ number.toInt < 2 ^ 31 := by
  have hpos : 0 < 2 ^ 32 := by decide
  rw [← Int64.toInt_inj, Int32.toInt_toInt64, Int64.toInt_toInt32]
  constructor
  · intro h
    rw [← h]
    exact ⟨Int.le_bmod hpos, Int.bmod_lt hpos⟩
  · rintro ⟨hlower, hupper⟩
    exact Int.bmod_eq_of_le hlower hupper

namespace Width

/-- The value as which a number is written. -/
def value : Width → Int64 → Value
  | signed, number => .int32 number.toInt32
  | long, number => .int64 number

/-- Whether a number can be told from this value. -/
def Holds : Width → Int64 → Prop
  | signed, number => -2 ^ 31 ≤ number.toInt ∧ number.toInt < 2 ^ 31
  | long, _ => True

/-- The spelling of a number. -/
def spelled {β : Type} (spelling : Spelling β) (width : Width) (number : Int64) : List β :=
  spelling.words (width.value number).toWords

theorem appends_write {σ β : Type} [SymbolSink σ β] [WordWriter σ] {spelling : Spelling β}
    [WritesSpelling σ spelling] (width : Width) (number : Int64) :
    Appends (width.write number : WriteM σ Unit) (width.spelled spelling number) := by
  cases width with
  | signed => exact appends_writeValue (.int32 number.toInt32)
  | long => exact appends_writeValue (.int64 number)

theorem takes_read {ρ β : Type} [SymbolSource ρ β] [WordReader ρ] {spelling : Spelling β}
    [ReadsSpelling ρ spelling] {width : Width} {number : Int64} (h : width.Holds number) :
    Takes (width.read : ReadM ρ Int64) (width.spelled spelling number) number := by
  cases width with
  | signed =>
      have hread := Takes.map Int32.toInt64 (takes_readSigned (ρ := ρ) number.toInt32)
      rwa [(toInt64_toInt32_iff number).mpr h] at hread
  | long => exact takes_readLong number

end Width

/-! ## Encodings -/

/-- Whether the writing was refused an allocation above the largest one. -/
def CheckFailure.isAllocation : CheckFailure → Bool
  | refused _ fault => fault.isAllocation
  | _ => false

namespace Format

/-- No allocation is refused to an encoding. -/
def Granted (format : Format) (width : Width) (numbers : List Int64) : Prop :=
  ∀ failure, format.encode width numbers = .error failure → failure.isAllocation = false

instance (format : Format) (width : Width) (numbers : List Int64) :
    Decidable (format.Granted width numbers) :=
  match h : format.encode width numbers with
  | .ok bytes => .isTrue (by intro failure hrun; rw [h] at hrun; cases hrun)
  | .error failure => decidable_of_iff (failure.isAllocation = false) (by
      constructor
      · intro hfailure other hrun
        rw [h] at hrun
        cases hrun
        exact hfailure
      · exact fun hall => hall failure h)

/-- Numbers that the width holds are found where they are spelled. -/
theorem checkAll_ok {ρ β : Type} [SymbolSource ρ β] [WordReader ρ] {spelling : Spelling β}
    [ReadsSpelling ρ spelling] (format : Format) {width : Width} {numbers : List Int64}
    (hholds : ∀ number ∈ numbers, width.Holds number) {r : ρ} {rest : List β}
    (hr : unread r = numbers.flatMap (width.spelled spelling) ++ rest) :
    format.checkAll width numbers r = .ok () := by
  induction numbers generalizing r with
  | nil => rfl
  | cons number numbers ih =>
      rw [List.flatMap_cons, List.append_assoc] at hr
      have hread := Width.takes_read (hholds number List.mem_cons_self) r _ hr
      have hrest := ih (fun n hn => hholds n (List.mem_cons_of_mem _ hn)) (unread_skip_of_append hr)
      simp only [checkAll, EStateM.run, hread, if_pos, hrest]

theorem standard_empty : Valid Standard.Writer.empty ∧ written Standard.Writer.empty = [] :=
  Standard.Writer.withCapacity_delivers Limits.defaultCapacity

theorem sparse_empty : Valid Sparse.Writer.empty ∧ written Sparse.Writer.empty = [] := by
  have hdelivers := Sparse.Writer.withCapacity_delivers Limits.defaultCapacity
  have hempty : Sparse.Writer.withCapacity Limits.defaultCapacity = .ok Sparse.Writer.empty :=
    Sparse.Writer.withOptions_default
  rw [hempty] at hdelivers
  exact hdelivers

/-- From a new writer, numbers are written as their spellings. -/
theorem forM_write_achieves {σ β : Type} [SymbolSink σ β] [WordWriter σ] {spelling : Spelling β}
    [WritesSpelling σ spelling] (width : Width) (numbers : List Int64) {s : σ}
    (hs : Valid s ∧ written s = []) :
    Achieves (numbers.forM width.write) s fun _ s' =>
      Valid s' ∧ written s' = numbers.flatMap (width.spelled spelling) := by
  refine (Appends.forM width.appends_write numbers s hs.1).mono fun _ s' h => ⟨h.1, ?_⟩
  rw [h.2, hs.2, List.nil_append]

/-- The bytes of an encoding begin with the spellings, so that they pass their check. -/
theorem checkedBytes_ok {format : Format} {width : Width} {numbers : List Int64}
    (hgranted : format.Granted width numbers)
    (hholds : ∀ number ∈ numbers, width.Holds number) :
    ∃ bytes, format.encode width numbers = .ok bytes ∧
      checkedBytes format width numbers = .ok bytes := by
  have hencoded : ∃ bytes, format.encode width numbers = .ok bytes ∧
      format.check width numbers bytes = .ok () := by
    cases format with
    | standard =>
        have hwrite := forM_write_achieves width numbers standard_empty
        obtain ⟨u, w, hrun, -, hwritten⟩ := hwrite.exists_ok fun fault w hrun =>
          hgranted (.refused .standard fault) (by simp only [encode, EStateM.run, hrun])
        refine ⟨w.toBytes, by simp only [encode, EStateM.run, hrun], ?_⟩
        have hahead : unread (Standard.Reader.mk w.toBytes 0) =
            numbers.flatMap (width.spelled Standard.spelling) ++ [] := by
          rw [Standard.unread_toBytes, hwritten, List.append_nil]
        exact checkAll_ok .standard hholds hahead
    | sparse =>
        have hwrite := forM_write_achieves width numbers sparse_empty
        obtain ⟨u, w, hrun, hw, hwritten⟩ := hwrite.exists_ok fun fault w hrun =>
          hgranted (.refused .sparse fault) (by simp only [encode, EStateM.run, hrun])
        refine ⟨w.toBytes, by simp only [encode, EStateM.run, hrun], ?_⟩
        obtain ⟨rest, hahead⟩ := Sparse.reader_follows.unread_finish w hw
        rw [hwritten] at hahead
        exact checkAll_ok .sparse hholds hahead
  obtain ⟨bytes, hencode, hcheck⟩ := hencoded
  refine ⟨bytes, hencode, ?_⟩
  rw [checkedBytes, hencode]
  change (format.check width numbers bytes >>= fun _ => pure bytes) = .ok bytes
  rw [hcheck]
  rfl

theorem checkedBytes_long_ok {format : Format} {numbers : List Int64}
    (hgranted : format.Granted .long numbers) :
    ∃ bytes, format.encode .long numbers = .ok bytes ∧
      checkedBytes format .long numbers = .ok bytes :=
  checkedBytes_ok hgranted fun _ _ => trivial

end Format

/-! ## The dump -/

namespace Dump

/-- The encoding of numbers as it is shown under a heading: a line that tells its size, and how many bytes
this is for each number, and then a line with a pair of digits for each of its bytes. -/
def Shows (format : Format) (numbers : List Int64) (heading line bytesLine : String) : Prop :=
  ∃ bytes, format.encode .long numbers = .ok bytes ∧
    line = heading ++
      s!"{bytes.size} bytes, {(Text.Ratio.mk bytes.size numbers.length).fixed 2} bytes/value" ∧
    (Text.wordsOf bytesLine).length = bytes.size ∧
    Text.wordsOf bytesLine = bytes.toList.map (fun byte => (Text.hexByte byte).toList) ∧
    ∀ word ∈ Text.wordsOf bytesLine, Text.IsHexPair word

theorem encodingLines_shows {format : Format} {numbers : List Int64} {bytes : Array UInt8}
    (hencode : format.encode .long numbers = .ok bytes) (heading : String) :
    ∃ line bytesLine, encodingLines heading numbers.length bytes = [line, bytesLine] ∧
      Shows format numbers heading line bytesLine := by
  have hwords := Text.wordsOf_hexDump bytes.toList
  refine ⟨_, _, rfl, bytes, hencode, rfl, ?_, hwords, ?_⟩
  · rw [hwords, List.length_map, Array.length_toList]
  · intro word hword
    rw [hwords] at hword
    obtain ⟨byte, -, rfl⟩ := List.mem_map.mp hword
    exact Text.isHexPair_hexByte byte

theorem lines_ok {numbers : List Int64} (hgranted : ∀ format, Format.Granted format .long numbers) :
    ∃ standard standardBytes sparse sparseBytes,
      lines numbers = .ok ["values:   " ++ numbersText numbers, standard, standardBytes, sparse,
        sparseBytes, "", "round trip OK"] ∧
      Shows .standard numbers "standard: " standard standardBytes ∧
      Shows .sparse numbers "sparse:   " sparse sparseBytes := by
  obtain ⟨bytes, hencode, hchecked⟩ := Format.checkedBytes_long_ok (hgranted .standard)
  obtain ⟨bytes', hencode', hchecked'⟩ := Format.checkedBytes_long_ok (hgranted .sparse)
  obtain ⟨standard, standardBytes, hlines, hshows⟩ := encodingLines_shows hencode "standard: "
  obtain ⟨sparse, sparseBytes, hlines', hshows'⟩ := encodingLines_shows hencode' "sparse:   "
  refine ⟨standard, standardBytes, sparse, sparseBytes, ?_, hshows, hshows'⟩
  rw [lines, hchecked, hchecked']
  change Except.ok (_ ++ encodingLines _ _ _ ++ encodingLines _ _ _ ++ _) = _
  rw [hlines, hlines']
  rfl

end Dump

/-! ## The comparison -/

namespace Comparison

/-- All numbers of a set are signed words. -/
def FitsSigned (set : SampleSet) : Prop :=
  ∀ number ∈ set.values, -2 ^ 31 ≤ number.toInt ∧ number.toInt < 2 ^ 31

/-- No allocation is refused to the encodings of a set. -/
def Granted (set : SampleSet) : Prop :=
  ∀ format, Format.Granted format .long set.values ∧
    (FitsSigned set → Format.Granted format .signed set.values)

/-- Lines that tell the sizes of the encodings of a set as signed words, if all of its numbers are such,
and else that there are none. -/
def MeasuresSigned (set : SampleSet) (lines : List String) : Prop :=
  (FitsSigned set → ∃ standard sparse,
    Format.encode .standard .signed set.values = .ok standard ∧
    Format.encode .sparse .signed set.values = .ok sparse ∧
    lines = [sizeLine "standard (int)" set.values.length standard,
      sizeLine "sparse (int)" set.values.length sparse]) ∧
  (¬ FitsSigned set → lines = ["  signed int: skipped, values exceed 32 bits"])

/-- Lines that tell the sizes of the encodings of a set as double words, and then their ratio. -/
def MeasuresLong (set : SampleSet) (lines : List String) : Prop :=
  ∃ standard sparse ratio,
    Format.encode .standard .long set.values = .ok standard ∧
    Format.encode .sparse .long set.values = .ok sparse ∧
    lines = [sizeLine "standard (long)" set.values.length standard,
      sizeLine "sparse (long)" set.values.length sparse, ratio]

/-- The block of a set: its head, and the sizes of its encodings. -/
def Measures (set : SampleSet) (block : List String) : Prop :=
  ∃ signed long, block = headLines set ++ signed ++ long ∧ MeasuresSigned set signed ∧
    MeasuresLong set long

theorem all_fitsSigned_iff (set : SampleSet) :
    set.values.all fitsSigned = true ↔ FitsSigned set := by
  rw [List.all_eq_true]
  exact forall₂_congr fun number _ => fitsSigned_iff number

theorem signedLines_ok {set : SampleSet} (hgranted : Granted set) :
    ∃ lines, signedLines set = .ok lines ∧ MeasuresSigned set lines := by
  rw [signedLines]
  by_cases hfits : FitsSigned set
  · obtain ⟨standard, hencode, hchecked⟩ :=
      Format.checkedBytes_ok ((hgranted .standard).2 hfits) hfits
    obtain ⟨sparse, hencode', hchecked'⟩ :=
      Format.checkedBytes_ok ((hgranted .sparse).2 hfits) hfits
    rw [if_pos ((all_fitsSigned_iff set).mpr hfits), hchecked, hchecked']
    exact ⟨_, rfl, fun _ => ⟨standard, sparse, hencode, hencode', rfl⟩, fun h => absurd hfits h⟩
  · rw [if_neg (mt (all_fitsSigned_iff set).mp hfits)]
    exact ⟨_, rfl, fun h => absurd h hfits, fun _ => rfl⟩

theorem longLines_ok {set : SampleSet} (hgranted : Granted set) :
    ∃ lines, longLines set = .ok lines ∧ MeasuresLong set lines := by
  obtain ⟨standard, hencode, hchecked⟩ := Format.checkedBytes_long_ok (hgranted .standard).1
  obtain ⟨sparse, hencode', hchecked'⟩ := Format.checkedBytes_long_ok (hgranted .sparse).1
  rw [longLines, hchecked, hchecked']
  exact ⟨_, rfl, standard, sparse, _, hencode, hencode', rfl⟩

theorem setLines_ok {set : SampleSet} (hgranted : Granted set) :
    ∃ block, setLines set = .ok block ∧ Measures set block := by
  obtain ⟨signed, hsigned, hmeasures⟩ := signedLines_ok hgranted
  obtain ⟨long, hlong, hmeasures'⟩ := longLines_ok hgranted
  rw [setLines, hsigned, hlong]
  exact ⟨_, rfl, signed, long, rfl, hmeasures, hmeasures'⟩

/-- Computations that all give a value give the list of them. -/
theorem exists_mapM_ok {ε α β : Type} {f : α → Except ε β} {post : α → β → Prop} {xs : List α}
    (h : ∀ x ∈ xs, ∃ y, f x = .ok y ∧ post x y) :
    ∃ ys, xs.mapM f = .ok ys ∧ List.Forall₂ post xs ys := by
  induction xs with
  | nil => exact ⟨[], rfl, .nil⟩
  | cons x xs ih =>
      obtain ⟨y, hy, hpost⟩ := h x List.mem_cons_self
      obtain ⟨ys, hys, hrest⟩ := ih fun x hx => h x (List.mem_cons_of_mem _ hx)
      refine ⟨y :: ys, ?_, .cons hpost hrest⟩
      rw [List.mapM_cons, hy, hys]
      rfl

theorem lines_ok {sets : List SampleSet} (hgranted : ∀ set ∈ sets, Granted set) :
    ∃ blocks, lines sets = .ok (s!"Loaded {sets.length} sample sets" :: blocks.flatten) ∧
      List.Forall₂ Measures sets blocks := by
  obtain ⟨blocks, hblocks, hmeasures⟩ :=
    exists_mapM_ok fun set hset => setLines_ok (hgranted set hset)
  rw [lines, hblocks]
  exact ⟨blocks, rfl, hmeasures⟩

end Comparison

/-- The dump of any numbers, whose texts are read as they are printed, comes to its last line, and tells
under each heading the size of the encoding in the format and shows just its bytes.  The comparison of any
sample sets comes to its end: it measures the sets of signed words as such, and all of them as double words.
Only an allocation that is refused could stop the one or the other. -/
theorem reports_pass_their_checks :
    (∀ arguments numbers, arguments ≠ [] → arguments.mapM Text.readInt64 = .ok numbers →
      (∀ format, Format.Granted format .long numbers) →
      ∃ standard standardBytes sparse sparseBytes,
        Dump.run arguments = .ok ["values:   " ++ Dump.numbersText numbers, standard, standardBytes,
          sparse, sparseBytes, "", "round trip OK"] ∧
        Dump.Shows .standard numbers "standard: " standard standardBytes ∧
        Dump.Shows .sparse numbers "sparse:   " sparse sparseBytes) ∧
    (∀ numbers : List Int64,
      (numbers.map fun number => toString number.toInt).mapM Text.readInt64 = .ok numbers) ∧
    ∀ sets, (∀ set ∈ sets, Comparison.Granted set) →
      ∃ blocks, List.Forall₂ Comparison.Measures sets blocks ∧
        Comparison.lines sets = .ok (s!"Loaded {sets.length} sample sets" :: blocks.flatten) ∧
        Comparison.run (some sets) =
          .ok (s!"Loaded {sets.length} sample sets" :: blocks.flatten) := by
  refine ⟨?_, ?_, ?_⟩
  · intro arguments numbers hne hnumbers hgranted
    obtain ⟨standard, standardBytes, sparse, sparseBytes, hlines, hshows⟩ := Dump.lines_ok hgranted
    have hasked : Dump.numbersOf arguments = .ok numbers := by
      rw [Dump.numbersOf, if_neg (by simpa using hne), hnumbers]
    refine ⟨standard, standardBytes, sparse, sparseBytes, ?_, hshows⟩
    rw [Dump.run, hasked]
    change (Dump.lines numbers).mapError Dump.Failure.check = _
    rw [hlines]
    rfl
  · intro numbers
    induction numbers with
    | nil => rfl
    | cons number numbers ih =>
        rw [List.map_cons, List.mapM_cons, Text.readInt64_toString, ih]
        rfl
  · intro sets hgranted
    obtain ⟨blocks, hlines, hmeasures⟩ := Comparison.lines_ok hgranted
    refine ⟨blocks, hmeasures, hlines, ?_⟩
    rw [Comparison.run, hlines]
    rfl

/-- The widest numbers and repeated zeros; and sets at the ends of the signed words, one past them, and
one without numbers. -/
theorem reports_pass_their_checks_at_the_ends :
    (∃ standard standardBytes sparse sparseBytes,
      Dump.run ["0", "-9223372036854775808", "+0", "9223372036854775807"] = .ok
        ["values:   [0, -9223372036854775808, 0, 9223372036854775807]", standard, standardBytes,
          sparse, sparseBytes, "", "round trip OK"] ∧
      Dump.Shows .standard [0, Int64.minValue, 0, Int64.maxValue] "standard: " standard standardBytes ∧
      Dump.Shows .sparse [0, Int64.minValue, 0, Int64.maxValue] "sparse:   " sparse sparseBytes) ∧
    ∃ blocks, List.Forall₂ Comparison.Measures
        [⟨"ends", [-2147483648, 0, 2147483647]⟩, ⟨"past", [2147483648]⟩, ⟨"", []⟩] blocks ∧
      Comparison.run
          (some [⟨"ends", [-2147483648, 0, 2147483647]⟩, ⟨"past", [2147483648]⟩, ⟨"", []⟩]) =
        .ok ("Loaded 3 sample sets" :: blocks.flatten) := by
  constructor
  · refine reports_pass_their_checks.1 _ [0, Int64.minValue, 0, Int64.maxValue] (by decide)
      (by decide +kernel) ?_
    intro format
    cases format
    · decide +kernel
    · decide +kernel
  · have hgranted : ∀ format : Format,
        ∀ set ∈ [SampleSet.mk "ends" [-2147483648, 0, 2147483647], ⟨"past", [2147483648]⟩, ⟨"", []⟩],
          format.Granted .long set.values ∧ format.Granted .signed set.values := by
      intro format
      cases format
      · decide +kernel
      · decide +kernel
    obtain ⟨blocks, hmeasures, -, hrun⟩ := reports_pass_their_checks.2.2 _ fun set hset format =>
      ⟨(hgranted format set hset).1, fun _ => (hgranted format set hset).2⟩
    exact ⟨blocks, hmeasures, hrun⟩

end WordStream.Report
