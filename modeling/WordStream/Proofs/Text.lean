import WordStream.Text.Hex
import WordStream.Text.SignedNumber

/-!
# Texts of bytes and of numbers

What is printed can be told from the text: a line of bytes is a pair of digits for each of them, and the
decimal text of a signed number is read as this number.
-/

namespace WordStream.Text

/-! ## Bytes -/

/-- What stands between the blanks of a line. -/
def wordsOf (line : String) : List (List Char) := (line.toList.splitOn ' ').filter (· ≠ [])

/-- Two hexadecimal digits. -/
def IsHexPair (word : List Char) : Prop :=
  word.length = 2 ∧ ∀ c ∈ word, c ∈ "0123456789abcdef".toList

theorem hexDigit_mem {n : Nat} (h : n < 16) : hexDigit n ∈ "0123456789abcdef".toList := by
  have hall : ∀ n ∈ List.range 16, hexDigit n ∈ "0123456789abcdef".toList := by decide
  exact hall n (List.mem_range.mpr h)

theorem isHexPair_hexByte (byte : UInt8) : IsHexPair (hexByte byte).toList := by
  have hlt := byte.toNat_lt
  rw [hexByte, String.toList_ofList]
  refine ⟨rfl, ?_⟩
  intro c hc
  rcases List.mem_cons.mp hc with rfl | hc
  · exact hexDigit_mem (by omega)
  · obtain rfl := List.mem_singleton.mp hc
    exact hexDigit_mem (by omega)

theorem IsHexPair.ne_nil {word : List Char} (h : IsHexPair word) : word ≠ [] := by
  rintro rfl
  cases h.1

theorem IsHexPair.not_mem_blank {word : List Char} (h : IsHexPair word) : ' ' ∉ word :=
  fun hblank => absurd (h.2 _ hblank) (by decide)

/-- An indented line of bytes has a pair of digits for each of them and nothing else. -/
theorem wordsOf_hexDump (bytes : List UInt8) :
    wordsOf ("  " ++ hexDump bytes) = bytes.map fun byte => (hexByte byte).toList := by
  have hpairs : ∀ word ∈ bytes.map (fun byte => (hexByte byte).toList), IsHexPair word := by
    intro word hword
    obtain ⟨byte, -, rfl⟩ := List.mem_map.mp hword
    exact isHexPair_hexByte byte
  have hfilter := List.filter_eq_self.mpr fun word hword =>
    decide_eq_true (hpairs word hword).ne_nil
  have hline : ("  " ++ hexDump bytes).toList =
      ' ' :: ' ' :: [' '].intercalate (bytes.map fun byte => (hexByte byte).toList) := by
    rw [String.toList_append, hexDump, String.toList_intercalate, List.map_map]
    rfl
  cases hbytes : bytes with
  | nil => rfl
  | cons byte rest =>
      -- The two blanks of the indent part two empty words from the first pair.
      have hindent : ("  " ++ hexDump bytes).toList =
          [' '].intercalate ([] :: [] :: bytes.map fun byte => (hexByte byte).toList) := by
        rw [hline, hbytes]
        rfl
      have hblank : ∀ word ∈ [] :: [] :: bytes.map (fun byte => (hexByte byte).toList),
          ' ' ∉ word := by
        intro word hword
        rcases List.mem_cons.mp hword with rfl | hword
        · exact List.not_mem_nil
        · rcases List.mem_cons.mp hword with rfl | hword
          · exact List.not_mem_nil
          · exact (hpairs word hword).not_mem_blank
      rw [← hbytes, wordsOf, hindent,
        List.splitOn_intercalate ' ' hblank (List.cons_ne_nil _ _)]
      exact hfilter

/-! ## Numbers -/

theorem le_ofDigitChars (digits : List Char) (total : Nat) :
    total ≤ Nat.ofDigitChars 10 digits total := by
  induction digits generalizing total with
  | nil => exact Nat.le_refl total
  | cons c digits ih =>
      rw [Nat.ofDigitChars_cons]
      exact Nat.le_trans (by omega) (ih _)

/-- Digits of a number inside of the limit are read as this number. -/
theorem readDigits_ok {limit : Nat} (beyond : NumberError) {digits : List Char} {total : Nat}
    (hdigits : ∀ c ∈ digits, c.isDigit = true)
    (hlimit : Nat.ofDigitChars 10 digits total ≤ limit) :
    readDigits limit beyond digits total = .ok (Nat.ofDigitChars 10 digits total) := by
  induction digits generalizing total with
  | nil => rfl
  | cons c digits ih =>
      rw [Nat.ofDigitChars_cons] at hlimit ⊢
      have hnext := Nat.le_trans (le_ofDigitChars digits _) hlimit
      rw [readDigits, if_pos (hdigits c List.mem_cons_self)]
      dsimp only
      rw [if_neg (Nat.not_lt_of_le hnext)]
      exact ih (fun c hc => hdigits c (List.mem_cons_of_mem _ hc)) hlimit

theorem readMagnitude_toDigits {limit n : Nat} (beyond : NumberError) (h : n ≤ limit) :
    readMagnitude limit beyond (Nat.toDigits 10 n) = .ok n := by
  have hvalue : Nat.ofDigitChars 10 (Nat.toDigits 10 n) 0 = n :=
    Nat.ofDigitChars_toDigits (by decide) (by decide)
  have hread : readDigits limit beyond (Nat.toDigits 10 n) 0 =
      .ok (Nat.ofDigitChars 10 (Nat.toDigits 10 n) 0) :=
    readDigits_ok beyond (fun c hc => Nat.isDigit_of_mem_toDigits (by decide) (by decide) hc)
      (hvalue.symm ▸ h)
  rw [readMagnitude, if_neg (by simp [Nat.toDigits_ne_nil]), hread, hvalue]

/-- Without a sign, the number is that of all the digits. -/
theorem readInt64_of_isDigit {digits : List Char} (hne : digits ≠ [])
    (hdigits : ∀ c ∈ digits, c.isDigit = true) :
    readInt64 (String.ofList digits) = (do
      return Int64.ofNat (← readMagnitude Int64.maxValue.toInt.natAbs .aboveRange digits)) := by
  rw [readInt64, String.toList_ofList]
  split
  · exact absurd rfl hne
  · exact absurd (hdigits '-' List.mem_cons_self) (by decide)
  · exact absurd (hdigits '+' List.mem_cons_self) (by decide)
  · rfl

/-- The decimal text of a signed number is read as the number. -/
theorem readInt64_toString (number : Int64) : readInt64 (toString number.toInt) = .ok number := by
  have hlower := number.le_toInt
  have hupper := number.toInt_lt
  change readInt64 number.toInt.repr = _
  rw [Int.repr_eq_if]
  by_cases hsign : 0 ≤ number.toInt
  · have hlimit : number.toInt.toNat ≤ Int64.maxValue.toInt.natAbs := by
      change number.toInt.toNat ≤ 0x7FFFFFFFFFFFFFFF
      omega
    have hnumber : Int64.ofNat number.toInt.toNat = number := by
      rw [← Int64.ofInt_eq_ofNat, Int.toNat_of_nonneg hsign, Int64.ofInt_toInt]
    rw [if_pos hsign, Nat.repr_eq_ofList_toDigits, readInt64_of_isDigit Nat.toDigits_ne_nil
      fun c hc => Nat.isDigit_of_mem_toDigits (by decide) (by decide) hc,
      readMagnitude_toDigits _ hlimit]
    exact congrArg Except.ok hnumber
  · have hlimit : (-number.toInt).toNat ≤ Int64.minValue.toInt.natAbs := by
      change (-number.toInt).toNat ≤ 0x8000000000000000
      omega
    have hnumber : -Int64.ofNat (-number.toInt).toNat = number := by
      rw [← Int64.ofInt_eq_ofNat, Int.toNat_of_nonneg (by omega), ← Int64.ofInt_neg, Int.neg_neg,
        Int64.ofInt_toInt]
    have htext : ("-" ++ (-number.toInt).toNat.repr).toList =
        '-' :: Nat.toDigits 10 (-number.toInt).toNat := by
      rw [String.toList_append, Nat.repr_eq_ofList_toDigits]
      exact congrArg ('-' :: ·) String.toList_ofList
    have hread : readInt64 ("-" ++ (-number.toInt).toNat.repr) = (do
        return -Int64.ofNat (← readMagnitude Int64.minValue.toInt.natAbs .belowRange
          (Nat.toDigits 10 (-number.toInt).toNat))) := by
      rw [readInt64, htext]
      rfl
    rw [if_neg hsign, hread, readMagnitude_toDigits _ hlimit]
    exact congrArg Except.ok hnumber

end WordStream.Text
