import WordStream.Proofs.Bits
import WordStream.Proofs.Chain
import WordStream.Proofs.Stream.Symbols
import WordStream.Sparse.Code

/-!
# The code of a word as a string of bits

The sparse code is described bit by bit, without bytes: zero is one bit, and any other word is a flag,
a continuation bit and six bits, and then, while bits of the word remain, a continuation bit and
seven more.  The logical bytes of a word spell just this code.
-/

namespace WordStream.Sparse

/-- The `width` low bits of a number, the most significant one first. -/
def lowBits : (width n : Nat) → List Bool
  | 0, _ => []
  | width + 1, n => n.testBit width :: lowBits width n

/-- The code of what remains of a number: nothing, or a continuation bit and the seven low bits,
with the code of the rest after them. -/
def laterCode (n : Nat) : List Bool :=
  if n = 0 then []
  else decide (n / 128 ≠ 0) :: (lowBits 7 n ++ laterCode (n / 128))
termination_by n
decreasing_by omega

/-- The code of a number: a zero bit, or a flag, a continuation bit and the six low bits, with the
code of the rest after them. -/
def code (n : Nat) : List Bool :=
  if n = 0 then [false]
  else true :: decide (n / 64 ≠ 0) :: (lowBits 6 n ++ laterCode (n / 64))

/-- Words are spelled by their codes, and so are booleans and bytes. -/
def spelling : Spelling Bool := ⟨fun w => code w.toNat, fun x => code x.toUInt32.toNat⟩

/-- The code of a word other than zero begins with its flag. -/
theorem code_eq_cons {w : UInt32} (h : w ≠ 0) : code w.toNat = true :: (code w.toNat).tail := by
  have hn : w.toNat ≠ 0 := fun h0 => h (UInt32.toNat_inj.mp h0)
  rw [code, if_neg hn]
  rfl

/-- The logical bytes of a word, in numbers. -/
theorem logicalBytes_eq (w : UInt32) :
    logicalBytes w =
      if w.toNat / 64 = 0 then [UInt8.ofNat (128 + w.toNat % 64)]
      else UInt8.ofNat (128 + 64 + w.toNat % 64) :: Chain.groups (w.toNat / 64) := by
  have hmask : headMask.toNat = 2 ^ 6 - 1 := rfl
  have hlow : (w &&& headMask).toUInt8.toNat = w.toNat % 64 := by
    rw [UInt32.toNat_toUInt8, UInt32.toNat_and, hmask, Nat.and_two_pow_sub_one_eq_mod]
    omega
  have hrest : (w >>> UInt32.ofNat Limits.sparseHeadBits).toNat = w.toNat / 64 := by
    rw [UInt32.toNat_shiftRight]
    exact Nat.shiftRight_eq_div_pow _ _
  have hflag : ∀ flags : UInt8, ∀ i, flags.toNat = 2 ^ 6 * i → i < 4 →
      flags ||| (w &&& headMask).toUInt8 = UInt8.ofNat (64 * i + w.toNat % 64) := by
    intro flags i hflags hi
    apply UInt8.toNat_inj.mp
    rw [UInt8.toNat_or, hflags, hlow, ← Nat.two_pow_add_eq_or_of_lt (Nat.mod_lt _ (by decide)),
      UInt8.toNat_ofNat']
    omega
  have hzero : w >>> UInt32.ofNat Limits.sparseHeadBits = 0 ↔ w.toNat / 64 = 0 := by
    rw [← UInt32.toNat_inj, hrest, UInt32.toNat_zero]
  rw [logicalBytes]
  simp only [hzero, hrest]
  rw [hflag nonzeroFlag 2 rfl (by decide), hflag (nonzeroFlag ||| headContinuation) 3 rfl (by decide)]

theorem lowBits_mod {width k : Nat} (h : width ≤ k) (n : Nat) :
    lowBits width (n % 2 ^ k) = lowBits width n := by
  induction width with
  | zero => rfl
  | succ width ih =>
      rw [lowBits, lowBits, ih (by omega), Nat.testBit_mod_two_pow, decide_eq_true (by omega),
        Bool.true_and]

theorem ofByte_eq_lowBits (byte : UInt8) : Bits.ofByte byte = lowBits 8 byte.toNat := rfl

/-- A byte of a chain is its continuation bit and its group. -/
theorem ofByte_group (more : Bool) {n : Nat} (h : n < 128) :
    Bits.ofByte (UInt8.ofNat (128 * more.toNat + n)) = more :: lowBits 7 n := by
  have hbound := more.toNat_lt
  rw [ofByte_eq_lowBits, UInt8.toNat_ofNat', Nat.mod_eq_of_lt (by omega), lowBits,
    ← lowBits_mod (Nat.le_refl 7) (128 * more.toNat + n)]
  have hlow : (128 * more.toNat + n) % 2 ^ 7 = n := by omega
  have hhigh : (128 * more.toNat + n) / 2 ^ 7 = more.toNat := by omega
  rw [hlow, Nat.testBit_eq_decide_div_mod_eq, hhigh]
  cases more <;> rfl

theorem ofBytes_groups {n : Nat} (h : n ≠ 0) :
    Bits.ofBytes (Chain.groups n) = laterCode n := by
  induction n using Nat.strongRecOn with
  | ind n ih =>
      rw [laterCode, if_neg h]
      by_cases hn : n < 128
      · have hrest : n / 128 = 0 := by omega
        rw [Chain.groups_of_lt hn, hrest, laterCode, if_pos rfl, Bits.ofBytes_cons, Bits.ofBytes_nil]
        simpa using ofByte_group false hn
      · have hrest : n / 128 ≠ 0 := by omega
        rw [Chain.groups_of_le (by omega), Bits.ofBytes_cons, ih (n / 128) (by omega) hrest,
          decide_eq_true hrest, ← lowBits_mod (Nat.le_refl 7) n]
        have hbyte := ofByte_group true (Nat.mod_lt n (by decide : 128 > 0))
        rw [show 128 * true.toNat = 128 from rfl] at hbyte
        rw [hbyte]
        rfl

/-- The first byte of a code is its flag, its continuation bit and its group. -/
theorem ofByte_head (more : Bool) {n : Nat} (h : n < 64) :
    Bits.ofByte (UInt8.ofNat (128 + (64 * more.toNat + n))) = true :: more :: lowBits 6 n := by
  have hbound := more.toNat_lt
  have hbyte := ofByte_group true (show 64 * more.toNat + n < 128 by omega)
  have hlow : (64 * more.toNat + n) % 2 ^ 6 = n := by omega
  have hhigh : (64 * more.toNat + n) / 2 ^ 6 = more.toNat := by omega
  rw [lowBits, ← lowBits_mod (Nat.le_refl 6), hlow, Nat.testBit_eq_decide_div_mod_eq, hhigh,
    show 128 * true.toNat = 128 from rfl] at hbyte
  rw [hbyte]
  cases more <;> rfl

/-- The logical bytes of a word other than zero spell its code. -/
theorem ofBytes_logicalBytes {w : UInt32} (h : w ≠ 0) :
    Bits.ofBytes (logicalBytes w) = code w.toNat := by
  have hn : w.toNat ≠ 0 := fun h0 => h (UInt32.toNat_inj.mp h0)
  have hlow : w.toNat % 64 < 64 := Nat.mod_lt _ (by decide)
  rw [logicalBytes_eq, code, if_neg hn, ← lowBits_mod (Nat.le_refl 6) w.toNat]
  by_cases hrest : w.toNat / 64 = 0
  · have hbyte := ofByte_head false hlow
    rw [show 64 * false.toNat + w.toNat % 64 = w.toNat % 64 by simp] at hbyte
    rw [if_pos hrest, hrest, laterCode, if_pos rfl, Bits.ofBytes_cons, Bits.ofBytes_nil, hbyte]
    rfl
  · have hbyte := ofByte_head true hlow
    rw [show 128 + (64 * true.toNat + w.toNat % 64) = 128 + 64 + w.toNat % 64 by
      rw [show true.toNat = 1 from rfl]; omega] at hbyte
    rw [if_neg hrest, Bits.ofBytes_cons, hbyte, ofBytes_groups hrest, decide_eq_true hrest]
    rfl

end WordStream.Sparse
