import Mathlib.Algebra.Group.Nat.Defs
import WordStream.Proofs.Chain.Merging
import WordStream.Proofs.Stream.Symbols

/-!
# Chains read back

The shortest chain of a number is no longer than the number needs.  Reading it takes its bytes off a
source, however these are spelled there, and adds the number to what was read before, as long as the
sum is a word and enough groups are allowed.
-/

namespace WordStream.Chain

theorem groups_of_lt {n : Nat} (h : n < 128) : groups n = [UInt8.ofNat n] := by
  rw [groups, if_pos h]

theorem groups_of_le {n : Nat} (h : 128 ≤ n) :
    groups n = UInt8.ofNat (128 + n % 128) :: groups (n / 128) := by
  rw [groups, if_neg (by omega)]

/-- A chain has just as many groups as its number needs. -/
theorem length_groups_le_iff (count n : Nat) :
    (groups n).length ≤ count + 1 ↔ n < 128 ^ (count + 1) := by
  induction count generalizing n with
  | zero =>
      by_cases hn : n < 128
      · simp [groups_of_lt hn, hn]
      · have := List.length_pos_iff.mpr (groups_ne_nil (n / 128))
        rw [groups_of_le (by omega), List.length_cons]
        omega
  | succ count ih =>
      by_cases hn : n < 128
      · have hpow : 128 ^ 1 ≤ 128 ^ (count + 1 + 1) := Nat.pow_le_pow_right (by decide) (by omega)
        rw [groups_of_lt hn, List.length_singleton]
        omega
      · -- Every group but the last takes seven bits off the number.
        rw [groups_of_le (by omega), List.length_cons, Nat.add_le_add_iff_right, ih,
          Nat.div_lt_iff_lt_mul (by decide), Nat.pow_succ 128 (count + 1)]

theorem length_groups_le (count : Nat) {n : Nat} (h : n < 128 ^ (count + 1)) :
    (groups n).length ≤ count + 1 :=
  (length_groups_le_iff count n).mpr h

/-- Reading the shortest chain of `n` adds `n`, scaled, to the sum so far. -/
theorem takes_read_groups {ρ β : Type} [SymbolSource ρ β] {next : ReadM ρ UInt8}
    {spell : UInt8 → List β} (hnext : ∀ byte, Takes next (spell byte) byte) (context : String)
    {count n : Nat} (scale total : Nat) (hcount : (groups n).length ≤ count)
    (hsum : total + n * scale < UInt32.size) :
    Takes (read next context count scale total) ((groups n).flatMap spell)
      (UInt32.ofNat (total + n * scale)) := by
  induction count generalizing n scale total with
  | zero =>
      have hnil := List.eq_nil_of_length_eq_zero (Nat.le_zero.mp hcount)
      exact absurd hnil (groups_ne_nil n)
  | succ count ih =>
      rw [read_succ]
      by_cases hn : n < 128
      · have hbyte : (UInt8.ofNat n).toNat = n := by
          rw [UInt8.toNat_ofNat']
          omega
        rw [groups_of_lt hn, List.flatMap_cons, List.flatMap_nil]
        refine Takes.bind (hnext _) ?_
        rw [hbyte, Nat.mod_eq_of_lt hn, if_neg (by omega), if_pos hn]
        exact Takes.pure _
      · have hbyte : (UInt8.ofNat (128 + n % 128)).toNat = 128 + n % 128 := by
          rw [UInt8.toNat_ofNat']
          omega
        have hlow : (128 + n % 128) % 128 = n % 128 := by omega
        -- The number is its low group and the rest, counted 128-fold.
        have hsplit : total + n * scale = total + n % 128 * scale + n / 128 * (scale * 128) := by
          have hn' : n * scale = (128 * (n / 128) + n % 128) * scale := by
            rw [Nat.div_add_mod]
          rw [hn', Nat.add_mul, Nat.mul_comm scale 128, ← Nat.mul_assoc, Nat.mul_comm 128]
          omega
        rw [groups_of_le (by omega)] at hcount ⊢
        rw [List.flatMap_cons]
        refine Takes.bind (hnext _) ?_
        rw [hbyte, hlow, if_neg (by omega), if_neg (by omega), hsplit]
        exact ih _ _ (by simpa using hcount) (by omega)

end WordStream.Chain
