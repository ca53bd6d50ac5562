import Mathlib.Data.Nat.Bitwise
import WordStream.Sparse.Code
import WordStream.Varint

/-!
# Groups merged and groups added

The readers of both formats shift each group of a chain to its place in the word and merge it with the
bits that are there; the one tells a group that does not fit by the value of the fifth, the other by the
bits that would be shifted out.  Said in numbers, both add up groups that count 128-fold from one to the
next, and what does not fit is a sum past 32 bits.
-/

namespace WordStream

namespace Chain

/-- Read the rest of a chain, in which at most `count` groups are left.  The groups read so far spell
`total`, and the next one counts `scale`-fold.  A sum past 32 bits is told before a chain that is too
long, and both only after the group that shows them has been consumed. -/
def read {ρ : Type} (next : ReadM ρ UInt8) (context : String) :
    (count scale total : Nat) → ReadM ρ UInt32
  | 0, _, _ => throw ⟨.tooLong, context⟩
  | count + 1, scale, total => do
      let byte := (← next).toNat
      let sum := total + byte % 128 * scale
      if UInt32.size ≤ sum then throw ⟨.overflow, context⟩
      else if byte < 128 then return UInt32.ofNat sum
      else read next context count (scale * 128) sum

theorem read_succ {ρ : Type} (next : ReadM ρ UInt8) (context : String) (count scale total : Nat) :
    read next context (count + 1) scale total = next >>= fun byte =>
      if UInt32.size ≤ total + byte.toNat % 128 * scale then throw ⟨.overflow, context⟩
      else if byte.toNat < 128 then pure (UInt32.ofNat (total + byte.toNat % 128 * scale))
      else read next context count (scale * 128) (total + byte.toNat % 128 * scale) := rfl

/-! ## Single groups -/

/-- A bit of a byte is looked at by masking it out. -/
theorem and_bit_eq_zero (byte : UInt8) {bit : UInt8} {i : Nat} (hbit : bit.toNat = 2 ^ i) :
    byte &&& bit = 0 ↔ byte.toNat / 2 ^ i % 2 = 0 := by
  have hand : (byte &&& bit).toNat = (byte.toNat.testBit i).toNat * 2 ^ i := by
    rw [UInt8.toNat_and, hbit, Nat.and_two_pow]
  rw [← UInt8.toNat_inj, hand, UInt8.toNat_zero, Nat.testBit_eq_decide_div_mod_eq]
  rcases Nat.mod_two_eq_zero_or_one (byte.toNat / 2 ^ i) with hclear | hset
  · simp [hclear]
  · simp [hset]

theorem and_0x80_eq_zero (byte : UInt8) : byte &&& 0x80 = 0 ↔ byte.toNat < 128 := by
  have hlt := byte.toNat_lt
  refine (and_bit_eq_zero byte (show (0x80 : UInt8).toNat = 2 ^ 7 from rfl)).trans ?_
  omega

theorem toNat_and_0x7F (byte : UInt8) : (byte &&& 0x7F).toNat = byte.toNat % 128 := by
  have hmask : (0x7F : UInt8).toNat = 2 ^ 7 - 1 := rfl
  rw [UInt8.toNat_and, hmask, Nat.and_two_pow_sub_one_eq_mod]

/-- A group fits above `shift` bits just when it has none past the 32 of a word. -/
theorem size_le_add_iff {shift total : Nat} (hshift : shift ≤ 32) (htotal : total < 2 ^ shift)
    (group : Nat) : UInt32.size ≤ total + group * 2 ^ shift ↔ 2 ^ (32 - shift) ≤ group := by
  have hsize : UInt32.size = 2 ^ (32 - shift) * 2 ^ shift := by
    rw [← Nat.pow_add, Nat.sub_add_cancel hshift]
  rw [hsize]
  constructor
  · intro h
    have hless : 2 ^ (32 - shift) * 2 ^ shift < (group + 1) * 2 ^ shift := by
      rw [Nat.succ_mul]
      omega
    exact Nat.le_of_lt_succ (Nat.lt_of_mul_lt_mul_right hless)
  · intro h
    exact Nat.le_trans (Nat.mul_le_mul_right _ h) (Nat.le_add_left _ _)

/-- Merging a group that fits above the bits of a word adds it there. -/
theorem merge_eq_add {shift : Nat} (hshift : shift < 32) {result group : UInt32}
    (hresult : result.toNat < 2 ^ shift)
    (hfit : result.toNat + group.toNat * 2 ^ shift < UInt32.size) :
    result ||| group <<< UInt32.ofNat shift =
      UInt32.ofNat (result.toNat + group.toNat * 2 ^ shift) := by
  have hplace : (UInt32.ofNat shift).toNat = shift :=
    UInt32.toNat_ofNat_of_lt' (Nat.lt_trans hshift (by decide))
  have hgroup : (group <<< UInt32.ofNat shift).toNat = 2 ^ shift * group.toNat := by
    rw [UInt32.toNat_shiftLeft, hplace, Nat.mod_eq_of_lt hshift, Nat.shiftLeft_eq, Nat.mul_comm]
    refine Nat.mod_eq_of_lt (Nat.lt_of_le_of_lt ?_ hfit)
    rw [Nat.mul_comm]
    exact Nat.le_add_left _ _
  apply UInt32.toNat_inj.mp
  rw [UInt32.toNat_or, hgroup, Nat.or_comm, ← Nat.two_pow_add_eq_or_of_lt hresult,
    UInt32.toNat_ofNat_of_lt' hfit, Nat.mul_comm, Nat.add_comm]

/-- What is added to the bits of a word lies below the place of the next group. -/
theorem add_lt_two_pow {shift total group : Nat} (htotal : total < 2 ^ shift) (hgroup : group < 128) :
    total + group * 2 ^ shift < 2 ^ (shift + 7) := by
  have hle : (group + 1) * 2 ^ shift ≤ 128 * 2 ^ shift := Nat.mul_le_mul_right _ hgroup
  rw [Nat.succ_mul] at hle
  rw [Nat.pow_add, Nat.mul_comm (2 ^ shift)]
  omega

/-- Of seven bits, none lies past the 32 of a word where seven are left. -/
theorem lt_two_pow_of_room {shift group : Nat} (hroom : shift + 7 ≤ 32) (hgroup : group < 128) :
    group < 2 ^ (32 - shift) :=
  Nat.lt_of_lt_of_le hgroup (Nat.pow_le_pow_right (n := 2) (by decide) (by omega : 7 ≤ 32 - shift))

/-- A turn on machine words is a turn on numbers, if it tells from the group whether a sum passes 32 bits,
and from the byte whether the chain ends. -/
theorem turn_eq {ρ : Type} {byte : UInt8} {shift : Nat} (hshift : shift < 32) {result group : UInt32}
    (hresult : result.toNat < 2 ^ shift) (hgroup : group.toNat = byte.toNat % 128)
    {overflows ends : Prop} [Decidable overflows] [Decidable ends]
    (hover : overflows ↔ UInt32.size ≤ result.toNat + group.toNat * 2 ^ shift)
    (hends : ends ↔ byte.toNat < 128) (fault : ReadM ρ UInt32) (loop : UInt32 → ReadM ρ UInt32)
    (rest : Nat → ReadM ρ UInt32)
    (hloop : ∀ merged : UInt32, merged.toNat < 2 ^ (shift + 7) → loop merged = rest merged.toNat) :
    (if overflows then fault
      else if ends then pure (result ||| group <<< UInt32.ofNat shift)
      else loop (result ||| group <<< UInt32.ofNat shift)) =
    if UInt32.size ≤ result.toNat + byte.toNat % 128 * 2 ^ shift then fault
    else if byte.toNat < 128 then
      pure (UInt32.ofNat (result.toNat + byte.toNat % 128 * 2 ^ shift))
    else rest (result.toNat + byte.toNat % 128 * 2 ^ shift) := by
  have hlt : byte.toNat % 128 < 128 := Nat.mod_lt _ (by decide)
  rw [hgroup] at hover
  by_cases hfit : UInt32.size ≤ result.toNat + byte.toNat % 128 * 2 ^ shift
  · rw [if_pos (hover.mpr hfit), if_pos hfit]
  · have hless := Nat.lt_of_not_le hfit
    have hmerged := merge_eq_add hshift hresult (by rwa [hgroup])
    have hsum : (UInt32.ofNat (result.toNat + byte.toNat % 128 * 2 ^ shift)).toNat =
        result.toNat + byte.toNat % 128 * 2 ^ shift := UInt32.toNat_ofNat_of_lt' hless
    have hrest := hloop (UInt32.ofNat (result.toNat + byte.toNat % 128 * 2 ^ shift))
      (by rw [hsum]; exact add_lt_two_pow hresult hlt)
    rw [hsum] at hrest
    rw [hgroup] at hmerged
    rw [if_neg (mt hover.mp hfit), if_neg hfit, hmerged, hrest]
    exact if_congr hends rfl rfl

end Chain

/-! ## The loop of the standard format -/

namespace Varint

open Chain

theorem readGroups_cons {ρ : Type} (next : ReadM ρ UInt8) (context : String) (place : Nat)
    (places : List Nat) (result : UInt32) :
    readGroups next context (place :: places) result = next >>= fun byte =>
      if place = 4 ∧ 0x0F < (byte &&& 0x7F).toUInt32 then throw ⟨.overflow, context⟩
      else if byte &&& 0x80 = 0 then
        pure (result ||| (byte &&& 0x7F).toUInt32 <<< UInt32.ofNat (7 * place))
      else readGroups next context places
        (result ||| (byte &&& 0x7F).toUInt32 <<< UInt32.ofNat (7 * place)) := rfl

/-- The value of the fifth group tells that a sum passes 32 bits, and no other group makes it do so. -/
theorem overflows_iff {place total : Nat} (hplace : place < 5) (htotal : total < 2 ^ (7 * place))
    (group : UInt32) (hgroup : group.toNat < 128) :
    place = 4 ∧ 0x0F < group ↔ UInt32.size ≤ total + group.toNat * 2 ^ (7 * place) := by
  rw [size_le_add_iff (by omega) htotal, UInt32.lt_iff_toNat_lt]
  by_cases hlast : place = 4
  · subst hlast
    simp only [true_and]
    exact Iff.rfl
  · have hroom : group.toNat < 2 ^ (32 - 7 * place) := lt_two_pow_of_room (by omega) hgroup
    omega

theorem readGroups_eq_read {ρ : Type} (next : ReadM ρ UInt8) (context : String) (count place : Nat)
    (result : UInt32) (hplace : place + count = 5) (hresult : result.toNat < 2 ^ (7 * place)) :
    readGroups next context (List.range' place count) result =
      Chain.read next context count (2 ^ (7 * place)) result.toNat := by
  -- Induction on the groups that are left; the ones before them lie below the place of the next one.
  induction count generalizing place result with
  | zero => rfl
  | succ count ih =>
      rw [List.range'_succ, readGroups_cons, Chain.read_succ]
      refine bind_congr fun byte => ?_
      have hgroup : (byte &&& 0x7F).toUInt32.toNat = byte.toNat % 128 := by
        rw [UInt8.toNat_toUInt32, toNat_and_0x7F]
      have hover := overflows_iff (by omega) hresult (byte &&& 0x7F).toUInt32
        (by rw [hgroup]; exact Nat.mod_lt _ (by decide))
      refine turn_eq (by omega) hresult hgroup hover (and_0x80_eq_zero byte) _
        (fun merged => readGroups next context (List.range' (place + 1) count) merged)
        (fun sum => Chain.read next context count (2 ^ (7 * place) * 128) sum) fun merged hmerged => ?_
      rw [ih (place + 1) merged (by omega) hmerged, Nat.mul_succ, Nat.pow_add]

/-- The read of a varint adds up at most five groups. -/
theorem read_eq {ρ : Type} (next : ReadM ρ UInt8) (context : String) :
    read next context = Chain.read next context 5 1 0 := by
  rw [read, List.range_eq_range']
  exact readGroups_eq_read next context 5 0 0 rfl (by decide)

end Varint

/-! ## The loop of the sparse format -/

namespace Sparse

open Chain

theorem readGroups_succ {ρ : Type} (next : ReadM ρ UInt8) (context : String) (count shift : Nat)
    (result : UInt32) :
    readGroups next context (count + 1) shift result = next >>= fun byte =>
      if 32 < shift + 7 ∧ (byte.toUInt32 &&& groupMask) >>> UInt32.ofNat (32 - shift) ≠ 0 then
        throw ⟨.overflow, context⟩
      else if byte &&& continuation = 0 then
        pure (result ||| (byte.toUInt32 &&& groupMask) <<< UInt32.ofNat shift)
      else readGroups next context count (shift + 7)
        (result ||| (byte.toUInt32 &&& groupMask) <<< UInt32.ofNat shift) :=
  bind_congr fun _ => congrArg (ite _ (throw (DecodeError.mk .overflow context))) (ite_not _ _ _)

theorem toNat_and_groupMask (byte : UInt8) : (byte.toUInt32 &&& groupMask).toNat = byte.toNat % 128 := by
  have hmask : groupMask.toNat = 2 ^ 7 - 1 := rfl
  rw [UInt32.toNat_and, hmask, Nat.and_two_pow_sub_one_eq_mod, UInt8.toNat_toUInt32]

theorem toNat_and_headMask (byte : UInt8) : (byte.toUInt32 &&& headMask).toNat = byte.toNat % 64 := by
  have hmask : headMask.toNat = 2 ^ 6 - 1 := rfl
  rw [UInt32.toNat_and, hmask, Nat.and_two_pow_sub_one_eq_mod, UInt8.toNat_toUInt32]

/-- The bits that would be shifted out of a word tell that a sum passes 32 bits. -/
theorem overflows_iff {shift total : Nat} (hpos : 0 < shift) (hshift : shift < 32)
    (htotal : total < 2 ^ shift) (group : UInt32) (hgroup : group.toNat < 128) :
    32 < shift + 7 ∧ group >>> UInt32.ofNat (32 - shift) ≠ 0 ↔
      UInt32.size ≤ total + group.toNat * 2 ^ shift := by
  have hplace : (UInt32.ofNat (32 - shift)).toNat % 32 = 32 - shift := by
    rw [UInt32.toNat_ofNat_of_lt' (Nat.lt_of_le_of_lt (Nat.sub_le 32 shift) (by decide))]
    exact Nat.mod_eq_of_lt (by omega)
  have hout : group >>> UInt32.ofNat (32 - shift) ≠ 0 ↔ 2 ^ (32 - shift) ≤ group.toNat := by
    rw [Ne, ← UInt32.toNat_inj, UInt32.toNat_shiftRight, hplace, Nat.shiftRight_eq_div_pow,
      UInt32.toNat_zero, Nat.div_eq_zero_iff_lt (Nat.two_pow_pos _), Nat.not_lt]
  rw [size_le_add_iff (Nat.le_of_lt hshift) htotal, hout]
  constructor
  · exact And.right
  · intro h
    refine ⟨Nat.lt_of_not_le fun hroom => ?_, h⟩
    exact absurd h (Nat.not_le_of_lt (lt_two_pow_of_room hroom hgroup))

theorem readGroups_eq_read {ρ : Type} (next : ReadM ρ UInt8) (context : String) (count shift : Nat)
    (result : UInt32) (hpos : 0 < shift) (hshift : shift + 7 * count ≤ 34)
    (hresult : result.toNat < 2 ^ shift) :
    readGroups next context count shift result =
      Chain.read next context count (2 ^ shift) result.toNat := by
  induction count generalizing shift result with
  | zero => rfl
  | succ count ih =>
      rw [readGroups_succ, Chain.read_succ]
      refine bind_congr fun byte => ?_
      have hgroup := toNat_and_groupMask byte
      have hover := overflows_iff hpos (by omega) hresult (byte.toUInt32 &&& groupMask)
        (by rw [hgroup]; exact Nat.mod_lt _ (by decide))
      refine turn_eq (by omega) hresult hgroup hover (and_0x80_eq_zero byte) _
        (fun merged => readGroups next context count (shift + 7) merged)
        (fun sum => Chain.read next context count (2 ^ shift * 128) sum) fun merged hmerged => ?_
      rw [ih (shift + 7) merged (by omega) (by omega) hmerged, Nat.pow_add]

/-- The read of a chain adds to the six bits of its head at most four groups. -/
theorem readChain_eq {ρ : Type} (next : ReadM ρ UInt8) (context : String) :
    readChain next context = next >>= fun head =>
      if head.toNat / 64 % 2 = 1 then Chain.read next context 4 64 (head.toNat % 64)
      else pure (UInt32.ofNat (head.toNat % 64)) := by
  refine bind_congr fun head => ?_
  have hlow := toNat_and_headMask head
  have hmore : head &&& headContinuation ≠ 0 ↔ head.toNat / 64 % 2 = 1 := by
    rw [Ne, and_bit_eq_zero head (show headContinuation.toNat = 2 ^ 6 from rfl)]
    exact Nat.mod_two_ne_zero
  by_cases hset : head.toNat / 64 % 2 = 1
  · have hread := readGroups_eq_read next context 4 6 (head.toUInt32 &&& headMask) (by decide)
      (by decide) (by rw [hlow]; exact Nat.mod_lt _ (by decide))
    rw [hlow] at hread
    rw [if_pos hset]
    exact (if_pos (hmore.mpr hset)).trans hread
  · rw [if_neg hset, ← hlow, UInt32.ofNat_toNat]
    exact if_neg (mt hmore.mp hset)

end Sparse

end WordStream
