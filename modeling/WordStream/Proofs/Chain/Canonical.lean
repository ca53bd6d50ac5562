import Mathlib.Algebra.Ring.Nat
import WordStream.Proofs.Chain

/-!
# Canonical chains

In a canonical chain every byte but the last has its top bit set, and the last byte is not zero unless it
is the only one.  Such a chain spells a number, and no other one spells it; nor is it the beginning of a
longer one, as its own last byte says where it ends.
-/

namespace WordStream.Chain

/-- The number that bytes spell, seven bits each and the low bits first. -/
def total : List UInt8 → Nat
  | [] => 0
  | byte :: bytes => byte.toNat % 128 + 128 * total bytes

theorem sum_worths (shift : Nat) (bytes : List UInt8) :
    (bytes.mapIdx fun i byte => byte.toNat % 128 * 2 ^ (shift + 7 * i)).sum =
      total bytes * 2 ^ shift := by
  induction bytes generalizing shift with
  | nil => exact (Nat.zero_mul _).symm
  | cons byte bytes ih =>
      have hpow : 2 ^ (shift + 7) = 128 * 2 ^ shift := by
        rw [Nat.pow_add, Nat.mul_comm]
      have hplaces : ∀ i, shift + 7 * (i + 1) = shift + 7 + 7 * i := by
        intro i
        omega
      rw [List.mapIdx_cons, List.sum_cons, total]
      simp only [hplaces]
      rw [ih (shift + 7), hpow, Nat.mul_zero, Nat.add_zero, Nat.add_mul, Nat.mul_assoc 128,
        Nat.mul_left_comm (total bytes)]

/-- The number of bytes is the sum of their groups, each counted by its place. -/
theorem total_eq_sum (bytes : List UInt8) :
    total bytes = (bytes.mapIdx fun i byte => byte.toNat % 128 * 2 ^ (7 * i)).sum := by
  have hsum := sum_worths 0 bytes
  simp only [Nat.zero_add] at hsum
  rw [hsum, Nat.pow_zero, Nat.mul_one]

theorem total_groups (n : Nat) : total (groups n) = n := by
  induction n using Nat.strongRecOn with
  | ind n ih =>
      by_cases hn : n < 128
      · rw [groups_of_lt hn, total, total, UInt8.toNat_ofNat']
        omega
      · rw [groups_of_le (by omega), total, ih (n / 128) (by omega), UInt8.toNat_ofNat']
        omega

/-- The top bit of a byte says whether another one follows, and no byte is there for nothing. -/
structure Canonical (bytes : List UInt8) : Prop where
  ne_nil : bytes ≠ []
  announces : ∀ i byte, bytes[i]? = some byte → (128 ≤ byte.toNat ↔ i + 1 < bytes.length)
  last_ne_zero : 1 < bytes.length → bytes.getLast? ≠ some 0

theorem canonical_singleton (byte : UInt8) : Canonical [byte] ↔ byte.toNat < 128 := by
  constructor
  · intro h
    have hlast := h.announces 0 byte rfl
    rw [List.length_singleton] at hlast
    omega
  · intro h
    refine ⟨by simp, fun i other hother => ?_, fun hlength => absurd hlength (by simp)⟩
    cases i with
    | zero =>
        obtain rfl : byte = other := Option.some.inj hother
        rw [List.length_singleton]
        omega
    | succ i => exact absurd hother (by simp)

theorem canonical_cons_cons (byte next : UInt8) (bytes : List UInt8) :
    Canonical (byte :: next :: bytes) ↔
      128 ≤ byte.toNat ∧ Canonical (next :: bytes) ∧ next :: bytes ≠ [0] := by
  constructor
  · intro h
    have hlast := h.last_ne_zero (by simp)
    rw [List.getLast?_cons_cons] at hlast
    refine ⟨(h.announces 0 byte rfl).mpr (by simp), ⟨by simp, fun i other hother => ?_, fun _ => hlast⟩,
      fun hzero => hlast (by rw [hzero]; rfl)⟩
    rw [h.announces (i + 1) other hother, List.length_cons]
    omega
  · rintro ⟨hbyte, hrest, hzero⟩
    refine ⟨by simp, fun i other hother => ?_, fun _ => ?_⟩
    · cases i with
      | zero =>
          obtain rfl : byte = other := Option.some.inj hother
          exact iff_of_true hbyte (by simp)
      | succ i =>
          rw [hrest.announces i other hother, List.length_cons (a := byte)]
          omega
    · rw [List.getLast?_cons_cons]
      cases bytes with
      | nil =>
          intro hlast
          obtain rfl : next = 0 := Option.some.inj hlast
          exact hzero rfl
      | cons _ _ => exact hrest.last_ne_zero (by simp)

/-- The chain that a writer makes is canonical. -/
theorem canonical_groups (n : Nat) : Canonical (groups n) := by
  induction n using Nat.strongRecOn with
  | ind n ih =>
      by_cases hn : n < 128
      · rw [groups_of_lt hn, canonical_singleton, UInt8.toNat_ofNat']
        omega
      · have hrest := ih (n / 128) (by omega)
        have htotal := total_groups (n / 128)
        rw [groups_of_le (by omega)]
        cases hgroups : groups (n / 128) with
        | nil => exact absurd hgroups (groups_ne_nil _)
        | cons next bytes =>
            rw [hgroups] at hrest htotal
            refine (canonical_cons_cons _ _ _).mpr ⟨?_, hrest, fun hzero => ?_⟩
            · rw [UInt8.toNat_ofNat']
              omega
            · rw [hzero] at htotal
              change 0 = n / 128 at htotal
              omega

namespace Canonical

/-- A canonical chain is the one of its number. -/
theorem eq_groups {bytes : List UInt8} (h : Canonical bytes) : bytes = groups (total bytes) := by
  induction bytes with
  | nil => exact absurd rfl h.ne_nil
  | cons byte bytes ih =>
      cases bytes with
      | nil =>
          have hbyte := (canonical_singleton byte).mp h
          have htotal : total [byte] = byte.toNat := by
            rw [total, total]
            omega
          rw [htotal, groups_of_lt hbyte, UInt8.ofNat_toNat]
      | cons next bytes =>
          obtain ⟨hbyte, hrest, hzero⟩ := (canonical_cons_cons _ _ _).mp h
          have hbytes := ih hrest
          have hlt := byte.toNat_lt
          have hpos : total (next :: bytes) ≠ 0 := by
            intro hnone
            rw [hnone] at hbytes
            exact hzero (hbytes.trans (groups_of_lt (by decide)))
          have htotal : total (byte :: next :: bytes) = byte.toNat % 128 + 128 * total (next :: bytes) :=
            rfl
          have hhigh : total (byte :: next :: bytes) / 128 = total (next :: bytes) := by omega
          have hlow : 128 + total (byte :: next :: bytes) % 128 = byte.toNat := by omega
          rw [groups_of_le (by omega), hhigh, hlow, UInt8.ofNat_toNat, ← hbytes]

/-- The last byte of a canonical chain does not go on in a longer one. -/
theorem eq_of_begins {xs ys : List UInt8} (hx : Canonical xs) (hy : Canonical ys) (h : xs <+: ys) :
    xs = ys := by
  refine h.eq_of_length (Nat.le_antisymm h.length_le ?_)
  have hpos := List.length_pos_iff.mpr hx.ne_nil
  obtain ⟨more, rfl⟩ := h
  obtain ⟨last, hlast⟩ : ∃ last, xs[xs.length - 1]? = some last :=
    ⟨_, List.getElem?_eq_getElem (by omega)⟩
  have hends := hx.announces _ last hlast
  have hmore := hy.announces (xs.length - 1) last (by
    rw [List.getElem?_append_left (by omega)]
    exact hlast)
  omega

end Canonical

end WordStream.Chain
