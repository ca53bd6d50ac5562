import Mathlib.Algebra.Ring.Nat
import WordStream.Proofs.Sparse.Cursor

/-!
# Steps of a cursor

A cursor goes on by single bits and by whole bytes.  In machine words, where a roll from the last bit of a
byte into the next one is a case of its own, it goes through the same places as one that counts without
bound, as long as these have addresses.
-/

namespace WordStream.Sparse

/-- What a cursor goes on by. -/
inductive Step where
  | bit
  | byte
  deriving DecidableEq

namespace Step

/-- The number of bits of a step. -/
def width : Step → Nat
  | bit => 1
  | byte => 8

/-- The number of bits of some steps. -/
def widths (steps : List Step) : Nat := (steps.map width).sum

@[simp] theorem widths_cons (step : Step) (steps : List Step) :
    widths (step :: steps) = step.width + widths steps := by
  simp [widths]

@[simp] theorem widths_replicate (n : Nat) (step : Step) :
    widths (List.replicate n step) = n * step.width := by
  simp [widths]

end Step

/-! ## Cursors -/

namespace Cursor

def advance (c : Cursor) : Step → Cursor
  | .bit => c.advanceBit
  | .byte => c.advanceByte

/-- The cursor after some steps. -/
def walk (c : Cursor) (steps : List Step) : Cursor := steps.foldl advance c

@[simp] theorem walk_cons (c : Cursor) (step : Step) (steps : List Step) :
    c.walk (step :: steps) = (c.advance step).walk steps := rfl

theorem walk_append (c : Cursor) (steps later : List Step) :
    c.walk (steps ++ later) = (c.walk steps).walk later := List.foldl_append

@[simp] theorem bitPosition_advance (c : Cursor) (step : Step) :
    (c.advance step).bitPosition = c.bitPosition + step.width := by
  cases step with
  | bit => exact bitPosition_advanceBit c
  | byte => exact bitPosition_advanceByte c

theorem bitPosition_walk (c : Cursor) (steps : List Step) :
    (c.walk steps).bitPosition = c.bitPosition + Step.widths steps := by
  induction steps generalizing c with
  | nil => rfl
  | cons step steps ih => rw [walk_cons, ih, bitPosition_advance, Step.widths_cons, Nat.add_assoc]

/-- Cursors are told apart by the numbers of bits before them. -/
theorem eq_of_bitPosition_eq {c d : Cursor} (h : c.bitPosition = d.bitPosition) : c = d := by
  rw [eq_atBit h, atBit_bitPosition]

theorem byte_eq_div (c : Cursor) : c.byte = c.bitPosition / 8 := by
  have hbit := c.bit.isLt
  rw [bitPosition]
  omega

theorem byte_le_walk (c : Cursor) (steps : List Step) : c.byte ≤ (c.walk steps).byte := by
  rw [byte_eq_div, byte_eq_div, bitPosition_walk]
  exact Nat.div_le_div_right (Nat.le_add_right _ _)

/-- A cursor is at the last bit of a byte just when the next bit begins another byte. -/
theorem atLastBit_iff (c : Cursor) : c.atLastBit = true ↔ (c.bitPosition + 1) % 8 = 0 := by
  have hbit := c.bit.isLt
  rw [atLastBit, beq_iff_eq, bitPosition]
  omega

end Cursor

/-! ## Cursors in machine words -/

/-- A cursor that counts bytes in a machine word, and the bits of a byte in a byte. -/
structure MachineCursor where
  byte : UInt64
  bit : UInt8
  deriving DecidableEq

namespace MachineCursor

def bitPosition (m : MachineCursor) : UInt64 := m.byte * 8 + m.bit.toUInt64

/-- The cursor one bit further, and whether it has rolled into the next byte. -/
def advanceBit (m : MachineCursor) : Bool × MachineCursor :=
  if m.bit + 1 = 8 then (true, ⟨m.byte + 1, 0⟩) else (false, ⟨m.byte, m.bit + 1⟩)

def advanceByte (m : MachineCursor) : MachineCursor := ⟨m.byte + 1, m.bit⟩

def advance (m : MachineCursor) : Step → MachineCursor
  | .bit => m.advanceBit.2
  | .byte => m.advanceByte

/-- The cursor after some steps. -/
def walk (m : MachineCursor) (steps : List Step) : MachineCursor := steps.foldl advance m

/-- The number of bits before the cursor, counted without bound. -/
def place (m : MachineCursor) : Nat := 8 * m.byte.toNat + m.bit.toNat

/-- A machine cursor at the place of a cursor in unbounded numbers. -/
structure IsAt (m : MachineCursor) (c : Cursor) : Prop where
  byte : m.byte.toNat = c.byte
  bit : m.bit.toNat = c.bit.val

/-- A machine cursor is at some place when its offset is that of a bit. -/
theorem exists_isAt {m : MachineCursor} (h : m.bit < 8) : ∃ c : Cursor, m.IsAt c :=
  ⟨⟨m.byte.toNat, ⟨m.bit.toNat, UInt8.lt_iff_toNat_lt.mp h⟩⟩, rfl, rfl⟩

namespace IsAt

variable {m m' : MachineCursor} {c : Cursor}

theorem unique (h : m.IsAt c) (h' : m'.IsAt c) : m = m' := by
  have hbyte : m.byte = m'.byte := UInt64.toNat_inj.mp (h.byte.trans h'.byte.symm)
  have hbit : m.bit = m'.bit := UInt8.toNat_inj.mp (h.bit.trans h'.bit.symm)
  cases m
  cases m'
  simp_all

variable (h : m.IsAt c)

include h

theorem bit_lt : m.bit < 8 := by
  rw [UInt8.lt_iff_toNat_lt, h.bit]
  exact c.bit.isLt

theorem place_eq : m.place = c.bitPosition := by
  rw [place, h.byte, h.bit]
  rfl

/-- Where the number of bits fits a word, counting them in words is exact. -/
theorem toNat_bitPosition (hrange : c.bitPosition < 2 ^ 64) :
    m.bitPosition.toNat = c.bitPosition := by
  have hproduct : m.byte.toNat * 8 + m.bit.toNat = c.bitPosition := by
    rw [h.byte, h.bit, Nat.mul_comm]
    rfl
  rw [MachineCursor.bitPosition, UInt64.toNat_add, UInt64.toNat_mul, UInt8.toNat_toUInt64]
  change (m.byte.toNat * 8 % 2 ^ 64 + m.bit.toNat) % 2 ^ 64 = _
  omega

theorem succ_bit : (m.bit + 1).toNat = c.bit.val + 1 := by
  have hbit := c.bit.isLt
  rw [UInt8.toNat_add, h.bit, UInt8.toNat_one]
  omega

theorem succ_byte (hrange : c.byte + 1 < 2 ^ 64) : (m.byte + 1).toNat = c.byte + 1 := by
  rw [UInt64.toNat_add, h.byte]
  exact Nat.mod_eq_of_lt hrange

/-- The driver is told of a roll just where the cursor in unbounded numbers is at the last bit. -/
theorem rolls_iff : m.bit + 1 = 8 ↔ c.atLastBit = true := by
  rw [← UInt8.toNat_inj, h.succ_bit, Cursor.atLastBit, beq_iff_eq]
  exact Nat.succ_inj

theorem told_eq : m.advanceBit.1 = c.atLastBit := by
  rw [advanceBit]
  split
  · next hroll => exact (h.rolls_iff.mp hroll).symm
  · next hroll => exact (Bool.eq_false_iff.mpr (mt h.rolls_iff.mpr hroll)).symm

/-- One step moves both cursors alike, as long as the byte that is gone to has an address. -/
theorem advance {step : Step} (hrange : (c.advance step).byte < 2 ^ 64) :
    (m.advance step).IsAt (c.advance step) := by
  cases step with
  | byte => exact ⟨h.succ_byte hrange, h.bit⟩
  | bit =>
      have hbit := c.bit.isLt
      simp only [MachineCursor.advance, Cursor.advance, advanceBit, Cursor.advanceBit] at hrange ⊢
      by_cases hlast : c.atLastBit = true
      · have hseven : c.bit.val = 7 := by simpa [Cursor.atLastBit] using hlast
        rw [if_pos hlast] at hrange
        rw [if_pos (h.rolls_iff.mpr hlast), if_pos hlast]
        exact ⟨h.succ_byte hrange, by simp [Offset.next, hseven]⟩
      · have hseven : c.bit.val ≠ 7 := by simpa [Cursor.atLastBit] using hlast
        rw [if_neg (mt h.rolls_iff.mp hlast), if_neg hlast]
        refine ⟨h.byte, h.succ_bit.trans ?_⟩
        simp only [Offset.next]
        omega

/-- Any steps move both cursors alike, as long as the last byte has an address. -/
theorem walk {steps : List Step} (hrange : (c.walk steps).byte < 2 ^ 64) :
    (m.walk steps).IsAt (c.walk steps) := by
  induction steps generalizing m c with
  | nil => exact h
  | cons step steps ih =>
      exact ih (h.advance (Nat.lt_of_le_of_lt (Cursor.byte_le_walk _ steps) hrange)) hrange

end IsAt

/-! ## The whole run of a machine cursor -/

variable {m m' : MachineCursor} {steps : List Step}

/-- As long as the bits can be counted, all the bytes that are gone to have addresses. -/
theorem IsAt.walk_of_range {c : Cursor} (h : m.IsAt c) (hrange : m.place + Step.widths steps < 2 ^ 64) :
    (m.walk steps).IsAt (c.walk steps) := by
  rw [h.place_eq, ← Cursor.bitPosition_walk] at hrange
  refine h.walk ?_
  rw [Cursor.byte_eq_div]
  exact Nat.lt_of_le_of_lt (Nat.div_le_self _ _) hrange

theorem bit_walk_lt (h : m.bit < 8) (hrange : m.place + Step.widths steps < 2 ^ 64) :
    (m.walk steps).bit < 8 := by
  obtain ⟨c, hc⟩ := exists_isAt h
  exact (hc.walk_of_range hrange).bit_lt

theorem place_walk (h : m.bit < 8) (hrange : m.place + Step.widths steps < 2 ^ 64) :
    (m.walk steps).place = m.place + Step.widths steps := by
  obtain ⟨c, hc⟩ := exists_isAt h
  rw [(hc.walk_of_range hrange).place_eq, hc.place_eq, Cursor.bitPosition_walk]

theorem toNat_bitPosition (h : m.bit < 8) (hrange : m.place < 2 ^ 64) :
    m.bitPosition.toNat = m.place := by
  obtain ⟨c, hc⟩ := exists_isAt h
  rw [hc.place_eq] at hrange ⊢
  exact hc.toNat_bitPosition hrange

/-- The number of bits grows by the widths of the steps. -/
theorem toNat_bitPosition_walk (h : m.bit < 8) (hrange : m.place + Step.widths steps < 2 ^ 64) :
    (m.walk steps).bitPosition.toNat = m.bitPosition.toNat + Step.widths steps := by
  have hplace := place_walk h hrange
  rw [toNat_bitPosition (bit_walk_lt h hrange) (by omega), toNat_bitPosition h (by omega), hplace]

/-- A roll is told of just where the next bit begins a byte. -/
theorem rolls_iff (h : m.bit < 8) (hrange : m.place + 1 < 2 ^ 64) :
    m.advanceBit.1 = true ↔ m.advanceBit.2.bitPosition.toNat % 8 = 0 := by
  have hnext : m.advanceBit.2.bitPosition.toNat = m.bitPosition.toNat + 1 :=
    @toNat_bitPosition_walk m [.bit] h hrange
  obtain ⟨c, hc⟩ := exists_isAt h
  rw [hnext, toNat_bitPosition h (by omega), hc.place_eq, hc.told_eq]
  exact c.atLastBit_iff

/-- Where bits can be counted, cursors are told apart by the numbers of bits before them. -/
theorem eq_iff_bitPosition_eq (h : m.bit < 8) (h' : m'.bit < 8) (hrange : m.place < 2 ^ 64)
    (hrange' : m'.place < 2 ^ 64) : m = m' ↔ m.bitPosition = m'.bitPosition := by
  refine ⟨congrArg bitPosition, fun hsame => ?_⟩
  obtain ⟨c, hc⟩ := exists_isAt h
  obtain ⟨c', hc'⟩ := exists_isAt h'
  have hplace : m.place = m'.place := by
    rw [← toNat_bitPosition h hrange, ← toNat_bitPosition h' hrange', hsame]
  rw [hc.place_eq, hc'.place_eq] at hplace
  rw [← Cursor.eq_of_bitPosition_eq hplace] at hc'
  exact hc.unique hc'

end MachineCursor

end WordStream.Sparse
