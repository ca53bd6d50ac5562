import WordStream.Sparse.Cursor

/-!
# Cursors as counts of bits

A cursor is no more than the number of bits before it, split at the last whole byte.  Going from the
one to the other loses nothing, so cursors are told apart by these numbers alone.
-/

namespace WordStream.Sparse.Cursor

/-- The cursor before bit `i`, counted from the first one. -/
def atBit (i : Nat) : Cursor := ⟨i / 8, ⟨i % 8, Nat.mod_lt _ (by decide)⟩⟩

@[simp] theorem bitPosition_atBit (i : Nat) : (atBit i).bitPosition = i := by
  change 8 * (i / 8) + i % 8 = i
  omega

@[simp] theorem atBit_bitPosition (c : Cursor) : atBit c.bitPosition = c := by
  obtain ⟨byte, bit, hbit⟩ := c
  have hbyte : (8 * byte + bit) / 8 = byte := by omega
  have hrest : (8 * byte + bit) % 8 = bit := by omega
  simp only [atBit, bitPosition, hbyte, hrest]

theorem eq_atBit {c : Cursor} {i : Nat} (h : c.bitPosition = i) : c = atBit i := by
  rw [← h, atBit_bitPosition]

end WordStream.Sparse.Cursor
