import WordStream.Fault

/-!
# Cursors between bits

A place in a string of bytes, counted in bits from the most significant one of the first byte.  One
step forward is one bit or eight, and the number of bits before the cursor grows by just that.
-/

namespace WordStream.Sparse

/-- A place inside a byte: how many of its bits, the most significant ones first, lie before it. -/
abbrev Offset := Fin 8

namespace Offset

def start : Offset := ⟨0, by decide⟩

/-- One bit further; after the last bit of a byte comes the start of the next one. -/
def next (o : Offset) : Offset := ⟨(o.val + 1) % 8, Nat.mod_lt _ (by decide)⟩

end Offset

/-- The place before bit `bit` of byte `byte`. -/
structure Cursor where
  byte : Nat := 0
  bit : Offset := Offset.start
  deriving DecidableEq

namespace Cursor

/-- The cursor at an offset inside a byte, for offsets below eight. -/
def ofOffset (byte bit : Nat) : Except Fault Cursor :=
  if h : bit < 8 then .ok ⟨byte, ⟨bit, h⟩⟩ else .error (.bitOffset bit)

def isAligned (c : Cursor) : Bool := c.bit.val == 0

/-- The number of bits before the cursor. -/
def bitPosition (c : Cursor) : Nat := 8 * c.byte + c.bit.val

/-- Whether one bit further lies the start of the next byte. -/
def atLastBit (c : Cursor) : Bool := c.bit.val == 7

def advanceBit (c : Cursor) : Cursor :=
  ⟨if c.atLastBit then c.byte + 1 else c.byte, c.bit.next⟩

def advanceByte (c : Cursor) : Cursor := { c with byte := c.byte + 1 }

@[simp] theorem bitPosition_advanceByte (c : Cursor) :
    c.advanceByte.bitPosition = c.bitPosition + 8 := by
  simp only [advanceByte, bitPosition]
  omega

@[simp] theorem bitPosition_advanceBit (c : Cursor) :
    c.advanceBit.bitPosition = c.bitPosition + 1 := by
  have hlt := c.bit.isLt
  simp only [advanceBit, atLastBit, bitPosition, Offset.next, beq_iff_eq]
  split
  · omega
  · omega

end Cursor

end WordStream.Sparse
