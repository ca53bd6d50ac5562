/-!
# Reversal of the bits of a word

A word is reversed by five layers: each swaps neighbouring groups of bits, of width 1, 2, 4, 8 and
last 16.  Reversed floats of few significant bits are small numbers, which chains store in few bytes.
-/

namespace WordStream

/-- Swap every two neighbouring groups of `width` bits; `mask` selects the low group of each pair. -/
def swapGroups (mask width x : UInt32) : UInt32 :=
  ((x &&& mask) <<< width) ||| ((x >>> width) &&& mask)

/-- The word whose bit `i` is bit `31 - i` of `x`. -/
def reverseBits (x : UInt32) : UInt32 :=
  swapGroups 0x0000FFFF 16 <| swapGroups 0x00FF00FF 8 <| swapGroups 0x0F0F0F0F 4 <|
    swapGroups 0x33333333 2 <| swapGroups 0x55555555 1 x

end WordStream
