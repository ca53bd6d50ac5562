/-!
# Halves of a double word

A 64-bit pattern is written as two words, the low half first.
-/

namespace WordStream

def lowHalf (x : UInt64) : UInt32 := x.toUInt32

def highHalf (x : UInt64) : UInt32 := (x >>> 32).toUInt32

/-- The pattern with the given halves. -/
def joinHalves (low high : UInt32) : UInt64 :=
  (high.toUInt64 <<< 32) ||| low.toUInt64

end WordStream
