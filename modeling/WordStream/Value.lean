import WordStream.Word.Halves
import WordStream.Word.Reversal
import WordStream.Word.ZigZag

/-!
# Typed values and their words

A stream stores words and no tags; a list of kinds, held by the caller, says what the words mean.
Floats are kept as bit patterns, so that the sign of zero and the payload of a NaN are part of the
value, and equality of values is equality of kind and pattern.
-/

namespace WordStream

/-- The kinds of value a stream carries. -/
inductive Kind where
  | uint32
  | int32
  | float32
  | float64
  | int64
  deriving DecidableEq

/-- A value of one of the kinds; the floats hold their bit patterns. -/
inductive Value where
  | uint32 (word : UInt32)
  | int32 (number : Int32)
  | float32 (pattern : UInt32)
  | float64 (pattern : UInt64)
  | int64 (number : Int64)
  deriving DecidableEq

namespace Kind

/-- The name of a kind, under which a failed read of it is reported. -/
def name : Kind → String
  | uint32 => "uint32"
  | int32 => "int32"
  | float32 => "float32"
  | float64 => "float64"
  | int64 => "int64"

end Kind

namespace Value

def kind : Value → Kind
  | uint32 _ => .uint32
  | int32 _ => .int32
  | float32 _ => .float32
  | float64 _ => .float64
  | int64 _ => .int64

/-- The bit pattern of a value, zero-extended to 64 bits. -/
def toBits : Value → UInt64
  | uint32 word => word.toUInt64
  | int32 number => number.toUInt32.toUInt64
  | float32 pattern => pattern.toUInt64
  | float64 pattern => pattern
  | int64 number => number.toUInt64

/-- The words a value is written as: a 64-bit value gives its low half first, each half is mapped
like a value of 32 bits. -/
def toWords : Value → List UInt32
  | uint32 word => [word]
  | int32 number => [zigzag number]
  | float32 pattern => [reverseBits pattern]
  | float64 pattern => [reverseBits (lowHalf pattern), reverseBits (highHalf pattern)]
  | int64 number =>
      [zigzag (lowHalf number.toUInt64).toInt32, zigzag (highHalf number.toUInt64).toInt32]

end Value

end WordStream
