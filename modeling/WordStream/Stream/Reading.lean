import WordStream.DecodeError
import WordStream.Value

/-!
# Reading typed values from a stream of words

A source has to know how a word is read; every typed read is then a sequence of word reads, the
inverse of the typed write.  A typed read reports a failure under the name that the source gives it,
the read of a value under the name of its kind.
-/

namespace WordStream

/-- Read a boolean off a word: all but `0` are true. -/
def readBoolAsWord {ρ : Type} (readWord : ReadM ρ UInt32) : ReadM ρ Bool := do
  return (← readWord) != 0

/-- Read a byte, the low eight bits of a word. -/
def readByteAsWord {ρ : Type} (readWord : ReadM ρ UInt32) : ReadM ρ UInt8 := do
  return (← readWord).toUInt8

/-- A source `ρ` from which words are read. -/
class WordReader (ρ : Type) where
  readWord : ReadM ρ UInt32
  readBool : ReadM ρ Bool := readBoolAsWord readWord
  readByte : ReadM ρ UInt8 := readByteAsWord readWord

export WordReader (readWord readBool readByte)

section Typed

variable {ρ : Type} [WordReader ρ]

/-- Read a 16-bit character, the low sixteen bits of a word. -/
def readChar : ReadM ρ UInt16 := do return (← readWord).toUInt16

def readSigned : ReadM ρ Int32 := do return unzigzag (← readWord)

/-- Read a signed 16-bit number, the low sixteen bits of a signed word. -/
def readShort : ReadM ρ Int16 := do return (← readSigned).toInt16

/-- Read the bit pattern of a 32-bit float. -/
def readFloat : ReadM ρ UInt32 := do return reverseBits (← readWord)

def readDouble : ReadM ρ UInt64 := do
  let low ← readWord
  let high ← readWord
  return joinHalves (reverseBits low) (reverseBits high)

def readLong : ReadM ρ Int64 := do
  let low ← readSigned
  let high ← readSigned
  return (joinHalves low.toUInt32 high.toUInt32).toInt64

/-- Read a value of the given kind, with failures named by the source. -/
def readKind : Kind → ReadM ρ Value
  | .uint32 => return .uint32 (← readWord)
  | .int32 => return .int32 (← readSigned)
  | .float32 => return .float32 (← readFloat)
  | .float64 => return .float64 (← readDouble)
  | .int64 => return .int64 (← readLong)

/-- Read a value of the given kind; a failure is reported under the kind's name. -/
def readValue (kind : Kind) : ReadM ρ Value :=
  (readKind kind).adaptExcept (·.withContext kind.name)

/-- Read a value of each kind in turn; the first failure ends the reading. -/
def readValues (schema : List Kind) : ReadM ρ (List Value) := schema.mapM readValue

end Typed

end WordStream
