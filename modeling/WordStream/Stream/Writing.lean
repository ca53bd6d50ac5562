import WordStream.Fault
import WordStream.Limits
import WordStream.Value

/-!
# Writing typed values to a stream of words

A stream has to know how a word is written; every typed write is then a sequence of word writes.  A
format may store booleans and bytes in a way of its own.
-/

namespace WordStream

/-- How a writer is set up. -/
structure WriterOptions where
  initialCapacity : Nat := Limits.defaultCapacity
  deriving DecidableEq

/-- Write a boolean as the word `0` or `1`. -/
def writeBoolAsWord {σ : Type} (writeWord : UInt32 → WriteM σ Unit) (b : Bool) : WriteM σ Unit :=
  writeWord b.toUInt32

/-- Write a byte as the word of the same number. -/
def writeByteAsWord {σ : Type} (writeWord : UInt32 → WriteM σ Unit) (byte : UInt8) : WriteM σ Unit :=
  writeWord byte.toUInt32

/-- A state `σ` to which words are written. -/
class WordWriter (σ : Type) where
  writeWord : UInt32 → WriteM σ Unit
  writeBool : Bool → WriteM σ Unit := writeBoolAsWord writeWord
  writeByte : UInt8 → WriteM σ Unit := writeByteAsWord writeWord

export WordWriter (writeWord writeBool writeByte)

section Typed

variable {σ : Type} [WordWriter σ]

def writeWords (words : List UInt32) : WriteM σ Unit := words.forM writeWord

def writeValue (value : Value) : WriteM σ Unit := writeWords value.toWords

def writeValues (values : List Value) : WriteM σ Unit := values.forM writeValue

/-- Write a 16-bit character as the word of the same number. -/
def writeChar (unit : UInt16) : WriteM σ Unit := writeWord unit.toUInt32

def writeSigned (number : Int32) : WriteM σ Unit := writeValue (.int32 number)

/-- Write a signed 16-bit number as the signed word of the same number. -/
def writeShort (number : Int16) : WriteM σ Unit := writeSigned number.toInt32

/-- Write a 32-bit float, given by its bit pattern. -/
def writeFloat (pattern : UInt32) : WriteM σ Unit := writeValue (.float32 pattern)

def writeDouble (pattern : UInt64) : WriteM σ Unit := writeValue (.float64 pattern)

def writeLong (number : Int64) : WriteM σ Unit := writeValue (.int64 number)

end Typed

end WordStream
