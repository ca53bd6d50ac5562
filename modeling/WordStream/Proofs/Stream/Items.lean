import WordStream.Proofs.Stream.Symbols
import WordStream.Proofs.Words

/-!
# Typed calls

Every typed write has a typed read that answers it, and an item is what passes from one to the other.
In any format an item is spelled by the words of its value, apart from booleans and bytes; reading
the spelling of an item by the call of its type gives the item back.
-/

namespace WordStream

/-- The typed calls of a stream. -/
inductive ItemType where
  | word
  | bool
  | byte
  | char
  | short
  | signed
  | float
  | double
  | long
  | value (kind : Kind)
  deriving DecidableEq

/-- The argument of a typed write; floats are given by their bit patterns. -/
inductive Item where
  | word (w : UInt32)
  | bool (b : Bool)
  | byte (x : UInt8)
  | char (unit : UInt16)
  | short (number : Int16)
  | signed (number : Int32)
  | float (pattern : UInt32)
  | double (pattern : UInt64)
  | long (number : Int64)
  | value (value : Value)
  deriving DecidableEq

namespace ItemType

def read {ρ : Type} [WordReader ρ] : ItemType → ReadM ρ Item
  | word => return .word (← readWord)
  | bool => return .bool (← readBool)
  | byte => return .byte (← readByte)
  | char => return .char (← readChar)
  | short => return .short (← readShort)
  | signed => return .signed (← readSigned)
  | float => return .float (← readFloat)
  | double => return .double (← readDouble)
  | long => return .long (← readLong)
  | value kind => return .value (← readValue kind)

end ItemType

namespace Item

/-- The typed call that an item belongs to. -/
def type : Item → ItemType
  | word _ => .word
  | bool _ => .bool
  | byte _ => .byte
  | char _ => .char
  | short _ => .short
  | signed _ => .signed
  | float _ => .float
  | double _ => .double
  | long _ => .long
  | value v => .value v.kind

def write {σ : Type} [WordWriter σ] : Item → WriteM σ Unit
  | word w => writeWord w
  | bool b => writeBool b
  | byte x => writeByte x
  | char unit => writeChar unit
  | short number => writeShort number
  | signed number => writeSigned number
  | float pattern => writeFloat pattern
  | double pattern => writeDouble pattern
  | long number => writeLong number
  | value v => writeValue v

def spelled {β : Type} (spelling : Spelling β) : Item → List β
  | word w => spelling.words [w]
  | bool b => spelling.byte b.toUInt8
  | byte x => spelling.byte x
  | char unit => spelling.words [unit.toUInt32]
  | short number => spelling.words (Value.int32 number.toInt32).toWords
  | signed number => spelling.words (Value.int32 number).toWords
  | float pattern => spelling.words (Value.float32 pattern).toWords
  | double pattern => spelling.words (Value.float64 pattern).toWords
  | long number => spelling.words (Value.int64 number).toWords
  | value v => spelling.words v.toWords

end Item

/-! ## Writing -/

section Writers

variable {σ β : Type} [SymbolSink σ β] [WordWriter σ] {spelling : Spelling β}
  [WritesSpelling σ spelling]

theorem Item.appends_write (item : Item) :
    Appends (item.write : WriteM σ Unit) (item.spelled spelling) := by
  cases item with
  | word w =>
      rw [spelled, Spelling.words_singleton]
      exact appends_writeWord w
  | bool b => exact appends_writeBool b
  | byte x => exact appends_writeByte x
  | char unit =>
      rw [spelled, Spelling.words_singleton]
      exact appends_writeWord unit.toUInt32
  | short number => exact appends_writeValue (.int32 number.toInt32)
  | signed number => exact appends_writeValue (.int32 number)
  | float pattern => exact appends_writeValue (.float32 pattern)
  | double pattern => exact appends_writeValue (.float64 pattern)
  | long number => exact appends_writeValue (.int64 number)
  | value v => exact appends_writeValue v

end Writers

/-! ## Reading -/

section Readers

variable {ρ β : Type} [SymbolSource ρ β] [WordReader ρ] {spelling : Spelling β}
  [ReadsSpelling ρ spelling]

theorem takes_readWord_words (w : UInt32) :
    Takes (readWord : ReadM ρ UInt32) (spelling.words [w]) w := by
  rw [Spelling.words_singleton]
  exact takes_readWord w

theorem takes_readChar (unit : UInt16) :
    Takes (readChar : ReadM ρ UInt16) (spelling.words [unit.toUInt32]) unit := by
  have h := Takes.map UInt32.toUInt16 (takes_readWord_words (ρ := ρ) unit.toUInt32)
  rwa [UInt16.toUInt16_toUInt32] at h

theorem takes_readSigned (number : Int32) :
    Takes (readSigned : ReadM ρ Int32) (spelling.words [zigzag number]) number := by
  have h := Takes.map unzigzag (takes_readWord_words (ρ := ρ) (zigzag number))
  rwa [unzigzag_zigzag] at h

theorem takes_readShort (number : Int16) :
    Takes (readShort : ReadM ρ Int16) (spelling.words [zigzag number.toInt32]) number := by
  have h := Takes.map Int32.toInt16 (takes_readSigned (ρ := ρ) number.toInt32)
  rwa [Int16.toInt16_toInt32] at h

theorem takes_readFloat (pattern : UInt32) :
    Takes (readFloat : ReadM ρ UInt32) (spelling.words [reverseBits pattern]) pattern := by
  have h := Takes.map reverseBits (takes_readWord_words (ρ := ρ) (reverseBits pattern))
  rwa [reverseBits_reverseBits] at h

theorem takes_readDouble (pattern : UInt64) :
    Takes (readDouble : ReadM ρ UInt64) (spelling.words (Value.float64 pattern).toWords)
      pattern := by
  have h := Takes.map₂ (fun low high => joinHalves (reverseBits low) (reverseBits high))
    (takes_readWord_words (ρ := ρ) (reverseBits (lowHalf pattern)))
    (takes_readWord_words (ρ := ρ) (reverseBits (highHalf pattern)))
  rw [reverseBits_reverseBits, reverseBits_reverseBits, joinHalves_halves,
    ← Spelling.words_append] at h
  exact h

theorem takes_readLong (number : Int64) :
    Takes (readLong : ReadM ρ Int64) (spelling.words (Value.int64 number).toWords) number := by
  have h := Takes.map₂ (fun low high : Int32 =>
      (joinHalves low.toUInt32 high.toUInt32).toInt64)
    (takes_readSigned (ρ := ρ) (lowHalf number.toUInt64).toInt32)
    (takes_readSigned (ρ := ρ) (highHalf number.toUInt64).toInt32)
  rw [UInt32.toUInt32_toInt32, UInt32.toUInt32_toInt32, joinHalves_halves,
    Int64.toInt64_toUInt64, ← Spelling.words_append] at h
  exact h

theorem takes_readKind (v : Value) :
    Takes (readKind v.kind : ReadM ρ Value) (spelling.words v.toWords) v := by
  cases v with
  | uint32 w => exact Takes.map Value.uint32 (takes_readWord_words w)
  | int32 number => exact Takes.map Value.int32 (takes_readSigned number)
  | float32 pattern => exact Takes.map Value.float32 (takes_readFloat pattern)
  | float64 pattern => exact Takes.map Value.float64 (takes_readDouble pattern)
  | int64 number => exact Takes.map Value.int64 (takes_readLong number)

theorem takes_readValue (v : Value) :
    Takes (readValue v.kind : ReadM ρ Value) (spelling.words v.toWords) v :=
  Takes.adaptExcept _ (takes_readKind v)

/-- Reading the spelling of an item by its own call gives the item back. -/
theorem Item.takes_read (item : Item) :
    Takes (item.type.read : ReadM ρ Item) (item.spelled spelling) item := by
  cases item with
  | word w => exact Takes.map Item.word (takes_readWord_words w)
  | bool b => exact Takes.map Item.bool (takes_readBool b)
  | byte x => exact Takes.map Item.byte (takes_readByte x)
  | char unit => exact Takes.map Item.char (takes_readChar unit)
  | short number => exact Takes.map Item.short (takes_readShort number)
  | signed number => exact Takes.map Item.signed (takes_readSigned number)
  | float pattern => exact Takes.map Item.float (takes_readFloat pattern)
  | double pattern => exact Takes.map Item.double (takes_readDouble pattern)
  | long number => exact Takes.map Item.long (takes_readLong number)
  | value v => exact Takes.map Item.value (takes_readValue v)

end Readers

end WordStream
