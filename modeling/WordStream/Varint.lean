import WordStream.Buffer
import WordStream.Chain
import WordStream.DecodeError

/-!
# Varints

The standard form of a word: its chain of seven-bit groups, one to five bytes.  An overlong chain is
read as well, but no bit of a group may lie past the 32 of a word.
-/

namespace WordStream.Varint

def encode (word : UInt32) : List UInt8 := Chain.groups word.toNat

/-- The bytes of a word at the start of a block of the longest length, with the length used. -/
def encodeBlock (word : UInt32) : List UInt8 × Nat :=
  let bytes := encode word
  (bytes ++ List.replicate (Limits.maxStandardBytes - bytes.length) 0, bytes.length)

/-- The number of significant bits of a word. -/
def bitLength (word : UInt32) : Nat :=
  if word = 0 then 0 else word.toNat.log2 + 1

/-- The number of bytes of a word, told from its significant bits. -/
def encodedLength (word : UInt32) : Nat :=
  max 1 ((bitLength word + Limits.groupBits - 1) / Limits.groupBits)

/-- Append a word, after making room for the longest one. -/
def write (word : UInt32) : WriteM Buffer Unit := do
  Buffer.ensure Limits.maxStandardBytes
  Buffer.appendBytes (encode word)

/-- Read the groups of a word at the given places and merge each of them into `result`, up to the first
byte whose top bit is not set.  At the last place there is room for four bits of a group only. -/
def readGroups {ρ : Type} (next : ReadM ρ UInt8) (context : String) :
    (places : List Nat) → (result : UInt32) → ReadM ρ UInt32
  | [], _ => throw ⟨.tooLong, context⟩
  | place :: places, result => do
      let byte ← next
      let group := (byte &&& 0x7F).toUInt32
      if place = Limits.maxStandardBytes - 1 ∧ 0x0F < group then throw ⟨.overflow, context⟩
      else
        let merged := result ||| group <<< UInt32.ofNat (Limits.groupBits * place)
        if byte &&& 0x80 = 0 then return merged
        else readGroups next context places merged

/-- Read a word, in the course of reading what `context` names. -/
def read {ρ : Type} (next : ReadM ρ UInt8) (context : String) : ReadM ρ UInt32 :=
  readGroups next context (List.range Limits.maxStandardBytes) 0

end WordStream.Varint
