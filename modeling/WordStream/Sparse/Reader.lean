import WordStream.Bits
import WordStream.Sparse.Code
import WordStream.Sparse.Cursor
import WordStream.Stream.Reading

/-!
# Reading the sparse format

A reader is a cursor in an array of bytes, possibly past its end.  The flag of the next word is looked
at first; it is consumed on its own when it spells zero, and with its logical byte otherwise.
-/

namespace WordStream.Sparse

/-- A reader of the sparse format. -/
structure Reader where
  bytes : Array UInt8
  cursor : Cursor := {}
  deriving DecidableEq

namespace Reader

/-- The index of the byte that holds the next bit. -/
def position (r : Reader) : Nat := r.cursor.byte

def setPosition (position : Nat) (r : Reader) : Reader := { r with cursor := ⟨position, .start⟩ }

def isEmpty (r : Reader) : Bool := r.bytes.size ≤ r.cursor.byte

/-- The flag bit at the cursor, if the cursor is inside the bytes. -/
def flag? (r : Reader) : Option Bool :=
  r.bytes[r.cursor.byte]?.map fun byte => Bits.bitAt byte r.cursor.bit.val

/-- The eight bits from the cursor on, if they all lie inside the bytes. -/
def logicalByte? (r : Reader) : Option UInt8 := do
  let high ← r.bytes[r.cursor.byte]?
  if r.cursor.bit.val = 0 then return high
  let low ← r.bytes[r.cursor.byte + 1]?
  return (high <<< UInt8.ofNat r.cursor.bit.val) ||| (low >>> UInt8.ofNat (8 - r.cursor.bit.val))

/-- Consume the next bit if it is the flag of a zero, and tell whether it is. -/
def readZero : ReadM Reader Bool := fun r =>
  match r.flag? with
  | some true => .ok false r
  | some false => .ok true { r with cursor := r.cursor.advanceBit }
  | none => .error ⟨.unexpectedEnd, "zero flag"⟩ r

def nextLogicalByte : ReadM Reader UInt8 := fun r =>
  match r.logicalByte? with
  | some byte => .ok byte { r with cursor := r.cursor.advanceByte }
  | none => .error ⟨.unexpectedEnd, "sparse value"⟩ r

/-- Read the chain of a word other than zero. -/
def readChain : ReadM Reader UInt32 := Sparse.readChain nextLogicalByte "sparse value"

instance : WordReader Reader where
  readWord := do if ← readZero then return 0 else readChain

end Reader

end WordStream.Sparse
