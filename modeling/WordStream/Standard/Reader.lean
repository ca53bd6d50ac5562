import WordStream.Stream.Reading
import WordStream.Varint

/-!
# Reading the standard format

A reader is a position in an array of bytes, possibly past its end.  A read that needs a byte where
there is none fails and stays there.
-/

namespace WordStream.Standard

/-- A reader of the standard format. -/
structure Reader where
  bytes : Array UInt8
  position : Nat := 0
  deriving DecidableEq

namespace Reader

def setPosition (position : Nat) (r : Reader) : Reader := { r with position }

def remaining (r : Reader) : Array UInt8 := r.bytes.extract r.position

def isEmpty (r : Reader) : Bool := r.bytes.size ≤ r.position

/-- Read a byte, in the course of reading what `context` names. -/
def nextByte (context : String) : ReadM Reader UInt8 := fun r =>
  match r.bytes[r.position]? with
  | some byte => .ok byte { r with position := r.position + 1 }
  | none => .error ⟨.unexpectedEnd, context⟩ r

/-- Read a varint, in the course of reading what `context` names. -/
def readVarint (context : String) : ReadM Reader UInt32 :=
  Varint.read (nextByte context) context

instance : WordReader Reader where
  readWord := readVarint "uint32"
  readBool := do return (← nextByte "bool") != 0
  readByte := nextByte "byte"

end Reader

end WordStream.Standard
