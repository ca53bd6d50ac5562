import WordStream.Stream.Writing
import WordStream.Varint

/-!
# Writing the standard format

Every value takes whole bytes: booleans and bytes are stored as they are, all else as varints.
-/

namespace WordStream.Standard

/-- A writer of the standard format. -/
structure Writer where
  buffer : Buffer
  deriving DecidableEq

namespace Writer

def empty : Writer := ⟨.empty⟩

def withCapacity (capacity : Nat) : Except Fault Writer := do
  return ⟨← Buffer.withCapacity capacity⟩

def withOptions (options : WriterOptions) : Except Fault Writer :=
  withCapacity options.initialCapacity

theorem withOptions_default : withOptions {} = .ok empty := rfl

def position (w : Writer) : Nat := w.buffer.position

def length (w : Writer) : Nat := w.buffer.position

def isEmpty (w : Writer) : Bool := w.length == 0

def capacity (w : Writer) : Nat := w.buffer.capacity

def toBytes (w : Writer) : Array UInt8 := w.buffer.written

def onBuffer {α : Type} (act : WriteM Buffer α) : WriteM Writer α := fun ⟨buffer⟩ =>
  match act buffer with
  | .ok a buffer => .ok a ⟨buffer⟩
  | .error fault buffer => .error fault ⟨buffer⟩

/-- Move to another position of the buffer: later writes go there, and bytes after it are no longer
part of the output. -/
def setPosition (position : Nat) : WriteM Writer Unit := onBuffer (Buffer.setPosition position)

instance : WordWriter Writer where
  writeWord word := onBuffer (Varint.write word)
  writeBool b := onBuffer (Buffer.appendByte b.toUInt8)
  writeByte byte := onBuffer (Buffer.appendByte byte)

end Writer

end WordStream.Standard
