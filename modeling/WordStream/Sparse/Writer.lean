import WordStream.Buffer
import WordStream.Sparse.Code
import WordStream.Sparse.Cursor
import WordStream.Stream.Writing

/-!
# Writing the sparse format

The byte at the position is the one being filled: its first `bit` bits are written and the others are
zero, so that more bits can be merged in.  At offset zero nothing of it is written, and it may hold a
leftover of an earlier write; the next write replaces it whole.
-/

namespace WordStream.Sparse

/-- A writer of the sparse format. -/
structure Writer where
  -- The bytes written so far; the byte at the position is partly filled.
  buffer : Buffer
  -- How many bits of the byte at the position are written.
  bit : Offset
  deriving DecidableEq

namespace Writer

/-- A writer on an empty buffer, which is given room for the first byte. -/
def ofBuffer (buffer : Buffer) : Except Fault Writer :=
  match Buffer.ensure 1 buffer with
  | .ok _ buffer => .ok ⟨buffer, .start⟩
  | .error fault _ => .error fault

def empty : Writer := ⟨.empty, .start⟩

def withCapacity (capacity : Nat) : Except Fault Writer := do
  ofBuffer (← Buffer.withCapacity capacity)

def withOptions (options : WriterOptions) : Except Fault Writer :=
  withCapacity options.initialCapacity

theorem ofBuffer_eq_ok (buffer : Buffer) (h : buffer.position < buffer.capacity)
    (hBound : buffer.position + 1 < Limits.addressBound) : 
    ofBuffer buffer = .ok ⟨buffer, .start⟩ := by
  simp only [ofBuffer, Buffer.ensure, if_pos hBound]
  rw [Buffer.growTo, if_neg (by omega)]

theorem withOptions_default : withOptions {} = .ok empty :=
  ofBuffer_eq_ok .empty (by decide) (by decide)

/-- The place of the next bit. -/
def cursor (w : Writer) : Cursor := ⟨w.buffer.position, w.bit⟩

/-- The number of bytes that hold written bits. -/
def length (w : Writer) : Nat := w.buffer.position + if w.bit.val = 0 then 0 else 1

def isEmpty (w : Writer) : Bool := w.length == 0

def capacity (w : Writer) : Nat := w.buffer.capacity

/-- The bytes that hold written bits. -/
def toBytes (w : Writer) : Array UInt8 := w.buffer.firstBytes w.length

def onBuffer {α : Type} (act : WriteM Buffer α) : WriteM Writer α := fun ⟨buffer, bit⟩ =>
  match act buffer with
  | .ok a buffer => .ok a ⟨buffer, bit⟩
  | .error fault buffer => .error fault ⟨buffer, bit⟩

/-- Set the number of bits written in the byte at the position. -/
def setBit (bit : Offset) : WriteM Writer Unit := modify fun w => { w with bit }

/-- Start the next byte: step to it, clear it, and write it from its first bit. -/
def startByte : WriteM Writer Unit := do
  onBuffer Buffer.advance
  onBuffer (Buffer.storeCurrent 0)
  setBit .start

/-- Fill the byte at the position with zero bits, and tell the position of the byte that follows what
is written; a reader can start there. -/
def align : WriteM Writer Nat := do
  if (← get).bit.val ≠ 0 then startByte
  return (← get).buffer.position

/-- Align, then move to another byte of the buffer. -/
def setPosition (position : Nat) : WriteM Writer Unit := do
  discard align
  onBuffer (Buffer.setPosition position)
  onBuffer (Buffer.ensure 1)

/-- Write the single bit of a zero. -/
def writeZero : WriteM Writer Unit := do
  let bit := (← get).bit
  if bit.val = 0 then onBuffer (Buffer.storeCurrent 0)
  if bit.val = 7 then startByte else setBit bit.next

/-- Write eight bits: the high ones into the byte at the position, the low ones at the top of the
byte after it. -/
def writeLogicalByte (byte : UInt8) : WriteM Writer Unit := do
  let bit := (← get).bit
  if bit.val = 0 then onBuffer (Buffer.storeCurrent byte)
  else onBuffer (Buffer.mergeCurrent (byte >>> UInt8.ofNat bit.val))
  onBuffer Buffer.advance
  if bit.val ≠ 0 then onBuffer (Buffer.storeCurrent (byte <<< UInt8.ofNat (8 - bit.val)))

instance : WordWriter Writer where
  writeWord word :=
    if word = 0 then writeZero else (logicalBytes word).forM writeLogicalByte

end Writer

end WordStream.Sparse
