import WordStream.Fault
import WordStream.Limits

/-!
# Growable byte buffers

A buffer is an array of bytes with a position.  What lies before the position has been written; what
lies after it is left over from earlier writes, or zero.  A buffer grows by doubling, never below a
floor, and growth keeps exactly what lies before the position: all else in the grown array is zero.
-/

namespace WordStream

/-- An array of bytes, its size being the capacity, and the position of the next byte. -/
structure Buffer where
  -- The array, zeros and leftovers included.
  bytes : Array UInt8
  position : Nat
  deriving DecidableEq

namespace Buffer

/-- An empty buffer of the given capacity, filled with zeros. -/
def withCapacity (capacity : Nat) : Except Fault Buffer :=
  if capacity ≤ Limits.maxAllocation then .ok ⟨Array.replicate capacity 0, 0⟩
  else .error .capacityOverflow

def empty : Buffer := ⟨Array.replicate Limits.defaultCapacity 0, 0⟩

/-- How many bytes the array holds. -/
def capacity (b : Buffer) : Nat := b.bytes.size

/-- How many bytes fit at the position without growth. -/
def remaining (b : Buffer) : Nat := b.capacity - b.position

/-- Whether no byte fits at the position without growth. -/
def isFull (b : Buffer) : Bool := b.capacity ≤ b.position

def firstBytes (b : Buffer) (count : Nat) : Array UInt8 := b.bytes.extract 0 count

/-- The bytes before the position. -/
def written (b : Buffer) : Array UInt8 := b.firstBytes b.position

/-- The capacity after one growth from `capacity`: twice as much, and at least the floor. -/
def grownCapacity (capacity : Nat) : Nat := max (2 * capacity) Limits.minGrowth

/-- The buffer after one growth: the bytes before the position, then zeros. -/
def grown (b : Buffer) : Buffer :=
  { b with
    bytes := b.written ++ Array.replicate (grownCapacity b.capacity - b.written.size) 0 }

theorem withCapacity_defaultCapacity : withCapacity Limits.defaultCapacity = .ok empty := rfl

theorem written_size_le (b : Buffer) : b.written.size ≤ b.capacity := by
  simp only [written, firstBytes, capacity, Array.size_extract]
  omega

@[simp] theorem grown_capacity (b : Buffer) : b.grown.capacity = grownCapacity b.capacity := by
  have h := b.written_size_le
  simp only [capacity, grown, Array.size_append, Array.size_replicate, grownCapacity] at *
  omega

@[simp] theorem grown_position (b : Buffer) : b.grown.position = b.position := rfl

theorem capacity_lt_grownCapacity (capacity : Nat) : capacity < grownCapacity capacity := by
  simp only [grownCapacity, Limits.minGrowth, Limits.maxWordBytes, Limits.maxStandardBytes,
    Limits.maxSparseBytes]
  omega

/-- Grow once, unless twice the capacity is too much to allocate. -/
def grow : WriteM Buffer Unit := fun b =>
  if 2 * b.capacity ≤ Limits.maxAllocation then .ok () b.grown
  else .error (.growthOverflow b.capacity) b

/-- Grow until the capacity is at least `needed`. -/
def growTo (needed : Nat) (b : Buffer) : EStateM.Result Fault Buffer Unit :=
  if b.capacity < needed then
    if 2 * b.capacity ≤ Limits.maxAllocation then growTo needed b.grown
    else .error (.growthOverflow b.capacity) b
  else .ok () b
termination_by needed - b.capacity
decreasing_by
  have := capacity_lt_grownCapacity b.capacity
  simp only [grown_capacity]
  omega

/-- Make room for `count` bytes at the position. -/
def ensure (count : Nat) : WriteM Buffer Unit := fun b =>
  if b.position + count < Limits.addressBound then growTo (b.position + count) b
  else .error (.sizeOverflow b.position count) b

/-- Move to another position inside the array; what lies there stays. -/
def setPosition (position : Nat) : WriteM Buffer Unit := fun b =>
  if position ≤ b.capacity then .ok () { b with position }
  else .error (.beyondCapacity position b.capacity) b

/-- Replace the byte at the position by its image under `f`; the position stays. -/
def modifyCurrent (f : UInt8 → UInt8) : WriteM Buffer Unit := fun ⟨bytes, position⟩ =>
  if position < bytes.size then .ok () ⟨bytes.modify position f, position⟩
  else .error (.outOfBounds position bytes.size) ⟨bytes, position⟩

def storeCurrent (byte : UInt8) : WriteM Buffer Unit := modifyCurrent fun _ => byte

/-- Set the bits of `bits` in the byte at the position. -/
def mergeCurrent (bits : UInt8) : WriteM Buffer Unit := modifyCurrent (· ||| bits)

def step : WriteM Buffer Unit := modify fun b => { b with position := b.position + 1 }

def growIfFull : WriteM Buffer Unit := fun b => if b.isFull then grow b else .ok () b

/-- Step to the next byte and see that it exists. -/
def advance : WriteM Buffer Unit := do
  step
  growIfFull

/-- Store a byte at the position, where there is room, and step past it. -/
def put (byte : UInt8) : WriteM Buffer Unit := do
  storeCurrent byte
  step

/-- Append a byte, growing only when it does not fit. -/
def appendByte (byte : UInt8) : WriteM Buffer Unit := do
  growIfFull
  put byte

/-- Append bytes one after the other, after making room for all of them. -/
def appendBytes (bytes : List UInt8) : WriteM Buffer Unit := do
  ensure bytes.length
  bytes.forM put

end Buffer

end WordStream
