/-!
# Faults

An operation on a buffer, a writer or a cursor that is refused says why.  A fault tells nothing about
the data: it says that the caller asked for something outside the operation's domain.
-/

namespace WordStream

/-- Why an operation was refused. -/
inductive Fault where
  -- A reservation of `count` bytes at `position` would end past the last address.
  | sizeOverflow (position count : Nat)
  -- A move to `position` would leave a buffer of `capacity` bytes.
  | beyondCapacity (position capacity : Nat)
  -- An offset inside a byte is not below eight.
  | bitOffset (offset : Nat)
  -- The capacity asked for at creation is larger than any allocation.
  | capacityOverflow
  -- A buffer of `capacity` bytes cannot double.
  | growthOverflow (capacity : Nat)
  -- An access at `index` misses an array of `length` bytes.
  | outOfBounds (index length : Nat)
  deriving DecidableEq

namespace Fault

def message : Fault → String
  | sizeOverflow position count => s!"buffer size overflow: {position} + {count}"
  | beyondCapacity position capacity => s!"position {position} beyond capacity {capacity}"
  | bitOffset offset => s!"bit offset {offset} out of range"
  | capacityOverflow => "capacity overflow"
  | growthOverflow capacity => s!"buffer capacity overflow growing from {capacity} bytes"
  | outOfBounds index length =>
      s!"index out of bounds: the len is {length} but the index is {index}"

end Fault

/-- An action on a state `σ` that may be refused; a refusal keeps the state reached so far. -/
abbrev WriteM (σ : Type) : Type → Type := EStateM Fault σ

end WordStream
