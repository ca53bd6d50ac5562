import WordStream.Proofs.Motion
import WordStream.Proofs.Standard.Spelling

/-!
# How appends move a buffer

All that is appended to a buffer is put together from three steps, the change of the byte at the position,
the step to the next one and the growth of a full array, and from the making of room before several bytes.
A relation between buffers that holds along these holds along every append.
-/

namespace WordStream

namespace Buffer

/-- A relation between buffers that holds along the steps of which appends are put together. -/
structure MovesOnSteps (rel : Buffer → Buffer → Prop) : Prop extends Stepwise rel where
  modifyCurrent : ∀ f, Moves rel (Buffer.modifyCurrent f)
  step : Moves rel Buffer.step
  growIfFull : Moves rel Buffer.growIfFull

namespace MovesOnSteps

variable {rel : Buffer → Buffer → Prop} (h : MovesOnSteps rel)

include h

theorem advance : Moves rel Buffer.advance :=
  h.step.bind h.toStepwise fun _ => h.growIfFull

theorem put (byte : UInt8) : Moves rel (Buffer.put byte) :=
  (h.modifyCurrent _).bind h.toStepwise fun _ => h.step

theorem appendByte (byte : UInt8) : Moves rel (Buffer.appendByte byte) :=
  h.growIfFull.bind h.toStepwise fun _ => h.put byte

theorem appendBytes {bytes : List UInt8} (hensure : Moves rel (ensure bytes.length)) :
    Moves rel (Buffer.appendBytes bytes) :=
  hensure.bind h.toStepwise fun _ => .forM h.toStepwise h.put bytes

/-- A word asks for the room of the longest one, and then for its own. -/
theorem writeVarint (hensure : ∀ count ≤ Limits.maxStandardBytes, Moves rel (ensure count))
    (word : UInt32) : Moves rel (Varint.write word) :=
  (hensure _ (Nat.le_refl _)).bind h.toStepwise fun _ =>
    h.appendBytes (hensure _ (Varint.length_encode_le word))

end MovesOnSteps

end Buffer

end WordStream
