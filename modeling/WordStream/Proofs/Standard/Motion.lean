import WordStream.Proofs.Buffer.Motion
import WordStream.Proofs.Stream.Motion

/-!
# How writes move a standard writer

What a writer does to its buffer, moves apart, is to append a varint or a byte.  So a relation between
buffers that holds along the steps of which appends are put together holds along every write.
-/

namespace WordStream.Standard.Writer

/-- A relation between the buffers of two writers. -/
def OnBuffers (rel : Buffer → Buffer → Prop) (w w' : Writer) : Prop := rel w.buffer w'.buffer

variable {rel : Buffer → Buffer → Prop}

/-- An action on the buffer moves the buffer of a writer as it moves buffers. -/
theorem onBuffer_moves {α : Type} {act : WriteM Buffer α} (h : Moves rel act) :
    Moves (OnBuffers rel) (onBuffer act) := by
  intro w
  have hact := h w.buffer
  cases hrun : act w.buffer with
  | ok a b =>
      rw [hrun] at hact
      rw [onBuffer_ok hrun]
      exact hact
  | error fault b =>
      rw [hrun] at hact
      rw [onBuffer_error hrun]
      exact hact

theorem movesOnWrites (h : Buffer.MovesOnSteps rel)
    (hensure : ∀ count ≤ Limits.maxStandardBytes, Moves rel (Buffer.ensure count)) :
    MovesOnWrites (OnBuffers rel) where
  refl w := h.refl w.buffer
  trans := h.trans
  writeWord w := onBuffer_moves (h.writeVarint hensure w)
  writeBool b := onBuffer_moves (h.appendByte b.toUInt8)
  writeByte x := onBuffer_moves (h.appendByte x)

end WordStream.Standard.Writer
