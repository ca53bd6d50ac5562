import WordStream.Proofs.Sparse.Writer
import WordStream.Proofs.Stream.Motion

/-!
# How writes move a sparse writer

All that a writer does to its buffer, moves apart, is put together from two steps, the change of the byte
at the position and the advance to the next one.  A relation between buffers that holds along these two
holds along every write, and along aligning.
-/

namespace WordStream.Sparse.Writer

/-- A relation between the buffers of two writers. -/
def OnBuffers (rel : Buffer → Buffer → Prop) (w w' : Writer) : Prop := rel w.buffer w'.buffer

/-- An action on the buffer moves the buffer of a writer as it moves buffers. -/
theorem onBuffer_moves {α : Type} {rel : Buffer → Buffer → Prop} {act : WriteM Buffer α}
    (h : Moves rel act) : Moves (fun w w' => OnBuffers rel w w' ∧ w'.bit = w.bit) (onBuffer act) := by
  intro w
  have hact := h w.buffer
  cases hrun : act w.buffer with
  | ok a b =>
      rw [hrun] at hact
      rw [onBuffer_ok hrun]
      exact ⟨hact, rfl⟩
  | error fault b =>
      rw [hrun] at hact
      rw [onBuffer_error hrun]
      exact ⟨hact, rfl⟩

/-- A relation between buffers that holds along the steps of which writes are put together. -/
structure MovesOnBytes (rel : Buffer → Buffer → Prop) : Prop extends Stepwise rel where
  modifyCurrent : ∀ f, Moves rel (Buffer.modifyCurrent f)
  advance : Moves rel Buffer.advance

namespace MovesOnBytes

variable {rel : Buffer → Buffer → Prop} (h : MovesOnBytes rel)

include h

theorem stepwise : Stepwise (OnBuffers rel) := ⟨fun w => h.refl w.buffer, h.trans⟩

theorem onBuffer_modify (f : UInt8 → UInt8) :
    Moves (OnBuffers rel) (onBuffer (Buffer.modifyCurrent f)) :=
  fun w => (onBuffer_moves (h.modifyCurrent f) w).1

theorem onBuffer_advance : Moves (OnBuffers rel) (onBuffer Buffer.advance) :=
  fun w => (onBuffer_moves h.advance w).1

theorem setBit (bit : Offset) : Moves (OnBuffers rel) (setBit bit) := fun w => h.refl w.buffer

theorem startByte : Moves (OnBuffers rel) startByte :=
  h.onBuffer_advance.bind h.stepwise fun _ =>
    (h.onBuffer_modify _).bind h.stepwise fun _ => h.setBit _

theorem align : Moves (OnBuffers rel) align := by
  have hposition : Moves (OnBuffers rel) (do return (← get).buffer.position : WriteM Writer Nat) :=
    Moves.map h.stepwise (fun w : Writer => w.buffer.position) (Moves.get h.stepwise)
  refine (Moves.get h.stepwise).bind h.stepwise fun w => ?_
  dsimp only
  split
  · exact h.startByte.bind h.stepwise fun _ => hposition
  · exact hposition

theorem writeZero : Moves (OnBuffers rel) writeZero := by
  have hnext : ∀ bit : Offset, Moves (OnBuffers rel)
      (if bit.val = 7 then Writer.startByte else Writer.setBit bit.next) := by
    intro bit
    split
    · exact h.startByte
    · exact h.setBit _
  refine (Moves.get h.stepwise).bind h.stepwise fun w => ?_
  dsimp only
  split
  · exact (h.onBuffer_modify _).bind h.stepwise fun _ => hnext _
  · exact hnext _

theorem writeLogicalByte (byte : UInt8) : Moves (OnBuffers rel) (writeLogicalByte byte) := by
  have hspill : ∀ bit : Offset, Moves (OnBuffers rel) (onBuffer Buffer.advance >>= fun _ =>
      if bit.val ≠ 0 then onBuffer (Buffer.storeCurrent (byte <<< UInt8.ofNat (8 - bit.val)))
      else pure ()) := by
    refine fun bit => h.onBuffer_advance.bind h.stepwise fun _ => ?_
    split
    · exact h.onBuffer_modify _
    · exact Moves.pure h.stepwise ()
  refine (Moves.get h.stepwise).bind h.stepwise fun w => ?_
  by_cases hbit : w.bit.val = 0
  · rw [if_pos hbit]
    exact (h.onBuffer_modify _).bind h.stepwise fun _ => hspill _
  · rw [if_neg hbit]
    exact (h.onBuffer_modify _).bind h.stepwise fun _ => hspill _

theorem writeWord (word : UInt32) : Moves (OnBuffers rel) (writeWord word : WriteM Writer Unit) := by
  change Moves (OnBuffers rel)
    (if word = 0 then Writer.writeZero else (logicalBytes word).forM Writer.writeLogicalByte)
  split
  · exact h.writeZero
  · exact .forM h.stepwise h.writeLogicalByte _

/-- Booleans and bytes are written as words. -/
theorem movesOnWrites : MovesOnWrites (OnBuffers rel) :=
  ⟨h.stepwise, h.writeWord, fun b => h.writeWord b.toUInt32, fun x => h.writeWord x.toUInt32⟩

end MovesOnBytes

end WordStream.Sparse.Writer
