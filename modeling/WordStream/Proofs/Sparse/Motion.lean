import WordStream.Proofs.Sparse.Composition
import WordStream.Proofs.Stream.Motion

/-!
# How reads move a sparse reader

All reads of the sparse format are put together from two steps, over a flag and over a logical byte.
Neither step, and so no read, changes the bytes.
-/

namespace WordStream.Sparse.Reader

/-- What holds along the reads of a flag and of a logical byte holds along all reads. -/
theorem movesOnWords {rel : Reader → Reader → Prop} (h : Stepwise rel) (hzero : Moves rel readZero)
    (hbyte : Moves rel nextLogicalByte) : MovesOnWords rel := by
  have hword : Moves rel (readWord : ReadM Reader UInt32) := by
    rw [readWord_eq]
    exact wordFrom_lawful (Moves.compositional h) _ nextLogicalByte hbyte _ readZero hzero
  exact ⟨h, hword, hword.map h (· != 0), hword.map h UInt32.toUInt8⟩

/-- Two states of a reader of the same bytes. -/
def SameBytes (r r' : Reader) : Prop := r'.bytes = r.bytes

theorem readZero_sameBytes : Moves SameBytes readZero := by
  intro r
  unfold readZero
  split
  · rfl
  · rfl
  · rfl

theorem nextLogicalByte_sameBytes : Moves SameBytes nextLogicalByte := by
  intro r
  unfold nextLogicalByte
  split
  · rfl
  · rfl

/-- No read changes the bytes. -/
theorem reads_sameBytes : MovesOnWords SameBytes :=
  movesOnWords ⟨fun _ => rfl, fun h h' => Eq.trans h' h⟩ readZero_sameBytes
    nextLogicalByte_sameBytes

end WordStream.Sparse.Reader
