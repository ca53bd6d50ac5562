import WordStream.Proofs.Stream.Composition
import WordStream.Sparse.Reader

/-!
# How the read of a sparse word is put together

Whatever reader it runs on, the read of a word asks first whether a zero is next, and then takes logical
bytes, as many as announce another one.  A law of reads that holds of these two steps holds of words.
-/

namespace WordStream.Sparse

/-- The read of a word, off any reader of flags and logical bytes. -/
def wordFrom {ρ : Type} (readZero : ReadM ρ Bool) (nextLogicalByte : ReadM ρ UInt8) :
    ReadM ρ UInt32 := do
  if ← readZero then return 0 else readChain nextLogicalByte "sparse value"

theorem Reader.readWord_eq :
    (readWord : ReadM Reader UInt32) = wordFrom readZero nextLogicalByte := rfl

section Laws

variable {ρ ρ' : Type} {law : (α : Type) → ReadM ρ α → ReadM ρ' α → Prop} (h : Compositional law)
  (next : ReadM ρ UInt8) (next' : ReadM ρ' UInt8) (hnext : law UInt8 next next')

include h hnext

theorem readChain_lawful (context : String) :
    law UInt32 (readChain next context) (readChain next' context) := by
  rw [readChain_eq, readChain_eq]
  refine h.bind hnext fun head => ?_
  split
  · exact h.chain next next' hnext _ _ _ _
  · exact h.pure _

theorem wordFrom_lawful (readZero : ReadM ρ Bool) (readZero' : ReadM ρ' Bool)
    (hzero : law Bool readZero readZero') :
    law UInt32 (wordFrom readZero next) (wordFrom readZero' next') := by
  refine h.bind hzero fun isZero => ?_
  split
  · exact h.pure 0
  · exact readChain_lawful h next next' hnext _

end Laws

end WordStream.Sparse
