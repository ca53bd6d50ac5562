import WordStream.Chain
import WordStream.DecodeError
import WordStream.Limits

/-!
# The sparse form of a word

Zero is the single bit `0`.  Any other word is a chain of eight-bit groups, called logical bytes: the
first one holds the flag `1`, a continuation bit and six bits of the word; the others hold a
continuation bit and seven bits each.  Low bits come first.  A reader accepts overlong chains (high
groups that are zero), but no number of more than 32 bits.
-/

namespace WordStream.Sparse

/-- The flag of a word other than zero, in its first logical byte. -/
def nonzeroFlag : UInt8 := 0x80

/-- The continuation bit of the first logical byte. -/
def headContinuation : UInt8 := 0x40

/-- The bits of the word in the first logical byte. -/
def headMask : UInt32 := 0x3F

/-- The continuation bit of the other logical bytes. -/
def continuation : UInt8 := 0x80

/-- The bits of the word in the other logical bytes. -/
def groupMask : UInt32 := 0x7F

/-- The logical bytes of a word other than zero. -/
def logicalBytes (word : UInt32) : List UInt8 :=
  let low := (word &&& headMask).toUInt8
  let rest := word >>> UInt32.ofNat Limits.sparseHeadBits
  if rest = 0 then [nonzeroFlag ||| low]
  else (nonzeroFlag ||| headContinuation ||| low) :: Chain.groups rest.toNat

/-- Read at most `count` groups of a word and merge them into `result`, the first of them `shift` bits up.
A group with bits past the 32 of a word is told before a chain that is too long, and both only after the
group that shows them has been consumed. -/
def readGroups {ρ : Type} (next : ReadM ρ UInt8) (context : String) :
    (count shift : Nat) → (result : UInt32) → ReadM ρ UInt32
  | 0, _, _ => throw ⟨.tooLong, context⟩
  | count + 1, shift, result => do
      let byte ← next
      let group := byte.toUInt32 &&& groupMask
      if 32 < shift + Limits.groupBits ∧ group >>> UInt32.ofNat (32 - shift) ≠ 0 then
        throw ⟨.overflow, context⟩
      else
        let merged := result ||| group <<< UInt32.ofNat shift
        if byte &&& continuation ≠ 0 then
          readGroups next context count (shift + Limits.groupBits) merged
        else return merged

/-- Read the chain of a word other than zero, off a source of logical bytes. -/
def readChain {ρ : Type} (next : ReadM ρ UInt8) (context : String) : ReadM ρ UInt32 := do
  let head ← next
  let low := head.toUInt32 &&& headMask
  if head &&& headContinuation ≠ 0 then
    readGroups next context (Limits.maxSparseBytes - 1) Limits.sparseHeadBits low
  else return low

end WordStream.Sparse
