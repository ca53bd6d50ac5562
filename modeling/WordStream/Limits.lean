/-!
# Limits of the wire formats and of memory

The longest forms of a word, the growth floor of a buffer, the group widths of the two formats, and
the sizes that an allocation and a position cannot pass.
-/

namespace WordStream.Limits

/-- A word takes at most this many bytes in the standard format. -/
def maxStandardBytes : Nat := 5

/-- A word takes at most this many logical bytes in the sparse format. -/
def maxSparseBytes : Nat := 5

/-- A word takes at most this many bytes in either format. -/
def maxWordBytes : Nat := max maxStandardBytes maxSparseBytes

/-- A buffer that grows has at least this capacity afterwards, room for two words of any size. -/
def minGrowth : Nat := 2 * maxWordBytes

/-- The capacity of a buffer for which none was asked. -/
def defaultCapacity : Nat := 64

/-- The first logical byte of a sparse chain carries this many bits of the word. -/
def sparseHeadBits : Nat := 6

/-- Every other byte of a chain, in either format, carries this many bits of the word. -/
def groupBits : Nat := 7

/-- No allocation is larger than this many bytes, one less than the 63rd power of two. -/
def maxAllocation : Nat := 0x7FFFFFFFFFFFFFFF

/-- Positions and sizes lie below this bound, the 64th power of two. -/
def addressBound : Nat := 0x10000000000000000

/-- The version of the formats and of this library. -/
def version : String := "0.1.0"

end WordStream.Limits
