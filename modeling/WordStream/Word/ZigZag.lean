/-!
# Zigzag

Signed words are counted `0, -1, 1, -2, 2, …`, so that a number of small magnitude becomes a small
word, whatever its sign.
-/

namespace WordStream

/-- The place of a signed word in the order `0, -1, 1, -2, 2, …`. -/
def zigzag (v : Int32) : UInt32 := ((v <<< 1) ^^^ (v >>> 31)).toUInt32

/-- The signed word at a place of the order `0, -1, 1, -2, 2, …`. -/
def unzigzag (u : UInt32) : Int32 := (u >>> 1).toInt32 ^^^ -(u &&& 1).toInt32

end WordStream
