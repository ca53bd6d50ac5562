import WordStream.Stream.Reading
import WordStream.Stream.Writing

/-!
# The queue of words

The plainest stream: words are kept as they are, written at the back and read from the front.
-/

namespace WordStream

/-- Words in the order in which they were written. -/
structure WordQueue where
  words : List UInt32
  deriving DecidableEq

namespace WordQueue

def empty : WordQueue := ⟨[]⟩

def push (word : UInt32) (q : WordQueue) : WordQueue := ⟨q.words ++ [word]⟩

instance : WordWriter WordQueue where
  writeWord word := modify (push word)

instance : WordReader WordQueue where
  readWord
    | ⟨word :: words⟩ => .ok word ⟨words⟩
    | ⟨[]⟩ => .error ⟨.unexpectedEnd, "words"⟩ ⟨[]⟩

end WordQueue

end WordStream
