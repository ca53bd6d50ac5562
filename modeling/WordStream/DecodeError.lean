/-!
# Decode errors

What can be wrong with the bytes of a stream, and what was being read when that showed.
-/

namespace WordStream

/-- What is wrong with the bytes of a stream. -/
inductive DecodeError.Cause where
  -- The bytes end inside the value.
  | unexpectedEnd
  -- A fifth group still announces another one.
  | tooLong
  -- The groups spell a number of more than 32 bits.
  | overflow
  deriving DecidableEq

/-- A failed read: its cause, and the name of what was being read. -/
structure DecodeError where
  cause : DecodeError.Cause
  context : String
  deriving DecidableEq

namespace DecodeError

/-- The same error, reported under another name. -/
def withContext (e : DecodeError) (context : String) : DecodeError :=
  { e with context }

def message (e : DecodeError) : String :=
  match e.cause with
  | .unexpectedEnd => s!"unexpected end of input while reading {e.context}"
  | .tooLong => s!"{e.context} exceeds maximum length (5 bytes)"
  | .overflow => s!"{e.context} overflow (value exceeds u32)"

@[simp] theorem withContext_cause (e : DecodeError) (context : String) :
    (e.withContext context).cause = e.cause := rfl

@[simp] theorem withContext_context (e : DecodeError) (context : String) :
    (e.withContext context).context = context := rfl

end DecodeError

/-- A read from a source `ρ`; a failed read leaves the source where it stopped. -/
abbrev ReadM (ρ : Type) : Type → Type := EStateM DecodeError ρ

end WordStream
