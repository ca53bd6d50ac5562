import WordStream.Json.Token

/-!
# Trees of a JSON text

Tokens are read one at a time, with a stack of the arrays and objects that are still open.
-/

namespace WordStream

/-- What a JSON text denotes; members keep their order, and a key may come more than once. -/
inductive Json where
  | null
  | bool (b : Bool)
  | number (n : Json.Numeral)
  | string (pieces : List Json.Piece)
  | array (elements : List Json)
  | object (members : List (List Json.Piece × Json))

namespace Json

/-- An array or object that is still open, what it holds so far in reverse. -/
inductive Frame where
  -- An array before its next element.
  | array (elements : List Json)
  -- An object before its next key.
  | object (members : List (List Piece × Json))
  -- An object before the value of a key.
  | member (members : List (List Piece × Json)) (key : List Piece)

/-- What may come next. -/
inductive Expected where
  | value
  -- A value, or the end of an array that is still empty.
  | firstElement
  | key
  -- A key, or the end of an object that is still empty.
  | firstKey
  | colon (key : List Piece)
  -- What may follow a whole value.
  | afterValue (value : Json)

/-- A text of which the tokens so far have been read. -/
structure Reading where
  expected : Expected
  frames : List Frame

namespace Reading

def start : Reading := ⟨.value, []⟩

/-- Take a token that starts a value. -/
def startValue (frames : List Frame) : Token → Option Reading
  | .null => some ⟨.afterValue .null, frames⟩
  | .bool b => some ⟨.afterValue (.bool b), frames⟩
  | .number n => some ⟨.afterValue (.number n), frames⟩
  | .string pieces => some ⟨.afterValue (.string pieces), frames⟩
  | .openArray => some ⟨.firstElement, .array [] :: frames⟩
  | .openObject => some ⟨.firstKey, .object [] :: frames⟩
  | _ => none

/-- Take a token that follows a whole value. -/
def continueAfter (value : Json) : List Frame → Token → Option Reading
  | .array elements :: frames, .comma => some ⟨.value, .array (value :: elements) :: frames⟩
  | .array elements :: frames, .closeArray =>
      some ⟨.afterValue (.array (value :: elements).reverse), frames⟩
  | .member members key :: frames, .comma =>
      some ⟨.key, .object ((key, value) :: members) :: frames⟩
  | .member members key :: frames, .closeObject =>
      some ⟨.afterValue (.object ((key, value) :: members).reverse), frames⟩
  | _, _ => none

def step (r : Reading) (token : Token) : Option Reading :=
  match r.expected, token, r.frames with
  | .firstElement, .closeArray, .array _ :: frames => some ⟨.afterValue (.array []), frames⟩
  | .firstElement, _, frames => startValue frames token
  | .value, _, frames => startValue frames token
  | .firstKey, .closeObject, .object _ :: frames => some ⟨.afterValue (.object []), frames⟩
  | .firstKey, .string key, frames => some ⟨.colon key, frames⟩
  | .key, .string key, frames => some ⟨.colon key, frames⟩
  | .colon key, .colon, .object members :: frames => some ⟨.value, .member members key :: frames⟩
  | .afterValue value, _, frames => continueAfter value frames token
  | _, _, _ => none

/-- The value of a text that has ended. -/
def finish? (r : Reading) : Option Json :=
  match r.expected, r.frames with
  | .afterValue value, [] => some value
  | _, _ => none

end Reading

def ofText? (text : String) : Option Json := do
  (← (← tokens? text).foldlM Reading.step Reading.start).finish?

end Json

end WordStream
